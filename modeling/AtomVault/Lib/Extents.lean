import AtomVault.Lib.Bytes
import Mathlib.Order.Interval.Finset.Nat

/-!
# Regions of a file

A chain of extents starts where the last one ended. Extents are packed into `[lo, hi)`
if each is inside and no two overlap, in whatever order they are listed.
-/

namespace Lib

structure Extent where
  start : Nat
  len : Nat

namespace Extent

def stop (e : Extent) : Nat := e.start + e.len

def Apart (a b : Extent) : Prop := a.stop ≤ b.start ∨ b.stop ≤ a.start

theorem Apart.symm {a b : Extent} (h : a.Apart b) : b.Apart a := Or.symm h

/-- The bytes of an extent. -/
def read (e : Extent) (f : Bytes) : Bytes := slice f e.start e.len

end Extent

open Extent

def Chain : Nat → List Extent → Nat → Prop
  | p, [], q => p = q
  | p, e :: es, q => e.start = p ∧ Chain e.stop es q

theorem Chain.le {es : List Extent} : ∀ {p q : Nat}, Chain p es q → p ≤ q := by
  induction es with
  | nil => intro p q h; exact le_of_eq h
  | cons e es ih =>
    rintro p q ⟨rfl, h⟩
    exact le_trans (by simp [stop]) (ih h)

theorem Chain.append {es fs : List Extent} : ∀ {p q r : Nat}, Chain p es q → Chain q fs r →
    Chain p (es ++ fs) r := by
  induction es with
  | nil => rintro p q r rfl h'; exact h'
  | cons e es ih =>
    rintro p q r ⟨hp, h⟩ h'
    exact ⟨hp, ih h h'⟩

theorem Chain.eq_add {es : List Extent} : ∀ {p q : Nat}, Chain p es q →
    q = p + (es.map (·.len)).sum := by
  induction es with
  | nil => intro p q h; exact h.symm
  | cons e es ih =>
    rintro p q ⟨rfl, h⟩
    rw [ih h, List.map_cons, List.sum_cons, stop, Nat.add_assoc]

/-- What a chain holds is one piece of the file. -/
theorem Chain.flatMap_read {es : List Extent} {f : Bytes} : ∀ {p q : Nat}, Chain p es q →
    es.flatMap (·.read f) = slice f p (q - p) := by
  induction es with
  | nil =>
    rintro p q rfl
    simp
  | cons e es ih =>
    rintro p q ⟨rfl, h⟩
    have hle := h.le
    unfold stop at hle
    rw [List.flatMap_cons, ih h, Extent.read, stop, slice_append_slice]
    congr 1
    omega

/-- Inside `[lo, hi)`, and pairwise disjoint. -/
structure Packed (lo hi : Nat) (es : List Extent) : Prop where
  lo_le : ∀ e ∈ es, lo ≤ e.start
  le_hi : ∀ e ∈ es, e.stop ≤ hi
  apart : es.Pairwise Apart

theorem Packed.nil (lo hi : Nat) : Packed lo hi [] := ⟨by simp, by simp, List.Pairwise.nil⟩

theorem Packed.mono {lo hi hi' : Nat} {es : List Extent} (h : Packed lo hi es) (hle : hi ≤ hi') :
    Packed lo hi' es :=
  ⟨h.lo_le, fun e he => le_trans (h.le_hi e he) hle, h.apart⟩

theorem Packed.sublist {lo hi : Nat} {es fs : List Extent} (h : Packed lo hi es)
    (hs : fs.Sublist es) : Packed lo hi fs :=
  ⟨fun e he => h.lo_le e (hs.subset he), fun e he => h.le_hi e (hs.subset he), h.apart.sublist hs⟩

theorem Chain.packed {es : List Extent} : ∀ {p q : Nat}, Chain p es q → Packed p q es := by
  induction es with
  | nil => intro p q _; exact Packed.nil p q
  | cons e es ih =>
    rintro p q ⟨rfl, h⟩
    have hrest := ih h
    have hstop : e.start ≤ e.stop := by simp [stop]
    refine ⟨?_, ?_, List.Pairwise.cons ?_ hrest.apart⟩
    · rintro e' (_ | ⟨_, he⟩)
      · exact le_refl _
      · exact le_trans hstop (hrest.lo_le e' he)
    · rintro e' (_ | ⟨_, he⟩)
      · exact h.le
      · exact hrest.le_hi e' he
    · intro e' he
      exact Or.inl (hrest.lo_le e' he)

/-- What is added past the end overlaps nothing. -/
theorem Packed.append {lo hi hi' : Nat} {es fs : List Extent} (h : Packed lo hi es)
    (hlo : lo ≤ hi) (hhi : hi ≤ hi') (h' : Packed hi hi' fs) : Packed lo hi' (es ++ fs) := by
  refine ⟨?_, ?_, List.pairwise_append.mpr ⟨h.apart, h'.apart, ?_⟩⟩
  · intro e he
    rcases List.mem_append.mp he with he | he
    · exact h.lo_le e he
    · exact le_trans hlo (h'.lo_le e he)
  · intro e he
    rcases List.mem_append.mp he with he | he
    · exact le_trans (h.le_hi e he) hhi
    · exact h'.le_hi e he
  · intro a ha b hb
    exact Or.inl (le_trans (h.le_hi a ha) (h'.lo_le b hb))

/-- The places that some extents cover, each place once. -/
theorem exists_cover {es : List Extent} (h : es.Pairwise Apart) :
    ∃ S : Finset Nat, S.card = (es.map (·.len)).sum ∧
      ∀ n, n ∈ S ↔ ∃ e ∈ es, e.start ≤ n ∧ n < e.stop := by
  induction es with
  | nil => exact ⟨∅, by simp⟩
  | cons e es ih =>
    rw [List.pairwise_cons] at h
    obtain ⟨S, hcard, hS⟩ := ih h.2
    have hdisj : Disjoint (Finset.Ico e.start e.stop) S := by
      rw [Finset.disjoint_left]
      intro n hn hmem
      rw [Finset.mem_Ico] at hn
      obtain ⟨x, hx, hlo, hhi⟩ := (hS n).mp hmem
      rcases h.1 x hx with hap | hap <;> omega
    refine ⟨Finset.Ico e.start e.stop ∪ S, ?_, fun n => ?_⟩
    · rw [Finset.card_union_of_disjoint hdisj, Nat.card_Ico, hcard, stop, Nat.add_sub_cancel_left,
        List.map_cons, List.sum_cons]
    · simp [hS]

/-- Disjoint extents are no longer than what they lie in. -/
theorem Packed.sum_le {lo hi : Nat} {es : List Extent} (h : Packed lo hi es) :
    (es.map (·.len)).sum ≤ hi - lo := by
  obtain ⟨S, hcard, hS⟩ := exists_cover h.apart
  rw [← hcard, ← Nat.card_Ico]
  apply Finset.card_le_card
  intro n hn
  obtain ⟨e, he, hlo, hhi⟩ := (hS n).mp hn
  rw [Finset.mem_Ico]
  exact ⟨(h.lo_le e he).trans hlo, hhi.trans_le (h.le_hi e he)⟩

/-! ## Files that agree outside some extents -/

structure AgreeOff (es : List Extent) (f g : Bytes) : Prop where
  length : g.length = f.length
  read : ∀ e : Extent, (∀ x ∈ es, e.Apart x) → e.read g = e.read f

theorem AgreeOff.refl (es : List Extent) (f : Bytes) : AgreeOff es f f := ⟨rfl, fun _ _ => rfl⟩

theorem AgreeOff.trans {es : List Extent} {f g k : Bytes} (h : AgreeOff es f g)
    (h' : AgreeOff es g k) : AgreeOff es f k :=
  ⟨h'.length.trans h.length, fun e he => (h'.read e he).trans (h.read e he)⟩

theorem AgreeOff.mono {es fs : List Extent} {f g : Bytes} (h : AgreeOff es f g) (hs : es ⊆ fs) :
    AgreeOff fs f g :=
  ⟨h.length, fun e he => h.read e fun x hx => he x (hs hx)⟩

/-- A write that stays within an extent of the file. -/
theorem AgreeOff.patch {e : Extent} {f b : Bytes} (hb : b.length ≤ e.len)
    (hf : e.stop ≤ f.length) : AgreeOff [e] f (patch f e.start b) := by
  unfold stop at hf
  refine ⟨by rw [length_patch]; omega, fun x hx => ?_⟩
  have hx := hx e (by simp)
  unfold Apart stop at hx
  exact slice_patch_of_disjoint f e.start b x.start x.len (by omega)

end Lib
