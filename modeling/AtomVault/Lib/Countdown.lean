import AtomVault.Lib.Calls

/-!
# How many calls go through before a fault

A fault counts calls down. `Lasts n` says that `n` more calls go through, `Spends n` that a run
made `n` of them. The rules here only count: `wp_counted` puts one of them beside the rule that
says what the call does.
-/

namespace Lib

/-- The next `n` calls do not meet the fault. -/
def Lasts (n : Nat) : Option Fault → Prop
  | none => True
  | some f => n ≤ f.after

instance (n : Nat) : DecidablePred (Lasts n)
  | none => inferInstanceAs (Decidable True)
  | some f => inferInstanceAs (Decidable (n ≤ f.after))

theorem Lasts.mono {m n : Nat} {g : Option Fault} (h : Lasts n g) (hle : m ≤ n) : Lasts m g := by
  cases g with
  | none => trivial
  | some f => exact hle.trans h

theorem lasts_zero (g : Option Fault) : Lasts 0 g := by
  cases g with
  | none => trivial
  | some f => exact Nat.zero_le _

/-- What is left of a countdown is no longer than all of it. -/
theorem GoesOn.lasts {f g : Option Fault} {n : Nat} (h : GoesOn f g) (hn : Lasts n g) :
    Lasts n f := by
  cases f with
  | none => trivial
  | some f =>
    obtain ⟨m, hm, rfl⟩ := h
    exact le_trans hn hm

section Spends

variable {σ : Type} {m n : Nat} {s s' s'' : Env σ}

/-- Exactly `n` calls were made, and the fault was not among them. -/
structure Spends (n : Nat) (s s' : Env σ) : Prop where
  lasts : Lasts n s.host.fault
  left : ∀ k, Lasts k s'.host.fault ↔ Lasts (k + n) s.host.fault

theorem Spends.of_eq (h : s'.host.fault = s.host.fault) : Spends 0 s s' :=
  ⟨lasts_zero _, fun k => by rw [h, Nat.add_zero]⟩

theorem Spends.trans (a : Spends m s s') (b : Spends n s' s'') : Spends (m + n) s s'' where
  lasts := by
    rw [Nat.add_comm]
    exact (a.left n).mp b.lasts
  left k := by
    rw [b.left, a.left, Nat.add_assoc, Nat.add_comm n m]

/-- A run that did not last has not lasted before. -/
theorem Spends.not_lasts (a : Spends m s s') (h : ¬Lasts n s'.host.fault) :
    ¬Lasts (m + n) s.host.fault := by
  rw [Nat.add_comm]
  exact fun hn => h ((a.left n).mpr hn)

theorem Spends.congr (a : Spends n s s') (h : s''.host.fault = s'.host.fault) : Spends n s s'' :=
  ⟨a.lasts, fun k => by rw [h, a.left]⟩

end Spends

section Counting

variable {σ ε α : Type} {s : Env σ} {onErr : String → ε} {fd n : Nat} {path : String}

/-- A rule that counts, beside one that does not. -/
theorem wp_counted {x : Prog σ ε α} {C : Prop} {Q : α → Env σ → Prop} {E : ε → Env σ → Prop}
    (hx : wp x (fun _ s' => Spends n s s') (fun _ _ => C) s)
    (h : wp x (fun a s' => Spends n s s' → Q a s') (fun e s' => C → E e s') s) : wp x Q E s := by
  rw [wp_iff] at *
  constructor
  · intro a s' hok
    exact h.1 a s' hok (hx.1 a s' hok)
  · intro e s' herr
    exact h.2 e s' herr (hx.2 e s' herr)

/-- The rule of a call, with the fault told apart from an error of the call's own. -/
theorem wp_call_counted {damage : Nat → Host → Host} {act : Host → Except String (α × Host)}
    {Q : α → Env σ → Prop} {E : ε → Env σ → Prop}
    (hfired : ¬Lasts 1 s.host.fault →
      ∀ text, E (onErr text) (s.onHost (damage (torn s.host.fault))))
    (hact : ∀ g, GoesOn s.host.fault g → Spends 1 s (s.setFault g) →
      match act (s.host.setFault g) with
      | .ok (a, h) => Q a (s.onHost fun _ => h)
      | .error text => E (onErr text) (s.setFault g)) :
    wp (call onErr damage act) Q E s := by
  unfold wp call
  match hf : s.host.fault with
  | none =>
    have hspent : Spends 1 s (s.setFault none) :=
      ⟨by rw [hf]; trivial, fun k => by rw [hf]; exact Iff.rfl⟩
    have := hact none (by rw [hf]) hspent
    simp only
    split at this <;> simp_all [Env.onHost]
  | some ⟨0, k, text⟩ =>
    have := hfired (by rw [hf]; exact Nat.not_succ_le_zero 0) text
    rw [hf] at this
    exact this
  | some ⟨m + 1, k, text⟩ =>
    have hspent : Spends 1 s (s.setFault (some ⟨m, k, text⟩)) := by
      refine ⟨by rw [hf]; exact Nat.succ_le_succ (Nat.zero_le m), fun j => ?_⟩
      rw [hf]
      exact Nat.succ_le_succ_iff.symm
    have := hact (some ⟨m, k, text⟩) (by rw [hf]; exact ⟨m, by simp, rfl⟩) hspent
    simp only
    split at this <;> simp_all [Env.onHost]

theorem counted_call {damage : Nat → Host → Host} {act : Host → Except String (α × Host)}
    {C : Prop} (hfault : ¬Lasts 1 s.host.fault → C)
    (hact : ∀ g, match act (s.host.setFault g) with
      | .ok (_, h) => h.fault = g
      | .error _ => C) :
    wp (call onErr damage act) (fun _ s' => Spends 1 s s') (fun _ _ => C) s := by
  apply wp_call_counted
  · exact fun hf _ => hfault hf
  · intro g hg hspent
    have hdone := hact g
    cases hcall : act (s.host.setFault g) with
    | error text =>
      rw [hcall] at hdone
      exact hdone
    | ok r =>
      rw [hcall] at hdone
      exact hspent.congr hdone

theorem counted_openFile : wp (Call.openFile onErr path) (fun _ s' => Spends 1 s s')
    (fun _ _ => ¬Lasts 1 s.host.fault ∨ s.host.names path = none) s := by
  apply counted_call Or.inl
  intro g
  cases hn : s.host.names path with
  | none =>
    simp only [Host.setFault, hn]
    exact Or.inr trivial
  | some i =>
    simp only [Host.setFault, hn]
    rfl

theorem counted_createNew : wp (Call.createNew onErr path) (fun _ s' => Spends 1 s s')
    (fun _ _ => ¬Lasts 1 s.host.fault ∨ s.host.names path ≠ none) s := by
  apply counted_call Or.inl
  intro g
  cases hn : s.host.names path with
  | none =>
    simp only [Host.setFault, hn]
    rfl
  | some i =>
    simp only [Host.setFault, hn]
    exact Or.inr (Option.some_ne_none i)

theorem counted_seek : wp (Call.seek onErr fd n) (fun _ s' => Spends 1 s s')
    (fun _ _ => ¬Lasts 1 s.host.fault ∨ maxLen < n) s := by
  apply counted_call Or.inl
  intro g
  by_cases hn : n ≤ maxLen
  · simp only [hn, if_true]
    rfl
  · simp only [hn, if_false]
    exact Or.inr (not_le.mp hn)

theorem counted_readExact : wp (Call.readExact onErr fd n) (fun _ s' => Spends 1 s s')
    (fun _ _ => ¬Lasts 1 s.host.fault ∨ (s.host.data fd).length < s.host.pos fd + n) s := by
  apply counted_call Or.inl
  intro g
  by_cases hn : s.host.pos fd + n ≤ (s.host.data fd).length
  · have hn' : (s.host.setFault g).pos fd + n ≤ ((s.host.setFault g).data fd).length := hn
    simp only [hn', if_true]
    rfl
  · have hn' : ¬(s.host.setFault g).pos fd + n ≤ ((s.host.setFault g).data fd).length := hn
    simp only [hn', if_false]
    exact Or.inr (not_le.mp hn)

theorem counted_readToEnd : wp (Call.readToEnd onErr fd n) (fun _ s' => Spends 1 s s')
    (fun _ _ => ¬Lasts 1 s.host.fault) s :=
  counted_call id fun _ => rfl

theorem counted_probe : wp (Call.probe onErr) (fun _ s' => Spends 1 s s')
    (fun _ _ => ¬Lasts 1 s.host.fault) s :=
  counted_call id fun _ => rfl

theorem counted_writeAll {b : Bytes} : wp (Call.writeAll onErr fd b) (fun _ s' => Spends 1 s s')
    (fun _ _ => ¬Lasts 1 s.host.fault ∨ maxLen < s.host.pos fd + b.length) s := by
  apply counted_call Or.inl
  intro g
  by_cases hn : s.host.pos fd + b.length ≤ maxLen
  · have hn' : (s.host.setFault g).pos fd + b.length ≤ maxLen := hn
    simp only [hn', if_true]
    show ((s.host.setFault g).write fd b).fault = g
    unfold Host.write
    split <;> rfl
  · have hn' : ¬(s.host.setFault g).pos fd + b.length ≤ maxLen := hn
    simp only [hn', if_false]
    exact Or.inr (not_le.mp hn)

theorem counted_draw : wp (Call.draw n : Prog σ ε _) (fun _ s' => Spends 0 s s')
    (fun _ _ => False) s :=
  Spends.of_eq rfl

theorem counted_openTruncate : wp (Call.openTruncate onErr path) (fun _ s' => Spends 1 s s')
    (fun _ _ => ¬Lasts 1 s.host.fault) s := by
  apply counted_call id
  intro g
  cases hn : s.host.names path with
  | none =>
    simp only [Host.setFault, hn]
    rfl
  | some i =>
    simp only [Host.setFault, hn]
    rfl

theorem wp_stat {Q : Unit → Env σ → Prop} {E : ε → Env σ → Prop}
    (hfired : ¬Lasts 1 s.host.fault → ∀ t, E (onErr t) s)
    (hnone : s.host.names path = none → ∀ t s', Spends 1 s s' → Still s s' → E (onErr t) s')
    (hok : s.host.names path ≠ none → ∀ s', Spends 1 s s' → Still s s' → Q () s') :
    wp (Call.stat onErr path) Q E s := by
  apply wp_call_counted
  · exact fun hf t => hfired hf t
  · intro g hg hspent
    cases hn : s.host.names path with
    | none =>
      simp only [Host.setFault, hn]
      exact hnone hn _ _ hspent (Still.setFault hg)
    | some i =>
      simp only [Host.setFault, hn]
      exact hok (by simp [hn]) _ hspent (Still.setFault hg)

/-- The file with `b` at its end, if there is room for it. -/
def extend (f b : Bytes) : Bytes := if f.length + b.length ≤ maxLen then f ++ b else f

/-- A write at the end of a file, whether there is room for it or not. -/
theorem wp_append_torn {b : Bytes} {Q : Unit → Env σ → Prop} {E : ε → Env σ → Prop}
    (hend : s.host.pos fd = (s.host.data fd).length)
    (hfired : ¬Lasts 1 s.host.fault → ∀ t s', Touches fd s s' →
      s'.host.data fd = extend (s.host.data fd) (b.take (torn s.host.fault)) → E (onErr t) s')
    (hlarge : Lasts 1 s.host.fault → maxLen < (s.host.data fd).length + b.length →
      ∀ t s', Still s s' → E (onErr t) s')
    (hok : ∀ s', (s.host.data fd).length + b.length ≤ maxLen → Spends 1 s s' → Touches fd s s' →
      s'.host.data fd = s.host.data fd ++ b → s'.host.pos fd = (s'.host.data fd).length → Q () s') :
    wp (Call.writeAll onErr fd b) Q E s := by
  apply wp_call_counted
  · intro hf t
    refine hfired hf t _ (touches_write (GoesOn.refl _) _) ?_
    unfold extend
    rw [← hend]
    split
    · rename_i hfit
      have hdata := Host.write_data hfit (le_of_eq hend)
      rw [hend, patch_at_end] at hdata
      exact hdata
    · rename_i hfit
      exact Host.write_data_of_large (not_le.mp hfit)
  · intro g hg hspent
    have hlasts := hspent.lasts
    by_cases hn : s.host.pos fd + b.length ≤ maxLen
    · have hn' : (s.host.setFault g).pos fd + b.length ≤ maxLen := hn
      simp only [hn', if_true]
      have hdata : ((s.host.setFault g).write fd b).data fd = s.host.data fd ++ b := by
        rw [Host.write_data hn' (le_of_eq hend)]
        show patch (s.host.data fd) (s.host.pos fd) b = _
        rw [hend, patch_at_end]
      have hpos : ((s.host.setFault g).write fd b).pos fd = s.host.pos fd + b.length :=
        Host.write_pos b
      refine hok _ (by rw [← hend]; exact hn) (hspent.congr ?_)
        (touches_count (touches_write hg b)) hdata ?_
      · show ((s.host.setFault g).write fd b).fault = g
        unfold Host.write
        split <;> rfl
      · show ((s.host.setFault g).write fd b).pos fd =
          (((s.host.setFault g).write fd b).data fd).length
        rw [hpos, hdata, hend, List.length_append]
    · have hn' : ¬(s.host.setFault g).pos fd + b.length ≤ maxLen := hn
      simp only [hn', if_false]
      refine hlarge hlasts ?_ _ _ (Still.setFault hg)
      rw [← hend]
      exact not_le.mp hn

/-- A failing write that there is room for leaves as much of it as the fault lets through. -/
theorem wp_writeAll_torn {b : Bytes} {Q : Unit → Env σ → Prop} {E : ε → Env σ → Prop}
    (hpos : s.host.pos fd ≤ (s.host.data fd).length) (hfit : s.host.pos fd + b.length ≤ maxLen)
    (herr : ¬Lasts 1 s.host.fault → ∀ t s', Touches fd s s' →
      s'.host.data fd = patch (s.host.data fd) (s.host.pos fd) (b.take (torn s.host.fault)) →
      E (onErr t) s')
    (hok : ∀ s', Spends 1 s s' → Touches fd s s' →
      s'.host.data fd = patch (s.host.data fd) (s.host.pos fd) b → Q () s') :
    wp (Call.writeAll onErr fd b) Q E s := by
  apply wp_counted counted_writeAll
  apply wp_call
  · intro hf t hwhy
    have hshort : (b.take (torn s.host.fault)).length ≤ b.length := by simp
    exact herr (hwhy.resolve_right (not_lt.mpr hfit)) t _ (touches_write (GoesOn.refl _) _)
      (Host.write_data (by omega) hpos)
  · intro g hg
    have hfit' : (s.host.setFault g).pos fd + b.length ≤ maxLen := hfit
    simp only [hfit', if_true]
    intro hspent
    exact hok _ hspent (touches_count (touches_write hg b)) (Host.write_data hfit hpos)

end Counting

end Lib
