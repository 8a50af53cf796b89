import AtomVault.Live.Record
import Mathlib.Data.List.Perm.Basic

/-!
# Publishing and looking up (`discovery/mod.rs`)

A substrate is asked to keep bytes under a label and to hand them back. What it does with
them is its own affair.
-/

open Lib

namespace AtomVault.Live

/-- What a substrate answers: to the `n`th `put` of a publish, and to the `n`th `get` of a
lookup. -/
structure Substrate where
  name : String
  put : Nat → Option Error
  get : Nat → String → Except Error (Option Bytes)

structure PublishReport where
  succeeded : List String
  failed : List (String × String)

namespace Discovery

/-! ## Publishing -/

section Publish

variable (pr : Primitives)

def sealAll (r : AddressRecord) (draws : Nat → SealDraws) :
    Nat → List Slot → Except Error (List (String × Bytes))
  | _, [] => .ok []
  | n, slot :: slots => do
    let bytes ← r.sealFor pr slot (draws n)
    let rest ← sealAll r draws (n + 1) slots
    return (slot.tagHex, bytes) :: rest

/-- The puts that one substrate accepted, up to its first error. -/
def putAll (sub : Substrate) : Nat → List (String × Bytes) → Option Error × List (String × Bytes)
  | _, [] => (none, [])
  | n, item :: items =>
    match sub.put n with
    | some e => (some e, [])
    | none =>
      let (e, accepted) := putAll sub (n + 1) items
      (e, item :: accepted)

def TTL : UInt64 := min MAX_TTL_SECS (2 * EPOCH_SECS)

def reportOn (items : List (String × Bytes)) : List Substrate → PublishReport
  | [] => ⟨[], []⟩
  | sub :: subs =>
    let report := reportOn items subs
    match (putAll sub 0 items).1 with
    | none => { report with succeeded := sub.name :: report.succeeded }
    | some e => { report with failed := (sub.name, e.display) :: report.failed }

/-- The sealed records that go to every substrate, and what became of them. -/
def publish (subs : List Substrate) (secret : RendezvousSecret) (loc peer : BundleId)
    (r : AddressRecord) (now : Except Error UInt64) (draws : Nat → SealDraws) :
    Except Error (List (String × Bytes) × PublishReport) := do
  if subs = [] then
    throw (.discovery ("no rendezvous endpoint is configured, so this peer cannot be found " ++
      "by ID alone — add one, or exchange an address manually"))
  let direction := Direction.publishing loc peer
  let slots := publishSlots pr secret direction (← now)
  let items ← sealAll pr r draws 0 slots
  return (items, reportOn items subs)

end Publish

/-! ## Looking up -/

section Resolve

def swap {α : Type} (l : List α) (i j : Nat) : List α :=
  if h : i < l.length ∧ j < l.length then (l.set i l[j]).set j l[i] else l

/-- Fisher–Yates from the end. The `i`th draw is eight bytes of noise. -/
def shuffle {α : Type} (noise : Nat → UInt64) : Nat → List α → List α
  | 0, l => l
  | i + 1, l => shuffle noise i (swap l (i + 1) ((noise (i + 1)).toNat % (i + 2)))

def shuffled {α : Type} (l : List α) (noise : Except String (Nat → UInt64)) :
    Except Error (List α) :=
  if l.length < 2 then .ok l
  else do
    let noise ← noise.mapError noRandomness
    return shuffle noise (l.length - 1) l

structure Looking where
  best : Option AddressRecord
  lastError : String

variable (pr : Primitives) (u : Unicode) (now : UInt64) (newestSeen : Option UInt64)

/-- One answer of a substrate. -/
def consider (name : String) (slot : Slot) (answer : Except Error (Option Bytes)) (st : Looking) :
    Looking :=
  match answer with
  | .error e => { st with lastError := s!"{name}: {Error.display e}" }
  | .ok none => st
  | .ok (some bytes) =>
    match AddressRecord.openAt pr u bytes slot now with
    | .error _ => st
    | .ok candidate =>
      if candidate.supersedes newestSeen = false then
        { st with lastError := s!"{name}: only a stale record was served — the peer may not have " ++
          "published since moving, or the endpoint is replaying an old one" }
      else if st.best.all fun b => candidate.seq > b.seq then { st with best := some candidate }
      else st

/-- All the slots of one substrate. -/
def lookIn (sub : Substrate) : Nat → List Slot → Looking → Looking
  | _, [], st => st
  | n, slot :: slots, st =>
    lookIn sub (n + 1) slots (consider pr u now newestSeen sub.name slot (sub.get n slot.tagHex) st)

/-- One substrate after the other, and what they were asked for. -/
def lookThrough (slots : List Slot) : List Substrate → String →
    Except Error AddressRecord × List (String × String)
  | [], lastError =>
    (.error (.discovery (s!"could not find a current address for this peer. Last outcome: " ++
      s!"{lastError}. Either they are not running, or they have not published since their " ++
      "address changed.")), [])
  | sub :: subs, lastError =>
    let st := lookIn pr u now newestSeen sub 0 slots ⟨none, lastError⟩
    let asked := slots.map fun slot => (sub.name, slot.tagHex)
    match st.best with
    | some r => (.ok r, asked)
    | none =>
      let (r, rest) := lookThrough slots subs st.lastError
      (r, asked ++ rest)

end Resolve

/-- The record, and which substrates were asked for which tags. -/
def resolve (pr : Primitives) (u : Unicode) (subs : List Substrate) (secret : RendezvousSecret)
    (loc peer : BundleId) (newestSeen : Option UInt64) (now : Except Error UInt64)
    (noise : Except String (Nat → UInt64)) :
    Except Error AddressRecord × List (String × String) :=
  if subs = [] then
    (.error (.discovery ("no rendezvous endpoint is configured, so this peer's address cannot " ++
      "be looked up — add one, or ask them for an address directly")), [])
  else
    let direction := (Direction.publishing loc peer).flip
    match now, shuffled subs noise with
    | .error e, _ => (.error e, [])
    | .ok _, .error e => (.error e, [])
    | .ok now, .ok subs =>
      lookThrough pr u now newestSeen (lookupSlots pr secret direction now) subs
        "no substrate was reachable"

/-! ## What a lookup accepts -/

section Accepts

variable {pr : Primitives} {u : Unicode} {now : UInt64} {newestSeen : Option UInt64}

theorem swap_perm {α : Type} (l : List α) (i j : Nat) : (swap l i j).Perm l := by
  unfold swap
  split
  · rename_i h
    exact List.set_set_perm h.1 h.2
  · exact List.Perm.refl l

theorem shuffle_perm {α : Type} (noise : Nat → UInt64) (n : Nat) (l : List α) :
    (shuffle noise n l).Perm l := by
  induction n generalizing l with
  | zero => exact List.Perm.refl l
  | succ n ih => exact (ih _).trans (swap_perm l _ _)

theorem shuffled_perm {α : Type} {l l' : List α} {noise : Except String (Nat → UInt64)}
    (h : shuffled l noise = .ok l') : l'.Perm l := by
  unfold shuffled at h
  split at h
  · cases h
    exact List.Perm.refl l
  · cases noise with
    | error e => cases h
    | ok noise =>
      cases h
      exact shuffle_perm noise _ l

theorem shuffled_ok {α : Type} (l : List α) (noise : Nat → UInt64) :
    ∃ l', shuffled l (.ok noise) = .ok l' ∧ l'.Perm l := by
  have h : ∃ l', shuffled l (.ok noise) = .ok l' := by
    unfold shuffled
    split
    · exact ⟨_, rfl⟩
    · exact ⟨_, rfl⟩
  obtain ⟨l', hl'⟩ := h
  exact ⟨l', hl', shuffled_perm hl'⟩

/-- The record in an answer, if there is one that opens and is newer than what was seen. -/
def offer (pr : Primitives) (u : Unicode) (now : UInt64) (newestSeen : Option UInt64)
    (slot : Slot) (answer : Except Error (Option Bytes)) : Option AddressRecord :=
  match answer with
  | .ok (some bytes) =>
    match AddressRecord.openAt pr u bytes slot now with
    | .ok r => if r.supersedes newestSeen then some r else none
    | .error _ => none
  | _ => none

/-- The better of two. On equal sequence numbers the one that came first stays. -/
def newer (best offered : Option AddressRecord) : Option AddressRecord :=
  match offered with
  | none => best
  | some r => if best.all fun b => r.seq > b.seq then some r else best

theorem consider_best (name : String) (slot : Slot) (answer : Except Error (Option Bytes))
    (st : Looking) : (consider pr u now newestSeen name slot answer st).best =
      newer st.best (offer pr u now newestSeen slot answer) := by
  unfold consider offer newer
  split
  · rfl
  · rfl
  · split
    · rename_i hopen
      simp only [hopen]
    · rename_i r hopen
      simp only [hopen]
      cases hsup : r.supersedes newestSeen with
      | false => simp
      | true =>
        simp only [Bool.true_eq_false, if_false, if_true]
        split <;> rfl

/-- What the slots of one substrate have to offer, in the order they are asked for. -/
def offers (pr : Primitives) (u : Unicode) (now : UInt64) (newestSeen : Option UInt64)
    (sub : Substrate) : Nat → List Slot → List (Option AddressRecord)
  | _, [] => []
  | n, slot :: slots =>
    offer pr u now newestSeen slot (sub.get n slot.tagHex) ::
      offers pr u now newestSeen sub (n + 1) slots

theorem mem_offers {sub : Substrate} {n : Nat} {slots : List Slot} {o : Option AddressRecord} :
    o ∈ offers pr u now newestSeen sub n slots ↔ ∃ k slot, slots[k]? = some slot ∧
      o = offer pr u now newestSeen slot (sub.get (n + k) slot.tagHex) := by
  induction slots generalizing n with
  | nil => simp [offers]
  | cons slot slots ih =>
    unfold offers
    rw [List.mem_cons, ih]
    constructor
    · rintro (rfl | ⟨k, slot', hk, rfl⟩)
      · exact ⟨0, slot, rfl, rfl⟩
      · exact ⟨k + 1, slot', hk, by rw [Nat.add_assoc, Nat.add_comm 1 k]⟩
    · rintro ⟨k, slot', hk, rfl⟩
      cases k with
      | zero =>
        cases hk
        exact Or.inl rfl
      | succ k => exact Or.inr ⟨k, slot', hk, by rw [Nat.add_assoc, Nat.add_comm 1 k]⟩

theorem lookIn_best (sub : Substrate) (n : Nat) (slots : List Slot) (st : Looking) :
    (lookIn pr u now newestSeen sub n slots st).best =
      (offers pr u now newestSeen sub n slots).foldl newer st.best := by
  induction slots generalizing n st with
  | nil => rfl
  | cons slot slots ih =>
    unfold lookIn offers
    rw [ih, List.foldl_cons, consider_best]

theorem newer_some (best : Option AddressRecord) (c : AddressRecord) :
    ∃ m, newer best (some c) = some m ∧ (best = some m ∨ c = m) ∧ c.seq ≤ m.seq ∧
      ∀ b, best = some b → b.seq ≤ m.seq := by
  unfold newer
  simp only
  split
  · rename_i hall
    refine ⟨c, rfl, Or.inr rfl, UInt64.le_refl _, ?_⟩
    rintro b rfl
    simp only [Option.all_some, decide_eq_true_eq] at hall
    exact UInt64.le_of_lt hall
  · rename_i hall
    cases best with
    | none => simp at hall
    | some b =>
      refine ⟨b, rfl, Or.inl rfl, by simpa using hall, ?_⟩
      rintro b' hb
      cases hb
      exact UInt64.le_refl _

theorem foldl_newer {os : List (Option AddressRecord)} {best : Option AddressRecord}
    {r : AddressRecord} (h : os.foldl newer best = some r) :
    (best = some r ∨ some r ∈ os) ∧ ∀ o ∈ best :: os, ∀ b, o = some b → b.seq ≤ r.seq := by
  induction os generalizing best with
  | nil =>
    rw [List.foldl_nil] at h
    refine ⟨Or.inl h, ?_⟩
    intro o ho b hb
    rw [List.mem_singleton.mp ho, h] at hb
    cases hb
    exact UInt64.le_refl _
  | cons o os ih =>
    rw [List.foldl_cons] at h
    obtain ⟨hmem, hmax⟩ := ih h
    cases o with
    | none =>
      refine ⟨hmem.imp_right (List.mem_cons_of_mem _), ?_⟩
      intro o ho b hb
      rcases List.mem_cons.mp ho with rfl | ho
      · exact hmax _ List.mem_cons_self b hb
      · rcases List.mem_cons.mp ho with rfl | ho
        · cases hb
        · exact hmax o (List.mem_cons_of_mem _ ho) b hb
    | some c =>
      obtain ⟨m, hnewer, hfrom, hc, hbest⟩ := newer_some best c
      rw [hnewer] at hmem hmax
      have hle : m.seq ≤ r.seq := hmax _ List.mem_cons_self m rfl
      constructor
      · rcases hmem with hmr | hmem
        · cases hmr
          rcases hfrom with hheld | rfl
          · exact Or.inl hheld
          · exact Or.inr List.mem_cons_self
        · exact Or.inr (List.mem_cons_of_mem _ hmem)
      · intro o ho b hb
        rcases List.mem_cons.mp ho with rfl | ho
        · exact UInt64.le_trans (hbest b hb) hle
        · rcases List.mem_cons.mp ho with rfl | ho
          · cases hb
            exact UInt64.le_trans hc hle
          · exact hmax o (List.mem_cons_of_mem _ ho) b hb

theorem foldl_newer_isSome {os : List (Option AddressRecord)} {best : Option AddressRecord}
    (h : best.isSome ∨ ∃ r, some r ∈ os) : (os.foldl newer best).isSome := by
  induction os generalizing best with
  | nil =>
    rcases h with h | ⟨r, hr⟩
    · exact h
    · cases hr
  | cons o os ih =>
    rw [List.foldl_cons]
    refine ih ?_
    rcases h with h | ⟨r, hr⟩
    · left
      cases o with
      | none => exact h
      | some c =>
        obtain ⟨m, hnewer, -⟩ := newer_some best c
        rw [hnewer]
        rfl
    · rcases List.mem_cons.mp hr with rfl | hr
      · left
        obtain ⟨m, hnewer, -⟩ := newer_some best r
        rw [hnewer]
        rfl
      · exact Or.inr ⟨r, hr⟩

theorem offers_none {os : List (Option AddressRecord)} (h : os.foldl newer none = none) :
    ∀ o ∈ os, o = none := by
  intro o ho
  cases o with
  | none => rfl
  | some r =>
    have hsome : (os.foldl newer none).isSome := foldl_newer_isSome (Or.inr ⟨r, ho⟩)
    rw [h] at hsome
    cases hsome

theorem foldl_newer_none {os : List (Option AddressRecord)} (h : ∀ o ∈ os, o = none) :
    os.foldl newer none = none := by
  cases hr : os.foldl newer none with
  | none => rfl
  | some r =>
    rcases (foldl_newer hr).1 with hfrom | hfrom
    · cases hfrom
    · cases h _ hfrom

theorem lookThrough_cons (slots : List Slot) (sub : Substrate) (subs : List Substrate)
    (e : String) :
    (lookThrough pr u now newestSeen slots (sub :: subs) e).1 =
      match (offers pr u now newestSeen sub 0 slots).foldl newer none with
      | some r => .ok r
      | none => (lookThrough pr u now newestSeen slots subs
          (lookIn pr u now newestSeen sub 0 slots ⟨none, e⟩).lastError).1 := by
  have hbest : (lookIn pr u now newestSeen sub 0 slots ⟨none, e⟩).best =
      (offers pr u now newestSeen sub 0 slots).foldl newer none := lookIn_best sub 0 slots _
  rw [lookThrough, ← hbest]
  dsimp only
  cases (lookIn pr u now newestSeen sub 0 slots ⟨none, e⟩).best <;> rfl

theorem lookThrough_ok {slots : List Slot} {subs : List Substrate} {e : String}
    {r : AddressRecord} (h : (lookThrough pr u now newestSeen slots subs e).1 = .ok r) :
    ∃ before sub after, subs = before ++ sub :: after ∧
      (∀ s ∈ before, ∀ o ∈ offers pr u now newestSeen s 0 slots, o = none) ∧
      some r ∈ offers pr u now newestSeen sub 0 slots ∧
      ∀ b, some b ∈ offers pr u now newestSeen sub 0 slots → b.seq ≤ r.seq := by
  induction subs generalizing e with
  | nil => cases h
  | cons sub subs ih =>
    rw [lookThrough_cons] at h
    split at h
    · rename_i r' hr'
      cases h
      obtain ⟨hmem, hmax⟩ := foldl_newer hr'
      refine ⟨[], sub, subs, rfl, by simp, ?_, ?_⟩
      · rcases hmem with hnone | hmem
        · cases hnone
        · exact hmem
      · intro b hb
        exact hmax _ (List.mem_cons_of_mem _ hb) b rfl
    · rename_i hnone
      obtain ⟨before, sub', after, rfl, hbefore, hoffer, hmax⟩ := ih h
      refine ⟨sub :: before, sub', after, rfl, ?_, hoffer, hmax⟩
      intro s hs
      rcases List.mem_cons.mp hs with rfl | hs
      · exact offers_none hnone
      · exact hbefore s hs

theorem lookThrough_error {slots : List Slot} {subs : List Substrate} {e : String} {err : Error}
    (h : (lookThrough pr u now newestSeen slots subs e).1 = .error err) :
    ∀ sub ∈ subs, ∀ o ∈ offers pr u now newestSeen sub 0 slots, o = none := by
  induction subs generalizing e with
  | nil => simp
  | cons sub subs ih =>
    rw [lookThrough_cons] at h
    split at h
    · cases h
    · rename_i hnone
      intro s hs
      rcases List.mem_cons.mp hs with rfl | hs
      · exact offers_none hnone
      · exact ih h s hs

theorem lookThrough_finds {slots : List Slot} {subs : List Substrate} {e : String}
    {r : AddressRecord} {honest : Substrate} (hmem : honest ∈ subs)
    (hoffer : some r ∈ offers pr u now newestSeen honest 0 slots)
    (hold : ∀ b, some b ∈ offers pr u now newestSeen honest 0 slots → b = r ∨ b.seq < r.seq)
    (hothers : ∀ s ∈ subs, s = honest ∨ ∀ o ∈ offers pr u now newestSeen s 0 slots, o = none) :
    (lookThrough pr u now newestSeen slots subs e).1 = .ok r := by
  induction subs generalizing e with
  | nil => cases hmem
  | cons sub subs ih =>
    rw [lookThrough_cons]
    rcases hothers sub List.mem_cons_self with rfl | hnone
    · have hsome : ((offers pr u now newestSeen sub 0 slots).foldl newer none).isSome :=
        foldl_newer_isSome (Or.inr ⟨r, hoffer⟩)
      obtain ⟨r', hr'⟩ := Option.isSome_iff_exists.mp hsome
      obtain ⟨hfrom, hmax⟩ := foldl_newer hr'
      have hle := hmax _ (List.mem_cons_of_mem _ hoffer) r rfl
      have heq : r' = r := by
        rcases hfrom with hfrom | hfrom
        · cases hfrom
        · rcases hold r' hfrom with heq | hlt
          · exact heq
          · exact absurd hle (UInt64.not_le.mpr hlt)
      rw [hr', heq]
    · have hmem' : honest ∈ subs := by
        rcases List.mem_cons.mp hmem with rfl | hmem
        · cases hnone _ hoffer
        · exact hmem
      rw [foldl_newer_none hnone]
      exact ih hmem' fun s hs => hothers s (List.mem_cons_of_mem _ hs)

theorem resolve_ok {subs : List Substrate} {secret : RendezvousSecret} {loc peer : BundleId}
    {clock : Except Error UInt64} {noise : Except String (Nat → UInt64)} {r : AddressRecord}
    (h : (resolve pr u subs secret loc peer newestSeen clock noise).1 = .ok r) :
    ∃ now order, clock = .ok now ∧ shuffled subs noise = .ok order ∧
      (lookThrough pr u now newestSeen (lookupSlots pr secret (Direction.publishing loc peer).flip now)
        order "no substrate was reachable").1 = .ok r := by
  unfold resolve at h
  split at h
  · cases h
  · simp only at h
    split at h
    · cases h
    · cases h
    · rename_i horder
      exact ⟨_, _, rfl, horder, h⟩

theorem resolve_error {subs : List Substrate} {secret : RendezvousSecret} {loc peer : BundleId}
    {clock : Except Error UInt64} {noise : Except String (Nat → UInt64)} {err : Error}
    (h : (resolve pr u subs secret loc peer newestSeen clock noise).1 = .error err)
    (hasked : (resolve pr u subs secret loc peer newestSeen clock noise).2 ≠ []) :
    ∃ now, clock = .ok now ∧ ∀ sub ∈ subs, ∀ o ∈ offers pr u now newestSeen sub 0
      (lookupSlots pr secret (Direction.publishing loc peer).flip now), o = none := by
  unfold resolve at h hasked
  split at h
  · rename_i hnil
    rw [if_pos hnil] at hasked
    exact absurd rfl hasked
  · rename_i hnil
    rw [if_neg hnil] at hasked
    simp only at h hasked
    split at h
    · exact absurd rfl hasked
    · rename_i hnoise
      rw [hnoise] at hasked
      exact absurd rfl hasked
    · rename_i horder
      refine ⟨_, rfl, fun sub hsub => ?_⟩
      exact lookThrough_error h sub ((shuffled_perm horder).mem_iff.mpr hsub)

end Accepts

end Discovery

end AtomVault.Live
