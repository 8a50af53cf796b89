import AtomVault.Lib.Bytes
import AtomVault.Lib.Machine

/-!
# Who shreds an open viewer (`view.rs`, `gui/broker.rs`)

Every open viewer has a slot with its teardown. The viewer's own thread and the handler of SIGINT
both take it out under the slot's lock, and hold the lock while they shred.
-/

open Lib

namespace AtomVault.Viewer.Teardown

inductive Who
  | worker
  | handler
  deriving DecidableEq

/-- `Arc<Mutex<Option<Box<dyn ViewerTeardown>>>>`, and the plaintext the teardown is for. -/
structure Slot where
  job : Bool
  holder : Option Who
  memory : Bytes
  /-- How far the holder has zeroed the plaintext. -/
  written : Nat
  /-- The viewer's thread has not tried to take the job. -/
  viewing : Bool
  registered : Bool
  /-- It was registered before the handler took the registry. -/
  early : Bool
  /-- Who has run the teardown. -/
  runs : List Who
  deriving DecidableEq

/-- A call of `register_teardown` that holds the registry, and what it has kept of it. -/
structure Pruning where
  new : Nat
  kept : List Nat
  rest : List Nat
  deriving DecidableEq

inductive Handler
  | idle
  | walking (rest : List Nat)
  | exited
  deriving DecidableEq

structure Process where
  registry : List Nat
  slots : List Slot
  pruning : Option Pruning
  handler : Handler
  deriving DecidableEq

inductive Act
  | create (memory : Bytes)
  | lockRegistry (k : Nat)
  | check
  | push
  | claim (k : Nat)
  | page (k : Nat)
  | release (k : Nat)
  | drain
  | handlerClaim
  | exit

def Slot.new (memory : Bytes) : Slot := ⟨true, none, memory, 0, true, false, false, []⟩

/-- The job is taken out, and the lock is kept. -/
def Slot.take (slot : Slot) (who : Who) : Slot :=
  { slot with job := false, holder := some who, written := 0, runs := slot.runs ++ [who] }

/-- One round of the loop that writes zeros, a page at most. -/
def Slot.zeroPage (slot : Slot) : Slot :=
  let n := min 4096 (slot.memory.length - slot.written)
  { slot with
    memory := patch slot.memory slot.written (List.replicate n 0)
    written := slot.written + n }

def Slot.unlock (slot : Slot) : Slot := { slot with holder := none }

def Process.start : Process := ⟨[], [], none, .idle⟩

def Process.setSlot (s : Process) (k : Nat) (slot : Slot) : Process :=
  { s with slots := s.slots.set k slot }

/-- What is left for the handler. -/
def Handler.rest : Handler → List Nat
  | walking rest => rest
  | _ => []

def step (s : Process) (a : Act) : Option Process :=
  if s.handler = .exited then none
  else
    match a with
    | .create memory => some { s with slots := s.slots ++ [.new memory] }
    | .lockRegistry k => do
      let slot ← s.slots[k]?
      if s.pruning = none ∧ slot.registered = false then
        some { s with pruning := some ⟨k, [], s.registry⟩ }
      else none
    -- `retain` waits for the lock of every slot
    | .check =>
      match s.pruning with
      | some ⟨new, kept, k :: rest⟩ => do
        let slot ← s.slots[k]?
        if slot.holder = none then
          some { s with pruning := some ⟨new, if slot.job then kept ++ [k] else kept, rest⟩ }
        else none
      | _ => none
    | .push =>
      match s.pruning with
      | some ⟨new, kept, []⟩ => do
        let slot ← s.slots[new]?
        some { s with
          registry := kept ++ [new]
          pruning := none
          slots := s.slots.set new { slot with registered := true, early := s.handler = .idle } }
      | _ => none
    | .claim k => do
      let slot ← s.slots[k]?
      if slot.registered = true ∧ slot.viewing = true ∧ slot.holder = none then
        let slot := { slot with viewing := false }
        some (s.setSlot k (if slot.job then slot.take .worker else slot))
      else none
    | .page k => do
      let slot ← s.slots[k]?
      if slot.holder.isSome ∧ slot.written < slot.memory.length then
        some (s.setSlot k slot.zeroPage)
      else none
    | .release k => do
      let slot ← s.slots[k]?
      if slot.written < slot.memory.length then none
      else
        match slot.holder with
        | some .worker => some (s.setSlot k slot.unlock)
        | some .handler =>
          some { s.setSlot k slot.unlock with handler := .walking s.handler.rest.tail }
        | none => none
    | .drain =>
      if s.handler = .idle ∧ s.pruning = none then
        some { s with registry := [], handler := .walking s.registry }
      else none
    | .handlerClaim =>
      match s.handler with
      | .walking (k :: rest) => do
        let slot ← s.slots[k]?
        if slot.holder = none then
          if slot.job then some (s.setSlot k (slot.take .handler))
          else some { s with handler := .walking rest }
        else none
      | _ => none
    | .exit => if s.handler = .walking [] then some { s with handler := .exited } else none

/-! ## What is promised -/

/-- What the registry has, also while a call goes through it. -/
def Process.listed (s : Process) : List Nat :=
  match s.pruning with
  | none => s.registry
  | some p => p.kept ++ p.rest

/-- One thread has run the teardown, to its end. -/
structure Finished (slot : Slot) : Prop where
  ran : ∃ who, slot.runs = [who]
  unlocked : slot.holder = none
  zeroed : slot.memory = List.replicate slot.memory.length 0

/-- No teardown is run twice; one that was not run waits in its slot, where its own thread will
look, and the registry or the handler has it; and the process only ends when all that were
registered before the handler came are through. -/
structure Safe (s : Process) : Prop where
  once : ∀ slot ∈ s.slots, slot.runs.length ≤ 1
  kept : ∀ k slot, s.slots[k]? = some slot → slot.registered = true → slot.runs = [] →
    slot.job = true ∧ slot.viewing = true ∧ k ∈ s.listed ++ s.handler.rest
  early : s.handler = .exited → ∀ slot ∈ s.slots, slot.early = true → Finished slot

/-- Nothing is registered after the handler took the registry. -/
def InTime (s : Process) : Act → Prop
  | .push => s.handler = .idle
  | _ => True

instance (s : Process) (a : Act) : Decidable (InTime s a) := by
  cases a <;> unfold InTime <;> infer_instance

/-! ## One slot -/

section Slots

variable {slot : Slot}

/-- Its teardown is still to be run, or is being run. -/
def Open (slot : Slot) : Prop := slot.job = true ∨ slot.holder.isSome = true

structure SlotOk (slot : Slot) : Prop where
  armed : slot.job = true → slot.runs = [] ∧ slot.viewing = true ∧ slot.holder = none
  taken : slot.job = false → ∃ who, slot.runs = [who]
  zeros : slot.holder.isSome = true → ∃ rest, slot.memory = List.replicate slot.written 0 ++ rest
  zeroed : slot.job = false → slot.holder = none → slot.memory = List.replicate slot.memory.length 0
  early : slot.early = true → slot.registered = true

theorem SlotOk.finished (h : SlotOk slot) (hclosed : ¬ Open slot) : Finished slot := by
  unfold Open at hclosed
  push Not at hclosed
  have hjob : slot.job = false := by simpa using hclosed.1
  have hfree : slot.holder = none := by simpa using hclosed.2
  exact ⟨h.taken hjob, hfree, h.zeroed hjob hfree⟩

theorem slotOk_new (memory : Bytes) : SlotOk (.new memory) :=
  ⟨fun _ => ⟨rfl, rfl, rfl⟩, fun h => absurd h (by simp [Slot.new]),
    fun h => absurd h (by simp [Slot.new]), fun h => absurd h (by simp [Slot.new]),
    fun h => absurd h (by simp [Slot.new])⟩

theorem SlotOk.take (h : SlotOk slot) (hjob : slot.job = true) (who : Who) :
    SlotOk (slot.take who) where
  armed hnew := by simp [Slot.take] at hnew
  taken _ := ⟨who, by simp [Slot.take, (h.armed hjob).1]⟩
  zeros _ := ⟨slot.memory, by simp [Slot.take]⟩
  zeroed _ hfree := by simp [Slot.take] at hfree
  early := h.early

theorem SlotOk.not_armed (h : SlotOk slot) (hheld : slot.holder.isSome = true) :
    slot.job = false := by
  cases hjob : slot.job with
  | false => rfl
  | true =>
    rw [(h.armed hjob).2.2] at hheld
    cases hheld

theorem SlotOk.zeroPage (h : SlotOk slot) (hheld : slot.holder.isSome = true) :
    SlotOk slot.zeroPage where
  armed hjob := by
    have hnone := h.not_armed hheld
    cases hjob.symm.trans hnone
  taken := h.taken
  zeros _ := by
    obtain ⟨rest, hrest⟩ := h.zeros hheld
    refine ⟨rest.drop (min 4096 (slot.memory.length - slot.written)), ?_⟩
    have hpatch := patch_replicate 0 slot.written
      (min 4096 (slot.memory.length - slot.written)) rest
    rwa [← hrest] at hpatch
  zeroed _ hfree := by
    have hfree : slot.holder = none := hfree
    rw [hfree] at hheld
    cases hheld
  early := h.early

theorem SlotOk.unlock (h : SlotOk slot) (hheld : slot.holder.isSome = true)
    (hend : ¬ slot.written < slot.memory.length) : SlotOk slot.unlock where
  armed hjob := by
    have hnone := h.not_armed hheld
    cases hjob.symm.trans hnone
  taken := h.taken
  zeros hnew := by simp [Slot.unlock] at hnew
  zeroed _ _ := by
    obtain ⟨rest, hrest⟩ := h.zeros hheld
    have hlen := congrArg List.length hrest
    rw [List.length_append, List.length_replicate] at hlen
    have hnil : rest = [] := List.length_eq_zero_iff.mp (by omega)
    rw [hnil, List.append_nil] at hrest
    show slot.memory = List.replicate slot.memory.length 0
    rw [hrest, List.length_replicate]
  early := h.early

theorem SlotOk.leave (h : SlotOk slot) (hjob : slot.job = false) :
    SlotOk { slot with viewing := false } :=
  ⟨fun harmed => absurd (hjob.symm.trans harmed) (by simp), h.taken, h.zeros, h.zeroed, h.early⟩

end Slots

/-! ## Every run -/

section Runs

variable {s s' : Process} {k : Nat} {slot slot' : Slot} {prompt : Prop}

/-- `prompt` says that nothing is registered too late. -/
structure Inv (prompt : Prop) (s : Process) : Prop where
  slots : ∀ (k : Nat) slot, s.slots[k]? = some slot → SlotOk slot
  held : ∀ k slot, s.slots[k]? = some slot → slot.holder = some .handler →
    ∃ rest, s.handler = .walking (k :: rest)
  listed : ∀ k slot, s.slots[k]? = some slot → slot.registered = true → Open slot →
    k ∈ s.listed ++ s.handler.rest
  early : ∀ k slot, s.slots[k]? = some slot → slot.early = true → Open slot →
    s.handler ≠ .idle → k ∈ s.handler.rest
  inTime : prompt → ∀ (k : Nat) slot, s.slots[k]? = some slot → slot.registered = true →
    slot.early = true

theorem Inv.safe (h : Inv prompt s) : Safe s where
  once slot hslot := by
    obtain ⟨k, hk⟩ := List.getElem?_of_mem hslot
    have hok := h.slots k slot hk
    cases hjob : slot.job with
    | true => simp [(hok.armed hjob).1]
    | false =>
      obtain ⟨who, hwho⟩ := hok.taken hjob
      simp [hwho]
  kept k slot hk hregistered hruns := by
    have hok := h.slots k slot hk
    cases hjob : slot.job with
    | true => exact ⟨rfl, (hok.armed hjob).2.1, h.listed k slot hk hregistered (Or.inl hjob)⟩
    | false =>
      obtain ⟨who, hwho⟩ := hok.taken hjob
      rw [hwho] at hruns
      cases hruns
  early hexited slot hslot hearly := by
    obtain ⟨k, hk⟩ := List.getElem?_of_mem hslot
    refine (h.slots k slot hk).finished fun hopen => ?_
    have hrest := h.early k slot hk hearly hopen (by simp [hexited])
    rw [hexited] at hrest
    cases hrest

theorem Inv.set (h : Inv prompt s) (hk : s.slots[k]? = some slot) (hok : SlotOk slot')
    (hregistered : slot'.registered = slot.registered) (hearly : slot'.early = slot.early)
    (hopen : Open slot' → Open slot)
    (hheld : slot'.holder = some .handler → ∃ rest, s.handler = .walking (k :: rest)) :
    Inv prompt (s.setSlot k slot') := by
  have hcases : ∀ j r, (s.setSlot k slot').slots[j]? = some r →
      j = k ∧ r = slot' ∨ s.slots[j]? = some r :=
    fun _ _ hj => (getElem?_set_eq_some hj).imp_right And.right
  refine ⟨fun j r hj => ?_, fun j r hj => ?_, fun j r hj => ?_, fun j r hj => ?_,
    fun hprompt j r hj => ?_⟩ <;> rcases hcases j r hj with ⟨rfl, rfl⟩ | hj
  · exact hok
  · exact h.slots j r hj
  · exact hheld
  · exact h.held j r hj
  · intro hreg hr
    exact h.listed j slot hk (hregistered ▸ hreg) (hopen hr)
  · exact h.listed j r hj
  · intro hear hr
    exact h.early j slot hk (hearly ▸ hear) (hopen hr)
  · exact h.early j r hj
  · intro hreg
    rw [hearly]
    exact h.inTime hprompt j slot hk (hregistered ▸ hreg)
  · exact h.inTime hprompt j r hj

theorem Inv.pop (h : Inv prompt s) {rest : List Nat} (hwalking : s.handler = .walking (k :: rest))
    (hk : s.slots[k]? = some slot) (hclosed : ¬ Open slot) :
    Inv prompt { s with handler := .walking rest } := by
  have hother : ∀ j r, s.slots[j]? = some r → Open r → j ≠ k := by
    rintro j r hj hr rfl
    rw [Option.some.inj (hj.symm.trans hk)] at hr
    exact hclosed hr
  refine ⟨h.slots, fun j r hj hr => ?_, fun j r hj hreg hr => ?_, fun j r hj hear hr _ => ?_,
    h.inTime⟩
  · obtain ⟨rest', hrest'⟩ := h.held j r hj hr
    rw [hwalking] at hrest'
    cases hrest'
    exact absurd rfl (hother k r hj (Or.inr (by simp [hr])))
  · have hmem := h.listed j r hj hreg hr
    simp only [hwalking, Handler.rest, List.mem_append, List.mem_cons] at hmem
    rcases hmem with hmem | rfl | hmem
    · exact List.mem_append_left _ hmem
    · exact absurd rfl (hother j r hj hr)
    · exact List.mem_append_right _ hmem
  · have hmem := h.early j r hj hear hr (by simp [hwalking])
    simp only [hwalking, Handler.rest, List.mem_cons] at hmem
    rcases hmem with rfl | hmem
    · exact absurd rfl (hother j r hj hr)
    · exact hmem

theorem Inv.create (h : Inv prompt s) (memory : Bytes) :
    Inv prompt { s with slots := s.slots ++ [.new memory] } := by
  refine ⟨fun j r hj => ?_, fun j r hj => ?_, fun j r hj => ?_, fun j r hj => ?_,
    fun hprompt j r hj => ?_⟩ <;> rcases getElem?_concat_eq_some.mp hj with hj | ⟨-, rfl⟩
  · exact h.slots j r hj
  · exact slotOk_new memory
  · exact h.held j r hj
  · intro hheld
    cases hheld
  · exact h.listed j r hj
  · intro hreg
    cases hreg
  · exact h.early j r hj
  · intro hear
    cases hear
  · exact h.inTime hprompt j r hj
  · intro hreg
    cases hreg

theorem Inv.relist (h : Inv prompt s) (registry : List Nat) (pruning : Option Pruning)
    (hlisted : ∀ k slot, s.slots[k]? = some slot → Open slot → k ∈ s.listed →
      k ∈ ({ s with registry := registry, pruning := pruning } : Process).listed) :
    Inv prompt { s with registry := registry, pruning := pruning } := by
  refine ⟨h.slots, h.held, fun j r hj hreg hr => ?_, h.early, h.inTime⟩
  rcases List.mem_append.mp (h.listed j r hj hreg hr) with hmem | hmem
  · exact List.mem_append_left _ (hlisted j r hj hr hmem)
  · exact List.mem_append_right _ hmem

theorem Inv.lockRegistry (h : Inv prompt s) (hpruning : s.pruning = none) (k : Nat) :
    Inv prompt { s with pruning := some ⟨k, [], s.registry⟩ } := by
  refine h.relist s.registry _ fun j r _ _ hmem => ?_
  simpa [Process.listed, hpruning] using hmem

theorem Inv.check (h : Inv prompt s) {new : Nat} {kept rest : List Nat}
    (hpruning : s.pruning = some ⟨new, kept, k :: rest⟩) (hk : s.slots[k]? = some slot)
    (hfree : slot.holder = none) :
    Inv prompt { s with
      pruning := some ⟨new, if slot.job then kept ++ [k] else kept, rest⟩ } := by
  refine h.relist s.registry _ fun j r hj hr hmem => ?_
  simp only [Process.listed, hpruning, List.mem_append, List.mem_cons] at hmem ⊢
  split
  · simp only [List.mem_append, List.mem_singleton]
    tauto
  · rename_i hjob
    have hne : j ≠ k := by
      rintro rfl
      rw [Option.some.inj (hj.symm.trans hk)] at hr
      rcases hr with hr | hr
      · exact hjob hr
      · rw [hfree] at hr
        cases hr
    tauto

theorem Inv.push (h : Inv prompt s) {new : Nat} {kept : List Nat}
    (hpruning : s.pruning = some ⟨new, kept, []⟩) (hk : s.slots[new]? = some slot)
    (hprompt : prompt → s.handler = .idle) :
    Inv prompt { s with
      registry := kept ++ [new]
      pruning := none
      slots := s.slots.set new { slot with registered := true, early := s.handler = .idle } } := by
  have hok := h.slots new slot hk
  have hcases : ∀ j r, (s.slots.set new
      { slot with registered := true, early := s.handler = .idle })[j]? = some r →
      j = new ∧ r = { slot with registered := true, early := s.handler = .idle } ∨
        s.slots[j]? = some r :=
    fun _ _ hj => (getElem?_set_eq_some hj).imp_right And.right
  refine ⟨fun j r hj => ?_, fun j r hj => ?_, fun j r hj => ?_, fun j r hj => ?_,
    fun hp j r hj => ?_⟩ <;> rcases hcases j r hj with ⟨rfl, rfl⟩ | hj
  · exact ⟨hok.armed, hok.taken, hok.zeros, hok.zeroed, fun _ => rfl⟩
  · exact h.slots j r hj
  · exact h.held j slot hk
  · exact h.held j r hj
  · intro _ _
    simp [Process.listed]
  · intro hreg hr
    have hmem := h.listed j r hj hreg hr
    simp only [Process.listed, hpruning, List.mem_append] at hmem ⊢
    tauto
  · intro hear _ hbusy
    exact absurd (by simpa using hear) hbusy
  · exact h.early j r hj
  · intro _
    simpa using hprompt hp
  · exact h.inTime hp j r hj

theorem Inv.drain (h : Inv prompt s) (hidle : s.handler = .idle) (hpruning : s.pruning = none) :
    Inv prompt { s with registry := [], handler := .walking s.registry } := by
  have hlisted : ∀ j r, s.slots[j]? = some r → r.registered = true → Open r → j ∈ s.registry := by
    intro j r hj hreg hr
    simpa [Process.listed, hpruning, hidle, Handler.rest] using h.listed j r hj hreg hr
  refine ⟨h.slots, fun j r hj hr => ?_, fun j r hj hreg hr => ?_, fun j r hj hear hr _ => ?_,
    h.inTime⟩
  · obtain ⟨rest, hrest⟩ := h.held j r hj hr
    rw [hidle] at hrest
    cases hrest
  · exact List.mem_append_right _ (hlisted j r hj hreg hr)
  · exact hlisted j r hj ((h.slots j r hj).early hear) hr

theorem Inv.exit (h : Inv prompt s) (hwalking : s.handler = .walking []) :
    Inv prompt { s with handler := .exited } := by
  refine ⟨h.slots, fun j r hj hr => ?_, fun j r hj hreg hr => ?_, fun j r hj hear hr _ => ?_,
    h.inTime⟩
  · obtain ⟨rest, hrest⟩ := h.held j r hj hr
    rw [hwalking] at hrest
    cases hrest
  · have hmem := h.listed j r hj hreg hr
    rw [hwalking] at hmem
    exact hmem
  · have hmem := h.early j r hj hear hr (by simp [hwalking])
    rw [hwalking] at hmem
    exact hmem

theorem Inv.unlock (h : Inv prompt s) (hk : s.slots[k]? = some slot)
    (hheld : slot.holder.isSome = true) (hend : ¬ slot.written < slot.memory.length) :
    Inv prompt (s.setSlot k slot.unlock) := by
  refine h.set hk ((h.slots k slot hk).unlock hheld hend) rfl rfl (fun _ => Or.inr hheld) ?_
  intro hnone
  cases hnone

theorem Inv.unlockWalking (h : Inv prompt s) (hk : s.slots[k]? = some slot)
    (hhandler : slot.holder = some .handler) (hend : ¬ slot.written < slot.memory.length) :
    Inv prompt { s.setSlot k slot.unlock with handler := .walking s.handler.rest.tail } := by
  have hheld : slot.holder.isSome = true := by simp [hhandler]
  obtain ⟨rest, hrest⟩ := h.held k slot hk hhandler
  have hlen := (List.getElem?_eq_some_iff.mp hk).1
  have hclosed : ¬ Open slot.unlock := by
    rintro (hjob | hnone)
    · exact absurd (((h.slots k slot hk).not_armed hheld).symm.trans hjob) (by simp)
    · cases hnone
  have hset : (s.setSlot k slot.unlock).slots[k]? = some slot.unlock :=
    List.getElem?_set_self hlen
  rw [hrest]
  exact (h.unlock hk hheld hend).pop hrest hset hclosed

theorem Inv.step (h : Inv prompt s) {a : Act} (hprompt : prompt → InTime s a)
    (hstep : step s a = some s') : Inv prompt s' := by
  unfold Teardown.step at hstep
  split at hstep
  · cases hstep
  cases a with
  | create memory =>
    cases hstep
    exact h.create memory
  | lockRegistry k =>
    obtain ⟨slot, -, hstep⟩ := Option.bind_eq_some_iff.mp hstep
    split at hstep
    · rename_i hfree
      cases hstep
      exact h.lockRegistry hfree.1 k
    · cases hstep
  | check =>
    simp only at hstep
    split at hstep
    · rename_i new kept k rest hpruning
      obtain ⟨slot, hk, hstep⟩ := Option.bind_eq_some_iff.mp hstep
      split at hstep
      · rename_i hfree
        cases hstep
        exact h.check hpruning hk hfree
      · cases hstep
    · cases hstep
  | push =>
    simp only at hstep
    split at hstep
    · rename_i new kept hpruning
      obtain ⟨slot, hk, hstep⟩ := Option.bind_eq_some_iff.mp hstep
      cases hstep
      exact h.push hpruning hk hprompt
    · cases hstep
  | claim k =>
    obtain ⟨slot, hk, hstep⟩ := Option.bind_eq_some_iff.mp hstep
    split at hstep
    · rename_i hwaits
      cases hstep
      split
      · rename_i hjob
        have htaken := (h.slots k slot hk).take hjob .worker
        exact h.set hk (htaken.leave rfl) rfl rfl (fun _ => Or.inl hjob) fun hheld => by cases hheld
      · rename_i hjob
        have hjob : slot.job = false := by simpa using hjob
        exact h.set hk ((h.slots k slot hk).leave hjob) rfl rfl id (h.held k slot hk)
    · cases hstep
  | page k =>
    obtain ⟨slot, hk, hstep⟩ := Option.bind_eq_some_iff.mp hstep
    split at hstep
    · rename_i hheld
      cases hstep
      exact h.set hk ((h.slots k slot hk).zeroPage hheld.1) rfl rfl id (h.held k slot hk)
    · cases hstep
  | release k =>
    obtain ⟨slot, hk, hstep⟩ := Option.bind_eq_some_iff.mp hstep
    split at hstep
    · cases hstep
    · rename_i hend
      split at hstep
      · rename_i hworker
        cases hstep
        exact h.unlock hk (by simp [hworker]) hend
      · rename_i hhandler
        cases hstep
        exact h.unlockWalking hk hhandler hend
      · cases hstep
  | drain =>
    simp only at hstep
    split at hstep
    · rename_i hidle
      cases hstep
      exact h.drain hidle.1 hidle.2
    · cases hstep
  | handlerClaim =>
    simp only at hstep
    split at hstep
    · rename_i k rest hwalking
      obtain ⟨slot, hk, hstep⟩ := Option.bind_eq_some_iff.mp hstep
      split at hstep
      · rename_i hfree
        split at hstep
        · rename_i hjob
          cases hstep
          exact h.set hk ((h.slots k slot hk).take hjob .handler) rfl rfl (fun _ => Or.inl hjob)
            fun _ => ⟨rest, hwalking⟩
        · rename_i hjob
          cases hstep
          refine h.pop hwalking hk ?_
          rintro (h' | h')
          · exact hjob h'
          · rw [hfree] at h'
            cases h'
      · cases hstep
    · cases hstep
  | exit =>
    simp only at hstep
    split at hstep
    · rename_i hwalking
      cases hstep
      exact h.exit hwalking
    · cases hstep

theorem inv_start : Inv prompt .start := by
  have hnone : ∀ (j : Nat) r, Process.start.slots[j]? ≠ some r := by
    intro j r hj
    cases hj
  exact ⟨fun j r hj => absurd hj (hnone j r), fun j r hj => absurd hj (hnone j r),
    fun j r hj => absurd hj (hnone j r), fun j r hj => absurd hj (hnone j r),
    fun _ j r hj => absurd hj (hnone j r)⟩

theorem inv_run {as : List Act} (h : run step .start as = some s)
    (hallowed : Allowed step (fun s a => prompt → InTime s a) .start as) : Inv prompt s :=
  run_allowed (fun _ _ _ hs hprompt hstep => hs.step hprompt hstep) h hallowed inv_start

end Runs

/-! ### A signal while viewers are open -/

/-- `register_teardown`, with `n` slots in the registry. -/
def register (k n : Nat) (memory : Bytes) : List Act :=
  .create memory :: .lockRegistry k :: List.replicate n .check ++ [.push]

/-- One viewer closes, and while its thread shreds, the signal comes. -/
def closing : List Act :=
  register 0 0 [1, 2] ++ register 1 1 [3] ++
    [.claim 0, .drain, .page 0, .release 0, .handlerClaim, .handlerClaim, .page 1, .release 1, .exit]

/-- A viewer is registered after the handler took the registry. -/
def late : List Act := [.create [1, 2], .drain, .lockRegistry 0, .push, .exit]

end AtomVault.Viewer.Teardown
