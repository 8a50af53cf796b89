import AtomVault.Sync.Machine
import AtomVault.Lib.Extents

/-!
# Appended chunks stay where they were recorded

The write lock is held from before the seek to after the push, so the offset a task saw is
where its ciphertext begins, and nobody else appends in between. A failed append leaves
bytes behind that no entry names.
-/

open Lib

namespace AtomVault.Sync

/-! ## Entries and their places -/

def ChunkEntry.extent (e : ChunkEntry) : Extent := ⟨e.offset, e.cipherLen⟩

theorem read_of_initial {e : Extent} {f g : Bytes} (h : f <+: g) (he : e.stop ≤ f.length) :
    e.read g = e.read f := by
  obtain ⟨x, rfl⟩ := h
  exact slice_append_left f x e.start e.len he

/-! ## The invariant -/

/-- What a task that holds the lock has appended so far, past everything recorded. -/
def Phase.Placed (f₀ : Bytes) (v : Vault) : Phase → Prop
  | .writing r offset written =>
    f₀.length ≤ offset ∧ (∀ x ∈ v.log, x.entry.extent.stop ≤ offset) ∧
      written ≤ r.ciphertext.length ∧ offset + written = v.file.length ∧
      slice v.file offset written = r.ciphertext.take written
  | .syncing r offset | .recording r offset =>
    f₀.length ≤ offset ∧ (∀ x ∈ v.log, x.entry.extent.stop ≤ offset) ∧
      offset + r.ciphertext.length = v.file.length ∧
      slice v.file offset r.ciphertext.length = r.ciphertext
  | _ => True

structure Task.Fine (f₀ : Bytes) (v : Vault) (k : Nat) (t : Task) : Prop where
  locks : t.phase.holds = true ↔ v.writeLock = some k
  placed : t.phase.Placed f₀ v

def ServePhase.Reads (e : ChunkEntry) (f : Bytes) : ServePhase → Prop
  | .reading buffer => buffer.length ≤ e.cipherLen ∧ buffer = slice f e.offset buffer.length
  | .ended (some buffer) => buffer = e.extent.read f
  | _ => True

structure Serve.Fine (f : Bytes) (v : Serve) : Prop where
  inside : v.found.extent.stop ≤ f.length
  reads : v.phase.Reads v.found f

structure Vault.Fine (f₀ : Bytes) (v : Vault) : Prop where
  grown : f₀ <+: v.file
  packed : Packed f₀.length v.file.length (v.log.map fun r => r.entry.extent)
  written : ∀ r ∈ v.log, r.entry.extent.read v.file = r.ciphertext

structure Inv (f₀ : Bytes) (s : State) : Prop where
  vault : s.vault.Fine f₀
  tasks : ∀ (k : Nat) (t : Task), s.tasks[k]? = some t → t.Fine f₀ s.vault k
  locked : ∀ k, s.vault.writeLock = some k → k < s.tasks.length
  serves : ∀ v ∈ s.serves, v.Fine s.vault.file

variable {m₀ : VaultMetadata} {f₀ : Bytes}

/-- The metadata is what it was, with everything recorded since. -/
def Recorded (m₀ : VaultMetadata) (s : State) : Prop :=
  s.vault.metadata = s.vault.log.foldl VaultMetadata.record m₀

theorem Recorded.step {s s' : State} {a : Action} (h : Recorded m₀ s) (hs : s.step a = some s') :
    Recorded m₀ s' := by
  cases State.step_steps hs with
  | exchange | spawn | found | absent | serve => exact h
  | task _ hm =>
    cases hm with
    | accept | lock | opened | sought | wrote | written | synced | failed => exact h
    | record =>
      unfold Recorded at h ⊢
      rw [List.foldl_append, ← h]
      rfl

theorem Recorded.of_run {s : State} {as : List Action}
    (h : run State.step (State.start m₀ f₀) as = some s) : Recorded m₀ s :=
  run_invariant (fun _ _ _ hi hs => Recorded.step hi hs) h rfl

theorem placed_of_not_holds {v : Vault} {p : Phase} (h : p.holds = false) : p.Placed f₀ v := by
  cases p <;> trivial

theorem Moves.shared {t : Task} {me : Nat} {v v' : Vault} {i : Input} {p : Phase}
    (h : Moves t me v i p v') (hp : t.phase.holds = false) :
    v'.file = v.file ∧ v'.log = v.log ∧ v'.metadata = v.metadata := by
  cases h with
  | accept msg _ => exact ⟨rfl, rfl, rfl⟩
  | lock _ _ => exact ⟨rfl, rfl, rfl⟩
  | failed hh => rw [hp] at hh; cases hh
  | opened hh | sought hh | wrote n hh _ | written hh | synced hh | record hh =>
    rw [hh] at hp
    cases hp

theorem Moves.grows {t : Task} {me : Nat} {v v' : Vault} {i : Input} {p : Phase}
    (h : Moves t me v i p v') : v.file <+: v'.file := by
  cases h with
  | wrote n hp hn => exact List.prefix_append _ _
  | accept | lock | opened | sought | written | synced | failed | record => exact List.prefix_rfl

theorem holds_accept (t : Task) (msg : Option SyncMessage) : (t.accept msg).holds = false := by
  unfold Task.accept
  split
  · split
    · split <;> rfl
    · rfl
  · rfl

theorem slice_append_next {f c : Bytes} {offset written n : Nat}
    (hlen : offset + written = f.length) (hw : slice f offset written = c.take written) :
    slice (f ++ slice c written n) offset (written + n) = c.take (written + n) := by
  have hfirst : slice (f ++ slice c written n) offset written = c.take written := by
    rw [slice_append_left _ _ _ _ (by omega), hw]
  have hsecond : slice (f ++ slice c written n) (offset + written) n = slice c written n := by
    rw [slice, hlen, List.drop_left, List.take_of_length_le (length_slice_le c written n)]
  rw [← slice_append_slice, hfirst, hsecond, ← slice_from_zero, ← slice_from_zero,
    ← slice_append_slice, Nat.zero_add]

theorem Moves.vault_fine {t : Task} {me : Nat} {v v' : Vault} {i : Input} {p : Phase}
    (h : Moves t me v i p v') (hv : v.Fine f₀) (ht : t.Fine f₀ v me) : v'.Fine f₀ := by
  cases h with
  | accept | opened | sought | written | synced => exact hv
  | lock | failed => exact ⟨hv.grown, hv.packed, hv.written⟩
  | wrote n hp hn =>
    refine ⟨hv.grown.trans (List.prefix_append _ _), hv.packed.mono (by simp), ?_⟩
    intro r hr
    have hin : r.entry.extent.stop ≤ v.file.length :=
      hv.packed.le_hi _ (List.mem_map_of_mem hr)
    rw [read_of_initial (List.prefix_append _ _) hin]
    exact hv.written r hr
  | @record r offset hp =>
    have hplaced := ht.placed
    rw [hp] at hplaced
    obtain ⟨hlo, hpast, hlen, hslice⟩ := hplaced
    refine ⟨hv.grown, ?_, ?_⟩
    · -- Nothing recorded before reaches past the offset.
      have hbefore : Packed f₀.length offset (v.log.map fun r => r.entry.extent) := by
        refine ⟨hv.packed.lo_le, ?_, hv.packed.apart⟩
        intro e he
        obtain ⟨x, hx, rfl⟩ := List.mem_map.mp he
        exact hpast x hx
      have hnew : Packed offset v.file.length [(t.recorded r offset).entry.extent] := by
        refine ⟨?_, ?_, List.pairwise_singleton _ _⟩
        · intro e he
          rw [List.mem_singleton.mp he]
          exact le_refl _
        · intro e he
          rw [List.mem_singleton.mp he]
          exact le_of_eq hlen
      have := hbefore.append hlo (by omega) hnew
      simpa using this
    · intro x hx
      rcases List.mem_append.mp hx with hx | hx
      · exact hv.written x hx
      · rw [List.mem_singleton.mp hx]
        exact hslice

theorem Moves.task_fine {t : Task} {me : Nat} {v v' : Vault} {i : Input} {p : Phase}
    (h : Moves t me v i p v') (hv : v.Fine f₀) (ht : t.Fine f₀ v me) :
    ({ t with phase := p } : Task).Fine f₀ v' me := by
  have hlocks := ht.locks
  have hplaced := ht.placed
  cases h with
  | accept msg hp =>
    rw [hp] at hlocks
    refine ⟨?_, placed_of_not_holds (holds_accept t msg)⟩
    rw [← hlocks]
    show (t.accept msg).holds = true ↔ false = true
    rw [holds_accept]
  | lock hp hfree => exact ⟨by simp [Phase.holds], trivial⟩
  | opened hp =>
    rw [hp] at hlocks
    exact ⟨hlocks, trivial⟩
  | sought hp =>
    rw [hp] at hlocks
    refine ⟨hlocks, hv.grown.length_le, ?_, Nat.zero_le _, rfl, by simp⟩
    intro x hx
    exact hv.packed.le_hi _ (List.mem_map_of_mem hx)
  | wrote n hp hn =>
    rw [hp] at hlocks hplaced
    obtain ⟨hlo, hpast, hle, hlen, hslice⟩ := hplaced
    refine ⟨hlocks, hlo, hpast, hn, ?_, slice_append_next hlen hslice⟩
    rw [List.length_append, length_slice _ _ _ hn, ← hlen, Nat.add_assoc]
  | written hp =>
    rw [hp] at hlocks hplaced
    obtain ⟨hlo, hpast, hle, hlen, hslice⟩ := hplaced
    refine ⟨hlocks, hlo, hpast, hlen, ?_⟩
    rw [hslice, List.take_length]
  | synced hp =>
    rw [hp] at hlocks hplaced
    exact ⟨hlocks, hplaced⟩
  | failed hp => exact ⟨by simp [Phase.holds], trivial⟩
  | record hp => exact ⟨by simp [Phase.holds], trivial⟩

/-- A task that did not move keeps what it had, for it does not hold the lock if the one
that moved did. -/
theorem Moves.other_fine {t u : Task} {me k : Nat} {v v' : Vault} {i : Input} {p : Phase}
    (h : Moves t me v i p v') (hne : k ≠ me) (ht : t.Fine f₀ v me) (hu : u.Fine f₀ v k) :
    u.Fine f₀ v' k := by
  by_cases hp : t.phase.holds = true
  · have hheld := ht.locks.mp hp
    have hfree : u.phase.holds = false := by
      rw [← Bool.not_eq_true]
      intro hu'
      rw [hu.locks.mp hu'] at hheld
      exact hne (Option.some.inj hheld)
    refine ⟨?_, placed_of_not_holds hfree⟩
    have hlock : v'.writeLock = v.writeLock ∨ v'.writeLock = none := by
      cases h with
      | accept | opened | sought | wrote | written | synced => exact Or.inl rfl
      | failed | record => exact Or.inr rfl
      | lock _ hf => rw [hheld] at hf; cases hf
    rw [hfree]
    rcases hlock with hl | hl
    · rw [hl, hheld]
      simpa using hne.symm
    · rw [hl]
      simp
  · have hp' : t.phase.holds = false := by simpa using hp
    obtain ⟨hfile, hlog, -⟩ := h.shared hp'
    have hplaced : u.phase.Placed f₀ v' := by
      have := hu.placed
      unfold Phase.Placed at this ⊢
      rw [hfile, hlog]
      exact this
    refine ⟨?_, hplaced⟩
    have hlocks := hu.locks
    cases h with
    | accept => exact hlocks
    | lock _ hf =>
      rw [hlocks, hf]
      simpa using hne.symm
    | failed hh => exact absurd hh hp
    | opened hh | sought hh | wrote n hh _ | written hh | synced hh | record hh =>
      rw [hh] at hp'
      cases hp'

theorem Serve.Fine.grow {v : Serve} {f g : Bytes} (h : v.Fine f) (hg : f <+: g) : v.Fine g := by
  refine ⟨le_trans h.inside hg.length_le, ?_⟩
  have hreads := h.reads
  have hinside := h.inside
  unfold ChunkEntry.extent Extent.stop at hinside
  unfold ServePhase.Reads at hreads ⊢
  split at hreads
  · obtain ⟨hle, hbuf⟩ := hreads
    refine ⟨hle, hbuf.trans (Eq.symm ?_)⟩
    have hin : (⟨v.found.offset, _⟩ : Extent).stop ≤ f.length := le_trans (by
      unfold Extent.stop
      exact Nat.add_le_add_left hle _) hinside
    exact read_of_initial hg hin
  · exact hreads.trans (read_of_initial hg h.inside).symm
  · trivial

theorem Serve.Fine.step {v : Serve} {f : Bytes} {i : Input} {p : ServePhase} (h : v.Fine f)
    (hp : v.step f i = some p) : ({ v with phase := p } : Serve).Fine f := by
  refine ⟨h.inside, ?_⟩
  have hreads := h.reads
  unfold Serve.step at hp
  split at hp
  · split at hp
    · cases hp
      trivial
    · cases hp
      exact ⟨Nat.zero_le _, by simp⟩
    · rename_i buffer hph
      rw [hph] at hreads
      split at hp
      · rename_i hlen
        cases hp
        have := hreads.2
        rw [hlen] at this
        exact this
      · cases hp
    · cases hp
  · split at hp
    · cases hp
    · cases hp
      trivial
  · split at hp
    · rename_i n _ buffer hph
      rw [hph] at hreads
      split at hp
      · rename_i hn
        cases hp
        obtain ⟨hle, hbuf⟩ := hreads
        have hlen : (slice f (v.found.offset + buffer.length) n).length = n :=
          length_slice _ _ _ hn.2
        refine ⟨by rw [List.length_append, hlen]; exact hn.1, ?_⟩
        rw [List.length_append, hlen, ← slice_append_slice, ← hbuf]
      · cases hp
    · cases hp
  · cases hp

theorem Inv.start (m₀ : VaultMetadata) (f₀ : Bytes) : Inv f₀ (State.start m₀ f₀) where
  vault := ⟨List.prefix_rfl, Packed.nil _ _, by simp [State.start]⟩
  tasks k t h := by simp [State.start] at h
  locked k h := by simp [State.start] at h
  serves v h := by simp [State.start] at h

/-- Every entry lies inside the file. -/
def VaultMetadata.Inside (m : VaultMetadata) (f : Bytes) : Prop :=
  ∀ e ∈ m.entries, e.extent.stop ≤ f.length

theorem Inv.inside {s : State} (h : Inv f₀ s) (hr : Recorded m₀ s) (hm : m₀.Inside f₀) :
    s.vault.metadata.Inside s.vault.file := by
  intro e he
  rw [hr, mem_entries_records] at he
  rcases he with he | ⟨r, hr, rfl⟩
  · exact le_trans (hm e he) h.vault.grown.length_le
  · exact h.vault.packed.le_hi _ (List.mem_map_of_mem hr)

theorem Inv.step {s s' : State} {a : Action} (h : Inv f₀ s) (hr : Recorded m₀ s) (hm : m₀.Inside f₀)
    (hs : s.step a = some s') : Inv f₀ s' := by
  cases State.step_steps hs with
  | exchange side remote => exact ⟨h.vault, h.tasks, h.locked, h.serves⟩
  | @spawn x side wanted queue hx hrun =>
    refine ⟨h.vault, ?_, ?_, h.serves⟩
    · intro k t ht
      rcases getElem?_concat_eq_some.mp ht with ht | ⟨rfl, rfl⟩
      · exact h.tasks k t ht
      · refine ⟨?_, trivial⟩
        constructor
        · intro hh
          cases hh
        · intro hl
          exact absurd (h.locked _ hl) (lt_irrefl _)
    · intro k hk
      have := h.locked k hk
      simp only [List.length_append]
      omega
  | @task k i t p v ht hmoves =>
    have hfine := h.tasks k t ht
    have hk : k < s.tasks.length := (List.getElem?_eq_some_iff.mp ht).1
    refine ⟨hmoves.vault_fine h.vault hfine, ?_, ?_, ?_⟩
    · intro j u hu
      rcases getElem?_set_eq_some hu with ⟨rfl, rfl⟩ | ⟨hj, hu⟩
      · exact hmoves.task_fine h.vault hfine
      · exact hmoves.other_fine hj hfine (h.tasks j u hu)
    · intro j hj
      rw [List.length_set]
      cases hmoves with
      | accept | opened | sought | wrote | written | synced => exact h.locked j hj
      | lock =>
        cases hj
        exact hk
      | failed | record => cases hj
    · intro w hw
      exact (h.serves w hw).grow hmoves.grows
  | @found nonce e he =>
    refine ⟨h.vault, h.tasks, h.locked, ?_⟩
    intro w hw
    rcases List.mem_append.mp hw with hw | hw
    · exact h.serves w hw
    · rw [List.mem_singleton.mp hw]
      exact ⟨h.inside hr hm e (mem_entries_of_chunkInfo he), trivial⟩
  | absent => exact h
  | @serve k i v p hv hp =>
    refine ⟨h.vault, h.tasks, h.locked, ?_⟩
    intro w hw
    rcases List.mem_or_eq_of_mem_set hw with hw | rfl
    · exact h.serves w hw
    · exact (h.serves v (List.mem_of_getElem? hv)).step hp

theorem Inv.of_run {s : State} {as : List Action} (hm : m₀.Inside f₀)
    (h : run State.step (State.start m₀ f₀) as = some s) : Inv f₀ s :=
  (run_invariant (I := fun s => Recorded m₀ s ∧ Inv f₀ s)
    (fun _ _ _ hi hs => ⟨hi.1.step hs, hi.2.step hi.1 hm hs⟩) h ⟨rfl, Inv.start m₀ f₀⟩).2

/-! ## Over a whole run -/

/-- The reply a task works with, once it has one. -/
def Phase.reply : Phase → Option (Nonce × Bytes)
  | .fetching => none
  | .locking r | .opening r | .seeking r | .writing r _ _ | .syncing r _ | .recording r _ =>
    some (r.nonce, r.ciphertext)
  | .ended recorded => recorded.map fun r => (r.replied, r.ciphertext)

/-- Every task works with a reply that came for it. -/
def Answered (as : List Action) (s : State) : Prop :=
  ∀ (k : Nat) (t : Task) (n : Nonce) (c : Bytes), s.tasks[k]? = some t →
    t.phase.reply = some (n, c) → Action.task k (.reply (some (.chunkTransfer n c))) ∈ as

theorem reply_accept {t : Task} {msg : Option SyncMessage} {n : Nonce} {c : Bytes}
    (h : (t.accept msg).reply = some (n, c)) : msg = some (.chunkTransfer n c) := by
  unfold Task.accept at h
  split at h
  · split at h
    · split at h
      · cases h
        rfl
      · cases h
    · cases h
      rfl
  · cases h

theorem Moves.reply {t : Task} {me : Nat} {v v' : Vault} {i : Input} {p : Phase} {n : Nonce}
    {c : Bytes} (h : Moves t me v i p v') (hr : p.reply = some (n, c)) :
    t.phase.reply = some (n, c) ∨ i = .reply (some (.chunkTransfer n c)) := by
  cases h with
  | accept msg hp =>
    rw [reply_accept hr]
    exact Or.inr rfl
  | failed => cases hr
  | lock hp | opened hp | sought hp | wrote _ hp | written hp | synced hp | record hp =>
    rw [hp]
    exact Or.inl hr

theorem Answered.step {as : List Action} {s s' : State} {a : Action} (h : Answered as s)
    (hs : s.step a = some s') : Answered (as ++ [a]) s' := by
  intro k t n c ht hr
  rw [List.mem_append, List.mem_singleton]
  cases State.step_steps hs with
  | exchange | found | absent | serve => exact Or.inl (h k t n c ht hr)
  | spawn =>
    rcases getElem?_concat_eq_some.mp ht with ht | ⟨-, rfl⟩
    · exact Or.inl (h k t n c ht hr)
    · cases hr
  | @task j i u p v hu hmoves =>
    rcases getElem?_set_eq_some ht with ⟨rfl, rfl⟩ | ⟨-, ht⟩
    · rcases hmoves.reply hr with hr | rfl
      · exact Or.inl (h k u n c hu hr)
      · exact Or.inr rfl
    · exact Or.inl (h k t n c ht hr)

/-- Every record is one task's last act. -/
def Logged (s : State) : Prop :=
  ∀ r ∈ s.vault.log, ∃ (k : Nat) (t : Task), s.tasks[k]? = some t ∧ t.phase = .ended (some r) ∧
    t.wanted = r.wanted

theorem Logged.step {s s' : State} {a : Action} (h : Logged s) (hs : s.step a = some s') :
    Logged s' := by
  intro r hr
  cases State.step_steps hs with
  | exchange | found | absent | serve => exact h r hr
  | spawn =>
    obtain ⟨k, t, ht, hp, hw⟩ := h r hr
    exact ⟨k, t, getElem?_concat_eq_some.mpr (Or.inl ht), hp, hw⟩
  | @task j i u p v hu hmoves =>
    have hj := (List.getElem?_eq_some_iff.mp hu).1
    have hkeep : r ∈ s.vault.log → ∃ (k : Nat) (t : Task),
        (s.tasks.set j { u with phase := p })[k]? = some t ∧ t.phase = .ended (some r) ∧
        t.wanted = r.wanted := by
      intro hr
      obtain ⟨k, t, ht, hp, hw⟩ := h r hr
      -- A task that has ended does not move.
      have hne : j ≠ k := by
        rintro rfl
        rw [hu] at ht
        cases ht
        cases hmoves with
        | failed hh => rw [hp] at hh; cases hh
        | accept _ hh | lock hh | opened hh | sought hh | wrote _ hh | written hh | synced hh
        | record hh => rw [hp] at hh; cases hh
      exact ⟨k, t, by rw [List.getElem?_set_ne hne]; exact ht, hp, hw⟩
    cases hmoves with
    | accept | lock | opened | sought | wrote | written | synced | failed => exact hkeep hr
    | record hp =>
      rcases List.mem_append.mp hr with hr | hr
      · exact hkeep hr
      · rw [List.mem_singleton.mp hr]
        exact ⟨j, _, List.getElem?_set_self hj, rfl, rfl⟩

theorem Steps.grows {s s' : State} {a : Action} (h : s.step a = some s') :
    s.vault.file <+: s'.vault.file := by
  cases State.step_steps h with
  | task _ hm => exact hm.grows
  | exchange | spawn | found | absent | serve => exact List.prefix_rfl

theorem run_grows {s s' : State} {as : List Action} (h : run State.step s as = some s') :
    s.vault.file <+: s'.vault.file :=
  run_invariant (I := fun x => s.vault.file <+: x.vault.file)
    (fun _ _ _ hi hs => hi.trans (Steps.grows hs)) h List.prefix_rfl

theorem run_serves {s s' : State} {as : List Action} {k : Nat} {e : ChunkEntry}
    (h : run State.step s as = some s') (hk : ∃ v, s.serves[k]? = some v ∧ v.found = e) :
    ∃ v, s'.serves[k]? = some v ∧ v.found = e := by
  refine run_invariant (I := fun x => ∃ v, x.serves[k]? = some v ∧ v.found = e) ?_ h hk
  rintro s a s' ⟨v, hv, he⟩ hs
  cases State.step_steps hs with
  | exchange | spawn | task | absent => exact ⟨v, hv, he⟩
  | found => exact ⟨v, getElem?_concat_eq_some.mpr (Or.inl hv), he⟩
  | @serve j i w p hw hp =>
    by_cases hj : j = k
    · subst hj
      rw [hw] at hv
      cases hv
      exact ⟨_, List.getElem?_set_self (List.getElem?_eq_some_iff.mp hw).1, he⟩
    · exact ⟨v, by rw [List.getElem?_set_ne hj]; exact hv, he⟩

/-- What is known of a manager that started with `m₀` and `f₀` and did `as`. -/
structure Appended (m₀ : VaultMetadata) (as : List Action) (s : State) : Prop where
  entries : ∀ e, e ∈ s.vault.metadata.entries ↔ e ∈ m₀.entries ∨ ∃ r ∈ s.vault.log, e = r.entry
  /-- Each recorded range is inside the file and holds what came back for it. -/
  holds : ∀ r ∈ s.vault.log, r.entry.extent.stop ≤ s.vault.file.length ∧
    r.entry.extent.read s.vault.file = r.ciphertext
  received : ∀ r ∈ s.vault.log, ∃ (k : Nat) (t : Task), s.tasks[k]? = some t ∧
    t.wanted = r.wanted ∧ Action.task k (.reply (some (.chunkTransfer r.replied r.ciphertext))) ∈ as
  apart : s.vault.log.Pairwise fun r r' => r.entry.extent.Apart r'.entry.extent
  apart_initial : ∀ r ∈ s.vault.log, ∀ e ∈ m₀.entries, e.extent.Apart r.entry.extent

theorem received_of_run {s : State} {as : List Action}
    (h : run State.step (State.start m₀ f₀) as = some s) : ∀ r ∈ s.vault.log,
      ∃ (k : Nat) (t : Task), s.tasks[k]? = some t ∧ t.wanted = r.wanted ∧
        Action.task k (.reply (some (.chunkTransfer r.replied r.ciphertext))) ∈ as := by
  have hlogged : Logged s := run_invariant (fun _ _ _ hi hs => hi.step hs) h (by
    intro r hr
    simp [State.start] at hr)
  have hanswered : Answered as s := by
    have hstart : Answered [] (State.start m₀ f₀) := by
      intro k t n c ht
      simp [State.start] at ht
    exact run_history (fun _ _ _ _ hi hs => Answered.step hi hs) h hstart
  intro r hr
  obtain ⟨k, t, ht, hp, hw⟩ := hlogged r hr
  exact ⟨k, t, ht, hw, hanswered k t r.replied r.ciphertext ht (by rw [hp]; rfl)⟩

theorem Appended.of_run {s : State} {as : List Action} (hm : m₀.Inside f₀)
    (h : run State.step (State.start m₀ f₀) as = some s) : Appended m₀ as s := by
  have hinv := Inv.of_run hm h
  refine ⟨?_, ?_, received_of_run h, ?_, ?_⟩
  · intro e
    rw [Recorded.of_run h, mem_entries_records]
  · intro r hr
    exact ⟨hinv.vault.packed.le_hi _ (List.mem_map_of_mem hr), hinv.vault.written r hr⟩
  · exact List.pairwise_map.mp hinv.vault.packed.apart
  · intro r hr e he
    exact Or.inl (le_trans (hm e he) (hinv.vault.packed.lo_le _ (List.mem_map_of_mem hr)))

/-- **Append integrity.** Whatever the tasks of both paths do, and in whatever order, and
whichever file operations fail: an entry names the bytes that came back for it, recorded
ranges do not overlap each other or what was there before, they never change, and a chunk
request is served the bytes of the first entry with its nonce. -/
theorem append_integrity {s : State} {as : List Action} (hm : m₀.Inside f₀)
    (h : run State.step (State.start m₀ f₀) as = some s) :
    Appended m₀ as s ∧
    (∀ bs s', run State.step s bs = some s' → ∀ e ∈ s.vault.metadata.entries,
      e.extent.read s'.vault.file = e.extent.read s.vault.file) ∧
    ∀ nonce bs s' e v buffer, run State.step s (.request nonce :: bs) = some s' →
      s.vault.metadata.chunkInfo nonce = some e → s'.serves[s.serves.length]? = some v →
      v.phase = .ended (some buffer) → buffer = e.extent.read s.vault.file := by
  have hinv := Inv.of_run hm h
  have hinside := hinv.inside (Recorded.of_run h) hm
  refine ⟨Appended.of_run hm h, ?_, ?_⟩
  · intro bs s' hbs e he
    exact read_of_initial (run_grows hbs) (hinside e he)
  · intro nonce bs s' e v buffer hbs he hv hp
    have hinv' : Inv f₀ s' := Inv.of_run hm (run_append_eq_some.mpr ⟨s, h, hbs⟩)
    obtain ⟨s₁, hs₁, hbs'⟩ := run_cons_eq_some.mp hbs
    have hfound : ∃ w, s₁.serves[s.serves.length]? = some w ∧ w.found = e := by
      simp only [State.step, he] at hs₁
      cases hs₁
      exact ⟨⟨nonce, e, .opening⟩, by simp, rfl⟩
    obtain ⟨w, hw, rfl⟩ := run_serves hbs' hfound
    rw [hv] at hw
    cases hw
    have hreads := (hinv'.serves v (List.mem_of_getElem? hv)).reads
    rw [hp] at hreads
    exact hreads.trans (read_of_initial (run_grows hbs) (hinside _ (mem_entries_of_chunkInfo he)))

/-! ## A run with a failed append -/

def nonceOf (b : UInt8) : Nonce := ⟨List.replicate 24 b, by simp⟩

def sampleMetadata (fileTable : List FileIndex) : VaultMetadata :=
  ⟨fileTable, ⟨List.replicate 32 0, by simp⟩⟩

def sampleLocal : VaultMetadata := sampleMetadata [⟨"a", 1, [⟨2, 0, nonceOf 1⟩]⟩]

def sampleRemote : VaultMetadata :=
  sampleMetadata [⟨"a", 2, [⟨2, 0, nonceOf 1⟩, ⟨2, 2, nonceOf 2⟩, ⟨1, 4, nonceOf 3⟩]⟩]

/-- Task `k` gets its chunk and writes it down. -/
def fetches (k : Nat) (n : Nonce) (c : Bytes) : List Action :=
  [.reply (some (.chunkTransfer n c)), .ok, .ok, .ok, .wrote c.length, .ok, .ok, .ok].map (.task k)

/-- Task `k` gets its chunk and fails after the first byte of it is in the file. -/
def failsHalfway (k : Nat) (n : Nonce) (c : Bytes) : List Action :=
  [.reply (some (.chunkTransfer n c)), .ok, .ok, .ok, .wrote 1, .err].map (.task k)

def sampleRun : List Action :=
  [.exchange .listener sampleRemote, .spawn 0, .spawn 0] ++ failsHalfway 1 (nonceOf 3) [5, 5] ++
    fetches 0 (nonceOf 2) [8, 9] ++
    [.request (nonceOf 2), .serve 0 .ok, .serve 0 .ok, .serve 0 (.read 1), .serve 0 (.read 1),
      .serve 0 .ok]

theorem append_integrity_after_failed_append :
    sampleLocal.Inside [6, 7] ∧ ∃ s, run State.step (State.start sampleLocal [6, 7]) sampleRun = some s ∧
      s.vault.file = [6, 7, 5, 8, 9] ∧ s.vault.log.length = 1 ∧ Appended sampleLocal sampleRun s := by
  have hin : sampleLocal.Inside [6, 7] := by
    intro e he
    revert e
    decide
  have hrun : (run State.step (State.start sampleLocal [6, 7]) sampleRun).any
      (fun s => s.vault.file = [6, 7, 5, 8, 9] && s.vault.log.length = 1) = true := by
    decide +kernel
  obtain ⟨s, hs, hend⟩ := (Option.any_eq_true _ _).mp hrun
  simp only [Bool.and_eq_true, decide_eq_true_eq] at hend
  exact ⟨hin, s, hs, hend.1, hend.2, (append_integrity hin hs).1⟩

end AtomVault.Sync
