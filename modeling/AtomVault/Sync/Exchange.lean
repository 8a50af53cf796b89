import AtomVault.Sync.Binding

/-!
# One exchange from start to end

Between the moment the remote's metadata arrives and the end of the last fetch, the
metadata gains one record for every fetch that succeeded, in the order they finished.
-/

open Lib

namespace AtomVault.Sync

def Action.isExchange : Action → Bool
  | .exchange _ _ => true
  | _ => false

/-- Nothing is queued and no fetch is under way. -/
structure Quiet (s : State) : Prop where
  queues : ∀ x ∈ s.exchanges, x.queue = []
  tasks : ∀ t ∈ s.tasks, t.phase.live = false

instance (s : State) : Decidable (Quiet s) :=
  decidable_of_iff ((∀ x ∈ s.exchanges, x.queue = []) ∧ ∀ t ∈ s.tasks, t.phase.live = false)
    ⟨fun h => ⟨h.1, h.2⟩, fun h => ⟨h.queues, h.tasks⟩⟩

def Task.records (t : Task) : List Record :=
  match t.phase with
  | .ended (some r) => [r]
  | _ => []

/-- What became of an exchange that asked for `missing` in the state `s₀`: `queue` is still to
be spawned, `ts` are its tasks, `new` is what they have recorded. -/
structure Since (s₀ : State) (side : Side) (missing : List Missing) (s : State)
    (queue : List Missing) (ts : List Task) (new : List Record) : Prop where
  exchanges : s.exchanges = s₀.exchanges ++ [⟨side, queue⟩]
  tasks : s.tasks = s₀.tasks ++ ts
  wanted : ts.map (·.wanted) ++ queue = missing
  log : s.vault.log = s₀.vault.log ++ new
  records : new.Perm (ts.flatMap Task.records)
  own : ∀ t ∈ ts, ∀ r ∈ t.records, r.wanted = t.wanted
  metadata : s.vault.metadata = new.foldl VaultMetadata.record s₀.vault.metadata

variable {s₀ s s' : State} {side : Side} {missing queue : List Missing} {ts : List Task}
  {new : List Record}

theorem Moves.records {t : Task} {me : Nat} {v v' : Vault} {i : Input} {p : Phase}
    (h : Moves t me v i p v') : t.records = [] ∧ ∃ rs, ({ t with phase := p } : Task).records = rs ∧
      v'.log = v.log ++ rs ∧ v'.metadata = rs.foldl VaultMetadata.record v.metadata ∧
      ∀ r ∈ rs, r.wanted = t.wanted := by
  constructor
  · have hlive := h.live
    unfold Task.records
    split
    · rename_i hp
      rw [hp] at hlive
      cases hlive
    · rfl
  · cases h with
    | accept msg hp =>
      refine ⟨[], ?_, by simp, rfl, by simp⟩
      unfold Task.records Task.accept
      dsimp only
      split
      · rename_i hacc
        split at hacc
        · split at hacc
          · split at hacc <;> cases hacc
          · cases hacc
        · cases hacc
      · rfl
    | lock | opened | sought | wrote | written | synced | failed =>
      exact ⟨[], rfl, by simp, rfl, by simp⟩
    | @record r offset hp =>
      refine ⟨[t.recorded r offset], rfl, rfl, rfl, ?_⟩
      intro x hx
      rw [List.mem_singleton.mp hx]
      rfl

theorem Since.task {k : Nat} {i : Input} {t : Task} {p : Phase} {v : Vault}
    (h : Since s₀ side missing s queue ts new) (hq : Quiet s₀) (ht : s.tasks[k]? = some t)
    (hm : Moves t k s.vault i p v) : ∃ ts' new',
      Since s₀ side missing { s with vault := v, tasks := s.tasks.set k { t with phase := p } }
        queue ts' new' := by
  -- Only a task of this exchange still moves.
  have hk : s₀.tasks.length ≤ k := by
    by_contra hlt
    rw [h.tasks, List.getElem?_append_left (by omega)] at ht
    have hdead := hq.tasks t (List.mem_of_getElem? ht)
    rw [hm.live] at hdead
    cases hdead
  have ht' : ts[k - s₀.tasks.length]? = some t := by
    rwa [h.tasks, List.getElem?_append_right hk] at ht
  obtain ⟨hnone, rs, hrs, hlog, hmeta, hown⟩ := hm.records
  refine ⟨ts.set (k - s₀.tasks.length) { t with phase := p }, new ++ rs, ?_⟩
  refine ⟨h.exchanges, ?_, ?_, ?_, ?_, ?_, ?_⟩
  · show s.tasks.set k _ = _
    rw [h.tasks, List.set_append_right _ _ hk]
  · obtain ⟨hlt, hget⟩ := List.getElem?_eq_some_iff.mp ht'
    rw [← h.wanted, List.map_set]
    congr 1
    refine List.ext_getElem (by simp) fun j hj _ => ?_
    rw [List.getElem_set]
    split
    · rename_i hjk
      subst hjk
      rw [List.getElem_map, hget]
    · rfl
  · show v.log = _
    rw [hlog, h.log, List.append_assoc]
  · have hperm := flatMap_set_perm Task.records (b := { t with phase := p }) ht'
    rw [hnone, hrs, List.nil_append] at hperm
    exact (h.records.append_right rs).trans (List.perm_append_comm.trans hperm)
  · intro u hu r hr
    rcases List.mem_or_eq_of_mem_set hu with hu | rfl
    · exact h.own u hu r hr
    · rw [hrs] at hr
      exact hown r hr
  · show v.metadata = _
    rw [hmeta, h.metadata, List.foldl_append]

theorem Since.spawn {x : Nat} {side' : Side} {w : Missing} {q : List Missing}
    (h : Since s₀ side missing s queue ts new) (hq : Quiet s₀)
    (hx : s.exchanges[x]? = some ⟨side', w :: q⟩) : ∃ queue' ts',
      Since s₀ side missing { s with
        exchanges := s.exchanges.set x ⟨side', q⟩
        tasks := s.tasks ++ [⟨x, side', w, .fetching⟩] } queue' ts' new := by
  rw [h.exchanges] at hx
  rcases getElem?_concat_eq_some.mp hx with hx | ⟨rfl, he⟩
  · have hempty := hq.queues _ (List.mem_of_getElem? hx)
    cases hempty
  · obtain ⟨rfl, rfl⟩ : side = side' ∧ queue = w :: q := by simpa using he
    refine ⟨q, ts ++ [⟨s₀.exchanges.length, side, w, .fetching⟩], ?_, ?_, ?_, h.log, ?_, ?_,
      h.metadata⟩
    · show s.exchanges.set _ _ = _
      rw [h.exchanges, List.set_append_right _ _ (le_refl _)]
      simp
    · show s.tasks ++ _ = _
      rw [h.tasks, List.append_assoc]
    · rw [← h.wanted]
      simp
    · have := h.records
      simpa [Task.records] using this
    · intro t ht r hr
      rcases List.mem_append.mp ht with ht | ht
      · exact h.own t ht r hr
      · rw [List.mem_singleton.mp ht] at hr
        cases hr

theorem Since.step {a : Action} (h : Since s₀ side missing s queue ts new) (hq : Quiet s₀)
    (ha : a.isExchange = false) (hs : s.step a = some s') :
    ∃ queue' ts' new', Since s₀ side missing s' queue' ts' new' := by
  cases State.step_steps hs with
  | exchange => cases ha
  | spawn hx _ =>
    obtain ⟨queue', ts', h'⟩ := h.spawn hq hx
    exact ⟨queue', ts', new, h'⟩
  | task ht hm =>
    obtain ⟨ts', new', h'⟩ := h.task hq ht hm
    exact ⟨queue, ts', new', h'⟩
  | found | serve =>
    exact ⟨queue, ts, new, h.exchanges, h.tasks, h.wanted, h.log, h.records, h.own, h.metadata⟩
  | absent => exact ⟨queue, ts, new, h⟩

/-- From a quiet state to the next, one exchange in between. `new` is what it recorded. -/
structure Exchanged (side : Side) (remote : VaultMetadata) (s : State) (as : List Action)
    (s' : State) (new : List Record) : Prop where
  only : ∀ a ∈ as, a.isExchange = false
  run : run State.step s (.exchange side remote :: as) = some s'
  quiet : Quiet s'
  log : s'.vault.log = s.vault.log ++ new

theorem Exchanged.since {remote : VaultMetadata} {as : List Action}
    (h : Exchanged side remote s as s' new) (hq : Quiet s) :
    ∃ ts, Since s side (s.vault.metadata.missingChunks remote) s' [] ts new := by
  obtain ⟨s₁, hs₁, hrun⟩ := run_cons_eq_some.mp h.run
  have hstart : Since s side (s.vault.metadata.missingChunks remote) s₁
      (s.vault.metadata.missingChunks remote) [] [] := by
    cases hs₁
    exact ⟨rfl, by simp, rfl, by simp, List.Perm.nil, by simp, rfl⟩
  have hallowed : Allowed State.step (fun _ a => a.isExchange = false) s₁ as :=
    allowed_of_forall fun a ha _ => h.only a ha
  obtain ⟨queue, ts, new', hend⟩ := run_allowed
    (I := fun x => ∃ queue ts new, Since s side (s.vault.metadata.missingChunks remote) x queue ts new)
    (fun _ _ _ ⟨_, _, _, hi⟩ ha hs => hi.step hq ha hs) hrun hallowed
    ⟨_, _, _, hstart⟩
  have hqueue : queue = [] := h.quiet.queues ⟨side, queue⟩ (by rw [hend.exchanges]; simp)
  have hnew : new' = new := by
    have := hend.log
    rw [h.log] at this
    exact (List.append_cancel_left this).symm
  subst hqueue hnew
  exact ⟨ts, hend⟩

theorem Exchanged.metadata {remote : VaultMetadata} {as : List Action}
    (h : Exchanged side remote s as s' new) (hq : Quiet s) :
    s'.vault.metadata = new.foldl VaultMetadata.record s.vault.metadata := by
  obtain ⟨ts, hsince⟩ := h.since hq
  exact hsince.metadata

end AtomVault.Sync
