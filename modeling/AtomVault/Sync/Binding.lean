import AtomVault.Sync.Append

/-!
# Which reply a recorded chunk came from

The dialer drops a reply for another nonce, the listener keeps it. Both decide what is
missing before they fetch it, so two exchanges that overlap can fetch a chunk twice.
-/

open Lib

namespace AtomVault.Sync

/-! ## What is on its way -/

def Exchange.pending (x : Exchange) : List (String × Nonce) := x.queue.map Missing.key

def Task.pending (t : Task) : List (String × Nonce) := if t.phase.live then [t.wanted.key] else []

/-- Everything decided to be missing and not yet fetched, or given up. -/
def State.pending (s : State) : List (String × Nonce) :=
  s.exchanges.flatMap Exchange.pending ++ s.tasks.flatMap Task.pending

/-! ## What the metadata has -/

/-- No file lists a nonce twice. -/
def VaultMetadata.Distinct (m : VaultMetadata) : Prop := ∀ f ∈ m.fileTable, f.nonces.Nodup

theorem VaultMetadata.Distinct.record {m : VaultMetadata} {r : Record} (h : m.Distinct)
    (hr : m.hasKey r.wanted.key = false) : (m.record r).Distinct := by
  intro f hf
  rcases mem_recordIn hf with hf | hf
  · exact h f hf
  · unfold FileIndex.nonces
    rw [hf, List.map_append, List.map_singleton]
    unfold VaultMetadata.hasKey VaultMetadata.chunkExists Missing.key VaultMetadata.find at hr
    cases hfind : m.fileTable.find? fun f => f.vfsName = r.wanted.vfsName with
    | none => simp
    | some g =>
      rw [hfind] at hr
      have hnot : r.wanted.nonce ∉ g.nonces := by
        intro hmem
        obtain ⟨c, hc, hcn⟩ := List.mem_map.mp hmem
        simp only [FileIndex.hasNonce, Option.any_some, List.any_eq_false, decide_eq_true_eq] at hr
        exact hr c hc hcn
      exact List.nodup_append.mpr ⟨h g (List.mem_of_find?_eq_some hfind), List.nodup_singleton _,
        fun a ha b hb => by
          rw [List.mem_singleton.mp hb]
          rintro rfl
          exact hnot ha⟩

/-! ## The invariant -/

/-- A task works only with a reply for its own nonce. -/
def Task.Bound (t : Task) : Prop := ∀ n c, t.phase.reply = some (n, c) → n = t.wanted.nonce

structure Orderly (s : State) : Prop where
  pending : s.pending.Nodup
  absent : ∀ k ∈ s.pending, s.vault.metadata.hasKey k = false
  distinct : s.vault.metadata.Distinct
  bound : ∀ (k : Nat) (t : Task), s.tasks[k]? = some t → t.Bound
  log : ∀ r ∈ s.vault.log, r.replied = r.wanted.nonce

/-- The steps under which both halves hold. A listener's reply has to be for the nonce it
asked for, and an exchange may only ask for what it lists once and nobody else is fetching. -/
def Careful (s : State) : Action → Prop
  | .task k (.reply (some (.chunkTransfer n _))) =>
    ∀ t ∈ s.tasks[k]?, t.side = .listener → t.wanted.nonce = n
  | .exchange _ remote =>
    ((s.vault.metadata.missingChunks remote).map Missing.key).Nodup ∧
      ∀ w ∈ s.vault.metadata.missingChunks remote, w.key ∉ s.pending
  | _ => True

theorem Moves.bound {t : Task} {me : Nat} {v v' : Vault} {i : Input} {p : Phase}
    (h : Moves t me v i p v') (ht : t.Bound)
    (hi : ∀ n c, i = .reply (some (.chunkTransfer n c)) → t.side = .listener → t.wanted.nonce = n) :
    ({ t with phase := p } : Task).Bound := by
  intro n c hr
  rcases h.reply hr with hr | rfl
  · exact ht n c hr
  · cases h with
    | accept _ hp =>
      cases hside : t.side with
      | dialer =>
        simp only [Task.accept, hside] at hr
        split at hr
        · rename_i hn
          exact hn.symm
        · cases hr
      | listener => exact (hi n c rfl hside).symm

theorem Moves.live {t : Task} {me : Nat} {v v' : Vault} {i : Input} {p : Phase}
    (h : Moves t me v i p v') : t.phase.live = true := by
  cases h with
  | failed hh => cases hp : t.phase <;> simp [hp, Phase.holds, Phase.live] at hh ⊢
  | accept _ hh | lock hh | opened hh | sought hh | wrote _ hh | written hh | synced hh
  | record hh => rw [hh]; rfl

/-- What is pending, before and after a task moved: all the same, or less what it wanted. -/
theorem pending_set {s : State} {k : Nat} {t : Task} {p : Phase} {v : Vault}
    (ht : s.tasks[k]? = some t) (hlive : t.phase.live = true) :
    let s' : State := { s with vault := v, tasks := s.tasks.set k { t with phase := p } }
    if p.live then s.pending.Perm s'.pending else s.pending.Perm (t.wanted.key :: s'.pending) := by
  intro s'
  have hperm := flatMap_set_perm Task.pending (b := { t with phase := p }) ht
  have hbefore : t.pending = [t.wanted.key] := by
    unfold Task.pending
    rw [if_pos hlive]
  rw [hbefore] at hperm
  split
  · rename_i hp
    have hafter : ({ t with phase := p } : Task).pending = [t.wanted.key] := by
      unfold Task.pending
      rw [if_pos hp]
    rw [hafter] at hperm
    exact ((List.perm_cons _).mp hperm).append_left _
  · rename_i hp
    have hafter : ({ t with phase := p } : Task).pending = [] := by
      unfold Task.pending
      rw [if_neg hp]
    rw [hafter] at hperm
    exact (hperm.append_left _).trans List.perm_middle

theorem Orderly.start {m₀ : VaultMetadata} (h : m₀.Distinct) (f₀ : Bytes) :
    Orderly (State.start m₀ f₀) where
  pending := List.nodup_nil
  absent k hk := by simp [State.pending, State.start] at hk
  distinct := h
  bound k t ht := by simp [State.start] at ht
  log r hr := by simp [State.start] at hr

theorem Orderly.task {s : State} {k : Nat} {i : Input} {t : Task} {p : Phase} {v : Vault}
    (h : Orderly s) (hc : Careful s (.task k i)) (ht : s.tasks[k]? = some t)
    (hm : Moves t k s.vault i p v) :
    Orderly { s with vault := v, tasks := s.tasks.set k { t with phase := p } } := by
  have hb : ∀ (j : Nat) (u : Task), (s.tasks.set k { t with phase := p })[j]? = some u → u.Bound := by
    intro j u hu
    rcases getElem?_set_eq_some hu with ⟨rfl, rfl⟩ | ⟨-, hu⟩
    · refine hm.bound (h.bound j t ht) ?_
      rintro n c rfl hside
      exact hc t ht hside
    · exact h.bound j u hu
  have hpending := pending_set (p := p) (v := v) ht hm.live
  set s' : State := { s with vault := v, tasks := s.tasks.set k { t with phase := p } } with hs'
  -- Whatever is still pending was pending before.
  have hrest : s'.pending.Nodup ∧ (∀ q ∈ s'.pending, s.vault.metadata.hasKey q = false) ∧
      (p.live = false → t.wanted.key ∈ s.pending ∧ t.wanted.key ∉ s'.pending) := by
    cases hp : p.live with
    | true =>
      simp only [hp, if_true] at hpending
      exact ⟨hpending.nodup_iff.mp h.pending, fun q hq => h.absent q (hpending.mem_iff.mpr hq),
        fun hf => by cases hf⟩
    | false =>
      simp only [hp, Bool.false_eq_true, if_false] at hpending
      have hcons := List.nodup_cons.mp (hpending.nodup_iff.mp h.pending)
      exact ⟨hcons.2, fun q hq => h.absent q (hpending.mem_iff.mpr (List.mem_cons_of_mem _ hq)),
        fun _ => ⟨hpending.mem_iff.mpr List.mem_cons_self, hcons.1⟩⟩
  obtain ⟨hnodup, habsent, hended⟩ := hrest
  cases hm with
  | accept | lock | opened | sought | wrote | written | synced | failed =>
    exact ⟨hnodup, habsent, h.distinct, hb, h.log⟩
  | record hp =>
    obtain ⟨hwas, hgone⟩ := hended rfl
    refine ⟨hnodup, ?_, h.distinct.record (h.absent _ hwas), hb, ?_⟩
    · intro q hq
      rw [← Bool.not_eq_true, hasKey_record, habsent q hq]
      rintro (hq' | rfl)
      · cases hq'
      · exact hgone hq
    · intro r hr
      rcases List.mem_append.mp hr with hr | hr
      · exact h.log r hr
      · rw [List.mem_singleton.mp hr]
        exact h.bound k t ht _ _ (by rw [hp]; rfl)

theorem Orderly.spawn {s : State} {x : Nat} {side : Side} {wanted : Missing} {queue : List Missing}
    (h : Orderly s) (hx : s.exchanges[x]? = some ⟨side, wanted :: queue⟩) :
    Orderly { s with
      exchanges := s.exchanges.set x ⟨side, queue⟩
      tasks := s.tasks ++ [⟨x, side, wanted, .fetching⟩] } := by
  set s' : State := { s with
    exchanges := s.exchanges.set x ⟨side, queue⟩
    tasks := s.tasks ++ [⟨x, side, wanted, .fetching⟩] } with hs'
  -- The key moves from the queue to the tasks.
  have hqueue : (s.exchanges.flatMap Exchange.pending).Perm
      (wanted.key :: (s.exchanges.set x ⟨side, queue⟩).flatMap Exchange.pending) := by
    have hperm := flatMap_set_perm Exchange.pending (b := ⟨side, queue⟩) hx
    exact (List.perm_append_left_iff _).mp (hperm.trans List.perm_middle.symm)
  have hperm : s.pending.Perm s'.pending := by
    have htasks : (s'.tasks).flatMap Task.pending = s.tasks.flatMap Task.pending ++ [wanted.key] := by
      simp [hs', Task.pending, Phase.live]
    unfold State.pending
    rw [htasks, ← List.append_assoc]
    exact (hqueue.append_right _).trans (List.perm_append_singleton _ _).symm
  refine ⟨hperm.nodup_iff.mp h.pending, fun q hq => h.absent q (hperm.mem_iff.mpr hq), h.distinct, ?_,
    h.log⟩
  intro k t ht
  rcases getElem?_concat_eq_some.mp ht with ht | ⟨-, rfl⟩
  · exact h.bound k t ht
  · intro n c hr
    cases hr

theorem Orderly.exchange {s : State} {side : Side} {remote : VaultMetadata} (h : Orderly s)
    (hc : Careful s (.exchange side remote)) :
    Orderly { s with
      exchanges := s.exchanges ++ [⟨side, s.vault.metadata.missingChunks remote⟩] } := by
  set s' : State := { s with
    exchanges := s.exchanges ++ [⟨side, s.vault.metadata.missingChunks remote⟩] } with hs'
  obtain ⟨hnodup, hnew⟩ := hc
  have hperm : ((s.vault.metadata.missingChunks remote).map Missing.key ++ s.pending).Perm
      s'.pending := by
    unfold State.pending
    simp only [hs', List.flatMap_append, List.flatMap_cons, List.flatMap_nil, List.append_nil,
      List.append_assoc]
    exact List.perm_append_comm_assoc _ _ _
  refine ⟨hperm.nodup_iff.mp ?_, ?_, h.distinct, h.bound, h.log⟩
  · refine List.nodup_append.mpr ⟨hnodup, h.pending, ?_⟩
    intro a ha b hb
    obtain ⟨w, hw, rfl⟩ := List.mem_map.mp ha
    rintro rfl
    exact hnew w hw hb
  · intro q hq
    rcases List.mem_append.mp (hperm.mem_iff.mpr hq) with hq | hq
    · obtain ⟨w, hw, rfl⟩ := List.mem_map.mp hq
      obtain ⟨f, -, -, n, -, hnot, rfl⟩ := mem_missingChunks.mp hw
      exact hnot
    · exact h.absent q hq

theorem Orderly.step {s s' : State} {a : Action} (h : Orderly s) (hc : Careful s a)
    (hs : s.step a = some s') : Orderly s' := by
  cases State.step_steps hs with
  | exchange => exact h.exchange hc
  | spawn hx _ => exact h.spawn hx
  | task ht hm => exact h.task hc ht hm
  | found | serve => exact ⟨h.pending, h.absent, h.distinct, h.bound, h.log⟩
  | absent => exact h

/-! ## Over a whole run -/

/-- What a manager that started with `m₀` and `f₀` and did `as` should have: each new entry of a
file stands for a chunk a task of that file asked for and got under the nonce of the entry, and no
nonce is twice in a file. -/
structure ChunksBound (m₀ : VaultMetadata) (f₀ : Bytes) (as : List Action) (s : State) : Prop where
  fromReply : ∀ name e, s.vault.metadata.Lists name e → m₀.Lists name e ∨
    ∃ r ∈ s.vault.log, e = r.entry ∧ r.wanted.vfsName = name ∧
      (m₀.Inside f₀ → e.extent.read s.vault.file = r.ciphertext) ∧
      ∃ k t, s.tasks[k]? = some t ∧ t.wanted = r.wanted ∧
        Action.task k (.reply (some (.chunkTransfer e.nonce r.ciphertext))) ∈ as
  distinct : s.vault.metadata.Distinct

/-- **Chunk binding.** In a run where every listener's reply is for the nonce asked for,
and no exchange asks for what another is already fetching, or for one nonce twice. -/
theorem chunk_binding {m₀ : VaultMetadata} {f₀ : Bytes} {s : State} {as : List Action}
    (hd : m₀.Distinct) (h : run State.step (State.start m₀ f₀) as = some s)
    (hc : Allowed State.step Careful (State.start m₀ f₀) as) : ChunksBound m₀ f₀ as s := by
  have horderly : Orderly s :=
    run_allowed (fun _ _ _ hi hca hs => Orderly.step hi hca hs) h hc (Orderly.start hd f₀)
  refine ⟨?_, horderly.distinct⟩
  intro name e he
  rw [Recorded.of_run h, lists_records] at he
  rcases he with he | ⟨r, hr, hname, rfl⟩
  · exact Or.inl he
  · obtain ⟨k, t, ht, hwanted, ha⟩ := received_of_run h r hr
    rw [horderly.log r hr] at ha
    have hbytes (hm : m₀.Inside f₀) : r.entry.extent.read s.vault.file = r.ciphertext :=
      ((Appended.of_run hm h).holds r hr).2
    exact Or.inr ⟨r, hr, rfl, hname, hbytes, k, t, ht, hwanted, ha⟩

/-! ## Three runs -/

instance (s : State) : ∀ a, Decidable (Careful s a) := by
  intro a
  unfold Careful
  split <;> infer_instance

def secondRemote : VaultMetadata := sampleMetadata [⟨"a", 2, [⟨1, 0, nonceOf 4⟩]⟩]

/-- Two exchanges at a time, for different chunks. -/
def overlapping : List Action :=
  [.exchange .listener sampleRemote, .exchange .dialer secondRemote, .spawn 0, .spawn 1] ++
    fetches 1 (nonceOf 4) [3] ++ fetches 0 (nonceOf 2) [8, 9]

theorem chunk_binding_overlapping : sampleLocal.Distinct ∧
    ∃ s, run State.step (State.start sampleLocal [6, 7]) overlapping = some s ∧
      s.vault.log.length = 2 ∧ ChunksBound sampleLocal [6, 7] overlapping s := by
  have hd : sampleLocal.Distinct := by
    intro f hf
    revert f
    decide
  have hrun : (run State.step (State.start sampleLocal [6, 7]) overlapping).any
      (fun s => s.vault.log.length = 2) = true := by decide +kernel
  have hc : Allowed State.step Careful (State.start sampleLocal [6, 7]) overlapping := by
    decide +kernel
  obtain ⟨s, hs, hend⟩ := (Option.any_eq_true _ _).mp hrun
  exact ⟨hd, s, hs, by simpa using hend, chunk_binding hd hs hc⟩

/-- The peer answers the listener with another chunk. -/
def answersAnother : List Action :=
  [.exchange .listener sampleRemote, .spawn 0] ++ fetches 0 (nonceOf 7) [8]

/-- The same exchange once more, before the first one is done. -/
def asksTwice : List Action :=
  [.exchange .dialer sampleRemote, .exchange .dialer sampleRemote, .spawn 0, .spawn 1] ++
    fetches 0 (nonceOf 2) [8, 9] ++ fetches 1 (nonceOf 2) [8, 9]

/-- The listener files a chunk under a nonce no reply carried, and two exchanges that
overlap file a chunk twice. -/
theorem listener_takes_any_reply :
    (∃ s, run State.step (State.start sampleLocal [6, 7]) answersAnother = some s ∧
      ¬ ChunksBound sampleLocal [6, 7] answersAnother s) ∧
    ∃ s, run State.step (State.start sampleLocal [6, 7]) asksTwice = some s ∧
      ¬ s.vault.metadata.Distinct := by
  have hfirst : (run State.step (State.start sampleLocal [6, 7]) answersAnother).any
      (fun s => s.vault.metadata.fileTable.any fun f => f.vfsName = "a" ∧ ⟨1, 2, nonceOf 2⟩ ∈ f.chunks) =
        true := by decide +kernel
  have hsecond : (run State.step (State.start sampleLocal [6, 7]) asksTwice).any
      (fun s => !s.vault.metadata.fileTable.all fun f => f.nonces.Nodup) = true := by decide +kernel
  obtain ⟨s, hs, hentry⟩ := (Option.any_eq_true _ _).mp hfirst
  obtain ⟨s', hs', htwice⟩ := (Option.any_eq_true _ _).mp hsecond
  refine ⟨⟨s, hs, ?_⟩, s', hs', ?_⟩
  · intro hbound
    have hlists : s.vault.metadata.Lists "a" ⟨1, 2, nonceOf 2⟩ := by
      simpa [VaultMetadata.Lists] using hentry
    rcases hbound.fromReply _ _ hlists with ⟨f, hf, -, he⟩ | ⟨r, -, -, -, -, k, t, -, -, ha⟩
    · revert f
      decide
    · simp only [answersAnother, fetches, List.map_cons, List.map_nil, List.mem_append, List.mem_cons,
        List.not_mem_nil, or_false, reduceCtorEq, Action.task.injEq, Input.reply.injEq,
        Option.some.injEq, SyncMessage.chunkTransfer.injEq, and_false, false_or] at ha
      exact absurd ha.2.1 (by decide)
  · intro hd
    simp only [Bool.not_eq_eq_eq_not, Bool.not_true, List.all_eq_false, decide_eq_true_eq] at htwice
    obtain ⟨f, hf, hnot⟩ := htwice
    exact hnot (hd f hf)

end AtomVault.Sync
