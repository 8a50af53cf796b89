import AtomVault.Sync.Exchange
import Mathlib.Data.List.Chain

/-!
# What an exchange without failures leaves behind

Every fetch adds its chunk at the end of the local file, in the order the fetches finish.
-/

open Lib

namespace AtomVault.Sync

/-- Every chunk that was asked for was answered by the remote and written down. -/
structure Completed (content : Nonce → Bytes) (side : Side) (remote : VaultMetadata) (s : State)
    (as : List Action) (s' : State) (new : List Record) : Prop extends
    Exchanged side remote s as s' new where
  all : new.length = (s.vault.metadata.missingChunks remote).length
  replies : ∀ r ∈ new, r.replied = r.wanted.nonce ∧ r.ciphertext = content r.wanted.nonce

/-- The local file has become the remote's. -/
def Converged (content : Nonce → Bytes) (s : State) (f : FileIndex) : Prop :=
  ∃ g, s.vault.metadata.find f.vfsName = some g ∧ g.nonces = f.nonces ∧
    g.lastModifiedUnix = f.lastModifiedUnix ∧
    g.chunks.map (fun e => e.extent.read s.vault.file) = f.nonces.map content

/-- The chunks the local file of that name has. -/
def VaultMetadata.chunksOf (m : VaultMetadata) (name : String) : List ChunkEntry :=
  (m.find name).elim [] fun f => f.chunks

/-- The local file is a proper initial part of the remote's, what follows it is one chunk over
and over, and no other file of the remote adds to it. -/
structure Extends (content : Nonce → Bytes) (m₀ : VaultMetadata) (f₀ : Bytes)
    (remote : VaultMetadata) (f : FileIndex) : Prop where
  rest : ∃ n k, f.nonces = (m₀.chunksOf f.vfsName).map (·.nonce) ++ List.replicate (k + 1) n ∧
    n ∉ (m₀.chunksOf f.vfsName).map (·.nonce)
  alone : ∃ l₁ l₂, remote.fileTable = l₁ ++ f :: l₂ ∧ ∀ g ∈ l₁ ++ l₂, g.vfsName = f.vfsName →
    m₀.isNewer g = true → ∀ n ∈ g.nonces, n ∈ (m₀.chunksOf f.vfsName).map (·.nonce)
  held : (m₀.chunksOf f.vfsName).map (fun e => e.extent.read f₀) =
    (m₀.chunksOf f.vfsName).map fun e => content e.nonce

/-! ## Which records a file gets -/

section Records

variable {m : VaultMetadata} {remote : VaultMetadata} {side : Side} {s s' : State}
  {as : List Action} {new : List Record} {content : Nonce → Bytes}

theorem hasKey_iff {name : String} {n : Nonce} :
    m.hasKey (name, n) = true ↔ n ∈ (m.chunksOf name).map (·.nonce) := by
  unfold VaultMetadata.hasKey VaultMetadata.chunkExists VaultMetadata.chunksOf
  cases m.find name <;> simp [FileIndex.hasNonce]

theorem missingOf_nonces (f : FileIndex) : (m.missingOf f).map (·.nonce) =
    if m.isNewer f then f.nonces.filter fun n => n ∉ (m.chunksOf f.vfsName).map (·.nonce) else [] := by
  have hkey : ∀ n, (!m.chunkExists f.vfsName n) =
      decide (n ∉ (m.chunksOf f.vfsName).map (·.nonce)) := by
    intro n
    have := @hasKey_iff m f.vfsName n
    unfold VaultMetadata.hasKey at this
    rw [decide_not, ← Bool.decide_coe (m.chunkExists f.vfsName n)]
    congr 1
    exact decide_eq_decide.mpr this
  unfold VaultMetadata.missingOf FileIndex.nonces
  split
  · rw [List.map_map, List.filter_map]
    simp only [hkey]
    rfl
  · rfl

theorem missingOf_eq_nil_iff {f : FileIndex} : m.missingOf f = [] ↔
    (m.isNewer f = true → ∀ n ∈ f.nonces, n ∈ (m.chunksOf f.vfsName).map (·.nonce)) := by
  rw [← List.map_eq_nil_iff (f := (·.nonce)), missingOf_nonces]
  split
  · rename_i hnew
    rw [List.filter_eq_nil_iff]
    simp [hnew]
  · rename_i hnew
    simp [hnew]

theorem mem_missingOf {f : FileIndex} {w : Missing} (h : w ∈ m.missingOf f) :
    w.vfsName = f.vfsName ∧ w.lastMod = f.lastModifiedUnix := by
  unfold VaultMetadata.missingOf at h
  split at h
  · obtain ⟨c, -, rfl⟩ := List.mem_map.mp h
    exact ⟨rfl, rfl⟩
  · cases h

/-- What an exchange asks for in one name is what it asks for of the remote's files of that
name. -/
theorem missing_of_name (name : String) (fs : List FileIndex) :
    (fs.flatMap m.missingOf).filter (fun w => w.vfsName = name) =
      (fs.filter fun f => f.vfsName = name).flatMap m.missingOf := by
  induction fs with
  | nil => rfl
  | cons f fs ih =>
    rw [List.flatMap_cons, List.filter_append, ih]
    by_cases hf : f.vfsName = name
    · rw [List.filter_cons_of_pos (by simpa using hf), List.flatMap_cons]
      congr 1
      rw [List.filter_eq_self]
      intro w hw
      simpa [(mem_missingOf hw).1] using hf
    · rw [List.filter_cons_of_neg (by simpa using hf)]
      convert List.nil_append _
      rw [List.filter_eq_nil_iff]
      intro w hw
      simpa [(mem_missingOf hw).1] using hf

theorem records_sublist (ts : List Task) (h : ∀ t ∈ ts, ∀ r ∈ t.records, r.wanted = t.wanted) :
    ((ts.flatMap Task.records).map (·.wanted)).Sublist (ts.map (·.wanted)) := by
  induction ts with
  | nil => exact List.Sublist.refl _
  | cons t ts ih =>
    have hrest := ih fun u hu => h u (List.mem_cons_of_mem _ hu)
    rw [List.flatMap_cons, List.map_append, List.map_cons]
    have ht := h t List.mem_cons_self
    unfold Task.records at ht ⊢
    split
    · rename_i r hp
      rw [hp] at ht
      rw [List.map_singleton, ht r List.mem_cons_self]
      exact hrest.cons_cons _
    · exact hrest.cons _

theorem Completed.perm (h : Completed content side remote s as s' new) (hq : Quiet s) :
    (new.map (·.wanted)).Perm (s.vault.metadata.missingChunks remote) := by
  obtain ⟨ts, hsince⟩ := h.since hq
  have hwanted := hsince.wanted
  rw [List.append_nil] at hwanted
  have hsub : (new.map (·.wanted)).Subperm (s.vault.metadata.missingChunks remote) := by
    rw [← hwanted]
    exact (hsince.records.map _).subperm.trans (records_sublist ts hsince.own).subperm
  exact hsub.perm_of_length_le (by rw [List.length_map, h.all])

theorem recordsOf_wanted (name : String) (log : List Record) :
    (recordsOf name log).map (·.wanted) = (log.map (·.wanted)).filter fun w => w.vfsName = name := by
  unfold recordsOf
  rw [List.filter_map]
  rfl

end Records

/-! ## When the order does not matter -/

section Extending

variable {m₀ : VaultMetadata} {f₀ : Bytes} {remote : VaultMetadata} {side : Side} {s' : State}
  {as : List Action} {new : List Record} {content : Nonce → Bytes} {f : FileIndex}

theorem quiet_start (m₀ : VaultMetadata) (f₀ : Bytes) : Quiet (State.start m₀ f₀) :=
  ⟨by simp [State.start], by simp [State.start]⟩

theorem missing_of_alone {l₁ l₂ : List FileIndex} (hl : remote.fileTable = l₁ ++ f :: l₂)
    (h : ∀ g ∈ l₁ ++ l₂, g.vfsName = f.vfsName → m₀.missingOf g = []) :
    (m₀.missingChunks remote).filter (fun w => w.vfsName = f.vfsName) = m₀.missingOf f := by
  have hnil : ∀ l : List FileIndex, (∀ g ∈ l, g ∈ l₁ ++ l₂) →
      (l.filter fun g => g.vfsName = f.vfsName).flatMap m₀.missingOf = [] := by
    intro l hsub
    rw [List.flatMap_eq_nil_iff]
    intro g hg
    obtain ⟨hg, hname⟩ := List.mem_filter.mp hg
    exact h g (hsub g hg) (by simpa using hname)
  unfold VaultMetadata.missingChunks
  rw [missing_of_name, hl, List.filter_append, List.flatMap_append,
    hnil l₁ fun g hg => List.mem_append_left _ hg, List.filter_cons_of_pos (by simp),
    List.flatMap_cons, hnil l₂ fun g hg => List.mem_append_right _ hg, List.append_nil,
    List.nil_append]

theorem read_old (hm : m₀.Inside f₀) (h : run State.step (State.start m₀ f₀) as = some s')
    (name : String) : (m₀.chunksOf name).map (fun e => e.extent.read s'.vault.file) =
      (m₀.chunksOf name).map fun e => e.extent.read f₀ := by
  refine List.map_congr_left fun e he => read_of_initial (run_grows h) (hm e ?_)
  unfold VaultMetadata.chunksOf at he
  cases hfind : m₀.find name with
  | none => simp [hfind] at he
  | some g =>
    rw [hfind] at he
    exact List.mem_flatMap.mpr ⟨g, List.mem_of_find?_eq_some hfind, he⟩

theorem read_new (hm : m₀.Inside f₀)
    (h : Completed content side remote (State.start m₀ f₀) as s' new) {own : List Record}
    (hown : ∀ r ∈ own, r ∈ new) :
    (own.map Record.entry).map (fun e => e.extent.read s'.vault.file) =
      (own.map (·.wanted.nonce)).map content := by
  rw [List.map_map, List.map_map]
  refine List.map_congr_left fun r hr => ?_
  have hlog : r ∈ s'.vault.log := by
    rw [h.log]
    exact List.mem_append_right _ (hown r hr)
  have hread := ((Appended.of_run hm h.run).holds r hlog).2
  exact hread.trans (h.replies r (hown r hr)).2

theorem missing_of_extends {l₁ l₂ : List FileIndex} {n : Nonce} {k : Nat}
    (hnew : m₀.isNewer f = true)
    (hnonces : f.nonces = (m₀.chunksOf f.vfsName).map (·.nonce) ++ List.replicate (k + 1) n)
    (hn : n ∉ (m₀.chunksOf f.vfsName).map (·.nonce)) (hl : remote.fileTable = l₁ ++ f :: l₂)
    (halone : ∀ g ∈ l₁ ++ l₂, g.vfsName = f.vfsName → m₀.isNewer g = true →
      ∀ n ∈ g.nonces, n ∈ (m₀.chunksOf f.vfsName).map (·.nonce)) :
    (m₀.missingChunks remote).filter (fun w => w.vfsName = f.vfsName) =
      List.replicate (k + 1) ⟨n, f.vfsName, f.lastModifiedUnix⟩ := by
  rw [missing_of_alone hl fun g hg hname => missingOf_eq_nil_iff.mpr fun hg' n hn => by
    rw [hname]
    exact halone g hg hname hg' n hn]
  have hrest : (m₀.missingOf f).map (·.nonce) = List.replicate (k + 1) n := by
    rw [missingOf_nonces, if_pos hnew, hnonces, List.filter_append, List.filter_eq_nil_iff.mpr (by
      intro x hx
      simpa using hx), List.nil_append, List.filter_eq_self.mpr (by
      intro x hx
      rw [List.eq_of_mem_replicate hx]
      simpa using hn)]
  rw [List.eq_replicate_iff]
  refine ⟨by simpa using congrArg List.length hrest, ?_⟩
  intro w hw
  obtain ⟨hname, htime⟩ := mem_missingOf hw
  have hnonce : w.nonce = n := by
    have : w.nonce ∈ (m₀.missingOf f).map (·.nonce) := List.mem_map_of_mem hw
    rw [hrest] at this
    exact List.eq_of_mem_replicate this
  rw [← hname, ← htime, ← hnonce]

theorem Extends.converged (he : Extends content m₀ f₀ remote f) (hm : m₀.Inside f₀)
    (hnew : m₀.isNewer f = true)
    (h : Completed content side remote (State.start m₀ f₀) as s' new) : Converged content s' f := by
  obtain ⟨n, k, hnonces, hn⟩ := he.rest
  obtain ⟨l₁, l₂, hl, halone⟩ := he.alone
  have hq := quiet_start m₀ f₀
  have hrecs : (recordsOf f.vfsName new).map (·.wanted) =
      List.replicate (k + 1) ⟨n, f.vfsName, f.lastModifiedUnix⟩ := by
    rw [← List.perm_replicate, ← missing_of_extends hnew hnonces hn hl halone, recordsOf_wanted]
    exact (h.perm hq).filter _
  rcases List.eq_nil_or_concat (recordsOf f.vfsName new) with hnil | ⟨own, r, hown⟩
  · rw [hnil] at hrecs
    cases hrecs
  rw [List.concat_eq_append] at hown
  have hr : r.wanted = ⟨n, f.vfsName, f.lastModifiedUnix⟩ := by
    have hr : r.wanted ∈ (recordsOf f.vfsName new).map (·.wanted) := by simp [hown]
    rw [hrecs] at hr
    exact List.eq_of_mem_replicate hr
  have hwanted : (own ++ [r]).map (·.wanted.nonce) = List.replicate (k + 1) n := by
    have := congrArg (List.map Missing.nonce) hrecs
    rw [hown, List.map_map, List.map_replicate] at this
    exact this
  have hmem : ∀ x ∈ own ++ [r], x ∈ new := by
    intro x hx
    rw [← hown] at hx
    exact (List.mem_filter.mp hx).1
  have hfind := find_records_concat (m := m₀) hown
  refine ⟨_, by rw [h.metadata hq]; exact hfind, ?_, ?_, ?_⟩
  · show ((m₀.chunksOf f.vfsName) ++ (own ++ [r]).map Record.entry).map (·.nonce) = f.nonces
    rw [List.map_append, List.map_map, hnonces, ← hwanted]
    rfl
  · show r.wanted.lastMod = f.lastModifiedUnix
    rw [hr]
  · show ((m₀.chunksOf f.vfsName) ++ (own ++ [r]).map Record.entry).map _ = f.nonces.map content
    rw [List.map_append, read_old hm h.run, he.held, read_new hm h hmem, hnonces, hwanted,
      List.map_append, List.map_map]
    rfl

end Extending

/-! ## Every order of two neighbours can happen -/

section Orders

variable {content : Nonce → Bytes} {side : Side} {queue : List Missing} {s s' s'' : State}

/-- One exchange, with nothing under way. -/
structure Ready (side : Side) (queue : List Missing) (s : State) : Prop where
  exchanges : s.exchanges = [⟨side, queue⟩]
  tasks : ∀ t ∈ s.tasks, t.phase.live = false
  free : s.vault.writeLock = none

/-- The record of a chunk the remote answered, at the end of a file of that length. -/
def recordAt (content : Nonce → Bytes) (offset : Nat) (w : Missing) : Record :=
  ⟨w, w.nonce, content w.nonce, offset⟩

theorem run_fetches (content : Nonce → Bytes) {k : Nat} {t : Task} (ht : s.tasks[k]? = some t)
    (hp : t.phase = .fetching) (hfree : s.vault.writeLock = none) :
    run State.step s (fetches k t.wanted.nonce (content t.wanted.nonce)) = some { s with
      vault := ⟨s.vault.metadata.record (recordAt content s.vault.file.length t.wanted),
        s.vault.file ++ content t.wanted.nonce, none,
        s.vault.log ++ [recordAt content s.vault.file.length t.wanted]⟩
      tasks := s.tasks.set k
        { t with phase := .ended (some (recordAt content s.vault.file.length t.wanted)) } } := by
  have hk := (List.getElem?_eq_some_iff.mp ht).1
  have haccept : t.accept (some (.chunkTransfer t.wanted.nonce (content t.wanted.nonce))) =
      .locking ⟨t.wanted.nonce, content t.wanted.nonce⟩ := by
    unfold Task.accept
    cases t.side <;> simp
  have hall : slice (content t.wanted.nonce) 0 (content t.wanted.nonce).length =
      content t.wanted.nonce := slice_self _
  simp only [fetches, List.map_cons, List.map_nil, run, State.step, Task.step, ht, hp, haccept, hk,
    hfree, hall, bind, Option.bind, pure, List.getElem?_set_self, List.set_set,
    if_true, Nat.zero_add, le_refl]
  rfl

theorem Ready.running (h : Ready side queue s) (x : Nat) : s.running x = 0 := by
  unfold State.running
  rw [List.countP_eq_zero]
  intro t ht
  simp [h.tasks t ht]

theorem Ready.spawn {w : Missing} (h : Ready side (w :: queue) s) :
    s.step (.spawn 0) = some { s with
      exchanges := [⟨side, queue⟩]
      tasks := s.tasks ++ [⟨0, side, w, .fetching⟩] } := by
  simp [State.step, h.exchanges, h.running, PERMITS]

/-- From `s` to `s'` the chunks `ws` are fetched, in that order. -/
def Leads (content : Nonce → Bytes) (s : State) (ws : List Missing) (s' : State) : Prop :=
  ∃ as new, (∀ a ∈ as, a.isExchange = false) ∧ run State.step s as = some s' ∧
    s'.vault.log = s.vault.log ++ new ∧ new.map (·.wanted) = ws ∧
    ∀ r ∈ new, r.replied = r.wanted.nonce ∧ r.ciphertext = content r.wanted.nonce

theorem Leads.refl (s : State) : Leads content s [] s := ⟨[], [], by simp, rfl, by simp, rfl, by simp⟩

theorem Leads.trans {ws ws' : List Missing} (h : Leads content s ws s') (h' : Leads content s' ws' s'') :
    Leads content s (ws ++ ws') s'' := by
  obtain ⟨as, new, honly, hrun, hlog, hws, hnew⟩ := h
  obtain ⟨as', new', honly', hrun', hlog', hws', hnew'⟩ := h'
  refine ⟨as ++ as', new ++ new', ?_, run_append_eq_some.mpr ⟨s', hrun, hrun'⟩, ?_, ?_, ?_⟩
  · intro a ha
    rcases List.mem_append.mp ha with ha | ha
    · exact honly a ha
    · exact honly' a ha
  · rw [hlog', hlog, List.append_assoc]
  · rw [List.map_append, hws, hws']
  · intro r hr
    rcases List.mem_append.mp hr with hr | hr
    · exact hnew r hr
    · exact hnew' r hr

theorem not_exchange_fetches {k : Nat} {n : Nonce} {c : Bytes} :
    ∀ a ∈ fetches k n c, a.isExchange = false := by
  simp [fetches, Action.isExchange]

theorem Ready.next (content : Nonce → Bytes) {w : Missing} (h : Ready side (w :: queue) s) :
    ∃ s', Leads content s [w] s' ∧ Ready side queue s' := by
  have hrun := run_fetches content
    (s := { s with exchanges := [⟨side, queue⟩], tasks := s.tasks ++ [⟨0, side, w, .fetching⟩] })
    (k := s.tasks.length) (t := ⟨0, side, w, .fetching⟩) (by simp) rfl h.free
  refine ⟨_, ⟨.spawn 0 :: fetches s.tasks.length w.nonce (content w.nonce),
    [recordAt content s.vault.file.length w], ?_, run_cons_eq_some.mpr ⟨_, h.spawn, hrun⟩, rfl, rfl, ?_⟩,
    rfl, ?_, rfl⟩
  · intro a ha
    rcases List.mem_cons.mp ha with rfl | ha
    · rfl
    · exact not_exchange_fetches a ha
  · intro r hr
    rw [List.mem_singleton.mp hr]
    exact ⟨rfl, rfl⟩
  · intro t ht
    simp only [List.set_append_right _ _ (le_refl _), Nat.sub_self, List.set_cons_zero,
      List.mem_append, List.mem_singleton] at ht
    rcases ht with ht | rfl
    · exact h.tasks t ht
    · rfl

theorem Ready.swapped (content : Nonce → Bytes) {w₁ w₂ : Missing}
    (h : Ready side (w₁ :: w₂ :: queue) s) :
    ∃ s', Leads content s [w₂, w₁] s' ∧ Ready side queue s' := by
  set t₁ : Task := ⟨0, side, w₁, .fetching⟩ with ht₁
  set t₂ : Task := ⟨0, side, w₂, .fetching⟩ with ht₂
  set s₁ : State := { s with exchanges := [⟨side, w₂ :: queue⟩], tasks := s.tasks ++ [t₁] } with hs₁
  set s₂ : State := { s with exchanges := [⟨side, queue⟩], tasks := s.tasks ++ [t₁, t₂] } with hs₂
  have hrunning : s₁.running 0 = 1 := by
    have hrest := h.running 0
    unfold State.running at hrest ⊢
    show (s.tasks ++ [t₁]).countP _ = 1
    rw [List.countP_append, hrest]
    rfl
  have hspawn₂ : s₁.step (.spawn 0) = some s₂ := by
    have hhead : s₁.exchanges[0]? = some ⟨side, w₂ :: queue⟩ := rfl
    simp only [State.step, hhead]
    rw [if_pos (by rw [hrunning]; decide)]
    simp [hs₁, hs₂, ht₂]
  have hfetch₂ := run_fetches content (s := s₂) (k := s.tasks.length + 1) (t := t₂)
    (by simp [hs₂]) rfl h.free
  set r₂ := recordAt content s₂.vault.file.length t₂.wanted with hr₂
  set s₃ : State := { s₂ with
    vault := ⟨s₂.vault.metadata.record r₂, s₂.vault.file ++ content t₂.wanted.nonce, none,
      s₂.vault.log ++ [r₂]⟩
    tasks := s₂.tasks.set (s.tasks.length + 1) { t₂ with phase := .ended (some r₂) } } with hs₃
  have hfetch₁ := run_fetches content (s := s₃) (k := s.tasks.length) (t := t₁)
    (by simp [hs₃, hs₂]) rfl rfl
  set r₁ := recordAt content s₃.vault.file.length t₁.wanted with hr₁
  refine ⟨_, ⟨.spawn 0 :: .spawn 0 :: (fetches (s.tasks.length + 1) w₂.nonce (content w₂.nonce) ++
    fetches s.tasks.length w₁.nonce (content w₁.nonce)), [r₂, r₁], ?_,
    run_cons_eq_some.mpr ⟨s₁, h.spawn, run_cons_eq_some.mpr ⟨s₂, hspawn₂,
      run_append_eq_some.mpr ⟨s₃, hfetch₂, hfetch₁⟩⟩⟩, ?_, rfl, ?_⟩, rfl, ?_, rfl⟩
  · intro a ha
    simp only [List.mem_cons, List.mem_append] at ha
    rcases ha with rfl | rfl | ha | ha
    · rfl
    · rfl
    · exact not_exchange_fetches a ha
    · exact not_exchange_fetches a ha
  · simp [hs₃, hs₂]
  · intro r hr
    simp only [List.mem_cons, List.not_mem_nil, or_false] at hr
    rcases hr with rfl | rfl
    · exact ⟨rfl, rfl⟩
    · exact ⟨rfl, rfl⟩
  · intro t ht
    simp [hs₃, hs₂] at ht
    rcases ht with ht | rfl | rfl
    · exact h.tasks t ht
    · rfl
    · rfl

theorem Ready.inOrder (content : Nonce → Bytes) {ws : List Missing} (h : Ready side (ws ++ queue) s) :
    ∃ s', Leads content s ws s' ∧ Ready side queue s' := by
  induction ws generalizing s with
  | nil => exact ⟨s, Leads.refl s, h⟩
  | cons w ws ih =>
    obtain ⟨s₁, hleads, hready⟩ := Ready.next content h
    obtain ⟨s₂, hleads', hready'⟩ := ih hready
    exact ⟨s₂, hleads.trans hleads', hready'⟩

theorem Ready.quiet (h : Ready side [] s) : Quiet s := by
  refine ⟨?_, h.tasks⟩
  intro x hx
  rw [h.exchanges, List.mem_singleton] at hx
  rw [hx]

variable {m₀ : VaultMetadata} {f₀ : Bytes} {remote : VaultMetadata}

/-- The state when the remote's metadata has just arrived. -/
def asking (side : Side) (m₀ : VaultMetadata) (f₀ : Bytes) (remote : VaultMetadata) : State :=
  { State.start m₀ f₀ with exchanges := [⟨side, m₀.missingChunks remote⟩] }

theorem ready_asking (side : Side) (m₀ : VaultMetadata) (f₀ : Bytes) (remote : VaultMetadata) :
    Ready side (m₀.missingChunks remote) (asking side m₀ f₀ remote) :=
  ⟨rfl, by simp [asking, State.start], rfl⟩

theorem Leads.completed {ws : List Missing} (h : Leads content (asking side m₀ f₀ remote) ws s)
    (hr : Ready side [] s) (hlen : ws.length = (m₀.missingChunks remote).length) :
    ∃ as new, Completed content side remote (State.start m₀ f₀) as s new ∧ new.map (·.wanted) = ws := by
  obtain ⟨as, new, honly, hrun, hlog, hws, hnew⟩ := h
  refine ⟨as, new, ⟨⟨honly, run_cons_eq_some.mpr ⟨_, rfl, hrun⟩, hr.quiet, hlog⟩, ?_, hnew⟩, hws⟩
  show new.length = (m₀.missingChunks remote).length
  rw [← hlen, ← hws, List.length_map]

theorem exists_inOrder (content : Nonce → Bytes) (side : Side) (m₀ : VaultMetadata) (f₀ : Bytes)
    (remote : VaultMetadata) : ∃ as s' new,
      Completed content side remote (State.start m₀ f₀) as s' new ∧
      new.map (·.wanted) = m₀.missingChunks remote := by
  have hready := ready_asking side m₀ f₀ remote
  rw [← List.append_nil (m₀.missingChunks remote)] at hready
  obtain ⟨s', hleads, hready'⟩ := Ready.inOrder content hready
  obtain ⟨as, new, hcomp, hws⟩ := hleads.completed hready' rfl
  exact ⟨as, s', new, hcomp, hws⟩

theorem exists_swapped (content : Nonce → Bytes) (side : Side) (f₀ : Bytes)
    {ws₁ ws₂ : List Missing} {w₁ w₂ : Missing}
    (h : m₀.missingChunks remote = ws₁ ++ w₁ :: w₂ :: ws₂) : ∃ as s' new,
      Completed content side remote (State.start m₀ f₀) as s' new ∧
      new.map (·.wanted) = ws₁ ++ w₂ :: w₁ :: ws₂ := by
  have hready := ready_asking side m₀ f₀ remote
  rw [h] at hready
  obtain ⟨s₁, hleads₁, hready₁⟩ := Ready.inOrder content hready
  obtain ⟨s₂, hleads₂, hready₂⟩ := Ready.swapped content hready₁
  rw [← List.append_nil ws₂] at hready₂
  obtain ⟨s₃, hleads₃, hready₃⟩ := Ready.inOrder content hready₂
  obtain ⟨as, new, hcomp, hws⟩ := (hleads₁.trans (hleads₂.trans hleads₃)).completed hready₃
    (by simp [h])
  exact ⟨as, s₃, new, hcomp, by simpa using hws⟩

end Orders

/-! ## When it does -/

section Needed

variable {m₀ : VaultMetadata} {f₀ : Bytes} {remote : VaultMetadata} {side : Side} {s' : State}
  {as : List Action} {new : List Record} {content : Nonce → Bytes} {f : FileIndex}

theorem Converged.gained (hc : Converged content s' f) (hm : m₀.Inside f₀)
    (hnew : m₀.isNewer f = true)
    (h : Completed content side remote (State.start m₀ f₀) as s' new) :
    recordsOf f.vfsName new ≠ [] ∧
    f.nonces = (m₀.chunksOf f.vfsName).map (·.nonce) ++
      (recordsOf f.vfsName new).map (·.wanted.nonce) ∧
    (m₀.chunksOf f.vfsName).map (fun e => e.extent.read f₀) =
      (m₀.chunksOf f.vfsName).map fun e => content e.nonce := by
  obtain ⟨g, hfind, hnonces, htime, hread⟩ := hc
  rw [h.metadata (quiet_start m₀ f₀)] at hfind
  rcases List.eq_nil_or_concat (recordsOf f.vfsName new) with hnil | ⟨own, r, hown⟩
  · -- A file that gained nothing has its old time.
    exfalso
    rw [find_records_nil hnil] at hfind
    unfold VaultMetadata.isNewer at hnew
    have hfind : m₀.find f.vfsName = some g := hfind
    rw [hfind, Option.all_some, htime] at hnew
    simp at hnew
  · rw [List.concat_eq_append] at hown
    rw [find_records_concat hown] at hfind
    have hg : g.chunks = m₀.chunksOf f.vfsName ++ (own ++ [r]).map Record.entry := by
      cases hfind
      rfl
    have hall : f.nonces = (m₀.chunksOf f.vfsName).map (·.nonce) ++
        (own ++ [r]).map (·.wanted.nonce) := by
      rw [← hnonces, FileIndex.nonces, hg, List.map_append, List.map_map]
      rfl
    refine ⟨by simp [hown], by rw [hown]; exact hall, ?_⟩
    have hboth : (m₀.chunksOf f.vfsName).map (fun e => e.extent.read s'.vault.file) ++
        ((own ++ [r]).map Record.entry).map (fun e => e.extent.read s'.vault.file) =
        ((m₀.chunksOf f.vfsName).map (·.nonce)).map content ++
          ((own ++ [r]).map (·.wanted.nonce)).map content := by
      rw [← List.map_append, ← List.map_append, ← hg, ← hall]
      exact hread
    have hold := List.append_inj_left hboth (by simp)
    rw [read_old hm h.run, List.map_map] at hold
    exact hold

theorem recordsOf_nonces (name : String) (log : List Record) :
    (recordsOf name log).map (·.wanted.nonce) =
      ((log.map (·.wanted)).filter fun w => w.vfsName = name).map (·.nonce) := by
  rw [← recordsOf_wanted, List.map_map]
  rfl

/-- If the fetches of one name together make the remote's file, they are all fetches of it. -/
theorem missing_alone {l₁ l₂ : List FileIndex} (hl : remote.fileTable = l₁ ++ f :: l₂)
    (hnew : m₀.isNewer f = true)
    (hall : f.nonces = (m₀.chunksOf f.vfsName).map (·.nonce) ++
      ((m₀.missingChunks remote).filter fun w => w.vfsName = f.vfsName).map (·.nonce)) :
    (∀ g ∈ l₁ ++ l₂, g.vfsName = f.vfsName → m₀.missingOf g = []) ∧
    (m₀.missingOf f).map (·.nonce) =
      ((m₀.missingChunks remote).filter fun w => w.vfsName = f.vfsName).map (·.nonce) := by
  -- What is asked for is not there yet, so `f` itself asks for all of it.
  have hown : (m₀.missingOf f).map (·.nonce) =
      ((m₀.missingChunks remote).filter fun w => w.vfsName = f.vfsName).map (·.nonce) := by
    rw [missingOf_nonces, if_pos hnew]
    nth_rewrite 1 [hall]
    rw [List.filter_append, List.filter_eq_nil_iff.mpr (by
      intro x hx
      simpa using hx), List.nil_append, List.filter_eq_self]
    intro x hx
    obtain ⟨w, hw, rfl⟩ := List.mem_map.mp hx
    obtain ⟨hw, hname⟩ := List.mem_filter.mp hw
    obtain ⟨g, -, -, n, -, hnot, rfl⟩ := mem_missingChunks.mp hw
    have hname : g.vfsName = f.vfsName := by simpa using hname
    rw [hname] at hnot
    have := mt hasKey_iff.mpr (by rw [hnot]; exact Bool.false_ne_true)
    simpa using this
  refine ⟨?_, hown⟩
  have hsplit := missing_of_name (m := m₀) f.vfsName remote.fileTable
  have hlen := congrArg List.length hown
  unfold VaultMetadata.missingChunks at hlen
  rw [hsplit, hl, List.filter_append, List.filter_cons_of_pos (by simp)] at hlen
  simp only [List.length_map, List.flatMap_append, List.flatMap_cons, List.length_append] at hlen
  intro g hg hname
  have hg' : g ∈ l₁.filter (fun g => g.vfsName = f.vfsName) ∨
      g ∈ l₂.filter (fun g => g.vfsName = f.vfsName) := by
    rcases List.mem_append.mp hg with hg | hg
    · exact Or.inl (List.mem_filter.mpr ⟨hg, by simpa using hname⟩)
    · exact Or.inr (List.mem_filter.mpr ⟨hg, by simpa using hname⟩)
  rcases hg' with hg' | hg'
  · exact List.flatMap_eq_nil_iff.mp (List.eq_nil_of_length_eq_zero (by omega)) g hg'
  · exact List.flatMap_eq_nil_iff.mp (List.eq_nil_of_length_eq_zero (by omega)) g hg'

theorem Extends.of_converged (hm : m₀.Inside f₀) (hf : f ∈ remote.fileTable)
    (hnew : m₀.isNewer f = true)
    (h : ∀ as s' new, Completed content side remote (State.start m₀ f₀) as s' new →
      Converged content s' f) : Extends content m₀ f₀ remote f := by
  obtain ⟨l₁, l₂, hl⟩ := List.append_of_mem hf
  obtain ⟨as, s', new, hcomp, hws⟩ := exists_inOrder content side m₀ f₀ remote
  obtain ⟨hne, hall, hheld⟩ := (h as s' new hcomp).gained hm hnew hcomp
  rw [recordsOf_nonces, hws] at hall
  obtain ⟨halone, hown⟩ := missing_alone hl hnew hall
  -- Two neighbours that differ could have come the other way round.
  have hchain : ((m₀.missingOf f).map (·.nonce)).IsChain (· = ·) := by
    rw [List.isChain_iff_forall_rel_of_append_cons_cons]
    intro n₁ n₂ p q hpq
    obtain ⟨p', t, hsplit, rfl, ht⟩ := List.map_eq_append_iff.mp hpq
    obtain ⟨w₁, t', rfl, rfl, ht'⟩ := List.map_eq_cons_iff.mp ht
    obtain ⟨w₂, q', rfl, rfl, rfl⟩ := List.map_eq_cons_iff.mp ht'
    have hmissing : m₀.missingChunks remote =
        (l₁.flatMap m₀.missingOf ++ p') ++ w₁ :: w₂ :: (q' ++ l₂.flatMap m₀.missingOf) := by
      unfold VaultMetadata.missingChunks
      rw [hl, List.flatMap_append, List.flatMap_cons, hsplit]
      simp
    obtain ⟨as', s'', new', hcomp', hws'⟩ := exists_swapped content side f₀ hmissing
    obtain ⟨-, hall', -⟩ := (h as' s'' new' hcomp').gained hm hnew hcomp'
    rw [recordsOf_nonces, hws'] at hall'
    rw [hmissing] at hall
    have hname : ∀ w ∈ [w₁, w₂], w.vfsName = f.vfsName := by
      intro w hw
      refine (mem_missingOf (m := m₀) (f := f) ?_).1
      rw [hsplit]
      simp only [List.mem_cons, List.not_mem_nil, or_false] at hw
      simp only [List.mem_append, List.mem_cons]
      tauto
    have hsame := List.append_cancel_left (hall.symm.trans hall')
    simp only [List.filter_append, List.filter_cons, hname w₁ (by simp), hname w₂ (by simp),
      decide_true, if_true, List.map_append, List.map_cons] at hsame
    have := List.append_inj_right' hsame (by simp)
    exact (List.cons.inj this).1
  refine ⟨?_, ⟨l₁, l₂, hl, ?_⟩, hheld⟩
  · cases hcase : (m₀.missingOf f).map (·.nonce) with
    | nil =>
      rw [hown] at hcase
      refine absurd ?_ hne
      rw [← List.map_eq_nil_iff (f := (·.wanted.nonce)), recordsOf_nonces, hws]
      exact hcase
    | cons n rest =>
      rw [hcase, List.isChain_cons_eq_iff_eq_replicate] at hchain
      refine ⟨n, rest.length, ?_, ?_⟩
      · rw [hall, ← hown, hcase, List.replicate_succ, ← hchain]
      · have hn : n ∈ (m₀.missingOf f).map (·.nonce) := by simp [hcase]
        rw [missingOf_nonces, if_pos hnew] at hn
        simpa using (List.mem_filter.mp hn).2
  · intro g hg hname hgnew
    have := missingOf_eq_nil_iff.mp (halone g hg hname) hgnew
    rwa [hname] at this

/-- **Convergence.** Whatever order the fetches of one exchange finish in, the local file
becomes the remote's, exactly when it only lacks the remote's last chunk. -/
theorem converges_iff (hm : m₀.Inside f₀) (hf : f ∈ remote.fileTable) (hnew : m₀.isNewer f = true) :
    (∀ as s' new, Completed content side remote (State.start m₀ f₀) as s' new →
      Converged content s' f) ↔ Extends content m₀ f₀ remote f := by
  constructor
  · intro h
    exact Extends.of_converged hm hf hnew h
  · intro he as s' new h
    exact he.converged hm hnew h

end Needed

/-! ## Two remotes -/

/-- What the remote has under each nonce. -/
def sampleContent (n : Nonce) : Bytes :=
  if n = nonceOf 1 then [6, 7] else if n = nonceOf 2 then [8, 9] else [5]

/-- One chunk more than the local file. -/
def oneMore : FileIndex := ⟨"a", 2, [⟨2, 0, nonceOf 1⟩, ⟨2, 2, nonceOf 2⟩]⟩

theorem converges_one_more : sampleLocal.Inside [6, 7] ∧ sampleLocal.isNewer oneMore = true ∧
    ∀ as s' new, Completed sampleContent .listener (sampleMetadata [oneMore])
      (State.start sampleLocal [6, 7]) as s' new → Converged sampleContent s' oneMore := by
  have hin : sampleLocal.Inside [6, 7] := by
    intro e he
    revert e
    decide
  have hext : Extends sampleContent sampleLocal [6, 7] (sampleMetadata [oneMore]) oneMore :=
    ⟨⟨nonceOf 2, 0, by decide, by decide⟩, ⟨[], [], rfl, by simp⟩, by decide⟩
  exact ⟨hin, by decide, (converges_iff hin List.mem_cons_self (by decide)).mpr hext⟩

/-- The second of two chunks arrives first. -/
def secondFirst : List Action :=
  [.spawn 0, .spawn 0] ++ fetches 1 (nonceOf 3) [5] ++ fetches 0 (nonceOf 2) [8, 9]

theorem second_first_scrambles : ∃ s' new, ∃ f ∈ sampleRemote.fileTable,
    Completed sampleContent .dialer sampleRemote (State.start sampleLocal [6, 7]) secondFirst s' new ∧
      sampleLocal.isNewer f = true ∧ ¬ Converged sampleContent s' f := by
  have hrun : (run State.step (State.start sampleLocal [6, 7])
      (.exchange .dialer sampleRemote :: secondFirst)).any (fun s' => Quiet s' &&
        s'.vault.log.map (fun r => (r.replied, r.ciphertext, r.wanted)) =
          [(nonceOf 3, [5], ⟨nonceOf 3, "a", 2⟩), (nonceOf 2, [8, 9], ⟨nonceOf 2, "a", 2⟩)] &&
        (s'.vault.metadata.find "a").map (·.nonces) = some [nonceOf 1, nonceOf 3, nonceOf 2]) =
          true := by
    decide +kernel
  obtain ⟨s', hs', hend⟩ := (Option.any_eq_true _ _).mp hrun
  simp only [Bool.and_eq_true, decide_eq_true_eq] at hend
  obtain ⟨⟨hquiet, hlog⟩, hnonces⟩ := hend
  refine ⟨s', s'.vault.log, _, List.mem_cons_self, ⟨⟨?_, hs', hquiet, by simp [State.start]⟩, ?_, ?_⟩,
    by decide, ?_⟩
  · simp [secondFirst, fetches, Action.isExchange]
  · have := congrArg List.length hlog
    simp only [List.length_map] at this
    exact this.trans (by decide)
  · intro r hr
    have hmem : (r.replied, r.ciphertext, r.wanted) ∈
        s'.vault.log.map (fun r => (r.replied, r.ciphertext, r.wanted)) := List.mem_map_of_mem hr
    rw [hlog] at hmem
    revert hmem
    generalize r.replied = n, r.ciphertext = c, r.wanted = w
    intro hmem
    simp only [List.mem_cons, List.not_mem_nil, or_false, Prod.mk.injEq] at hmem
    rcases hmem with ⟨rfl, rfl, rfl⟩ | ⟨rfl, rfl, rfl⟩
    · exact ⟨rfl, by decide⟩
    · exact ⟨rfl, by decide⟩
  · rintro ⟨g, hfind, hg, -, -⟩
    have hfind : s'.vault.metadata.find "a" = some g := hfind
    rw [hfind, Option.map_some, hg] at hnonces
    exact absurd hnonces (by decide)

end AtomVault.Sync
