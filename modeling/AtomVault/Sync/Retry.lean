import AtomVault.Sync.Exchange

/-!
# What is left over when fetches fail

Whether a file is fetched again depends on its time alone, and the first chunk of it that
is recorded already gives the local file the remote's time.
-/

open Lib

namespace AtomVault.Sync

variable {remote : VaultMetadata}

/-- The remote lists `n` in `f`, and the next exchange would ask for it. -/
def Identified (m remote : VaultMetadata) (f : FileIndex) (n : Nonce) : Prop :=
  ⟨n, f.vfsName, f.lastModifiedUnix⟩ ∈ m.missingChunks remote

def Holds (m : VaultMetadata) (f : FileIndex) : Prop := ∀ n ∈ f.nonces, m.hasKey (f.vfsName, n) = true

/-- Every chunk of a file that was newer before is here now, or would be asked for again. -/
def NothingLost (remote m m' : VaultMetadata) : Prop :=
  ∀ f ∈ remote.fileTable, m.isNewer f = true → ∀ n ∈ f.nonces,
    m'.hasKey (f.vfsName, n) = false → Identified m' remote f n

/-- Of each newer file, all chunks were recorded, or none that gives the local file a time
at which the remote's is not newer. -/
def Whole (remote m : VaultMetadata) (new : List Record) : Prop :=
  ∀ f ∈ remote.fileTable, m.isNewer f = true →
    (∀ r ∈ (recordsOf f.vfsName new).getLast?, r.wanted.lastMod < f.lastModifiedUnix) ∨
    ∀ n ∈ f.nonces, m.hasKey (f.vfsName, n) = true ∨ ∃ r ∈ new, r.wanted.key = (f.vfsName, n)

/-! ## One exchange -/

theorem identified_iff {m : VaultMetadata} {f : FileIndex} {n : Nonce} (hf : f ∈ remote.fileTable)
    (hn : n ∈ f.nonces) (hnot : m.hasKey (f.vfsName, n) = false) :
    Identified m remote f n ↔ m.isNewer f = true := by
  unfold Identified
  rw [mem_missingChunks]
  constructor
  · rintro ⟨g, -, hnew, n', -, -, heq⟩
    obtain ⟨-, hname, htime⟩ : n = n' ∧ f.vfsName = g.vfsName ∧
        f.lastModifiedUnix = g.lastModifiedUnix := by simpa using heq
    unfold VaultMetadata.isNewer at hnew ⊢
    rw [hname, htime]
    exact hnew
  · intro hnew
    exact ⟨f, hf, hnew, n, hn, hnot, rfl⟩

theorem isNewer_records {m : VaultMetadata} {new : List Record} {f : FileIndex}
    (hnew : m.isNewer f = true) : (new.foldl VaultMetadata.record m).isNewer f = true ↔
      ∀ r ∈ (recordsOf f.vfsName new).getLast?, r.wanted.lastMod < f.lastModifiedUnix := by
  rcases List.eq_nil_or_concat (recordsOf f.vfsName new) with hnil | ⟨own, r, hown⟩
  · unfold VaultMetadata.isNewer
    rw [find_records_nil hnil, hnil]
    simpa [VaultMetadata.isNewer] using hnew
  · rw [List.concat_eq_append] at hown
    unfold VaultMetadata.isNewer
    rw [find_records_concat hown, hown]
    simp

theorem nothingLost_iff {m : VaultMetadata} {new : List Record} :
    NothingLost remote m (new.foldl VaultMetadata.record m) ↔ Whole remote m new := by
  constructor
  · intro h f hf hnew
    by_cases hall : Holds (new.foldl VaultMetadata.record m) f
    · right
      intro n hn
      exact (hasKey_records _ _ _).mp (hall n hn)
    · left
      unfold Holds at hall
      push Not at hall
      obtain ⟨n, hn, hnot⟩ := hall
      have hnot : (new.foldl VaultMetadata.record m).hasKey (f.vfsName, n) = false := by
        simpa using hnot
      exact (isNewer_records hnew).mp ((identified_iff hf hn hnot).mp (h f hf hnew n hn hnot))
  · intro h f hf hnew n hn hnot
    rw [identified_iff hf hn hnot, isNewer_records hnew]
    rcases h f hf hnew with hlast | hall
    · exact hlast
    · have := (hasKey_records new m (f.vfsName, n)).mpr (hall n hn)
      rw [hnot] at this
      cases this

/-! ## One after the other -/

/-- Any number of exchanges with the same remote metadata, each of them whole. -/
inductive Retries (remote : VaultMetadata) (s : State) : State → Prop
  | refl : Retries remote s s
  | next {s₁ s₂ : State} {side : Side} {as : List Action} {new : List Record}
    (hs : Retries remote s s₁) (hx : Exchanged side remote s₁ as s₂ new)
    (hw : Whole remote s₁.vault.metadata new) : Retries remote s s₂

theorem Retries.quiet {s s' : State} (h : Retries remote s s') (hq : Quiet s) : Quiet s' := by
  cases h with
  | refl => exact hq
  | next _ hx _ => exact hx.quiet

theorem Holds.records {m : VaultMetadata} {f : FileIndex} (h : Holds m f) (new : List Record) :
    Holds (new.foldl VaultMetadata.record m) f :=
  fun n hn => (hasKey_records new m _).mpr (Or.inl (h n hn))

theorem Retries.holds_or_newer {s s' : State} {f : FileIndex} (h : Retries remote s s')
    (hq : Quiet s) (hf : f ∈ remote.fileTable) (hnew : s.vault.metadata.isNewer f = true) :
    Holds s'.vault.metadata f ∨ s'.vault.metadata.isNewer f = true := by
  induction h with
  | refl => exact Or.inr hnew
  | @next s₁ s₂ side as new hs hx hw ih =>
    rw [hx.metadata (hs.quiet hq)]
    rcases ih with hall | hnewer
    · exact Or.inl (hall.records new)
    · rcases hw f hf hnewer with hlast | hall
      · exact Or.inr ((isNewer_records hnewer).mpr hlast)
      · exact Or.inl fun n hn => (hasKey_records new _ _).mpr (hall n hn)

/-- **Lost chunks.** A chunk of a newer file that an exchange did not get is asked for again
exactly when the exchange recorded all of the file or nothing that gives it the remote's
time. After any number of such exchanges, one in which every fetch succeeds gets all. -/
theorem nothing_lost {s : State} (hq : Quiet s) :
    (∀ side as s' new, Exchanged side remote s as s' new →
      (NothingLost remote s.vault.metadata s'.vault.metadata ↔ Whole remote s.vault.metadata new)) ∧
    ∀ s₁, Retries remote s s₁ →
      NothingLost remote s.vault.metadata s₁.vault.metadata ∧
      ∀ side as s₂ new, Exchanged side remote s₁ as s₂ new →
        (∀ w ∈ s₁.vault.metadata.missingChunks remote, ∃ r ∈ new, r.wanted = w) →
        ∀ f ∈ remote.fileTable, s.vault.metadata.isNewer f = true → Holds s₂.vault.metadata f := by
  refine ⟨?_, ?_⟩
  · intro side as s' new hx
    rw [hx.metadata hq]
    exact nothingLost_iff
  · intro s₁ hs
    refine ⟨?_, ?_⟩
    · intro f hf hnew n hn hnot
      rw [identified_iff hf hn hnot]
      rcases hs.holds_or_newer hq hf hnew with hall | hnewer
      · have := hall n hn
        rw [hnot] at this
        cases this
      · exact hnewer
    · intro side as s₂ new hx hgot f hf hnew n hn
      rw [hx.metadata (hs.quiet hq), hasKey_records]
      rcases hs.holds_or_newer hq hf hnew with hall | hnewer
      · exact Or.inl (hall n hn)
      · by_cases hhas : s₁.vault.metadata.hasKey (f.vfsName, n) = true
        · exact Or.inl hhas
        · obtain ⟨r, hr, hw⟩ := hgot ⟨n, f.vfsName, f.lastModifiedUnix⟩
            (mem_missingChunks.mpr ⟨f, hf, hnewer, n, hn, by simpa using hhas, rfl⟩)
          exact Or.inr ⟨r, hr, by rw [hw]; rfl⟩

/-! ## Two runs -/

/-- Two tasks are spawned, and neither gets an answer. -/
def unanswered : List Action :=
  [.spawn 0, .spawn 0, .task 0 (.reply none), .task 1 (.reply none)]

/-- The second exchange gets both. -/
def answered : List Action :=
  [.spawn 1, .spawn 1] ++ fetches 3 (nonceOf 3) [5] ++ fetches 2 (nonceOf 2) [8, 9]

theorem nothing_lost_unanswered : Quiet (State.start sampleLocal [6, 7]) ∧
    ∃ s₁ s₂ new, Retries sampleRemote (State.start sampleLocal [6, 7]) s₁ ∧
      Exchanged .dialer sampleRemote s₁ answered s₂ new ∧ new.length = 2 ∧
      ∀ f ∈ sampleRemote.fileTable, Holds s₂.vault.metadata f := by
  have hq : Quiet (State.start sampleLocal [6, 7]) := by decide
  have hfirst : (run State.step (State.start sampleLocal [6, 7])
      (.exchange .listener sampleRemote :: unanswered)).any (fun s₁ => Quiet s₁ &&
        s₁.vault.log.length = 0 && s₁.vault.metadata = sampleLocal &&
        (run State.step s₁ (.exchange .dialer sampleRemote :: answered)).any fun s₂ => Quiet s₂ &&
          s₂.vault.log.map (·.wanted) = [⟨nonceOf 3, "a", 2⟩, ⟨nonceOf 2, "a", 2⟩]) = true := by
    decide +kernel
  obtain ⟨s₁, hs₁, hend⟩ := (Option.any_eq_true _ _).mp hfirst
  simp only [Bool.and_eq_true, decide_eq_true_eq] at hend
  obtain ⟨⟨⟨hquiet₁, hlog₁⟩, hmeta₁⟩, hnext⟩ := hend
  obtain ⟨s₂, hs₂, hend⟩ := (Option.any_eq_true _ _).mp hnext
  simp only [Bool.and_eq_true, decide_eq_true_eq] at hend
  obtain ⟨hquiet₂, hlog₂⟩ := hend
  have hlog₁ : s₁.vault.log = [] := List.eq_nil_of_length_eq_zero hlog₁
  have hx₁ : Exchanged .listener sampleRemote (State.start sampleLocal [6, 7]) unanswered s₁ [] :=
    ⟨by simp [unanswered, Action.isExchange], hs₁, hquiet₁, hlog₁⟩
  have hx₂ : Exchanged .dialer sampleRemote s₁ answered s₂ s₂.vault.log :=
    ⟨by simp [answered, fetches, Action.isExchange], hs₂, hquiet₂, by simp [hlog₁]⟩
  have hr : Retries sampleRemote (State.start sampleLocal [6, 7]) s₁ :=
    .next .refl hx₁ fun f _ _ => Or.inl (by simp [recordsOf])
  refine ⟨hq, s₁, s₂, s₂.vault.log, hr, hx₂, ?_, ?_⟩
  · have := congrArg List.length hlog₂
    simpa using this
  · have hgot : ∀ w ∈ s₁.vault.metadata.missingChunks sampleRemote,
        w ∈ s₂.vault.log.map (·.wanted) := by
      rw [hlog₂, hmeta₁]
      decide
    intro f hf
    refine ((nothing_lost hq).2 s₁ hr).2 .dialer answered s₂ s₂.vault.log hx₂ ?_ f hf ?_
    · intro w hw
      obtain ⟨r, hr, rfl⟩ := List.mem_map.mp (hgot w hw)
      exact ⟨r, hr, rfl⟩
    · revert f
      decide

/-- One chunk of the file arrives, and the other is never asked for again. -/
def halfAnswered : List Action :=
  [.spawn 0, .spawn 0, .task 1 (.reply none)] ++ fetches 0 (nonceOf 2) [8, 9]

theorem half_answered_loses_chunk : ∃ s' new,
    Exchanged .dialer sampleRemote (State.start sampleLocal [6, 7]) halfAnswered s' new ∧
      ¬ NothingLost sampleRemote sampleLocal s'.vault.metadata := by
  have hrun : (run State.step (State.start sampleLocal [6, 7])
      (.exchange .dialer sampleRemote :: halfAnswered)).any (fun s' => Quiet s' &&
        !s'.vault.metadata.hasKey ("a", nonceOf 3) &&
        s'.vault.metadata.missingChunks sampleRemote = []) = true := by
    decide +kernel
  obtain ⟨s', hs', hend⟩ := (Option.any_eq_true _ _).mp hrun
  simp only [Bool.and_eq_true, decide_eq_true_eq, Bool.not_eq_eq_eq_not, Bool.not_true] at hend
  obtain ⟨⟨hquiet, hnot⟩, hnone⟩ := hend
  have hx : Exchanged .dialer sampleRemote (State.start sampleLocal [6, 7]) halfAnswered s'
      s'.vault.log :=
    ⟨by simp [halfAnswered, fetches, Action.isExchange], hs', hquiet, by simp [State.start]⟩
  refine ⟨s', s'.vault.log, hx, ?_⟩
  intro h
  have := h _ List.mem_cons_self (by decide) (nonceOf 3) (by decide) hnot
  unfold Identified at this
  rw [hnone] at this
  cases this

end AtomVault.Sync
