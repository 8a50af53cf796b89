import AtomVault.Transfer.Safety

/-!
# A disk that does not keep what it is given

A `DATA` write is reported `Ok` before its bytes are on the disk, and `finishPayload` hashes
the bytes it handed to the writes, not the bytes it could read back. What is renamed is
verified where the two agree.
-/

open Lib

namespace AtomVault.Transfer

/-! ## Runs with lost writes -/

/-- `recv`, with what the writes should have left in the partial: the prefix it had when the
loop started, and what was handed to its writes since. -/
structure Stored where
  receiver : Receiver
  handed : Bytes

/-- What a frame hands to `write_all`. -/
def handedBy (ev : Event) : Option Bytes :=
  match ev.delivery with
  | .error _ => none
  | .ok raw =>
    match parse raw with
    | .ok (tag, content) => if tag = Tag.DATA then some content else none
    | .error _ => none

/-- What the disk made of a write: all of it, or a partial of its own. -/
def tear (fd : Nat) (torn : Option File) (h : Host) : Host :=
  match torn with
  | none => h
  | some f => h.setFile (h.ino fd) f

/-- What becomes of a step that took `recv` to `r`. -/
def Stored.settle (s : Stored) (a : Event × Option File) (r : Receiver) : Stored :=
  match s.receiver.phase, r.phase, handedBy a.1 with
  | .awaitStart _, .receiving st, _ => ⟨r, r.host.data st.fd⟩
  | .receiving _, .receiving st, some content =>
    ⟨⟨tear st.fd a.2 r.host, r.phase⟩, s.handed ++ content⟩
  | _, _, _ => ⟨r, s.handed⟩

/-- One step of `recv`. The second part of the action is what the disk makes of the step's
write, if it has one that is reported `Ok`. -/
def Stored.step (blake3 : Bytes → Hash) (t : Transfer) (dest : String) (s : Stored)
    (a : Event × Option File) : Stored :=
  s.settle a (s.receiver.step blake3 t dest a.1).1

def Stored.run (blake3 : Bytes → Hash) (t : Transfer) (dest : String)
    (acts : List (Event × Option File)) (s : Stored) : Stored :=
  acts.foldl (Stored.step blake3 t dest) s

def Receiver.inLoop (r : Receiver) : Bool :=
  match r.phase with
  | .receiving _ => true
  | _ => false

/-- A step of the loop gives the partial's file the name `dest`. -/
structure Renames (dest : String) (r r' : Receiver) : Prop where
  loop : r.inLoop = true
  part : r.host.names (partialPath dest) ≠ none
  before : r.host.names dest ≠ r.host.names (partialPath dest)
  after : r'.host.names dest = r.host.names (partialPath dest)

/-- What can be read back from the partial has the offered length, and the hash that the
`DONE` frame claims. -/
def Verified (blake3 : Bytes → Hash) (t : Transfer) (dest : String) (evs : List Event)
    (ev : Event) (r : Receiver) : Prop :=
  ∃ disk raw content, r.host.contents (partialPath dest) = some disk ∧
    Offered t evs disk.length ∧ ev.delivery = .ok raw ∧ parse raw = .ok (Tag.DONE, content) ∧
    decodeDone content = .ok (blake3 disk)

section Storage

variable {blake3 : Bytes → Hash} {t : Transfer} {dest : String} {evs : List Event}
  {acts : List (Event × Option File)} {a : Event × Option File} {s : Stored}

theorem Stored.run_concat (acts : List (Event × Option File)) (a : Event × Option File)
    (s : Stored) :
    run blake3 t dest (acts ++ [a]) s = (run blake3 t dest acts s).step blake3 t dest a := by
  unfold run
  rw [List.foldl_append]
  rfl

theorem Stored.step_none (s : Stored) (ev : Event) :
    (s.step blake3 t dest (ev, none)).receiver = (s.receiver.step blake3 t dest ev).1 := by
  unfold Stored.step settle
  simp only
  split <;> rfl

theorem Stored.run_none (evs : List Event) (s : Stored) :
    (s.run blake3 t dest (evs.map fun ev => (ev, none))).receiver =
      s.receiver.run blake3 t dest evs := by
  induction evs generalizing s with
  | nil => rfl
  | cons ev evs ih =>
    have h := ih (s.step blake3 t dest (ev, none))
    rw [Stored.step_none] at h
    exact h

theorem OnPart.tear {fd : Nat} {h : Host} (hon : OnPart dest fd h) (fd' : Nat)
    (torn : Option File) : OnPart dest fd (tear fd' torn h) := by
  unfold Transfer.tear
  split
  · exact hon
  · exact ⟨hon.old, hon.part, hon.apart⟩

theorem Offered.unique {n m : Nat} (h : Offered t evs n) (h' : Offered t evs m) : n = m := by
  obtain ⟨ev, raw, hhead, hraw, hacc⟩ := h
  obtain ⟨ev', raw', hhead', hraw', hacc'⟩ := h'
  rw [hhead] at hhead'
  cases hhead'
  rw [hraw] at hraw'
  cases hraw'
  have := hacc.decodes
  rw [hacc'.decodes] at this
  exact (Except.ok.inj this).symm

theorem handedBy_of_parse {ev : Event} {raw content : Bytes} {tag : UInt8}
    (hraw : ev.delivery = .ok raw) (hparse : parse raw = .ok (tag, content)) :
    handedBy ev = if tag = Tag.DATA then some content else none := by
  unfold handedBy
  rw [hraw]
  simp only [hparse]

/-! ## What the hasher has -/

/-- Until a `DONE` is accepted the hasher has what was handed to the writes, whatever is on
the disk. -/
inductive Hashing (t : Transfer) (dest : String) (evs : List Event) (handed : Bytes) :
    Receiver → Prop
  | awaitOffer {h : Host} : evs = [] → Apart dest h → Hashing t dest evs handed ⟨h, .awaitOffer⟩
  | awaitStart {h : Host} {st : Resuming} : OnPart dest st.fd h → h.data st.fd = st.hasher →
      st.hasher.length = st.held → st.held ≤ st.total → Offered t evs st.total →
      Hashing t dest evs handed ⟨h, .awaitStart st⟩
  | receiving {h : Host} {st : Receiving} : OnPart dest st.fd h → st.hasher = handed →
      st.hasher.length = st.received → st.received ≤ st.total → st.hash = none →
      Offered t evs st.total → Hashing t dest evs handed ⟨h, .receiving st⟩
  | finished {h : Host} {st : Receiving} : st.hash ≠ none →
      Hashing t dest evs handed ⟨h, .receiving st⟩
  | returned {h : Host} {x : Except Error Summary} : Hashing t dest evs handed ⟨h, .returned x⟩

theorem wp_recvData_handed {σ : Type} {st : Receiving} {content : Bytes} {s : Env σ}
    {Q : Receiving → Env σ → Prop} {E : Error → Env σ → Prop}
    (herr : ∀ e s', Confined st.fd s.host s'.host → E e s')
    (hok : ∀ s', st.hash = none → st.received + content.length ≤ st.total →
      Confined st.fd s.host s'.host → Q (st.push t content) s') :
    wp (recvData t st content) Q E s := by
  apply wp_recvData_write
  · intro _ e
    exact herr _ s (Confined.refl _ _)
  intro hnone hle
  apply wp_writeAll_touches
  · intro e s' a
    exact herr _ s' a.toConfined
  intro s₁ a₁
  refine ⟨hok s₁ hnone hle a₁.toConfined, ?_, ?_⟩
  · intro _ e s' a
    exact herr _ s' (a₁.toConfined.trans (a.moves st.fd).toConfined)
  · intro s₂ a₂ _ _
    exact hok s₂ hnone hle (a₁.toConfined.trans a₂.toConfined)

/-- The first `DONE` of a run claims what was handed to the writes, all of it. -/
structure Accepted (blake3 : Bytes → Hash) (t : Transfer) (evs : List Event) (ev : Event)
    (s : Stored) : Prop where
  first : ∃ st, s.receiver.phase = .receiving st ∧ st.hash = none
  offered : Offered t evs s.handed.length
  claimed : ∃ raw content, ev.delivery = .ok raw ∧ parse raw = .ok (Tag.DONE, content) ∧
    decodeDone content = .ok (blake3 s.handed)

theorem Renames.of_names {r r' : Receiver} (h : Renames dest r r') :
    r'.host.names ≠ r.host.names := by
  intro hsame
  have := h.after
  rw [hsame] at this
  exact h.before this

theorem Stored.settle_names (s : Stored) (a : Event × Option File) (r : Receiver) :
    (s.settle a r).receiver.host.names = r.host.names := by
  unfold settle
  split
  · rfl
  · unfold tear
    split <;> rfl
  · rfl

/-- What a step does to a state that is still hashing. -/
structure Settles (blake3 : Bytes → Hash) (t : Transfer) (dest : String) (evs : List Event)
    (s : Stored) (a : Event × Option File) (r : Receiver) : Prop where
  hashing : Hashing t dest (evs ++ [a.1]) (s.settle a r).handed (s.settle a r).receiver
  accepted : Renames dest s.receiver r → Accepted blake3 t evs a.1 s

theorem Settles.returned {x : Except Error Summary} {r : Receiver} {h : Host} {handed : Bytes}
    (hren : ¬Renames dest r ⟨h, .returned x⟩) :
    Settles blake3 t dest evs ⟨r, handed⟩ a ⟨h, .returned x⟩ where
  hashing := by
    have hsettle : Stored.settle ⟨r, handed⟩ a ⟨h, .returned x⟩ = ⟨⟨h, .returned x⟩, handed⟩ := by
      obtain ⟨h', p⟩ := r
      unfold Stored.settle
      cases p <;> rfl
    rw [hsettle]
    exact .returned
  accepted h := absurd h hren

theorem Settles.turn {h h' : Host} {st st' : Receiving} {handed : Bytes}
    (hframe : handedBy a.1 = none)
    (hashing : Hashing t dest (evs ++ [a.1]) handed ⟨h', .receiving st'⟩)
    (accepted : Renames dest ⟨h, .receiving st⟩ ⟨h', .receiving st'⟩ →
      Accepted blake3 t evs a.1 ⟨⟨h, .receiving st⟩, handed⟩) :
    Settles blake3 t dest evs ⟨⟨h, .receiving st⟩, handed⟩ a ⟨h', .receiving st'⟩ where
  hashing := by
    have hsettle : Stored.settle ⟨⟨h, .receiving st⟩, handed⟩ a ⟨h', .receiving st'⟩ =
        ⟨⟨h', .receiving st'⟩, handed⟩ := by
      unfold Stored.settle
      simp only [hframe]
    rw [hsettle]
    exact hashing
  accepted := accepted

theorem Hashing.receiving_settles {h : Host} {st : Receiving} {handed : Bytes}
    (hp : Hashing t dest evs handed ⟨h, .receiving st⟩) {raw : Bytes}
    (hraw : a.1.delivery = .ok raw) :
    wp (recvFrame blake3 t dest st raw)
      (fun turn s' => match turn with
        | .inl st' => Settles blake3 t dest evs ⟨⟨h, .receiving st⟩, handed⟩ a
            ⟨s'.host, .receiving st'⟩
        | .inr summary => Settles blake3 t dest evs ⟨⟨h, .receiving st⟩, handed⟩ a
            (Receiver.emit a.1 s'.host (frame Tag.ACK [] st.frameLen)
              (.returned (.ok summary))).1)
      (fun e s' => Settles blake3 t dest evs ⟨⟨h, .receiving st⟩, handed⟩ a
        ⟨s'.host, .returned (.error e)⟩) ⟨h, ()⟩ := by
  have hsame : ∀ p, ¬Renames dest ⟨h, .receiving st⟩ ⟨h, p⟩ := fun p hren => hren.of_names rfl
  have hconfined : ∀ p h', Confined st.fd h h' → ¬Renames dest ⟨h, .receiving st⟩ ⟨h', p⟩ :=
    fun p h' a hren => hren.of_names a.names
  apply wp_recvFrame
  · intro _ e
    exact .returned (hsame _)
  · intro content hparse
    have hframe : handedBy a.1 = some content := by
      rw [handedBy_of_parse hraw hparse, if_pos rfl]
    cases hp with
    | finished hhash =>
      unfold recvData
      simp only [Option.isSome_iff_ne_none.mpr hhash, if_true, wp_bind, wp_throw]
      exact .returned (hsame _)
    | receiving hon hhanded hlen hle hnone hoff =>
      apply wp_recvData_handed
      · intro e s' b
        exact .returned (hconfined _ _ b)
      · intro s' _ hfit b
        refine ⟨?_, fun hren => absurd b.names hren.of_names⟩
        have hsettle : Stored.settle ⟨⟨h, .receiving st⟩, handed⟩ a
            ⟨s'.host, .receiving (st.push t content)⟩ =
            ⟨⟨tear st.fd a.2 s'.host, .receiving (st.push t content)⟩, handed ++ content⟩ := by
          unfold Stored.settle
          simp only [hframe]
          rfl
        rw [hsettle]
        refine .receiving ((hon.confined b).tear _ _) ?_ ?_ hfit hnone (hoff.append _)
        · rw [← hhanded]
          rfl
        · show (st.hasher ++ content).length = _
          rw [List.length_append, hlen]
          rfl
  · intro content hparse
    have hframe : handedBy a.1 = none := by
      rw [handedBy_of_parse hraw hparse, if_neg (by decide)]
    refine .turn hframe ?_ fun hren => absurd hren (hsame _)
    cases hp with
    | finished hhash => exact .finished hhash
    | receiving hon hhanded hlen hle hnone hoff =>
      exact .receiving hon hhanded hlen hle hnone (hoff.append _)
  · intro content hparse
    have hframe : handedBy a.1 = none := by
      rw [handedBy_of_parse hraw hparse, if_neg (by decide)]
    cases hp with
    | finished hhash =>
      unfold recvDone
      simp only [Option.isSome_iff_ne_none.mpr hhash, if_true, wp_bind, wp_throw]
      exact .returned (hsame _)
    | receiving hon hhanded hlen hle hnone hoff =>
      apply wp_recvDone hon
      · intro _ e s' b _
        exact .returned (hconfined _ _ b)
      · intro s' _ htotal hclaimed _
        refine .turn hframe (.finished (by simp)) fun _ => ?_
        rw [hhanded] at hclaimed hlen
        refine ⟨⟨st, rfl, hnone⟩, ?_, raw, content, hraw, hparse, hclaimed⟩
        show Offered t evs handed.length
        rw [hlen, htotal]
        exact hoff
  · intro content hash hparse _
    apply Receiver.emit_of (P := fun p => Settles blake3 t dest evs _ a p.1)
    · intro _
      exact .returned (hsame _)
    · intro e _
      exact .returned (hsame _)

theorem Hashing.settles (hp : Hashing t dest evs s.handed s.receiver) (a : Event × Option File) :
    Settles blake3 t dest evs s a (s.receiver.step blake3 t dest a.1).1 := by
  obtain ⟨r, handed⟩ := s
  have hidle : r.inLoop = false → ∀ r', ¬Renames dest r r' := by
    intro hloop r' hren
    have := hren.loop
    rw [hloop] at this
    cases this
  apply Receiver.step_of (P := fun p => Settles blake3 t dest evs ⟨r, handed⟩ a p.1)
  · intro x hx
    obtain ⟨h, p⟩ := r
    cases hx
    exact .returned (hidle rfl _)
  · intro _ e
    exact .returned fun hren => hren.of_names rfl
  · intro raw hphase hraw
    obtain ⟨h, p⟩ := r
    cases hphase
    cases hp with
    | awaitOffer hevs hap =>
    subst hevs
    apply wp_recvOffer hap
    · intro _ e s' _ _ _
      exact .returned (hidle rfl _)
    · intro st s' hres
      have hheld : st.held ≤ st.total := by
        rw [hres.held]
        exact min_le_right _ _
      apply Receiver.emit_of (P := fun p => Settles blake3 t dest [] _ a p.1)
      · intro _
        exact ⟨.awaitStart hres.onPart hres.data hres.length hheld
          ⟨a.1, raw, rfl, hraw, hres.accepts⟩, fun hren => absurd hren (hidle rfl _)⟩
      · intro e _
        exact .returned (hidle rfl _)
  · intro raw st hphase hraw
    obtain ⟨h, p⟩ := r
    cases hphase
    cases hp with
    | awaitStart hon hdata hlen hle hoff =>
    apply wp_recvStart hdata hlen
    · intro _ e s' _ _
      exact .returned (hidle rfl _)
    · intro content offset s' _ _ hoffset b hin
      refine ⟨?_, fun hren => absurd hren (hidle rfl _)⟩
      exact .receiving (hon.confined b) hin.data.symm hin.length (hoffset.trans hle) rfl
        (hoff.append _)
  · intro raw st hphase hraw
    obtain ⟨h, p⟩ := r
    cases hphase
    exact hp.receiving_settles hraw

/-! ## Whole runs -/

/-- A run of `recv` from `h`, before any frame. -/
abbrev Stored.recv (blake3 : Bytes → Hash) (t : Transfer) (dest : String) (h : Host)
    (acts : List (Event × Option File)) : Stored :=
  Stored.run blake3 t dest acts ⟨⟨h, .awaitOffer⟩, []⟩

theorem Hashing.run {h : Host} (hap : Apart dest h) (acts : List (Event × Option File)) :
    Hashing t dest (acts.map Prod.fst) (Stored.recv blake3 t dest h acts).handed
      (Stored.recv blake3 t dest h acts).receiver := by
  induction acts using List.reverseRecOn with
  | nil => exact .awaitOffer rfl hap
  | append_singleton acts a ih =>
    rw [Stored.recv, Stored.run_concat, List.map_append]
    exact (ih.settles a).hashing

theorem Hashing.accepted (hp : Hashing t dest evs s.handed s.receiver)
    (hren : Renames dest s.receiver (s.step blake3 t dest a).receiver) :
    Accepted blake3 t evs a.1 s := by
  refine (hp.settles a).accepted ⟨hren.loop, hren.part, hren.before, ?_⟩
  rw [← hren.after, Stored.step, Stored.settle_names]

theorem Accepted.verified (h : Accepted blake3 t evs a.1 s)
    (hdisk : s.receiver.host.contents (partialPath dest) = some s.handed) :
    Verified blake3 t dest evs a.1 s.receiver := by
  obtain ⟨raw, content, hraw, hparse, hclaimed⟩ := h.claimed
  exact ⟨s.handed, raw, content, hdisk, h.offered, hraw, hparse, hclaimed⟩

theorem Accepted.eq_handed (h : Accepted blake3 t evs a.1 s)
    (hno : ∀ disk, s.receiver.host.contents (partialPath dest) = some disk →
      disk.length = s.handed.length → blake3 disk = blake3 s.handed → disk = s.handed)
    (hv : Verified blake3 t dest evs a.1 s.receiver) :
    s.receiver.host.contents (partialPath dest) = some s.handed := by
  obtain ⟨raw, content, hraw, hparse, hclaimed⟩ := h.claimed
  obtain ⟨disk, raw', content', hdisk, hoff', hraw', hparse', hclaimed'⟩ := hv
  rw [hraw] at hraw'
  cases hraw'
  rw [hparse] at hparse'
  cases hparse'
  rw [hclaimed] at hclaimed'
  rw [hdisk, hno disk hdisk (hoff'.unique h.offered) (Except.ok.inj hclaimed').symm]

/-- **What is verified.** Whatever the disk makes of the writes it reported `Ok`: when a run
renames the partial, what can be read back from it has the offered length and the claimed hash
exactly where the disk has what the writes were handed. -/
theorem renamed_verified_iff {h : Host} (hap : Apart dest h) (acts : List (Event × Option File))
    (a : Event × Option File)
    (hren : Renames dest (Stored.recv blake3 t dest h acts).receiver
      (Stored.recv blake3 t dest h (acts ++ [a])).receiver)
    (hno : ∀ disk,
      (Stored.recv blake3 t dest h acts).receiver.host.contents (partialPath dest) = some disk →
      disk.length = (Stored.recv blake3 t dest h acts).handed.length →
      blake3 disk = blake3 (Stored.recv blake3 t dest h acts).handed →
      disk = (Stored.recv blake3 t dest h acts).handed) :
    Verified blake3 t dest (acts.map Prod.fst) a.1 (Stored.recv blake3 t dest h acts).receiver ↔
      (Stored.recv blake3 t dest h acts).receiver.host.contents (partialPath dest) =
        some (Stored.recv blake3 t dest h acts).handed := by
  rw [Stored.recv, Stored.recv, Stored.run_concat] at hren
  have hacc := (Hashing.run hap acts).accepted hren
  exact ⟨hacc.eq_handed hno, hacc.verified⟩

theorem verified_of_faithful {h : Host} (hap : Apart dest h) (evs : List Event) (ev : Event)
    (hren : Renames dest (Receiver.run blake3 t dest evs ⟨h, .awaitOffer⟩)
      (Receiver.run blake3 t dest (evs ++ [ev]) ⟨h, .awaitOffer⟩)) :
    Verified blake3 t dest evs ev (Receiver.run blake3 t dest evs ⟨h, .awaitOffer⟩) := by
  have hp : Hashing t dest ((evs.map fun ev => ((ev, none) : Event × Option File)).map Prod.fst)
      (Stored.recv blake3 t dest h (evs.map fun ev => (ev, none))).handed _ := Hashing.run hap _
  have hrun : (Stored.recv blake3 t dest h (evs.map fun ev => (ev, none))).receiver =
      Receiver.run blake3 t dest evs ⟨h, .awaitOffer⟩ := Stored.run_none evs _
  have hevs : (evs.map fun ev => ((ev, none) : Event × Option File)).map Prod.fst = evs := by
    rw [List.map_map]
    exact List.map_id evs
  generalize Stored.recv blake3 t dest h _ = s at hp hrun
  rw [hevs] at hp
  rw [Receiver.run_append, ← hrun] at hren
  rw [← hrun]
  have hren' : Renames dest s.receiver (s.step blake3 t dest (ev, none)).receiver := by
    rw [Stored.step_none]
    exact hren
  have hacc := hp.accepted hren'
  refine hacc.verified ?_
  obtain ⟨st, hphase, hnone⟩ := hacc.first
  obtain ⟨r, handed⟩ := s
  obtain ⟨h', p⟩ := r
  cases hphase
  have hhanded : st.hasher = handed := by
    cases hp with
    | finished hhash => exact absurd hnone hhash
    | receiving _ hhanded => exact hhanded
  rcases run_history hap evs with ⟨hpend, -⟩ | ⟨pre, ev', post, payload, hash, heq, -, -, hpost⟩
  · rw [← hrun] at hpend
    obtain ⟨hon, hin, -⟩ := hpend.loop
    show h'.contents (partialPath dest) = some handed
    rw [hon.contents, hin.data, hhanded]
  · have hfin := hpost post (List.prefix_refl _)
    rw [← heq, ← hrun] at hfin
    cases hfin with
    | receiving _ hhash =>
      rw [hnone] at hhash
      cases hhash

end Storage

/-! ## A lost write -/

def lostEvents : List (Event × Option File) :=
  [(delivers Tag.OFFER (beBytes 8 2), none), (delivers Tag.START (beBytes 8 1), none),
    (delivers Tag.DATA [9], some ⟨[2], by decide⟩)]

def lostDone : Event × Option File := (delivers Tag.DONE (sampleHash [2, 9]).toList, none)

theorem renames_lost : Renames "vault"
    (Stored.recv sampleHash sampleConfig "vault" sampleDisk lostEvents).receiver
    (Stored.recv sampleHash sampleConfig "vault" sampleDisk (lostEvents ++ [lostDone])).receiver where
  loop := by decide +kernel
  part := by decide +kernel
  before := by decide +kernel
  after := by decide +kernel

theorem contents_lost :
    (Stored.recv sampleHash sampleConfig "vault" sampleDisk lostEvents).receiver.host.contents
      (partialPath "vault") = some [2] := by decide +kernel

theorem handed_lost :
    (Stored.recv sampleHash sampleConfig "vault" sampleDisk lostEvents).handed = [2, 9] := by
  decide +kernel

/-- One write is lost, and the partial is renamed without it. -/
theorem lost_write_renamed :
    Renames "vault" (Stored.recv sampleHash sampleConfig "vault" sampleDisk lostEvents).receiver
      (Stored.recv sampleHash sampleConfig "vault" sampleDisk (lostEvents ++ [lostDone])).receiver ∧
    ¬Verified sampleHash sampleConfig "vault" (lostEvents.map Prod.fst) lostDone.1
      (Stored.recv sampleHash sampleConfig "vault" sampleDisk lostEvents).receiver := by
  refine ⟨renames_lost, ?_⟩
  rintro ⟨disk, raw, content, hdisk, ⟨ev, offer, hhead, hraw, hacc⟩, -⟩
  rw [contents_lost] at hdisk
  cases hdisk
  cases hhead
  cases hraw
  have htwo : decodeOffer (frame Tag.OFFER (beBytes 8 2) 45) = .ok 2 := by decide +kernel
  have := hacc.decodes
  rw [htwo] at this
  cases this

theorem renamed_verified_iff_lost :
    Verified sampleHash sampleConfig "vault" (lostEvents.map Prod.fst) lostDone.1
      (Stored.recv sampleHash sampleConfig "vault" sampleDisk lostEvents).receiver ↔
    (Stored.recv sampleHash sampleConfig "vault" sampleDisk lostEvents).receiver.host.contents
        (partialPath "vault") =
      some (Stored.recv sampleHash sampleConfig "vault" sampleDisk lostEvents).handed := by
  apply renamed_verified_iff apart_sampleDisk lostEvents lostDone renames_lost
  rw [contents_lost, handed_lost]
  intro disk hdisk hlen
  cases hdisk
  cases hlen

end AtomVault.Transfer
