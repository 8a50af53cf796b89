import AtomVault.Transfer.Receiver
import Mathlib.Data.List.Induction

/-!
# What any peer can make of `dest`

A run is a list of events, so it may end anywhere. It is pending until its one accepted
`DONE`, and placed from then on.
-/

open Lib

namespace AtomVault.Transfer

/-- `recv`, over everything that happens to it. -/
def Receiver.run (blake3 : Bytes → Hash) (t : Transfer) (dest : String) (evs : List Event)
    (r : Receiver) : Receiver :=
  evs.foldl (fun r ev => (r.step blake3 t dest ev).1) r

section Safety

variable {blake3 : Bytes → Hash} {t : Transfer} {dest : String} {evs : List Event} {ev : Event}
  {r : Receiver}

theorem Receiver.run_append (evs evs' : List Event) (r : Receiver) :
    run blake3 t dest (evs ++ evs') r = run blake3 t dest evs' (run blake3 t dest evs r) :=
  List.foldl_append ..

/-- The first frame offered `total` bytes. -/
def Offered (t : Transfer) (evs : List Event) (total : Nat) : Prop :=
  ∃ ev raw, evs.head? = some ev ∧ ev.delivery = .ok raw ∧ Accepts t raw total

theorem Offered.append {total : Nat} (h : Offered t evs total) (evs' : List Event) :
    Offered t (evs ++ evs') total := by
  obtain ⟨ev, raw, hhead, hrest⟩ := h
  refine ⟨ev, raw, ?_, hrest⟩
  rw [List.head?_append, hhead]
  rfl

/-- No `DONE` was accepted so far. -/
inductive Pending (t : Transfer) (dest : String) (evs : List Event) : Receiver → Prop
  | awaitOffer {h : Host} : evs = [] → Apart dest h → Pending t dest evs ⟨h, .awaitOffer⟩
  | awaitStart {h : Host} {st : Resuming} : OnPart dest st.fd h → h.data st.fd = st.hasher →
      st.hasher.length = st.held → st.held ≤ st.total → Offered t evs st.total →
      Pending t dest evs ⟨h, .awaitStart st⟩
  | receiving {h : Host} {st : Receiving} : OnPart dest st.fd h → InStep st h →
      st.received ≤ st.total → st.hash = none → Offered t evs st.total →
      Pending t dest evs ⟨h, .receiving st⟩
  | failed {h : Host} {e : Error} : Apart dest h → Pending t dest evs ⟨h, .returned (.error e)⟩

/-- A `DONE` was accepted. -/
inductive Finished (dest : String) (payload : Bytes) (hash : Hash) : Receiver → Prop
  | receiving {h : Host} {st : Receiving} : h.contents dest = some payload →
      st.hash = some hash → st.total = payload.length →
      Finished dest payload hash ⟨h, .receiving st⟩
  | returned {h : Host} {summary : Summary} : h.contents dest = some payload →
      summary.hash = hash → summary.total = payload.length →
      Finished dest payload hash ⟨h, .returned (.ok summary)⟩
  | failed {h : Host} {e : Error} : h.contents dest = some payload →
      Finished dest payload hash ⟨h, .returned (.error e)⟩

theorem Finished.contents {payload : Bytes} {hash : Hash} (h : Finished dest payload hash r) :
    r.host.contents dest = some payload := by
  cases h <;> assumption

/-- One step renames the partial into place: a `DONE` frame whose hash is the partial's, and
a partial as long as the first frame offered. -/
structure Commits (blake3 : Bytes → Hash) (t : Transfer) (dest : String) (evs : List Event)
    (ev : Event) (payload : Bytes) (hash : Hash) (r r' : Receiver) : Prop where
  part : r.host.contents (partialPath dest) = some payload
  offered : Offered t evs payload.length
  claimed : ∃ raw content, ev.delivery = .ok raw ∧ parse raw = .ok (Tag.DONE, content) ∧
    decodeDone content = .ok hash
  hash : blake3 payload = hash
  file : r'.host.contents dest = some payload
  gone : r'.host.contents (partialPath dest) = none

theorem Pending.loop {h : Host} {st : Receiving} (hp : Pending t dest evs ⟨h, .receiving st⟩) :
    OnPart dest st.fd h ∧ InStep st h ∧ st.received ≤ st.total ∧ st.hash = none ∧
      Offered t evs st.total := by
  cases hp with
  | receiving hon hin hle hnone hoff => exact ⟨hon, hin, hle, hnone, hoff⟩

/-- A pending run stays pending and leaves `dest` alone, or it commits. -/
def Goes (blake3 : Bytes → Hash) (t : Transfer) (dest : String) (evs : List Event) (ev : Event)
    (r r' : Receiver) : Prop :=
  Pending t dest (evs ++ [ev]) r' ∧ r'.host.contents dest = r.host.contents dest ∨
    ∃ payload hash, Commits blake3 t dest evs ev payload hash r r' ∧
      Finished dest payload hash r'

theorem Pending.toApart (hp : Pending t dest evs r) : Apart dest r.host := by
  cases hp with
  | awaitOffer _ hap => exact hap
  | awaitStart hon => exact hon.toApart
  | receiving hon => exact hon.toApart
  | failed hap => exact hap

theorem Pending.step (hp : Pending t dest evs r) (ev : Event) :
    Goes blake3 t dest evs ev r (r.step blake3 t dest ev).1 := by
  apply Receiver.step_of (P := fun p => Goes blake3 t dest evs ev r p.1)
  · intro x hx
    refine Or.inl ⟨?_, rfl⟩
    cases hp with
    | failed hap => exact .failed hap
    | awaitOffer | awaitStart | receiving => cases hx
  · intro _ e
    exact Or.inl ⟨.failed hp.toApart, rfl⟩
  · intro raw hphase hraw
    cases hp with
    | awaitStart | receiving | failed => cases hphase
    | awaitOffer hevs hap =>
    subst hevs
    apply wp_recvOffer hap
    · intro _ e s' hap' hdest _
      exact Or.inl ⟨.failed hap', hdest⟩
    · intro st s' hres
      have hheld : st.held ≤ st.total := by
        rw [hres.held]
        exact min_le_right _ _
      apply Receiver.emit_of (P := fun p => Goes blake3 t dest [] ev _ p.1)
      · intro _
        exact Or.inl ⟨.awaitStart hres.onPart hres.data hres.length hheld
          ⟨ev, raw, rfl, hraw, hres.accepts⟩, hres.dest⟩
      · intro e _
        exact Or.inl ⟨.failed hres.onPart.toApart, hres.dest⟩
  · intro raw st hphase hraw
    cases hp with
    | awaitOffer | receiving | failed => cases hphase
    | awaitStart hon hdata hlen hle hoff =>
    cases hphase
    apply wp_recvStart hdata hlen
    · intro _ e s' a _
      exact Or.inl ⟨.failed (hon.confined a).toApart, a.contents_of_ne hon.apart⟩
    · intro content offset s' _ _ hoffset a hin
      exact Or.inl ⟨.receiving (hon.confined a) hin (hoffset.trans hle) rfl (hoff.append _),
        a.contents_of_ne hon.apart⟩
  · intro raw st hphase hraw
    cases hp with
    | awaitOffer | awaitStart | failed => cases hphase
    | receiving hon hin hle hnone hoff =>
    cases hphase
    apply wp_recvFrame
    · intro _ e
      exact Or.inl ⟨.failed hon.toApart, rfl⟩
    · intro content _
      apply wp_recvData hin
      · intro _ e s' a _
        exact Or.inl ⟨.failed (hon.confined a).toApart, a.contents_of_ne hon.apart⟩
      · intro s' _ hfit a hin'
        exact Or.inl ⟨.receiving (hon.confined a) hin' hfit hnone (hoff.append _),
          a.contents_of_ne hon.apart⟩
    · intro content _
      exact Or.inl ⟨.receiving hon ⟨hin.data, hin.length, hin.pos⟩ hle hnone (hoff.append _), rfl⟩
    · intro content hparse
      apply wp_recvDone hon
      · intro _ e s' a _
        exact Or.inl ⟨.failed (hon.confined a).toApart, a.contents_of_ne hon.apart⟩
      · intro s' _ htotal hclaimed hplaced
        have hlen : st.total = st.hasher.length := by rw [hin.length, htotal]
        have hfile := hplaced.file
        rw [hin.data] at hfile
        refine Or.inr ⟨st.hasher, blake3 st.hasher, ?_, .receiving hfile rfl hlen⟩
        refine ⟨?_, hlen ▸ hoff, ⟨raw, content, hraw, hparse, hclaimed⟩, rfl, hfile, hplaced.part⟩
        rw [hon.contents, hin.data]
    · intro content hash _ hhash
      rw [hnone] at hhash
      cases hhash

theorem Finished.step {payload : Bytes} {hash : Hash} (hf : Finished dest payload hash r)
    (ev : Event) : Finished dest payload hash (r.step blake3 t dest ev).1 := by
  have hfile := hf.contents
  apply Receiver.step_of (P := fun p => Finished dest payload hash p.1)
  · intro _ _
    exact hf
  · intro _ e
    exact .failed hfile
  · intro raw hphase
    cases hf <;> cases hphase
  · intro raw st hphase
    cases hf <;> cases hphase
  · intro raw st hphase hraw
    cases hf with
    | returned | failed => cases hphase
    | receiving _ hhash htotal =>
    cases hphase
    apply wp_recvFrame
    · intro _ e
      exact .failed hfile
    · intro content _
      unfold recvData
      simp only [hhash, Option.isSome_some, if_true, wp_bind, wp_throw]
      exact .failed hfile
    · intro content _
      exact .receiving hfile hhash htotal
    · intro content _
      unfold recvDone
      simp only [hhash, Option.isSome_some, if_true, wp_bind, wp_throw]
      exact .failed hfile
    · intro content hash' _ hhash'
      rw [hhash] at hhash'
      cases hhash'
      apply Receiver.emit_of (P := fun p => Finished dest payload hash p.1)
      · intro _
        exact .returned hfile rfl htotal
      · intro e _
        exact .failed hfile

/-! ## Whole runs -/

theorem prefix_snoc {l : List Event} (h : l <+: evs ++ [ev]) : l <+: evs ∨ l = evs ++ [ev] := by
  rcases List.prefix_concat_iff.mp h with h | h
  · exact Or.inr h
  · exact Or.inl h

/-- The history of a run: pending throughout, or pending up to a step that commits and
finished from there on. -/
theorem run_history {h : Host} (hap : Apart dest h) (evs : List Event) :
    (Pending t dest evs (Receiver.run blake3 t dest evs ⟨h, .awaitOffer⟩) ∧
      ∀ pre, pre <+: evs → Pending t dest pre (Receiver.run blake3 t dest pre ⟨h, .awaitOffer⟩) ∧
        (Receiver.run blake3 t dest pre ⟨h, .awaitOffer⟩).host.contents dest = h.contents dest) ∨
    ∃ pre ev post payload hash, evs = pre ++ ev :: post ∧
      Commits blake3 t dest pre ev payload hash
        (Receiver.run blake3 t dest pre ⟨h, .awaitOffer⟩)
        (Receiver.run blake3 t dest (pre ++ [ev]) ⟨h, .awaitOffer⟩) ∧
      (∀ p, p <+: pre → Pending t dest p (Receiver.run blake3 t dest p ⟨h, .awaitOffer⟩) ∧
        (Receiver.run blake3 t dest p ⟨h, .awaitOffer⟩).host.contents dest = h.contents dest) ∧
      ∀ mid, mid <+: post →
        Finished dest payload hash (Receiver.run blake3 t dest (pre ++ ev :: mid) ⟨h, .awaitOffer⟩) := by
  induction evs using List.reverseRecOn with
  | nil =>
    refine Or.inl ⟨.awaitOffer rfl hap, ?_⟩
    intro pre hpre
    rw [List.prefix_nil.mp hpre]
    exact ⟨.awaitOffer rfl hap, rfl⟩
  | append_singleton evs ev ih =>
    have hlast : Receiver.run blake3 t dest (evs ++ [ev]) ⟨h, .awaitOffer⟩ =
        ((Receiver.run blake3 t dest evs ⟨h, .awaitOffer⟩).step blake3 t dest ev).1 :=
      Receiver.run_append evs [ev] _
    rcases ih with ⟨hp, hpre⟩ | ⟨pre, ev', post, payload, hash, heq, hcommit, hpre, hpost⟩
    · have hsame := (hpre evs (List.prefix_refl _)).2
      have hgoes : Goes blake3 t dest evs ev _ _ := hp.step ev
      rw [← hlast] at hgoes
      rcases hgoes with ⟨hp', hdest⟩ | ⟨payload, hash, hcommit, hfin⟩
      · refine Or.inl ⟨hp', ?_⟩
        intro l hl
        rcases prefix_snoc hl with hl | rfl
        · exact hpre l hl
        · exact ⟨hp', hdest.trans hsame⟩
      · refine Or.inr ⟨evs, ev, [], payload, hash, rfl, hcommit, hpre, ?_⟩
        intro mid hmid
        rw [List.prefix_nil.mp hmid]
        exact hfin
    · refine Or.inr ⟨pre, ev', post ++ [ev], payload, hash, by simp [heq], hcommit, hpre, ?_⟩
      intro mid hmid
      rcases prefix_snoc hmid with hmid | rfl
      · exact hpost mid hmid
      · have hfin : Finished dest payload hash (Receiver.step blake3 t dest ev _).1 :=
          (hpost post (List.prefix_refl _)).step ev
        rw [← heq, ← hlast, heq] at hfin
        simpa using hfin

/-- What a run of `recv` guarantees, whatever the peer sent. -/
structure RecvSafe (blake3 : Bytes → Hash) (t : Transfer) (dest : String) (h : Host)
    (evs : List Event) : Prop where
  /-- At the head of the loop, the partial is what was received and hashed. -/
  loop : ∀ st, (Receiver.run blake3 t dest evs ⟨h, .awaitOffer⟩).phase = .receiving st →
    st.hash = none →
    (Receiver.run blake3 t dest evs ⟨h, .awaitOffer⟩).host.contents (partialPath dest) =
      some st.hasher ∧ st.hasher.length = st.received ∧ st.received ≤ st.total
  /-- Either `dest` is never touched and `recv` never returns `Ok`, or one step renames a
  verified partial into place and `recv` returns that partial's length and hash. -/
  dest : (∀ pre, pre <+: evs →
      (Receiver.run blake3 t dest pre ⟨h, .awaitOffer⟩).host.contents dest = h.contents dest ∧
      ∀ summary, (Receiver.run blake3 t dest pre ⟨h, .awaitOffer⟩).phase ≠
        .returned (.ok summary)) ∨
    ∃ pre ev post payload hash, evs = pre ++ ev :: post ∧
      Commits blake3 t dest pre ev payload hash
        (Receiver.run blake3 t dest pre ⟨h, .awaitOffer⟩)
        (Receiver.run blake3 t dest (pre ++ [ev]) ⟨h, .awaitOffer⟩) ∧
      (∀ p, p <+: pre →
        (Receiver.run blake3 t dest p ⟨h, .awaitOffer⟩).host.contents dest = h.contents dest ∧
        ∀ summary, (Receiver.run blake3 t dest p ⟨h, .awaitOffer⟩).phase ≠
          .returned (.ok summary)) ∧
      ∀ mid, mid <+: post →
        (Receiver.run blake3 t dest (pre ++ ev :: mid) ⟨h, .awaitOffer⟩).host.contents dest =
          some payload ∧
        ∀ summary, (Receiver.run blake3 t dest (pre ++ ev :: mid) ⟨h, .awaitOffer⟩).phase =
          .returned (.ok summary) → summary.total = payload.length ∧ summary.hash = hash

theorem Pending.not_ok (hp : Pending t dest evs r) (summary : Summary) :
    r.phase ≠ .returned (.ok summary) := by
  cases hp <;> simp

/-- **Receiver safety.** Whatever a peer sends, wherever the host fails and whenever the user
cancels: the hasher is in step with the partial, and `dest` changes only by one rename of a
partial that has the length of the offer and the hash of the `DONE`. -/
theorem recv_safe {h : Host} (hap : Apart dest h) (evs : List Event) :
    RecvSafe blake3 t dest h evs where
  loop st hphase hnone := by
    rcases run_history hap evs with ⟨hp, -⟩ | ⟨pre, ev, post, payload, hash, heq, -, -, hpost⟩
    · generalize Receiver.run blake3 t dest evs ⟨h, .awaitOffer⟩ = r at *
      cases hp with
      | awaitOffer | awaitStart | failed => cases hphase
      | receiving hon hin hle =>
        cases hphase
        refine ⟨?_, hin.length, hle⟩
        rw [hon.contents, hin.data]
    · have hfin := hpost post (List.prefix_refl _)
      rw [← heq] at hfin
      generalize Receiver.run blake3 t dest evs ⟨h, .awaitOffer⟩ = r at *
      cases hfin with
      | returned | failed => cases hphase
      | receiving _ hhash =>
        cases hphase
        rw [hnone] at hhash
        cases hhash
  dest := by
    rcases run_history hap evs with ⟨-, hpre⟩ | ⟨pre, ev, post, payload, hash, heq, hc, hpre, hpost⟩
    · left
      intro pre hp
      obtain ⟨hpend, hdest⟩ := hpre pre hp
      exact ⟨hdest, hpend.not_ok⟩
    · refine Or.inr ⟨pre, ev, post, payload, hash, heq, hc, ?_, ?_⟩
      · intro p hp
        obtain ⟨hpend, hdest⟩ := hpre p hp
        exact ⟨hdest, hpend.not_ok⟩
      · intro mid hmid
        have hfin := hpost mid hmid
        refine ⟨hfin.contents, ?_⟩
        intro summary hphase
        generalize Receiver.run blake3 t dest (pre ++ ev :: mid) ⟨h, .awaitOffer⟩ = r at *
        cases hfin with
        | receiving | failed => cases hphase
        | returned _ hhash htotal =>
          cases hphase
          exact ⟨htotal, hhash⟩

end Safety

/-! ## A peer that rewinds -/

/-- A hash without collisions on contents of fewer than 32 bytes. -/
def sampleHash (b : Bytes) : Hash :=
  if b.length < 32 then toHash (UInt8.ofNat b.length :: b) else toHash (List.replicate 32 255)

theorem sampleHash_injective {x y : Bytes} (hy : y.length < 32)
    (h : sampleHash x = sampleHash y) : x = y := by
  have hlist : (sampleHash x).toList = (sampleHash y).toList := by rw [h]
  unfold sampleHash at hlist
  rw [if_pos hy] at hlist
  split at hlist
  · rename_i hx
    simp only [toHash, List.Vector.toList_mk, List.cons_append, List.take_succ_cons,
      List.cons.injEq] at hlist
    obtain ⟨hlen, htake⟩ := hlist
    have hlen' : x.length = y.length := by
      have := congrArg UInt8.toNat hlen
      simp only [UInt8.toNat_ofNat'] at this
      omega
    have hcut := congrArg (List.take y.length) htake
    rw [List.take_take, List.take_take, min_eq_left (by omega),
      List.take_append_of_le_length (by omega), List.take_append_of_le_length (by omega),
      List.take_length, ← hlen', List.take_length] at hcut
    exact hcut
  · simp only [toHash, List.Vector.toList_mk, List.cons_append, List.take_succ_cons,
      List.replicate_succ, List.cons.injEq] at hlist
    have := congrArg UInt8.toNat hlist.1
    simp only [UInt8.toNat_ofNat'] at this
    have h255 : (255 : UInt8).toNat = 255 := rfl
    omega

/-- An old file under `dest` and two bytes in its partial. -/
def sampleDisk : Host :=
  { Host.blank with
    names := fun path =>
      if path = "vault" then some 0 else if path = "vault.part" then some 1 else none
    files := fun i => if i = 0 then ⟨[1], by decide⟩ else ⟨[2, 3], by decide⟩
    nextIno := 2 }

def sampleConfig : Transfer := (new.withChunkLen 40).withCheckpointLen 1

def delivers (tag : UInt8) (content : Bytes) : Event :=
  ⟨false, .ok (frame tag content 45), none, ⟨[], ""⟩⟩

def sampleEvents : List Event :=
  [delivers Tag.OFFER (beBytes 8 2), delivers Tag.START (beBytes 8 1), delivers Tag.DATA [9],
    delivers Tag.DONE (sampleHash [2, 9]).toList, delivers Tag.FINISH []]

theorem apart_sampleDisk : Apart "vault" sampleDisk where
  old path i hi := by
    simp only [sampleDisk] at hi ⊢
    split at hi
    · cases hi
      decide
    · split at hi
      · cases hi
        decide
      · cases hi
  apart i hi := by
    have hpart : sampleDisk.names (partialPath "vault") = some 1 := by decide
    rw [hpart] at hi
    cases hi
    decide

theorem recv_safe_rewound :
    Apart "vault" sampleDisk ∧ RecvSafe sampleHash sampleConfig "vault" sampleDisk sampleEvents ∧
      (Receiver.run sampleHash sampleConfig "vault" sampleEvents
        ⟨sampleDisk, .awaitOffer⟩).host.contents "vault" = some [2, 9] :=
  ⟨apart_sampleDisk, recv_safe apart_sampleDisk sampleEvents, by decide +kernel⟩

end AtomVault.Transfer
