import AtomVault.Lib.Aead
import AtomVault.Live.Record

/-!
# Which sealed records open (`discovery/record.rs`)

Sealing only looks at the width of a record. Opening parses it as a ticket's hints are parsed,
with their limits, and looks at the clock.
-/

open Lib Cursor

namespace AtomVault.Live

theorem Endpoint.carry_eq_iff (e : Endpoint) : e.carry = e ↔ e.Carried := by
  rcases e with (⟨o, port⟩ | ⟨o, port, flowinfo, scopeId⟩) | a
  · exact iff_of_true rfl trivial
  · simp [carry, Carried, eq_comm]
  · exact iff_of_true rfl trivial

namespace AddressRecord

variable {pr : Primitives} {u : Unicode} {r r' : AddressRecord} {slot : Slot}

/-- What the encoding carries of a record. -/
def carried (r : AddressRecord) : AddressRecord := { r with hints := r.hints.map Endpoint.carry }

theorem toPlaintext_carried (r : AddressRecord) : r.carried.toPlaintext = r.toPlaintext := by
  unfold toPlaintext carried encodeHints
  simp only [List.length_map, flatMap_encodeHint_carry]

theorem padded_carried (r : AddressRecord) (padding : List.Vector UInt8 PLAINTEXT_LEN) :
    r.carried.padded padding = r.padded padding := by
  unfold padded
  rw [toPlaintext_carried]

theorem carried_eq_iff (r : AddressRecord) : r.carried = r ↔ ∀ h ∈ r.hints, h.Carried := by
  have hhints : r.carried = r ↔ r.hints.map Endpoint.carry = r.hints.map id := by
    rw [List.map_id]
    constructor
    · exact congrArg AddressRecord.hints
    · intro h
      unfold carried
      rw [h]
  rw [hhints, List.map_inj_left]
  exact forall₂_congr fun h _ => h.carry_eq_iff

theorem publishable_carried (hne : r.hints ≠ []) (hlen : r.hints.length ≤ MAX_HINTS) :
    Publishable r.carried.hints where
  ne_nil := by simpa [carried] using hne
  length_le := by simpa [carried] using hlen
  carried := by
    intro h hmem
    obtain ⟨e, -, rfl⟩ := List.mem_map.mp hmem
    exact e.carried_carry

/-! ## What the padded record is read as -/

theorem length_flatMap_encodeHint_ge (hints : List Endpoint) :
    7 * hints.length ≤ (hints.flatMap encodeHint).length := by
  induction hints with
  | nil => simp
  | cons h hints ih =>
    have hfirst : 7 ≤ (encodeHint h).length := by
      rcases h with (⟨o, port⟩ | ⟨o, port, flowinfo, scopeId⟩) | a
      · simp [encodeHint]
      · simp [encodeHint]
      · simp [encodeHint, a.length_host, ONION_LABEL_BYTES]
    rw [List.flatMap_cons, List.length_append, List.length_cons]
    omega

theorem length_hints_lt (hfits : r.toPlaintext.length + 2 ≤ PLAINTEXT_LEN) :
    r.hints.length < 256 := by
  have hhints := length_flatMap_encodeHint_ge r.hints
  unfold toPlaintext encodeHints PLAINTEXT_LEN at hfits
  simp only [List.length_append, List.length_singleton, length_beBytes] at hfits
  omega

theorem read_too_many (hmany : MAX_HINTS < r.hints.length) (hcount : r.hints.length < 256) :
    ∃ e c, read u ⟨r.toPlaintext, 0⟩ = .error e c := by
  have hn : (UInt8.ofNat r.hints.length).toNat > MAX_HINTS := by
    rw [UInt8.toNat_ofNat', Nat.mod_eq_of_lt hcount]
    exact hmany
  obtain ⟨e, hhints⟩ : ∃ e : Error, Leads (decodeHints u "address record")
      [UInt8.ofNat r.hints.length] (throw e) := by
    have hcount : Leads (decodeHints u "address record") _ _ :=
      leads_decodeHints (UInt8.ofNat r.hints.length)
    rw [if_pos hn] at hcount
    exact ⟨_, hcount⟩
  have hread : Leads (read u) ([FORMAT_VERSION] ++ (beBytes 8 r.seq.toNat ++
      (beBytes 8 r.notAfter.toNat ++ [UInt8.ofNat r.hints.length])))
      (throw e >>= fun hints => pure (⟨hints, r.seq, r.notAfter⟩ : AddressRecord)) := by
    refine (Reader.reads_u8 FORMAT_VERSION).leads ?_
    rw [if_neg (not_not.mpr rfl)]
    exact (Reader.reads_u64 r.seq).leads ((Reader.reads_u64 r.notAfter).leads
      (hhints.bind fun hints => pure (⟨hints, r.seq, r.notAfter⟩ : AddressRecord)))
  have hstart := hread.start (r.hints.flatMap encodeHint)
  have hbytes : [FORMAT_VERSION] ++ (beBytes 8 r.seq.toNat ++ (beBytes 8 r.notAfter.toNat ++
      [UInt8.ofNat r.hints.length])) ++ r.hints.flatMap encodeHint = r.toPlaintext := by
    unfold toPlaintext encodeHints
    simp only [List.append_assoc]
  rw [hbytes] at hstart
  exact ⟨_, _, hstart⟩

theorem fromPlaintext_padded_eq (hu : u.Plain) (hne : r.hints ≠ [])
    (hfits : r.toPlaintext.length + 2 ≤ PLAINTEXT_LEN)
    (padding : List.Vector UInt8 PLAINTEXT_LEN) :
    (r.hints.length ≤ MAX_HINTS ∧ fromPlaintext u (r.padded padding) = .ok r.carried) ∨
      MAX_HINTS < r.hints.length ∧ ∃ e, fromPlaintext u (r.padded padding) = .error e := by
  rcases Nat.lt_or_ge MAX_HINTS r.hints.length with hmany | hfew
  · right
    obtain ⟨e, c, hread⟩ := read_too_many (u := u) hmany (length_hints_lt hfits)
    refine ⟨hmany, e, ?_⟩
    rw [fromPlaintext_padded_read hfits, hread]
  · left
    refine ⟨hfew, ?_⟩
    rw [← padded_carried]
    exact fromPlaintext_padded hu (publishable_carried hne hfew) padding

/-! ## What opens -/

/-- The moments at which a record may be used. -/
def LiveAt (r : AddressRecord) (now : UInt64) : Prop :=
  now.toNat < r.notAfter.toNat ∧ r.notAfter.toNat ≤ now.toNat + MAX_TTL_SECS.toNat

instance (r : AddressRecord) (now : UInt64) : Decidable (r.LiveAt now) :=
  inferInstanceAs (Decidable (_ ∧ _))

theorem liveAt_iff (r : AddressRecord) (now : UInt64) :
    r.LiveAt now ↔ now < r.notAfter ∧ r.notAfter ≤ saturatingAdd now MAX_TTL_SECS := by
  have hmax := r.notAfter.toNat_lt
  unfold LiveAt
  rw [UInt64.lt_iff_toNat_lt, UInt64.le_iff_toNat_le, toNat_saturatingAdd]
  omega

/-- The sealing that `sealFor` does. -/
def sealing (r : AddressRecord) (slot : Slot) (padding : List.Vector UInt8 PLAINTEXT_LEN)
    (nonce : List.Vector UInt8 NONCE_LEN) (box : Bytes) : Lib.Sealing :=
  ⟨slot.key.toList, nonce.toList, aadFor slot, r.padded padding, box⟩

end AddressRecord

/-- XChaCha20-Poly1305 after the sealings in `made`. -/
structure Primitives.IdealAfter (pr : Primitives) (made : Set Lib.Sealing) : Prop where
  aead : IdealAead pr.encrypt pr.decrypt made
  length_encrypt : ∀ {key nonce aad msg c}, pr.encrypt key nonce aad msg = some c →
    c.length = msg.length + AEAD_TAG_LEN

/-- What a sealed record is for: it opens under its slot in its time, and nowhere else. -/
structure OpensAsSealed (pr : Primitives) (u : Unicode) (r : AddressRecord) (slot : Slot)
    (b : Bytes) : Prop where
  length : b.length = SEALED_LEN
  opens : ∀ now, r.LiveAt now → AddressRecord.openAt pr u b slot now = .ok r
  untimely : ∀ now, ¬r.LiveAt now → ∃ e, AddressRecord.openAt pr u b slot now = .error e
  elsewhere : ∀ slot' now, slot'.tag ≠ slot.tag ∨ slot'.key ≠ slot.key →
    ∃ e, AddressRecord.openAt pr u b slot' now = .error e

namespace AddressRecord

variable {pr : Primitives} {u : Unicode} {r : AddressRecord} {slot : Slot}
  {padding : List.Vector UInt8 PLAINTEXT_LEN} {nonce : List.Vector UInt8 NONCE_LEN} {b : Bytes}
  {made : Set Lib.Sealing}

theorem aadFor_injective {slot slot' : Slot} (h : aadFor slot = aadFor slot') :
    slot.tag = slot'.tag := by
  unfold aadFor at h
  exact List.Vector.eq _ _ (List.append_cancel_left h)

theorem openAt_other_slot (hpr : pr.IdealAfter made) {c : Bytes}
    (hmade : r.sealing slot padding nonce c ∈ made) {slot' : Slot} (now : UInt64)
    (hne : slot'.tag ≠ slot.tag ∨ slot'.key ≠ slot.key) :
    ∃ e, openAt pr u (nonce.toList ++ c) slot' now = .error e := by
  cases hrun : openAt pr u (nonce.toList ++ c) slot' now with
  | error e => exact ⟨e, rfl⟩
  | ok r' =>
    obtain ⟨plaintext, hd, -, -, -⟩ := openAt_eq_ok hrun
    rw [List.drop_left' nonce.toList_length] at hd
    obtain ⟨hkey, -, haad, -⟩ := hpr.aead.eq_of_opens hmade hd
    rcases hne with htag | hne
    · exact absurd (aadFor_injective haad).symm htag
    · exact absurd (List.Vector.eq _ _ hkey).symm hne

/-- **A sealed record opens if its hints were few and carried.** What `seal` returned has the
one length. It is opened as the record that was sealed in all of its time and at no other, and
under no other slot, exactly where the record has no time or has at most eight hints, none of
them with a scope or flow information. -/
theorem sealed_opens_iff (hu : u.Plain) (hpr : pr.IdealAfter made) (hne : r.hints ≠ [])
    (hseal : sealFor pr r slot ⟨.ok padding, .ok nonce⟩ = .ok b)
    (hmade : r.sealing slot padding nonce (b.drop NONCE_LEN) ∈ made) :
    b.length = SEALED_LEN ∧ (OpensAsSealed pr u r slot b ↔
      r.notAfter = 0 ∨ r.hints.length ≤ MAX_HINTS ∧ ∀ h ∈ r.hints, h.Carried) := by
  obtain ⟨hfits, padding', nonce', c, hdraws, hc, rfl⟩ := sealFor_eq_ok hseal
  cases hdraws
  rw [List.drop_left' nonce.toList_length] at hmade
  have hwidth := hpr.length_encrypt hc
  rw [length_padded hfits] at hwidth
  have hlen : (nonce.toList ++ c).length = SEALED_LEN := by
    rw [List.length_append, nonce.toList_length, hwidth]
    rfl
  have hopen : ∀ now, openAt pr u (nonce.toList ++ c) slot now =
      (fromPlaintext u (r.padded padding) >>= fun record => record.checkTimes now) :=
    openAt_of_decrypt nonce.toList_length hwidth (hpr.aead.opens hmade)
  have hread := fromPlaintext_padded_eq hu hne hfits padding
  have hcarried : ∀ {now r'}, openAt pr u (nonce.toList ++ c) slot now = .ok r' →
      r.hints.length ≤ MAX_HINTS ∧ r' = r.carried ∧ r.LiveAt now := by
    intro now r' hrun
    rw [hopen] at hrun
    rcases hread with ⟨hfew, hplain⟩ | ⟨-, e, hplain⟩
    · rw [hplain] at hrun
      obtain ⟨rfl, hlive, hshort⟩ := checkTimes_eq_ok hrun
      exact ⟨hfew, rfl, (r.liveAt_iff now).mpr ⟨hlive, hshort⟩⟩
    · rw [hplain] at hrun
      cases hrun
  have huntimely : ∀ now, ¬r.LiveAt now →
      ∃ e, openAt pr u (nonce.toList ++ c) slot now = .error e := by
    intro now hnot
    cases hrun : openAt pr u (nonce.toList ++ c) slot now with
    | error e => exact ⟨e, rfl⟩
    | ok r' => exact absurd (hcarried hrun).2.2 hnot
  refine ⟨hlen, ?_⟩
  constructor
  · intro h
    rw [← carried_eq_iff]
    by_cases hzero : r.notAfter = 0
    · exact Or.inl hzero
    · right
      -- the last second of the record
      have hlast : r.LiveAt (r.notAfter - 1) := by
        have hpos : r.notAfter.toNat ≠ 0 := fun h0 => hzero (UInt64.toNat_inj.mp h0)
        have hone : (1 : UInt64) ≤ r.notAfter := by
          rw [UInt64.le_iff_toNat_le]
          exact Nat.one_le_iff_ne_zero.mpr hpos
        have hsub : (r.notAfter - 1).toNat = r.notAfter.toNat - 1 := UInt64.toNat_sub_of_le _ _ hone
        have hmax : 1 ≤ MAX_TTL_SECS.toNat := by decide
        unfold LiveAt
        omega
      obtain ⟨hfew, hsame, -⟩ := hcarried (h.opens _ hlast)
      exact ⟨hfew, hsame.symm⟩
  · intro hcond
    refine ⟨hlen, ?_, huntimely, fun slot' now hother => openAt_other_slot hpr hmade now hother⟩
    intro now hlive
    rcases hcond with hzero | ⟨hfew, hall⟩
    · have hnever : now.toNat < r.notAfter.toNat := hlive.1
      rw [hzero] at hnever
      exact absurd hnever (Nat.not_lt_zero _)
    · have hplain := fromPlaintext_padded hu ⟨hne, hfew, hall⟩ padding
      obtain ⟨hbefore, hshort⟩ := (r.liveAt_iff now).mp hlive
      rw [hopen, hplain]
      exact checkTimes_ok hbefore hshort

end AddressRecord

/-! ## Eight hints and nine -/

/-- The sample that opens what is in the table. -/
def tablePrimitives (table : List Lib.Sealing) : Primitives :=
  { samplePrimitives with decrypt := tableOpen table }

/-- A record with `n` hints. -/
def manyHints (n : Nat) : AddressRecord :=
  ⟨List.replicate n (.direct (.v4 ⟨[203, 0, 113, 7], length_sampleOctets⟩ 4433)), 1, 1800000000⟩

def manySlot : Slot := ⟨List.Vector.replicate _ 1, List.Vector.replicate _ 2⟩

def manyDraws : SealDraws := ⟨.ok (List.Vector.replicate _ 0), .ok (List.Vector.replicate _ 3)⟩

/-- What `sealFor` makes of it. -/
def manyBox (n : Nat) : Bytes :=
  (manyHints n).padded (List.Vector.replicate _ 0) ++ sampleMac manySlot.key.toList (aadFor manySlot)

def manySealing (n : Nat) : Lib.Sealing :=
  (manyHints n).sealing manySlot (List.Vector.replicate _ 0) (List.Vector.replicate _ 3) (manyBox n)

abbrev manyPrimitives (n : Nat) : Primitives := tablePrimitives [manySealing n]

theorem many_ideal (n : Nat) : (manyPrimitives n).IdealAfter {x | x ∈ [manySealing n]} where
  aead := by
    refine idealAead_table ?_ ?_
    · intro x hx
      rw [List.mem_singleton] at hx
      subst hx
      rfl
    · intro x hx y hy _
      rw [List.mem_singleton] at hx hy
      rw [hx, hy]
  length_encrypt := by
    intro key nonce aad msg c h
    exact @Primitives.Correct.length_encrypt _ samplePrimitives_correct key nonce aad msg c h

set_option maxRecDepth 100000 in
theorem many_sealed : ∀ n ∈ [8, 9], AddressRecord.sealFor (manyPrimitives n) (manyHints n) manySlot
    manyDraws = .ok (List.replicate 24 3 ++ manyBox n) := by
  decide +kernel

theorem sealed_opens_iff_eight : OpensAsSealed (manyPrimitives 8) sampleUnicode (manyHints 8)
    manySlot (List.replicate 24 3 ++ manyBox 8) := by
  have hmade : (manyHints 8).sealing manySlot (List.Vector.replicate _ 0)
      (List.Vector.replicate _ 3) ((List.replicate 24 3 ++ manyBox 8).drop NONCE_LEN) ∈
        {x | x ∈ [manySealing 8]} := by
    have hbox : (List.replicate 24 3 ++ manyBox 8).drop NONCE_LEN = manyBox 8 :=
      List.drop_left' List.length_replicate
    rw [hbox]
    exact List.mem_singleton.mpr rfl
  have h := AddressRecord.sealed_opens_iff sampleUnicode_plain (many_ideal 8) (by decide)
    (many_sealed 8 (by decide)) hmade
  refine h.2.mpr (Or.inr ⟨by decide, ?_⟩)
  intro hint hmem
  rw [List.eq_of_mem_replicate hmem]
  trivial

set_option maxRecDepth 100000 in
/-- Nine hints fit into the width and do not open under their slot, a second before their end. -/
theorem nine_hints_sealed_shut :
    AddressRecord.sealFor (manyPrimitives 9) (manyHints 9) manySlot manyDraws =
      .ok (List.replicate 24 3 ++ manyBox 9) ∧
    (manyHints 9).hints ≠ [] ∧ (manyHints 9).LiveAt 1799999999 ∧
    (manyPrimitives 9).IdealAfter {x | x ∈ [manySealing 9]} ∧
    (AddressRecord.openAt (manyPrimitives 9) sampleUnicode (List.replicate 24 3 ++ manyBox 9)
      manySlot 1799999999).isOk = false :=
  ⟨many_sealed 9 (by decide), by decide, by decide, many_ideal 9, by decide +kernel⟩

end AtomVault.Live
