import AtomVault.Live.Ticket

/-!
# Base32 without padding

A text that is read is the text of the bytes it is read as: no bit of it is ignored.
-/

open Lib

namespace AtomVault.Live

/-- Every five bits are a character, and a text that is read is the one that is written. -/
structure Texts.Strict (tx : Texts) : Prop where
  length_base32 : ∀ b, (tx.base32 b).length = (8 * b.length + 4) / 5
  base32_fromBase32 : ∀ {s b}, tx.fromBase32 s = .ok b → tx.base32 b = s

theorem length_fives (bits : List Bool) : (fives bits).length = (bits.length + 4) / 5 := by
  induction bits using fives.induct with
  | case1 a b c d e bits ih =>
    unfold fives
    simp only [List.length_cons, ih]
    omega
  | case2 => rfl
  | case3 bits hlong hne =>
    have hpos := List.length_pos_of_ne_nil hne
    have hshort := length_lt_five hlong
    rw [fives.eq_3 bits hlong hne, List.length_singleton]
    omega

theorem digitOf_eq_ok {c : Char} {digit : List Bool} (h : digitOf c = .ok digit) :
    digit.length = 5 ∧ ∀ bits, fives (digit ++ bits) = c :: fives bits := by
  have hall : ∀ c ∈ ALPHABET, ∃ a b d e f, toBits 5 (ALPHABET.idxOf c) = [a, b, d, e, f] ∧
      ALPHABET.getD (ofBits [a, b, d, e, f]) 'A' = c := by
    have hbits : ∀ n, toBits 5 n =
        [n.testBit 4, n.testBit 3, n.testBit 2, n.testBit 1, n.testBit 0] := fun _ => rfl
    have hvalue : ALPHABET.all (fun c => decide
        (ALPHABET.getD (ofBits (toBits 5 (ALPHABET.idxOf c))) 'A' = c)) = true := by decide +kernel
    intro c hc
    refine ⟨_, _, _, _, _, hbits _, ?_⟩
    rw [← hbits]
    exact of_decide_eq_true (List.all_eq_true.mp hvalue c hc)
  unfold digitOf at h
  split at h
  · rename_i hc
    cases h
    obtain ⟨a, b, d, e, f, hbits, hchar⟩ := hall c hc
    rw [hbits]
    refine ⟨rfl, fun bits => ?_⟩
    have hstep : fives (a :: b :: d :: e :: f :: bits) =
        ALPHABET.getD (ofBits [a, b, d, e, f]) 'A' :: fives bits := by rw [fives]
    rw [← hchar]
    exact hstep
  · cases h

theorem fives_digits {s : Text} {digits : List (List Bool)} (h : s.mapM digitOf = .ok digits) :
    5 ∣ digits.flatten.length ∧ fives digits.flatten = s := by
  induction s generalizing digits with
  | nil =>
    cases h
    exact ⟨by simp, rfl⟩
  | cons c s ih =>
    rw [List.mapM_cons] at h
    obtain ⟨digit, hdigit, h₁⟩ := of_bind_eq_ok h
    obtain ⟨rest, hrest, h₂⟩ := of_bind_eq_ok h₁
    cases h₂
    obtain ⟨hlen, hchar⟩ := digitOf_eq_ok hdigit
    obtain ⟨hfive, hs⟩ := ih hrest
    rw [List.flatten_cons, List.length_append, hlen, hchar, hs]
    exact ⟨by omega, rfl⟩

theorem fives_append_zeros {bits pad : List Bool} (hlen : pad.length < 5)
    (hzero : pad.all (!·) = true) (hfive : 5 ∣ (bits ++ pad).length) :
    fives (bits ++ pad) = fives bits := by
  induction bits using fives.induct with
  | case1 a b c d e bits ih =>
    simp only [List.cons_append, List.length_cons] at hfive ⊢
    unfold fives
    rw [ih (by omega)]
  | case2 =>
    have hnil : pad = [] := by
      rw [List.nil_append] at hfive
      exact List.length_eq_zero_iff.mp (by omega)
    rw [hnil]
    rfl
  | case3 bits hlong hne =>
    have hpos := List.length_pos_of_ne_nil hne
    have hshort := length_lt_five hlong
    have hpad : pad = List.replicate (5 - bits.length) false := by
      rw [List.length_append] at hfive
      refine List.eq_replicate_iff.mpr ⟨by omega, fun x hx => ?_⟩
      simpa using List.all_eq_true.mp hzero x hx
    have htake : (bits ++ List.replicate 5 false).take 5 = bits ++ pad := by
      rw [List.take_append, List.take_of_length_le (by omega), List.take_replicate,
        Nat.min_eq_left (by omega), hpad]
    have hwhole : (bits ++ pad).length = 5 := by
      rw [List.length_append, hpad, List.length_replicate]
      omega
    rw [fives.eq_3 bits hlong hne, htake]
    generalize bits ++ pad = whole at hwhole
    rcases whole with _ | ⟨a, _ | ⟨b, _ | ⟨c, _ | ⟨d, _ | ⟨e, _ | ⟨f, rest⟩⟩⟩⟩⟩⟩
    case cons.cons.cons.cons.cons.nil => rfl
    all_goals
      simp only [List.length_cons, List.length_nil] at hwhole
      omega

theorem eights_eq_ok {bits : List Bool} {b : Bytes} (h : eights bits = .ok b) :
    ∃ pad, bits = (b.flatMap fun x => toBits 8 x.toNat) ++ pad ∧ pad.length < 5 ∧
      pad.all (!·) = true := by
  induction bits using eights.induct generalizing b with
  | case1 x₁ x₂ x₃ x₄ x₅ x₆ x₇ x₈ bits ih =>
    unfold eights at h
    obtain ⟨rest, hrest, hpure⟩ := of_bind_eq_ok h
    cases hpure
    obtain ⟨pad, rfl, hlen, hzero⟩ := ih hrest
    have hbyte : ∀ x₁ x₂ x₃ x₄ x₅ x₆ x₇ x₈ : Bool,
        toBits 8 (UInt8.ofNat (ofBits [x₁, x₂, x₃, x₄, x₅, x₆, x₇, x₈])).toNat =
          [x₁, x₂, x₃, x₄, x₅, x₆, x₇, x₈] := by decide +kernel
    refine ⟨pad, ?_, hlen, hzero⟩
    rw [List.flatMap_cons, hbyte]
    rfl
  | case2 bits hlong hpad =>
    rw [eights.eq_2 bits hlong, if_pos hpad] at h
    cases h
    exact ⟨bits, rfl, hpad⟩
  | case3 bits hlong hpad =>
    rw [eights.eq_2 bits hlong, if_neg hpad] at h
    cases h

theorem base32Encode_base32Decode {s : Text} {b : Bytes} (h : base32Decode s = .ok b) :
    base32Encode b = s := by
  unfold base32Decode at h
  change (s.mapM digitOf >>= fun digits => eights digits.flatten) = .ok b at h
  obtain ⟨digits, hdigits, heights⟩ := of_bind_eq_ok h
  obtain ⟨hfive, hs⟩ := fives_digits hdigits
  obtain ⟨pad, hbits, hlen, hzero⟩ := eights_eq_ok heights
  rw [hbits] at hfive hs
  unfold base32Encode
  rw [← hs, fives_append_zeros hlen hzero hfive]

theorem length_base32Encode (b : Bytes) : (base32Encode b).length = (8 * b.length + 4) / 5 := by
  have hbits : (b.flatMap fun x => toBits 8 x.toNat).length = 8 * b.length := by
    induction b with
    | nil => rfl
    | cons x b ih =>
      rw [List.flatMap_cons, List.length_append, ih, toBits_8]
      simp only [List.length_cons, List.length_nil]
      omega
  unfold base32Encode
  rw [length_fives, hbits]

theorem sampleTexts_strict : sampleTexts.Strict where
  length_base32 := length_base32Encode
  base32_fromBase32 := base32Encode_base32Decode

end AtomVault.Live
