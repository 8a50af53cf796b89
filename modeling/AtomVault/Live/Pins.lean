import AtomVault.Live.Link

/-!
# Certificate pins (`discovery/blind.rs`)

`none` is a panic: `str` is cut at a byte that is inside of a character.
-/

namespace AtomVault.Live.Pins

open Lib

/-! ## Reading -/

/-- `s.split_at(n)`, and its panic off a character boundary. -/
def splitAtByte : Nat → Text → Option (Text × Text)
  | 0, s => some ([], s)
  | _ + 1, [] => none
  | n + 1, c :: s =>
    if c.utf8Size ≤ n + 1 then
      (splitAtByte (n + 1 - c.utf8Size) s).map fun (s, t) => (c :: s, t)
    else none

/-- `&s[start..stop]` -/
def strSlice (s : Text) (start stop : Nat) : Option Text := do
  let (_, rest) ← splitAtByte start s
  let (piece, _) ← splitAtByte (stop - start) rest
  return piece

/-- `char::to_digit(16)` -/
def toDigit (c : Char) : Option Nat :=
  if 48 ≤ c.toNat ∧ c.toNat ≤ 57 then some (c.toNat - 48)
  else if 97 ≤ c.toNat ∧ c.toNat ≤ 102 then some (c.toNat - 87)
  else if 65 ≤ c.toNat ∧ c.toNat ≤ 70 then some (c.toNat - 55)
  else none

/-- The digits of `u8::from_str_radix(_, 16)`, `acc` being what the ones before say. -/
def readDigits : Nat → Text → Option Nat
  | acc, [] => some acc
  | acc, c :: s => do
    let d ← toDigit c
    if acc * 16 + d < 256 then readDigits (acc * 16 + d) s else none

/-- `u8::from_str_radix(s, 16)`: a plus may stand in front of the digits. -/
def fromStrRadix (s : Text) : Option UInt8 :=
  match s with
  | [] | ['+'] | ['-'] => none
  | '+' :: digits => (readDigits 0 digits).map UInt8.ofNat
  | digits => (readDigits 0 digits).map UInt8.ofNat

/-- What colons and whitespace leave of a text. -/
def stripped (u : Unicode) (text : Text) : Text :=
  text.filter fun c => c ≠ ':' ∧ ¬ u.isWhitespace c

def pinLoop (hex : Text) (out : Bytes) : List Nat → Option (Except Error Bytes)
  | [] => some (.ok out)
  | i :: is => do
    match fromStrRadix (← strSlice hex (i * 2) (i * 2 + 2)) with
    | none => return .error (.discovery "a certificate pin must be hexadecimal")
    | some byte => pinLoop hex (out ++ [byte]) is

def parsePin (u : Unicode) (text : Text) : Option (Except Error CertPin) := do
  let hex := stripped u text
  if (utf8 hex).length ≠ 64 then
    return .error (.discovery
      s!"a certificate pin is 32 hex bytes (64 characters), got {(utf8 hex).length}")
  match ← pinLoop hex [] (List.range 32) with
  | .error e => return .error e
  | .ok out => return .ok (← expectArray 32 out)

/-! ## What a pin denotes -/

/-- Pairs of hexadecimal digits, and the bytes that they are. -/
inductive Denotes : Text → Bytes → Prop
  | nil : Denotes [] []
  | pair {hi lo : Char} {h l : Nat} {s : Text} {b : Bytes} : toDigit hi = some h →
      toDigit lo = some l → Denotes s b → Denotes (hi :: lo :: s) (.ofNat (16 * h + l) :: b)

/-- `parse_pin` on one text: it returns, and accepts 64 digits only, as the bytes that they are. -/
structure PinExact (u : Unicode) (text : Text) : Prop where
  returns : parsePin u text ≠ none
  accepts : ∀ pin, parsePin u text = some (.ok pin) ↔ Denotes (stripped u text) pin.toList

/-- Pairs that the integer parser reads: the first of two characters may be a plus. -/
inductive Reads : Text → Bytes → Prop
  | nil : Reads [] []
  | pair {hi lo : Char} {h l : Nat} {s : Text} {b : Bytes} :
      (toDigit hi = some h ∨ hi = '+' ∧ h = 0) → toDigit lo = some l → Reads s b →
      Reads (hi :: lo :: s) (.ofNat (16 * h + l) :: b)

/-- The next two bytes end inside of a character. -/
inductive Cuts : Text → Prop
  | wide {c : Char} {s : Text} : 3 ≤ c.utf8Size → Cuts (c :: s)
  | second {c d : Char} {s : Text} : c.utf8Size = 1 → 2 ≤ d.utf8Size → Cuts (c :: d :: s)

/-- 64 bytes that are read with a plus among them, or up to where a character is cut. -/
def Slips (hex : Text) : Prop :=
  (utf8 hex).length = 64 ∧ ∃ pairs bytes rest, hex = pairs ++ rest ∧ Reads pairs bytes ∧
    (rest = [] ∧ '+' ∈ pairs ∨ Cuts rest)

/-- `{n:x}` and `{n:X}` of one digit. -/
def hexDigit (upper : Bool) (n : Nat) : Char :=
  Char.ofNat (if n < 10 then 48 + n else if upper then 55 + n else 87 + n)

def formatPin (upper : Bool) (pin : CertPin) : Text :=
  pin.toList.flatMap fun x => [hexDigit upper (x.toNat / 16), hexDigit upper (x.toNat % 16)]

/-- The second text is the first with colons and whitespace put in. -/
inductive Spaced (u : Unicode) : Text → Text → Prop
  | nil : Spaced u [] []
  | keep (c : Char) {s t : Text} : Spaced u s t → Spaced u (c :: s) (c :: t)
  | add {c : Char} {s t : Text} : c = ':' ∨ u.isWhitespace c = true → Spaced u s t →
      Spaced u s (c :: t)

section Digits

variable {c hi lo : Char} {d h l : Nat}

theorem toDigit_lt (h : toDigit c = some d) : c.toNat < 128 ∧ d < 16 ∧ c ≠ '+' := by
  have hrange : c.toNat < 128 ∧ d < 16 ∧ c.toNat ≠ 43 := by
    unfold toDigit at h
    split at h
    · cases h
      omega
    split at h
    · cases h
      omega
    split at h
    · cases h
      omega
    · cases h
  obtain ⟨hascii, hsmall, hplus⟩ := hrange
  refine ⟨hascii, hsmall, ?_⟩
  rintro rfl
  exact hplus rfl

theorem utf8Size_of_ascii (h : c.toNat < 128) : c.utf8Size = 1 := by
  rw [Char.utf8Size_eq_one_iff, UInt32.le_iff_toNat_le]
  exact Nat.le_of_lt_succ h

theorem toNat_of_utf8Size (h : c.utf8Size ≠ 1) : 128 ≤ c.toNat := by
  by_contra hlt
  exact h (utf8Size_of_ascii (by omega))

theorem toDigit_of_wide (h : c.utf8Size ≠ 1) : toDigit c = none := by
  cases hd : toDigit c with
  | none => rfl
  | some d =>
    have := (toDigit_lt hd).1
    have := toNat_of_utf8Size h
    omega

theorem fromStrRadix_wide (h : c.utf8Size ≠ 1) : fromStrRadix [c] = none := by
  have hdigit := toDigit_of_wide h
  unfold fromStrRadix
  split
  · rfl
  · rfl
  · rfl
  · rename_i heq
    cases heq
    exact absurd rfl h
  · simp [readDigits, hdigit]

theorem readDigits_two :
    readDigits 0 [hi, lo] = (toDigit hi).bind fun h => (toDigit lo).map (16 * h + ·) := by
  unfold readDigits readDigits readDigits
  cases hh : toDigit hi with
  | none => rfl
  | some h =>
    have hlt := (toDigit_lt hh).2.1
    have hfirst : 0 * 16 + h < 256 := by omega
    cases hl : toDigit lo with
    | none => simp
    | some l =>
      have hlt' := (toDigit_lt hl).2.1
      have hboth : h * 16 + l < 256 := by omega
      simp [hboth, Nat.mul_comm]
      omega

theorem readDigits_one : readDigits 0 [lo] = toDigit lo := by
  unfold readDigits readDigits
  cases hl : toDigit lo with
  | none => rfl
  | some l =>
    have hlt := (toDigit_lt hl).2.1
    have : l < 256 := by omega
    simp [this]

theorem fromStrRadix_pair {b : UInt8} :
    fromStrRadix [hi, lo] = some b ↔ ∃ h l, (toDigit hi = some h ∨ hi = '+' ∧ h = 0) ∧
      toDigit lo = some l ∧ b = .ofNat (16 * h + l) := by
  by_cases hplus : hi = '+'
  · subst hplus
    have hnone : toDigit '+' = none := by decide
    have heq : fromStrRadix ['+', lo] = (toDigit lo).map UInt8.ofNat := by
      rw [← readDigits_one]
      rfl
    rw [heq]
    simp [hnone, eq_comm]
  · have heq : fromStrRadix [hi, lo] = (readDigits 0 [hi, lo]).map UInt8.ofNat := by
      unfold fromStrRadix
      split <;> simp_all
    rw [heq, readDigits_two]
    cases toDigit hi with
    | none => simp [hplus]
    | some h => cases toDigit lo <;> simp [hplus, eq_comm]

end Digits

/-! ## One step of the loop -/

section Steps

variable {pre rest s hex : Text} {out bytes : Bytes} {n i : Nat} {c : Char}

theorem utf8_cons (c : Char) (s : Text) :
    (utf8 (c :: s)).length = c.utf8Size + (utf8 s).length := by
  rw [utf8, List.flatMap_cons, List.length_append, String.length_utf8EncodeChar]
  rfl

theorem splitAtByte_cons (h : 0 < n) :
    splitAtByte n (c :: s) = if c.utf8Size ≤ n then
      (splitAtByte (n - c.utf8Size) s).map fun (s, t) => (c :: s, t) else none := by
  obtain ⟨n, rfl⟩ := Nat.exists_eq_succ_of_ne_zero h.ne'
  rw [splitAtByte]

theorem splitAtByte_append (pre rest : Text) :
    splitAtByte (utf8 pre).length (pre ++ rest) = some (pre, rest) := by
  induction pre with
  | nil => rw [utf8, List.flatMap_nil, List.length_nil, splitAtByte, List.nil_append]
  | cons c pre ih =>
    have hpos := c.utf8Size_pos
    rw [utf8_cons, List.cons_append, splitAtByte_cons (by omega), if_pos (Nat.le_add_right _ _),
      Nat.add_sub_cancel_left, ih]
    rfl

theorem strSlice_append (h : (utf8 pre).length = i * 2) (rest : Text) :
    strSlice (pre ++ rest) (i * 2) (i * 2 + 2) = (splitAtByte 2 rest).map (·.1) := by
  unfold strSlice
  rw [← h, splitAtByte_append, Nat.add_sub_cancel_left]
  simp only [Option.bind_eq_bind, Option.bind_some]
  cases splitAtByte 2 rest <;> rfl

theorem splitAtByte_pair {hi lo : Char} (hhi : hi.utf8Size = 1) (hlo : lo.utf8Size = 1)
    (s : Text) : splitAtByte 2 (hi :: lo :: s) = some ([hi, lo], s) := by
  rw [splitAtByte_cons (by decide), if_pos (by omega), hhi, splitAtByte_cons (by decide),
    if_pos (by omega), hlo]
  cases s <;> rfl

theorem splitAtByte_two (hc : c.utf8Size = 2) (s : Text) :
    splitAtByte 2 (c :: s) = some ([c], s) := by
  rw [splitAtByte_cons (by decide), if_pos (by omega), hc]
  cases s <;> rfl

theorem splitAtByte_cuts (h : Cuts rest) : splitAtByte 2 rest = none := by
  cases h with
  | wide hwide => rw [splitAtByte_cons (by decide), if_neg (by omega)]
  | second hfirst hsecond =>
    rw [splitAtByte_cons (by decide), if_pos (by omega), hfirst, splitAtByte_cons (by decide),
      if_neg (by omega)]
    rfl

theorem Reads.ascii (h : Reads s bytes) : ∀ c ∈ s, c.utf8Size = 1 := by
  induction h with
  | nil => simp
  | pair hhi hlo _ ih =>
    intro c hc
    rcases List.mem_cons.mp hc with rfl | hc
    · rcases hhi with hd | ⟨rfl, -⟩
      · exact utf8Size_of_ascii (toDigit_lt hd).1
      · rfl
    rcases List.mem_cons.mp hc with rfl | hc
    · exact utf8Size_of_ascii (toDigit_lt hlo).1
    · exact ih c hc

theorem length_of_ascii (h : ∀ c ∈ s, c.utf8Size = 1) : (utf8 s).length = s.length := by
  induction s with
  | nil => rfl
  | cons c s ih =>
    rw [utf8_cons, h c List.mem_cons_self, ih fun d hd => h d (List.mem_cons_of_mem _ hd),
      List.length_cons, Nat.add_comm]

theorem Reads.length (h : Reads s bytes) : s.length = 2 * bytes.length := by
  induction h with
  | nil => rfl
  | pair _ _ _ ih =>
    simp only [List.length_cons, ih]
    omega

theorem pinLoop_succ (hpre : (utf8 pre).length = i * 2) :
    pinLoop (pre ++ rest) out (List.range' i (n + 1)) =
      (splitAtByte 2 rest).bind fun p =>
        match fromStrRadix p.1 with
        | none => some (.error (.discovery "a certificate pin must be hexadecimal"))
        | some byte => pinLoop (pre ++ rest) (out ++ [byte]) (List.range' (i + 1) n) := by
  rw [List.range'_succ, pinLoop, strSlice_append hpre]
  cases splitAtByte 2 rest with
  | none => rfl
  | some p =>
    simp only [Option.map_some, Option.bind_eq_bind, Option.bind_some]
    cases fromStrRadix p.1 <;> rfl

theorem pinLoop_reads (rest : Text) (out : Bytes) (n : Nat) (h : Reads s bytes)
    (hpre : (utf8 pre).length = i * 2) :
    pinLoop (pre ++ (s ++ rest)) out (List.range' i (bytes.length + n)) =
      pinLoop (pre ++ (s ++ rest)) (out ++ bytes) (List.range' (i + bytes.length) n) := by
  induction h generalizing pre i out with
  | nil => simp
  | @pair hi lo h l s b hhi hlo hrest ih =>
    have hascii := (Reads.pair hhi hlo hrest).ascii
    have hone := hascii hi List.mem_cons_self
    have hone' := hascii lo (List.mem_cons_of_mem _ List.mem_cons_self)
    have hbyte := fromStrRadix_pair.mpr ⟨h, l, hhi, hlo, rfl⟩
    have hnext : (utf8 (pre ++ [hi, lo])).length = (i + 1) * 2 := by
      rw [utf8_append, List.length_append, hpre, utf8_cons, utf8_cons, hone, hone']
      simp [utf8]
      omega
    have hcat : pre ++ (hi :: lo :: s ++ rest) = (pre ++ [hi, lo]) ++ (s ++ rest) := by simp
    have hcount : (UInt8.ofNat (16 * h + l) :: b).length + n = b.length + n + 1 := by
      simp only [List.length_cons]
      omega
    have hindex : i + (UInt8.ofNat (16 * h + l) :: b).length = i + 1 + b.length := by
      simp only [List.length_cons]
      omega
    rw [hcount, pinLoop_succ hpre, List.cons_append, List.cons_append,
      splitAtByte_pair hone hone']
    simp only [Option.bind_some, hbyte]
    rw [← List.cons_append, ← List.cons_append, hcat, ih _ hnext, hindex, List.append_assoc out]
    rfl

end Steps

/-! ## The whole pin -/

/-- The next two bytes are characters, but no number. -/
inductive Refused : Text → Prop
  | wide {c : Char} {s : Text} : c.utf8Size = 2 → Refused (c :: s)
  | pair {c d : Char} {s : Text} : c.utf8Size = 1 → d.utf8Size = 1 →
      fromStrRadix [c, d] = none → Refused (c :: d :: s)

section Pins

variable {u : Unicode} {text hex pairs rest : Text} {bytes : Bytes}

theorem exists_reads {n : Nat} (h : (utf8 hex).length = 2 * n) :
    ∃ pairs bytes rest, hex = pairs ++ rest ∧ Reads pairs bytes ∧
      (rest = [] ∨ Cuts rest ∨ Refused rest) := by
  induction n generalizing hex with
  | zero =>
    cases hex with
    | nil => exact ⟨[], [], [], rfl, .nil, .inl rfl⟩
    | cons c s =>
      rw [utf8_cons] at h
      have := c.utf8Size_pos
      omega
  | succ n ih =>
    cases hex with
    | nil => simp [utf8] at h
    | cons c s =>
      rw [utf8_cons] at h
      have hpos := c.utf8Size_pos
      rcases Nat.lt_or_ge c.utf8Size 2 with hone | hwide
      · have hc : c.utf8Size = 1 := by omega
        cases s with
        | nil =>
          simp [utf8] at h
          omega
        | cons d s =>
          rw [utf8_cons] at h
          have hpos' := d.utf8Size_pos
          rcases Nat.lt_or_ge d.utf8Size 2 with hone' | hwide'
          · have hd : d.utf8Size = 1 := by omega
            cases hbyte : fromStrRadix [c, d] with
            | none => exact ⟨[], [], _, rfl, .nil, .inr (.inr (.pair hc hd hbyte))⟩
            | some b =>
              obtain ⟨x, y, hx, hy, rfl⟩ := fromStrRadix_pair.mp hbyte
              obtain ⟨pairs, bytes, rest, rfl, hreads, hrest⟩ := @ih s (by omega)
              exact ⟨c :: d :: pairs, _, rest, rfl, .pair hx hy hreads, hrest⟩
          · exact ⟨[], [], _, rfl, .nil, .inr (.inl (.second hc hwide'))⟩
      · rcases Nat.lt_or_ge c.utf8Size 3 with htwo | hthree
        · exact ⟨[], [], _, rfl, .nil, .inr (.inr (.wide (by omega)))⟩
        · exact ⟨[], [], _, rfl, .nil, .inr (.inl (.wide hthree))⟩

theorem utf8_pos_of_cuts (h : Cuts rest ∨ Refused rest) : 0 < (utf8 rest).length := by
  have hcons : ∀ (c : Char) (s : Text), 0 < (utf8 (c :: s)).length := fun c s => by
    rw [utf8_cons]
    have := c.utf8Size_pos
    omega
  rcases h with (_ | _) | (_ | _) <;> exact hcons _ _

theorem pinLoop_stuck (hlen : (utf8 (pairs ++ rest)).length = 64) (h : Reads pairs bytes)
    (hrest : 0 < (utf8 rest).length) :
    ∃ n, pinLoop (pairs ++ rest) [] (List.range 32) = (splitAtByte 2 rest).bind fun p =>
      match fromStrRadix p.1 with
      | none => some (.error (.discovery "a certificate pin must be hexadecimal"))
      | some byte =>
        pinLoop (pairs ++ rest) (bytes ++ [byte]) (List.range' (bytes.length + 1) n) := by
  have hpairs := length_of_ascii h.ascii
  have hcount := h.length
  rw [utf8_append, List.length_append, hpairs] at hlen
  obtain ⟨n, hn⟩ : ∃ n, 32 = bytes.length + (n + 1) := ⟨31 - bytes.length, by omega⟩
  refine ⟨n, ?_⟩
  have hpassed := pinLoop_reads rest [] (n + 1) h
    (show (utf8 []).length = 0 * 2 from rfl)
  rw [← hn, ← List.range_eq_range', Nat.zero_add, List.nil_append, List.nil_append] at hpassed
  rw [hpassed]
  exact pinLoop_succ (by omega)

theorem parsePin_short (h : (utf8 (stripped u text)).length ≠ 64) :
    ∃ e, parsePin u text = some (.error e) := by
  unfold parsePin
  dsimp only
  rw [if_pos h]
  exact ⟨_, rfl⟩

theorem parsePin_long (h : (utf8 (stripped u text)).length = 64) :
    parsePin u text = (pinLoop (stripped u text) [] (List.range 32)).bind fun
      | .error e => some (.error e)
      | .ok out => (expectArray 32 out).map .ok := by
  unfold parsePin
  dsimp only
  rw [if_neg (not_not.mpr h)]
  cases pinLoop (stripped u text) [] (List.range 32) with
  | none => rfl
  | some r =>
    cases r with
    | error e => rfl
    | ok out =>
      simp only [Option.bind_eq_bind, Option.bind_some]
      cases expectArray 32 out <;> rfl

theorem parsePin_reads (h : Reads (stripped u text) bytes)
    (hlen : (utf8 (stripped u text)).length = 64) :
    ∃ pin : CertPin, pin.toList = bytes ∧ parsePin u text = some (.ok pin) := by
  have hascii := length_of_ascii h.ascii
  have hcount := h.length
  have hbytes : bytes.length = 32 := by omega
  have hpassed := pinLoop_reads [] [] 0 h
    (show (utf8 []).length = 0 * 2 from rfl)
  rw [Nat.add_zero, hbytes, ← List.range_eq_range', List.nil_append, List.append_nil,
    List.nil_append] at hpassed
  refine ⟨⟨bytes, hbytes⟩, rfl, ?_⟩
  rw [parsePin_long hlen, hpassed]
  exact congrArg (Option.map Except.ok) (expectArray_of_length hbytes)

theorem parsePin_cuts (hhex : stripped u text = pairs ++ rest) (h : Reads pairs bytes)
    (hlen : (utf8 (stripped u text)).length = 64) (hrest : Cuts rest) :
    parsePin u text = none := by
  obtain ⟨n, hstuck⟩ := pinLoop_stuck (hhex ▸ hlen) h (utf8_pos_of_cuts (.inl hrest))
  rw [parsePin_long hlen, hhex, hstuck, splitAtByte_cuts hrest]
  rfl

theorem parsePin_refused (hhex : stripped u text = pairs ++ rest) (h : Reads pairs bytes)
    (hlen : (utf8 (stripped u text)).length = 64) (hrest : Refused rest) :
    ∃ e, parsePin u text = some (.error e) := by
  obtain ⟨n, hstuck⟩ := pinLoop_stuck (hhex ▸ hlen) h (utf8_pos_of_cuts (.inr hrest))
  rw [parsePin_long hlen, hhex, hstuck]
  cases hrest with
  | wide hc =>
    rw [splitAtByte_two hc, Option.bind_some, fromStrRadix_wide (by omega)]
    exact ⟨_, rfl⟩
  | pair hc hd hnone =>
    rw [splitAtByte_pair hc hd, Option.bind_some, hnone]
    exact ⟨_, rfl⟩

theorem Denotes.reads (h : Denotes hex bytes) : Reads hex bytes := by
  induction h with
  | nil => exact .nil
  | pair hhi hlo _ ih => exact .pair (.inl hhi) hlo ih

theorem Denotes.plus (h : Denotes hex bytes) : '+' ∉ hex := by
  induction h with
  | nil => simp
  | pair hhi hlo _ ih =>
    have hne := (toDigit_lt hhi).2.2
    have hne' := (toDigit_lt hlo).2.2
    simp [hne.symm, hne'.symm, ih]

theorem Reads.denotes (h : Reads hex bytes) (hplus : '+' ∉ hex) : Denotes hex bytes := by
  induction h with
  | nil => exact .nil
  | pair hhi hlo _ ih =>
    simp only [List.mem_cons, not_or] at hplus
    rcases hhi with hhi | ⟨rfl, -⟩
    · exact .pair hhi hlo (ih hplus.2.2)
    · exact absurd rfl hplus.1

theorem Reads.unique {other : Bytes} (h : Reads hex bytes) (h' : Reads hex other) :
    bytes = other := by
  induction h generalizing other with
  | nil =>
    cases h'
    rfl
  | pair hhi hlo _ ih =>
    cases h' with
    | pair hhi' hlo' hrest' =>
      have hl := Option.some.inj (hlo.symm.trans hlo')
      have hh : _ = _ := Option.some.inj
        ((fromStrRadix_pair.mpr ⟨_, _, hhi, hlo, rfl⟩).symm.trans
          (fromStrRadix_pair.mpr ⟨_, _, hhi', hlo', rfl⟩))
      rw [hh, ih hrest']

theorem length_of_denotes {pin : CertPin} (h : Denotes hex pin.toList) :
    (utf8 hex).length = 64 := by
  have hcount := h.reads.length
  rw [pin.toList_length] at hcount
  rw [length_of_ascii h.reads.ascii, hcount]

theorem parsePin_denotes {pin : CertPin} (h : Denotes (stripped u text) pin.toList) :
    parsePin u text = some (.ok pin) := by
  obtain ⟨pin', hpin', hparse⟩ := parsePin_reads h.reads (length_of_denotes h)
  rw [hparse, Subtype.ext hpin']

theorem pinExact_of_error {e : Error} (h : parsePin u text = some (.error e)) :
    PinExact u text := by
  refine ⟨by simp [h], fun pin => ⟨fun hok => ?_, parsePin_denotes⟩⟩
  rw [h] at hok
  cases hok

theorem pinExact_of_not_slips (h : ¬ Slips (stripped u text)) : PinExact u text := by
  by_cases hlen : (utf8 (stripped u text)).length = 64
  · obtain ⟨pairs, bytes, rest, hhex, hreads, hrest⟩ := exists_reads (n := 32) hlen
    rcases hrest with rfl | hcuts | hrefused
    · rw [List.append_nil] at hhex
      have hplus : '+' ∉ pairs := fun hmem =>
        h ⟨hlen, pairs, bytes, [], by rw [hhex, List.append_nil], hreads, .inl ⟨rfl, hmem⟩⟩
      rw [← hhex] at hreads hplus
      obtain ⟨pin, hpin, hparse⟩ := parsePin_reads hreads hlen
      refine ⟨by simp [hparse], fun other => ⟨fun hok => ?_, parsePin_denotes⟩⟩
      rw [hparse] at hok
      cases hok
      rw [hpin]
      exact hreads.denotes hplus
    · exact absurd ⟨hlen, pairs, bytes, rest, hhex, hreads, .inr hcuts⟩ h
    · obtain ⟨e, he⟩ := parsePin_refused hhex hreads hlen hrefused
      exact pinExact_of_error he
  · obtain ⟨e, he⟩ := parsePin_short hlen
    exact pinExact_of_error he

theorem not_pinExact_of_slips (h : Slips (stripped u text)) : ¬ PinExact u text := by
  obtain ⟨hlen, pairs, bytes, rest, hhex, hreads, ⟨rfl, hplus⟩ | hcuts⟩ := h
  · rw [List.append_nil] at hhex
    rw [← hhex] at hreads hplus
    intro hexact
    obtain ⟨pin, -, hparse⟩ := parsePin_reads hreads hlen
    exact ((hexact.accepts pin).mp hparse).plus hplus
  · exact fun hexact => hexact.returns (parsePin_cuts hhex hreads hlen hcuts)

end Pins

/-! ## Formatted pins -/

section Formatted

variable {u : Unicode} {s t : Text}

theorem toDigit_hexDigit (upper : Bool) {n : Nat} (h : n < 16) :
    toDigit (hexDigit upper n) = some n := by
  have hall : ∀ upper, ∀ n < 16, toDigit (hexDigit upper n) = some n := by decide
  exact hall upper n h

theorem denotes_format (upper : Bool) (b : Bytes) :
    Denotes (b.flatMap fun x => [hexDigit upper (x.toNat / 16), hexDigit upper (x.toNat % 16)])
      b := by
  induction b with
  | nil => exact .nil
  | cons x b ih =>
    have hx := x.toNat_lt
    have h := Denotes.pair (toDigit_hexDigit upper (show x.toNat / 16 < 16 by omega))
      (toDigit_hexDigit upper (show x.toNat % 16 < 16 by omega)) ih
    rwa [Nat.div_add_mod, UInt8.ofNat_toNat] at h

theorem Denotes.digits {b : Bytes} (h : Denotes s b) : ∀ c ∈ s, ∃ d, toDigit c = some d := by
  induction h with
  | nil => simp
  | pair hhi hlo _ ih =>
    intro c hc
    rcases List.mem_cons.mp hc with rfl | hc
    · exact ⟨_, hhi⟩
    rcases List.mem_cons.mp hc with rfl | hc
    · exact ⟨_, hlo⟩
    · exact ih c hc

theorem toDigit_kept (hu : u.Plain) {c : Char} {d : Nat} (h : toDigit c = some d) :
    c ≠ ':' ∧ u.isWhitespace c = false := by
  constructor
  · rintro rfl
    cases h
  · have hwhite := hu.isWhitespace_ascii c (toDigit_lt h).1
    have hge : 48 ≤ c.toNat := by
      by_contra hlt
      rw [toDigit, if_neg (by omega), if_neg (by omega), if_neg (by omega)] at h
      cases h
    rw [Bool.eq_false_iff, ne_eq, hwhite]
    omega

theorem stripped_spaced (h : Spaced u s t)
    (hkept : ∀ c ∈ s, c ≠ ':' ∧ u.isWhitespace c = false) : stripped u t = s := by
  induction h with
  | nil => rfl
  | keep c _ ih =>
    have hc := hkept c List.mem_cons_self
    rw [stripped, List.filter_cons_of_pos (by simp [hc])]
    exact congrArg (c :: ·) (ih fun d hd => hkept d (List.mem_cons_of_mem _ hd))
  | add hc _ ih =>
    rw [stripped, List.filter_cons_of_neg (by rcases hc with rfl | hc <;> simp [*])]
    exact ih hkept

theorem Spaced.refl (u : Unicode) (s : Text) : Spaced u s s := by
  induction s with
  | nil => exact .nil
  | cons c s ih => exact .keep c ih

theorem parsePin_spaced (hu : u.Plain) {upper : Bool} {pin : CertPin}
    (h : Spaced u (formatPin upper pin) t) : parsePin u t = some (.ok pin) := by
  have hdenotes := denotes_format upper pin.toList
  apply parsePin_denotes
  rw [stripped_spaced h fun c hc => by
    obtain ⟨d, hd⟩ := hdenotes.digits c hc
    exact toDigit_kept hu hd]
  exact hdenotes

end Formatted

/-- `parse_pin` is exact up to a plus in front of a digit and characters of several bytes. -/
theorem parse_pin_iff {u : Unicode} (hu : u.Plain) :
    (∀ text, PinExact u text ↔ ¬ Slips (stripped u text)) ∧
      ∀ upper pin text, Spaced u (formatPin upper pin) text → parsePin u text = some (.ok pin) :=
  ⟨fun _ => ⟨fun h hslips => not_pinExact_of_slips hslips h, pinExact_of_not_slips⟩,
    fun _ _ _ => parsePin_spaced hu⟩

theorem parse_pin_iff_colon :
    parsePin sampleUnicode (':' :: formatPin true (List.Vector.replicate 32 0xAB)) =
      some (.ok (List.Vector.replicate 32 0xAB)) :=
  (parse_pin_iff sampleUnicode_plain).2 _ _ _ (.add (.inl rfl) (Spaced.refl _ _))

/-- A plus in front of the last digit is accepted, and a character of two bytes behind the first
digit is cut. -/
theorem pin_of_plus_and_cut :
    ¬ PinExact sampleUnicode (List.replicate 62 '0' ++ ['+', '7']) ∧
      ¬ PinExact sampleUnicode ('0' :: 'é' :: List.replicate 61 '0') := by
  constructor
  · intro h
    have hparse : parsePin sampleUnicode (List.replicate 62 '0' ++ ['+', '7']) =
        some (.ok ⟨List.replicate 31 0 ++ [7], rfl⟩) := by decide +kernel
    exact ((h.accepts _).mp hparse).plus (by decide +kernel)
  · intro h
    exact h.returns (by decide +kernel)

end AtomVault.Live.Pins
