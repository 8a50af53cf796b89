import AtomVault.Lib.Lossy
import AtomVault.Live.Base32
import AtomVault.Live.Pairing
import AtomVault.Live.Pins

/-!
# Typing a pairing code (`pairing.rs`)

A code is shown in groups of five bytes and typed again. `none` is a panic: `str` is cut at a byte
that is inside of a character.
-/

open Lib

namespace AtomVault.Live

/-- What the Unicode tables say of small letters, and of U+FFFD. -/
structure Unicode.Lowers (u : Unicode) : Prop where
  idempotent : ∀ c, ∀ d ∈ u.toLowercase [c], u.toLowercase [d] = [d]
  kept : ∀ c, u.isWhitespace c = false → c ≠ '-' →
    ∀ d ∈ u.toLowercase [c], u.isWhitespace d = false ∧ d ≠ '-'
  replacement : u.isWhitespace Lossy.REPLACEMENT = false ∧
    u.toLowercase [Lossy.REPLACEMENT] = [Lossy.REPLACEMENT]

namespace Pairing.PairingCode

def CODE_BITS : Nat := 55
def CODE_CHARS : Nat := (CODE_BITS + 4) / 5

/-- What `parse` makes of a text, if anything is left of it. -/
def normalised (u : Unicode) (input : Text) : Text :=
  (input.filter fun c => !u.isWhitespace c && c ≠ '-').flatMap fun c => u.toLowercase [c]

def parse (u : Unicode) (input : Text) : Except Error PairingCode :=
  if normalised u input = [] then .error (.pairing "pairing code is empty")
  else .ok ⟨normalised u input⟩

def display (c : PairingCode) : Text :=
  List.intercalate ['-'] ((Lossy.chunks 5 (utf8 c.text)).map Lossy.fromUtf8Lossy)

/-- `raw` is what the OS generator returns. -/
def generate (u : Unicode) (tx : Texts) (raw : Except String (List.Vector UInt8 7)) :
    Option (Except Error PairingCode) :=
  match raw with
  | .error e => some (.error (.pairing s!"OS random number generator unavailable: {e}"))
  | .ok raw => do
    let encoded := u.toLowercase (tx.base32 raw.toList)
    let (code, _) ← Pins.splitAtByte CODE_CHARS encoded
    return .ok ⟨code⟩

/-! ## One character of a code -/

theorem toLower_wide {c : Char} (h : 128 ≤ c.toNat) : c.toLower = c := by
  unfold Char.toLower
  rw [dif_neg]
  rintro ⟨-, hle⟩
  have hz : c.toNat ≤ 90 := UInt32.le_iff_toNat_le.mp hle
  omega

theorem toLower_toLower (c : Char) : c.toLower.toLower = c.toLower := by
  rcases Nat.lt_or_ge c.toNat 128 with hascii | hwide
  · have hall : ∀ n < 128, (Char.ofNat n).toLower.toLower = (Char.ofNat n).toLower := by
      decide +kernel
    have hc := hall c.toNat hascii
    rwa [Char.ofNat_toNat] at hc
  · rw [toLower_wide hwide, toLower_wide hwide]

/-- What `parse` makes of one character: nothing of whitespace and hyphens. -/
def letters (u : Unicode) (c : Char) : Text :=
  if u.isWhitespace c = true ∨ c = '-' then [] else u.toLowercase [c]

/-- No letter of the code has bytes on both sides of a multiple of five. -/
def Unsplit (u : Unicode) : Nat → Text → Prop
  | _, [] => True
  | pos, c :: s =>
    Lossy.Unsplit 5 pos (letters u c) ∧ Unsplit u (pos + (utf8 (letters u c)).length) s

/-- The second text is the first with whitespace and hyphens put in or taken out, and ASCII letters
in the other case. -/
inductive Retyped (u : Unicode) : Text → Text → Prop
  | nil : Retyped u [] []
  | same {c d : Char} {s t : Text} : c.toLower = d.toLower → Retyped u s t →
      Retyped u (c :: s) (d :: t)
  | insert {c : Char} {s t : Text} : u.isWhitespace c = true ∨ c = '-' → Retyped u s t →
      Retyped u s (c :: t)
  | remove {c : Char} {s t : Text} : u.isWhitespace c = true ∨ c = '-' → Retyped u s t →
      Retyped u (c :: s) t

/-- The code `c`, which was typed as `input`, is the code of what is typed for it. -/
structure Survives (u : Unicode) (input : Text) (c : PairingCode) : Prop where
  displayed : parse u (display c) = .ok c
  idempotent : parse u c.text = .ok c
  typed : ∀ t, Retyped u input t → parse u t = .ok c
  retyped : ∀ t, Retyped u (display c) t → parse u t = .ok c

section Letters

variable {u : Unicode} {c d : Char} {s t : Text}

theorem normalised_eq (u : Unicode) (s : Text) : normalised u s = s.flatMap (letters u) := by
  unfold normalised
  induction s with
  | nil => rfl
  | cons c s ih =>
    rw [List.flatMap_cons, ← ih]
    unfold letters
    split
    · rename_i hdropped
      rw [List.filter_cons_of_neg (by rcases hdropped with h | rfl <;> simp [*])]
      rfl
    · rename_i hkept
      rw [not_or] at hkept
      rw [List.filter_cons_of_pos (by simp [hkept]), List.flatMap_cons]

theorem letters_hyphen (u : Unicode) : letters u '-' = [] := if_pos (.inr rfl)

theorem letters_of_mem (hl : u.Lowers) (h : d ∈ letters u c) : letters u d = [d] := by
  unfold letters at h
  split at h
  · cases h
  · rename_i hkept
    rw [not_or, Bool.not_eq_true] at hkept
    have hd := hl.kept c hkept.1 hkept.2 d h
    rw [letters, if_neg (by simp [hd]), hl.idempotent c d h]

theorem letters_replacement (hl : u.Lowers) :
    letters u Lossy.REPLACEMENT = [Lossy.REPLACEMENT] := by
  have hhyphen : Lossy.REPLACEMENT ≠ '-' := by decide
  rw [letters, if_neg (by simp [hl.replacement.1, hhyphen]), hl.replacement.2]

theorem flatMap_letters (h : ∀ d ∈ s, letters u d = [d]) : s.flatMap (letters u) = s := by
  induction s with
  | nil => rfl
  | cons c s ih =>
    rw [List.flatMap_cons, h c List.mem_cons_self,
      ih fun d hd => h d (List.mem_cons_of_mem _ hd)]
    rfl

theorem letters_of_normalised (hl : u.Lowers) : ∀ d ∈ normalised u s, letters u d = [d] := by
  intro d hd
  rw [normalised_eq] at hd
  obtain ⟨c, -, hc⟩ := List.mem_flatMap.mp hd
  exact letters_of_mem hl hc

/-- Whitespace and the hyphen, in ASCII. -/
def IsSeparator (n : Nat) : Prop := n = 32 ∨ 9 ≤ n ∧ n ≤ 13 ∨ n = 45

instance : DecidablePred IsSeparator :=
  fun n => inferInstanceAs (Decidable (n = 32 ∨ 9 ≤ n ∧ n ≤ 13 ∨ n = 45))

theorem isSeparator_toLower (h : c.toNat < 128) :
    IsSeparator c.toNat ↔ IsSeparator c.toLower.toNat := by
  have hall : ∀ n < 128,
      (IsSeparator (Char.ofNat n).toNat ↔ IsSeparator (Char.ofNat n).toLower.toNat) := by
    decide +kernel
  have hc := hall c.toNat h
  rwa [Char.ofNat_toNat] at hc

theorem eq_hyphen_iff : c = '-' ↔ c.toNat = 45 := by
  constructor
  · rintro rfl
    rfl
  · intro hc
    rw [← Char.ofNat_toNat c, hc]

theorem letters_ascii (hu : u.Plain) (h : c.toNat < 128) :
    letters u c = if IsSeparator c.toNat then [] else [c.toLower] := by
  have hiff : u.isWhitespace c = true ∨ c = '-' ↔ IsSeparator c.toNat := by
    rw [hu.isWhitespace_ascii c h, eq_hyphen_iff, or_assoc, IsSeparator]
  exact if_congr hiff rfl (hu.toLowercase_ascii [c] (by simpa using h))

theorem letters_same (hu : u.Plain) (h : c.toLower = d.toLower) : letters u c = letters u d := by
  by_cases hc : c.toNat < 128 <;> by_cases hd : d.toNat < 128
  · have hiff := (isSeparator_toLower hc).trans (h ▸ (isSeparator_toLower hd).symm)
    rw [letters_ascii hu hc, letters_ascii hu hd, h]
    exact if_congr hiff rfl rfl
  · have hlt := (toLower_ascii hc).1
    rw [h, toLower_wide (by omega)] at hlt
    omega
  · have hlt := (toLower_ascii hd).1
    rw [← h, toLower_wide (by omega)] at hlt
    omega
  · rw [toLower_wide (by omega), toLower_wide (by omega)] at h
    rw [h]

theorem normalised_retyped (hu : u.Plain) (h : Retyped u s t) :
    normalised u t = normalised u s := by
  rw [normalised_eq, normalised_eq]
  induction h with
  | nil => rfl
  | same hcase _ ih => rw [List.flatMap_cons, List.flatMap_cons, letters_same hu hcase, ih]
  | insert hc _ ih => rw [List.flatMap_cons, letters, if_pos hc, ih]; rfl
  | remove hc _ ih => rw [List.flatMap_cons, letters, if_pos hc, ih]; rfl

end Letters

/-! ## Codes as they are shown -/

section Shown

variable {u : Unicode} {tx : Texts} {s t input : Text} {c : PairingCode} {pos : Nat}

theorem parse_eq_ok : parse u s = .ok c ↔ c.text ≠ [] ∧ normalised u s = c.text := by
  obtain ⟨text⟩ := c
  unfold parse
  split
  · rename_i hempty
    refine ⟨fun h => (by cases h), fun h => ?_⟩
    exact absurd (h.2.symm.trans hempty) h.1
  · rename_i hne
    constructor
    · intro h
      cases h
      exact ⟨hne, rfl⟩
    · rintro ⟨-, rfl⟩
      rfl

theorem normalised_intercalate (u : Unicode) (groups : List Text) :
    normalised u (List.intercalate ['-'] groups) = groups.flatten.flatMap (letters u) := by
  rw [normalised_eq]
  induction groups with
  | nil => rfl
  | cons g groups ih =>
    cases groups with
    | nil => simp
    | cons next groups =>
      rw [List.intercalate_cons_cons, List.flatMap_append, List.flatMap_append, ih]
      simp only [List.flatten_cons, List.flatMap_append, List.flatMap_singleton, letters_hyphen,
        List.append_nil]

theorem normalised_display (u : Unicode) (c : PairingCode) :
    normalised u (display c) = (Lossy.shown 5 5 (utf8 c.text)).flatMap (letters u) := by
  rw [display, normalised_intercalate, Lossy.shown_full (by decide), Lossy.shown_zero,
    ← List.flatMap_def]

theorem countP_le_letters (u : Unicode) (s : Text) :
    s.countP (fun d => letters u d = [d]) ≤ (s.flatMap (letters u)).length := by
  induction s with
  | nil => exact le_refl _
  | cons d s ih =>
    rw [List.flatMap_cons, List.length_append, List.countP_cons]
    by_cases hd : letters u d = [d]
    · simp only [hd, decide_true, if_true, List.length_singleton]
      omega
    · rw [if_neg (by simp [hd])]
      omega

theorem unsplit_iff (u : Unicode) (input : Text) :
    Unsplit u pos input ↔ Lossy.Unsplit 5 pos (normalised u input) := by
  rw [normalised_eq]
  induction input generalizing pos with
  | nil => exact Iff.rfl
  | cons c input ih =>
    rw [Unsplit, List.flatMap_cons, Lossy.unsplit_append, ih]
    rfl

theorem parse_display_iff (hl : u.Lowers) (hne : c.text ≠ [])
    (hs : ∀ d ∈ c.text, letters u d = [d]) :
    parse u (display c) = .ok c ↔ Lossy.Unsplit 5 0 c.text := by
  have hshown := normalised_display u c
  constructor
  · intro h
    by_contra hsplit
    have hlong := (Lossy.length_le_shown (n := 5) (p := fun d => decide (letters u d = [d]))
      (by decide) 0 (by simp [letters_replacement hl]) (by simpa using hs)).2 hsplit
    have hcount := countP_le_letters u (Lossy.shown 5 5 (utf8 c.text))
    have heq := (parse_eq_ok.mp h).2
    rw [hshown] at heq
    have hlen := congrArg List.length heq
    exact absurd (hlong.trans_le hcount) (by rw [← hlen]; exact lt_irrefl _)
  · intro h
    have hback := Lossy.shown_of_unsplit (n := 5) (by decide) h
    refine parse_eq_ok.mpr ⟨hne, ?_⟩
    rw [hshown]
    exact (congrArg (List.flatMap (letters u)) hback).trans (flatMap_letters hs)

theorem survives_iff (hu : u.Plain) (hl : u.Lowers) (h : parse u input = .ok c) :
    Survives u input c ↔ Lossy.Unsplit 5 0 c.text := by
  obtain ⟨hne, hinput⟩ := parse_eq_ok.mp h
  have hs : ∀ d ∈ c.text, letters u d = [d] := hinput ▸ letters_of_normalised hl
  have hdisplay := parse_display_iff hl hne hs
  have hretyped : ∀ {s t}, Retyped u s t → parse u s = .ok c → parse u t = .ok c := by
    intro s t hst hparse
    rw [parse_eq_ok] at hparse ⊢
    exact ⟨hne, (normalised_retyped hu hst).trans hparse.2⟩
  constructor
  · exact fun hsurvives => hdisplay.mp hsurvives.displayed
  · intro hunsplit
    have hshown := hdisplay.mpr hunsplit
    exact {
      displayed := hshown
      idempotent := parse_eq_ok.mpr ⟨hne, by rw [normalised_eq, flatMap_letters hs]⟩
      typed := fun t ht => hretyped ht h
      retyped := fun t ht => hretyped ht hshown }

/-! ## Codes that are drawn -/

theorem letters_base32 (hu : u.Plain) (htx : tx.Correct) (b : Bytes) :
    ∀ d ∈ u.toLowercase (tx.base32 b), letters u d = [d] ∧ d.utf8Size = 1 := by
  have hhyphen : 45 ∉ ALPHABET.map fun c => c.toLower.toNat := by decide
  intro d hd
  obtain ⟨hge, hlt, hlower⟩ := hostChar_base32 hu htx b d hd
  rw [toLowercase_base32 hu htx] at hd
  obtain ⟨e, he, rfl⟩ := List.mem_map.mp hd
  have hne : e.toLower.toNat ≠ 45 := fun h =>
    hhyphen (List.mem_map.mpr ⟨e, htx.base32_alphabet b e he, h⟩)
  have hletter : ¬ IsSeparator e.toLower.toNat := by
    unfold IsSeparator
    omega
  rw [letters_ascii hu hlt, if_neg hletter, hlower]
  exact ⟨rfl, Pins.utf8Size_of_ascii hlt⟩

theorem length_code (hu : u.Plain) (htx : tx.Correct) (hstrict : tx.Strict)
    (raw : List.Vector UInt8 7) :
    ((u.toLowercase (tx.base32 raw.toList)).take 11).length = 11 := by
  rw [List.length_take, toLowercase_base32 hu htx, List.length_map, hstrict.length_base32,
    raw.toList_length]
  rfl

theorem letters_code (hu : u.Plain) (htx : tx.Correct) (b : Bytes) :
    ∀ d ∈ (u.toLowercase (tx.base32 b)).take 11, letters u d = [d] ∧ d.utf8Size = 1 :=
  fun d hd => letters_base32 hu htx b d (List.mem_of_mem_take hd)

theorem generate_eq (hu : u.Plain) (htx : tx.Correct) (hstrict : tx.Strict)
    (raw : List.Vector UInt8 7) :
    generate u tx (.ok raw) = some (.ok ⟨(u.toLowercase (tx.base32 raw.toList)).take 11⟩) := by
  have hbytes := Pins.length_of_ascii fun d hd => (letters_code hu htx raw.toList d hd).2
  have hsplit := Pins.splitAtByte_append ((u.toLowercase (tx.base32 raw.toList)).take 11)
    ((u.toLowercase (tx.base32 raw.toList)).drop 11)
  rw [hbytes, length_code hu htx hstrict, List.take_append_drop] at hsplit
  rw [generate, show CODE_CHARS = 11 from rfl, hsplit]
  rfl

theorem generate_survives (hu : u.Plain) (hl : u.Lowers) (htx : tx.Correct) (hstrict : tx.Strict)
    (raw : Except String (List.Vector UInt8 7)) :
    ∃ r, generate u tx raw = some r ∧ ∀ c, r = .ok c → Survives u c.text c := by
  cases raw with
  | error e => exact ⟨_, rfl, fun c h => by cases h⟩
  | ok raw =>
    refine ⟨_, generate_eq hu htx hstrict raw, fun c h => ?_⟩
    cases h
    have hletters := letters_code hu htx raw.toList
    have hne := List.ne_nil_of_length_eq_add_one (length_code hu htx hstrict raw)
    refine (survives_iff hu hl (parse_eq_ok.mpr ⟨hne, ?_⟩)).mpr
      (Lossy.unsplit_narrow (by decide) fun d hd => (hletters d hd).2)
    rw [normalised_eq]
    exact flatMap_letters fun d hd => (hletters d hd).1

end Shown

/-- A code survives being shown and typed unless a letter of it lies in two groups. -/
theorem codes_survive_iff {u : Unicode} {tx : Texts} (hu : u.Plain) (hl : u.Lowers)
    (htx : tx.Correct) (hstrict : tx.Strict) :
    (∀ input c, parse u input = .ok c → (Survives u input c ↔ Unsplit u 0 input)) ∧
      ∀ raw, ∃ r, generate u tx raw = some r ∧ ∀ c, r = .ok c → Survives u c.text c := by
  refine ⟨fun input c h => ?_, generate_survives hu hl htx hstrict⟩
  rw [survives_iff hu hl h, unsplit_iff, (parse_eq_ok.mp h).2]

theorem isSeparator_sample (c : Char) :
    IsSeparator c.toNat ↔ sampleUnicode.isWhitespace c = true ∨ c = '-' := by
  rw [eq_hyphen_iff]
  simp [sampleUnicode, IsSeparator, or_assoc]

theorem sampleUnicode_lowers : sampleUnicode.Lowers where
  idempotent c d hd := by
    obtain rfl : d = c.toLower := List.mem_singleton.mp hd
    exact congrArg ([·]) (toLower_toLower c)
  kept c hwhite hhyphen d hd := by
    obtain rfl : d = c.toLower := List.mem_singleton.mp hd
    have hc : ¬ IsSeparator c.toNat := by simp [isSeparator_sample, hwhite, hhyphen]
    have hd : ¬ IsSeparator c.toLower.toNat := by
      rcases Nat.lt_or_ge c.toNat 128 with hascii | hwide
      · rwa [← isSeparator_toLower hascii]
      · rwa [toLower_wide hwide]
    rw [isSeparator_sample, not_or, Bool.not_eq_true] at hd
    exact hd
  replacement := by decide

theorem codes_survive_iff_sample :
    Survives sampleUnicode ['K', '7', ' ', 'm'] ⟨['k', '7', 'm']⟩ := by
  have hnarrow : ∀ d ∈ ['k', '7', 'm'], d.utf8Size = 1 := by
    intro d hd
    simp only [List.mem_cons, List.not_mem_nil, or_false] at hd
    rcases hd with rfl | rfl | rfl <;> rfl
  exact ((codes_survive_iff sampleUnicode_plain sampleUnicode_lowers sampleTexts_correct
    sampleTexts_strict).1 _ _ (by decide)).mpr
    ((unsplit_iff _ _).mpr (Lossy.unsplit_narrow (by decide) hnarrow))

/-- The last letter of this code is its fifth and its sixth byte. -/
theorem accent_is_cut : ∃ c, parse sampleUnicode ['a', 'a', 'a', 'a', 'é'] = .ok c ∧
    ¬ Survives sampleUnicode ['a', 'a', 'a', 'a', 'é'] c := by
  refine ⟨⟨['a', 'a', 'a', 'a', 'é']⟩, by decide, fun h => ?_⟩
  have hunsplit := (survives_iff sampleUnicode_plain sampleUnicode_lowers (by decide)).mp h
  exact absurd hunsplit.2.2.2.2.1 (by decide)

end Pairing.PairingCode

end AtomVault.Live
