import AtomVault.Lib.Bytes

/-!
# Lossy UTF-8

Bytes become characters. Where they are no UTF-8, one U+FFFD stands for each maximal start of a
sequence. A text that is cut into groups of bytes before it is decoded comes back whole unless a
group ends inside of a character, and then it comes back longer.
-/

namespace Lib.Lossy

def REPLACEMENT : Char := '\uFFFD'

/-! ## Decoding -/

/-- How many bytes a first byte announces. -/
def width (x : UInt8) : Nat :=
  if 0xC2 ≤ x ∧ x ≤ 0xDF then 2
  else if 0xE0 ≤ x ∧ x ≤ 0xEF then 3
  else if 0xF0 ≤ x ∧ x ≤ 0xF4 then 4
  else 1

def isCont (y : UInt8) : Bool := 0x80 ≤ y && y ≤ 0xBF

/-- Whether `y` may follow `x`: longer forms, surrogates and what is above U+10FFFF are left out. -/
def secondOk (x y : UInt8) : Bool :=
  if x = 0xE0 then 0xA0 ≤ y && y ≤ 0xBF
  else if x = 0xED then 0x80 ≤ y && y ≤ 0x9F
  else if x = 0xF0 then 0x90 ≤ y && y ≤ 0xBF
  else if x = 0xF4 then 0x80 ≤ y && y ≤ 0x8F
  else 2 ≤ width x && isCont y

/-- How many bytes at the front of what is no character one U+FFFD stands for. -/
def badLength : Bytes → Nat
  | x :: y :: rest =>
    if secondOk x y = false then 1
    else if width x = 4 ∧ rest.head?.any isCont then 3
    else if 3 ≤ width x then 2
    else 1
  | _ => 1

/-- The first character, and how many bytes it takes. -/
def first (b : Bytes) : Char × Nat :=
  match b.toByteArray.utf8DecodeChar? 0 with
  | some c => (c, c.utf8Size)
  | none => (REPLACEMENT, badLength b)

/-- `skip` bytes belong to the character before. -/
def decodeFrom (skip : Nat) : Bytes → List Char
  | [] => []
  | x :: rest =>
    match skip with
    | skip + 1 => decodeFrom skip rest
    | 0 => (first (x :: rest)).1 :: decodeFrom ((first (x :: rest)).2 - 1) rest

/-- `String::from_utf8_lossy` -/
def fromUtf8Lossy (b : Bytes) : List Char := decodeFrom 0 b

section Decoding

variable {b rest : Bytes} {c : Char} {x : UInt8} {r : Nat}

theorem decodeFrom_eq (skip : Nat) (b : Bytes) :
    decodeFrom skip b = fromUtf8Lossy (b.drop skip) := by
  induction b generalizing skip with
  | nil => cases skip <;> rfl
  | cons x b ih =>
    cases skip with
    | zero => rfl
    | succ skip => exact ih skip

theorem fromUtf8Lossy_cons (x : UInt8) (rest : Bytes) :
    fromUtf8Lossy (x :: rest) = (first (x :: rest)).1 ::
      fromUtf8Lossy (rest.drop ((first (x :: rest)).2 - 1)) := by
  rw [← decodeFrom_eq]
  rfl

theorem first_char (c : Char) (rest : Bytes) :
    first (String.utf8EncodeChar c ++ rest) = (c, c.utf8Size) := by
  unfold first
  rw [List.toByteArray_append, ByteArray.utf8DecodeChar?_utf8EncodeChar_append]

/-- A whole character comes back. -/
theorem fromUtf8Lossy_char (c : Char) (rest : Bytes) :
    fromUtf8Lossy (String.utf8EncodeChar c ++ rest) = c :: fromUtf8Lossy rest := by
  have hlen := String.length_utf8EncodeChar c
  have hpos := c.utf8Size_pos
  have hfirst := first_char c rest
  cases hb : String.utf8EncodeChar c with
  | nil => rw [hb] at hlen; simp at hlen; omega
  | cons x more =>
    rw [hb] at hfirst hlen
    rw [List.cons_append] at hfirst ⊢
    rw [fromUtf8Lossy_cons, hfirst, ← hlen]
    simp

/-- A second byte follows a first byte only. -/
theorem isUTF8FirstByte_of_secondOk {y : UInt8} (h : secondOk x y = true) :
    x.IsUTF8FirstByte := by
  have hall : ∀ n < 256, 2 ≤ width (UInt8.ofNat n) → (UInt8.ofNat n).IsUTF8FirstByte := by
    decide +kernel
  have hwidth : 2 ≤ width x := by
    unfold secondOk at h
    split at h
    · rename_i hx
      subst hx
      decide
    split at h
    · rename_i hx
      subst hx
      decide
    split at h
    · rename_i hx
      subst hx
      decide
    split at h
    · rename_i hx
      subst hx
      decide
    · rw [Bool.and_eq_true] at h
      exact of_decide_eq_true h.1
  have hx := hall x.toNat x.toNat_lt
  rw [UInt8.ofNat_toNat] at hx
  exact hx hwidth

theorem badLength_cont (h : ¬ x.IsUTF8FirstByte) (rest : Bytes) : badLength (x :: rest) = 1 := by
  cases rest with
  | nil => rfl
  | cons y rest =>
    have hsecond : secondOk x y = false := by
      rw [Bool.eq_false_iff]
      exact fun hok => h (isUTF8FirstByte_of_secondOk hok)
    rw [badLength, if_pos hsecond]

/-- A byte from inside of a character is a U+FFFD of its own. -/
theorem fromUtf8Lossy_cont (h : ¬ x.IsUTF8FirstByte) (rest : Bytes) :
    fromUtf8Lossy (x :: rest) = REPLACEMENT :: fromUtf8Lossy rest := by
  have hnone : (x :: rest).toByteArray.utf8DecodeChar? 0 = none := by
    rw [Option.eq_none_iff_forall_ne_some]
    intro c hc
    have hfirst := ByteArray.isUTF8FirstByte_of_isSome_utf8DecodeChar?
      (Option.isSome_of_eq_some hc)
    simp only [List.getElem_toByteArray, List.getElem_cons_zero] at hfirst
    exact h hfirst
  have hfirst : first (x :: rest) = (REPLACEMENT, 1) := by
    unfold first
    rw [hnone, badLength_cont h]
  rw [fromUtf8Lossy_cons, hfirst]
  rfl

/-- The beginning of a character is no character. -/
theorem fromUtf8Lossy_take (hpos : 0 < r) (hr : r < c.utf8Size) :
    ∃ more, fromUtf8Lossy ((String.utf8EncodeChar c).take r) = REPLACEMENT :: more := by
  have hlen : ((String.utf8EncodeChar c).take r).length = r := by
    rw [List.length_take, String.length_utf8EncodeChar]
    omega
  have hnone : ((String.utf8EncodeChar c).take r).toByteArray.utf8DecodeChar? 0 = none := by
    rw [Option.eq_none_iff_forall_ne_some]
    intro d hd
    -- The character would be `c` itself, which is longer.
    have hsome := ByteArray.utf8DecodeChar?_append_eq_some hd
      ((String.utf8EncodeChar c).drop r ++ []).toByteArray
    rw [← List.toByteArray_append, ← List.append_assoc, List.take_append_drop,
      List.toByteArray_append, ByteArray.utf8DecodeChar?_utf8EncodeChar_append] at hsome
    have hle := ByteArray.le_size_of_utf8DecodeChar?_eq_some hd
    rw [List.size_toByteArray, hlen, ← Option.some.inj hsome] at hle
    omega
  cases hb : (String.utf8EncodeChar c).take r with
  | nil =>
    rw [hb] at hlen
    simp at hlen
    omega
  | cons x more =>
    rw [hb] at hnone
    have hfirst : (first (x :: more)).1 = REPLACEMENT := by
      unfold first
      rw [hnone]
    exact ⟨_, by rw [fromUtf8Lossy_cons, hfirst]⟩

end Decoding

/-! ## Groups of bytes -/

/-- `chunks(n)`: the last one may be shorter. -/
def chunks (n : Nat) (b : Bytes) : List Bytes :=
  if _h : b = [] ∨ n = 0 then [] else b.take n :: chunks n (b.drop n)
termination_by b.length
decreasing_by
  rw [not_or] at _h
  have := List.length_pos_of_ne_nil _h.1
  rw [List.length_drop]
  omega

/-- No character of the text, which begins at byte `pos`, has bytes on both sides of a multiple
of `n`. -/
def Unsplit (n : Nat) : Nat → List Char → Prop
  | _, [] => True
  | pos, c :: s => pos % n + c.utf8Size ≤ n ∧ Unsplit n (pos + c.utf8Size) s

/-- What is decoded of bytes when `room` of them are left in the first group. -/
def shown (n room : Nat) (b : Bytes) : List Char :=
  fromUtf8Lossy (b.take room) ++ (chunks n (b.drop room)).flatMap fromUtf8Lossy

section Groups

variable {n : Nat} {b rest : Bytes} {c : Char} {x : UInt8} {room : Nat}

theorem chunks_nil (n : Nat) : chunks n [] = [] := by
  rw [chunks]
  simp

theorem chunks_eq (hn : 0 < n) (hb : b ≠ []) : chunks n b = b.take n :: chunks n (b.drop n) := by
  rw [chunks, dif_neg (by simp only [hb, false_or]; omega)]

theorem shown_zero (n : Nat) (b : Bytes) : shown n 0 b = (chunks n b).flatMap fromUtf8Lossy := by
  rw [shown, List.take_zero, List.drop_zero]
  rfl

/-- A group that is full is followed by a whole one. -/
theorem shown_full (hn : 0 < n) (b : Bytes) : shown n n b = shown n 0 b := by
  rw [shown_zero]
  cases b with
  | nil => simp [shown, chunks_nil, fromUtf8Lossy, decodeFrom]
  | cons x b => rw [chunks_eq hn (by simp), List.flatMap_cons, shown]

theorem shown_char (h : c.utf8Size ≤ room) (rest : Bytes) :
    shown n room (String.utf8EncodeChar c ++ rest) = c :: shown n (room - c.utf8Size) rest := by
  have hlen := String.length_utf8EncodeChar c
  rw [shown, List.take_append, List.drop_append, List.take_of_length_le (by omega),
    List.drop_of_length_le (by omega), hlen, fromUtf8Lossy_char, List.nil_append]
  rfl

theorem shown_cont (hx : ¬ x.IsUTF8FirstByte) (hroom : 0 < room) (rest : Bytes) :
    shown n room (x :: rest) = REPLACEMENT :: shown n (room - 1) rest := by
  obtain ⟨room, rfl⟩ := Nat.exists_eq_succ_of_ne_zero hroom.ne'
  rw [shown, List.take_succ_cons, List.drop_succ_cons, fromUtf8Lossy_cont hx]
  rfl

variable {pos : Nat} {s : List Char} {p : Char → Bool}

/-- `k` bytes further in the group that `pos` is in. -/
theorem shown_add (hn : 0 < n) {k : Nat} (h : pos % n + k ≤ n) (b : Bytes) :
    shown n (n - pos % n - k) b = shown n (n - (pos + k) % n) b := by
  have hmod : (pos + k) % n = (pos % n + k) % n := by rw [Nat.mod_add_mod]
  rcases Nat.lt_or_ge (pos % n + k) n with hlt | hge
  · rw [hmod, Nat.mod_eq_of_lt hlt, Nat.sub_sub]
  · have hend : pos % n + k = n := le_antisymm h hge
    have hzero : n - pos % n - k = 0 := by omega
    rw [hmod, hend, Nat.mod_self, hzero, Nat.sub_zero, shown_full hn]

/-- The rest of a character that was cut, in groups however small. -/
theorem shown_conts (hn : 0 < n) (pos : Nat) {k : Bytes} (hk : ∀ x ∈ k, ¬ x.IsUTF8FirstByte)
    (rest : Bytes) :
    shown n (n - pos % n) (k ++ rest) =
      List.replicate k.length REPLACEMENT ++ shown n (n - (pos + k.length) % n) rest := by
  induction k generalizing pos with
  | nil => rfl
  | cons x k ih =>
    have hlt := Nat.mod_lt pos hn
    have hrest := ih (pos + 1) fun y hy => hk y (List.mem_cons_of_mem _ hy)
    rw [List.cons_append, shown_cont (hk x List.mem_cons_self) (by omega),
      shown_add hn (by omega), hrest, List.length_cons, List.replicate_succ, List.cons_append,
      Nat.add_assoc, Nat.add_comm 1]

theorem drop_char (c : Char) (hpos : 0 < room) :
    ∀ x ∈ (String.utf8EncodeChar c).drop room, ¬ x.IsUTF8FirstByte := by
  intro x hx
  obtain ⟨i, hi, rfl⟩ := List.mem_iff_getElem.mp hx
  rw [List.getElem_drop, UInt8.isUTF8FirstByte_getElem_utf8EncodeChar]
  omega

/-- A character that is cut becomes two characters at least. -/
theorem shown_split (hn : 0 < n) (h : n < pos % n + c.utf8Size) (rest : Bytes) :
    ∃ more k, 0 < k ∧ shown n (n - pos % n) (String.utf8EncodeChar c ++ rest) =
      REPLACEMENT :: (more ++ (List.replicate k REPLACEMENT ++
        shown n (n - (pos + c.utf8Size) % n) rest)) := by
  have hlt := Nat.mod_lt pos hn
  have hlen := String.length_utf8EncodeChar c
  obtain ⟨more, hmore⟩ := fromUtf8Lossy_take (c := c) (r := n - pos % n) (by omega) (by omega)
  have hstart : (pos + (n - pos % n)) % n = 0 := by
    have hnext : pos + (n - pos % n) = n * (pos / n + 1) := by
      have := Nat.div_add_mod pos n
      rw [Nat.mul_add]
      omega
    rw [hnext, Nat.mul_mod_right]
  have hconts := shown_conts hn (pos + (n - pos % n))
    (drop_char c (show 0 < n - pos % n by omega)) rest
  have hend : pos + (n - pos % n) + (c.utf8Size - (n - pos % n)) = pos + c.utf8Size := by omega
  rw [hstart, Nat.sub_zero, List.length_drop, hlen, hend] at hconts
  refine ⟨more, c.utf8Size - (n - pos % n), by omega, ?_⟩
  rw [shown, List.take_append_of_le_length (by omega), List.drop_append_of_le_length (by omega),
    hmore, ← shown_zero, ← shown_full hn, hconts]
  rfl

/-- A text of which no character is cut comes back. -/
theorem shown_of_unsplit (hn : 0 < n) (h : Unsplit n pos s) :
    shown n (n - pos % n) (s.flatMap String.utf8EncodeChar) = s := by
  induction s generalizing pos with
  | nil => simp [shown, chunks_nil, fromUtf8Lossy, decodeFrom]
  | cons c s ih =>
    have hlt := Nat.mod_lt pos hn
    have hfits : c.utf8Size ≤ n - pos % n := by
      have := h.1
      omega
    rw [List.flatMap_cons, shown_char hfits, shown_add hn h.1, ih h.2]

theorem unsplit_append (s t : List Char) (pos : Nat) :
    Unsplit n pos (s ++ t) ↔
      Unsplit n pos s ∧ Unsplit n (pos + (s.flatMap String.utf8EncodeChar).length) t := by
  induction s generalizing pos with
  | nil => simp [Unsplit]
  | cons c s ih =>
    rw [List.cons_append, Unsplit, Unsplit, ih, List.flatMap_cons, List.length_append,
      String.length_utf8EncodeChar, and_assoc, Nat.add_assoc]

theorem unsplit_narrow (hn : 0 < n) (h : ∀ d ∈ s, d.utf8Size = 1) : Unsplit n pos s := by
  induction s generalizing pos with
  | nil => exact trivial
  | cons d s ih =>
    have hlt := Nat.mod_lt pos hn
    rw [Unsplit, h d List.mem_cons_self]
    exact ⟨hlt, ih fun e he => h e (List.mem_cons_of_mem _ he)⟩

/-- What comes back has a kept character for each one, and more than that if one was cut. -/
theorem length_le_shown (hn : 0 < n) (pos : Nat) (hp : p REPLACEMENT = true)
    (hs : ∀ c ∈ s, p c = true) :
    s.length ≤ (shown n (n - pos % n) (s.flatMap String.utf8EncodeChar)).countP p ∧
      (¬ Unsplit n pos s →
        s.length < (shown n (n - pos % n) (s.flatMap String.utf8EncodeChar)).countP p) := by
  induction s generalizing pos with
  | nil => exact ⟨Nat.zero_le _, fun h => absurd trivial h⟩
  | cons c s ih =>
    have hlt := Nat.mod_lt pos hn
    have hc := hs c List.mem_cons_self
    obtain ⟨hle, hsplit⟩ := ih (pos + c.utf8Size) fun d hd => hs d (List.mem_cons_of_mem _ hd)
    rw [List.flatMap_cons]
    rcases Nat.lt_or_ge n (pos % n + c.utf8Size) with hcut | hfits
    · obtain ⟨more, k, hk, hshown⟩ := shown_split hn hcut (s.flatMap String.utf8EncodeChar)
      have hcount : s.length + 1 <
          (shown n (n - pos % n)
            (String.utf8EncodeChar c ++ s.flatMap String.utf8EncodeChar)).countP p := by
        rw [hshown, List.countP_cons, List.countP_append, List.countP_append, List.countP_replicate]
        simp only [hp, if_true]
        omega
      exact ⟨hcount.le, fun _ => hcount⟩
    · rw [shown_char (by omega), shown_add hn hfits, List.countP_cons, List.length_cons]
      simp only [hc, if_true]
      refine ⟨by omega, fun hun => ?_⟩
      have := hsplit fun h => hun ⟨hfits, h⟩
      omega

end Groups

end Lib.Lossy
