import AtomVault.Lib.Bytes

/-!
# The head of an HTTP request

A request line, header fields, and an empty line. The target is a path, with a query behind it or
without. What is written is read back, whatever comes behind the empty line.
-/

namespace Lib.Http

def LF : UInt8 := 10
def CR : UInt8 := 13
def SP : UInt8 := 32
def SLASH : UInt8 := 47
def COLON : UInt8 := 58
def QUESTION : UInt8 := 63

def VERSION : Bytes := [72, 84, 84, 80, 47, 49, 46, 49]

/-! ## Bytes -/

def isAlphanum (x : UInt8) : Bool :=
  (48 ≤ x && x ≤ 57) || (65 ≤ x && x ≤ 90) || (97 ≤ x && x ≤ 122)

def isHex (x : UInt8) : Bool := (48 ≤ x && x ≤ 57) || (65 ≤ x && x ≤ 70) || (97 ≤ x && x ≤ 102)

-- ! # $ % & ' * + - . ^ _ ` | ~
def isToken (x : UInt8) : Bool :=
  isAlphanum x || x ∈ ([33, 35, 36, 37, 38, 39, 42, 43, 45, 46, 94, 95, 96, 124, 126] : Bytes)

-- ! $ & ' ( ) * + , - . / : ; = @ _ ~
def isPathByte (x : UInt8) : Bool :=
  isAlphanum x ||
    x ∈ ([33, 36, 38, 39, 40, 41, 42, 43, 44, 45, 46, 47, 58, 59, 61, 64, 95, 126] : Bytes)

def isVisible (x : UInt8) : Bool := 33 ≤ x && x ≠ 127

def isBlank (x : UInt8) : Bool := x = 32 || x = 9

/-- Bytes that are `ok`, and percent signs with two hexadecimal digits each. The number says how
many digits are still to come. -/
def encodedFrom (ok : UInt8 → Bool) : Nat → Bytes → Bool
  | n, [] => n = 0
  | 0, x :: rest => if x = 37 then encodedFrom ok 2 rest else ok x && encodedFrom ok 0 rest
  | n + 1, x :: rest => isHex x && encodedFrom ok n rest

def isPath (b : Bytes) : Bool := b.head? = some SLASH && encodedFrom isPathByte 0 b

def isQuery (b : Bytes) : Bool := encodedFrom (fun x => isPathByte x || x = QUESTION) 0 b

/-! ## Reading -/

/-- What stands before the first `sep`, and what behind it. -/
def cut (sep : UInt8) : Bytes → Option (Bytes × Bytes)
  | [] => none
  | x :: rest =>
    if x = sep then some ([], rest) else (cut sep rest).map fun (a, b) => (x :: a, b)

def takeLine : Bytes → Option (Bytes × Bytes)
  | [] => none
  | [_] => none
  | x :: y :: rest =>
    if x = CR ∧ y = LF then some ([], rest)
    else (takeLine (y :: rest)).map fun (a, b) => (x :: a, b)

structure Request where
  method : Bytes
  path : Bytes
  query : Option Bytes
  fields : List (Bytes × Bytes)
  deriving DecidableEq

def parseTarget (target : Bytes) : Option (Bytes × Option Bytes) :=
  match cut QUESTION target with
  | none => if isPath target then some (target, none) else none
  | some (path, query) => if isPath path && isQuery query then some (path, some query) else none

def parseRequestLine (line : Bytes) : Option (Bytes × Bytes × Option Bytes) := do
  let (method, rest) ← cut SP line
  let (target, version) ← cut SP rest
  let (path, query) ← parseTarget target
  if method ≠ [] ∧ method.all isToken = true ∧ version = VERSION then some (method, path, query)
  else none

def trimBlanks (b : Bytes) : Bytes := ((b.dropWhile isBlank).reverse.dropWhile isBlank).reverse

def parseField (line : Bytes) : Option (Bytes × Bytes) := do
  let (name, value) ← cut COLON line
  if name ≠ [] ∧ name.all isToken = true ∧
      value.all (fun x => isVisible x || isBlank x) = true then
    some (name, trimBlanks value)
  else none

/-- The fields up to the empty line, at most `n` lines. -/
def parseFields : Nat → Bytes → Option (List (Bytes × Bytes) × Bytes)
  | 0, _ => none
  | n + 1, b => do
    let (line, rest) ← takeLine b
    if line = [] then some ([], rest)
    else
      let field ← parseField line
      let (fields, rest) ← parseFields n rest
      some (field :: fields, rest)

/-- A request's head, and what comes behind it. -/
def parseHead (b : Bytes) : Option (Request × Bytes) := do
  let (line, rest) ← takeLine b
  let (method, path, query) ← parseRequestLine line
  let (fields, rest) ← parseFields rest.length rest
  some (⟨method, path, query, fields⟩, rest)

/-! ## Writing -/

def writeField (field : Bytes × Bytes) : Bytes := field.1 ++ ([COLON, SP] ++ (field.2 ++ [CR, LF]))

def writeHead (method target : Bytes) (fields : List (Bytes × Bytes)) : Bytes :=
  method ++ ([SP] ++ (target ++ ([SP] ++ (VERSION ++ ([CR, LF] ++
    (fields.flatMap writeField ++ [CR, LF]))))))

/-- A field with a name, and a value without blanks. -/
structure Plain (field : Bytes × Bytes) : Prop where
  name : field.1 ≠ []
  token : field.1.all isToken = true
  value : field.2.all isVisible = true

/-! ## What is written is read back -/

theorem cut_append {sep : UInt8} {a : Bytes} (h : sep ∉ a) (b : Bytes) :
    cut sep (a ++ sep :: b) = some (a, b) := by
  induction a with
  | nil => simp [cut]
  | cons x a ih =>
    simp only [List.mem_cons, not_or] at h
    rw [List.cons_append, cut, if_neg (Ne.symm h.1), ih h.2]
    rfl

theorem cut_eq_none {sep : UInt8} {a : Bytes} (h : sep ∉ a) : cut sep a = none := by
  induction a with
  | nil => rfl
  | cons x a ih =>
    simp only [List.mem_cons, not_or] at h
    rw [cut, if_neg (Ne.symm h.1), ih h.2]
    rfl

theorem takeLine_append {line : Bytes} (h : CR ∉ line) (rest : Bytes) :
    takeLine (line ++ CR :: LF :: rest) = some (line, rest) := by
  induction line with
  | nil => simp [takeLine]
  | cons x line ih =>
    simp only [List.mem_cons, not_or] at h
    have hstep : ∀ y tail, takeLine (x :: y :: tail) =
        (takeLine (y :: tail)).map fun (a, b) => (x :: a, b) := by
      intro y tail
      rw [takeLine, if_neg (fun hxy => h.1 hxy.1.symm)]
    obtain ⟨y, tail, hcons⟩ : ∃ y tail, line ++ CR :: LF :: rest = y :: tail := by
      cases line with
      | nil => exact ⟨_, _, rfl⟩
      | cons y line => exact ⟨_, _, rfl⟩
    rw [List.cons_append, hcons, hstep, ← hcons, ih h.2]
    rfl

theorem mem_of_encodedFrom {ok : UInt8 → Bool} {n : Nat} {b : Bytes} {x : UInt8}
    (h : encodedFrom ok n b = true) (hx : x ∈ b) : ok x = true ∨ x = 37 ∨ isHex x = true := by
  induction b generalizing n with
  | nil => cases hx
  | cons y b ih =>
    cases n with
    | zero =>
      unfold encodedFrom at h
      split at h
      · rename_i hy
        rcases List.mem_cons.mp hx with rfl | hx
        · exact .inr (.inl hy)
        · exact ih h hx
      · rw [Bool.and_eq_true] at h
        rcases List.mem_cons.mp hx with rfl | hx
        · exact .inl h.1
        · exact ih h.2 hx
    | succ n =>
      unfold encodedFrom at h
      rw [Bool.and_eq_true] at h
      rcases List.mem_cons.mp hx with rfl | hx
      · exact .inr (.inr h.1)
      · exact ih h.2 hx

theorem encodedFrom_of_all {b : Bytes} (h : b.all isPathByte = true) :
    encodedFrom isPathByte 0 b = true := by
  induction b with
  | nil => rfl
  | cons x b ih =>
    rw [List.all_cons, Bool.and_eq_true] at h
    unfold encodedFrom
    split
    · rename_i hx
      rw [hx] at h
      exact absurd h.1 (by decide)
    · rw [h.1, ih h.2]
      rfl

/-- A slash ends what was encoded before it. -/
theorem encodedFrom_slash (n : Nat) (a b : Bytes) :
    encodedFrom isPathByte n (a ++ SLASH :: b) =
      (encodedFrom isPathByte n a && encodedFrom isPathByte 0 b) := by
  have hslash : isPathByte SLASH = true ∧ isHex SLASH = false ∧ SLASH ≠ 37 := by decide
  obtain ⟨hok, hhex, hne⟩ := hslash
  induction a generalizing n with
  | nil =>
    cases n with
    | zero => simp [encodedFrom, hok, hne]
    | succ n => simp [encodedFrom, hhex]
  | cons x a ih =>
    cases n with
    | zero =>
      simp only [List.cons_append, encodedFrom, ih]
      split
      · rfl
      · rw [Bool.and_assoc]
    | succ n =>
      simp only [List.cons_append, encodedFrom, ih, Bool.and_assoc]

/-- Slashes around do not matter. -/
theorem encodedFrom_slashes {pre post : Bytes} (hpre : ∀ x ∈ pre, x = SLASH)
    (hpost : ∀ x ∈ post, x = SLASH) (b : Bytes) :
    encodedFrom isPathByte 0 (pre ++ (b ++ post)) = encodedFrom isPathByte 0 b := by
  have hslashes : ∀ {s : Bytes}, (∀ x ∈ s, x = SLASH) → encodedFrom isPathByte 0 s = true := by
    intro s hs
    refine encodedFrom_of_all (List.all_eq_true.mpr fun x hx => ?_)
    rw [hs x hx]
    decide
  have hback : encodedFrom isPathByte 0 (b ++ post) = encodedFrom isPathByte 0 b := by
    cases post with
    | nil => rw [List.append_nil]
    | cons x post =>
      rw [hpost x List.mem_cons_self, encodedFrom_slash,
        hslashes fun y hy => hpost y (List.mem_cons_of_mem _ hy), Bool.and_true]
  induction pre with
  | nil => rw [List.nil_append, hback]
  | cons x pre ih =>
    have hfirst := encodedFrom_slash 0 [] (pre ++ (b ++ post))
    rw [List.nil_append] at hfirst
    rw [List.cons_append, hpre x List.mem_cons_self, hfirst,
      ih fun y hy => hpre y (List.mem_cons_of_mem _ hy)]
    rfl

/-- A path is made of characters of its own: none of them ends the target. -/
theorem notMem_of_isPath {b : Bytes} (h : isPath b = true) {x : UInt8}
    (hx : isPathByte x = false ∧ x ≠ 37 ∧ isHex x = false) : x ∉ b := by
  unfold isPath at h
  rw [Bool.and_eq_true] at h
  intro hmem
  rcases mem_of_encodedFrom h.2 hmem with hok | rfl | hhex
  · rw [hx.1] at hok
    cases hok
  · exact hx.2.1 rfl
  · rw [hx.2.2] at hhex
    cases hhex

theorem notMem_of_all {p : UInt8 → Bool} {b : Bytes} (h : b.all p = true) {x : UInt8}
    (hx : p x = false) : x ∉ b := by
  intro hmem
  have := List.all_eq_true.mp h x hmem
  rw [hx] at this
  cases this

theorem parseRequestLine_written {method target : Bytes} (hne : method ≠ [])
    (htoken : method.all isToken = true) (hpath : isPath target = true) :
    parseRequestLine (method ++ SP :: (target ++ SP :: VERSION)) = some (method, target, none) := by
  have hmethod := cut_append (notMem_of_all htoken (by decide : isToken SP = false))
    (target ++ SP :: VERSION)
  have htarget := cut_append (notMem_of_isPath hpath (by decide : _ ∧ _ ∧ isHex SP = false)) VERSION
  have hquery : cut QUESTION target = none := cut_eq_none (notMem_of_isPath hpath (by decide))
  unfold parseRequestLine parseTarget
  simp only [hmethod, htarget, hquery, hpath, if_true, Option.bind_eq_bind, Option.bind_some]
  exact if_pos ⟨hne, htoken, trivial⟩

theorem parseField_written {field : Bytes × Bytes} (h : Plain field) :
    parseField (field.1 ++ COLON :: SP :: field.2) = some field := by
  obtain ⟨name, value⟩ := field
  obtain ⟨hname, htoken, hvalue⟩ := h
  have hcut := cut_append (notMem_of_all htoken (by decide : isToken COLON = false)) (SP :: value)
  have hkeep : ∀ b : Bytes, b.all isVisible = true → b.dropWhile isBlank = b := by
    intro b hb
    cases b with
    | nil => rfl
    | cons x b =>
      refine List.dropWhile_cons_of_neg fun hblank => ?_
      have hvisible := List.all_eq_true.mp hb x List.mem_cons_self
      unfold isBlank at hblank
      simp only [Bool.or_eq_true, decide_eq_true_eq] at hblank
      rcases hblank with rfl | rfl <;> exact absurd hvisible (by decide)
  have htrim : trimBlanks (SP :: value) = value := by
    have hsp : (SP :: value).dropWhile isBlank = value := by
      rw [List.dropWhile_cons_of_pos (by decide), hkeep value hvalue]
    unfold trimBlanks
    rw [hsp, hkeep value.reverse (by simpa using hvalue), List.reverse_reverse]
  have hall : (SP :: value).all (fun x => isVisible x || isBlank x) = true := by
    rw [List.all_cons, Bool.and_eq_true]
    refine ⟨by decide, List.all_eq_true.mpr fun x hx => ?_⟩
    rw [List.all_eq_true.mp hvalue x hx, Bool.true_or]
  unfold parseField
  simp only [hcut, Option.bind_eq_bind, Option.bind_some, htrim]
  exact if_pos ⟨hname, htoken, hall⟩

theorem parseFields_written {fields : List (Bytes × Bytes)} (h : ∀ f ∈ fields, Plain f) {n : Nat}
    (hn : fields.length < n) (rest : Bytes) :
    parseFields n (fields.flatMap writeField ++ CR :: LF :: rest) = some (fields, rest) := by
  induction fields generalizing n with
  | nil =>
    obtain ⟨n, rfl⟩ : ∃ m, n = m + 1 := ⟨n - 1, by simp at hn; omega⟩
    rfl
  | cons f fields ih =>
    obtain ⟨n, rfl⟩ : ∃ m, n = m + 1 := ⟨n - 1, by simp at hn; omega⟩
    have hf := h f List.mem_cons_self
    have hcr : CR ∉ f.1 ++ COLON :: SP :: f.2 := by
      have hname := notMem_of_all hf.token (by decide : isToken CR = false)
      have hvalue := notMem_of_all hf.value (by decide : isVisible CR = false)
      simp only [List.mem_append, List.mem_cons, not_or]
      exact ⟨hname, by decide, by decide, hvalue⟩
    have hbytes : (f :: fields).flatMap writeField ++ CR :: LF :: rest =
        (f.1 ++ COLON :: SP :: f.2) ++ CR :: LF :: (fields.flatMap writeField ++ CR :: LF :: rest) := by
      simp [List.flatMap_cons, writeField]
    have hne : f.1 ++ COLON :: SP :: f.2 ≠ [] := by simp
    have hrest := ih (fun g hg => h g (List.mem_cons_of_mem _ hg)) (n := n) (by simp at hn; omega)
    rw [hbytes, parseFields]
    simp only [takeLine_append hcr, Option.bind_eq_bind, Option.bind_some, if_neg hne,
      parseField_written hf, hrest]

/-- **A head that was written is one request**, whatever comes behind it. -/
theorem parseHead_written {method target : Bytes} {fields : List (Bytes × Bytes)}
    (hne : method ≠ []) (htoken : method.all isToken = true) (hpath : isPath target = true)
    (hfields : ∀ f ∈ fields, Plain f) (rest : Bytes) :
    parseHead (writeHead method target fields ++ rest) =
      some (⟨method, target, none, fields⟩, rest) := by
  have hcr : CR ∉ method ++ SP :: (target ++ SP :: VERSION) := by
    have hmethod := notMem_of_all htoken (by decide : isToken CR = false)
    have htarget := notMem_of_isPath hpath (by decide : _ ∧ _ ∧ isHex CR = false)
    simp only [List.mem_append, List.mem_cons, not_or]
    exact ⟨hmethod, by decide, htarget, by decide, by decide⟩
  have hbytes : writeHead method target fields ++ rest =
      (method ++ SP :: (target ++ SP :: VERSION)) ++
        CR :: LF :: (fields.flatMap writeField ++ CR :: LF :: rest) := by
    simp [writeHead]
  have hshort : fields.length < (fields.flatMap writeField ++ CR :: LF :: rest).length := by
    have hlines : fields.length ≤ (fields.flatMap writeField).length := by
      clear hfields hbytes
      induction fields with
      | nil => simp
      | cons f fields ih =>
        simp only [List.flatMap_cons, writeField, List.length_append, List.length_cons]
        omega
    simp only [List.length_append, List.length_cons]
    omega
  unfold parseHead
  rw [hbytes, takeLine_append hcr]
  simp only [Option.bind_eq_bind, Option.bind_some,
    parseRequestLine_written hne htoken hpath, parseFields_written hfields hshort]

/-- What was read has a path. -/
theorem isPath_of_parseHead {b rest : Bytes} {r : Request} (h : parseHead b = some (r, rest)) :
    isPath r.path = true := by
  unfold parseHead at h
  obtain ⟨⟨line, rest₁⟩, -, h₁⟩ := Option.bind_eq_some_iff.mp h
  obtain ⟨⟨method, path, query⟩, hline, h₂⟩ := Option.bind_eq_some_iff.mp h₁
  obtain ⟨⟨fields, rest₂⟩, -, h₃⟩ := Option.bind_eq_some_iff.mp h₂
  cases h₃
  unfold parseRequestLine at hline
  obtain ⟨⟨method', tail⟩, -, h₄⟩ := Option.bind_eq_some_iff.mp hline
  obtain ⟨⟨target, version⟩, -, h₅⟩ := Option.bind_eq_some_iff.mp h₄
  obtain ⟨⟨path', query'⟩, htarget, h₆⟩ := Option.bind_eq_some_iff.mp h₅
  dsimp only at h₆
  split at h₆
  · cases h₆
    unfold parseTarget at htarget
    split at htarget
    · split at htarget
      · rename_i hpath
        cases htarget
        exact hpath
      · cases htarget
    · split at htarget
      · rename_i hpath
        cases htarget
        rw [Bool.and_eq_true] at hpath
        exact hpath.1
      · cases htarget
  · cases h₆

/-! ## Line ends and spaces -/

def breaks (b : Bytes) : Bytes := b.filter fun x => x = CR || x = LF || x = SP

theorem breaks_append (a b : Bytes) : breaks (a ++ b) = breaks a ++ breaks b :=
  List.filter_append a b

theorem breaks_eq_nil_iff (b : Bytes) : breaks b = [] ↔ CR ∉ b ∧ LF ∉ b ∧ SP ∉ b := by
  unfold breaks
  rw [List.filter_eq_nil_iff]
  constructor
  · intro h
    refine ⟨fun hmem => h _ hmem ?_, fun hmem => h _ hmem ?_, fun hmem => h _ hmem ?_⟩ <;> decide
  · rintro ⟨hcr, hlf, hsp⟩ x hx hbreak
    simp only [Bool.or_eq_true, decide_eq_true_eq] at hbreak
    rcases hbreak with (rfl | rfl) | rfl
    · exact hcr hx
    · exact hlf hx
    · exact hsp hx

/-- The breaks of a written head are those of its target, and its own. -/
theorem breaks_writeHead {method : Bytes} (target : Bytes) {fields : List (Bytes × Bytes)}
    (htoken : method.all isToken = true) (hfields : ∀ f ∈ fields, Plain f) :
    breaks (writeHead method target fields) =
      [SP] ++ (breaks target ++ ([SP, CR, LF] ++
        (fields.flatMap (fun _ => [SP, CR, LF]) ++ [CR, LF]))) := by
  have hvisible : ∀ {p : UInt8 → Bool} {b : Bytes}, b.all p = true →
      p CR = false ∧ p LF = false ∧ p SP = false → breaks b = [] := by
    intro p b h hp
    exact (breaks_eq_nil_iff b).mpr ⟨notMem_of_all h hp.1, notMem_of_all h hp.2.1,
      notMem_of_all h hp.2.2⟩
  have hlines : breaks (fields.flatMap writeField) = fields.flatMap fun _ => [SP, CR, LF] := by
    induction fields with
    | nil => rfl
    | cons f fields ih =>
      have hf := hfields f List.mem_cons_self
      have hrest := ih fun g hg => hfields g (List.mem_cons_of_mem _ hg)
      rw [List.flatMap_cons, List.flatMap_cons, breaks_append, hrest]
      simp only [writeField, breaks_append, hvisible hf.token (by decide),
        hvisible hf.value (by decide)]
      rfl
  unfold writeHead
  simp only [breaks_append, hvisible htoken (by decide), hlines]
  rfl

end Lib.Http
