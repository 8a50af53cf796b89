import AtomVault.Viewer.Staging

/-!
# The command of a viewer (`gui/broker.rs`)

An `Exec` line is split into arguments, and the path of the staged document takes the place of the
field codes. Nothing looks into the path.
-/

namespace AtomVault.Viewer.Exec

open Staging

/-! ## The tokenizer -/

/-- What the loop of `tokenize_exec` has so far. -/
structure Tokens where
  out : List Text
  cur : Text
  inQuote : Bool
  started : Bool

def Tokens.start : Tokens := ⟨[], [], false, false⟩

/-- The argument that was begun is done, also an empty one in quotes. -/
def Tokens.flush (t : Tokens) : List Text :=
  if t.started = true ∨ t.cur ≠ [] then t.out ++ [t.cur] else t.out

def scan (t : Tokens) : Text → Tokens
  | [] => t
  | c :: s =>
    if c = '"' then scan { t with inQuote := !t.inQuote, started := true } s
    else if c = '\\' ∧ t.inQuote = true then
      match s with
      | [] => t
      | n :: s => scan { t with cur := t.cur ++ [n] } s
    else if (c = ' ' ∨ c = '\t') ∧ t.inQuote = false then
      scan ⟨t.flush, if t.started = true ∨ t.cur ≠ [] then [] else t.cur, t.inQuote, false⟩ s
    else scan { t with cur := t.cur ++ [c], started := true } s

def tokenizeExec (s : Text) : List Text := (scan .start s).flush

/-! ## The arguments -/

/-- `str::replace("%%", "%")`: from left to right, and what was replaced is not looked at again. -/
def unescapePercent : Text → Text
  | [] => []
  | '%' :: '%' :: s => '%' :: unescapePercent s
  | c :: s => c :: unescapePercent s

def FIELD_CODES : List Text := [['%', 'f'], ['%', 'F'], ['%', 'u'], ['%', 'U']]

def DROPPED_CODES : List Text :=
  [['%', 'i'], ['%', 'c'], ['%', 'k'], ['%', 'd'], ['%', 'D'], ['%', 'n'], ['%', 'N'], ['%', 'v'],
    ['%', 'm']]

/-- The loop of `build_argv`. -/
def fill (path : Text) : List Text → Bool → List Text → List Text × Bool
  | argv, substituted, [] => (argv, substituted)
  | argv, substituted, tok :: toks =>
    if tok ∈ FIELD_CODES then fill path (argv ++ [path]) true toks
    else if tok ∈ DROPPED_CODES then fill path argv substituted toks
    else fill path (argv ++ [unescapePercent tok]) substituted toks

def buildArgv (exec path : Text) : List Text :=
  let (argv, substituted) := fill path [] false (tokenizeExec exec)
  if substituted = true then argv else argv ++ [path]

/-! ## Quoting -/

def escape (c : Char) : Text := if c = '"' ∨ c = '\\' then ['\\', c] else [c]

/-- An argument in double quotes. -/
def quote (arg : Text) : Text := '"' :: (arg.flatMap escape ++ ['"'])

/-- Any number of spaces and tabs, at least one. -/
def Gap (sep : Text) : Prop := sep ≠ [] ∧ ∀ c ∈ sep, c = ' ' ∨ c = '\t'

/-- A line of quoted arguments. -/
inductive Quoted : List Text → Text → Prop
  | nil : Quoted [] []
  | one (arg : Text) : Quoted [arg] (quote arg)
  | cons {arg next sep s : Text} {args : List Text} : Gap sep → Quoted (next :: args) s →
      Quoted (arg :: next :: args) (quote arg ++ (sep ++ s))

section Scan

variable {t : Tokens} {s : Text}

theorem scan_quote (t : Tokens) (s : Text) :
    scan t ('"' :: s) = scan { t with inQuote := !t.inQuote, started := true } s := by
  rw [scan.eq_def]
  exact if_pos rfl

theorem scan_backslash (hq : t.inQuote = true) (c : Char) (s : Text) :
    scan t ('\\' :: c :: s) = scan { t with cur := t.cur ++ [c] } s := by
  rw [scan.eq_def]
  exact (if_neg (by decide)).trans (if_pos ⟨rfl, hq⟩)

theorem scan_blank {c : Char} (hc : c = ' ' ∨ c = '\t') (hq : t.inQuote = false) (s : Text) :
    scan t (c :: s) =
      scan ⟨t.flush, if t.started = true ∨ t.cur ≠ [] then [] else t.cur, t.inQuote, false⟩ s := by
  have hquote : c ≠ '"' := by rcases hc with rfl | rfl <;> decide
  rw [scan.eq_def]
  refine (if_neg hquote).trans ((if_neg ?_).trans (if_pos ⟨hc, hq⟩))
  simp [hq]

theorem scan_escape (hq : t.inQuote = true) (hstarted : t.started = true) (c : Char) :
    scan t (escape c ++ s) = scan { t with cur := t.cur ++ [c] } s := by
  unfold escape
  split
  · exact scan_backslash hq c s
  · rename_i hplain
    rw [not_or] at hplain
    have hpushed : scan t (c :: s) = scan { t with cur := t.cur ++ [c], started := true } s := by
      rw [scan.eq_def]
      refine (if_neg hplain.1).trans ((if_neg fun h => hplain.2 h.1).trans (if_neg ?_))
      simp [hq]
    rw [List.singleton_append, hpushed, hstarted]

theorem scan_escaped (arg : Text) : ∀ {t : Tokens}, t.inQuote = true → t.started = true →
    scan t (arg.flatMap escape ++ s) = scan { t with cur := t.cur ++ arg } s := by
  induction arg with
  | nil => simp
  | cons c arg ih =>
    intro t hq hstarted
    rw [List.flatMap_cons, List.append_assoc, scan_escape hq hstarted]
    rw [ih (by exact hq) (by exact hstarted)]
    simp

theorem scan_quoted (arg s : Text) (hq : t.inQuote = false) (hcur : t.cur = []) :
    scan t (quote arg ++ s) = scan ⟨t.out, arg, false, true⟩ s := by
  have hline : quote arg ++ s = '"' :: (arg.flatMap escape ++ ('"' :: s)) := by simp [quote]
  rw [hline, scan_quote, scan_escaped arg (by simp [hq]) rfl, scan_quote]
  simp [hq, hcur]

theorem scan_gap {sep : Text} (hsep : Gap sep) (out : List Text) (cur s : Text) :
    scan ⟨out, cur, false, true⟩ (sep ++ s) = scan ⟨out ++ [cur], [], false, false⟩ s := by
  have hmore : ∀ {rest : Text}, (∀ c ∈ rest, c = ' ' ∨ c = '\t') →
      scan ⟨out ++ [cur], [], false, false⟩ (rest ++ s) =
        scan ⟨out ++ [cur], [], false, false⟩ s := by
    intro rest hrest
    induction rest with
    | nil => rfl
    | cons c rest ih =>
      rw [List.cons_append, scan_blank (hrest c List.mem_cons_self) rfl]
      exact ih fun d hd => hrest d (List.mem_cons_of_mem _ hd)
  obtain ⟨hne, hall⟩ := hsep
  cases sep with
  | nil => exact absurd rfl hne
  | cons c rest =>
    rw [List.cons_append, scan_blank (hall c List.mem_cons_self) rfl]
    exact hmore fun d hd => hall d (List.mem_cons_of_mem _ hd)

theorem flush_scan {args : List Text} (h : Quoted args s) (out : List Text) :
    (scan ⟨out, [], false, false⟩ s).flush = out ++ args := by
  induction h generalizing out with
  | nil => simp [scan, Tokens.flush]
  | one arg =>
    have hscan := scan_quoted (t := ⟨out, [], false, false⟩) arg [] rfl rfl
    rw [List.append_nil] at hscan
    rw [hscan]
    simp [scan, Tokens.flush]
  | @cons arg next sep s args hsep _ ih =>
    rw [scan_quoted arg _ rfl rfl, scan_gap hsep, ih]
    simp

end Scan

/-! ## The path -/

/-- The arguments with holes for the path. -/
def template (exec : Text) : List (Option Text) :=
  let parts := (tokenizeExec exec).filterMap fun tok =>
    if tok ∈ FIELD_CODES then some none
    else if tok ∈ DROPPED_CODES then none
    else some (some (unescapePercent tok))
  if none ∈ parts then parts else parts ++ [none]

theorem none_mem_template (exec : Text) : none ∈ template exec := by
  unfold template
  dsimp only
  split
  · assumption
  · exact List.mem_append_right _ List.mem_cons_self

theorem fill_eq (path : Text) (toks : List Text) : ∀ (argv : List Text) (substituted : Bool),
    fill path argv substituted toks =
      let parts := toks.filterMap fun tok =>
        if tok ∈ FIELD_CODES then some none
        else if tok ∈ DROPPED_CODES then none
        else some (some (unescapePercent tok))
      (argv ++ parts.map (·.getD path), substituted || decide (none ∈ parts)) := by
  induction toks with
  | nil => simp [fill]
  | cons tok toks ih =>
    intro argv substituted
    unfold fill
    by_cases hfield : tok ∈ FIELD_CODES
    · rw [if_pos hfield, ih]
      simp [hfield]
    · rw [if_neg hfield]
      by_cases hdropped : tok ∈ DROPPED_CODES
      · rw [if_pos hdropped, ih]
        simp [hfield, hdropped]
      · rw [if_neg hdropped, ih]
        simp [hfield, hdropped]

theorem buildArgv_eq (exec path : Text) :
    buildArgv exec path = (template exec).map (·.getD path) := by
  unfold buildArgv template
  rw [fill_eq]
  simp only [List.nil_append, Bool.false_or, decide_eq_true_eq]
  split
  · rfl
  · simp

/-- **Exec lines.** Quoted arguments are read back, whatever is in them and between them. And the
path is one of a viewer's arguments: they come from the line alone, with holes that it is put in. -/
theorem exec_quoted_and_filled :
    (∀ args s, Quoted args s → tokenizeExec s = args) ∧
    ∀ exec, ∃ parts : List (Option Text), none ∈ parts ∧
      ∀ path, buildArgv exec path = parts.map fun part => part.getD path := by
  constructor
  · intro args s h
    have hflush := flush_scan h []
    rw [List.nil_append] at hflush
    exact hflush
  · exact fun exec => ⟨template exec, none_mem_template exec, buildArgv_eq exec⟩

theorem exec_quoted_and_filled_sample :
    tokenizeExec (quote ['a', ' ', '"', '\\'] ++ (['\t', ' '] ++ quote [])) =
      [['a', ' ', '"', '\\'], []] ∧
    ∃ parts : List (Option Text), none ∈ parts ∧
      ∀ path, buildArgv ['v', ' ', '%', 'U'] path = parts.map fun part => part.getD path :=
  ⟨exec_quoted_and_filled.1 _ _ (.cons ⟨by decide, by simp⟩ (.one [])),
    exec_quoted_and_filled.2 _⟩

-- The path of a document may look like a field code.
example : buildArgv ['v', ' ', '%', 'U', ' ', '1', '%', '%'] ['%', 'f', ' ', '"'] =
    [['v'], ['%', 'f', ' ', '"'], ['1', '%']] := by decide

end AtomVault.Viewer.Exec
