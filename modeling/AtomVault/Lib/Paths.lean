import Mathlib.Data.List.Induction

/-!
# Paths as texts

A path is read from left to right. `.` and empty parts stay where they are, `..` goes up, and every
other part goes down.
-/

namespace Lib

inductive Move (α : Type)
  | stay
  | up
  | down (a : α)

/-- Where a path leads from where it starts: so far up, and then down these, the last one first. -/
structure Course (α : Type) where
  ups : Nat
  names : List α
  deriving DecidableEq

namespace Course

variable {α : Type}

def start : Course α := ⟨0, []⟩

def move (c : Course α) : Move α → Course α
  | .stay => c
  | .up =>
    match c.names with
    | [] => { c with ups := c.ups + 1 }
    | _ :: names => { c with names := names }
  | .down a => { c with names := a :: c.names }

def of (moves : List (Move α)) : Course α := moves.foldl move start

/-- One way, and then another. -/
def followedBy (c d : Course α) : Course α :=
  ⟨c.ups + (d.ups - c.names.length), d.names ++ c.names.drop d.ups⟩

theorem followedBy_start (c : Course α) : c.followedBy start = c := by
  unfold followedBy start
  simp

theorem followedBy_of_le {c d : Course α} (h : d.ups ≤ c.names.length) :
    c.followedBy d = ⟨c.ups, d.names ++ c.names.drop d.ups⟩ := by
  unfold followedBy
  rw [Nat.sub_eq_zero_of_le h, Nat.add_zero]

theorem followedBy_assoc (c d e : Course α) :
    (c.followedBy d).followedBy e = c.followedBy (d.followedBy e) := by
  simp only [followedBy, List.length_append, List.length_drop, List.drop_append, List.drop_drop,
    List.append_assoc, mk.injEq]
  exact ⟨by omega, trivial⟩

theorem names_up (c : Course α) : (c.move .up).names = c.names.tail := by
  obtain ⟨ups, names⟩ := c
  cases names <;> rfl

/-- A way that does not go up. -/
theorem followedBy_down (c : Course α) (names : List α) :
    c.followedBy ⟨0, names⟩ = ⟨c.ups, names ++ c.names⟩ :=
  followedBy_of_le (Nat.zero_le _)

theorem move_followedBy (c d : Course α) (m : Move α) :
    (c.followedBy d).move m = c.followedBy (d.move m) := by
  cases m with
  | stay => rfl
  | down a => rfl
  | up =>
    obtain ⟨ups, names⟩ := d
    cases names with
    | cons a names => rfl
    | nil =>
      by_cases hle : c.names.length ≤ ups
      · have hdrop : c.names.drop ups = [] := List.drop_eq_nil_of_le hle
        have hnext : c.names.drop (ups + 1) = [] := List.drop_eq_nil_of_le (by omega)
        simp only [followedBy, move, hdrop, hnext, List.nil_append]
        congr 1
        omega
      · have hlt : ups < c.names.length := by omega
        have hdrop := List.drop_eq_getElem_cons hlt
        simp only [followedBy, move, hdrop, List.nil_append]
        congr 1
        omega

theorem of_append (ms ns : List (Move α)) : of (ms ++ ns) = (of ms).followedBy (of ns) := by
  unfold of
  rw [List.foldl_append]
  induction ns using List.reverseRecOn with
  | nil => exact (followedBy_start _).symm
  | append_singleton ns m ih =>
    rw [List.foldl_append, List.foldl_append, ih]
    exact move_followedBy _ _ m

theorem mem_names_of {a : α} {ms : List (Move α)} (h : a ∈ (of ms).names) : .down a ∈ ms := by
  induction ms using List.reverseRecOn with
  | nil => cases h
  | append_singleton ms m ih =>
    unfold of at h
    rw [List.foldl_append] at h
    change a ∈ (move (of ms) m).names at h
    cases m with
    | stay => exact List.mem_append_left _ (ih h)
    | down b =>
      rcases List.mem_cons.mp h with rfl | h
      · simp
      · exact List.mem_append_left _ (ih h)
    | up =>
      rw [names_up] at h
      exact List.mem_append_left _ (ih (List.mem_of_mem_tail h))

end Course

/-! ## Texts -/

def moveOf (part : List Char) : Move (List Char) :=
  if part = [] ∨ part = ['.'] then .stay else if part = ['.', '.'] then .up else .down part

/-- A part that goes down. -/
def PlainPart (part : List Char) : Prop :=
  '/' ∉ part ∧ part ≠ [] ∧ part ≠ ['.'] ∧ part ≠ ['.', '.']

instance (part : List Char) : Decidable (PlainPart part) :=
  inferInstanceAs (Decidable (_ ∧ _))

def courseOf (path : List Char) : Course (List Char) := .of ((path.splitOn '/').map moveOf)

def isAbsolute (path : List Char) : Bool := path.head? = some '/'

/-- The path without `.` and `..`, if it can be: above the root there is nothing. -/
def resolve (path : List Char) : Bool × Course (List Char) :=
  (isAbsolute path, if isAbsolute path then { courseOf path with ups := 0 } else courseOf path)

/-- `PathBuf::push`, and so `Path::join`. -/
def pushPath (base path : List Char) : List Char :=
  if isAbsolute path then path
  else if base = [] ∨ base.getLast? = some '/' then base ++ path
  else base ++ '/' :: path

section Lemmas

variable {base path a b part : List Char}

theorem courseOf_append (a b : List Char) :
    courseOf (a ++ '/' :: b) = (courseOf a).followedBy (courseOf b) := by
  unfold courseOf
  rw [List.splitOn_append_cons_self, List.map_append, Course.of_append]

theorem courseOf_nil : courseOf [] = .start := by decide

theorem courseOf_plain (h : PlainPart part) : courseOf part = ⟨0, [part]⟩ := by
  obtain ⟨hslash, hempty, hdot, hdots⟩ := h
  have hmove : moveOf part = .down part := by
    unfold moveOf
    rw [if_neg (not_or.mpr ⟨hempty, hdot⟩), if_neg hdots]
  unfold courseOf
  rw [List.splitOn_eq_singleton hslash, List.map_singleton, hmove]
  rfl

theorem not_mem_of_mem_splitOn {c : Char} (h : part ∈ path.splitOn c) : c ∉ part := by
  induction path generalizing part with
  | nil =>
    rw [List.splitOn_nil, List.mem_singleton] at h
    simp [h]
  | cons d path ih =>
    rw [List.splitOn_cons_eq_if_modifyHead] at h
    split at h
    · rcases List.mem_cons.mp h with rfl | h
      · simp
      · exact ih h
    · rename_i hne
      obtain ⟨first, rest, hsplit⟩ := List.exists_cons_of_ne_nil (List.splitOn_ne_nil c path)
      rw [hsplit] at h ih
      rcases List.mem_cons.mp h with rfl | h
      · have hd : c ≠ d := fun heq => hne (by simp [heq])
        rw [List.mem_cons, not_or]
        exact ⟨hd, ih List.mem_cons_self⟩
      · exact ih (List.mem_cons_of_mem _ h)

/-- Only parts that go down are among the names. -/
theorem plainPart_of_mem (h : part ∈ (courseOf path).names) : PlainPart part := by
  obtain ⟨p, hp, hmove⟩ := List.mem_map.mp (Course.mem_names_of h)
  unfold moveOf at hmove
  split at hmove
  · cases hmove
  · rename_i hstay
    split at hmove
    · cases hmove
    · rename_i hup
      cases hmove
      rw [not_or] at hstay
      exact ⟨not_mem_of_mem_splitOn hp, hstay.1, hstay.2, hup⟩

theorem courseOf_pushPath (h : isAbsolute path = false) :
    courseOf (pushPath base path) = (courseOf base).followedBy (courseOf path) := by
  unfold pushPath
  rw [h, if_neg (by simp)]
  split
  · rename_i hbase
    rcases hbase with rfl | hlast
    · rw [courseOf_nil]
      unfold Course.followedBy Course.start
      simp
    · obtain ⟨front, rfl⟩ := List.getLast?_eq_some_iff.mp hlast
      rw [List.append_assoc, courseOf_append, courseOf_nil, Course.followedBy_start]
      exact courseOf_append _ _
  · exact courseOf_append _ _

theorem pushPath_ne_nil (h : path ≠ []) : pushPath base path ≠ [] := by
  unfold pushPath
  split
  · exact h
  · split
    · exact List.append_ne_nil_of_right_ne_nil _ h
    · simp

theorem isAbsolute_pushPath (h : isAbsolute path = false) :
    isAbsolute (pushPath base path) = isAbsolute base := by
  unfold pushPath
  rw [h, if_neg (by simp)]
  cases base with
  | nil =>
    rw [if_pos (.inl rfl), List.nil_append, h]
    rfl
  | cons c base => split <;> rfl

end Lemmas

/-! ## Parts of a text -/

theorem forall_of_mem_splitOnP {α : Type} {p : α → Bool} {l c : List α} (h : c ∈ l.splitOnP p) :
    ∀ a ∈ c, p a = false := by
  induction l generalizing c with
  | nil =>
    rw [List.splitOnP_nil, List.mem_singleton] at h
    simp [h]
  | cons b l ih =>
    rw [List.splitOnP_cons_eq_if_modifyHead] at h
    split at h
    · rcases List.mem_cons.mp h with rfl | h
      · simp
      · exact ih h
    · rename_i hb
      cases hl : l.splitOnP p with
      | nil => exact absurd hl (List.splitOnP_ne_nil p l)
      | cons d rest =>
        rw [hl] at h ih
        rcases List.mem_cons.mp h with rfl | h
        · intro a ha
          rcases List.mem_cons.mp ha with rfl | ha
          · simpa using hb
          · exact ih List.mem_cons_self a ha
        · exact ih (List.mem_cons_of_mem _ h)

end Lib
