import AtomVault.Daemon.Book
import AtomVault.Lib.Paths

/-!
# Where a proposed vault is saved (`daemon.rs`, `gui/mod.rs`, `gui/p2p.rs`)

The nickname and the name in the proposal are pasted into a path, and the path is offered to the
user.
-/

open Lib

namespace AtomVault.Daemon.SavePaths

open Live Book

section Model

variable (u : Unicode) (home : Option Text) (senderNick filename : String)

/-- The name of a file under a folder of the sender's. -/
def pasted (folder : Text) : Text :=
  folder ++ '/' :: (senderNick.toList ++ '/' :: filename.toList)

def DOWNLOADS : Text := "Downloads".toList
def RECEIVED : Text := ".atom_vault/received".toList

/-- What the terminal offers. -/
def defaultPath : Text := pushPath (home.getD []) (pasted senderNick filename DOWNLOADS)

/-- What the window is filled with. -/
def prefilledPath : Text := pushPath (home.getD []) (pasted senderNick filename RECEIVED)

/-- The answers at the terminal: yes or no, the label, and the path. -/
def askUser (ans label pathAns : Text) : SyncResponse :=
  if u.toLowercase (u.trim ans) = ['y'] ∨ u.trim ans = [] then
    { accepted := true
      label := some (String.ofList (u.trim label))
      savePath := some (String.ofList
        (if u.trim pathAns = [] then defaultPath home senderNick filename else u.trim pathAns)) }
  else { accepted := false, label := none, savePath := none }

def resolveSavePath (savePath : Text) : Text :=
  if savePath = [] then defaultPath home senderNick filename else savePath

/-- The answer of the window, with what stands in its two fields. -/
def acceptRequest (vaultLabel : String) (savePath : Text) : SyncResponse where
  accepted := true
  label := some (if vaultLabel = "" then "Synced Vault" else vaultLabel)
  savePath := some (String.ofList (resolveSavePath home senderNick filename savePath))

end Model

section Accepting

variable {u : Unicode} {home : Option Text} {senderNick filename : String}

theorem askUser_default {ans label pathAns : Text} (hpath : u.trim pathAns = [])
    (h : (askUser u home senderNick filename ans label pathAns).accepted = true) :
    (askUser u home senderNick filename ans label pathAns).savePath =
      some (String.ofList (defaultPath home senderNick filename)) := by
  unfold askUser at h ⊢
  rw [if_pos hpath]
  split at h
  · rename_i hyes
    rw [if_pos hyes]
  · cases h

theorem acceptRequest_prefilled (vaultLabel : String) :
    (acceptRequest home senderNick filename vaultLabel
      (prefilledPath home senderNick filename)).savePath =
        some (String.ofList (prefilledPath home senderNick filename)) := by
  have hpasted : pasted senderNick filename RECEIVED ≠ [] := by
    unfold pasted
    exact List.append_ne_nil_of_right_ne_nil _ (List.cons_ne_nil _ _)
  have hne : prefilledPath home senderNick filename ≠ [] := pushPath_ne_nil hpasted
  unfold acceptRequest resolveSavePath
  rw [if_neg hne]

end Accepting

/-! ## Staying in the sender's folder -/

/-- The path leads to something in the folder of that name, and it is an ordinary name. -/
def Inside (home : Option Text) (folder : Text) (nick : String) (path : Text) : Prop :=
  ∃ rest, rest ≠ [] ∧ resolve path = ((resolve (pushPath (home.getD []) folder)).1,
    ⟨(resolve (pushPath (home.getD []) folder)).2.ups,
      rest ++ nick.toList :: (resolve (pushPath (home.getD []) folder)).2.names⟩)

/-- Both paths that are offered. -/
def Confined (home : Option Text) (nick filename : String) : Prop :=
  Inside home DOWNLOADS nick (defaultPath home nick filename) ∧
    Inside home RECEIVED nick (prefilledPath home nick filename)

/-- The nickname is a name, and the file's goes down without going up first, or goes up once and
down again through the nickname. -/
def Stays (nick filename : String) : Prop :=
  PlainPart nick.toList ∧
    ((courseOf filename.toList).ups = 0 ∧ (courseOf filename.toList).names ≠ [] ∨
    (courseOf filename.toList).ups = 1 ∧
      ∃ rest, rest ≠ [] ∧ (courseOf filename.toList).names = rest ++ [nick.toList])

section Paths

variable {home : Option Text} {nick filename : String} {folder : Text}

theorem isAbsolute_pasted (hfolder : isAbsolute folder = false) (hne : folder ≠ []) :
    isAbsolute (pasted nick filename folder) = false := by
  cases folder with
  | nil => exact absurd rfl hne
  | cons c folder => exact hfolder

theorem courseOf_pasted (hfolder : isAbsolute folder = false) (hne : folder ≠ []) :
    courseOf (pushPath (home.getD []) (pasted nick filename folder)) =
      ((courseOf (pushPath (home.getD []) folder)).followedBy (courseOf nick.toList)).followedBy
        (courseOf filename.toList) := by
  rw [courseOf_pushPath (isAbsolute_pasted hfolder hne), courseOf_pushPath hfolder]
  unfold pasted
  rw [courseOf_append, courseOf_append, Course.followedBy_assoc, Course.followedBy_assoc]

theorem names_of_inside {path : Text} (h : Inside home folder nick path) :
    ∃ rest, rest ≠ [] ∧ (courseOf path).names =
      rest ++ nick.toList :: (courseOf (pushPath (home.getD []) folder)).names := by
  have hnames : ∀ path, (resolve path).2.names = (courseOf path).names := by
    intro path
    unfold resolve
    split <;> rfl
  obtain ⟨rest, hrest, hpath⟩ := h
  have hsame := congrArg (fun r => r.2.names) hpath
  simp only [hnames] at hsame
  exact ⟨rest, hrest, hsame⟩

theorem inside_of_names {path : Text} {rest : List Text} (hrest : rest ≠ [])
    (habsolute : isAbsolute path = isAbsolute (pushPath (home.getD []) folder))
    (hcourse : courseOf path = ⟨(courseOf (pushPath (home.getD []) folder)).ups,
      rest ++ nick.toList :: (courseOf (pushPath (home.getD []) folder)).names⟩) :
    Inside home folder nick path := by
  refine ⟨rest, hrest, ?_⟩
  unfold resolve
  rw [habsolute, hcourse]
  split <;> rfl

theorem plain_of_inside {path : Text} (h : Inside home folder nick path) :
    PlainPart nick.toList := by
  obtain ⟨rest, -, hnames⟩ := names_of_inside h
  have hmem : nick.toList ∈ (courseOf path).names := by
    rw [hnames]
    simp
  exact plainPart_of_mem hmem

variable (home filename) in
theorem courseOf_pasted_plain (hfolder : isAbsolute folder = false) (hne : folder ≠ [])
    (hnick : PlainPart nick.toList) {base : Course Text}
    (hbase : courseOf (pushPath (home.getD []) folder) = base) :
    courseOf (pushPath (home.getD []) (pasted nick filename folder)) =
      Course.followedBy ⟨base.ups, nick.toList :: base.names⟩ (courseOf filename.toList) := by
  rw [courseOf_pasted hfolder hne, hbase, courseOf_plain hnick, Course.followedBy_down]
  rfl

theorem inside_of_stays (hfolder : isAbsolute folder = false) (hne : folder ≠ [])
    (h : Stays nick filename) :
    Inside home folder nick (pushPath (home.getD []) (pasted nick filename folder)) := by
  obtain ⟨hnick, hnames⟩ := h
  have hcourse := courseOf_pasted_plain home filename hfolder hne hnick rfl
  have habsolute : isAbsolute (pushPath (home.getD []) (pasted nick filename folder)) =
      isAbsolute (pushPath (home.getD []) folder) := by
    rw [isAbsolute_pushPath (isAbsolute_pasted hfolder hne), isAbsolute_pushPath hfolder]
  rcases hnames with ⟨hups, hrest⟩ | ⟨hups, rest, hrest, hnames⟩
  · refine inside_of_names hrest habsolute ?_
    rw [hcourse, Course.followedBy_of_le (by rw [hups]; exact Nat.zero_le _), hups]
    rfl
  · refine inside_of_names hrest habsolute ?_
    rw [hcourse, Course.followedBy_of_le (by rw [hups]; simp), hups, hnames]
    simp

theorem names_of_drop {names above below : List Text} (j : Nat)
    (h : names ++ above.drop j = below ++ above) : names = below ++ above.take j := by
  have hwhole : names ++ above.drop j = (below ++ above.take j) ++ above.drop j := by
    rw [h, List.append_assoc, List.take_append_drop]
  exact List.append_cancel_right hwhole

/-- From two parts above the nickname on, the two folders have nothing in common. -/
theorem not_above {a b c d : Text} (hbd : b ≠ d) (hcd : c ≠ d) {names above rest rest' : List Text}
    (j : Nat) (hfirst : names ++ above.drop j = rest ++ a :: d :: above)
    (hsecond : names ++ (c :: above).drop j = rest' ++ a :: b :: c :: above) : False := by
  have hd : names = (rest ++ [a, d]) ++ above.take j := names_of_drop j (by simpa using hfirst)
  have hb : names = (rest' ++ [a, b]) ++ (c :: above).take j :=
    names_of_drop j (by simpa using hsecond)
  rw [hd] at hb
  rcases Nat.lt_or_ge above.length j with hlong | hshort
  · -- above the root: what stands next to the rest is `d` in one and `c` in the other
    obtain ⟨i, rfl⟩ : ∃ i, j = i + 1 := ⟨j - 1, by omega⟩
    rw [List.take_succ_cons, List.take_of_length_le (by omega), List.take_of_length_le (by omega)]
      at hb
    have hwhole : ((rest ++ [a]) ++ [d]) ++ above = ((rest' ++ [a, b]) ++ [c]) ++ above := by
      simpa using hb
    have hends := List.append_cancel_right hwhole
    exact hcd (List.singleton_inj.mp (List.append_inj' hends rfl).2).symm
  · have hlen : (above.take j).length = ((c :: above).take j).length := by
      rw [List.length_take, List.length_take, List.length_cons]
      omega
    have hends : (rest ++ [a]) ++ [d] = (rest' ++ [a]) ++ [b] := by
      simpa using (List.append_inj' hb hlen).1
    exact hbd (List.singleton_inj.mp (List.append_inj' hends rfl).2).symm

theorem courseOf_downloads : courseOf DOWNLOADS = ⟨0, [DOWNLOADS]⟩ := by decide

theorem courseOf_received :
    courseOf RECEIVED = ⟨0, ["received".toList, ".atom_vault".toList]⟩ := by decide

theorem stays_of_confined (h : Confined home nick filename) : Stays nick filename := by
  have hnick := plain_of_inside h.1
  obtain ⟨rest, hrest, hfirst⟩ := names_of_inside h.1
  obtain ⟨rest', -, hsecond⟩ := names_of_inside h.2
  have hdownloads : courseOf (pushPath (home.getD []) DOWNLOADS) =
      ⟨(courseOf (home.getD [])).ups, DOWNLOADS :: (courseOf (home.getD [])).names⟩ := by
    rw [courseOf_pushPath rfl, courseOf_downloads, Course.followedBy_down]
    rfl
  have hreceived : courseOf (pushPath (home.getD []) RECEIVED) = ⟨(courseOf (home.getD [])).ups,
      "received".toList :: ".atom_vault".toList :: (courseOf (home.getD [])).names⟩ := by
    rw [courseOf_pushPath rfl, courseOf_received, Course.followedBy_down]
    rfl
  unfold defaultPath at hfirst
  unfold prefilledPath at hsecond
  rw [courseOf_pasted_plain home filename rfl (by decide) hnick hdownloads, hdownloads] at hfirst
  rw [courseOf_pasted_plain home filename rfl (by decide) hnick hreceived, hreceived] at hsecond
  refine ⟨hnick, ?_⟩
  unfold Course.followedBy at hfirst hsecond
  match hups : (courseOf filename.toList).ups with
  | 0 =>
    rw [hups] at hfirst
    refine .inl ⟨rfl, ?_⟩
    rwa [List.append_cancel_right hfirst]
  | 1 =>
    rw [hups] at hfirst
    have hwhole : (courseOf filename.toList).names ++
        (DOWNLOADS :: (courseOf (home.getD [])).names) =
          (rest ++ [nick.toList]) ++ (DOWNLOADS :: (courseOf (home.getD [])).names) := by
      simpa using hfirst
    exact .inr ⟨rfl, rest, hrest, List.append_cancel_right hwhole⟩
  | j + 2 =>
    rw [hups] at hfirst hsecond
    exact (not_above (by decide) (by decide) j hfirst hsecond).elim

theorem confined_iff : Confined home nick filename ↔ Stays nick filename :=
  ⟨stays_of_confined, fun h =>
    ⟨inside_of_stays rfl (by decide) h, inside_of_stays rfl (by decide) h⟩⟩

theorem ne_of_inside {nick' : String} {path path' : Text} (hne : nick ≠ nick')
    (h : Inside home folder nick path) (h' : Inside home folder nick' path') :
    resolve path ≠ resolve path' := by
  intro hsame
  obtain ⟨rest, -, hpath⟩ := h
  obtain ⟨rest', -, hpath'⟩ := h'
  rw [hpath, hpath'] at hsame
  have hnames := congrArg (fun r => r.2.names) hsame
  have hwhole : (rest ++ [nick.toList]) ++ (resolve (pushPath (home.getD []) folder)).2.names =
      (rest' ++ [nick'.toList]) ++ (resolve (pushPath (home.getD []) folder)).2.names := by
    simpa using hnames
  have hends := List.append_cancel_right hwhole
  exact hne (String.toList_inj.mp (List.singleton_inj.mp (List.append_inj' hends rfl).2))

variable (home) in
/-- **Save paths.** What two friends propose is offered inside their own folders, and not under
one path, exactly where both nicknames are names and no filename leaves. -/
theorem savePaths_iff (nick filename nick' filename' : String) :
    (Confined home nick filename ∧ Confined home nick' filename' ∧ (nick ≠ nick' →
      resolve (defaultPath home nick filename) ≠ resolve (defaultPath home nick' filename') ∧
      resolve (prefilledPath home nick filename) ≠
        resolve (prefilledPath home nick' filename'))) ↔
    Stays nick filename ∧ Stays nick' filename' := by
  rw [confined_iff, confined_iff]
  constructor
  · rintro ⟨h, h', -⟩
    exact ⟨h, h'⟩
  · rintro ⟨h, h'⟩
    refine ⟨h, h', fun hne => ?_⟩
    have hfirst : Confined home nick filename := confined_iff.mpr h
    have hsecond : Confined home nick' filename' := confined_iff.mpr h'
    exact ⟨ne_of_inside hne hfirst.1 hsecond.1, ne_of_inside hne hfirst.2 hsecond.2⟩

end Paths

/-! ### Names that leave -/

example : Stays "bob" "holiday.vault" := ⟨by decide, .inl ⟨by decide, by decide⟩⟩

def sampleHome : Option Text := some "/home/u".toList

/-- A filename reaches the home directory, and two friends have one path. -/
theorem filename_leaves :
    resolve (defaultPath sampleHome "bob" "../../.ssh/authorized_keys") =
      resolve "/home/u/.ssh/authorized_keys".toList ∧
    ¬Confined sampleHome "bob" "../../.ssh/authorized_keys" ∧
    defaultPath sampleHome "a" "b/c" = defaultPath sampleHome "a/b" "c" ∧
    prefilledPath sampleHome "a" "b/c" = prefilledPath sampleHome "a/b" "c" := by
  refine ⟨by decide +kernel, fun h => ?_, by decide +kernel, by decide +kernel⟩
  obtain ⟨-, hnames | hnames⟩ := stays_of_confined h
  · exact absurd hnames.1 (by decide +kernel)
  · exact absurd hnames.1 (by decide +kernel)

end AtomVault.Daemon.SavePaths
