import AtomVault.Daemon.Book

/-!
# Who a nickname stands for (`friend.rs`)

Commands on the address book, one after the other. Each loads the whole list and saves it again, and
is told of no error of the file.
-/

open Lib

namespace AtomVault.Daemon.Nicknames

open Live Book

inductive Command
  | add (home : Option (Option Bytes)) (url : Text) (nickname : String)
  | seen (nickname : String) (now : UInt64)
  | vault (nickname : String) (v : SharedVault)

/-- How a save ends: with all its bytes in the file, before the open, or with the first `n` bytes. -/
inductive SaveEnd
  | whole
  | notOpened
  | cut (n : Nat)
  deriving DecidableEq

/-- A command on some host. `nonce` is what a save draws. -/
structure Call where
  command : Command
  nonce : List.Vector UInt8 24
  /-- The file is read, if it is there. -/
  reads : Bool
  save : SaveEnd

def Call.Served (call : Call) : Prop := call.reads = true ∧ call.save = .whole

instance (call : Call) : Decidable call.Served := inferInstanceAs (Decidable (_ ∧ _))

section Model

variable (u : Unicode) (tx : Texts) (ed : Ed25519) (c : ConfigCipher)
  (js : Json (List FriendRecord))

/-- The list that is saved, if one is. A command that panics or exits saves nothing. -/
def Command.saves (loaded : Option (List FriendRecord)) : Command → Option (List FriendRecord)
  | add home url nickname =>
    match addFriendCore u tx ed home url nickname loaded with
    | some (.ok (_, friends)) => some friends
    | _ => none
  | seen nickname now => loaded.bind (updateFriendLastSeen nickname now)
  | vault nickname v => loaded.map (pushVault nickname v)

/-- `save_friends`, which opens the file with `truncate` and drops every error. -/
def saveFriends (file : Option Bytes) (call : Call) (friends : List FriendRecord) : Option Bytes :=
  match call.save with
  | .whole => some (friendsData c js call.nonce friends)
  | .notOpened => file
  | .cut n => some ((friendsData c js call.nonce friends).take n)

/-- A file that cannot be read is an empty list. -/
def Call.loads (file : Option Bytes) (call : Call) : Option (List FriendRecord) :=
  if call.reads then loadFriends c js file else some []

def step (file : Option Bytes) (call : Call) : Option Bytes :=
  match call.command.saves u tx ed (call.loads c js file) with
  | some friends => saveFriends c js file call friends
  | none => file

def run (file : Option Bytes) (calls : List Call) : Option Bytes :=
  calls.foldl (step u tx ed c js) file

end Model

/-! ## The invariant -/

/-- Nicknames and keys stand once each, and every link is one. -/
structure Sound (tx : Texts) (ed : Ed25519) (friends : List FriendRecord) : Prop where
  nicknames : (friends.map FriendRecord.nickname).Nodup
  links : ∀ f ∈ friends, ∃ host key, parseAtomUri tx ed f.url = some (.ok (host, key))
  keys : (friends.map fun f => keyOf tx ed f.url).Nodup

/-- `nickname` stands for `key`. -/
def Names (tx : Texts) (ed : Ed25519) (friends : List FriendRecord) (nickname : String)
    (key : VerifyingKey) : Prop :=
  ∃ f ∈ friends, f.nickname = nickname ∧ keyOf tx ed f.url = some (some key)

/-- What a link that is taken does to the list. -/
structure Added (url : Text) (nickname : String) (friends friends' : List FriendRecord) : Prop where
  fresh : nickname ∉ friends.map FriendRecord.nickname →
    friends' = friends ++ [⟨nickname, url, [], none⟩]
  again : nickname ∈ friends.map FriendRecord.nickname → friends' = friends.map fun f =>
    if f.nickname = nickname then { f with url := url } else f

section Specs

variable {u : Unicode} {tx : Texts} {ed : Ed25519} {c : ConfigCipher}
  {js : Json (List FriendRecord)} {friends friends' : List FriendRecord}

theorem sound_nil : Sound tx ed [] := ⟨List.nodup_nil, by simp, List.nodup_nil⟩

theorem keyOf_of_parse {url host : Text} {key : VerifyingKey}
    (h : parseAtomUri tx ed url = some (.ok (host, key))) : keyOf tx ed url = some (some key) := by
  unfold keyOf
  rw [h]
  rfl

theorem Sound.findM?_key (h : Sound tx ed friends) (key : VerifyingKey) :
    (friends.findM? fun f => do return (← keyOf tx ed f.url) = some key) =
      some (friends.find? fun f => keyOf tx ed f.url = some (some key)) := by
  have hlinks := h.links
  clear h
  induction friends with
  | nil => rfl
  | cons f friends ih =>
    obtain ⟨host, own, hparse⟩ := hlinks f List.mem_cons_self
    have hown := keyOf_of_parse hparse
    rw [List.findM?, List.find?_cons, ih fun g hg => hlinks g (List.mem_cons_of_mem f hg), hown]
    by_cases hkey : own = key
    · subst hkey
      simp
    · simp [hkey]

theorem modifyFriend_eq (h : (friends.map FriendRecord.nickname).Nodup) (nickname : String)
    (g : FriendRecord → FriendRecord) :
    modifyFriend nickname g friends = change FriendRecord.nickname nickname g friends :=
  modify_findIdx_eq_change h

/-- A link is refused, or its nickname and its key are both new, or stood for each other before. -/
theorem Sound.addTo_cases (h : Sound tx ed friends) (url : Text) (nickname : String)
    (key : VerifyingKey) :
    (∃ e, addTo tx ed url nickname key friends = some (.error e)) ∨
    (nickname ∉ friends.map FriendRecord.nickname ∧
      (∀ f ∈ friends, keyOf tx ed f.url ≠ some (some key)) ∧
      ∃ msg, addTo tx ed url nickname key friends =
        some (.ok (msg, friends ++ [⟨nickname, url, [], none⟩]))) ∨
    (Names tx ed friends nickname key ∧
      ∃ msg, addTo tx ed url nickname key friends = some (.ok (msg,
        change FriendRecord.nickname nickname (fun f => { f with url := url }) friends))) := by
  unfold addTo
  rw [h.findM?_key]
  simp only [bind, Option.bind]
  split
  · exact .inl ⟨_, rfl⟩
  · rename_i hother
    split
    · rename_i existing hexisting
      have hmem := List.mem_of_find?_eq_some hexisting
      have hname : existing.nickname = nickname := by simpa using List.find?_some hexisting
      obtain ⟨host, own, hparse⟩ := h.links existing hmem
      rw [hparse]
      by_cases hkey : own = key
      · subst hkey
        refine .inr (.inr ⟨⟨existing, hmem, hname, keyOf_of_parse hparse⟩, ?_⟩)
        simp only [ne_eq, not_true_eq_false, if_false, modifyFriend_eq h.nicknames]
        exact ⟨_, rfl⟩
      · exact .inl ⟨_, if_pos hkey⟩
    · rename_i hnone
      have hfresh : nickname ∉ friends.map FriendRecord.nickname := find?_key_eq_none.mp hnone
      refine .inr (.inl ⟨hfresh, fun f hf hkey => ?_, _, rfl⟩)
      cases hfind : friends.find? fun f => keyOf tx ed f.url = some (some key) with
      | none => exact absurd hkey (by simpa using List.find?_eq_none.mp hfind f hf)
      | some g =>
        -- what was found has another name, so it was refused
        have hg := List.mem_of_find?_eq_some hfind
        have hname : g.nickname ≠ nickname := fun heq =>
          hfresh (List.mem_map.mpr ⟨g, hg, heq⟩)
        rw [hfind] at hother
        simp [hname] at hother

theorem Sound.append (h : Sound tx ed friends) {f : FriendRecord} {host : Text}
    {key : VerifyingKey} (hparse : parseAtomUri tx ed f.url = some (.ok (host, key)))
    (hname : f.nickname ∉ friends.map FriendRecord.nickname)
    (hkey : ∀ g ∈ friends, keyOf tx ed g.url ≠ some (some key)) :
    Sound tx ed (friends ++ [f]) where
  nicknames := nodup_map_append h.nicknames hname
  links g hg := by
    rcases List.mem_append.mp hg with hg | hg
    · exact h.links g hg
    · rw [List.mem_singleton.mp hg]
      exact ⟨host, key, hparse⟩
  keys := by
    refine nodup_map_append h.keys fun hmem => ?_
    obtain ⟨g, hg, hgkey⟩ := List.mem_map.mp hmem
    exact hkey g hg (hgkey.trans (keyOf_of_parse hparse))

theorem Sound.change (h : Sound tx ed friends) {nickname : String}
    {g : FriendRecord → FriendRecord} (hname : ∀ f, (g f).nickname = f.nickname)
    (hlink : ∀ f ∈ friends, f.nickname = nickname → keyOf tx ed (g f).url = keyOf tx ed f.url) :
    Sound tx ed (Lib.change FriendRecord.nickname nickname g friends) where
  nicknames := by
    rw [map_change fun f _ _ => hname f]
    exact h.nicknames
  links f hf := by
    have hparse : ∀ url, (∃ key, keyOf tx ed url = some (some key)) →
        ∃ host key, parseAtomUri tx ed url = some (.ok (host, key)) := by
      rintro url ⟨key, hkey⟩
      unfold keyOf at hkey
      obtain ⟨r, hr, hto⟩ := Option.map_eq_some_iff.mp hkey
      match r, hto with
      | .ok (host, own), _ => exact ⟨host, own, hr⟩
    rcases mem_change.mp hf with ⟨f', hf', hsame, rfl⟩ | ⟨hf, -⟩
    · obtain ⟨host, key, hold⟩ := h.links f' hf'
      exact hparse _ ⟨key, (hlink f' hf' hsame).trans (keyOf_of_parse hold)⟩
    · exact h.links f hf
  keys := by
    have hkeys : (Lib.change FriendRecord.nickname nickname g friends).map
        (fun f => keyOf tx ed f.url) = friends.map fun f => keyOf tx ed f.url :=
      map_change hlink
    rw [hkeys]
    exact h.keys

theorem Names.change {nickname name : String} {key : VerifyingKey}
    {g : FriendRecord → FriendRecord} (h : Names tx ed friends name key)
    (hname : ∀ f, (g f).nickname = f.nickname)
    (hlink : ∀ f ∈ friends, f.nickname = nickname → keyOf tx ed (g f).url = keyOf tx ed f.url) :
    Names tx ed (Lib.change FriendRecord.nickname nickname g friends) name key := by
  obtain ⟨f, hf, rfl, hkey⟩ := h
  by_cases hsame : f.nickname = nickname
  · exact ⟨g f, mem_change.mpr (.inl ⟨f, hf, hsame, rfl⟩), hname f, (hlink f hf hsame).trans hkey⟩
  · exact ⟨f, mem_change.mpr (.inr ⟨hf, hsame⟩), rfl, hkey⟩

end Specs

/-! ## One command -/

section Commands

variable {u : Unicode} {tx : Texts} {ed : Ed25519} {c : ConfigCipher}
  {js : Json (List FriendRecord)} {friends friends' : List FriendRecord}

/-- The invariant holds of the new list, and who had a name has it. -/
structure Continues (tx : Texts) (ed : Ed25519) (friends friends' : List FriendRecord) : Prop where
  sound : Sound tx ed friends'
  names : ∀ nickname key, Names tx ed friends nickname key → Names tx ed friends' nickname key

theorem Sound.continues_change (h : Sound tx ed friends) {nickname : String}
    {g : FriendRecord → FriendRecord} (hname : ∀ f, (g f).nickname = f.nickname)
    (hlink : ∀ f ∈ friends, f.nickname = nickname → keyOf tx ed (g f).url = keyOf tx ed f.url) :
    Continues tx ed friends (Lib.change FriendRecord.nickname nickname g friends) :=
  ⟨h.change hname hlink, fun _ _ hnames => hnames.change hname hlink⟩

theorem Sound.keyOf_of_names (h : Sound tx ed friends) {nickname : String} {key : VerifyingKey}
    (hnames : Names tx ed friends nickname key) {f : FriendRecord} (hf : f ∈ friends)
    (hname : f.nickname = nickname) : keyOf tx ed f.url = some (some key) := by
  obtain ⟨g, hg, hgname, hkey⟩ := hnames
  rw [List.inj_on_of_nodup_map h.nicknames hf hg (hname.trans hgname.symm)]
  exact hkey

theorem Sound.added (h : Sound tx ed friends) {home : Option (Option Bytes)} {url : Text}
    {nickname msg : String}
    (hadd : addFriendCore u tx ed home url nickname (some friends) = some (.ok (msg, friends'))) :
    Added url nickname friends friends' ∧ Continues tx ed friends friends' := by
  obtain ⟨_, host, key, heq, hparse, hto⟩ := addFriendCore_eq_ok hadd
  cases heq
  rcases h.addTo_cases url nickname key with ⟨e, he⟩ | ⟨hname, hkey, _, hok⟩ |
    ⟨hnames, _, hok⟩
  · rw [he] at hto
    cases hto
  · rw [hok] at hto
    cases hto
    refine ⟨⟨fun _ => rfl, fun hmem => absurd hmem hname⟩, h.append hparse hname hkey, ?_⟩
    rintro name own ⟨f, hf, hnamed⟩
    exact ⟨f, List.mem_append_left _ hf, hnamed⟩
  · rw [hok] at hto
    cases hto
    obtain ⟨f, hf, hfname, -⟩ := id hnames
    refine ⟨⟨fun hnot => absurd (List.mem_map.mpr ⟨f, hf, hfname⟩) hnot, fun _ => rfl⟩,
      h.continues_change (fun _ => rfl) fun g hg hgname => ?_⟩
    rw [h.keyOf_of_names hnames hg hgname]
    exact keyOf_of_parse hparse

theorem Command.saves_continues (h : Sound tx ed friends) (cmd : Command)
    (hsaves : cmd.saves u tx ed (some friends) = some friends') :
    Continues tx ed friends friends' := by
  cases cmd with
  | add home url nickname =>
    simp only [Command.saves] at hsaves
    split at hsaves
    · rename_i hadd
      cases hsaves
      exact (h.added hadd).2
    · cases hsaves
  | seen nickname now =>
    simp only [Command.saves, Option.bind_some, updateFriendLastSeen,
      modifyFriend_eq h.nicknames] at hsaves
    split at hsaves
    · cases hsaves
      exact h.continues_change (fun _ => rfl) fun _ _ _ => rfl
    · cases hsaves
  | vault nickname v =>
    simp only [Command.saves, Option.map_some, pushVault, modifyFriend_eq h.nicknames] at hsaves
    cases hsaves
    exact h.continues_change (fun _ => rfl) fun _ _ _ => rfl

end Commands

/-! ## Every run -/

/-- The list after a command. -/
def Command.apply (u : Unicode) (tx : Texts) (ed : Ed25519) (friends : List FriendRecord)
    (cmd : Command) : List FriendRecord :=
  (cmd.saves u tx ed (some friends)).getD friends

section Runs

variable {u : Unicode} {tx : Texts} {ed : Ed25519} {c : ConfigCipher}
  {js : Json (List FriendRecord)} {file : Option Bytes} {friends : List FriendRecord}

theorem loadFriends_step (hc : c.Correct) (hjs : js.Correct)
    (hload : loadFriends c js file = some friends) {call : Call} (hserved : call.Served) :
    loadFriends c js (step u tx ed c js file call) = some (call.command.apply u tx ed friends) := by
  unfold step Call.loads Command.apply
  rw [if_pos hserved.1, hload]
  cases call.command.saves u tx ed (some friends) with
  | none => exact hload
  | some friends' =>
    simp only [saveFriends, hserved.2]
    exact loadFriends_friendsData hc hjs call.nonce friends'

theorem loadFriends_run (hc : c.Correct) (hjs : js.Correct)
    (hload : loadFriends c js file = some friends) {calls : List Call}
    (hserved : ∀ call ∈ calls, call.Served) :
    loadFriends c js (run u tx ed c js file calls) =
      some ((calls.map Call.command).foldl (Command.apply u tx ed) friends) := by
  induction calls generalizing file friends with
  | nil => exact hload
  | cons call calls ih =>
    exact ih (loadFriends_step hc hjs hload (hserved call List.mem_cons_self))
      fun call' hcall => hserved call' (List.mem_cons_of_mem _ hcall)

theorem Sound.continues (h : Sound tx ed friends) (cmds : List Command) :
    Continues tx ed friends (cmds.foldl (Command.apply u tx ed) friends) := by
  induction cmds generalizing friends with
  | nil => exact ⟨h, fun _ _ hnames => hnames⟩
  | cons cmd cmds ih =>
    have hfirst : Continues tx ed friends (cmd.apply u tx ed friends) := by
      unfold Command.apply
      cases hsaves : cmd.saves u tx ed (some friends) with
      | none => exact ⟨h, fun _ _ hnames => hnames⟩
      | some friends' => exact cmd.saves_continues h hsaves
    have hrest := ih hfirst.sound
    exact ⟨hrest.sound, fun nickname key hnames =>
      hrest.names nickname key (hfirst.names nickname key hnames)⟩

/-- What an attempt to add a friend does to the file. -/
def Outcome (u : Unicode) (tx : Texts) (ed : Ed25519) (c : ConfigCipher)
    (js : Json (List FriendRecord)) (file : Option Bytes) (friends : List FriendRecord)
    (home : Option (Option Bytes)) (url : Text) (nickname : String) (call : Call) : Prop :=
  match addFriendCore u tx ed home url nickname (some friends) with
  | some (.ok _) => ∃ friends', loadFriends c js (step u tx ed c js file call) = some friends' ∧
      Added url nickname friends friends'
  | _ => step u tx ed c js file call = file

theorem Sound.outcome (h : Sound tx ed friends) (hc : c.Correct) (hjs : js.Correct)
    (hload : loadFriends c js file = some friends) {home : Option (Option Bytes)} {url : Text}
    {nickname : String} {call : Call} (hcall : call.command = .add home url nickname)
    (hserved : call.Served) : Outcome u tx ed c js file friends home url nickname call := by
  unfold Outcome step Call.loads
  rw [if_pos hserved.1, hload, hcall]
  simp only [Command.saves]
  split
  · rename_i r hadd
    obtain ⟨msg, friends'⟩ := r
    rw [hadd]
    simp only [saveFriends, hserved.2]
    exact ⟨friends', loadFriends_friendsData hc hjs call.nonce friends', (h.added hadd).1⟩
  · rename_i hnot
    split
    · rename_i hsaves
      split at hsaves
      · rename_i hadd
        exact absurd hadd (hnot _)
      · cases hsaves
    · rfl

/-- The book reads back as a list in which names and keys stand once each and every link is one, a
name stands for one key for good, a link that is taken changes the link of its name or adds an
entry, and any other attempt changes nothing. `Meets` is asked of what comes later. -/
def Kept (u : Unicode) (tx : Texts) (ed : Ed25519) (c : ConfigCipher)
    (js : Json (List FriendRecord)) (Meets : Call → Prop) (file : Option Bytes) : Prop :=
  ∃ friends, loadFriends c js file = some friends ∧ Sound tx ed friends ∧
    (∀ later : List Call, (∀ call ∈ later, Meets call) →
      ∀ nickname key, Names tx ed friends nickname key → ∃ friends',
        loadFriends c js (run u tx ed c js file later) = some friends' ∧
          Names tx ed friends' nickname key) ∧
    ∀ home url nickname call, call.command = .add home url nickname → Meets call →
      Outcome u tx ed c js file friends home url nickname call

variable (u tx ed) in
/-- **Nicknames.** From an empty book, the book is kept by all commands whose loads and saves go
through. -/
theorem nicknames_kept (hc : c.Correct) (hjs : js.Correct) (hempty : loadFriends c js file = some [])
    {calls : List Call} (hserved : ∀ call ∈ calls, call.Served) :
    Kept u tx ed c js Call.Served (run u tx ed c js file calls) := by
  have hload : loadFriends c js (run u tx ed c js file calls) =
      some ((calls.map Call.command).foldl (Command.apply u tx ed) []) :=
    loadFriends_run hc hjs hempty hserved
  have hsound : Sound tx ed ((calls.map Call.command).foldl (Command.apply u tx ed) []) :=
    (sound_nil.continues _).sound
  refine ⟨_, hload, hsound, fun later hlater nickname key hnames => ?_,
    fun home url nickname call hcall hmeets => hsound.outcome hc hjs hload hcall hmeets⟩
  exact ⟨_, loadFriends_run hc hjs hload hlater,
    (hsound.continues (later.map Call.command)).names nickname key hnames⟩

theorem run_cons {call : Call} {calls : List Call} : run u tx ed c js file (call :: calls) =
    run u tx ed c js (step u tx ed c js file call) calls := rfl

theorem step_cut {friends' : List FriendRecord} {call : Call} {n : Nat}
    (hload : loadFriends c js file = some friends) (hreads : call.reads = true)
    (hsave : call.save = .cut n) (hsaves : call.command.saves u tx ed (some friends) = some friends') :
    step u tx ed c js file call = some ((friendsData c js call.nonce friends').take n) := by
  unfold step Call.loads
  rw [if_pos hreads, hload, hsaves]
  simp only [saveFriends, hsave]

end Runs

/-! ### A friend who moves -/

def bobKey : VerifyingKey := List.Vector.replicate 32 7

/-- Another host, and the key in capitals. -/
def movedLink (key : VerifyingKey) : Text :=
  URI_START ++ (List.replicate 56 'b' ++ (ONION_SUFFIX ++ '/' :: base32Encode key.toList))

def whole (command : Command) : Call := ⟨command, sampleNonce, true, .whole⟩

theorem served_whole (commands : List Command) : ∀ call ∈ commands.map whole, call.Served := by
  intro call hcall
  obtain ⟨command, -, rfl⟩ := List.mem_map.mp hcall
  exact ⟨rfl, rfl⟩

def bobsKey : Command := .add (some none) (sampleLink bobKey) "bob"

def otherKey : VerifyingKey := List.Vector.replicate 32 9

def othersKey : Command := .add (some none) (sampleLink otherKey) "bob"

/-- Bob is added, is seen, moves, and is then added under another name and with another key. -/
def sampleCommands : List Command :=
  [bobsKey, .seen "bob" 5, .vault "bob" sampleVault, .add (some none) (movedLink bobKey) "bob",
    .add (some none) (sampleLink bobKey) "rob", othersKey]

theorem nicknames_kept_moved : ∃ friends,
    loadFriends sampleCipher sampleJson (run sampleUnicode sampleTexts sampleEd sampleCipher
      sampleJson none (sampleCommands.map whole)) = some friends ∧
    Sound sampleTexts sampleEd friends ∧
    friends = [⟨"bob", movedLink bobKey, [sampleVault], some 5⟩] := by
  have hempty : loadFriends sampleCipher sampleJson none = some [] := rfl
  obtain ⟨friends, hload, hsound, -⟩ := nicknames_kept sampleUnicode sampleTexts sampleEd
    sampleCipher_correct sampleJson_correct hempty (served_whole sampleCommands)
  refine ⟨friends, hload, hsound, ?_⟩
  have hend : ((sampleCommands.map whole).map Call.command).foldl
      (Command.apply sampleUnicode sampleTexts sampleEd) [] =
        [⟨"bob", movedLink bobKey, [sampleVault], some 5⟩] := by decide +kernel
  rw [loadFriends_run sampleCipher_correct sampleJson_correct hempty (served_whole _), hend] at hload
  exact (Option.some.inj hload).symm

/-! ### A full disk -/

def evesKey : Command := .add (some none) (sampleLink (List.Vector.replicate 32 8)) "eve"

/-- Eve is added when the disk is full, and somebody else is then added as bob. -/
def fullDisk : List Call := [⟨evesKey, sampleNonce, true, .cut 0⟩, whole othersKey]

abbrev sampleRun := run sampleUnicode sampleTexts sampleEd sampleCipher sampleJson

theorem sampleRun_whole {file : Option Bytes} (hempty : loadFriends sampleCipher sampleJson file = some [])
    (command : Command) : loadFriends sampleCipher sampleJson (sampleRun file [whole command]) =
      some (command.apply sampleUnicode sampleTexts sampleEd []) :=
  loadFriends_run sampleCipher_correct sampleJson_correct hempty
    (served_whole [command])

theorem sampleRun_bob : loadFriends sampleCipher sampleJson (sampleRun none [whole bobsKey]) =
    some [⟨"bob", sampleLink bobKey, [], none⟩] := by
  rw [sampleRun_whole rfl]
  decide +kernel

theorem sampleRun_fullDisk : loadFriends sampleCipher sampleJson
    (sampleRun (sampleRun none [whole bobsKey]) fullDisk) =
      some [⟨"bob", sampleLink otherKey, [], none⟩] := by
  have hsaves : (evesKey.saves sampleUnicode sampleTexts sampleEd
      (some [⟨"bob", sampleLink bobKey, [], none⟩])).isSome = true := by decide +kernel
  obtain ⟨friends, hfriends⟩ := Option.isSome_iff_exists.mp hsaves
  have hcut : step sampleUnicode sampleTexts sampleEd sampleCipher sampleJson
      (sampleRun none [whole bobsKey]) ⟨evesKey, sampleNonce, true, .cut 0⟩ = some [] := by
    rw [step_cut sampleRun_bob rfl rfl hfriends, List.take_zero]
  have hrun : sampleRun (sampleRun none [whole bobsKey]) fullDisk =
      sampleRun (some []) [whole othersKey] := by
    unfold fullDisk
    rw [sampleRun, run_cons, ← sampleRun, hcut]
  rw [hrun, sampleRun_whole rfl]
  decide +kernel

/-- The open empties the book, and the name is free again. -/
theorem full_disk_frees_name : ¬∀ calls : List Call,
    Kept sampleUnicode sampleTexts sampleEd sampleCipher sampleJson (fun _ => True)
      (sampleRun none calls) := by
  intro hall
  obtain ⟨friends, hload, -, hlater, -⟩ := hall [whole bobsKey]
  rw [sampleRun_bob] at hload
  cases hload
  have hnamed : Names sampleTexts sampleEd [⟨"bob", sampleLink bobKey, [], none⟩] "bob" bobKey :=
    ⟨_, List.mem_singleton_self _, rfl, by decide +kernel⟩
  obtain ⟨friends', hload', f, hf, -, hkey⟩ := hlater fullDisk (fun _ _ => trivial) "bob" bobKey hnamed
  rw [sampleRun_fullDisk] at hload'
  cases hload'
  obtain rfl := List.mem_singleton.mp hf
  have hother : keyOf sampleTexts sampleEd (sampleLink otherKey) = some (some otherKey) := by
    decide +kernel
  rw [hother] at hkey
  exact absurd hkey (by decide)

end AtomVault.Daemon.Nicknames
