import Mathlib.Data.List.Permutation
import AtomVault.Lib.Machine
import AtomVault.Daemon.Friends

/-!
# Many writers of one address book (`daemon.rs`, `friend.rs`, `p2p_utils.rs`)

Each operation loads `friends.json`, changes its copy and saves it. Nothing locks the file.
-/

open Lib

namespace AtomVault.Daemon.Book

open Live

/-- One call: the daemon's handling of a proposal, `add_friend_core`, `update_friend_last_seen`. -/
inductive Op
  | proposal (nickname filename : String) (lastModified : UInt64)
  | addFriend (home : Option (Option Bytes)) (url : Text) (nickname : String)
  | lastSeen (nickname : String) (now : UInt64)

/-- What the user says to a proposal. -/
structure SyncResponse where
  accepted : Bool
  label : Option String
  savePath : Option String

/-- What an operation means to change. -/
inductive Update
  | friend (nickname : String) (url : Text)
  | vault (nickname : String) (vault : SharedVault)
  | seen (nickname : String) (now : UInt64)
  | modified (nickname filename : String) (lastModified : UInt64)
  deriving DecidableEq

/-- Where an operation is: `base` is what it has loaded, `friends` what it is going to save. -/
inductive Phase
  | begun
  | asking (base : List FriendRecord)
  | saving (base friends : List FriendRecord)
  | writing (data : Bytes) (done : Nat)
  | finished

structure Proc where
  op : Op
  phase : Phase
  update : Option Update

structure Store where
  file : Option Bytes
  procs : List Proc

inductive Act
  | begin (op : Op)
  | load (k : Nat)
  | loadFails (k : Nat)
  | answer (k : Nat) (response : SyncResponse)
  | openFile (k : Nat) (nonce : List.Vector UInt8 24)
  | openFails (k : Nat)
  | write (k n : Nat)
  | writeFails (k : Nat)

def knownVault (friends : List FriendRecord) (nickname filename : String) : Option SharedVault :=
  (friendNamed friends nickname).bind fun f =>
    f.sharedVaults.find? fun v => v.originalName = filename

def pushVault (nickname : String) (vault : SharedVault) (friends : List FriendRecord) :
    List FriendRecord :=
  modifyFriend nickname (fun f => { f with sharedVaults := f.sharedVaults ++ [vault] }) friends

/-- The vault of a proposal that was accepted. -/
def acceptedVault (filename : String) (lastModified : UInt64) (response : SyncResponse) :
    SharedVault where
  originalName := filename
  label := response.label.getD "Synced Vault"
  localPath := response.savePath.getD ""
  lastModified := lastModified

section Model

variable (u : Unicode) (tx : Texts) (ed : Ed25519) (c : ConfigCipher)
  (js : Json (List FriendRecord))

def Proc.finish (p : Proc) : Proc := { p with phase := .finished }

def Proc.save (p : Proc) (base friends : List FriendRecord) (update : Update) : Proc :=
  { p with phase := .saving base friends, update := some update }

/-- The load, and what is decided at once. A list that is not loaded ends the operation. -/
def afterLoad (p : Proc) (loaded : Option (List FriendRecord)) : Proc :=
  match p.op with
  | .proposal nickname filename lastModified =>
    match loaded with
    | none => p.finish
    | some friends =>
      match knownVault friends nickname filename with
      -- the copy has the new time, and is dropped
      | some _ => { p.finish with update := some (.modified nickname filename lastModified) }
      | none => { p with phase := .asking friends }
  | .addFriend home url nickname =>
    match addFriendCore u tx ed home url nickname loaded with
    | some (.ok (_, friends)) => p.save (loaded.getD []) friends (.friend nickname url)
    | _ => p.finish
  | .lastSeen nickname now =>
    match loaded with
    | none => p.finish
    | some friends =>
      match updateFriendLastSeen nickname now friends with
      | some friends' => p.save friends friends' (.seen nickname now)
      | none => p.finish

def afterAnswer (p : Proc) (base : List FriendRecord) (response : SyncResponse) : Proc :=
  match p.op with
  | .proposal nickname filename lastModified =>
    if response.accepted then
      let vault := acceptedVault filename lastModified response
      p.save base (pushVault nickname vault base) (.vault nickname vault)
    else p.finish
  | _ => p

def step (s : Store) : Act → Option Store
  | .begin op => some { s with procs := s.procs ++ [⟨op, .begun, none⟩] }
  | .load k => do
    let p ← s.procs[k]?
    match p.phase with
    | .begun => some { s with procs := s.procs.set k (afterLoad u tx ed p (loadFriends c js s.file)) }
    | _ => none
  -- a file that cannot be read is an empty list
  | .loadFails k => do
    let p ← s.procs[k]?
    match p.phase with
    | .begun => some { s with procs := s.procs.set k (afterLoad u tx ed p (some [])) }
    | _ => none
  | .answer k response => do
    let p ← s.procs[k]?
    match p.phase with
    | .asking base => some { s with procs := s.procs.set k (afterAnswer p base response) }
    | _ => none
  | .openFile k nonce => do
    let p ← s.procs[k]?
    match p.phase with
    | .saving _ friends =>
      some ⟨some [], s.procs.set k { p with phase := .writing (friendsData c js nonce friends) 0 }⟩
    | _ => none
  -- errors of the save are dropped
  | .openFails k => do
    let p ← s.procs[k]?
    match p.phase with
    | .saving _ _ => some { s with procs := s.procs.set k p.finish }
    | _ => none
  | .writeFails k => do
    let p ← s.procs[k]?
    match p.phase with
    | .writing _ _ => some { s with procs := s.procs.set k p.finish }
    | _ => none
  -- a write goes on where the last one of this file handle ended
  | .write k n => do
    let p ← s.procs[k]?
    match p.phase with
    | .writing data done =>
      if 0 < n ∧ done + n ≤ data.length then
        some ⟨some (patch (s.file.getD []) done (slice data done n)), s.procs.set k
          { p with phase := if done + n = data.length then .finished else .writing data (done + n) }⟩
      else none
    | _ => none

end Model

/-! ## What the operations mean to do -/

def setModified (filename : String) (lastModified : UInt64) (f : FriendRecord) : FriendRecord :=
  { f with
    sharedVaults := f.sharedVaults.modify
        (f.sharedVaults.findIdx fun v => v.originalName = filename) fun v =>
      { v with lastModified := lastModified } }

/-- The list with the update in it. -/
def Update.apply (friends : List FriendRecord) : Update → List FriendRecord
  | friend nickname url =>
    match friendNamed friends nickname with
    | some _ => modifyFriend nickname (fun f => { f with url := url }) friends
    | none => friends ++ [⟨nickname, url, [], none⟩]
  | vault nickname v => pushVault nickname v friends
  | seen nickname now => modifyFriend nickname (fun f => { f with lastSeen := some now }) friends
  | modified nickname filename lastModified =>
    modifyFriend nickname (setModified filename lastModified) friends

/-- The list in the file is what comes of all the updates, one after the other in some order. -/
def Reflects (c : ConfigCipher) (js : Json (List FriendRecord)) (init : List FriendRecord)
    (s : Store) : Prop :=
  ∃ order : List Update, order.Perm (s.procs.filterMap Proc.update) ∧
    loadFriends c js s.file = some (order.foldl Update.apply init)

def NoWriter (s : Store) : Prop := ∀ p ∈ s.procs, ∀ data done, p.phase ≠ .writing data done

/-- Nothing is loaded or saved in the middle of a save, what is saved is a change of what is
there, a vault that is proposed again has the time that is stored, and the file system fails at
nothing. -/
def Undisturbed (c : ConfigCipher) (js : Json (List FriendRecord)) (s : Store) : Act → Prop
  | .load k => NoWriter s ∧ ∀ p ∈ s.procs[k]?, ∀ nickname filename lastModified,
      p.op = .proposal nickname filename lastModified → ∀ friends ∈ loadFriends c js s.file,
        ∀ v ∈ knownVault friends nickname filename, v.lastModified = lastModified
  | .openFile k _ => NoWriter s ∧ ∀ p ∈ s.procs[k]?, ∀ base friends, p.phase = .saving base friends →
      loadFriends c js s.file = some base
  | .loadFails _ => False
  | .openFails _ => False
  | .writeFails _ => False
  | _ => True

/-! ## One operation -/

section Specs

variable {u : Unicode} {tx : Texts} {ed : Ed25519} {c : ConfigCipher}
  {js : Json (List FriendRecord)} {friends friends' : List FriendRecord}

theorem loadFriends_friendsData (hc : c.Correct) (hjs : js.Correct)
    (nonce : List.Vector UInt8 24) (friends : List FriendRecord) :
    loadFriends c js (some (friendsData c js nonce friends)) = some friends := by
  unfold loadFriends friendsData
  simp only [decryptConfig_encryptConfig hc, fromUtf8_utf8, hjs.read_write]

theorem addTo_eq_ok {url : Text} {nickname msg : String} {key : VerifyingKey}
    (h : addTo tx ed url nickname key friends = some (.ok (msg, friends'))) :
    friends' = (Update.friend nickname url).apply friends := by
  unfold addTo at h
  obtain ⟨byKey, -, h⟩ := Option.bind_eq_some_iff.mp h
  unfold Update.apply
  split at h
  · cases h
  · split at h
    · rename_i existing hexisting
      obtain ⟨parsed, -, h⟩ := Option.bind_eq_some_iff.mp h
      simp only [hexisting]
      split at h
      · cases h
      · split at h
        · cases h
        · cases h
          rfl
    · rename_i hnone
      simp only [hnone]
      cases h
      rfl

theorem addFriendCore_eq_ok {home : Option (Option Bytes)} {url : Text} {nickname msg : String}
    {loaded : Option (List FriendRecord)}
    (h : addFriendCore u tx ed home url nickname loaded = some (.ok (msg, friends'))) :
    ∃ friends host key, loaded = some friends ∧ parseAtomUri tx ed url = some (.ok (host, key)) ∧
      addTo tx ed url nickname key friends = some (.ok (msg, friends')) := by
  unfold addFriendCore at h
  obtain ⟨parsed, hparsed, h⟩ := Option.bind_eq_some_iff.mp h
  split at h
  · cases h
  · rename_i host key
    split at h
    · cases h
    · obtain ⟨own, -, h⟩ := Option.bind_eq_some_iff.mp h
      split at h
      · cases h
      · obtain ⟨friends, hloaded, h⟩ := Option.bind_eq_some_iff.mp h
        exact ⟨friends, host, key, hloaded, hparsed, h⟩

theorem apply_modified {nickname filename : String} {lastModified : UInt64}
    (h : ∀ v ∈ knownVault friends nickname filename, v.lastModified = lastModified) :
    (Update.modified nickname filename lastModified).apply friends = friends := by
  unfold Update.apply modifyFriend
  refine modify_findIdx_of_eq fun f hf => ?_
  have hvaults : f.sharedVaults.modify
      (f.sharedVaults.findIdx fun v => v.originalName = filename)
      (fun v => { v with lastModified := lastModified }) = f.sharedVaults := by
    refine modify_findIdx_of_eq fun v hv => ?_
    have hknown : knownVault friends nickname filename = some v := by
      unfold knownVault friendNamed
      rw [Option.mem_def.mp hf]
      exact hv
    rw [← h v hknown]
  unfold setModified
  rw [hvaults]

/-- What a load or an answer leads to, while `cur` is what is stored. -/
inductive Next (cur : List FriendRecord) (p p' : Proc) : Prop
  | nothing (hphase : p'.phase = .finished) (hupdate : p'.update = none)
  | already {update : Update} (hphase : p'.phase = .finished) (hupdate : p'.update = some update)
    (happly : update.apply cur = cur)
  | asks {base : List FriendRecord} (hphase : p'.phase = .asking base) (hupdate : p'.update = none)
  | saves {base : List FriendRecord} {update : Update}
    (hphase : p'.phase = .saving base (update.apply base)) (hupdate : p'.update = some update)

theorem afterLoad_next {p : Proc} (hupdate : p.update = none)
    (hstored : ∀ nickname filename lastModified, p.op = .proposal nickname filename lastModified →
      ∀ v ∈ knownVault friends nickname filename, v.lastModified = lastModified) :
    Next friends p (afterLoad u tx ed p (some friends)) := by
  unfold afterLoad
  split
  · rename_i nickname filename lastModified hop
    split
    · exact .nothing rfl hupdate
    · rename_i loaded heq
      cases heq
      split
      · exact .already rfl rfl (apply_modified (hstored _ _ _ hop))
      · exact .asks rfl hupdate
  · split
    · rename_i hadd
      obtain ⟨loaded, -, key, heq, -, hto⟩ := addFriendCore_eq_ok hadd
      cases heq
      obtain rfl := addTo_eq_ok hto
      exact .saves rfl rfl
    · exact .nothing rfl hupdate
  · split
    · exact .nothing rfl hupdate
    · rename_i loaded heq
      cases heq
      split
      · rename_i hseen
        unfold updateFriendLastSeen at hseen
        split at hseen
        · cases hseen
          exact .saves rfl rfl
        · cases hseen
      · exact .nothing rfl hupdate

theorem afterAnswer_next {cur base : List FriendRecord} {p : Proc} {response : SyncResponse}
    (hupdate : p.update = none) (hasking : p.phase = .asking base) :
    Next cur p (afterAnswer p base response) := by
  unfold afterAnswer
  split
  · split
    · exact .saves rfl rfl
    · exact .nothing rfl hupdate
  · exact .asks hasking hupdate

end Specs

/-! ## Every run -/

section Runs

variable {u : Unicode} {tx : Texts} {ed : Ed25519} {c : ConfigCipher}
  {js : Json (List FriendRecord)} {init cur : List FriendRecord} {s s' : Store}

/-- The update of an operation that is in the file, or in what is being written. -/
def settled (p : Proc) : List Update :=
  match p.phase with
  | .writing _ _ => p.update.toList
  | .finished => p.update.toList
  | _ => []

def writes (p : Proc) : Prop := ∃ data done, p.phase = .writing data done

/-- The list in the file, or the one that is being written. -/
inductive Disk (c : ConfigCipher) (js : Json (List FriendRecord)) (s : Store)
    (cur : List FriendRecord) : Prop
  | whole (hquiet : ∀ p ∈ s.procs, ¬ writes p) (hload : loadFriends c js s.file = some cur)
  | torn {k : Nat} {p : Proc} {nonce : List.Vector UInt8 24} {done : Nat}
    (hk : s.procs[k]? = some p) (hphase : p.phase = .writing (friendsData c js nonce cur) done)
    (hfile : s.file = some ((friendsData c js nonce cur).take done))
    (hlt : done < (friendsData c js nonce cur).length)
    (halone : ∀ j, j ≠ k → ∀ q ∈ s.procs[j]?, ¬ writes q)

/-- What an operation has decided so far. -/
def Sound (p : Proc) : Prop :=
  match p.phase with
  | .begun => p.update = none
  | .asking _ => p.update = none
  | .saving base friends => ∃ update, p.update = some update ∧ friends = update.apply base
  | _ => True

structure Holds (c : ConfigCipher) (js : Json (List FriendRecord)) (init : List FriendRecord)
    (s : Store) (cur : List FriendRecord) (order : List Update) : Prop where
  sound : ∀ p ∈ s.procs, Sound p
  disk : Disk c js s cur
  serial : order.foldl Update.apply init = cur
  perm : order.Perm (s.procs.flatMap settled)

def Inv (c : ConfigCipher) (js : Json (List FriendRecord)) (init : List FriendRecord) (s : Store) :
    Prop := ∃ cur order, Holds c js init s cur order

theorem Disk.set (h : Disk c js s cur) {k : Nat} {p p' : Proc} (hk : s.procs[k]? = some p)
    (hp : ¬ writes p) (hp' : ¬ writes p') : Disk c js { s with procs := s.procs.set k p' } cur := by
  cases h with
  | whole hquiet hload =>
    refine .whole (fun q hq => ?_) hload
    rcases List.mem_or_eq_of_mem_set hq with hq | rfl
    · exact hquiet q hq
    · exact hp'
  | torn hi hphase hfile hlt halone =>
    rename_i i q nonce done
    have hne : k ≠ i := by
      rintro rfl
      cases hk.symm.trans hi
      exact hp ⟨_, _, hphase⟩
    refine .torn (k := i) (p := q) ?_ hphase hfile hlt ?_
    · show (s.procs.set k p')[i]? = some q
      rw [List.getElem?_set_ne hne, hi]
    · intro j hj r hr
      rcases getElem?_set_eq_some hr with ⟨rfl, rfl⟩ | ⟨-, hr⟩
      · exact hp'
      · exact halone j hj r hr

theorem settled_set {order : List Update} {k : Nat} {p : Proc} (p' : Proc)
    (hk : s.procs[k]? = some p)
    (h : order.Perm (s.procs.flatMap settled)) (hp : settled p = []) :
    (order ++ settled p').Perm ((s.procs.set k p').flatMap settled) := by
  have hset := flatMap_set_perm settled (b := p') hk
  rw [hp, List.nil_append] at hset
  exact ((h.append_right _).trans List.perm_append_comm).trans hset

theorem Holds.next {order : List Update} (h : Holds c js init s cur order) {k : Nat} {p p' : Proc}
    (hk : s.procs[k]? = some p) (hp : ¬ writes p) (hsettled : settled p = [])
    (hnext : Next cur p p') : Inv c js init { s with procs := s.procs.set k p' } := by
  have hsound : ∀ q ∈ s.procs.set k p', Sound p' → Sound q := by
    intro q hq hp'
    rcases List.mem_or_eq_of_mem_set hq with hq | rfl
    · exact h.sound q hq
    · exact hp'
  have hperm := settled_set p' hk h.perm hsettled
  cases hnext with
  | nothing hphase hupdate =>
    refine ⟨cur, order, fun q hq => hsound q hq ?_, h.disk.set hk hp ?_, h.serial, ?_⟩
    · simp [Sound, hphase]
    · simp [writes, hphase]
    · simpa [settled, hphase, hupdate] using hperm
  | already hphase hupdate happly =>
    rename_i update
    refine ⟨cur, order ++ [update], fun q hq => hsound q hq ?_, h.disk.set hk hp ?_, ?_, ?_⟩
    · simp [Sound, hphase]
    · simp [writes, hphase]
    · simp [h.serial, happly]
    · simpa [settled, hphase, hupdate] using hperm
  | asks hphase hupdate =>
    refine ⟨cur, order, fun q hq => hsound q hq ?_, h.disk.set hk hp ?_, h.serial, ?_⟩
    · simp [Sound, hphase, hupdate]
    · simp [writes, hphase]
    · simpa [settled, hphase] using hperm
  | saves hphase hupdate =>
    refine ⟨cur, order, fun q hq => hsound q hq ?_, h.disk.set hk hp ?_, h.serial, ?_⟩
    · simp [Sound, hphase, hupdate]
    · simp [writes, hphase]
    · simpa [settled, hphase] using hperm

theorem Disk.of_noWriter (h : Disk c js s cur) (hquiet : NoWriter s) :
    loadFriends c js s.file = some cur := by
  cases h with
  | whole _ hload => exact hload
  | torn hk hphase => exact absurd hphase (hquiet _ (List.mem_of_getElem? hk) _ _)

theorem sound_set {k : Nat} {p' : Proc} (h : ∀ p ∈ s.procs, Sound p) (hp' : Sound p') :
    ∀ q ∈ s.procs.set k p', Sound q := by
  intro q hq
  rcases List.mem_or_eq_of_mem_set hq with hq | rfl
  · exact h q hq
  · exact hp'

theorem Holds.openFile {order : List Update} (h : Holds c js init s cur order) {k : Nat} {p : Proc}
    {base friends : List FriendRecord} {nonce : List.Vector UInt8 24}
    (hk : s.procs[k]? = some p) (hphase : p.phase = .saving base friends) (hquiet : NoWriter s)
    (hbase : loadFriends c js s.file = some base) :
    Inv c js init ⟨some [], s.procs.set k
      { p with phase := .writing (friendsData c js nonce friends) 0 }⟩ := by
  have hcur : base = cur := Option.some.inj (hbase.symm.trans (h.disk.of_noWriter hquiet))
  have hsound := h.sound p (List.mem_of_getElem? hk)
  unfold Sound at hsound
  rw [hphase] at hsound
  obtain ⟨update, hupdate, rfl⟩ := hsound
  subst hcur
  have hlen := (List.getElem?_eq_some_iff.mp hk).1
  refine ⟨update.apply base, order ++ [update], sound_set h.sound (by simp [Sound]), ?_, ?_, ?_⟩
  · refine .torn (k := k) (List.getElem?_set_self hlen) rfl rfl ?_ ?_
    · unfold friendsData
      rw [length_encryptConfig]
      omega
    · intro j hj q hq
      rw [List.getElem?_set_ne hj.symm] at hq
      rintro ⟨data, done, hwrites⟩
      exact hquiet q (List.mem_of_getElem? hq) data done hwrites
  · simp [h.serial]
  · have hperm := settled_set
      { p with phase := .writing (friendsData c js nonce (update.apply base)) 0 } hk h.perm
      (by simp [settled, hphase])
    simpa [settled, hupdate] using hperm

theorem Holds.write (hc : c.Correct) (hjs : js.Correct) {order : List Update}
    (h : Holds c js init s cur order) {k n done : Nat} {p : Proc} {data : Bytes}
    (hk : s.procs[k]? = some p) (hphase : p.phase = .writing data done)
    (hle : done + n ≤ data.length) :
    Inv c js init ⟨some (patch (s.file.getD []) done (slice data done n)), s.procs.set k
      { p with phase :=
        if done + n = data.length then .finished else .writing data (done + n) }⟩ := by
  have hlen := (List.getElem?_eq_some_iff.mp hk).1
  have hupdates : ∀ p' : Proc, settled p' = settled p →
      order.Perm ((s.procs.set k p').flatMap settled) := by
    intro p' hp'
    have hset := flatMap_set_perm settled (b := p') hk
    rw [hp'] at hset
    exact h.perm.trans ((List.perm_append_left_iff _).mp hset)
  cases h.disk with
  | whole hquiet => exact absurd ⟨data, done, hphase⟩ (hquiet p (List.mem_of_getElem? hk))
  | torn hi hphase' hfile hlt halone =>
    rename_i i q nonce done'
    have hik : k = i := by
      by_contra hne
      exact halone k hne p hk ⟨data, done, hphase⟩
    subst hik
    obtain rfl := Option.some.inj (hk.symm.trans hi)
    rw [hphase] at hphase'
    cases hphase'
    have hpatch : patch (s.file.getD []) done (slice (friendsData c js nonce cur) done n) =
        (friendsData c js nonce cur).take (done + n) := by
      rw [hfile]
      exact patch_take hle
    rw [hpatch]
    by_cases hend : done + n = (friendsData c js nonce cur).length
    · rw [if_pos hend]
      refine ⟨cur, order, sound_set h.sound (by simp [Sound]), .whole ?_ ?_, h.serial,
        hupdates _ (by simp [settled, hphase])⟩
      · exact forall_set_of_others halone (by simp [writes])
      · rw [hend, List.take_length]
        exact loadFriends_friendsData hc hjs nonce cur
    · rw [if_neg hend]
      refine ⟨cur, order, sound_set h.sound (by simp [Sound]), ?_, h.serial,
        hupdates _ (by simp [settled, hphase])⟩
      exact .torn (List.getElem?_set_self hlen) rfl rfl (by omega) (others_set halone _)

theorem Holds.begin {order : List Update} (h : Holds c js init s cur order) (op : Op) :
    Holds c js init { s with procs := s.procs ++ [⟨op, .begun, none⟩] } cur order := by
  refine ⟨fun p hp => ?_, ?_, h.serial, ?_⟩
  · rcases List.mem_append.mp hp with hp | hp
    · exact h.sound p hp
    · rw [List.mem_singleton.mp hp]
      simp [Sound]
  · cases h.disk with
    | whole hquiet hload =>
      refine .whole (fun p hp => ?_) hload
      rcases List.mem_append.mp hp with hp | hp
      · exact hquiet p hp
      · rw [List.mem_singleton.mp hp]
        simp [writes]
    | torn hk hphase hfile hlt halone =>
      refine .torn (getElem?_concat_eq_some.mpr (Or.inl hk)) hphase hfile hlt ?_
      intro j hj q hq
      rcases getElem?_concat_eq_some.mp hq with hq | ⟨-, rfl⟩
      · exact halone j hj q hq
      · simp [writes]
  · simpa [Book.settled] using h.perm

theorem inv_step (hc : c.Correct) (hjs : js.Correct) (s : Store) (a : Act) (s' : Store)
    (hinv : Inv c js init s) (ha : Undisturbed c js s a)
    (h : step u tx ed c js s a = some s') : Inv c js init s' := by
  obtain ⟨cur, order, hinv⟩ := hinv
  cases a with
  | begin op =>
    cases h
    exact ⟨cur, order, hinv.begin op⟩
  | load k =>
    obtain ⟨hquiet, hstored⟩ := ha
    obtain ⟨p, hk, h⟩ := Option.bind_eq_some_iff.mp h
    split at h
    · rename_i hphase
      cases h
      have hload := hinv.disk.of_noWriter hquiet
      have hsound := hinv.sound p (List.mem_of_getElem? hk)
      unfold Sound at hsound
      rw [hphase] at hsound
      rw [hload]
      refine hinv.next hk (by simp [writes, hphase]) (by simp [settled, hphase])
        (afterLoad_next hsound ?_)
      intro nickname filename lastModified hop
      exact hstored p hk nickname filename lastModified hop cur hload
    · cases h
  | loadFails k => exact ha.elim
  | openFails k => exact ha.elim
  | writeFails k => exact ha.elim
  | answer k response =>
    obtain ⟨p, hk, h⟩ := Option.bind_eq_some_iff.mp h
    split at h
    · rename_i base hphase
      cases h
      have hsound := hinv.sound p (List.mem_of_getElem? hk)
      unfold Sound at hsound
      rw [hphase] at hsound
      exact hinv.next hk (by simp [writes, hphase]) (by simp [settled, hphase])
        (afterAnswer_next hsound hphase)
    · cases h
  | openFile k nonce =>
    obtain ⟨hquiet, hbase⟩ := ha
    obtain ⟨p, hk, h⟩ := Option.bind_eq_some_iff.mp h
    split at h
    · rename_i base friends hphase
      cases h
      exact hinv.openFile hk hphase hquiet (hbase p hk base friends hphase)
    · cases h
  | write k n =>
    obtain ⟨p, hk, h⟩ := Option.bind_eq_some_iff.mp h
    split at h
    · rename_i data done hphase
      split at h
      · rename_i hn
        cases h
        exact hinv.write hc hjs hk hphase hn.2
      · cases h
    · cases h

theorem flatMap_settled {l : List Proc} (h : ∀ p ∈ l, p.phase = .finished) :
    l.flatMap settled = l.filterMap Proc.update := by
  induction l with
  | nil => rfl
  | cons p l ih =>
    have hp := h p List.mem_cons_self
    rw [List.flatMap_cons, ih fun q hq => h q (List.mem_cons_of_mem _ hq), List.filterMap_cons]
    unfold settled
    rw [hp]
    cases p.update <;> rfl

/-- **The address book.** When every save is of a change of what is stored, the list in the file
is what comes of all updates in some order, once all operations have finished. -/
theorem updates_reflected (hc : c.Correct) (hjs : js.Correct) {file : Option Bytes}
    {acts : List Act} (hfile : loadFriends c js file = some init)
    (hrun : run (step u tx ed c js) ⟨file, []⟩ acts = some s)
    (hundisturbed : Allowed (step u tx ed c js) (Undisturbed c js) ⟨file, []⟩ acts)
    (hdone : ∀ p ∈ s.procs, p.phase = .finished) : Reflects c js init s := by
  have hstart : Inv c js init ⟨file, []⟩ := by
    refine ⟨init, [], ?_, .whole (by simp) hfile, rfl, List.Perm.refl _⟩
    simp
  obtain ⟨cur, order, hinv⟩ := run_allowed (inv_step hc hjs) hrun hundisturbed hstart
  refine ⟨order, ?_, ?_⟩
  · rw [← flatMap_settled hdone]
    exact hinv.perm
  · rw [hinv.serial]
    refine hinv.disk.of_noWriter fun p hp data done hphase => ?_
    rw [hdone p hp] at hphase
    cases hphase

end Runs

/-! ### A user who takes some time -/

abbrev sampleStep := step sampleUnicode sampleTexts sampleEd sampleCipher sampleJson

def sampleFile (friends : List FriendRecord) : Bytes :=
  friendsData sampleCipher sampleJson sampleNonce friends

def bob (vaults : List SharedVault) (lastSeen : Option UInt64) : FriendRecord :=
  ⟨"bob", [], vaults, lastSeen⟩

def sampleVault : SharedVault := ⟨"v", "Synced Vault", "/v", 7⟩

/-- Bob proposes a vault, and is himself synced with. -/
def sampleOps : List Act := [.begin (.proposal "bob" "v" 7), .begin (.lastSeen "bob" 5)]

def sampleAnswer : Act := .answer 0 ⟨true, none, some "/v"⟩

/-- The list is saved in one write. -/
def saveAll (k : Nat) (friends : List FriendRecord) : List Act :=
  [.openFile k sampleNonce, .write k (sampleFile friends).length]

def inTurn : List Act :=
  sampleOps ++ (.load 0 :: sampleAnswer :: saveAll 0 [bob [sampleVault] none]) ++
    (.load 1 :: saveAll 1 [bob [sampleVault] (some 5)])

/-- Bob is seen while the user is asked. -/
def meanwhile : List Act :=
  sampleOps ++ (.load 0 :: .load 1 :: saveAll 1 [bob [] (some 5)]) ++
    (sampleAnswer :: saveAll 0 [bob [sampleVault] none])

/-- Bob proposes the vault again, with a later time. -/
def again : List Act := [.begin (.proposal "bob" "v" 9), .load 0]

def ended (s : Store) : Bool := s.procs.all fun p =>
  match p.phase with
  | .finished => true
  | _ => false

theorem finished_of_ended {s : Store} (h : ended s = true) :
    ∀ p ∈ s.procs, p.phase = .finished := by
  intro p hp
  have hp := List.all_eq_true.mp h p hp
  split at hp
  · assumption
  · cases hp

def isWriting (p : Proc) : Bool :=
  match p.phase with
  | .writing _ _ => true
  | _ => false

theorem noWriter_of_all {s : Store} (h : s.procs.all (fun p => !isWriting p) = true) :
    NoWriter s := by
  intro p hp data done hphase
  have hp := List.all_eq_true.mp h p hp
  simp [isWriting, hphase] at hp

def undisturbed (s : Store) : Act → Bool
  | .load k => s.procs.all (fun p => !isWriting p) &&
    match s.procs[k]?.map Proc.op, loadFriends sampleCipher sampleJson s.file with
    | some (.proposal nickname filename lastModified), some friends =>
      (knownVault friends nickname filename).all fun v => v.lastModified = lastModified
    | _, _ => true
  | .openFile k _ => s.procs.all (fun p => !isWriting p) &&
    match s.procs[k]?.map Proc.phase with
    | some (.saving base _) => loadFriends sampleCipher sampleJson s.file = some base
    | _ => true
  | .loadFails _ => false
  | .openFails _ => false
  | .writeFails _ => false
  | _ => true

theorem undisturbed_sound {s : Store} {a : Act} (h : undisturbed s a = true) :
    Undisturbed sampleCipher sampleJson s a := by
  cases a with
  | load k =>
    obtain ⟨hquiet, h⟩ := Bool.and_eq_true_iff.mp h
    refine ⟨noWriter_of_all hquiet, ?_⟩
    intro p hk nickname filename lastModified hop friends hload v hv
    rw [Option.mem_def] at hk hload hv
    rw [hk, Option.map_some, hop, hload] at h
    simpa [hv] using h
  | openFile k nonce =>
    obtain ⟨hquiet, h⟩ := Bool.and_eq_true_iff.mp h
    refine ⟨noWriter_of_all hquiet, ?_⟩
    intro p hk base friends hphase
    rw [Option.mem_def] at hk
    rw [hk, Option.map_some, hphase] at h
    simpa using h
  | loadFails k => cases h
  | openFails k => cases h
  | writeFails k => cases h
  | _ => trivial

theorem updates_reflected_in_turn :
    ∃ s, run sampleStep ⟨some (sampleFile [bob [] none]), []⟩ inTurn = some s ∧
      s.procs.length = 2 ∧ Reflects sampleCipher sampleJson [bob [] none] s := by
  have hrun : (run sampleStep ⟨some (sampleFile [bob [] none]), []⟩ inTurn).any
      (fun s => ended s && decide (s.procs.length = 2)) = true := by
    decide +kernel
  have hallowed : Allowed sampleStep (fun s a => undisturbed s a = true)
      ⟨some (sampleFile [bob [] none]), []⟩ inTurn := by
    decide +kernel
  obtain ⟨s, hs, hends⟩ := (Option.any_eq_true _ _).mp hrun
  simp only [Bool.and_eq_true, decide_eq_true_eq] at hends
  exact ⟨s, hs, hends.2, updates_reflected sampleCipher_correct sampleJson_correct
    (loadFriends_friendsData sampleCipher_correct sampleJson_correct _ _) hs
    (hallowed.mono fun _ _ _ h => undisturbed_sound h) (finished_of_ended hends.1)⟩

/-- All have finished, and no order of their updates gives what is stored. -/
def Loses (init : List FriendRecord) (acts : List Act) : Prop :=
  ∃ s, run sampleStep ⟨some (sampleFile init), []⟩ acts = some s ∧
    (∀ p ∈ s.procs, p.phase = .finished) ∧ ¬ Reflects sampleCipher sampleJson init s

theorem loses_of_all {init l : List FriendRecord} {q : List Update} {acts : List Act}
    (hrun : (run sampleStep ⟨some (sampleFile init), []⟩ acts).any (fun s => ended s &&
      decide (s.procs.filterMap Proc.update = q ∧
        loadFriends sampleCipher sampleJson s.file = some l)) = true)
    (hall : ∀ order ∈ q.permutations', order.foldl Update.apply init ≠ l) :
    Loses init acts := by
  obtain ⟨s, hs, hends⟩ := (Option.any_eq_true _ _).mp hrun
  simp only [Bool.and_eq_true, decide_eq_true_eq] at hends
  obtain ⟨hended, hupdates, hload⟩ := hends
  refine ⟨s, hs, finished_of_ended hended, ?_⟩
  rintro ⟨order, hperm, hreflects⟩
  rw [hupdates] at hperm
  refine hall order (List.mem_permutations'.mpr hperm) ?_
  exact Option.some.inj (hreflects.symm.trans hload)

/-- What was saved while the user was asked is lost, and so is the time of a known vault. -/
theorem updates_lost :
    Loses [bob [] none] meanwhile ∧ Loses [bob [sampleVault] none] again := by
  constructor
  · exact loses_of_all (l := [bob [sampleVault] none])
      (q := [.vault "bob" sampleVault, .seen "bob" 5]) (by decide +kernel) (by decide +kernel)
  · exact loses_of_all (l := [bob [sampleVault] none]) (q := [.modified "bob" "v" 9])
      (by decide +kernel) (by decide +kernel)

end AtomVault.Daemon.Book
