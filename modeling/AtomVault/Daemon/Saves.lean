import AtomVault.Live.Peers
import AtomVault.Daemon.Friends

/-!
# Saves that stop half way (`p2p_utils.rs`, `live.rs`, `vault_registry.rs`)

Three files are saved over themselves: opened with truncation, and written from the front. A save
stops before the open, or after any number of bytes.
-/

open Lib

namespace AtomVault.Daemon

open Live

/-- No list and no object is an empty text, or starts with a letter. -/
structure Json.Strict {α : Type} (js : Json α) : Prop where
  read_nil : ∃ e, js.read [] = .error e
  read_letter : ∀ t, ∃ e, js.read ('A' :: t) = .error e

/-- `serde_json` on bytes. -/
structure JsonSlice (α : Type) where
  toVec : α → Bytes
  fromSlice : Bytes → Except String α

structure JsonSlice.Correct {α : Type} (js : JsonSlice α) : Prop where
  fromSlice_toVec : ∀ a, js.fromSlice (js.toVec a) = .ok a

structure JsonSlice.Strict {α : Type} (js : JsonSlice α) : Prop where
  fromSlice_nil : ∃ e, js.fromSlice [] = .error e
  fromSlice_letter : ∀ b, ∃ e, js.fromSlice (65 :: b) = .error e

namespace Saves

/-- What the registry keeps of a vault. -/
structure VaultEntry where
  name : String
  path : String
  lastOpened : UInt64
  deriving DecidableEq

section Files

variable {α : Type} (c : ConfigCipher)

/-- A list is loaded, as far as `keep` wants it. There is none where the process ends. -/
def loadBook (js : Json (List α)) (keep : α → Bool) : Option Bytes → Option (List α)
  | none => some []
  | some raw =>
    match decryptConfig c raw with
    | .error _ => none
    | .ok decrypted =>
      match fromUtf8 decrypted with
      | none => some []
      | some contents =>
        match js.read contents with
        | .ok entries => some (entries.filter keep)
        | .error _ => some []

def bookData (js : Json (List α)) (nonce : List.Vector UInt8 24) (entries : List α) : Bytes :=
  encryptConfig c nonce (utf8 (js.write entries))

/-- Entries whose path is gone are left out. -/
def loadVaultRegistry (js : Json (List VaultEntry)) (pathExists : String → Bool) :
    Option Bytes → Option (List VaultEntry) :=
  loadBook c js fun e => pathExists e.path

def registryData (js : Json (List VaultEntry)) : List.Vector UInt8 24 → List VaultEntry → Bytes :=
  bookData c js

def loadState (js : JsonSlice LiveState) : Option Bytes → Except String LiveState
  | none => .ok ⟨[], [], []⟩
  | some raw =>
    match decryptConfig c raw with
    | .error e => .error e
    | .ok plain => js.fromSlice plain

def stateData (js : JsonSlice LiveState) (nonce : List.Vector UInt8 24) (s : LiveState) : Bytes :=
  encryptConfig c nonce (js.toVec s)

end Files

/-! ## What is promised -/

/-- What is loaded is all of the old or all of the new, so that no entry they share is missing
where the next save begins. -/
structure Survives {σ ε : Type} (entries : σ → List ε) (old new : σ) (loaded : Option σ) :
    Prop where
  whole : loaded = some old ∨ loaded = some new
  kept : ∀ book, loaded = some book → ∀ e ∈ entries old, e ∈ entries new → e ∈ entries book

/-- The save never opened the file, or got to the end. -/
def Finished (data : Bytes) (stop : Option Nat) : Prop := ∀ k ∈ stop, data.length ≤ k

instance (data : Bytes) (stop : Option Nat) : Decidable (Finished data stop) :=
  inferInstanceAs (Decidable (∀ k ∈ stop, data.length ≤ k))

/-- A book that was cut inside the magic is read as an empty one. -/
def EmptyBook {α : Type} (old new : List α) (stop : Option Nat) : Prop :=
  (∃ k ∈ stop, k < 5) ∧ (old = [] ∨ new = [])

section Saves

variable {α : Type} {c : ConfigCipher} {js : Json (List α)} {jl : JsonSlice LiveState}
  {keep : α → Bool} {nonce : List.Vector UInt8 24} {file : Option Bytes}

theorem survives_iff {σ ε : Type} {entries : σ → List ε} {old new : σ} {loaded : Option σ} :
    Survives entries old new loaded ↔ loaded = some old ∨ loaded = some new := by
  constructor
  · exact Survives.whole
  · intro h
    refine ⟨h, fun book hbook e hold hnew => ?_⟩
    rcases h with h | h
    · rwa [Option.some.inj (hbook.symm.trans h)]
    · rwa [Option.some.inj (hbook.symm.trans h)]

theorem loadFriends_eq_loadBook (js : Json (List FriendRecord)) :
    loadFriends c js file = loadBook c js (fun _ => true) file := by
  unfold loadFriends loadBook
  cases file with
  | none => rfl
  | some raw =>
    cases hplain : decryptConfig c raw with
    | error e => simp only [hplain]
    | ok decrypted =>
      simp only [hplain, List.filter_true]
      cases fromUtf8 decrypted with
      | none => rfl
      | some contents =>
        cases hread : js.read contents with
        | error e => simp only [hread]
        | ok entries => simp only [hread]

theorem loadBook_bookData (hc : c.Correct) (hjs : js.Correct) (entries : List α) :
    loadBook c js keep (some (bookData c js nonce entries)) = some (entries.filter keep) := by
  unfold loadBook bookData
  simp only [decryptConfig_encryptConfig hc, fromUtf8_utf8, hjs.read_write]

theorem read_magic (hjs : js.Strict) {k : Nat} {t : Text} (h : fromUtf8 (MAGIC.take k) = some t) :
    ∃ e, js.read t = .error e := by
  cases k with
  | zero =>
    rw [List.take_zero, show ([] : Bytes) = utf8 [] from rfl, fromUtf8_utf8] at h
    cases h
    exact hjs.read_nil
  | succ k =>
    have hbytes : MAGIC.take (k + 1) = String.utf8EncodeChar 'A' ++ (MAGIC.drop 1).take k := rfl
    rw [hbytes, fromUtf8_append] at h
    obtain ⟨rest, -, rfl⟩ := Option.map_eq_some_iff.mp h
    exact hjs.read_letter rest

theorem loadBook_magic (hjs : js.Strict) {entries : List α} {k : Nat} (hk : k < 5) :
    loadBook c js keep (some ((bookData c js nonce entries).take k)) = some [] := by
  unfold loadBook bookData
  simp only [decryptConfig_take_of_lt hk]
  split
  · rfl
  · rename_i t ht
    obtain ⟨e, he⟩ := read_magic hjs ht
    simp only [he]

theorem loadBook_torn (hc : c.Correct) {entries : List α} {k : Nat} (hk : 5 ≤ k)
    (hlt : k < (bookData c js nonce entries).length) :
    loadBook c js keep (some ((bookData c js nonce entries).take k)) = none := by
  obtain ⟨e, he⟩ := decryptConfig_take_of_le (p := utf8 (js.write entries)) hc hk hlt
  unfold loadBook bookData
  simp only [he]

theorem book_survives_iff (hc : c.Correct) (hjs : js.Correct) (hstrict : js.Strict)
    {old new : List α} (hold : loadBook c js keep file = some old) (stop : Option Nat) :
    Survives id old (new.filter keep)
        (loadBook c js keep (saved file (bookData c js nonce new) stop)) ↔
      Finished (bookData c js nonce new) stop ∨ EmptyBook old (new.filter keep) stop := by
  rw [survives_iff]
  cases stop with
  | none => simp [saved, hold, Finished]
  | some k =>
    simp only [saved, Finished, EmptyBook, Option.mem_def, Option.some.injEq, forall_eq',
      exists_eq_left']
    by_cases hend : (bookData c js nonce new).length ≤ k
    · rw [List.take_of_length_le hend, loadBook_bookData hc hjs]
      simp [hend]
    · by_cases hk : k < 5
      · rw [loadBook_magic hstrict hk]
        simp only [hend, hk, Option.some.injEq, true_and, false_or, eq_comm (a := ([] : List α))]
      · rw [loadBook_torn hc (by omega) (by omega)]
        simp [hend, hk]

theorem loadState_stateData (hc : c.Correct) (hjl : jl.Correct) (s : LiveState) :
    loadState c jl (some (stateData c jl nonce s)) = .ok s := by
  unfold loadState stateData
  simp only [decryptConfig_encryptConfig hc, hjl.fromSlice_toVec]

theorem loadState_cut (hc : c.Correct) (hjl : jl.Strict) {s : LiveState} {k : Nat}
    (hlt : k < (stateData c jl nonce s).length) :
    ∃ e, loadState c jl (some ((stateData c jl nonce s).take k)) = .error e := by
  unfold loadState
  unfold stateData at hlt ⊢
  by_cases hk : k < 5
  · simp only [decryptConfig_take_of_lt hk]
    cases k with
    | zero => exact hjl.fromSlice_nil
    | succ k => exact hjl.fromSlice_letter _
  · obtain ⟨e, he⟩ := decryptConfig_take_of_le (p := jl.toVec s) hc (Nat.le_of_not_lt hk) hlt
    exact ⟨e, by simp only [he]⟩

theorem state_survives_iff (hc : c.Correct) (hjl : jl.Correct) (hstrict : jl.Strict)
    {old new : LiveState} (hold : loadState c jl file = .ok old) (stop : Option Nat) :
    Survives LiveState.peers old new
        (loadState c jl (saved file (stateData c jl nonce new) stop)).toOption ↔
      Finished (stateData c jl nonce new) stop := by
  rw [survives_iff]
  cases stop with
  | none => simp [saved, hold, Finished, Except.toOption]
  | some k =>
    simp only [saved, Finished, Option.mem_def, Option.some.injEq, forall_eq']
    by_cases hend : (stateData c jl nonce new).length ≤ k
    · rw [List.take_of_length_le hend, loadState_stateData hc hjl]
      simp [hend, Except.toOption]
    · obtain ⟨e, he⟩ := loadState_cut hc hstrict (Nat.lt_of_not_le hend)
      simp [he, hend, Except.toOption]

end Saves

/-! ## The peers file -/

section Peers

variable {c : ConfigCipher} {jl : JsonSlice LiveState} {nonce : List.Vector UInt8 24}

/-- What the bytes of the peers file come to. -/
def peersFile (c : ConfigCipher) (jl : JsonSlice LiveState) : Option Bytes → PeersFile
  | none => .missing
  | some raw =>
    match loadState c jl (some raw) with
    | .ok s => .holds s
    | .error _ => .broken

/-- How a save that stops there looks to its caller. -/
def writeOf (data : Bytes) (e : Failure) : Option Nat → Write
  | none => .unopened e
  | some k => if data.length ≤ k then .through else .cut e

/-- A save leaves the file in one of the three states that `saveState` knows. -/
theorem peersFile_saved (hc : c.Correct) (hjl : jl.Correct) (hstrict : jl.Strict)
    (file : Option Bytes) (s : LiveState) (stop : Option Nat) (e : Failure) :
    peersFile c jl (saved file (stateData c jl nonce s) stop) =
      (saveState s (peersFile c jl file) (writeOf (stateData c jl nonce s) e stop)).2 := by
  cases stop with
  | none => rfl
  | some k =>
    by_cases hend : (stateData c jl nonce s).length ≤ k
    · simp [saved, writeOf, hend, peersFile, loadState_stateData hc hjl, saveState,
        List.take_of_length_le hend]
    · obtain ⟨e', he'⟩ := loadState_cut hc hstrict (Nat.lt_of_not_le hend)
      simp [saved, writeOf, hend, peersFile, he', saveState]

end Peers

/-- **Interrupted saves.** After a save of one of the three files that stopped anywhere, the old or
the new content is loaded just when the save did not open the file or got to the end, or when an
empty book is one of the two. -/
theorem saves_survive_iff {c : ConfigCipher} (hc : c.Correct) (nonce : List.Vector UInt8 24)
    (stop : Option Nat) :
    (∀ (js : Json (List FriendRecord)), js.Correct → js.Strict → ∀ file old new,
      loadFriends c js file = some old →
        (Survives id old new (loadFriends c js (saved file (friendsData c js nonce new) stop)) ↔
          Finished (friendsData c js nonce new) stop ∨ EmptyBook old new stop)) ∧
    (∀ (jl : JsonSlice LiveState), jl.Correct → jl.Strict → ∀ file old new,
      loadState c jl file = .ok old →
        (Survives LiveState.peers old new
            (loadState c jl (saved file (stateData c jl nonce new) stop)).toOption ↔
          Finished (stateData c jl nonce new) stop)) ∧
    (∀ (js : Json (List VaultEntry)) (pathExists : String → Bool), js.Correct → js.Strict →
      ∀ file old new, loadVaultRegistry c js pathExists file = some old →
        (Survives id old (new.filter fun e => pathExists e.path)
            (loadVaultRegistry c js pathExists (saved file (registryData c js nonce new) stop)) ↔
          Finished (registryData c js nonce new) stop ∨
            EmptyBook old (new.filter fun e => pathExists e.path) stop)) := by
  refine ⟨fun js hjs hstrict file old new hold => ?_,
    fun jl hjl hstrict file old new hold => state_survives_iff hc hjl hstrict hold stop,
    fun js pathExists hjs hstrict file old new hold => book_survives_iff hc hjs hstrict hold stop⟩
  rw [loadFriends_eq_loadBook] at hold ⊢
  have h : Survives id old (new.filter fun _ => true)
        (loadBook c js (fun _ => true) (saved file (bookData c js nonce new) stop)) ↔
      Finished (bookData c js nonce new) stop ∨ EmptyBook old (new.filter fun _ => true) stop :=
    book_survives_iff hc hjs hstrict hold stop
  rwa [List.filter_true] at h

end Saves

/-! ### Files to run the model with -/

theorem Json.inBrackets_strict {α : Type} (js : Json α) : js.inBrackets.Strict where
  read_nil := ⟨_, rfl⟩
  read_letter _ := ⟨_, rfl⟩

def JsonSlice.ofJson {α : Type} (js : Json α) : JsonSlice α where
  toVec a := utf8 (js.write a)
  fromSlice b :=
    match fromUtf8 b with
    | none => .error "invalid unicode code point"
    | some t => js.read t

theorem JsonSlice.ofJson_correct {α : Type} {js : Json α} (h : js.Correct) :
    (ofJson js).Correct where
  fromSlice_toVec a := by
    unfold ofJson
    simp only [fromUtf8_utf8, h.read_write]

theorem JsonSlice.ofJson_strict {α : Type} {js : Json α} (h : js.Strict) : (ofJson js).Strict where
  fromSlice_nil := h.read_nil
  fromSlice_letter b := by
    have hletter : (65 :: b : Bytes) = String.utf8EncodeChar 'A' ++ b := rfl
    unfold ofJson
    simp only [hletter, fromUtf8_append]
    cases fromUtf8 b with
    | none => exact ⟨_, rfl⟩
    | some t => exact h.read_letter t

namespace Coding

open Bincode Saves

def vaultEntry : Codec VaultEntry :=
  (string.seq fun _ => string.seq fun _ => u64).iso
    (fun (name, path, lastOpened) => ⟨name, path, lastOpened⟩)
    (fun e => (e.name, e.path, e.lastOpened)) (fun _ => rfl) (fun _ => rfl)

def livePeer : Codec LivePeer :=
  (string.seq fun _ => text.seq fun _ => (option text).seq fun _ => (Codec.list count text).seq
    fun _ => option u64).iso
    (fun (nickname, ticket, secret, lastKnown, newestSeen) =>
      ⟨nickname, ticket, secret, lastKnown, newestSeen⟩)
    (fun p => (p.nickname, p.ticket, p.rendezvousSecret, p.lastKnown, p.newestSeen))
    (fun _ => rfl) (fun _ => rfl)

def rendezvousEndpoint : Codec RendezvousEndpoint :=
  (string.seq fun _ => string.seq fun _ => option string).iso
    (fun (name, link, viaSocks) => ⟨name, link, viaSocks⟩)
    (fun e => (e.name, e.link, e.viaSocks)) (fun _ => rfl) (fun _ => rfl)

def liveState : Codec LiveState :=
  ((Codec.list count text).seq fun _ => (Codec.list count livePeer).seq fun _ =>
    Codec.list count rendezvousEndpoint).iso
    (fun (myEndpoints, peers, rendezvous) => ⟨myEndpoints, peers, rendezvous⟩)
    (fun s => (s.myEndpoints, s.peers, s.rendezvous)) (fun _ => rfl) (fun _ => rfl)

end Coding

namespace Saves

def sampleFriends : Json (List FriendRecord) := sampleJson.inBrackets

def sampleRegistry : Json (List VaultEntry) :=
  (Json.ofCodec (Codec.list Bincode.count Coding.vaultEntry)).inBrackets

def sampleState : JsonSlice LiveState := .ofJson (Json.ofCodec Coding.liveState).inBrackets

theorem sampleFriends_correct : sampleFriends.Correct := Json.inBrackets_correct sampleJson_correct

theorem sampleFriends_strict : sampleFriends.Strict := Json.inBrackets_strict _

theorem sampleRegistry_correct : sampleRegistry.Correct :=
  Json.inBrackets_correct (Json.ofCodec_correct _)

theorem sampleRegistry_strict : sampleRegistry.Strict := Json.inBrackets_strict _

theorem sampleState_correct : sampleState.Correct :=
  JsonSlice.ofJson_correct (Json.inBrackets_correct (Json.ofCodec_correct _))

theorem sampleState_strict : sampleState.Strict := JsonSlice.ofJson_strict (Json.inBrackets_strict _)

def bob : FriendRecord := ⟨"bob", [], [], none⟩

def bobSeen : FriendRecord := ⟨"bob", [], [], some 5⟩

def livePeers : LiveState := ⟨[], [⟨"bob", [], none, [], none⟩], []⟩

def vaultEntry : VaultEntry := ⟨"v", "/v", 7⟩

theorem saves_survive_iff_through :
    Survives id [] [bob] (loadFriends sampleCipher sampleFriends
      (saved none (friendsData sampleCipher sampleFriends sampleNonce [bob]) (some 1000))) ∧
    Survives LiveState.peers ⟨[], [], []⟩ livePeers (loadState sampleCipher sampleState
      (saved none (stateData sampleCipher sampleState sampleNonce livePeers) (some 1000))).toOption ∧
    Survives id [] [vaultEntry] (loadVaultRegistry sampleCipher sampleRegistry (fun _ => true)
      (saved none (registryData sampleCipher sampleRegistry sampleNonce [vaultEntry])
        (some 1000))) := by
  have h := saves_survive_iff sampleCipher_correct sampleNonce (some 1000)
  refine ⟨(h.1 _ sampleFriends_correct sampleFriends_strict none [] [bob] rfl).mpr (Or.inl ?_),
    (h.2.1 _ sampleState_correct sampleState_strict none _ livePeers rfl).mpr ?_,
    (h.2.2 _ (fun _ => true) sampleRegistry_correct sampleRegistry_strict none [] [vaultEntry]
      rfl).mpr (Or.inl ?_)⟩
  · decide +kernel
  · decide +kernel
  · decide +kernel

/-- What a save over the other entry leaves when it stops after `k` bytes. -/
def friendsAfter (k : Nat) : Option (List FriendRecord) :=
  loadFriends sampleCipher sampleFriends
    (saved (some (friendsData sampleCipher sampleFriends sampleNonce [bob]))
      (friendsData sampleCipher sampleFriends sampleNonce [bobSeen]) (some k))

def stateAfter (k : Nat) : Except String LiveState :=
  loadState sampleCipher sampleState
    (saved (some (stateData sampleCipher sampleState sampleNonce livePeers))
      (stateData sampleCipher sampleState sampleNonce livePeers) (some k))

def registryAfter (k : Nat) : Option (List VaultEntry) :=
  loadVaultRegistry sampleCipher sampleRegistry (fun _ => true)
    (saved (some (registryData sampleCipher sampleRegistry sampleNonce [vaultEntry]))
      (registryData sampleCipher sampleRegistry sampleNonce [vaultEntry]) (some k))

theorem friendsAfter_zero : friendsAfter 0 = some [] := by
  unfold friendsAfter
  rw [loadFriends_eq_loadBook]
  exact loadBook_magic sampleFriends_strict (by omega)

/-- Nobody is left, or the process ends, or the peers file is refused. The next friend that is
added is then the only one. -/
theorem interrupted_saves_lose :
    (¬ Survives id [bob] [bobSeen] (friendsAfter 0) ∧ friendsAfter 0 = some [] ∧
      friendsAfter 5 = none) ∧
    (∃ e, stateAfter 0 = .error e) ∧
    (registryAfter 0 = some [] ∧ registryAfter 5 = none) ∧
    ∀ url nickname key, ∃ msg, addTo sampleTexts sampleEd url nickname key [] =
      some (.ok (msg, [⟨nickname, url, [], none⟩])) := by
  refine ⟨⟨?_, friendsAfter_zero, ?_⟩, ?_, ⟨?_, ?_⟩, ?_⟩
  · intro h
    rw [survives_iff, friendsAfter_zero] at h
    simp at h
  · unfold friendsAfter
    rw [loadFriends_eq_loadBook]
    refine loadBook_torn sampleCipher_correct (by omega) ?_
    unfold bookData
    rw [length_encryptConfig]
    omega
  · refine loadState_cut sampleCipher_correct sampleState_strict ?_
    unfold stateData
    rw [length_encryptConfig]
    omega
  · unfold registryAfter loadVaultRegistry registryData saved
    exact loadBook_magic sampleRegistry_strict (by omega)
  · unfold registryAfter loadVaultRegistry registryData saved
    refine loadBook_torn sampleCipher_correct (by omega) ?_
    unfold bookData
    rw [length_encryptConfig]
    omega
  · intro url nickname key
    exact ⟨_, rfl⟩

end Saves

end AtomVault.Daemon
