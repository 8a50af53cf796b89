import AtomVault.Lib.Codec
import AtomVault.Vault.Crypto

/-!
# An instance of the crates

`bincode` as it writes the vault's tables, and stand-ins for the primitives that keep
every promise of `Crates.Ideal`: an AEAD whose tag is the length and a keyed checksum, key
derivation by padding, chunks of equal length.
-/

open Lib

namespace AtomVault

/-! ## bincode -/

namespace Bincode

def vectorOf (n : Nat) (k : Nat) : List.Vector UInt8 k := ⟨leBytes k n, length_leBytes k n⟩

def u64 : Codec UInt64 :=
  (Codec.fixed 8).iso (fun v => UInt64.ofNat (ofLe v.toList)) (fun n => vectorOf n.toNat 8)
    (by
      intro n
      show UInt64.ofNat (ofLe (leBytes 8 n.toNat)) = n
      rw [ofLe_leBytes 8 _ (by simpa using n.toNat_lt), UInt64.ofNat_toNat])
    (by
      intro v
      apply List.Vector.toList_injective
      have hlt := ofLe_lt v.toList
      rw [v.toList_length] at hlt
      show leBytes 8 (UInt64.ofNat (ofLe v.toList)).toNat = v.toList
      rw [UInt64.toNat_ofNat_of_lt' (by simpa using hlt)]
      have := leBytes_ofLe v.toList
      rwa [v.toList_length] at this)

def decUnary : Bytes → Option (Nat × Bytes)
  | [] => none
  | x :: b =>
    if x = 0 then some (0, b) else
      if x = 1 then (decUnary b).map fun (n, r) => (n + 1, r) else none

def unary : Codec Nat where
  enc n := List.replicate n 1 ++ [0]
  dec := decUnary
  dec_enc n r := by
    induction n with
    | zero => simp [decUnary]
    | succ n ih =>
      rw [List.replicate_succ, List.cons_append, List.cons_append, decUnary, ih]
      simp
  enc_dec := by
    intro b
    induction b with
    | nil => intro n r h; cases h
    | cons x b ih =>
      intro n r h
      rw [decUnary] at h
      split at h
      · rename_i hx
        cases h
        simp [hx]
      split at h
      · rename_i hx
        obtain ⟨⟨m, r'⟩, hm, hpair⟩ := Option.map_eq_some_iff.mp h
        obtain ⟨rfl, rfl⟩ : m + 1 = n ∧ r' = r := by simpa using hpair
        rw [ih hm, hx, List.replicate_succ]
        rfl
      · cases h

/-- The first count without a fixed-width encoding of its own. Rust has no vector that long, so
what follows the marker is never written. -/
def marker : Nat := 2 ^ 64 - 1

theorem toNat_marker : (UInt64.ofNat marker).toNat = marker :=
  UInt64.toNat_ofNat_of_lt' (by simp [marker, UInt64.size])

def encCount (n : Nat) : Bytes :=
  if n < marker then u64.enc (UInt64.ofNat n) else
    u64.enc (UInt64.ofNat marker) ++ unary.enc (n - marker)

def decCount (b : Bytes) : Option (Nat × Bytes) :=
  match u64.dec b with
  | none => none
  | some (k, r) => if k.toNat < marker then some (k.toNat, r) else
      match unary.dec r with
      | none => none
      | some (n, r) => some (marker + n, r)

theorem decCount_encCount (n : Nat) (r : Bytes) : decCount (encCount n ++ r) = some (n, r) := by
  unfold decCount encCount
  by_cases hn : n < marker
  · have hk : (UInt64.ofNat n).toNat = n :=
      UInt64.toNat_ofNat_of_lt' (lt_trans hn (by simp [marker, UInt64.size]))
    rw [if_pos hn, u64.dec_enc]
    simp only
    rw [hk, if_pos hn]
  · rw [if_neg hn, List.append_assoc, u64.dec_enc]
    simp only
    rw [toNat_marker, if_neg (lt_irrefl _), unary.dec_enc]
    simp only
    rw [Nat.add_sub_cancel' (not_lt.mp hn)]

theorem encCount_decCount {b r : Bytes} {n : Nat} (h : decCount b = some (n, r)) :
    b = encCount n ++ r := by
  unfold decCount at h
  split at h
  · cases h
  rename_i k r' hk
  split at h
  · rename_i hlt
    cases h
    rw [encCount, if_pos hlt, UInt64.ofNat_toNat]
    exact u64.enc_dec hk
  rename_i hge
  split at h
  · cases h
  rename_i m r'' hm
  simp only [Option.some.injEq, Prod.mk.injEq] at h
  obtain ⟨rfl, rfl⟩ := h
  have hmax : k = UInt64.ofNat marker := by
    apply UInt64.toNat_inj.mp
    rw [toNat_marker]
    exact le_antisymm (Nat.le_sub_one_of_lt k.toNat_lt) (not_lt.mp hge)
  rw [encCount, if_neg (not_lt.mpr (Nat.le_add_right _ _)), Nat.add_sub_cancel_left,
    List.append_assoc, ← unary.enc_dec hm, ← hmax]
  exact u64.enc_dec hk

/-- A `u64`, or the marker and the rest of the count. -/
def count : Codec Nat := ⟨encCount, decCount, decCount_encCount, encCount_decCount⟩

def byte : Codec UInt8 where
  enc x := [x]
  dec
    | [] => none
    | x :: b => some (x, b)
  dec_enc _ _ := rfl
  enc_dec := by
    intro b x r h
    cases b with
    | nil => cases h
    | cons y b =>
      cases h
      rfl

def ofUTF8 (b : Bytes) : Option String := String.fromUTF8? ⟨b.toArray⟩

theorem ofUTF8_toUTF8 (s : String) : ofUTF8 s.toUTF8.data.toList = some s := by
  have hs : (⟨s.toUTF8.data.toList.toArray⟩ : ByteArray) = s.toByteArray := by
    simp [String.toUTF8]
  unfold ofUTF8 String.fromUTF8?
  rw [hs, dif_pos s.isValidUTF8]
  rfl

theorem toUTF8_ofUTF8 {b : Bytes} {s : String} (h : ofUTF8 b = some s) :
    s.toUTF8.data.toList = b := by
  unfold ofUTF8 String.fromUTF8? at h
  split at h
  · cases h
    simp [String.toUTF8, String.fromUTF8]
  · cases h

/-- A `String` is its UTF-8 bytes behind their count. -/
def string : Codec String :=
  (Codec.list count byte).restrict ofUTF8 (·.toUTF8.data.toList) ofUTF8_toUTF8 toUTF8_ofUTF8

def chunkEntry : Codec ChunkEntry :=
  ((u64.seq fun _ => u64).seq fun _ => (Codec.fixed 16).seq fun _ => u64).iso
    (fun ((cipherLen, offset), fileId, plainLen) => ⟨cipherLen, offset, fileId, plainLen⟩)
    (fun e => ((e.cipherLen, e.offset), e.fileId, e.plainLen)) (fun _ => rfl) (fun _ => rfl)

def fileIndex : Codec FileIndex :=
  (string.seq fun _ => (Codec.list count chunkEntry).seq fun _ => u64).iso
    (fun (vfsName, chunks, lastModifiedUnix) => ⟨vfsName, chunks, lastModifiedUnix⟩)
    (fun f => (f.vfsName, f.chunks, f.lastModifiedUnix)) (fun _ => rfl) (fun _ => rfl)

def vaultMetadata : Codec VaultMetadata :=
  ((Codec.list count fileIndex).seq fun _ => Codec.fixed 32).iso
    (fun (fileTable, cdcSalt) => ⟨fileTable, cdcSalt⟩)
    (fun m => (m.fileTable, m.cdcSalt)) (fun _ => rfl) (fun _ => rfl)

/-! How long the encodings are. -/

theorem length_encCount_mono {m n : Nat} (h : m ≤ n) :
    (count.enc m).length ≤ (count.enc n).length := by
  have hfixed : ∀ k, (u64.enc k).length = 8 := fun k => length_leBytes 8 k.toNat
  show (encCount m).length ≤ (encCount n).length
  unfold encCount
  split <;> split <;> simp only [List.length_append, hfixed, unary, List.length_replicate] <;> omega

theorem length_enc (m : VaultMetadata) : (vaultMetadata.enc m).length =
    (count.enc m.fileTable.length).length + (m.fileTable.map fun f => (fileIndex.enc f).length).sum +
      32 := by
  show ((count.enc m.fileTable.length ++ m.fileTable.flatMap fileIndex.enc) ++
    m.cdcSalt.toList).length = _
  rw [List.length_append, List.length_append, List.length_flatMap, m.cdcSalt.toList_length]

theorem length_enc_push (table : List FileIndex) (f : FileIndex) (salt : List.Vector UInt8 32) :
    (vaultMetadata.enc ⟨table, salt⟩).length ≤ (vaultMetadata.enc ⟨table ++ [f], salt⟩).length := by
  have hcount := length_encCount_mono (Nat.le_add_right table.length 1)
  rw [length_enc, length_enc]
  simp only [List.length_append, List.length_singleton, List.map_append, List.sum_append]
  omega

theorem length_enc_rename (l₁ l₂ : List FileIndex) {f : FileIndex} {name : String}
    (salt : List.Vector UInt8 32) (h : f.vfsName.toUTF8.size ≤ name.toUTF8.size) :
    (vaultMetadata.enc ⟨l₁ ++ f :: l₂, salt⟩).length ≤
      (vaultMetadata.enc ⟨l₁ ++ { f with vfsName := name } :: l₂, salt⟩).length := by
  have hname : (string.enc f.vfsName).length ≤ (string.enc name).length := by
    show (count.enc _ ++ List.flatMap _ _).length ≤ (count.enc _ ++ List.flatMap _ _).length
    have hcount := length_encCount_mono h
    simp only [List.length_append, List.length_flatMap, byte, List.length_singleton,
      List.map_const', List.sum_replicate]
    exact Nat.add_le_add hcount (Nat.mul_le_mul_right 1 h)
  have hentry : (fileIndex.enc f).length ≤ (fileIndex.enc { f with vfsName := name }).length := by
    show (string.enc f.vfsName ++ _).length ≤ (string.enc name ++ _).length
    rw [List.length_append, List.length_append]
    exact Nat.add_le_add_right hname _
  rw [length_enc, length_enc]
  simp only [List.length_append, List.length_cons, List.map_append, List.map_cons, List.sum_append,
    List.sum_cons]
  omega

theorem length_u64 (n : UInt64) : (u64.enc n).length = 8 := length_leBytes 8 n.toNat

theorem length_encCount {n : Nat} (h : n < marker) : (count.enc n).length = 8 := by
  show (encCount n).length = 8
  rw [encCount, if_pos h, length_u64]

theorem length_chunkEntry (e : ChunkEntry) : (chunkEntry.enc e).length = 40 := by
  show ((u64.enc e.cipherLen ++ u64.enc e.offset) ++
    (e.fileId.toList ++ u64.enc e.plainLen)).length = 40
  simp [length_u64]

theorem length_list {α : Type} {c : Codec α} {k : Nat} (hc : ∀ a, (c.enc a).length = k)
    {as : List α} (h : as.length < marker) :
    ((Codec.list count c).enc as).length = 8 + as.length * k := by
  show (count.enc as.length ++ as.flatMap c.enc).length = _
  rw [List.length_append, length_encCount h, List.length_flatMap]
  simp [hc]

theorem length_vaultMetadata {f : FileIndex} (salt : List.Vector UInt8 32)
    (hname : f.vfsName.toUTF8.data.toList.length < marker) (hchunks : f.chunks.length < marker) :
    (vaultMetadata.enc ⟨[f], salt⟩).length =
      64 + f.vfsName.toUTF8.data.toList.length + f.chunks.length * 40 := by
  have hstring : (string.enc f.vfsName).length = 8 + f.vfsName.toUTF8.data.toList.length * 1 :=
    length_list (fun _ => rfl) hname
  have hentries := length_list length_chunkEntry hchunks
  show ((count.enc 1 ++ ((string.enc f.vfsName ++ ((Codec.list count chunkEntry).enc f.chunks ++
    u64.enc f.lastModifiedUnix)) ++ [])) ++ salt.toList).length = _
  simp only [List.length_append, List.length_nil, length_u64, hstring, hentries,
    length_encCount (by decide : 1 < marker), List.Vector.toList_length]
  omega

def deserialize (b : Bytes) : Except String VaultMetadata :=
  match vaultMetadata.dec b with
  | some (m, _) => .ok m
  | none => .error "io error: unexpected end of file"

end Bincode

/-! ## The stand-ins -/

namespace Standin

def tag (key nonce aad msg : Bytes) : Bytes :=
  leBytes 8 msg.length ++
    leBytes 8 ((key ++ nonce ++ aad ++ msg).foldl (fun h x => (h * 257 + x.toNat + 1) % 2 ^ 64) 7)

theorem length_tag (key nonce aad msg : Bytes) : (tag key nonce aad msg).length = 16 := by
  simp [tag]

def encrypt (key nonce aad msg : Bytes) : Option Bytes :=
  if msg.length < 2 ^ 64 then some (tag key nonce aad msg ++ msg) else none

def decrypt (key nonce aad c : Bytes) : Option Bytes :=
  let msg := c.drop 16
  if 16 ≤ c.length ∧ msg.length < 2 ^ 64 ∧ c.take 16 = tag key nonce aad msg then some msg else none

theorem encrypt_eq_some {key nonce aad msg c : Bytes} (h : encrypt key nonce aad msg = some c) :
    msg.length < 2 ^ 64 ∧ c = tag key nonce aad msg ++ msg := by
  unfold encrypt at h
  split at h
  · rename_i hlt
    cases h
    exact ⟨hlt, rfl⟩
  · cases h

theorem decrypt_encrypt {key nonce aad msg c : Bytes} (h : encrypt key nonce aad msg = some c) :
    decrypt key nonce aad c = some msg := by
  obtain ⟨hlt, rfl⟩ := encrypt_eq_some h
  have htag := length_tag key nonce aad msg
  have htake : (tag key nonce aad msg ++ msg).take 16 = tag key nonce aad msg := by
    rw [← htag, List.take_left]
  have hdrop : (tag key nonce aad msg ++ msg).drop 16 = msg := by
    rw [← htag, List.drop_left]
  unfold decrypt
  rw [hdrop, htake]
  simp [htag]
  exact hlt

theorem decrypt_take {key nonce aad msg c : Bytes} {n : Nat}
    (h : encrypt key nonce aad msg = some c) (hn : n < c.length) :
    decrypt key nonce aad (c.take n) = none := by
  obtain ⟨hlt, rfl⟩ := encrypt_eq_some h
  have htag := length_tag key nonce aad msg
  rw [List.length_append, htag] at hn
  unfold decrypt
  simp only
  rw [if_neg]
  rintro ⟨hlen, -, heq⟩
  rw [List.length_take] at hlen
  have hold : ((tag key nonce aad msg ++ msg).take n).take 8 = leBytes 8 msg.length := by
    rw [List.take_take, min_eq_left (by omega), tag, List.append_assoc]
    exact List.take_left' (by simp)
  have hnew := congrArg (List.take 8) heq
  rw [List.take_take, min_eq_left (by omega), hold, tag, List.take_left' (by simp)] at hnew
  have hcut := congrArg ofLe hnew
  rw [ofLe_leBytes 8 _ (by simpa using hlt), ofLe_leBytes] at hcut
  · simp only [List.length_drop, List.length_take, List.length_append, htag] at hcut
    omega
  · simp only [List.length_drop, List.length_take, List.length_append, htag]
    omega

def pad32 (b : Bytes) : Bytes := (b ++ List.replicate 32 0).take 32

/-- Chunks of 4096 bytes from `p` on, for `fuel` bytes. -/
def chunksFrom (p : Nat) : Nat → Nat → List ChunkData
  | 0, _ => []
  | fuel + 1, n => if n = 0 then [] else
      ⟨p, min 4096 n⟩ :: chunksFrom (p + min 4096 n) fuel (n - min 4096 n)

theorem tiles_chunksFrom : ∀ {fuel p n : Nat}, n ≤ fuel → Tiles p (chunksFrom p fuel n) (p + n) := by
  intro fuel
  induction fuel with
  | zero =>
    intro p n h
    obtain rfl : n = 0 := by omega
    rfl
  | succ fuel ih =>
    intro p n h
    unfold chunksFrom
    split
    · rename_i hn
      subst hn
      rfl
    · rename_i hn
      refine ⟨rfl, by simp; omega, by simp [MAX_CHUNK_SIZE], ?_⟩
      have := ih (p := p + min 4096 n) (n := n - min 4096 n) (by omega)
      have hsum : p + min 4096 n + (n - min 4096 n) = p + n := by omega
      rwa [hsum] at this

end Standin

def standin : Crates where
  argon2id password salt _ _ _ := .ok (Standin.pad32 (password ++ salt))
  scrypt password salt _ _ _ := .ok (Standin.pad32 (password ++ salt))
  hkdf ikm salt info := some (Standin.pad32 (salt ++ info ++ ikm))
  encrypt := Standin.encrypt
  decrypt := Standin.decrypt
  serialize m := .ok (Bincode.vaultMetadata.enc m)
  deserialize := Bincode.deserialize
  chunkData data := .ok (Standin.chunksFrom 0 data.length data.length)

theorem standin_ideal : standin.Ideal where
  decrypt_encrypt := Standin.decrypt_encrypt
  encrypt_length := by
    intro key nonce aad msg c h
    obtain ⟨-, rfl⟩ := Standin.encrypt_eq_some h
    rw [List.length_append, Standin.length_tag, Nat.add_comm]
  decrypt_take := Standin.decrypt_take
  encrypt_total key nonce aad msg h := by
    show (Standin.encrypt key nonce aad msg).isSome
    rw [Standin.encrypt, if_pos (by omega)]
    rfl
  hkdf_total _ _ _ := rfl
  serialize_total m := ⟨_, rfl⟩
  deserialize_serialize := by
    intro m b h
    cases h
    have hdec := Bincode.vaultMetadata.dec_enc m []
    rw [List.append_nil] at hdec
    simp [standin, Bincode.deserialize, hdec]
  serialize_push := by
    intro table f salt b b' hb hb'
    cases hb
    cases hb'
    exact Bincode.length_enc_push table f salt
  serialize_rename := by
    intro l₁ f l₂ name salt b b' hb hb' h
    cases hb
    cases hb'
    exact Bincode.length_enc_rename l₁ l₂ salt h
  chunkData_tiles data := by
    refine ⟨_, rfl, ?_⟩
    have := Standin.tiles_chunksFrom (p := 0) (le_refl data.length)
    rwa [Nat.zero_add] at this

theorem standin_tagged : standin.Tagged := by
  intro key nonce aad msg c h
  change Standin.decrypt key nonce aad c = some msg at h
  unfold Standin.decrypt at h
  dsimp only at h
  split at h
  · rename_i hc
    cases h
    rw [List.length_drop]
    omega
  · cases h

end AtomVault
