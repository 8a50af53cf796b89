import AtomVault.Lib.Machine
import AtomVault.Daemon.Config

/-!
# The identity files (`daemon.rs`, `live.rs`)

Both loaders look for a file, read it, and write a new identity when there is none. Any number
of calls run at once, and each may stop at any point.
-/

open Lib

namespace AtomVault.Daemon.Identity

open Live

/-- What the bytes of a file come to: an identity, an error, or one more try. -/
inductive Parsed (K : Type)
  | key (k : K)
  | bad (e : String)
  | again

def Parsed.isKey {K : Type} : Parsed K → Bool
  | .key _ => true
  | _ => false

/-- One of the two files: how it is read, what is generated for it, and what is written. -/
structure Kind (K : Type) where
  parse : Bytes → Parsed K
  generates : K → Bool
  data : List.Vector UInt8 24 → K → Bytes

section Kinds

variable (c : ConfigCipher)

/-- `identity.key`. A key of another length is replaced. -/
def identityKey : Kind (List.Vector UInt8 32) where
  parse raw :=
    match decryptConfig c raw with
    | .error e => .bad e
    | .ok bytes => if h : bytes.length = 32 then .key ⟨bytes, h⟩ else .again
  generates _ := true
  data nonce key := encryptConfig c nonce key.toList

/-- The private halves, as PKCS#8. -/
structure SecretBundle where
  classical : Bytes
  pq : Option Bytes
  deriving DecidableEq

/-- What loading a private key says. -/
structure KeyLoader where
  ed25519 : Bytes → Except String Unit
  mlDsa : Bytes → Except String Unit

def SECRET_VERSION : UInt8 := 1

namespace SecretBundle

def toSecretBytes (b : SecretBundle) : Bytes :=
  [SECRET_VERSION] ++ (beBytes 4 b.classical.length ++ (b.classical ++
    (beBytes 4 (b.pq.getD []).length ++ b.pq.getD [])))

/-- The closure that takes the next `n` bytes. -/
def take : Nat → Bytes → Except String (Bytes × Bytes) := takeOr "stored identity is truncated"

variable (ld : KeyLoader)

def fromSecretBytes (bytes : Bytes) : Except String SecretBundle := do
  let (version, rest) ← take 1 bytes
  if version ≠ [SECRET_VERSION] then
    throw (s!"stored identity version {ofBe version}, this build understands {SECRET_VERSION}")
  else
    let (edLen, rest) ← take 4 rest
    let (classical, rest) ← take (ofBe edLen) rest
    ld.ed25519 classical
    let (pqLen, rest) ← take 4 rest
    let (pq, rest) ← if ofBe pqLen = 0 then pure (none, rest) else do
      let (der, rest) ← take (ofBe pqLen) rest
      ld.mlDsa der
      pure (some der, rest)
    if rest ≠ [] then
      throw "trailing bytes after stored identity — refusing an ambiguous encoding"
    else return ⟨classical, pq⟩

/-- Keys that load, of a length that fits. -/
def generated (b : SecretBundle) : Bool :=
  (ld.ed25519 b.classical).isOk && decide (b.classical.length < 2 ^ 32) &&
    b.pq.all fun der => (ld.mlDsa der).isOk && decide (der ≠ [] ∧ der.length < 2 ^ 32)

end SecretBundle

/-- `live_identity.key`. -/
def liveIdentityKey (ld : KeyLoader) : Kind SecretBundle where
  parse raw :=
    match decryptConfig c raw with
    | .error e => .bad e
    | .ok plain =>
      match SecretBundle.fromSecretBytes ld plain with
      | .ok b => .key b
      | .error e => .bad e
  generates b := b.generated ld
  data nonce b := encryptConfig c nonce b.toSecretBytes

end Kinds

/-! ## Calls, side by side -/

/-- Where a call is: it has seen a file, or is about to create one. -/
inductive Call (K : Type)
  | begun
  | found
  | creating
  | writing (key : K) (data : Bytes) (done : Nat)
  | returned (key : K)
  | stopped
  deriving DecidableEq

def Call.writes {K : Type} : Call K → Bool
  | .writing _ _ _ => true
  | _ => false

structure Disk (K : Type) where
  file : Option Bytes
  calls : List (Call K)
  deriving DecidableEq

inductive Act (K : Type)
  | begin
  | check (i : Nat)
  | read (i : Nat)
  | openFile (i : Nat) (key : K) (nonce : List.Vector UInt8 24)
  | write (i n : Nat)
  | stop (i : Nat)

section Model

variable {K : Type} (kd : Kind K)

/-- What a read leads to. -/
def afterRead (file : Option Bytes) : Call K :=
  match file with
  | none => .stopped
  | some raw =>
    match kd.parse raw with
    | .key k => .returned k
    | .bad _ => .stopped
    | .again => .creating

def step (s : Disk K) : Act K → Option (Disk K)
  | .begin => some { s with calls := s.calls ++ [.begun] }
  | .check i => do
    let call ← s.calls[i]?
    match call with
    | .begun => some { s with calls := s.calls.set i (if s.file.isSome then .found else .creating) }
    | _ => none
  | .read i => do
    let call ← s.calls[i]?
    match call with
    | .found => some { s with calls := s.calls.set i (afterRead kd s.file) }
    | _ => none
  | .openFile i key nonce => do
    let call ← s.calls[i]?
    match call with
    | .creating =>
      if kd.generates key then
        some ⟨some [], s.calls.set i (.writing key (kd.data nonce key) 0)⟩
      else none
    | _ => none
  | .write i n => do
    let call ← s.calls[i]?
    match call with
    | .writing key data done =>
      if 0 < n ∧ done + n ≤ data.length then
        some ⟨some (patch (s.file.getD []) done (slice data done n)), s.calls.set i
          (if done + n = data.length then .returned key else .writing key data (done + n))⟩
      else none
    | _ => none
  -- a crash, or an error of a call to the file system
  | .stop i => do
    let call ← s.calls[i]?
    match call with
    | .returned _ => none
    | _ => some { s with calls := s.calls.set i .stopped }

end Model

/-! ## What is promised -/

section Promise

variable {K : Type} {kd : Kind K} {s s' : Disk K}

/-- Whatever calls have returned is one identity, and the next call loads it. -/
structure Once (kd : Kind K) (s : Disk K) : Prop where
  same : ∀ k k', .returned k ∈ s.calls → .returned k' ∈ s.calls → k = k'
  loads : ∀ k, .returned k ∈ s.calls → ∃ raw, s.file = some raw ∧ kd.parse raw = .key k

/-- A file is only opened while no other call writes it and it has no identity in it. -/
def Exclusive (kd : Kind K) (s : Disk K) : Act K → Prop
  | .openFile _ _ _ => (∀ call ∈ s.calls, call.writes = false) ∧
      ∀ raw ∈ s.file, (kd.parse raw).isKey = false
  | _ => True

instance (s : Disk K) (a : Act K) : Decidable (Exclusive kd s a) := by
  cases a <;> unfold Exclusive <;> infer_instance

/-- What is written whole is read, and no shorter file is. -/
structure Kind.Correct (kd : Kind K) : Prop where
  parse_data : ∀ nonce k, kd.generates k = true → kd.parse (kd.data nonce k) = .key k
  parse_take : ∀ nonce k j, j < (kd.data nonce k).length →
    (kd.parse ((kd.data nonce k).take j)).isKey = false
  data_pos : ∀ nonce k, 0 < (kd.data nonce k).length

end Promise

/-! ## Every run -/

section Runs

variable {K : Type} {kd : Kind K} {s s' : Disk K}

/-- Either nobody writes and what was returned is in the file, or one call writes an identity
and none was returned yet. -/
inductive Inv (kd : Kind K) (s : Disk K) : Prop
  | quiet (hquiet : ∀ call ∈ s.calls, call.writes = false)
    (hloads : ∀ k, .returned k ∈ s.calls → ∃ raw, s.file = some raw ∧ kd.parse raw = .key k)
  | torn {i : Nat} {key : K} {nonce : List.Vector UInt8 24} {done : Nat}
    (hi : s.calls[i]? = some (.writing key (kd.data nonce key) done))
    (hgenerates : kd.generates key = true)
    (hfile : s.file = some ((kd.data nonce key).take done))
    (hlt : done < (kd.data nonce key).length)
    (halone : ∀ j, j ≠ i → ∀ call ∈ s.calls[j]?, call.writes = false)
    (hnone : ∀ k, .returned k ∉ s.calls)

theorem Inv.once (h : Inv kd s) : Once kd s := by
  cases h with
  | quiet _ hloads =>
    refine ⟨fun k k' hk hk' => ?_, hloads⟩
    obtain ⟨raw, hraw, hparse⟩ := hloads k hk
    obtain ⟨raw', hraw', hparse'⟩ := hloads k' hk'
    obtain rfl := Option.some.inj (hraw.symm.trans hraw')
    rw [hparse] at hparse'
    simpa using hparse'
  | torn _ _ _ _ _ hnone =>
    exact ⟨fun k _ hk => absurd hk (hnone k), fun k hk => absurd hk (hnone k)⟩

theorem Inv.set (hkd : kd.Correct) (h : Inv kd s) {i : Nat} {call call' : Call K}
    (hi : s.calls[i]? = some call) (hcall : call.writes = false) (hcall' : call'.writes = false)
    (hreturned : ∀ k, call' = .returned k → ∃ raw, s.file = some raw ∧ kd.parse raw = .key k) :
    Inv kd { s with calls := s.calls.set i call' } := by
  have hlen := (List.getElem?_eq_some_iff.mp hi).1
  cases h with
  | quiet hquiet hloads =>
    refine .quiet (fun q hq => ?_) (fun k hk => ?_)
    · rcases List.mem_or_eq_of_mem_set hq with hq | rfl
      · exact hquiet q hq
      · exact hcall'
    · rcases List.mem_or_eq_of_mem_set hk with hk | hk
      · exact hloads k hk
      · exact hreturned k hk.symm
  | torn hj hgenerates hfile hlt halone hnone =>
    rename_i j key nonce done
    have hne : i ≠ j := by
      rintro rfl
      cases hi.symm.trans hj
      cases hcall
    refine .torn (i := j) (by rw [List.getElem?_set_ne hne, hj]) hgenerates hfile hlt ?_ ?_
    · intro m hm q hq
      rcases getElem?_set_eq_some hq with ⟨rfl, rfl⟩ | ⟨-, hq⟩
      · exact hcall'
      · exact halone m hm q hq
    · intro k hk
      rcases List.mem_or_eq_of_mem_set hk with hk | hk
      · exact hnone k hk
      -- what is there so far is no identity
      · obtain ⟨raw, hraw, hparse⟩ := hreturned k hk.symm
        obtain rfl := Option.some.inj (hfile.symm.trans hraw)
        have hpart := hkd.parse_take nonce key done hlt
        rw [hparse] at hpart
        cases hpart

theorem Inv.openFile (hkd : kd.Correct) (h : Inv kd s) {i : Nat} {key : K}
    {nonce : List.Vector UInt8 24} (hi : s.calls[i]? = some .creating)
    (hgenerates : kd.generates key = true)
    (hquiet : ∀ call ∈ s.calls, call.writes = false)
    (hempty : ∀ raw ∈ s.file, (kd.parse raw).isKey = false) :
    Inv kd ⟨some [], s.calls.set i (.writing key (kd.data nonce key) 0)⟩ := by
  have hlen := (List.getElem?_eq_some_iff.mp hi).1
  refine .torn (i := i) (List.getElem?_set_self hlen) hgenerates rfl (hkd.data_pos nonce key) ?_ ?_
  · intro j hj call hcall
    rw [List.getElem?_set_ne hj.symm] at hcall
    exact hquiet call (List.mem_of_getElem? hcall)
  · intro k hk
    rcases List.mem_or_eq_of_mem_set hk with hk | hk
    · obtain ⟨raw, hraw, hparse⟩ := h.once.loads k hk
      have hnone := hempty raw hraw
      rw [hparse] at hnone
      cases hnone
    · cases hk

theorem Inv.write (hkd : kd.Correct) (h : Inv kd s) {i n done : Nat} {key : K} {data : Bytes}
    (hi : s.calls[i]? = some (.writing key data done)) (hle : done + n ≤ data.length) :
    Inv kd ⟨some (patch (s.file.getD []) done (slice data done n)), s.calls.set i
      (if done + n = data.length then .returned key else .writing key data (done + n))⟩ := by
  have hlen := (List.getElem?_eq_some_iff.mp hi).1
  cases h with
  | quiet hquiet => cases hquiet _ (List.mem_of_getElem? hi)
  | torn hj hgenerates hfile hlt halone hnone =>
    rename_i j key' nonce done'
    have hij : i = j := by
      by_contra hne
      cases halone i hne _ hi
    subst hij
    cases hi.symm.trans hj
    have hpatch : patch (s.file.getD []) done (slice (kd.data nonce key) done n) =
        (kd.data nonce key).take (done + n) := by
      rw [hfile]
      exact patch_take hle
    rw [hpatch]
    by_cases hend : done + n = (kd.data nonce key).length
    · rw [if_pos hend, hend, List.take_length]
      refine .quiet ?_ ?_
      · exact forall_set_of_others halone rfl
      · intro k hk
        rcases List.mem_or_eq_of_mem_set hk with hk | hk
        · exact absurd hk (hnone k)
        · cases hk
          exact ⟨_, rfl, hkd.parse_data nonce key hgenerates⟩
    · rw [if_neg hend]
      refine .torn (i := i) (List.getElem?_set_self hlen) hgenerates rfl (by omega)
        (others_set halone _) ?_
      intro k hk
      rcases List.mem_or_eq_of_mem_set hk with hk | hk
      · exact hnone k hk
      · cases hk

theorem Inv.stop (hkd : kd.Correct) (h : Inv kd s) {i : Nat} {call : Call K}
    (hi : s.calls[i]? = some call) : Inv kd { s with calls := s.calls.set i .stopped } := by
  cases hcall : call.writes with
  | true =>
    cases h with
    | quiet hquiet =>
      have hquiet := hquiet _ (List.mem_of_getElem? hi)
      rw [hcall] at hquiet
      cases hquiet
    | torn hj hgenerates hfile hlt halone hnone =>
      rename_i j key nonce done
      have hij : i = j := by
        by_contra hne
        have halone := halone i hne call hi
        rw [hcall] at halone
        cases halone
      subst hij
      refine .quiet ?_ ?_
      · exact forall_set_of_others halone rfl
      · intro k hk
        rcases List.mem_or_eq_of_mem_set hk with hk | hk
        · exact absurd hk (hnone k)
        · cases hk
  | false =>
    refine h.set hkd hi hcall rfl ?_
    intro k hk
    cases hk

theorem Inv.begin (h : Inv kd s) : Inv kd { s with calls := s.calls ++ [.begun] } := by
  cases h with
  | quiet hquiet hloads =>
    refine .quiet (fun call hcall => ?_) (fun k hk => hloads k (by simpa using hk))
    rcases List.mem_append.mp hcall with hcall | hcall
    · exact hquiet call hcall
    · rw [List.mem_singleton.mp hcall]
      rfl
  | torn hj hgenerates hfile hlt halone hnone =>
    have hbound := (List.getElem?_eq_some_iff.mp hj).1
    refine .torn (by rwa [List.getElem?_append_left hbound]) hgenerates hfile hlt ?_ ?_
    · intro m hm call hcall
      rcases getElem?_concat_eq_some.mp hcall with hcall | ⟨-, rfl⟩
      · exact halone m hm call hcall
      · rfl
    · intro k hk
      exact hnone k (by simpa using hk)

theorem afterRead_writes (file : Option Bytes) : (afterRead kd file).writes = false := by
  unfold afterRead
  split
  · rfl
  · split <;> rfl

theorem afterRead_eq_returned {file : Option Bytes} {k : K} (h : afterRead kd file = .returned k) :
    ∃ raw, file = some raw ∧ kd.parse raw = .key k := by
  unfold afterRead at h
  split at h
  · cases h
  · rename_i raw
    split at h
    · rename_i k' hparse
      cases h
      exact ⟨raw, rfl, hparse⟩
    · cases h
    · cases h

theorem Inv.step (hkd : kd.Correct) (h : Inv kd s) {a : Act K} (hexclusive : Exclusive kd s a)
    (hstep : step kd s a = some s') : Inv kd s' := by
  cases a with
  | begin =>
    cases hstep
    exact h.begin
  | check i =>
    obtain ⟨call, hi, hstep⟩ := Option.bind_eq_some_iff.mp hstep
    split at hstep
    · cases hstep
      refine h.set hkd hi rfl ?_ ?_
      · split <;> rfl
      · intro k hk
        split at hk <;> cases hk
    · cases hstep
  | read i =>
    obtain ⟨call, hi, hstep⟩ := Option.bind_eq_some_iff.mp hstep
    split at hstep
    · cases hstep
      exact h.set hkd hi rfl (afterRead_writes _) fun k hk => afterRead_eq_returned hk
    · cases hstep
  | openFile i key nonce =>
    obtain ⟨call, hi, hstep⟩ := Option.bind_eq_some_iff.mp hstep
    split at hstep
    · split at hstep
      · rename_i hgenerates
        cases hstep
        exact h.openFile hkd hi hgenerates hexclusive.1 hexclusive.2
      · cases hstep
    · cases hstep
  | write i n =>
    obtain ⟨call, hi, hstep⟩ := Option.bind_eq_some_iff.mp hstep
    split at hstep
    · split at hstep
      · rename_i hn
        cases hstep
        exact h.write hkd hi hn.2
      · cases hstep
    · cases hstep
  | stop i =>
    obtain ⟨call, hi, hstep⟩ := Option.bind_eq_some_iff.mp hstep
    split at hstep
    · cases hstep
    · cases hstep
      exact h.stop hkd hi

theorem once_run (hkd : kd.Correct) {file : Option Bytes} {as : List (Act K)}
    (h : run (step kd) ⟨file, []⟩ as = some s)
    (hexclusive : Allowed (step kd) (Exclusive kd) ⟨file, []⟩ as) : Once kd s := by
  have hinit : Inv kd (⟨file, []⟩ : Disk K) := .quiet (by simp) (by simp)
  have hinv := run_allowed (fun s a s' hs hA hstep => Inv.step hkd hs hA hstep) h hexclusive hinit
  exact hinv.once

end Runs

/-! ## The two files -/

section Files

variable {c : ConfigCipher} {ld : KeyLoader}

theorem identityKey_correct (hc : c.Correct) : (identityKey c).Correct where
  parse_data nonce k _ := by
    unfold identityKey
    simp only [decryptConfig_encryptConfig hc, List.Vector.toList_length, dite_true]
    rfl
  parse_take nonce k j hj := by
    unfold identityKey at hj ⊢
    by_cases hlt : j < 5
    · simp only [decryptConfig_take_of_lt hlt]
      rw [dif_neg]
      · rfl
      · rw [List.length_take, length_magic]
        omega
    · obtain ⟨e, he⟩ := decryptConfig_take_of_le (p := k.toList) hc (Nat.le_of_not_lt hlt) hj
      simp only [he]
      rfl
  data_pos nonce k := by
    show 0 < (encryptConfig c nonce k.toList).length
    rw [length_encryptConfig]
    omega

namespace SecretBundle

theorem isOk_eq_ok {r : Except String Unit} (h : r.isOk = true) : r = .ok () := by
  cases r with
  | ok _ => rfl
  | error e => simp [Except.isOk, Except.toBool] at h

theorem fromSecretBytes_toSecretBytes {b : SecretBundle} (h : b.generated ld = true) :
    fromSecretBytes ld b.toSecretBytes = .ok b := by
  obtain ⟨classical, pq⟩ := b
  unfold generated at h
  simp only [Bool.and_eq_true, decide_eq_true_eq] at h
  obtain ⟨⟨hload, hclassical⟩, hpq⟩ := h
  have hbe : ∀ n, n < 2 ^ 32 → ofBe (beBytes 4 n) = n := fun n hn => ofBe_beBytes 4 n (by omega)
  have htake {n : Nat} {a : Bytes} (h : a.length = n) (rest : Bytes) :
      take n (a ++ rest) = .ok (a, rest) := takeOr_append h
  have hfour : ∀ n rest, take 4 (beBytes 4 n ++ rest) = .ok (beBytes 4 n, rest) :=
    fun n => htake (length_beBytes 4 n)
  have hversion : ∀ rest, take 1 ([SECRET_VERSION] ++ rest) = .ok ([SECRET_VERSION], rest) :=
    htake rfl
  have hed : ld.ed25519 classical = .ok () := isOk_eq_ok hload
  unfold fromSecretBytes toSecretBytes
  simp only [hversion, bind, Except.bind, ne_eq, not_true_eq_false, if_false, hfour,
    hbe _ hclassical, htake rfl, hed]
  cases pq with
  | none => simp [hbe, pure, Except.pure]
  | some der =>
    simp only [Option.all_some, Bool.and_eq_true, decide_eq_true_eq] at hpq
    obtain ⟨hload, hder, hlen⟩ := hpq
    have hml : ld.mlDsa der = .ok () := isOk_eq_ok hload
    have hwhole : take der.length der = .ok (der, []) := by
      simpa using htake (a := der) rfl []
    simp [hbe _ hlen, hder, hwhole, hml, pure, Except.pure]

theorem fromSecretBytes_magic {k : Nat} {b : SecretBundle} :
    fromSecretBytes ld (MAGIC.take k) ≠ .ok b := by
  intro h
  unfold fromSecretBytes at h
  cases k with
  | zero => simp [take, takeOr, bind, Except.bind] at h
  | succ k =>
    have hversion : take 1 (MAGIC.take (k + 1)) = .ok ([65], (MAGIC.drop 1).take k) := rfl
    simp [hversion, bind, Except.bind, SECRET_VERSION, throw, throwThe, MonadExceptOf.throw] at h

end SecretBundle

theorem liveIdentityKey_correct (hc : c.Correct) : (liveIdentityKey c ld).Correct where
  parse_data nonce b h := by
    unfold liveIdentityKey
    simp only [decryptConfig_encryptConfig hc, SecretBundle.fromSecretBytes_toSecretBytes h]
  parse_take nonce b j hj := by
    unfold liveIdentityKey at hj ⊢
    by_cases hlt : j < 5
    · simp only [decryptConfig_take_of_lt hlt]
      cases hread : SecretBundle.fromSecretBytes ld (MAGIC.take j) with
      | ok b => exact absurd hread SecretBundle.fromSecretBytes_magic
      | error e => rfl
    · obtain ⟨e, he⟩ := decryptConfig_take_of_le (p := b.toSecretBytes) hc
        (Nat.le_of_not_lt hlt) hj
      simp only [he]
      rfl
  data_pos nonce b := by
    show 0 < (encryptConfig c nonce b.toSecretBytes).length
    rw [length_encryptConfig]
    omega

/-- **Identity creation.** Whatever calls of either loader do at once, and wherever they stop: while
the file is only opened for writing when no other call writes it and it holds no identity, all that
is returned is one identity, and the next call loads it. -/
theorem created_once (hc : c.Correct) (ld : KeyLoader) (file : Option Bytes) :
    (∀ as s, run (step (identityKey c)) ⟨file, []⟩ as = some s →
      Allowed (step (identityKey c)) (Exclusive (identityKey c)) ⟨file, []⟩ as →
        Once (identityKey c) s) ∧
    (∀ as s, run (step (liveIdentityKey c ld)) ⟨file, []⟩ as = some s →
      Allowed (step (liveIdentityKey c ld)) (Exclusive (liveIdentityKey c ld)) ⟨file, []⟩ as →
        Once (liveIdentityKey c ld) s) :=
  ⟨fun _ _ h hA => once_run (identityKey_correct hc) h hA,
    fun _ _ h hA => once_run (liveIdentityKey_correct hc) h hA⟩

end Files

/-! ### Two first starts -/

def sampleKey (x : UInt8) : List.Vector UInt8 32 := List.Vector.replicate _ x

def sampleBundle (x : UInt8) : SecretBundle := ⟨[x], none⟩

def sampleLoader : KeyLoader := ⟨fun _ => .ok (), fun _ => .ok ()⟩

def sampleDaemon : Kind (List.Vector UInt8 32) := identityKey sampleCipher

def sampleLive : Kind SecretBundle := liveIdentityKey sampleCipher sampleLoader

section Starts

variable {K : Type} (kd : Kind K)

/-- The identity is written in one write. -/
def create (i : Nat) (k : K) : List (Act K) :=
  [.openFile i k sampleNonce, .write i (kd.data sampleNonce k).length]

/-- A call that creates the identity, and one that loads it. -/
def oneAfterOther (k : K) : List (Act K) :=
  [.begin, .check 0] ++ create kd 0 k ++ [.begin, .check 1, .read 1]

/-- Two calls look before either has created the file. -/
def atOnce (k k' : K) : List (Act K) :=
  [.begin, .check 0, .begin, .check 1] ++ create kd 0 k ++ create kd 1 k'

end Starts

/-- A first start that stops in its write, and then as above. -/
def afterCrash : List (Act (List.Vector UInt8 32)) :=
  [.begin, .check 0, .openFile 0 (sampleKey 2) sampleNonce, .write 0 3, .stop 0] ++
    [.begin, .check 1, .read 1] ++ create sampleDaemon 1 (sampleKey 1) ++
    [.begin, .check 2, .read 2]

theorem created_once_in_turn :
    Once sampleDaemon ⟨some (sampleDaemon.data sampleNonce (sampleKey 1)),
      [.stopped, .returned (sampleKey 1), .returned (sampleKey 1)]⟩ ∧
    Once sampleLive ⟨some (sampleLive.data sampleNonce (sampleBundle 1)),
      [.returned (sampleBundle 1), .returned (sampleBundle 1)]⟩ := by
  have honce := created_once sampleCipher_correct sampleLoader none
  constructor
  · exact honce.1 afterCrash _ (by decide +kernel) (by decide +kernel)
  · exact honce.2 (oneAfterOther sampleLive (sampleBundle 1)) _ (by decide +kernel)
      (by decide +kernel)

/-- Two first starts at once return two identities. -/
theorem two_identities : sampleCipher.Correct ∧
    (∃ s, run (step sampleDaemon) ⟨none, []⟩
        (atOnce sampleDaemon (sampleKey 1) (sampleKey 2)) = some s ∧ ¬ Once sampleDaemon s) ∧
    (∃ s, run (step sampleLive) ⟨none, []⟩
        (atOnce sampleLive (sampleBundle 1) (sampleBundle 2)) = some s ∧ ¬ Once sampleLive s) := by
  refine ⟨sampleCipher_correct, ⟨⟨some (sampleDaemon.data sampleNonce (sampleKey 2)),
    [.returned (sampleKey 1), .returned (sampleKey 2)]⟩, by decide +kernel, fun h => ?_⟩,
    ⟨⟨some (sampleLive.data sampleNonce (sampleBundle 2)),
    [.returned (sampleBundle 1), .returned (sampleBundle 2)]⟩, by decide +kernel, fun h => ?_⟩⟩
  · exact absurd (h.same (sampleKey 1) (sampleKey 2) (by simp) (by simp)) (by decide +kernel)
  · exact absurd (h.same (sampleBundle 1) (sampleBundle 2) (by simp) (by simp)) (by decide +kernel)

end AtomVault.Daemon.Identity
