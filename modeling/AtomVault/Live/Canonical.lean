import AtomVault.Live.Record

/-!
# Which bytes a ticket was read from (`ticket.rs`)

A grammar of tickets, and what `fromBytes` reads is a string of it. One ticket has several
strings only where an onion label is spelt with capital letters.
-/

open Lib Cursor

namespace AtomVault.Live

/-! ## Identities -/

namespace IdentityBundle

theorem toBytes_fromBytes {b : Bytes} {i : IdentityBundle} (h : fromBytes b = .ok i) :
    i.Keyed ∧ i.toBytes = b := by
  unfold fromBytes at h
  obtain ⟨⟨version, rest₁⟩, h₁, hrun₁⟩ := of_bind_eq_ok h
  obtain ⟨hb, -⟩ : b = version ++ rest₁ ∧ _ := takeOr_eq_ok h₁
  dsimp only at hrun₁
  split at hrun₁
  · cases hrun₁
  rename_i hversion
  obtain ⟨⟨classicalLen, rest₂⟩, h₂, hrun₂⟩ := of_bind_eq_ok hrun₁
  obtain ⟨hrest₁, hlen₂⟩ : rest₁ = classicalLen ++ rest₂ ∧ _ := takeOr_eq_ok h₂
  dsimp only at hrun₂
  split at hrun₂
  · cases hrun₂
  rename_i hpos
  obtain ⟨⟨classical, rest₃⟩, h₃, hrun₃⟩ := of_bind_eq_ok hrun₂
  obtain ⟨hrest₂, hlen₃⟩ : rest₂ = classical ++ rest₃ ∧ _ := takeOr_eq_ok h₃
  obtain ⟨⟨pqLen, rest₄⟩, h₄, hrun₄⟩ := of_bind_eq_ok hrun₃
  obtain ⟨hrest₃, hlen₄⟩ : rest₃ = pqLen ++ rest₄ ∧ _ := takeOr_eq_ok h₄
  dsimp only at hrun₄
  have hver : version = [BUNDLE_VERSION] := not_not.mp hversion
  have hkeyed : ∀ pq, (⟨⟨classical⟩, pq⟩ : IdentityBundle).Keyed := by
    intro pq
    refine ⟨?_, ?_⟩
    · rintro rfl
      exact hpos hlen₃.symm
    · show classical.length < 2 ^ 16
      rw [hlen₃]
      exact ofBe_lt_of_length hlen₂
  have hhead : b = [BUNDLE_VERSION] ++ beBytes 2 classical.length ++ classical ++
      pqLen ++ rest₄ := by
    rw [hb, hver, hrest₁, hrest₂, hrest₃, hlen₃, beBytes_of_length hlen₂]
    simp only [List.append_assoc]
  split at hrun₄
  · rename_i hzero
    obtain ⟨⟨pq, rest⟩, hpure, hrun⟩ := of_bind_eq_ok hrun₄
    cases hpure
    dsimp only at hrun
    split at hrun
    · cases hrun
    rename_i hend
    cases hrun
    refine ⟨hkeyed none, ?_⟩
    rw [hhead, not_not.mp hend, ← beBytes_of_length hlen₄, hzero]
    rfl
  · obtain ⟨⟨pqBytes, rest₅⟩, h₅, hrun₅⟩ := of_bind_eq_ok hrun₄
    obtain ⟨hrest₄, hlen₅⟩ : rest₄ = pqBytes ++ rest₅ ∧ _ := takeOr_eq_ok h₅
    obtain ⟨key, hkey, hrun₆⟩ := of_bind_eq_ok hrun₅
    obtain ⟨⟨pq, rest⟩, hpair, hrun⟩ := of_bind_eq_ok hrun₆
    cases hpair
    dsimp only at hrun
    split at hrun
    · cases hrun
    rename_i hend
    cases hrun
    unfold PqPublicKey.fromBytes at hkey
    split at hkey
    · cases hkey
      refine ⟨hkeyed _, ?_⟩
      rw [hhead, hrest₄, not_not.mp hend, ← beBytes_of_length hlen₄, ← hlen₅, List.append_nil]
      rfl
    · cases hkey

end IdentityBundle

/-! ## The grammar of hints -/

namespace Reader

variable {noun : String}

theorem scans_take (n : Nat) : Scans (take noun n) fun b a => b = a ∧ a.length = n :=
  Cursor.scans_take _ n

theorem scans_u8 : Scans (u8 noun) fun b x => b = [x] := by
  refine ((scans_take 1).bind fun a => scans_pure (a.headD 0)).mono ?_
  rintro b x ⟨b₁, a, b₂, rfl, ⟨rfl, hlen⟩, rfl, rfl⟩
  obtain ⟨y, rfl⟩ := List.length_eq_one_iff.mp hlen
  rfl

theorem scans_u16 : Scans (u16 noun) fun b x => b = beBytes 2 x.toNat := by
  refine ((scans_take 2).bind fun a => scans_pure (UInt16.ofNat (ofBe a))).mono ?_
  rintro b x ⟨b₁, a, b₂, rfl, ⟨rfl, hlen⟩, rfl, rfl⟩
  have hlt := ofBe_lt_of_length hlen
  rw [List.append_nil, UInt16.toNat_ofNat', Nat.mod_eq_of_lt (by omega), beBytes_of_length hlen]

theorem scans_u64 : Scans (u64 noun) fun b x => b = beBytes 8 x.toNat := by
  refine ((scans_take 8).bind fun a => scans_pure (UInt64.ofNat (ofBe a))).mono ?_
  rintro b x ⟨b₁, a, b₂, rfl, ⟨rfl, hlen⟩, rfl, rfl⟩
  have hlt := ofBe_lt_of_length hlen
  rw [List.append_nil, UInt64.toNat_ofNat', Nat.mod_eq_of_lt (by omega), beBytes_of_length hlen]

end Reader

section Grammar

variable {u : Unicode} {noun : String}

theorem scans_octets (n : Nat) : Scans (octets noun n) fun b v => b = v.toList := by
  intro before rest v c hrun
  unfold octets at hrun
  split at hrun
  · rename_i a c' htake
    obtain ⟨b, after, hrest, hc, ⟨rfl, hlen⟩, -⟩ := Reader.scans_take n _ _ _ _ htake
    cases hrun
    have hv : (b ++ List.replicate n 0).take n = b := List.take_left' hlen
    have hreads : Reads (octets noun n) b ⟨b, hlen⟩ := reads_octets ⟨b, hlen⟩
    refine ⟨b, after, hrest, hc, hv.symm, ?_⟩
    simpa only [hv] using hreads
  · cases hrun

/-- The strings of a hint. An onion hint has the strings that `OnionAddress.new` takes for it. -/
inductive Spells (u : Unicode) : Bytes → Endpoint → Prop
  | v4 (o : List.Vector UInt8 4) (port : UInt16) :
      Spells u ([TAG_V4] ++ (o.toList ++ beBytes 2 port.toNat)) (.direct (.v4 o port))
  | v6 (o : List.Vector UInt8 16) (port : UInt16) :
      Spells u ([TAG_V6] ++ (o.toList ++ beBytes 2 port.toNat)) (.direct (.v6 o port 0 0))
  | onion {label : Bytes} {host : List Char} {port : UInt16} {a : OnionAddress} :
      label.length = ONION_LABEL_BYTES → fromUtf8 label = some host →
      OnionAddress.new u host port = .ok a →
      Spells u ([TAG_ONION] ++ (label ++ beBytes 2 port.toNat)) (.onion a)

theorem scans_decodeHint : Scans (decodeHint u noun) (Spells u) := by
  have hv4 : Scans (do
      let o ← octets noun 4
      let port ← Reader.u16 noun
      return Endpoint.direct (.v4 o port)) fun b e => Spells u ([TAG_V4] ++ b) e := by
    refine ((scans_octets 4).bind fun o => Reader.scans_u16.bind fun port => scans_pure _).mono ?_
    rintro b e ⟨b₁, o, b₂, rfl, rfl, b₃, port, b₄, rfl, rfl, rfl, rfl⟩
    rw [List.append_nil]
    exact .v4 o port
  have hv6 : Scans (do
      let o ← octets noun 16
      let port ← Reader.u16 noun
      return Endpoint.direct (.v6 o port 0 0)) fun b e => Spells u ([TAG_V6] ++ b) e := by
    refine ((scans_octets 16).bind fun o => Reader.scans_u16.bind fun port => scans_pure _).mono ?_
    rintro b e ⟨b₁, o, b₂, rfl, rfl, b₃, port, b₄, rfl, rfl, rfl, rfl⟩
    rw [List.append_nil]
    exact .v6 o port
  have honion : Scans (do
      let label ← Reader.take noun ONION_LABEL_BYTES
      let host ← ofOption (.ticket "onion hint is not valid UTF-8") (fromUtf8 label)
      let port ← Reader.u16 noun
      let addr ← ofExcept (fun e => .ticket s!"bad onion hint: {Error.display e}")
        (OnionAddress.new u host port)
      return Endpoint.onion addr) fun b e => Spells u ([TAG_ONION] ++ b) e := by
    refine ((Reader.scans_take _).bind fun label => (scans_ofOption _ _).bind fun host =>
      Reader.scans_u16.bind fun port => (scans_ofExcept _ _).bind fun addr => scans_pure _).mono ?_
    rintro b e ⟨label, _, b₁, rfl, ⟨rfl, hlen⟩, b₂, host, b₃, rfl, ⟨rfl, hhost⟩, b₄, port, b₅, rfl,
      rfl, b₆, a, b₇, rfl, ⟨rfl, ha⟩, rfl, rfl⟩
    simp only [List.nil_append, List.append_nil]
    exact .onion hlen hhost ha
  refine (Reader.scans_u8.bind (H := fun tag b e => Spells u ([tag] ++ b) e) fun tag => ?_).mono ?_
  · refine scans_ite (fun h => h ▸ hv4) fun _ => scans_ite (fun h => h ▸ hv6) fun _ =>
      scans_ite (fun h => h ▸ honion) fun _ => scans_throw _ _
  · rintro b e ⟨b₁, tag, b₂, rfl, rfl, h⟩
    exact h

/-- The strings of a list of hints, one after the other. -/
def SpellsAll (u : Unicode) (b : Bytes) (hints : List Endpoint) : Prop :=
  ∃ parts : List Bytes, b = parts.flatten ∧ List.Forall₂ (Spells u) parts hints

theorem scans_decodeMany (n : Nat) : Scans (decodeMany u noun n) fun b hints =>
    hints.length = n ∧ SpellsAll u b hints := by
  induction n with
  | zero =>
    refine (scans_pure []).mono ?_
    rintro b hints ⟨rfl, rfl⟩
    exact ⟨rfl, [], rfl, .nil⟩
  | succ n ih =>
    refine (scans_decodeHint.bind fun hint => ih.bind fun hints => scans_pure _).mono ?_
    rintro b _ ⟨b₁, hint, b₂, rfl, hspells, b₃, hints, b₄, rfl, ⟨rfl, parts, rfl, hall⟩, rfl, rfl⟩
    refine ⟨rfl, b₁ :: parts, ?_, .cons hspells hall⟩
    rw [List.append_nil, List.flatten_cons]

theorem scans_decodeHints : Scans (decodeHints u noun) fun b hints =>
    hints.length ≤ MAX_HINTS ∧
      ∃ b', b = [UInt8.ofNat hints.length] ++ b' ∧ SpellsAll u b' hints := by
  refine (Reader.scans_u8.bind (H := fun k b hints => k.toNat ≤ MAX_HINTS ∧
    hints.length = k.toNat ∧ SpellsAll u b hints) fun k => ?_).mono ?_
  · refine scans_ite (fun _ => scans_throw _ _) fun hk => ?_
    refine (scans_decodeMany k.toNat).mono ?_
    rintro b hints ⟨hlen, hall⟩
    exact ⟨not_lt.mp hk, hlen, hall⟩
  · rintro b hints ⟨b₁, k, b₂, rfl, rfl, hk, hlen, hall⟩
    refine ⟨hlen ▸ hk, b₂, ?_, hall⟩
    rw [hlen, UInt8.ofNat_toNat]

end Grammar

/-! ## The grammar of tickets -/

namespace Ticket

variable {u : Unicode} {b : Bytes} {t : Ticket}

/-- The strings of a ticket. -/
structure Spelt (u : Unicode) (b : Bytes) (t : Ticket) : Prop where
  identity : t.identity.Fits
  hints : t.hints.length ≤ MAX_HINTS
  bytes : ∃ b', b = t.header ++ ([UInt8.ofNat t.hints.length] ++ b') ∧ SpellsAll u b' t.hints

theorem scans_readBody (suite : Suite) (notAfter : UInt64) (idLen : UInt16) :
    Scans (do
      let identity ← Reader.take "ticket" idLen.toNat
      let identity ← ofExcept
        (fun e => .ticket s!"ticket carries a bad identity: {Error.display e}")
        (IdentityBundle.fromBytes identity)
      let hints ← decodeHints u "ticket"
      return (⟨identity, hints, suite, notAfter⟩ : Ticket)) fun b t =>
    Spelt u ([FORMAT_VERSION] ++ ([suite.toByte] ++ (beBytes 8 notAfter.toNat ++
      (beBytes 2 idLen.toNat ++ b)))) t := by
  refine ((Reader.scans_take _).bind fun identity => (scans_ofExcept _ _).bind fun identity =>
    scans_decodeHints.bind fun hints => scans_pure _).mono ?_
  rintro b t ⟨idBytes, _, b₁, rfl, ⟨rfl, hlen⟩, b₂, identity, b₃, rfl, ⟨rfl, hid⟩, b₄, hints, b₅,
    rfl, ⟨hcount, b', rfl, hall⟩, rfl, rfl⟩
  obtain ⟨hkeyed, hbytes⟩ := IdentityBundle.toBytes_fromBytes hid
  have hlt := idLen.toNat_lt
  refine ⟨⟨hkeyed.key, ?_⟩, hcount, b', ?_, hall⟩
  · show identity.toBytes.length < 2 ^ 16
    rw [hbytes, hlen]
    exact hlt
  · unfold header
    simp only [hbytes, hlen, List.append_assoc, List.nil_append, List.append_nil]

theorem scans_read : Scans (read u) (Spelt u) := by
  have hsuite : ∀ b s, Suite.fromByte b = .ok s → b = s.toByte := by
    intro b s h
    unfold Suite.fromByte at h
    split at h
    · rename_i hb
      cases h
      exact hb
    · cases h
  have hversion : ∀ v : UInt8, ¬v ≠ FORMAT_VERSION → v = FORMAT_VERSION := fun v => not_not.mp
  refine (Reader.scans_u8.bind (H := fun v b t => Spelt u ([v] ++ b) t) fun v =>
    scans_ite (fun _ => scans_throw _ _) fun hv => ?_).mono ?_
  · rw [hversion v hv]
    refine (Reader.scans_u8.bind fun suiteByte => (scans_ofExcept _ _).bind fun suite =>
      Reader.scans_u64.bind fun notAfter => Reader.scans_u16.bind (H := fun idLen b t =>
        Spelt u ([FORMAT_VERSION] ++ ([suite.toByte] ++ (beBytes 8 notAfter.toNat ++
          (beBytes 2 idLen.toNat ++ b)))) t) fun idLen =>
      scans_ite (fun _ => scans_throw _ _) fun _ => scans_readBody suite notAfter idLen).mono ?_
    rintro b t ⟨b₁, x, b₂, rfl, rfl, b₃, suite, b₄, rfl, ⟨rfl, hx⟩, b₅, notAfter, b₆, rfl, rfl,
      b₇, idLen, b₈, rfl, rfl, h⟩
    rw [hsuite x suite hx]
    exact h
  · rintro b t ⟨b₁, v, b₂, rfl, rfl, h⟩
    exact h

theorem fromBytes_spelt (h : fromBytes u b = .ok t) : Spelt u b t ∧ Reads (read u) b t := by
  unfold fromBytes at h
  split at h
  · cases h
  rename_i t' c hrun
  split at h
  · rename_i hend
    cases h
    exact scans_read.whole hrun hend
  · cases h

theorem fromBytes_append (h : fromBytes u b = .ok t) {ext : Bytes} (hext : ext ≠ []) :
    ∃ e, fromBytes u (b ++ ext) = .error e := by
  have hrun := (fromBytes_spelt h).2 [] ext
  rw [List.nil_append, List.length_nil, Nat.zero_add] at hrun
  unfold fromBytes
  rw [hrun]
  have hend : (⟨b ++ ext, b.length⟩ : Cursor).atEnd = false := by
    have := List.length_pos_iff.mpr hext
    simp only [Cursor.atEnd, List.length_append, decide_eq_false_iff_not]
    omega
  simp only [hend, Bool.false_eq_true, if_false]
  exact ⟨_, rfl⟩

end Ticket

/-! ## Onion labels -/

/-- Outside ASCII there is no text whose lower case is ASCII and takes as many bytes. -/
def Unicode.Narrows (u : Unicode) : Prop := ∀ s : List Char,
  (∀ c ∈ u.toLowercase s, c.toNat < 128) → (∃ c ∈ s, 128 ≤ c.toNat) →
    (utf8 (u.toLowercase s)).length < (utf8 s).length

def isCapital (x : UInt8) : Bool := 65 ≤ x && x ≤ 90

theorem utf8_of_fromUtf8 {b : Bytes} {s : List Char} (h : fromUtf8 b = some s) : utf8 s = b := by
  unfold fromUtf8 at h
  obtain ⟨a, ha, rfl⟩ := Option.map_eq_some_iff.mp h
  have hsome : b.toByteArray.utf8Decode?.isSome := by
    rw [ha]
    rfl
  obtain ⟨l, hl⟩ := ByteArray.isSome_utf8Decode?_iff.mp hsome
  rw [hl, List.utf8Decode?_utf8Encode] at ha
  cases ha
  exact (List.toByteArray_inj.mp hl).symm

theorem length_utf8_pos {s : List Char} (h : s ≠ []) : 0 < (utf8 s).length := by
  obtain ⟨c, s, rfl⟩ := List.exists_cons_of_ne_nil h
  have hc : 0 < (String.utf8EncodeChar c).length := by
    rw [String.length_utf8EncodeChar]
    exact c.utf8Size_pos
  unfold utf8
  rw [List.flatMap_cons, List.length_append]
  omega

theorem utf8_ascii {s : List Char} (h : ∀ c ∈ s, c.toNat < 128) :
    utf8 s = s.map fun c => UInt8.ofNat c.toNat := by
  induction s with
  | nil => rfl
  | cons c s ih =>
    have hrest := ih fun d hd => h d (List.mem_cons_of_mem _ hd)
    unfold utf8 at hrest ⊢
    rw [List.flatMap_cons, utf8EncodeChar_ascii (h c List.mem_cons_self), hrest]
    rfl

theorem toNat_of_mem_utf8EncodeChar {c : Char} {x : UInt8} (hx : x.toNat < 128)
    (h : x ∈ String.utf8EncodeChar c) : c.toNat = x.toNat := by
  have hval : c.val.toNat = c.toNat := rfl
  have hlt : c.toNat < 0x110000 := by
    have := c.valid
    simp only [UInt32.isValidChar, Nat.isValidChar] at this
    omega
  unfold String.utf8EncodeChar at h
  simp only [hval] at h
  split at h
  · simp only [List.mem_singleton] at h
    subst h
    rw [UInt8.toNat_ofNat'] at hx ⊢
    omega
  · split at h
    · simp only [List.mem_cons, List.not_mem_nil, or_false] at h
      rcases h with rfl | rfl <;> rw [UInt8.toNat_ofNat'] at hx <;> omega
    · split at h
      · simp only [List.mem_cons, List.not_mem_nil, or_false] at h
        rcases h with rfl | rfl | rfl <;> rw [UInt8.toNat_ofNat'] at hx <;> omega
      · simp only [List.mem_cons, List.not_mem_nil, or_false] at h
        rcases h with rfl | rfl | rfl | rfl <;> rw [UInt8.toNat_ofNat'] at hx <;> omega

theorem Unicode.trim_infix (u : Unicode) (s : List Char) :
    ∃ pre post, s = pre ++ (u.trim s ++ post) := by
  obtain ⟨pre, hpre⟩ := List.dropWhile_suffix u.isWhitespace (l := s)
  obtain ⟨post, hpost⟩ := List.dropWhile_suffix u.isWhitespace
    (l := (s.dropWhile u.isWhitespace).reverse)
  refine ⟨pre, post.reverse, ?_⟩
  have hmid := congrArg List.reverse hpost
  rw [List.reverse_append, List.reverse_reverse] at hmid
  unfold trim
  rw [hmid, hpre]

theorem toLower_ascii {c : Char} (h : c.toNat < 128) : c.toLower.toNat < 128 ∧
    (c.toLower = c ↔ isCapital (UInt8.ofNat c.toNat) = false) := by
  have hall : ∀ n < 128, (Char.ofNat n).toLower.toNat < 128 ∧
      ((Char.ofNat n).toLower = Char.ofNat n ↔ isCapital (UInt8.ofNat n) = false) := by
    decide +kernel
  have hc := hall c.toNat h
  rwa [Char.ofNat_toNat] at hc

section Labels

variable {u : Unicode} {host : List Char} {label : Bytes} {port : UInt16} {a : OnionAddress}

theorem OnionAddress.new_eq_ok (h : OnionAddress.new u host port = .ok a) :
    a.host = u.toLowercase (u.trim host) ∧ a.port = port := by
  unfold OnionAddress.new at h
  simp only at h
  split at h
  · cases h
  · split at h
    · cases h
    · split at h
      · cases h
      · split at h
        · cases h
        · cases h
          exact ⟨rfl, rfl⟩

theorem length_utf8_lower {s : List Char} (h : ∀ c ∈ s, c.toNat < 128) :
    (utf8 (s.map Char.toLower)).length = (utf8 s).length := by
  have hlower : ∀ c ∈ s.map Char.toLower, c.toNat < 128 := by
    intro c hc
    obtain ⟨d, hd, rfl⟩ := List.mem_map.mp hc
    exact (toLower_ascii (h d hd)).1
  rw [utf8_ascii hlower, utf8_ascii h]
  simp

theorem OnionAddress.host_ascii (hu : u.Plain) (hn : u.Narrows)
    (hlen : (utf8 host).length = ONION_LABEL_BYTES) (h : OnionAddress.new u host port = .ok a) :
    (∀ c ∈ host, c.toNat < 128) ∧ a.host = host.map Char.toLower := by
  obtain ⟨hhost, -⟩ := OnionAddress.new_eq_ok h
  obtain ⟨pre, post, hsplit⟩ := u.trim_infix host
  have hwidth := a.length_host
  have hsum := congrArg (fun s => (utf8 s).length) hsplit
  simp only [utf8_append, List.length_append] at hsum
  have hascii : ∀ c ∈ u.trim host, c.toNat < 128 := by
    by_contra hnot
    push Not at hnot
    have hlower : ∀ c ∈ u.toLowercase (u.trim host), c.toNat < 128 := by
      rw [← hhost]
      exact fun c hc => (a.hostChar hc).2.1
    have := hn (u.trim host) hlower hnot
    rw [← hhost, hwidth] at this
    omega
  rw [hu.toLowercase_ascii _ hascii] at hhost
  rw [hhost, length_utf8_lower hascii] at hwidth
  have hpre : pre = [] := by
    by_contra hne
    have := length_utf8_pos hne
    omega
  have hpost : post = [] := by
    by_contra hne
    have := length_utf8_pos hne
    omega
  rw [hpre, hpost, List.nil_append, List.append_nil] at hsplit
  rw [← hsplit] at hascii hhost
  exact ⟨hascii, hhost⟩

theorem OnionAddress.label_iff (hu : u.Plain) (hn : u.Narrows)
    (hlen : label.length = ONION_LABEL_BYTES) (hhost : fromUtf8 label = some host)
    (h : OnionAddress.new u host port = .ok a) :
    utf8 a.host = label ↔ ∀ x ∈ label, isCapital x = false := by
  have hlabel := utf8_of_fromUtf8 hhost
  obtain ⟨hascii, hlower⟩ := OnionAddress.host_ascii hu hn (by rw [hlabel, hlen]) h
  have hbytes : label = host.map fun c => UInt8.ofNat c.toNat := by
    rw [← hlabel, utf8_ascii hascii]
  constructor
  · intro hsame x hx
    rw [← hsame, utf8_ascii fun c hc => (a.hostChar hc).2.1] at hx
    obtain ⟨c, hc, rfl⟩ := List.mem_map.mp hx
    obtain ⟨-, hlt, hsmall⟩ := a.hostChar hc
    exact (toLower_ascii hlt).2.mp hsmall
  · intro hplain
    have hsame : host.map Char.toLower = host := by
      conv_rhs => rw [← List.map_id host]
      refine List.map_congr_left fun c hc => ?_
      refine (toLower_ascii (hascii c hc)).2.mpr (hplain _ ?_)
      rw [hbytes]
      exact List.mem_map.mpr ⟨c, hc, rfl⟩
    rw [hlower, hsame, hlabel]

end Labels

/-! ## No panics -/

namespace IdentityBundle

/-- `from_bytes` with its panics, which are `none`. -/
def fromBytesOrPanic (bytes : Bytes) : Option (Except Error IdentityBundle) := ExceptT.run do
  let (version, rest) ← ExceptT.mk (some (take 1 bytes))
  let version ← ExceptT.lift (version[0]? : Option UInt8)
  if version ≠ BUNDLE_VERSION then
    throw (.identity (s!"identity bundle version {version}, " ++
      s!"this build understands {BUNDLE_VERSION}"))
  let (classicalLen, rest) ← ExceptT.mk (some (take 2 rest))
  let classicalLen ← ExceptT.lift (expectArray 2 classicalLen)
  if ofBe classicalLen.toList = 0 then throw (.identity "identity bundle has no classical key")
  let (classical, rest) ← ExceptT.mk (some (take (ofBe classicalLen.toList) rest))
  let (pqLen, rest) ← ExceptT.mk (some (take 2 rest))
  let pqLen ← ExceptT.lift (expectArray 2 pqLen)
  let (pq, rest) ← if ofBe pqLen.toList = 0 then pure (none, rest) else do
    let (pq, rest) ← ExceptT.mk (some (take (ofBe pqLen.toList) rest))
    let pq ← ExceptT.mk (some (PqPublicKey.fromBytes pq))
    pure (some pq, rest)
  if rest ≠ [] then
    throw (.identity "trailing bytes after identity bundle — refusing an ambiguous encoding")
  return ⟨⟨classical⟩, pq⟩

end IdentityBundle

namespace Reader

variable (noun : String)

def takeOrPanic (n : Nat) : EStateM (Option Error) Cursor Bytes :=
  Cursor.takeOrPanic (fun pos remain => .ticket (
    s!"{noun} truncated: wanted {n} bytes at offset {pos}, " ++ s!"only {remain} remain")) n

def u8OrPanic : EStateM (Option Error) Cursor UInt8 := do
  let b ← takeOrPanic noun 1
  ofOption none b[0]?

def u16OrPanic : EStateM (Option Error) Cursor UInt16 := do
  let b ← takeOrPanic noun 2
  let high ← ofOption none b[0]?
  let low ← ofOption none b[1]?
  return UInt16.ofNat (ofBe [high, low])

def u64OrPanic : EStateM (Option Error) Cursor UInt64 := do
  let b ← takeOrPanic noun 8
  let b ← ofOption none (expectArray 8 b)
  return UInt64.ofNat (ofBe b.toList)

end Reader

section Panics

variable (u : Unicode) (noun : String)

def octetsOrPanic (n : Nat) : EStateM (Option Error) Cursor (List.Vector UInt8 n) := do
  let b ← Reader.takeOrPanic noun n
  ofOption none (expectArray n b)

def decodeHintOrPanic : EStateM (Option Error) Cursor Endpoint := do
  let tag ← Reader.u8OrPanic noun
  if tag = TAG_V4 then
    let o ← octetsOrPanic noun 4
    let port ← Reader.u16OrPanic noun
    return .direct (.v4 o port)
  else if tag = TAG_V6 then
    let o ← octetsOrPanic noun 16
    let port ← Reader.u16OrPanic noun
    return .direct (.v6 o port 0 0)
  else if tag = TAG_ONION then
    let label ← Reader.takeOrPanic noun ONION_LABEL_BYTES
    let host ← ofOption (some (.ticket "onion hint is not valid UTF-8")) (fromUtf8 label)
    let port ← Reader.u16OrPanic noun
    let addr ← ofExcept (fun e => some (.ticket s!"bad onion hint: {Error.display e}"))
      (OnionAddress.new u host port)
    return .onion addr
  else throw (some (.ticket s!"unknown address family tag {tag}"))

def decodeManyOrPanic : Nat → EStateM (Option Error) Cursor (List Endpoint)
  | 0 => pure []
  | n + 1 => do
    let hint ← decodeHintOrPanic u noun
    let hints ← decodeManyOrPanic n
    return hint :: hints

def decodeHintsOrPanic : EStateM (Option Error) Cursor (List Endpoint) := do
  let hintCount ← Reader.u8OrPanic noun
  if hintCount.toNat > MAX_HINTS then
    throw (some (.ticket
      s!"lists {hintCount} address hints, more than the {MAX_HINTS} allowed"))
  else decodeManyOrPanic u noun hintCount.toNat

end Panics

namespace Ticket

def readOrPanic (u : Unicode) : EStateM (Option Error) Cursor Ticket := do
  let version ← Reader.u8OrPanic "ticket"
  if version ≠ FORMAT_VERSION then
    throw (some (.ticket (s!"ticket format version {version}, " ++
      s!"this build understands {FORMAT_VERSION}")))
  else
    let suite ← Reader.u8OrPanic "ticket"
    let suite ← ofExcept some (Suite.fromByte suite)
    let notAfter ← Reader.u64OrPanic "ticket"
    let idLen ← Reader.u16OrPanic "ticket"
    if idLen = 0 then throw (some (.ticket "ticket carries no identity"))
    else
      let identity ← Reader.takeOrPanic "ticket" idLen.toNat
      let identity ← ofOption none (IdentityBundle.fromBytesOrPanic identity)
      let identity ← ofExcept
        (fun e => some (.ticket s!"ticket carries a bad identity: {Error.display e}")) identity
      let hints ← decodeHintsOrPanic u "ticket"
      return ⟨identity, hints, suite, notAfter⟩

/-- `from_bytes` with its panics, which are `none`. -/
def fromBytesOrPanic (u : Unicode) (bytes : Bytes) : Option (Except Error Ticket) :=
  match readOrPanic u ⟨bytes, 0⟩ with
  | .error none _ => none
  | .error (some e) _ => some (.error e)
  | .ok t c =>
    if c.atEnd then some (.ok t)
    else some (.error (.ticket "trailing bytes after ticket — refusing an ambiguous encoding"))

end Ticket

theorem IdentityBundle.fromBytesOrPanic_eq (b : Bytes) :
    fromBytesOrPanic b = some (fromBytes b) := by
  unfold fromBytesOrPanic fromBytes
  refine run_bind_eq rfl ?_
  rintro ⟨version, rest⟩ h₁
  obtain ⟨x, rfl⟩ := List.length_eq_one_iff.mp (takeOr_eq_ok h₁).2
  refine run_lift_bind rfl ?_
  refine run_ite_eq (by simp) (fun _ => rfl) fun _ => ?_
  refine run_bind_eq rfl ?_
  rintro ⟨classicalLen, rest⟩ h₂
  refine run_lift_bind (expectArray_of_length (takeOr_eq_ok h₂).2) ?_
  refine run_ite_eq Iff.rfl (fun _ => rfl) fun _ => ?_
  refine run_bind_eq rfl ?_
  rintro ⟨classical, rest⟩ -
  refine run_bind_eq rfl ?_
  rintro ⟨pqLen, rest⟩ h₃
  refine run_lift_bind (expectArray_of_length (takeOr_eq_ok h₃).2) ?_
  refine run_ite_eq Iff.rfl (fun _ => ?_) fun _ => ?_
  · refine run_bind_eq rfl ?_
    rintro ⟨pq, rest⟩ -
    exact run_ite_eq Iff.rfl (fun _ => rfl) fun _ => rfl
  · refine run_bind_eq rfl ?_
    rintro ⟨pq, rest⟩ -
    refine run_bind_eq rfl ?_
    rintro pq -
    refine run_bind_eq rfl ?_
    rintro ⟨pq, rest⟩ -
    exact run_ite_eq Iff.rfl (fun _ => rfl) fun _ => rfl

section NoPanics

variable {u : Unicode} {noun : String}

theorem Reader.noPanic_take (n : Nat) : NoPanic (takeOrPanic noun n) (take noun n) :=
  Cursor.noPanic_take _ n

theorem Reader.noPanic_u8 : NoPanic (u8OrPanic noun) (u8 noun) := by
  refine noPanic_take_bind fun b hb => ?_
  obtain ⟨x, rfl⟩ := List.length_eq_one_iff.mp hb
  exact noPanic_pure x

theorem Reader.noPanic_u16 : NoPanic (u16OrPanic noun) (u16 noun) := by
  refine noPanic_take_bind fun b hb => ?_
  obtain ⟨x, y, rfl⟩ := List.length_eq_two.mp hb
  exact noPanic_pure _

theorem Reader.noPanic_u64 : NoPanic (u64OrPanic noun) (u64 noun) := by
  refine noPanic_take_bind fun b hb => ?_
  rw [expectArray_of_length hb]
  exact noPanic_pure _

theorem noPanic_octets (n : Nat) : NoPanic (octetsOrPanic noun n) (octets noun n) := by
  have heq : octets noun n = Reader.take noun n >>= fun b =>
      pure (⟨(b ++ List.replicate n 0).take n, by simp⟩ : List.Vector UInt8 n) := by
    funext c
    show _ = EStateM.bind _ _ c
    unfold octets EStateM.bind
    split
    · rename_i h
      rw [h]
      rfl
    · rename_i h
      rw [h]
  rw [heq]
  refine noPanic_take_bind fun b hb => ?_
  have hvec : (⟨(b ++ List.replicate n 0).take n, by simp⟩ : List.Vector UInt8 n) = ⟨b, hb⟩ :=
    List.Vector.eq _ _ (List.take_left' hb)
  rw [expectArray_of_length hb, hvec]
  exact noPanic_pure _

theorem noPanic_decodeHint : NoPanic (decodeHintOrPanic u noun) (decodeHint u noun) := by
  refine Reader.noPanic_u8.bind fun tag => noPanic_ite (fun _ => ?_) fun _ =>
    noPanic_ite (fun _ => ?_) fun _ => noPanic_ite (fun _ => ?_) fun _ => noPanic_throw _
  · exact (noPanic_octets 4).bind fun o => Reader.noPanic_u16.bind fun port => noPanic_pure _
  · exact (noPanic_octets 16).bind fun o => Reader.noPanic_u16.bind fun port => noPanic_pure _
  · exact (Reader.noPanic_take _).bind fun label => (noPanic_ofOption _ _).bind fun host =>
      Reader.noPanic_u16.bind fun port => (noPanic_ofExcept _ _).bind fun addr => noPanic_pure _

theorem noPanic_decodeMany (n : Nat) :
    NoPanic (decodeManyOrPanic u noun n) (decodeMany u noun n) := by
  induction n with
  | zero => exact noPanic_pure []
  | succ n ih => exact noPanic_decodeHint.bind fun hint => ih.bind fun hints => noPanic_pure _

theorem noPanic_decodeHints : NoPanic (decodeHintsOrPanic u noun) (decodeHints u noun) :=
  Reader.noPanic_u8.bind fun _ => noPanic_ite (fun _ => noPanic_throw _) fun _ =>
    noPanic_decodeMany _

namespace Ticket

theorem noPanic_read : NoPanic (readOrPanic u) (read u) := by
  refine Reader.noPanic_u8.bind fun version => noPanic_ite (fun _ => noPanic_throw _) fun _ => ?_
  refine Reader.noPanic_u8.bind fun suite => (noPanic_ofExcept _ _).bind fun suite => ?_
  refine Reader.noPanic_u64.bind fun notAfter => Reader.noPanic_u16.bind fun idLen => ?_
  refine noPanic_ite (fun _ => noPanic_throw _) fun _ => ?_
  refine (Reader.noPanic_take _).bind fun identity => ?_
  rw [IdentityBundle.fromBytesOrPanic_eq]
  exact (noPanic_ofExcept _ _).bind fun identity =>
    noPanic_decodeHints.bind fun hints => noPanic_pure _

theorem fromBytesOrPanic_eq (b : Bytes) : fromBytesOrPanic u b = some (fromBytes u b) := by
  unfold fromBytesOrPanic fromBytes
  rcases (noPanic_read (u := u)).start b with ⟨e, c, hread, hpanics⟩ | ⟨t, c, hread, hpanics⟩
  · simp only [hread, hpanics]
  · simp only [hread, hpanics]
    split <;> rfl

end Ticket

end NoPanics

/-! ## Canonical strings -/

/-- The labels of the onion hints in a list of `n` hints. -/
def onionLabels : Nat → Bytes → List Bytes
  | 0, _ => []
  | _ + 1, [] => []
  | n + 1, tag :: rest =>
    if tag = TAG_V4 then onionLabels n (rest.drop 6)
    else if tag = TAG_V6 then onionLabels n (rest.drop 18)
    else rest.take ONION_LABEL_BYTES :: onionLabels n (rest.drop (ONION_LABEL_BYTES + 2))

/-- The labels of the onion hints in a ticket: its hints stand behind its identity. -/
def ticketLabels (b : Bytes) : List Bytes :=
  let hints := b.drop (12 + ofBe (slice b 10 2))
  onionLabels (hints.headD 0).toNat (hints.drop 1)

section Canonical

variable {u : Unicode} {b : Bytes} {t : Ticket}

theorem onionLabels_v4 (n : Nat) (o : List.Vector UInt8 4) (port : UInt16) (rest : Bytes) :
    onionLabels (n + 1) ([TAG_V4] ++ (o.toList ++ beBytes 2 port.toNat) ++ rest) =
      onionLabels n rest := by
  have hdrop : (o.toList ++ beBytes 2 port.toNat ++ rest).drop 6 = rest :=
    List.drop_left' (by simp)
  show onionLabels (n + 1) (TAG_V4 :: (o.toList ++ beBytes 2 port.toNat ++ rest)) = _
  rw [onionLabels, if_pos rfl, hdrop]

theorem onionLabels_v6 (n : Nat) (o : List.Vector UInt8 16) (port : UInt16) (rest : Bytes) :
    onionLabels (n + 1) ([TAG_V6] ++ (o.toList ++ beBytes 2 port.toNat) ++ rest) =
      onionLabels n rest := by
  have hdrop : (o.toList ++ beBytes 2 port.toNat ++ rest).drop 18 = rest :=
    List.drop_left' (by simp)
  show onionLabels (n + 1) (TAG_V6 :: (o.toList ++ beBytes 2 port.toNat ++ rest)) = _
  rw [onionLabels, if_neg (by decide), if_pos rfl, hdrop]

theorem onionLabels_onion (n : Nat) {label : Bytes} (hlen : label.length = ONION_LABEL_BYTES)
    (port : UInt16) (rest : Bytes) :
    onionLabels (n + 1) ([TAG_ONION] ++ (label ++ beBytes 2 port.toNat) ++ rest) =
      label :: onionLabels n rest := by
  have htake : (label ++ beBytes 2 port.toNat ++ rest).take ONION_LABEL_BYTES = label := by
    rw [List.append_assoc]
    exact List.take_left' hlen
  have hdrop : (label ++ beBytes 2 port.toNat ++ rest).drop (ONION_LABEL_BYTES + 2) = rest :=
    List.drop_left' (by rw [List.length_append, hlen, length_beBytes])
  show onionLabels (n + 1) (TAG_ONION :: (label ++ beBytes 2 port.toNat ++ rest)) = _
  rw [onionLabels, if_neg (by decide), if_neg (by decide), htake, hdrop]

theorem canonical_hints (hu : u.Plain) (hn : u.Narrows) {parts : List Bytes}
    {hints : List Endpoint} (h : List.Forall₂ (Spells u) parts hints) :
    hints.flatMap encodeHint = parts.flatten ↔
      ∀ label ∈ onionLabels hints.length parts.flatten, ∀ x ∈ label, isCapital x = false := by
  induction h with
  | nil => simp [onionLabels]
  | @cons part hint parts hints hspells hall ih =>
    rw [List.flatMap_cons, List.flatten_cons, List.length_cons]
    cases hspells with
    | v4 o port =>
      rw [onionLabels_v4, ← ih]
      simp only [encodeHint, List.append_cancel_left_eq]
    | v6 o port =>
      rw [onionLabels_v6, ← ih]
      simp only [encodeHint, List.append_cancel_left_eq]
    | @onion label host port a hlen hhost ha =>
      obtain ⟨-, hport⟩ := OnionAddress.new_eq_ok ha
      have hlabel := OnionAddress.label_iff hu hn hlen hhost ha
      have hwidth : (encodeHint (.onion a)).length =
          ([TAG_ONION] ++ (label ++ beBytes 2 port.toNat)).length := by
        simp only [encodeHint, List.length_append, a.length_host, hlen, length_beBytes]
      have hpart : encodeHint (.onion a) = [TAG_ONION] ++ (label ++ beBytes 2 port.toNat) ↔
          utf8 a.host = label := by
        simp only [encodeHint, hport, List.append_cancel_left_eq, List.append_cancel_right_eq]
      rw [onionLabels_onion _ hlen, List.forall_mem_cons, ← hlabel, ← ih, ← hpart]
      constructor
      · exact fun hsame => List.append_inj hsame hwidth
      · rintro ⟨hfirst, hrest⟩
        rw [hfirst, hrest]

/-- No onion label of the ticket has a capital letter. -/
def Uncapitalised (b : Bytes) : Prop := ∀ label ∈ ticketLabels b, ∀ x ∈ label, isCapital x = false

instance : DecidablePred Uncapitalised := fun b =>
  inferInstanceAs (Decidable (∀ label ∈ ticketLabels b, ∀ x ∈ label, isCapital x = false))

theorem Ticket.Spelt.labels (h : t.Spelt u b) : ∃ parts : List Bytes,
    b = t.header ++ ([UInt8.ofNat t.hints.length] ++ parts.flatten) ∧
      List.Forall₂ (Spells u) parts t.hints ∧
      ticketLabels b = onionLabels t.hints.length parts.flatten := by
  obtain ⟨hid, hcount, b', rfl, parts, rfl, hall⟩ := h
  refine ⟨parts, rfl, hall, ?_⟩
  have hwidth : ofBe (beBytes 2 t.identity.toBytes.length) = t.identity.toBytes.length :=
    ofBe_beBytes 2 _ hid.width
  have hlen : (UInt8.ofNat t.hints.length).toNat = t.hints.length := by
    unfold MAX_HINTS at hcount
    rw [UInt8.toNat_ofNat', Nat.mod_eq_of_lt (by omega)]
  have hslice : slice (t.header ++ ([UInt8.ofNat t.hints.length] ++ parts.flatten)) 10 2 =
      beBytes 2 t.identity.toBytes.length := by
    have h10 : ([FORMAT_VERSION] ++ [t.suite.toByte] ++ beBytes 8 t.notAfter.toNat).length = 10 := by
      simp
    have hfield := slice_field _ (beBytes 2 t.identity.toBytes.length)
      (t.identity.toBytes ++ ([UInt8.ofNat t.hints.length] ++ parts.flatten)) h10
      (length_beBytes 2 _)
    unfold header
    simpa only [List.append_assoc] using hfield
  have hheader : t.header.length = 12 + t.identity.toBytes.length := by
    unfold header
    simp only [List.length_append, List.length_singleton, length_beBytes]
    omega
  unfold ticketLabels
  simp only [hslice, hwidth, List.drop_left' hheader]
  show onionLabels (UInt8.ofNat t.hints.length).toNat parts.flatten = _
  rw [hlen]

theorem toBytes_eq_iff (hu : u.Plain) (hn : u.Narrows) (h : Ticket.fromBytes u b = .ok t) :
    t.toBytes = b ↔ Uncapitalised b := by
  obtain ⟨parts, hb, hall, hlabels⟩ := (Ticket.fromBytes_spelt h).1.labels
  unfold Uncapitalised
  rw [hlabels, ← canonical_hints hu hn hall, Ticket.toBytes_eq, encodeHints, hb]
  simp only [List.append_cancel_left_eq]

/-- **Decoding is canonical but for capitals.** `from_bytes` returns on every string. What it
read is written as it was exactly where no onion label has a capital letter, two strings of one
ticket without capitals are the same, and neither a longer string nor a shorter one is read. -/
theorem fromBytes_canonical_iff (hu : u.Plain) (hn : u.Narrows) (b : Bytes) :
    Ticket.fromBytesOrPanic u b = some (Ticket.fromBytes u b) ∧
      ∀ t, Ticket.fromBytes u b = .ok t →
        (t.toBytes = b ↔ Uncapitalised b) ∧
        (∀ b', Ticket.fromBytes u b' = .ok t → Uncapitalised b → Uncapitalised b' → b' = b) ∧
        (∀ ext, ext ≠ [] → ∃ e, Ticket.fromBytes u (b ++ ext) = .error e) ∧
        ∀ n < b.length, ∃ e, Ticket.fromBytes u (b.take n) = .error e := by
  refine ⟨Ticket.fromBytesOrPanic_eq b, fun t h => ⟨toBytes_eq_iff hu hn h, ?_,
    fun ext hext => Ticket.fromBytes_append h hext, ?_⟩⟩
  · intro b' h' hplain hplain'
    rw [← (toBytes_eq_iff hu hn h').mpr hplain', (toBytes_eq_iff hu hn h).mpr hplain]
  · exact fun n hn =>
      error_of_take (Ticket.fromBytes u) (fun h hext => Ticket.fromBytes_append h hext) h hn

end Canonical

/-! ## One identity, one string, one identifier -/

namespace IdentityBundle

theorem fromBytes_longer {x ext : Bytes} {b : IdentityBundle} (h : fromBytes x = .ok b)
    (hext : ext ≠ []) : ∃ e, fromBytes (x ++ ext) = .error e := by
  obtain ⟨hkeyed, rfl⟩ := toBytes_fromBytes h
  exact ⟨_, (fromBytes_append hkeyed ext).trans (if_neg hext)⟩

/-- **Identities are their strings.** Every identity with a key of one to 65535 bytes is read
back; what is read is written as it was; nothing shorter and nothing longer is read; no string
makes the reader panic; and where the hash does not collide on what it is given, two identities
that differ in either key have different identifiers. -/
theorem bundle_bijection (blake3 : Bytes → BundleId) :
    (∀ b : IdentityBundle, 1 ≤ b.classical.der.length → b.classical.der.length ≤ 65535 →
      fromBytes b.toBytes = .ok b) ∧
    (∀ x b, fromBytes x = .ok b → b.toBytes = x ∧
      (∀ ext, ext ≠ [] → ∃ e, fromBytes (x ++ ext) = .error e) ∧
      ∀ n < x.length, ∃ e, fromBytes (x.take n) = .error e) ∧
    (∀ x, fromBytesOrPanic x = some (fromBytes x)) ∧
    ∀ hashed : Bytes → Prop,
      (∀ x y, hashed x → hashed y → blake3 x = blake3 y → x = y) →
      ∀ b b' : IdentityBundle, b.Keyed → b'.Keyed →
        hashed (BUNDLE_ID_DOMAIN ++ b.toBytes) → hashed (BUNDLE_ID_DOMAIN ++ b'.toBytes) →
        b.classical ≠ b'.classical ∨ b.pq ≠ b'.pq → b.id blake3 ≠ b'.id blake3 := by
  refine ⟨?_, fun x b h => ⟨(toBytes_fromBytes h).2, fun ext hext => fromBytes_longer h hext,
    fun n hn => error_of_take fromBytes fromBytes_longer h hn⟩, fromBytesOrPanic_eq, ?_⟩
  · intro b hone hmax
    exact fromBytes_toBytes ⟨List.ne_nil_of_length_pos hone, by omega⟩
  · intro hashed hfree b b' hb hb' hin hin' hdiffer hid
    have hbytes : b.toBytes = b'.toBytes := List.append_cancel_left (hfree _ _ hin hin' hid)
    have hread := fromBytes_toBytes hb
    rw [hbytes, fromBytes_toBytes hb'] at hread
    cases hread
    rcases hdiffer with hne | hne
    · exact hne rfl
    · exact hne rfl

/-- Thirty-two bytes of what stands behind the domain. -/
def sampleDigest (x : Bytes) : BundleId :=
  ⟨(x.drop BUNDLE_ID_DOMAIN.length ++ List.replicate 32 0).take 32, by simp⟩

theorem bundle_bijection_hybrid :
    fromBytes (⟨⟨[7]⟩, none⟩ : IdentityBundle).toBytes = .ok ⟨⟨[7]⟩, none⟩ ∧
    (⟨⟨[7]⟩, none⟩ : IdentityBundle).id sampleDigest ≠
      (⟨⟨[7]⟩, some (List.Vector.replicate _ 0)⟩ : IdentityBundle).id sampleDigest := by
  obtain ⟨hread, -, -, hid⟩ := bundle_bijection sampleDigest
  refine ⟨hread _ (by decide) (by decide), ?_⟩
  refine hid (fun x => x = BUNDLE_ID_DOMAIN ++ (⟨⟨[7]⟩, none⟩ : IdentityBundle).toBytes ∨
    x = BUNDLE_ID_DOMAIN ++
      (⟨⟨[7]⟩, some (List.Vector.replicate _ 0)⟩ : IdentityBundle).toBytes) ?_ _ _
    ⟨by decide, by decide⟩ ⟨by decide, by decide⟩ (.inl rfl) (.inr rfl) (.inr (by simp))
  have hne : sampleDigest (BUNDLE_ID_DOMAIN ++ (⟨⟨[7]⟩, none⟩ : IdentityBundle).toBytes) ≠
      sampleDigest (BUNDLE_ID_DOMAIN ++
        (⟨⟨[7]⟩, some (List.Vector.replicate _ 0)⟩ : IdentityBundle).toBytes) := by
    intro h
    have := congrArg (fun v => v.toList.getD 4 0) h
    exact absurd this (by decide +kernel)
  rintro x y (rfl | rfl) (rfl | rfl) h
  · rfl
  · exact absurd h hne
  · exact absurd h.symm hne
  · rfl

end IdentityBundle

/-! ## One ticket with two strings -/

/-- A ticket with one onion hint, whose label starts with `x`. -/
def onionString (x : UInt8) : Bytes :=
  [FORMAT_VERSION, 1] ++ (beBytes 8 0 ++ (beBytes 2 6 ++ ([BUNDLE_VERSION, 0, 1, 0, 0, 0] ++
    ([1, TAG_ONION] ++ ([x] ++ (List.replicate 55 97 ++ (utf8 ONION_SUFFIX ++ [1, 187])))))))

theorem sampleUnicode_narrows : sampleUnicode.Narrows := by
  intro s hlower hwide
  obtain ⟨c, hc, hc128⟩ := hwide
  have hsame : c.toLower = c := by
    unfold Char.toLower
    rw [dif_neg]
    rintro ⟨-, hle⟩
    have : c.toNat ≤ 90 := hle
    omega
  have := hlower c (List.mem_map.mpr ⟨c, hc, hsame⟩)
  omega

def onionHost : OnionAddress where
  host := List.replicate 56 'a' ++ ONION_SUFFIX
  port := 443
  host_valid := ⟨List.replicate 56 'a', rfl, by decide +kernel, by decide +kernel⟩
  port_valid := by decide

def onionTicket : Ticket := ⟨⟨⟨[0]⟩, none⟩, [.onion onionHost], .livePq1, 0⟩

set_option maxRecDepth 100000 in
theorem fromBytes_onionString : ∀ x ∈ [97, 65],
    Ticket.fromBytes sampleUnicode (onionString x) = .ok onionTicket := by
  decide +kernel

theorem fromBytes_canonical_iff_small : onionTicket.toBytes = onionString 97 ∧
    ∃ e, Ticket.fromBytes sampleUnicode (onionString 97 ++ [0]) = .error e := by
  have hplain : Uncapitalised (onionString 97) := by decide +kernel
  have hread := fromBytes_onionString 97 (by decide)
  obtain ⟨-, hcanonical⟩ :=
    fromBytes_canonical_iff sampleUnicode_plain sampleUnicode_narrows (onionString 97)
  obtain ⟨hbytes, -, hext, -⟩ := hcanonical onionTicket hread
  exact ⟨hbytes.mpr hplain, hext [0] (by decide)⟩

/-- With a capital letter in its label a ticket is read all the same, as the ticket of another
string, and is not written as it was. -/
theorem capital_label_ambiguous : onionString 65 ≠ onionString 97 ∧
    Ticket.fromBytes sampleUnicode (onionString 65) = .ok onionTicket ∧
    Ticket.fromBytes sampleUnicode (onionString 97) = .ok onionTicket ∧
    onionTicket.toBytes ≠ onionString 65 := by
  refine ⟨by decide, fromBytes_onionString 65 (by decide), fromBytes_onionString 97 (by decide), ?_⟩
  have : onionTicket.toBytes = onionString 97 ∧ onionString 97 ≠ onionString 65 := by decide +kernel
  rw [this.1]
  exact this.2

end AtomVault.Live
