import AtomVault.Lib.Codec
import AtomVault.Lib.Machine

/-!
# The pumps under the multiplexer (`transport.rs`)

Two tasks at each end carry the bytes of Yamux. One seals what Yamux wrote and puts it on the
connection, the other opens what came. The network has the connection in its hands.
-/

open Lib

namespace AtomVault.Sync.Pumps

/-- The length of `plain_buf` of the outbound pump. -/
def PLAIN_BUF : Nat := 65000

/-- The length of `cipher_buf`. -/
def CIPHER_BUF : Nat := 65535

/-- What fits into `cipher_buf`. -/
abbrev Message := { b : Bytes // b.length ≤ CIPHER_BUF }

/-- What a `snow::TransportState` makes of the messages in one direction. It counts them, and the
number of a message is its nonce. -/
structure Cipher where
  writeMessage : (nonce : Nat) → (payload : Bytes) → Option Message
  readMessage : (nonce : Nat) → (message : Message) → Option Bytes

structure Outbound where
  /-- Everything Yamux wrote. -/
  fed : Bytes
  unread : Bytes
  /-- What went through `write_message`, with what came out. -/
  written : List (Bytes × Message)
  sent : Bytes
  running : Bool
  deriving DecidableEq

structure Inbound where
  /-- Everything the connection brought, wherever it is from. -/
  arrived : Bytes
  unread : Bytes
  /-- The messages that opened. -/
  opened : Nat
  /-- What Yamux was given. -/
  delivered : Bytes
  running : Bool
  deriving DecidableEq

/-- The two pumps of one end. -/
abbrev End := Outbound × Inbound

/-- A write that fails has put out its first `cut` bytes. -/
inductive Out
  | write (b : Bytes)
  | pump (n : Nat) (cut : Option Nat)
  | stop
  deriving DecidableEq

inductive In
  | arrive (b : Bytes)
  | pump (cut : Option Nat)
  | stop
  deriving DecidableEq

/-- What a `write_all` puts out. -/
def put (cut : Option Nat) (b : Bytes) : Bytes := cut.elim b b.take

/-- `write_u16` of the length, which is cast to 16 bits, and `write_all`. -/
def record (message : Message) : Bytes :=
  beBytes 2 (message.1.length % 2 ^ 16) ++ message.1

theorem take_fits {b h : Bytes} (hlen : h.length ≤ 2) : (b.take (ofBe h)).length ≤ CIPHER_BUF := by
  have hlt := ofBe_lt h
  have hpow : 256 ^ h.length ≤ 256 ^ 2 := Nat.pow_le_pow_right (by decide) hlen
  rw [List.length_take]
  unfold CIPHER_BUF
  omega

/-- `read_u16` and `read_exact`, once all of it is there. -/
def takeRecord (b : Bytes) : Option (Message × Bytes) :=
  if 2 + ofBe (b.take 2) ≤ b.length then
    some (⟨(b.drop 2).take (ofBe (b.take 2)), take_fits (List.length_take_le 2 b)⟩,
      b.drop (2 + ofBe (b.take 2)))
  else none

/-- A turn that has read `payload`. -/
def Outbound.seal (o : Outbound) (payload : Bytes) (cut : Option Nat) : Option Message → Outbound
  | none => { o with unread := o.unread.drop payload.length, running := false }
  | some message =>
    { o with
      unread := o.unread.drop payload.length
      written := o.written ++ [(payload, message)]
      sent := o.sent ++ put cut (record message)
      running := cut.isNone }

/-- A turn that has read a record, with `rest` behind it. -/
def Inbound.unseal (i : Inbound) (rest : Bytes) (cut : Option Nat) : Option Bytes → Inbound
  | none => { i with unread := rest, running := false }
  | some payload =>
    { i with
      unread := rest
      opened := i.opened + 1
      delivered := i.delivered ++ put cut payload
      running := cut.isNone }

def Outbound.step (c : Cipher) (o : Outbound) : Out → Option Outbound
  | .write b => some { o with fed := o.fed ++ b, unread := o.unread ++ b }
  | .pump n cut =>
    if o.running ∧ 0 < n ∧ n ≤ PLAIN_BUF ∧ n ≤ o.unread.length then
      let payload := o.unread.take n
      some (o.seal payload cut (c.writeMessage o.written.length payload))
    else none
  | .stop => some { o with running := false }

def Inbound.step (c : Cipher) (i : Inbound) : In → Option Inbound
  | .arrive b => some { i with arrived := i.arrived ++ b, unread := i.unread ++ b }
  | .pump cut =>
    if i.running then
      (takeRecord i.unread).map fun (message, rest) =>
        i.unseal rest cut (c.readMessage i.opened message)
    else none
  | .stop => some { i with running := false }

/-- Both ends. `cipher side` is for what the end at `side` sends, and `true` is the initiator. -/
def step (cipher : Bool → Cipher) : (Bool → End) → Bool × (Out ⊕ In) → Option (Bool → End) :=
  beside fun side => both (Outbound.step (cipher side)) (Inbound.step (cipher (!side)))

def start : Bool → End := fun _ => (⟨[], [], [], [], true⟩, ⟨[], [], 0, [], true⟩)

/-! ## What is promised -/

/-- Nothing opens but what was sealed as the same message of the direction. -/
def Cipher.Genuine (c : Cipher) (written : List (Bytes × Message)) : Prop :=
  ∀ n message payload, c.readMessage n message = some payload →
    written[n]? = some (payload, message)

/-- A message is 16 bytes longer than its payload, and `snow` refuses the last nonce of 64 bits. -/
structure Cipher.Sound (c : Cipher) : Prop where
  writes : ∀ n payload, n < 2 ^ 64 - 1 → payload.length + 16 ≤ CIPHER_BUF →
    (c.writeMessage n payload).isSome
  opens : ∀ n payload message, c.writeMessage n payload = some message →
    c.readMessage n message = some payload

/-- No write fails and no pump is stopped. -/
def Smooth : Out ⊕ In → Prop
  | .inl (.pump _ cut) => cut = none
  | .inr (.pump cut) => cut = none
  | .inl .stop => False
  | .inr .stop => False
  | _ => True

def payloads (written : List (Bytes × Message)) : Bytes := written.flatMap Prod.fst

def records (written : List (Bytes × Message)) : Bytes := written.flatMap fun x => record x.2

/-! ## Records -/

@[simp]
theorem length_record (message : Message) : (record message).length = 2 + message.1.length := by
  simp [record]

theorem ofBe_header (message : Message) (r : Bytes) :
    ofBe ((record message ++ r).take 2) = message.1.length := by
  have hlt : message.1.length < 2 ^ 16 := Nat.lt_succ_of_le message.2
  rw [record, List.append_assoc, List.take_left' (length_beBytes 2 _), Nat.mod_eq_of_lt hlt,
    ofBe_beBytes 2 _ hlt]

theorem takeRecord_record (message : Message) (r : Bytes) :
    takeRecord (record message ++ r) = some (message, r) := by
  have hlen : (record message ++ r).length = 2 + message.1.length + r.length := by simp
  have hdrop : (record message ++ r).drop 2 = message.1 ++ r := by
    rw [record, List.append_assoc]
    exact List.drop_left' (length_beBytes 2 _)
  unfold takeRecord
  rw [if_pos (by rw [ofBe_header, hlen]; omega)]
  refine congrArg some (Prod.ext (Subtype.ext ?_) ?_)
  · show ((record message ++ r).drop 2).take (ofBe ((record message ++ r).take 2)) = message.1
    rw [ofBe_header, hdrop, List.take_left]
  · show (record message ++ r).drop (2 + ofBe ((record message ++ r).take 2)) = r
    rw [ofBe_header, List.drop_left' (length_record message)]

theorem eq_of_takeRecord {b r : Bytes} {message : Message} (h : takeRecord b = some (message, r)) :
    b = record message ++ r := by
  unfold takeRecord at h
  split at h
  · rename_i hle
    obtain ⟨rfl, rfl⟩ := Prod.mk.inj (Option.some.inj h)
    have htwo : (b.take 2).length = 2 := by simp; omega
    have hlen : ((b.drop 2).take (ofBe (b.take 2))).length = ofBe (b.take 2) := by
      simp; omega
    have hlt : ofBe (b.take 2) < 2 ^ 16 := ofBe_lt_of_length htwo
    rw [record, hlen, Nat.mod_eq_of_lt hlt, beBytes_of_length htwo, List.append_assoc,
      ← List.drop_drop, List.take_append_drop, List.take_append_drop]
  · cases h

def recordCodec : Codec Message := ⟨record, takeRecord, takeRecord_record, eq_of_takeRecord⟩

theorem put_isPrefix (cut : Option Nat) (b : Bytes) : put cut b <+: b := by
  cases cut with
  | none => exact List.prefix_refl b
  | some k => exact List.take_prefix k b

theorem payloads_append (l l' : List (Bytes × Message)) :
    payloads (l ++ l') = payloads l ++ payloads l' := List.flatMap_append

theorem records_append (l l' : List (Bytes × Message)) :
    records (l ++ l') = records l ++ records l' := List.flatMap_append

@[simp]
theorem payloads_singleton (x : Bytes × Message) : payloads [x] = x.1 := by simp [payloads]

@[simp]
theorem records_singleton (x : Bytes × Message) : records [x] = record x.2 := by simp [records]

theorem records_eq (l : List (Bytes × Message)) :
    records l = (l.map Prod.snd).flatMap recordCodec.enc := by
  rw [List.flatMap_map]
  rfl

/-! ## The outbound pump -/

section Outbound

variable {c : Cipher} {o o' : Outbound} {a : Out}

theorem Outbound.pump_eq {n : Nat} {cut : Option Nat} (h : o.step c (.pump n cut) = some o') :
    o.running = true ∧ n ≤ PLAIN_BUF ∧
      o' = o.seal (o.unread.take n) cut (c.writeMessage o.written.length (o.unread.take n)) := by
  simp only [Outbound.step] at h
  split at h
  · rename_i hgo
    cases h
    exact ⟨hgo.1, hgo.2.2.1, rfl⟩
  · cases h

structure Pumped (c : Cipher) (o : Outbound) : Prop where
  fed : payloads o.written <+: o.fed
  sealed : ∀ n x, o.written[n]? = some x → c.writeMessage n x.1 = some x.2
  sent : o.sent <+: records o.written
  running : o.running = true → o.fed = payloads o.written ++ o.unread ∧ o.sent = records o.written

theorem pumped_start (side : Bool) : Pumped c (start side).1 :=
  ⟨List.prefix_refl _, fun n x h => absurd h (by simp [start]), List.prefix_refl _,
    fun _ => ⟨rfl, rfl⟩⟩

theorem Pumped.seal (h : Pumped c o) (hrun : o.running = true) {payload : Bytes}
    (hread : payload <+: o.unread) (cut : Option Nat) :
    Pumped c (o.seal payload cut (c.writeMessage o.written.length payload)) := by
  obtain ⟨hfed, hsent⟩ := h.running hrun
  obtain ⟨left, hleft⟩ := hread
  have hdrop : o.unread.drop payload.length = left := by rw [← hleft, List.drop_left]
  cases hm : c.writeMessage o.written.length payload with
  | none => exact ⟨h.fed, h.sealed, h.sent, fun hgo => by cases hgo⟩
  | some message =>
    have hpay : payloads (o.written ++ [(payload, message)]) ++ left = o.fed := by
      rw [payloads_append, payloads_singleton, List.append_assoc, hleft, hfed]
    refine ⟨⟨left, hpay⟩, fun n x hx => ?_, ?_, fun hgo => ⟨?_, ?_⟩⟩
    · rcases getElem?_concat_eq_some.mp hx with hx | ⟨rfl, rfl⟩
      · exact h.sealed n x hx
      · exact hm
    · show o.sent ++ put cut (record message) <+: records (o.written ++ [(payload, message)])
      rw [hsent, records_append, records_singleton]
      exact (List.prefix_append_right_inj _).mpr (put_isPrefix cut _)
    · show o.fed = payloads (o.written ++ [(payload, message)]) ++ o.unread.drop payload.length
      rw [hdrop, hpay]
    · obtain rfl : cut = none := Option.isNone_iff_eq_none.mp hgo
      show o.sent ++ record message = records (o.written ++ [(payload, message)])
      rw [hsent, records_append, records_singleton]

theorem Pumped.step (h : Pumped c o) (hstep : o.step c a = some o') : Pumped c o' := by
  cases a with
  | write b =>
    cases hstep
    refine ⟨h.fed.trans (List.prefix_append _ _), h.sealed, h.sent, fun hgo => ?_⟩
    obtain ⟨hfed, hsent⟩ := h.running hgo
    refine ⟨?_, hsent⟩
    show o.fed ++ b = _
    rw [hfed, List.append_assoc]
  | pump n cut =>
    obtain ⟨hgo, -, rfl⟩ := Outbound.pump_eq hstep
    exact h.seal hgo (List.take_prefix n o.unread) cut
  | stop =>
    cases hstep
    exact ⟨h.fed, h.sealed, h.sent, fun hgo => by cases hgo⟩

theorem running_step (hsound : c.Sound) (hsmooth : Smooth (.inl a)) (hstep : o.step c a = some o')
    (hrun : o.running = true ∨ 2 ^ 64 - 1 ≤ o.written.length) :
    o'.running = true ∨ 2 ^ 64 - 1 ≤ o'.written.length := by
  cases a with
  | write b =>
    cases hstep
    exact hrun
  | pump n cut =>
    obtain ⟨-, hn, rfl⟩ := Outbound.pump_eq hstep
    cases hm : c.writeMessage o.written.length (o.unread.take n) with
    | none =>
      right
      by_contra hlt
      have hfits : (o.unread.take n).length + 16 ≤ CIPHER_BUF := by
        simp only [List.length_take, PLAIN_BUF, CIPHER_BUF] at hn ⊢
        omega
      have hsome := hsound.writes o.written.length _ (Nat.lt_of_not_le hlt) hfits
      rw [hm] at hsome
      cases hsome
    | some message =>
      left
      show cut.isNone = true
      rw [show cut = none from hsmooth]
      rfl
  | stop => exact absurd hsmooth id

end Outbound

/-! ## The inbound pump

`all` is everything the other end has sealed by the end of the run. -/

section Inbound

variable {c : Cipher} {i i' : Inbound} {a : In} {all : List (Bytes × Message)}

theorem Inbound.pump_eq {cut : Option Nat} (h : i.step c (.pump cut) = some i') :
    i.running = true ∧ ∃ message rest, takeRecord i.unread = some (message, rest) ∧
      i' = i.unseal rest cut (c.readMessage i.opened message) := by
  simp only [Inbound.step] at h
  split at h
  · rename_i hgo
    obtain ⟨x, hx, rfl⟩ := Option.map_eq_some_iff.mp h
    exact ⟨hgo, x.1, x.2, hx, rfl⟩
  · cases h

structure Opened (all : List (Bytes × Message)) (i : Inbound) : Prop where
  part : i.delivered <+: payloads (all.take i.opened)
  running : i.running = true → i.delivered = payloads (all.take i.opened)

theorem payloads_take_succ {n : Nat} {payload : Bytes} {message : Message}
    (h : all[n]? = some (payload, message)) :
    payloads (all.take (n + 1)) = payloads (all.take n) ++ payload := by
  rw [List.take_add_one, h, payloads_append, Option.toList_some, payloads_singleton]

theorem records_take_succ {n : Nat} {payload : Bytes} {message : Message}
    (h : all[n]? = some (payload, message)) :
    records (all.take (n + 1)) = records (all.take n) ++ record message := by
  rw [List.take_add_one, h, records_append, Option.toList_some, records_singleton]

theorem Opened.step (hgenuine : c.Genuine all) (h : Opened all i) (hstep : i.step c a = some i') :
    Opened all i' := by
  cases a with
  | arrive b =>
    cases hstep
    exact ⟨h.part, h.running⟩
  | pump cut =>
    obtain ⟨hgo, message, rest, -, rfl⟩ := Inbound.pump_eq hstep
    cases hm : c.readMessage i.opened message with
    | none => exact ⟨h.part, fun hgo => by cases hgo⟩
    | some payload =>
      have htake := payloads_take_succ (hgenuine _ _ _ hm)
      have hdone := h.running hgo
      constructor
      · show i.delivered ++ put cut payload <+: payloads (all.take (i.opened + 1))
        rw [htake, hdone]
        exact (List.prefix_append_right_inj _).mpr (put_isPrefix cut payload)
      · intro hgo'
        obtain rfl : cut = none := Option.isNone_iff_eq_none.mp hgo'
        show i.delivered ++ payload = payloads (all.take (i.opened + 1))
        rw [htake, hdone]
  | stop =>
    cases hstep
    exact ⟨h.part, fun hgo => by cases hgo⟩

/-- Where the pump is in a stream that came unchanged. -/
structure Follows (all : List (Bytes × Message)) (i : Inbound) : Prop where
  running : i.running = true
  delivered : i.delivered = payloads (all.take i.opened)
  arrived : i.arrived = records (all.take i.opened) ++ i.unread

theorem Follows.next (h : Follows all i) (hall : i.arrived <+: records all) {message : Message}
    {rest : Bytes} (hrec : takeRecord i.unread = some (message, rest)) :
    ∃ payload, all[i.opened]? = some (payload, message) := by
  have hunread : i.unread <+: ((all.drop i.opened).map Prod.snd).flatMap recordCodec.enc := by
    rw [← records_eq]
    refine (List.prefix_append_right_inj (records (all.take i.opened))).mp ?_
    rw [← records_append, List.take_append_drop, ← h.arrived]
    exact hall
  have hne : recordCodec.enc message ≠ [] := by
    intro hnil
    have hlen := length_record message
    rw [show record message = [] from hnil, List.length_nil] at hlen
    omega
  obtain ⟨more, hmore, -⟩ := recordCodec.dec_of_prefix hne hunread hrec
  cases hdrop : all.drop i.opened with
  | nil =>
    rw [hdrop] at hmore
    cases hmore
  | cons x xs =>
    rw [hdrop] at hmore
    obtain ⟨rfl, -⟩ := List.cons.inj hmore
    refine ⟨x.1, ?_⟩
    rw [← Nat.add_zero i.opened, ← List.getElem?_drop, hdrop]
    rfl

theorem arrived_step (hstep : i.step c a = some i') : i.arrived <+: i'.arrived := by
  cases a with
  | arrive b =>
    cases hstep
    exact List.prefix_append _ _
  | pump cut =>
    obtain ⟨-, message, rest, -, rfl⟩ := Inbound.pump_eq hstep
    cases c.readMessage i.opened message <;> exact List.prefix_refl _
  | stop =>
    cases hstep
    exact List.prefix_refl _

theorem Follows.step (hopens : ∀ n x, all[n]? = some x → c.readMessage n x.2 = some x.1)
    (h : Follows all i) (hsmooth : Smooth (.inr a)) (hall : i.arrived <+: records all)
    (hstep : i.step c a = some i') : Follows all i' := by
  cases a with
  | arrive b =>
    cases hstep
    refine ⟨h.running, h.delivered, ?_⟩
    show i.arrived ++ b = _
    rw [h.arrived, List.append_assoc]
  | pump cut =>
    obtain rfl : cut = none := hsmooth
    obtain ⟨-, message, rest, hrec, rfl⟩ := Inbound.pump_eq hstep
    obtain ⟨payload, hnext⟩ := h.next hall hrec
    rw [show c.readMessage i.opened message = some payload from hopens _ _ hnext]
    refine ⟨rfl, ?_, ?_⟩
    · show i.delivered ++ payload = payloads (all.take (i.opened + 1))
      rw [payloads_take_succ hnext, h.delivered]
    · show i.arrived = records (all.take (i.opened + 1)) ++ rest
      rw [records_take_succ hnext, List.append_assoc, ← eq_of_takeRecord hrec]
      exact h.arrived
  | stop => exact absurd hsmooth id

end Inbound

/-! ## Runs of both ends -/

section Runs

variable {cipher : Bool → Cipher} {as : List (Bool × (Out ⊕ In))} {w : Bool → End}

theorem smooth_outbound (h : ∀ a ∈ as, Smooth a.2) (side : Bool) :
    ∀ o ∈ (own side as).filterMap Sum.getLeft?, Smooth (.inl o) := by
  intro o ho
  obtain ⟨a, ha, hao⟩ := List.mem_filterMap.mp ho
  rw [← Sum.getLeft?_eq_some_iff.mp hao]
  exact h _ (mem_own.mp ha)

theorem smooth_inbound (h : ∀ a ∈ as, Smooth a.2) (side : Bool) :
    ∀ i ∈ (own side as).filterMap Sum.getRight?, Smooth (.inr i) := by
  intro i hi
  obtain ⟨a, ha, hai⟩ := List.mem_filterMap.mp hi
  rw [← Sum.getRight?_eq_some_iff.mp hai]
  exact h _ (mem_own.mp ha)

theorem pumped (h : run (step cipher) start as = some w) (side : Bool) :
    Pumped (cipher side) (w side).1 :=
  run_invariant (fun _ _ _ => Pumped.step) (run_both (run_beside h side)).1 (pumped_start side)

/-- Whatever the network does with the connection, Yamux gets what the other Yamux wrote, in
order and with nothing missing in between. -/
theorem delivered_prefix (h : run (step cipher) start as = some w)
    (hgenuine : ∀ side, (cipher side).Genuine (w side).1.written) (side : Bool) :
    (w side).2.delivered <+: (w !side).1.fed := by
  have hopened : Opened (w !side).1.written (w side).2 :=
    run_invariant (fun _ _ _ => Opened.step (hgenuine (!side)))
      (run_both (run_beside h side)).2 ⟨List.prefix_refl _, fun _ => rfl⟩
  refine hopened.part.trans (List.IsPrefix.trans ?_ (pumped h (!side)).fed)
  exact (List.take_prefix _ _).flatMap _

/-- A cipher that knows the messages of one run. -/
def tableCipher (table : List (Bytes × Message)) : Cipher where
  writeMessage n payload := (table[n]?).bind fun x => if x.1 = payload then some x.2 else none
  readMessage n message := (table[n]?).bind fun x => if x.2 = message then some x.1 else none

theorem genuine_table (table : List (Bytes × Message)) : (tableCipher table).Genuine table := by
  intro n message payload h
  obtain ⟨x, hx, hp⟩ := Option.bind_eq_some_iff.mp h
  split at hp
  · rename_i hm
    cases hp
    rw [hx, ← hm]
  · cases hp

def sampleMessage : Message := ⟨List.replicate 18 7, by decide⟩

def sampleTable : List (Bytes × Message) := [([1, 2], sampleMessage)]

/-- The initiator sends one message. The network brings it twice. -/
def sampleReplay : List (Bool × (Out ⊕ In)) :=
  [(true, .inl (.write [1, 2, 3])), (true, .inl (.pump 2 none)),
    (false, .inr (.arrive (record sampleMessage))), (false, .inr (.pump none)),
    (false, .inr (.arrive (record sampleMessage))), (false, .inr (.pump none))]

def sampleCiphers (side : Bool) : Cipher := tableCipher (if side then sampleTable else [])

def sampleReplayed : Bool → End := (run (step sampleCiphers) start sampleReplay).getD start

theorem run_replay : run (step sampleCiphers) start sampleReplay = some sampleReplayed := rfl

theorem delivered_prefix_replay :
    (sampleReplayed false).2.delivered = [1, 2] ∧ (sampleReplayed false).2.running = false ∧
      (sampleReplayed false).2.delivered <+: (sampleReplayed true).1.fed := by
  refine ⟨by decide, by decide, delivered_prefix run_replay ?_ false⟩
  intro side
  cases side with
  | false => exact genuine_table []
  | true => exact genuine_table sampleTable

/-- No pump can make a turn. -/
def Quiet (cipher : Bool → Cipher) (w : Bool → End) : Prop :=
  ∀ side, (∀ n cut, (w side).1.step (cipher side) (.pump n cut) = none) ∧
    ∀ cut, (w side).2.step (cipher (!side)) (.pump cut) = none

theorem follows (h : run (step cipher) start as = some w) (hsound : ∀ side, (cipher side).Sound)
    (hsmooth : ∀ a ∈ as, Smooth a.2) {side : Bool}
    (hsent : (w side).2.arrived <+: (w !side).1.sent) :
    Follows (w !side).1.written (w side).2 := by
  have hpumped := pumped h (!side)
  have hopens : ∀ n x, (w !side).1.written[n]? = some x →
      (cipher (!side)).readMessage n x.2 = some x.1 := fun n x hx =>
    (hsound (!side)).opens n x.1 x.2 (hpumped.sealed n x hx)
  refine run_allowed (A := fun _ a => Smooth (.inr a))
    (I := fun i => i.arrived <+: records (w !side).1.written → Follows (w !side).1.written i)
    (fun i a i' ih ha hstep hall => ?_) (run_both (run_beside h side)).2
    (allowed_of_forall fun a ha _ => smooth_inbound hsmooth side a ha)
    (fun _ => ⟨rfl, rfl, rfl⟩) (hsent.trans hpumped.sent)
  have hall := (arrived_step hstep).trans hall
  exact (ih hall).step hopens ha hall hstep

theorem outbound_running (h : run (step cipher) start as = some w)
    (hsound : ∀ side, (cipher side).Sound) (hsmooth : ∀ a ∈ as, Smooth a.2) {side : Bool}
    (hnonce : (w side).1.written.length < 2 ^ 64 - 1) : (w side).1.running = true := by
  have hrun := run_allowed (A := fun _ a => Smooth (.inl a))
    (I := fun o => o.running = true ∨ 2 ^ 64 - 1 ≤ o.written.length)
    (fun _ _ _ ho ha hstep => running_step (hsound side) ha hstep ho)
    (run_both (run_beside h side)).1
    (allowed_of_forall fun a ha _ => smooth_outbound hsmooth side a ha) (Or.inl rfl)
  exact hrun.resolve_right (Nat.not_le_of_lt hnonce)

theorem unread_eq_nil {c : Cipher} {o : Outbound} (hrun : o.running = true)
    (hquiet : ∀ n cut, o.step c (.pump n cut) = none) : o.unread = [] := by
  by_contra hne
  have hpos := List.length_pos_iff.mpr hne
  have hone := hquiet 1 none
  simp only [Outbound.step] at hone
  rw [if_pos ⟨hrun, by decide, by decide, hpos⟩] at hone
  cases hone

/-- An inbound pump that cannot make a turn has opened everything that came. -/
theorem Follows.all_opened {c : Cipher} {all : List (Bytes × Message)} {i : Inbound}
    (h : Follows all i) (harrived : i.arrived = records all)
    (hquiet : ∀ cut, i.step c (.pump cut) = none) : i.delivered = payloads all := by
  have hunread : i.unread = records (all.drop i.opened) := by
    have hsplit := h.arrived
    rw [harrived] at hsplit
    nth_rewrite 1 [← List.take_append_drop i.opened all] at hsplit
    rw [records_append] at hsplit
    exact (List.append_cancel_left hsplit).symm
  cases hdrop : all.drop i.opened with
  | nil => rw [h.delivered, List.take_of_length_le (List.drop_eq_nil_iff.mp hdrop)]
  | cons x xs =>
    have hrec : takeRecord i.unread = some (x.2, records xs) := by
      rw [hunread, hdrop]
      exact takeRecord_record x.2 (records xs)
    have hnone := hquiet none
    simp only [Inbound.step] at hnone
    rw [if_pos h.running, hrec] at hnone
    cases hnone

/-- Over a network that only delays and cuts up, no pump stops by itself. Once all that was sent
has come and the pumps are at rest, each Yamux has got all that the other one wrote. -/
theorem delivered_all (h : run (step cipher) start as = some w)
    (hsound : ∀ side, (cipher side).Sound) (hsmooth : ∀ a ∈ as, Smooth a.2)
    (hsent : ∀ side, (w side).2.arrived <+: (w !side).1.sent)
    (hnonce : ∀ side, (w side).1.written.length < 2 ^ 64 - 1) (side : Bool) :
    (w side).1.running = true ∧ (w side).2.running = true ∧
      (w side).2.delivered <+: (w !side).1.fed ∧
      ((w side).2.arrived = (w !side).1.sent → Quiet cipher w →
        (w side).2.delivered = (w !side).1.fed) := by
  have hfollows := follows h hsound hsmooth (hsent side)
  have hrun := outbound_running h hsound hsmooth (hnonce (!side))
  obtain ⟨hfed, hall⟩ := (pumped h (!side)).running hrun
  refine ⟨outbound_running h hsound hsmooth (hnonce side), hfollows.running, ?_, ?_⟩
  · rw [hfollows.delivered]
    exact ((List.take_prefix _ _).flatMap _).trans (pumped h (!side)).fed
  · intro harrived hquiet
    have hunread := unread_eq_nil hrun (hquiet (!side)).1
    rw [hfollows.all_opened (harrived.trans hall) (hquiet side).2, hfed, hunread, List.append_nil]

theorem padded_fits {payload : Bytes} (h : payload.length + 16 ≤ CIPHER_BUF) :
    (payload ++ List.replicate 16 0).length ≤ CIPHER_BUF := by simpa using h

/-- Sixteen zeros for a tag. -/
def paddingCipher : Cipher where
  writeMessage n payload :=
    if h : n < 2 ^ 64 - 1 ∧ payload.length + 16 ≤ CIPHER_BUF then
      some ⟨payload ++ List.replicate 16 0, padded_fits h.2⟩
    else none
  readMessage _ message := some (message.1.take (message.1.length - 16))

theorem sound_padding : paddingCipher.Sound where
  writes n payload hn hfits := by
    simp only [paddingCipher]
    rw [dif_pos ⟨hn, hfits⟩]
    rfl
  opens n payload message h := by
    simp only [paddingCipher] at h ⊢
    split at h
    · cases h
      simp
    · cases h

/-- A message cut up on its way to the initiator. -/
def sampleExchange : List (Bool × (Out ⊕ In)) :=
  [(false, .inl (.write [1, 2])), (false, .inl (.pump 2 none)),
    (true, .inr (.arrive [0])), (true, .inr (.arrive [18, 1])),
    (true, .inr (.arrive (2 :: List.replicate 16 0))), (true, .inr (.pump none))]

def sampleExchanged : Bool → End :=
  (run (step fun _ => paddingCipher) start sampleExchange).getD start

theorem run_exchange :
    run (step fun _ => paddingCipher) start sampleExchange = some sampleExchanged := rfl

theorem delivered_all_exchange :
    (sampleExchanged true).2.delivered = [1, 2] ∧
      (sampleExchanged true).2.delivered <+: (sampleExchanged false).1.fed := by
  refine ⟨by decide, (delivered_all run_exchange (fun _ => sound_padding) ?_ ?_ ?_ true).2.2.1⟩
  · simp [sampleExchange, Smooth]
  · intro side
    cases side <;> decide
  · intro side
    cases side <;> decide

end Runs

end AtomVault.Sync.Pumps
