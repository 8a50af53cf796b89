import AtomVault.Lib.Prog
import AtomVault.Transfer.Wire
import Mathlib.Data.List.Flatten

/-!
# Frames on a byte stream (`framing.rs`)

The transport hands over the stream in pieces of its own choosing. A read may return as
little as one byte, or fail.
-/

open Lib

namespace AtomVault.Transfer

/-! ## Writing -/

/-- What was put on the wire. The `i`th `write_all` fails after `n` bytes where `faults i` is
`some (n, e)`. -/
structure Wire where
  sent : Bytes
  faults : Nat → Option (Nat × String)
  writes : Nat

def Wire.writeAll (what : String) (b : Bytes) : EStateM Error Wire Unit := fun w =>
  match w.faults w.writes with
  | none => .ok () { w with sent := w.sent ++ b, writes := w.writes + 1 }
  | some (n, e) =>
    .error (.session s!"{what}: {e}") { w with sent := w.sent ++ b.take n, writes := w.writes + 1 }

def writeFrame (msg : Bytes) : EStateM Error Wire Nat :=
  if msg.length > MAX_FRAME_LEN then
    throw (.session s!"outbound frame too large: {msg.length} > {MAX_FRAME_LEN}")
  else do
    let len := beBytes 4 msg.length
    Wire.writeAll "write length" len
    Wire.writeAll "write payload" msg
    return len.length + msg.length

/-! ## Reading -/

/-- What is still to come of the stream, the most each read returns, and which reads fail.
`allocated` are the buffers made for payloads. -/
structure Reader where
  left : Bytes
  sizes : Nat → Nat
  faults : Nat → Option String
  reads : Nat
  allocated : List Nat

/-- Up to `n` bytes, at least one of them unless the stream has ended. -/
def Reader.read (what : String) (n : Nat) : EStateM Error Reader Bytes := fun r =>
  match r.faults r.reads with
  | none =>
    let k := min (min n r.left.length) (max 1 (r.sizes r.reads))
    .ok (r.left.take k) { r with left := r.left.drop k, reads := r.reads + 1 }
  | some e => .error (.session s!"{what}: {e}") { r with reads := r.reads + 1 }

def LEN_BYTES : Nat := 4

/-- Reads until `n` bytes are in the buffer, with `got` already there. `ended` says what the
end of the stream means. -/
def fill {α : Type} (what : String) (n : Nat) (full : Bytes → α) (ended : Bytes → Except Error α) :
    Nat → Bytes → EStateM Error Reader α
  | 0, got => pure (full got)
  | fuel + 1, got =>
    if got.length < n then do
      let b ← Reader.read what (n - got.length)
      if b = [] then ofExcept id (ended got)
      else fill what n full ended fuel (got ++ b)
    else pure (full got)

/-- The loop that fills `len_buf`. -/
def readLength : EStateM Error Reader (Option Bytes) :=
  fill "read length" LEN_BYTES some (fun got =>
    if got = [] then .ok none
    else .error (.session "stream ended part-way through a length prefix")) LEN_BYTES []

def readExact (n : Nat) : EStateM Error Reader Bytes :=
  fill "read payload" n id (fun _ => .error (.session "read payload: early eof")) n []

def readFrameOpt : EStateM Error Reader (Option Bytes) := do
  match ← readLength with
  | none => return none
  | some lenBuf =>
    let len := ofBe lenBuf
    if len > MAX_FRAME_LEN then
      throw (.session s!"inbound frame too large: {len} > {MAX_FRAME_LEN}")
    else
      modify fun r => { r with allocated := r.allocated ++ [len] }
      return some (← readExact len)

/-- Calls of `read_frame_opt` one after the other, up to the first that returns no message:
the messages, and the error if there was one. -/
inductive Returns : Reader → List Bytes → Option Error → Reader → Prop
  | ended {r r' : Reader} (h : readFrameOpt r = .ok none r') : Returns r [] none r'
  | failed {r r' : Reader} {e : Error} (h : readFrameOpt r = .error e r') : Returns r [] (some e) r'
  | more {r r' r'' : Reader} {msg : Bytes} {msgs : List Bytes} {e : Option Error}
    (h : readFrameOpt r = .ok (some msg) r') (hs : Returns r' msgs e r'') :
    Returns r (msg :: msgs) e r''

/-- One frame after the other. -/
def writeFrames : List Bytes → EStateM Error Wire Unit
  | [] => pure ()
  | msg :: msgs => do
    let _ ← writeFrame msg
    writeFrames msgs

def framed (msg : Bytes) : Bytes := beBytes 4 msg.length ++ msg

/-! ## What one read can do -/

/-- `n` bytes further in the stream. -/
structure Reader.Past (r : Reader) (n : Nat) (r' : Reader) : Prop where
  left : r'.left = r.left.drop n
  faults : r'.faults = r.faults
  allocated : r'.allocated = r.allocated

theorem Reader.Past.trans {r r' r'' : Reader} {m n : Nat} (h : r.Past m r') (h' : r'.Past n r'') :
    r.Past (m + n) r'' :=
  ⟨by rw [h'.left, h.left, List.drop_drop], h'.faults.trans h.faults, h'.allocated.trans h.allocated⟩

theorem read_eq {r : Reader} (hf : ∀ i, r.faults i = none) (what : String) {n : Nat} (hn : 0 < n) :
    ∃ k r', Reader.read what n r = .ok (r.left.take k) r' ∧ r.Past k r' ∧ k ≤ n ∧
      k ≤ r.left.length ∧ (r.left ≠ [] → 0 < k) := by
  refine ⟨min (min n r.left.length) (max 1 (r.sizes r.reads)), { r with
    left := r.left.drop (min (min n r.left.length) (max 1 (r.sizes r.reads)))
    reads := r.reads + 1 }, ?_, ⟨rfl, rfl, rfl⟩, ?_, ?_, ?_⟩
  · unfold Reader.read
    rw [hf]
  · omega
  · omega
  · intro hne
    have := List.length_pos_iff.mpr hne
    omega

theorem wp_read (what : String) (n : Nat) (r : Reader) :
    wp (Reader.read what n) (fun b r' => b.length ≤ n ∧ r'.allocated = r.allocated)
      (fun _ r' => r'.allocated = r.allocated) r := by
  unfold wp Reader.read
  cases r.faults r.reads with
  | none =>
    refine ⟨?_, rfl⟩
    rw [List.length_take]
    omega
  | some e => rfl

theorem take_append_take_drop {b : Bytes} {k n : Nat} (h : k ≤ n) :
    b.take k ++ (b.drop k).take (n - k) = b.take n := by
  have := List.take_add (l := b) (i := k) (j := n - k)
  rw [Nat.add_sub_cancel' h] at this
  exact this.symm

/-! ## Filling a buffer -/

section Fill

variable {α : Type} {what : String} {n : Nat} {full : Bytes → α} {ended : Bytes → Except Error α}

theorem fill_full {fuel : Nat} {got : Bytes} (h : got.length = n) (r : Reader) :
    fill what n full ended fuel got r = .ok (full got) r := by
  cases fuel with
  | zero => rfl
  | succ fuel =>
    unfold fill
    simp [h, pure, EStateM.pure]

theorem fill_more (what : String) (full : Bytes → α) (ended : Bytes → Except Error α) (fuel : Nat)
    {got : Bytes} {r : Reader} (hf : ∀ i, r.faults i = none) (hgot : got.length < n)
    (hleft : r.left ≠ []) :
    ∃ k r', 0 < k ∧ k ≤ n - got.length ∧ k ≤ r.left.length ∧ r.Past k r' ∧
      fill what n full ended (fuel + 1) got r =
        fill what n full ended fuel (got ++ r.left.take k) r' := by
  obtain ⟨k, r', hread, hpast, hk, hkl, hpos⟩ := read_eq hf what (n := n - got.length) (by omega)
  have hb : r.left.take k ≠ [] := by
    have := hpos hleft
    rw [← List.length_pos_iff, List.length_take]
    omega
  refine ⟨k, r', hpos hleft, hk, hkl, hpast, ?_⟩
  rw [fill]
  simp only [hgot, if_true, bind, EStateM.bind, hread, hb, if_false]

theorem fill_ok {fuel : Nat} {got : Bytes} {r : Reader} (hf : ∀ i, r.faults i = none)
    (hgot : got.length ≤ n) (hfuel : n ≤ got.length + fuel) (hlen : n ≤ got.length + r.left.length) :
    ∃ r', fill what n full ended fuel got r = .ok (full (got ++ r.left.take (n - got.length))) r' ∧
      r.Past (n - got.length) r' := by
  induction fuel generalizing got r with
  | zero =>
    have hfull : n - got.length = 0 := by omega
    rw [fill_full (by omega), hfull]
    exact ⟨r, by simp, rfl, rfl, rfl⟩
  | succ fuel ih =>
    rcases Nat.lt_or_ge got.length n with hlt | hge
    · have hleft : r.left ≠ [] := by
        rw [← List.length_pos_iff]
        omega
      obtain ⟨k, r₁, hpos, hk, hkl, hpast, hfill⟩ :=
        fill_more what full ended fuel hf hlt hleft
      have hlen₁ : (got ++ r.left.take k).length = got.length + k := by
        rw [List.length_append, List.length_take]
        omega
      have hf₁ : ∀ i, r₁.faults i = none := by
        rw [hpast.faults]
        exact hf
      have hroom : (got ++ r.left.take k).length ≤ n := by omega
      have henough : n ≤ (got ++ r.left.take k).length + r₁.left.length := by
        rw [hlen₁, hpast.left, List.length_drop]
        omega
      obtain ⟨r₂, hrest, hpast'⟩ := ih hf₁ hroom (by omega) henough
      rw [hlen₁, ← Nat.sub_sub] at hrest hpast'
      refine ⟨r₂, ?_, ?_⟩
      · rw [hfill, hrest, hpast.left, List.append_assoc, take_append_take_drop hk]
      · have := hpast.trans hpast'
        rwa [Nat.add_sub_cancel' hk] at this
    · have hfull : n - got.length = 0 := by omega
      rw [fill_full (by omega), hfull]
      exact ⟨r, by simp, rfl, rfl, rfl⟩

theorem fill_ended {fuel : Nat} {got : Bytes} {r : Reader} (hf : ∀ i, r.faults i = none)
    (hfuel : n ≤ got.length + fuel) (hlen : got.length + r.left.length < n) :
    ∃ r', fill what n full ended fuel got r = ofExcept id (ended (got ++ r.left)) r' := by
  induction fuel generalizing got r with
  | zero => omega
  | succ fuel ih =>
    have hlt : got.length < n := by omega
    by_cases hleft : r.left = []
    · obtain ⟨k, r', hread, -⟩ := read_eq hf what (n := n - got.length) (by omega)
      rw [hleft, List.take_nil] at hread
      refine ⟨r', ?_⟩
      rw [fill]
      simp only [hlt, if_true, bind, EStateM.bind, hread, hleft, List.append_nil]
    · obtain ⟨k, r₁, hpos, hk, hkl, hpast, hfill⟩ :=
        fill_more what full ended fuel hf hlt hleft
      have hlen₁ : (got ++ r.left.take k).length = got.length + k := by
        rw [List.length_append, List.length_take]
        omega
      have hf₁ : ∀ i, r₁.faults i = none := by
        rw [hpast.faults]
        exact hf
      have hshort : (got ++ r.left.take k).length + r₁.left.length < n := by
        rw [hlen₁, hpast.left, List.length_drop]
        omega
      obtain ⟨r₂, hrest⟩ := ih hf₁ (by omega) hshort
      refine ⟨r₂, ?_⟩
      rw [hfill, hrest, hpast.left, List.append_assoc, List.take_append_drop]

/-- Whatever the transport does, a full buffer has `n` bytes, and nothing is allocated. -/
theorem wp_fill {fuel : Nat} {got : Bytes} {r : Reader} (hgot : got.length ≤ n) :
    wp (fill what n full ended fuel got)
      (fun a r' => r'.allocated = r.allocated ∧
        ((∃ b : Bytes, b.length ≤ n ∧ a = full b) ∨ ∃ b, ended b = .ok a))
      (fun _ r' => r'.allocated = r.allocated) r := by
  induction fuel generalizing got r with
  | zero => exact ⟨rfl, Or.inl ⟨got, hgot, rfl⟩⟩
  | succ fuel ih =>
    unfold fill
    split
    · rename_i hlt
      rw [wp_bind]
      refine wp_mono (wp_read what (n - got.length) r) ?_ fun _ _ h => h
      rintro b r₁ ⟨hb, halloc⟩
      rw [← halloc]
      split
      · refine wp_ofExcept ?_ fun _ _ => rfl
        intro a ha
        exact ⟨rfl, Or.inr ⟨got, ha⟩⟩
      · exact ih (by rw [List.length_append]; omega)
    · exact ⟨rfl, Or.inl ⟨got, hgot, rfl⟩⟩

end Fill

/-! ## One frame -/

section Frames

variable {r : Reader}

theorem readLength_ok (hf : ∀ i, r.faults i = none) (h : LEN_BYTES ≤ r.left.length) :
    ∃ r', readLength r = .ok (some (r.left.take LEN_BYTES)) r' ∧ r.Past LEN_BYTES r' :=
  fill_ok hf (Nat.zero_le _) (by simp) (by simpa using h)

theorem readLength_ended (hf : ∀ i, r.faults i = none) (h : r.left.length < LEN_BYTES) :
    ∃ r', readLength r = ofExcept id (if r.left = [] then .ok none
      else .error (.session "stream ended part-way through a length prefix")) r' :=
  fill_ended hf (by simp) (by simpa using h)

theorem readExact_ok {n : Nat} (hf : ∀ i, r.faults i = none) (h : n ≤ r.left.length) :
    ∃ r', readExact n r = .ok (r.left.take n) r' ∧ r.Past n r' :=
  fill_ok hf (Nat.zero_le _) (by simp) (by simpa using h)

theorem readExact_ended {n : Nat} (hf : ∀ i, r.faults i = none) (h : r.left.length < n) :
    ∃ r', readExact n r = .error (.session "read payload: early eof") r' :=
  fill_ended hf (by simp) (by simpa using h)

theorem length_framed (msg : Bytes) : (framed msg).length = LEN_BYTES + msg.length := by
  unfold framed LEN_BYTES
  rw [List.length_append, length_beBytes]

/-- The buffer for a payload of `len` bytes. -/
def Reader.alloc (r : Reader) (len : Nat) : Reader := { r with allocated := r.allocated ++ [len] }

theorem readFrameOpt_payload {r₁ : Reader} {len : Nat}
    (hread : readLength r = .ok (some (beBytes 4 len)) r₁) (hlen : len ≤ MAX_FRAME_LEN) :
    readFrameOpt r = (readExact len >>= fun b => pure (some b)) (r₁.alloc len) := by
  have hbound : len < 256 ^ 4 := lt_of_le_of_lt hlen (by decide)
  have hcap : ¬ len > MAX_FRAME_LEN := by omega
  unfold readFrameOpt
  simp only [bind, EStateM.bind, hread, ofBe_beBytes 4 _ hbound, hcap, if_false]
  rfl

theorem readLength_framed {msg rest : Bytes} (hf : ∀ i, r.faults i = none)
    (hleft : r.left = beBytes 4 msg.length ++ rest) :
    ∃ r', readLength r = .ok (some (beBytes 4 msg.length)) r' ∧ r'.left = rest ∧
      r'.faults = r.faults := by
  obtain ⟨r', hread, hpast⟩ := readLength_ok hf (by
    rw [hleft, List.length_append, length_beBytes]
    exact Nat.le_add_right _ _)
  refine ⟨r', ?_, ?_, hpast.faults⟩
  · have htake : (beBytes 4 msg.length ++ rest).take LEN_BYTES = beBytes 4 msg.length :=
      List.take_left' (length_beBytes 4 _)
    rw [hread, hleft, htake]
  · rw [hpast.left, hleft]
    exact List.drop_left' (length_beBytes 4 _)

theorem readFrameOpt_framed {msg rest : Bytes} (hf : ∀ i, r.faults i = none)
    (hleft : r.left = framed msg ++ rest) (hmsg : msg.length ≤ MAX_FRAME_LEN) :
    ∃ r', readFrameOpt r = .ok (some msg) r' ∧ r'.left = rest ∧ r'.faults = r.faults := by
  rw [framed, List.append_assoc] at hleft
  obtain ⟨r₁, hread, hrest, hfaults⟩ := readLength_framed hf hleft
  have hrest' : (r₁.alloc msg.length).left = msg ++ rest := hrest
  obtain ⟨r₂, hpay, hpast⟩ := readExact_ok (r := r₁.alloc msg.length) (n := msg.length)
    (fun i => by rw [show (r₁.alloc msg.length).faults = r.faults from hfaults]; exact hf i)
    (by rw [hrest', List.length_append]; exact Nat.le_add_right _ _)
  refine ⟨r₂, ?_, ?_, hpast.faults.trans hfaults⟩
  · rw [readFrameOpt_payload hread hmsg]
    simp only [bind, EStateM.bind, hpay, hrest', List.take_left]
    rfl
  · rw [hpast.left, hrest', List.drop_left]

theorem readFrameOpt_nil (hf : ∀ i, r.faults i = none) (hleft : r.left = []) :
    ∃ r', readFrameOpt r = .ok none r' := by
  obtain ⟨r', hread⟩ := readLength_ended hf (by simp [hleft, LEN_BYTES])
  rw [if_pos hleft] at hread
  have hread : readLength r = .ok none r' := hread
  refine ⟨r', ?_⟩
  unfold readFrameOpt
  simp only [bind, EStateM.bind, hread]
  rfl

theorem readFrameOpt_cut {msg : Bytes} {k : Nat} (hf : ∀ i, r.faults i = none)
    (hleft : r.left = (framed msg).take k) (hmsg : msg.length ≤ MAX_FRAME_LEN) (hk : 0 < k)
    (hlt : k < (framed msg).length) : ∃ e r', readFrameOpt r = .error e r' := by
  rw [length_framed] at hlt
  rcases Nat.lt_or_ge k LEN_BYTES with hshort | hlong
  · -- In the length prefix.
    have hlen : r.left.length = k := by
      rw [hleft, List.length_take, length_framed]
      omega
    obtain ⟨r', hread⟩ := readLength_ended hf (by omega)
    have hne : r.left ≠ [] := List.length_pos_iff.mp (by omega)
    rw [if_neg hne] at hread
    have hread : readLength r =
      .error (.session "stream ended part-way through a length prefix") r' := hread
    refine ⟨.session "stream ended part-way through a length prefix", r', ?_⟩
    unfold readFrameOpt
    simp only [bind, EStateM.bind, hread]
  · -- In the payload.
    have hcut : r.left = beBytes 4 msg.length ++ msg.take (k - LEN_BYTES) := by
      rw [hleft, framed, List.take_append, length_beBytes, List.take_of_length_le (by
        rw [length_beBytes]
        exact hlong)]
      rfl
    obtain ⟨r₁, hread, hrest, hfaults⟩ := readLength_framed hf hcut
    obtain ⟨r₂, hpay⟩ := readExact_ended (r := r₁.alloc msg.length) (n := msg.length)
      (fun i => by rw [show (r₁.alloc msg.length).faults = r.faults from hfaults]; exact hf i)
      (by
        show r₁.left.length < msg.length
        rw [hrest, List.length_take]
        omega)
    refine ⟨.session "read payload: early eof", r₂, ?_⟩
    rw [readFrameOpt_payload hread hmsg]
    simp only [bind, EStateM.bind, hpay]

/-- Whatever is on the stream, and whatever the transport does: no message and no buffer is
longer than the cap. -/
theorem wp_readFrameOpt (r : Reader) :
    wp readFrameOpt
      (fun o r' => (∀ msg ∈ o, msg.length ≤ MAX_FRAME_LEN) ∧
        ∃ new, r'.allocated = r.allocated ++ new ∧ ∀ n ∈ new, n ≤ MAX_FRAME_LEN)
      (fun _ r' => ∃ new, r'.allocated = r.allocated ++ new ∧ ∀ n ∈ new, n ≤ MAX_FRAME_LEN) r := by
  unfold readFrameOpt
  rw [wp_bind]
  refine wp_mono (wp_fill (Nat.zero_le _)) ?_ fun _ r' h => ⟨[], by simp [h], by simp⟩
  rintro o r₁ ⟨halloc, -⟩
  cases o with
  | none => exact ⟨by simp, [], by simp [halloc], by simp⟩
  | some lenBuf =>
    by_cases hcap : ofBe lenBuf > MAX_FRAME_LEN
    · simp only [hcap, if_true]
      exact ⟨[], by simp [halloc], by simp⟩
    · simp only [hcap, if_false]
      rw [wp_bind, wp_modify, wp_bind]
      refine wp_mono (wp_fill (Nat.zero_le _)) ?_ ?_
      · rintro b r₂ ⟨halloc', hb | ⟨b', hb⟩⟩
        · obtain ⟨b', hlen, rfl⟩ := hb
          refine ⟨?_, [ofBe lenBuf], by rw [halloc', halloc], ?_⟩
          · intro msg hm
            cases hm
            exact le_trans hlen (by omega)
          · intro n hn
            rw [List.mem_singleton.mp hn]
            omega
        · cases hb
      · intro e r₂ halloc'
        refine ⟨[ofBe lenBuf], by rw [halloc', halloc], ?_⟩
        intro n hn
        rw [List.mem_singleton.mp hn]
        omega

end Frames

/-! ## The whole stream -/

/-- Where the `j`th frame begins. -/
def boundary (msgs : List Bytes) (j : Nat) : Nat := ((msgs.take j).flatMap framed).length

theorem boundary_zero (msgs : List Bytes) : boundary msgs 0 = 0 := rfl

theorem boundary_succ (msg : Bytes) (msgs : List Bytes) (j : Nat) :
    boundary (msg :: msgs) (j + 1) = (framed msg).length + boundary msgs j := by
  unfold boundary
  rw [List.take_succ_cons, List.flatMap_cons, List.length_append]

theorem boundary_le (msgs : List Bytes) {i j : Nat} (h : i ≤ j) :
    boundary msgs i ≤ boundary msgs j := by
  unfold boundary
  have hsub : (msgs.take i).Sublist (msgs.take j) := List.take_sublist_take_left h
  exact (hsub.flatMap framed).length_le

theorem boundary_length (msgs : List Bytes) :
    boundary msgs msgs.length = (msgs.flatMap framed).length := by
  rw [boundary, List.take_length]

theorem writeFrames_sent {msgs : List Bytes} {w : Wire} (hf : ∀ i, w.faults i = none)
    (hmsgs : ∀ m ∈ msgs, m.length ≤ MAX_FRAME_LEN) :
    ∃ w', writeFrames msgs w = .ok () w' ∧ w'.sent = w.sent ++ msgs.flatMap framed := by
  induction msgs generalizing w with
  | nil => exact ⟨w, rfl, by simp⟩
  | cons msg msgs ih =>
    have hcap : ¬ msg.length > MAX_FRAME_LEN := by
      have := hmsgs msg List.mem_cons_self
      omega
    obtain ⟨w', hrest, hsent⟩ := ih
      (w := { w with sent := w.sent ++ beBytes 4 msg.length ++ msg, writes := w.writes + 2 }) hf
      fun m hm => hmsgs m (List.mem_cons_of_mem _ hm)
    refine ⟨w', ?_, ?_⟩
    · unfold writeFrames writeFrame
      simp only [hcap, if_false, bind, EStateM.bind, Wire.writeAll, hf, pure, EStateM.pure]
      exact hrest
    · rw [hsent, List.flatMap_cons, framed]
      simp

/-- Reading a stream that was cut after `k` bytes: the frames before the cut, and an error
unless the cut is at a boundary. -/
theorem returns_take {msgs : List Bytes} {r : Reader} {k : Nat} (hf : ∀ i, r.faults i = none)
    (hmsgs : ∀ m ∈ msgs, m.length ≤ MAX_FRAME_LEN) (hleft : r.left = (msgs.flatMap framed).take k) :
    ∃ j e r', j ≤ msgs.length ∧ (∀ i ≤ msgs.length, boundary msgs i ≤ k ↔ i ≤ j) ∧
      Returns r (msgs.take j) e r' ∧
      (e = none ↔ min k (msgs.flatMap framed).length = boundary msgs j) := by
  induction msgs generalizing r k with
  | nil =>
    obtain ⟨r', hread⟩ := readFrameOpt_nil hf (by simpa using hleft)
    refine ⟨0, none, r', le_refl _, ?_, .ended hread, by simp [boundary]⟩
    intro i hi
    simp at hi
    simp [hi, boundary]
  | cons msg msgs ih =>
    have hmsg := hmsgs msg List.mem_cons_self
    have hpos : 0 < (framed msg).length := by
      rw [length_framed]
      exact Nat.add_pos_left (by decide) _
    rw [List.flatMap_cons, List.take_append] at hleft
    rcases Nat.lt_or_ge k (framed msg).length with hlt | hge
    · -- The cut is in the first frame, or before it.
      have hnone : ∀ i ≤ (msg :: msgs).length, boundary (msg :: msgs) i ≤ k ↔ i ≤ 0 := by
        intro i _
        cases i with
        | zero => simp [boundary_zero]
        | succ i =>
          rw [boundary_succ]
          omega
      rw [Nat.sub_eq_zero_of_le (le_of_lt hlt), List.take_zero, List.append_nil] at hleft
      rcases Nat.eq_zero_or_pos k with rfl | hk
      · obtain ⟨r', hread⟩ := readFrameOpt_nil hf (by simpa using hleft)
        exact ⟨0, none, r', Nat.zero_le _, hnone, .ended hread, by simp [boundary_zero]⟩
      · obtain ⟨e, r', hread⟩ := readFrameOpt_cut hf hleft hmsg hk hlt
        refine ⟨0, some e, r', Nat.zero_le _, hnone, .failed hread, ?_⟩
        rw [boundary_zero, List.flatMap_cons, List.length_append]
        constructor
        · intro h
          cases h
        · intro h
          omega
    · rw [List.take_of_length_le hge] at hleft
      obtain ⟨r₁, hread, hrest, hfaults⟩ := readFrameOpt_framed hf hleft hmsg
      obtain ⟨j, e, r', hj, hwhole, hreturns, hend⟩ := ih (k := k - (framed msg).length)
        (by rw [hfaults]; exact hf) (fun m hm => hmsgs m (List.mem_cons_of_mem _ hm)) hrest
      refine ⟨j + 1, e, r', Nat.succ_le_succ hj, ?_, .more hread hreturns, ?_⟩
      · intro i hi
        cases i with
        | zero => simp [boundary_zero]
        | succ i =>
          have := hwhole i (by simpa using hi)
          rw [boundary_succ]
          omega
      · rw [hend, boundary_succ, List.flatMap_cons, List.length_append]
        omega

/-- **Framing.** What was written is read back, message by message, however the stream is split
up; a stream cut short gives the messages before the cut and then an error, or the end if
the cut is at a boundary. No stream makes the reader return, or allocate, more than the cap,
and a message over it is not written at all. -/
theorem framing_faithful :
    (∀ (msgs : List Bytes) (w : Wire), (∀ i, w.faults i = none) →
      (∀ m ∈ msgs, m.length ≤ MAX_FRAME_LEN) →
      ∃ w' stream, writeFrames msgs w = .ok () w' ∧ w'.sent = w.sent ++ stream ∧
        (∀ sizes, ∃ r', Returns ⟨stream, sizes, fun _ => none, 0, []⟩ msgs none r') ∧
        ∀ sizes k, k ≤ stream.length → ∃ j e r', j ≤ msgs.length ∧
          Returns ⟨stream.take k, sizes, fun _ => none, 0, []⟩ (msgs.take j) e r' ∧
          (∀ i ≤ msgs.length, boundary msgs i ≤ k ↔ i ≤ j) ∧
          (e = none ↔ ∃ i ≤ msgs.length, k = boundary msgs i)) ∧
    (∀ r : Reader, wp readFrameOpt
      (fun o r' => (∀ msg ∈ o, msg.length ≤ MAX_FRAME_LEN) ∧
        ∃ new, r'.allocated = r.allocated ++ new ∧ ∀ n ∈ new, n ≤ MAX_FRAME_LEN)
      (fun _ r' => ∃ new, r'.allocated = r.allocated ++ new ∧ ∀ n ∈ new, n ≤ MAX_FRAME_LEN) r) ∧
    ∀ (msg : Bytes) (w : Wire), MAX_FRAME_LEN < msg.length → ∃ e, writeFrame msg w = .error e w := by
  refine ⟨?_, wp_readFrameOpt, ?_⟩
  · intro msgs w hf hmsgs
    obtain ⟨w', hwrite, hsent⟩ := writeFrames_sent hf hmsgs
    refine ⟨w', msgs.flatMap framed, hwrite, hsent, ?_, ?_⟩
    · intro sizes
      obtain ⟨j, e, r', hj, hwhole, hreturns, hend⟩ := returns_take
        (k := (msgs.flatMap framed).length)
        (r := ⟨msgs.flatMap framed, sizes, fun _ => none, 0, []⟩) (fun _ => rfl) hmsgs
        (List.take_length).symm
      have hall : j = msgs.length :=
        le_antisymm hj ((hwhole _ (le_refl _)).mp (le_of_eq (boundary_length msgs)))
      subst hall
      rw [List.take_length] at hreturns
      have : e = none := hend.mpr (by rw [boundary_length, min_self])
      rw [this] at hreturns
      exact ⟨r', hreturns⟩
    · intro sizes k hk
      obtain ⟨j, e, r', hj, hwhole, hreturns, hend⟩ := returns_take (k := k)
        (r := ⟨(msgs.flatMap framed).take k, sizes, fun _ => none, 0, []⟩) (fun _ => rfl) hmsgs rfl
      refine ⟨j, e, r', hj, hreturns, hwhole, ?_⟩
      rw [hend, min_eq_left hk]
      constructor
      · intro h
        exact ⟨j, hj, h⟩
      · rintro ⟨i, hi, rfl⟩
        -- The boundary at the cut is the last one before it.
        have hij := (hwhole i hi).mp (le_refl _)
        exact le_antisymm (boundary_le msgs hij) ((hwhole j hj).mpr (le_refl _))
  · intro msg w hmsg
    refine ⟨.session s!"outbound frame too large: {msg.length} > {MAX_FRAME_LEN}", ?_⟩
    unfold writeFrame
    rw [if_pos hmsg]
    rfl

end AtomVault.Transfer
