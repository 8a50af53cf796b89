import AtomVault.Live.Blind
import Mathlib.Data.List.Infix

/-!
# Responses of a blind endpoint (`blind.rs`)

A response arrives in pieces, and its limits are tested on what has arrived. A limit that lies
inside a piece is not seen.
-/

open Lib

namespace AtomVault.Live

/-- How the standard library prints bytes that may not be text, and text in quotes. -/
structure Printing where
  lossy : Bytes → Text
  debug : Text → String

namespace Response

def MAX_HEADER_BYTES : Nat := 8 * 1024
def MAX_BODY_BYTES : Nat := SEALED_LEN * 2
/-- The length of the array that is read into. -/
def CHUNK_LEN : Nat := 1024
def BLANK_LINE : Bytes := [13, 10, 13, 10]

def findSubslice (needle : Bytes) : Bytes → Option Nat
  | [] => none
  | x :: rest => if needle <+: x :: rest then some 0 else (findSubslice needle rest).map (· + 1)

/-! ## Headers -/

/-- One turn of the loop before it reads: where the headers end, or that they are too long. -/
def headerTurn (buf : Bytes) : Option (Except Error Nat) :=
  match findSubslice BLANK_LINE buf with
  | some pos => some (.ok (pos + 4))
  | none =>
    if buf.length > MAX_HEADER_BYTES then
      some (.error (.discovery "response headers exceeded the size limit"))
    else none

/-- The end of the headers, the buffer, and the pieces that were not read. -/
def readHeaders (buf : Bytes) : List Bytes → Except Error (Nat × Bytes × List Bytes)
  | [] =>
    match headerTurn buf with
    | some r => r.map fun headerEnd => (headerEnd, buf, [])
    | none => .error (.discovery
        "the endpoint closed the connection before sending a complete response")
  | chunk :: chunks =>
    match headerTurn buf with
    | some r => r.map fun headerEnd => (headerEnd, buf, chunk :: chunks)
    | none => readHeaders (buf ++ chunk) chunks

structure Head where
  status : UInt16
  contentLength : Option Nat
  chunked : Bool

def splitLines : Text → List Text
  | [] => [[]]
  | [c] => [[c]]
  | c :: d :: rest =>
    if c = '\r' ∧ d = '\n' then [] :: splitLines rest
    else match splitLines (d :: rest) with
      | [] => [[c]]
      | line :: lines => (c :: line) :: lines

def parseUsize (s : Text) : Option Nat :=
  let digits : Text := match s with
    | '+' :: rest => rest
    | _ => s
  let value := digits.foldl (fun n d => 10 * n + (d.toNat - 48)) 0
  if digits ≠ [] ∧ digits.all Char.isDigit = true ∧ value < 2 ^ 64 then some value else none

section Reading

variable (u : Unicode) (pr : Printing)

def splitWhitespace (s : Text) : List Text :=
  (s.splitOnP u.isWhitespace).filter (· ≠ [])

def headerLine (h : Head) (line : Text) : Head :=
  match splitOnce ':' line with
  | none => h
  | some (name, value) =>
    let name := (u.trim name).map Char.toLower
    if name = "content-length".toList then { h with contentLength := parseUsize (u.trim value) }
    else if name = "transfer-encoding".toList ∧ "chunked".toList <:+: value.map Char.toLower then
      { h with chunked := true }
    else h

def readHead (headers : Text) : Except Error Head :=
  match splitLines headers with
  | [] => .error (.discovery "empty response")
  | statusLine :: lines =>
    match (splitWhitespace u statusLine)[1]?.bind parseU16 with
    | none => .error (.discovery s!"unintelligible status line: {pr.debug statusLine}")
    | some status => .ok (lines.foldl (headerLine u) ⟨status, none, false⟩)

/-! ## The body -/

def readBody (len : Nat) (body : Bytes) : List Bytes → Except Error Bytes
  | [] =>
    if body.length < len then
      .error (.discovery "the endpoint closed the connection mid-body")
    else .ok (body.take len)
  | chunk :: chunks =>
    if body.length < len then
      let body := body ++ chunk
      if body.length > MAX_BODY_BYTES then
        .error (.discovery "response body exceeded the limit")
      else readBody len body chunks
    else .ok (body.take len)

def finish (h : Head) (body : Bytes) (chunks : List Bytes) : Except Error (UInt16 × Bytes) :=
  if h.chunked = true then
    .error (.discovery ("the endpoint replied with chunked transfer encoding, which this client " ++
      "does not accept — configure it to send a Content-Length"))
  else match h.contentLength with
    | some len =>
      if len > MAX_BODY_BYTES then
        .error (.discovery (s!"the endpoint declared a {len}-byte body, " ++
          s!"past the {MAX_BODY_BYTES}-byte limit"))
      else (readBody len body chunks).map fun body => (h.status, body)
    | none =>
      if h.status = 200 then
        .error (.discovery "the endpoint returned a body with no Content-Length")
      else .ok (h.status, [])

/-- The pieces are what each read returns. After the last one the stream is at its end. -/
def readResponse (chunks : List Bytes) : Except Error (UInt16 × Bytes) := do
  let (headerEnd, buf, rest) ← readHeaders [] chunks
  let h ← readHead u pr (pr.lossy (buf.take headerEnd))
  finish h (buf.drop headerEnd) rest

end Reading

/-! ## Pieces of a stream -/

/-- The pieces that a stream may be read in. -/
structure Pieces (s : Bytes) (chunks : List Bytes) : Prop where
  flatten : chunks.flatten = s
  sized : ∀ chunk ∈ chunks, chunk ≠ [] ∧ chunk.length ≤ CHUNK_LEN

def singles (s : Bytes) : List Bytes := s.map fun x => [x]

theorem flatten_singles (s : Bytes) : (singles s).flatten = s := by
  induction s with
  | nil => rfl
  | cons x s ih =>
    show x :: (singles s).flatten = x :: s
    rw [ih]

theorem pieces_singles (s : Bytes) : Pieces s (singles s) := by
  refine ⟨flatten_singles s, fun chunk hchunk => ?_⟩
  obtain ⟨x, -, rfl⟩ := List.mem_map.mp hchunk
  exact ⟨by simp, Nat.le_of_ble_eq_true rfl⟩

theorem pieces_one {p : Bytes} (hne : p ≠ []) (hlen : p.length ≤ CHUNK_LEN) : Pieces p [p] := by
  refine ⟨by simp, fun chunk hchunk => ?_⟩
  rw [List.mem_singleton.mp hchunk]
  exact ⟨hne, hlen⟩

theorem Pieces.append {s t : Bytes} {ps qs : List Bytes} (hs : Pieces s ps) (ht : Pieces t qs) :
    Pieces (s ++ t) (ps ++ qs) := by
  refine ⟨by rw [List.flatten_append, hs.flatten, ht.flatten], fun chunk hchunk => ?_⟩
  rcases List.mem_append.mp hchunk with h | h
  · exact hs.sized chunk h
  · exact ht.sized chunk h

/-! ## The end of the headers -/

section Find

variable {needle buf more : Bytes} {pos : Nat}

theorem length_of_findSubslice (h : findSubslice needle buf = some pos) :
    pos + needle.length ≤ buf.length := by
  induction buf generalizing pos with
  | nil => cases h
  | cons x buf ih =>
    unfold findSubslice at h
    split at h
    · rename_i hpre
      cases h
      simpa using hpre.length_le
    · obtain ⟨p, hp, rfl⟩ := Option.map_eq_some_iff.mp h
      have := ih hp
      simp only [List.length_cons]
      omega

theorem findSubslice_append (h : findSubslice needle buf = some pos) (more : Bytes) :
    findSubslice needle (buf ++ more) = some pos := by
  induction buf generalizing pos with
  | nil => cases h
  | cons x buf ih =>
    unfold findSubslice at h
    rw [List.cons_append, findSubslice]
    split at h
    · rename_i hpre
      cases h
      exact if_pos (hpre.trans (List.prefix_append (x :: buf) more))
    · rename_i hpre
      obtain ⟨p, hp, rfl⟩ := Option.map_eq_some_iff.mp h
      have hlen := length_of_findSubslice hp
      have hnot : ¬needle <+: x :: (buf ++ more) := by
        intro hlong
        refine hpre (List.prefix_of_prefix_length_le hlong
          (List.prefix_append (x :: buf) more) ?_)
        simp only [List.length_cons]
        omega
      rw [if_neg hnot, ih hp]
      rfl

theorem findSubslice_of_append (h : findSubslice needle (buf ++ more) = some pos)
    (hfits : pos + needle.length ≤ buf.length) (hne : needle ≠ []) :
    findSubslice needle buf = some pos := by
  cases hbuf : findSubslice needle buf with
  | some p =>
    have := findSubslice_append hbuf more
    rw [h] at this
    exact this.symm
  | none =>
    exfalso
    induction buf generalizing pos with
    | nil =>
      have := List.length_pos_iff.mpr hne
      simp only [List.length_nil] at hfits
      omega
    | cons x buf ih =>
      unfold findSubslice at hbuf
      rw [List.cons_append, findSubslice] at h
      split at hbuf
      · cases hbuf
      · rename_i hpre
        have hbuf := Option.map_eq_none_iff.mp hbuf
        split at h
        · rename_i hlong
          cases h
          refine hpre (List.prefix_of_prefix_length_le hlong
            (List.prefix_append (x :: buf) more) ?_)
          omega
        · obtain ⟨p, hp, rfl⟩ := Option.map_eq_some_iff.mp h
          simp only [List.length_cons] at hfits
          exact ih hp (by omega) hbuf

end Find

/-- Where the headers of a stream end: behind its first blank line. -/
def endOfHead (s : Bytes) : Option Nat := (findSubslice BLANK_LINE s).map (· + 4)

section Turn

variable {buf more : Bytes} {headEnd : Nat}

theorem turn_found (h : endOfHead (buf ++ more) = some headEnd) (hle : headEnd ≤ buf.length) :
    headerTurn buf = some (.ok headEnd) := by
  obtain ⟨pos, hpos, rfl⟩ := Option.map_eq_some_iff.mp h
  unfold headerTurn
  rw [findSubslice_of_append hpos hle (by decide)]

theorem notFound (h : endOfHead (buf ++ more) = some headEnd) (hlt : buf.length < headEnd) :
    findSubslice BLANK_LINE buf = none := by
  obtain ⟨pos, hpos, rfl⟩ := Option.map_eq_some_iff.mp h
  cases hbuf : findSubslice BLANK_LINE buf with
  | none => rfl
  | some p =>
    have hlen := length_of_findSubslice hbuf
    have hsame := findSubslice_append hbuf more
    rw [hpos] at hsame
    cases hsame
    have : BLANK_LINE.length = 4 := rfl
    omega

theorem turn_short (h : endOfHead (buf ++ more) = some headEnd) (hlt : buf.length < headEnd)
    (hshort : buf.length ≤ MAX_HEADER_BYTES) : headerTurn buf = none := by
  unfold headerTurn
  rw [notFound h hlt]
  exact if_neg (not_lt.mpr hshort)

theorem turn_long (h : endOfHead (buf ++ more) = some headEnd) (hlt : buf.length < headEnd)
    (hlong : MAX_HEADER_BYTES < buf.length) : ∃ e, headerTurn buf = some (.error e) := by
  unfold headerTurn
  rw [notFound h hlt]
  exact ⟨_, if_pos hlong⟩

theorem endOfHead_of_turn (h : headerTurn buf = some (.ok headEnd)) (more : Bytes) :
    endOfHead (buf ++ more) = some headEnd ∧ headEnd ≤ buf.length := by
  unfold headerTurn at h
  split at h
  · rename_i pos hpos
    cases h
    exact ⟨Option.map_eq_some_iff.mpr ⟨pos, findSubslice_append hpos more, rfl⟩,
      length_of_findSubslice hpos⟩
  · split at h
    · cases h
    · cases h

end Turn

/-! ## Reading the headers -/

section Headers

variable {buf buf' : Bytes} {chunks rest : List Bytes} {headEnd : Nat}

theorem length_of_turn (h : headerTurn buf = none) : buf.length ≤ MAX_HEADER_BYTES := by
  unfold headerTurn at h
  split at h
  · cases h
  · split at h
    · cases h
    · rename_i hlen
      exact not_lt.mp hlen

/-- What the loop leaves: the headers are in the buffer, and nothing is lost. -/
theorem readHeaders_eq_ok (h : readHeaders buf chunks = .ok (headEnd, buf', rest))
    (hsized : ∀ c ∈ chunks, c.length ≤ CHUNK_LEN)
    (hbuf : buf.length ≤ MAX_HEADER_BYTES + CHUNK_LEN) :
    endOfHead (buf ++ chunks.flatten) = some headEnd ∧ headEnd ≤ buf'.length ∧
      buf'.length ≤ MAX_HEADER_BYTES + CHUNK_LEN ∧
      buf' ++ rest.flatten = buf ++ chunks.flatten ∧ rest ⊆ chunks := by
  induction chunks generalizing buf with
  | nil =>
    unfold readHeaders at h
    split at h
    · rename_i r hturn
      cases r with
      | error e => cases h
      | ok headEnd =>
        cases h
        obtain ⟨hend, hle⟩ := endOfHead_of_turn hturn []
        exact ⟨hend, hle, hbuf, rfl, List.Subset.refl _⟩
    · cases h
  | cons chunk chunks ih =>
    unfold readHeaders at h
    split at h
    · rename_i r hturn
      cases r with
      | error e => cases h
      | ok headEnd =>
        cases h
        obtain ⟨hend, hle⟩ := endOfHead_of_turn hturn (chunk :: chunks).flatten
        exact ⟨hend, hle, hbuf, rfl, List.Subset.refl _⟩
    · rename_i hturn
      have hshort := length_of_turn hturn
      have hchunk := hsized chunk List.mem_cons_self
      obtain ⟨hend, hle, hmax, hflat, hsub⟩ := ih h
        (fun c hc => hsized c (List.mem_cons_of_mem _ hc)) (by rw [List.length_append]; omega)
      rw [List.append_assoc] at hend hflat
      exact ⟨hend, hle, hmax, hflat, List.Subset.trans hsub (List.subset_cons_self _ _)⟩

theorem readHeaders_found (hend : endOfHead (buf ++ chunks.flatten) = some headEnd)
    (hle : headEnd ≤ buf.length) : readHeaders buf chunks = .ok (headEnd, buf, chunks) := by
  cases chunks with
  | nil =>
    unfold readHeaders
    rw [turn_found hend hle]
    rfl
  | cons chunk chunks =>
    unfold readHeaders
    rw [turn_found hend hle]
    rfl

theorem readHeaders_soon (hend : endOfHead (buf ++ chunks.flatten) = some headEnd)
    (hsoon : headEnd ≤ MAX_HEADER_BYTES + 1) :
    ∃ buf' rest, readHeaders buf chunks = .ok (headEnd, buf', rest) := by
  induction chunks generalizing buf with
  | nil =>
    have hle : headEnd ≤ buf.length := by
      obtain ⟨pos, hpos, rfl⟩ := Option.map_eq_some_iff.mp hend
      have hlen := length_of_findSubslice hpos
      rwa [List.flatten_nil, List.append_nil] at hlen
    exact ⟨buf, [], readHeaders_found hend hle⟩
  | cons chunk chunks ih =>
    by_cases hle : headEnd ≤ buf.length
    · exact ⟨buf, chunk :: chunks, readHeaders_found hend hle⟩
    · unfold readHeaders
      rw [turn_short hend (by omega) (by omega)]
      rw [List.flatten_cons, ← List.append_assoc] at hend
      exact ih hend

theorem readHeaders_append {ps qs : List Bytes}
    (hend : endOfHead (buf ++ (ps ++ qs).flatten) = some headEnd)
    (hlt : (buf ++ ps.flatten).length < headEnd)
    (hshort : (buf ++ ps.flatten).length ≤ MAX_HEADER_BYTES) :
    readHeaders buf (ps ++ qs) = readHeaders (buf ++ ps.flatten) qs := by
  induction ps generalizing buf with
  | nil => rw [List.flatten_nil, List.append_nil, List.nil_append]
  | cons p ps ih =>
    simp only [List.flatten_cons, List.cons_append, List.length_append] at hend hlt hshort ⊢
    rw [readHeaders, turn_short hend (by omega) (by omega), ← List.append_assoc]
    refine ih ?_ ?_ ?_
    · rwa [List.append_assoc]
    · simp only [List.length_append]
      omega
    · simp only [List.length_append]
      omega

end Headers

/-! ## Reading the body -/

section Body

variable {body b : Bytes} {chunks : List Bytes} {len : Nat}

theorem readBody_eq_ok (h : readBody len body chunks = .ok b) :
    len ≤ (body ++ chunks.flatten).length ∧ b = (body ++ chunks.flatten).take len := by
  induction chunks generalizing body with
  | nil =>
    unfold readBody at h
    rw [List.flatten_nil, List.append_nil]
    split at h
    · cases h
    · rename_i hlen
      cases h
      exact ⟨not_lt.mp hlen, rfl⟩
  | cons chunk chunks ih =>
    unfold readBody at h
    split at h
    · simp only at h
      split at h
      · cases h
      · have := ih h
        rwa [List.append_assoc] at this
    · rename_i hlen
      cases h
      rw [List.take_append_of_le_length (by omega), List.length_append]
      exact ⟨by omega, rfl⟩

/-- A body that is short enough, or at the end of a short enough stream, is read in any pieces of
at most `m` bytes. -/
theorem readBody_any {m : Nat} (hsized : ∀ c ∈ chunks, c.length ≤ m)
    (hlen : len ≤ (body ++ chunks.flatten).length)
    (hlimit : len + m ≤ MAX_BODY_BYTES + 1 ∨
      (body ++ chunks.flatten).length ≤ MAX_BODY_BYTES) :
    readBody len body chunks = .ok ((body ++ chunks.flatten).take len) := by
  induction chunks generalizing body with
  | nil =>
    rw [List.flatten_nil, List.append_nil] at hlen ⊢
    unfold readBody
    rw [if_neg (not_lt.mpr hlen)]
  | cons chunk chunks ih =>
    unfold readBody
    by_cases hmore : body.length < len
    · have hchunk := hsized chunk List.mem_cons_self
      have hfits : ¬(body ++ chunk).length > MAX_BODY_BYTES := by
        simp only [List.flatten_cons, List.length_append] at hlimit ⊢
        omega
      rw [if_pos hmore]
      simp only [if_neg hfits]
      rw [List.flatten_cons, ← List.append_assoc] at hlen hlimit ⊢
      exact ih (fun c hc => hsized c (List.mem_cons_of_mem _ hc)) hlen hlimit
    · rw [if_neg hmore, List.take_append_of_le_length (not_lt.mp hmore)]

theorem readBody_singles {t : Bytes} (hlen : len ≤ t.length) (hmax : len ≤ MAX_BODY_BYTES) :
    readBody len [] (singles t) = .ok (t.take len) := by
  have hsized : ∀ c ∈ singles t, c.length ≤ 1 := by
    intro c hc
    obtain ⟨x, -, rfl⟩ := List.mem_map.mp hc
    exact le_rfl
  have hflat : ([] ++ (singles t).flatten : Bytes) = t := by
    rw [List.nil_append, flatten_singles]
  have hany : readBody len [] (singles t) = .ok (([] ++ (singles t).flatten).take len) :=
    readBody_any hsized (by rwa [hflat]) (.inl (by omega))
  rwa [hflat] at hany

theorem readBody_append {ps qs : List Bytes} (hlt : (body ++ ps.flatten).length < len)
    (hmax : len ≤ MAX_BODY_BYTES) :
    readBody len body (ps ++ qs) = readBody len (body ++ ps.flatten) qs := by
  induction ps generalizing body with
  | nil => rw [List.flatten_nil, List.append_nil, List.nil_append]
  | cons p ps ih =>
    simp only [List.flatten_cons, List.cons_append, List.length_append] at hlt ⊢
    rw [readBody, if_pos (by omega)]
    simp only
    rw [if_neg (by rw [List.length_append]; omega), ← List.append_assoc]
    refine ih ?_
    simp only [List.length_append]
    omega

end Body

/-- The length of the body that is waited for. No length, with another status, is no body. -/
def Head.bodyLen (h : Head) : Option Nat :=
  if h.chunked = true then none
  else match h.contentLength with
    | some len => if len > MAX_BODY_BYTES then none else some len
    | none => if h.status = 200 then none else some 0

theorem bodyLen_eq {h : Head} {len : Nat} (hlen : h.bodyLen = some len) :
    h.contentLength.getD 0 = len ∧ len ≤ MAX_BODY_BYTES := by
  unfold Head.bodyLen at hlen
  split at hlen
  · cases hlen
  · split at hlen
    · rename_i hsize
      split at hlen
      · cases hlen
      · rename_i hmax
        cases hlen
        rw [hsize]
        exact ⟨rfl, not_lt.mp hmax⟩
    · rename_i hsize
      split at hlen
      · cases hlen
      · cases hlen
        rw [hsize]
        exact ⟨rfl, Nat.zero_le _⟩

theorem readBody_zero (body : Bytes) (chunks : List Bytes) : readBody 0 body chunks = .ok [] := by
  cases chunks <;> simp [readBody]

theorem finish_eq (h : Head) (body : Bytes) (chunks : List Bytes) :
    match h.bodyLen with
    | none => ∃ e, finish h body chunks = .error e
    | some len => finish h body chunks = (readBody len body chunks).map fun b => (h.status, b) := by
  unfold finish Head.bodyLen
  by_cases hchunked : h.chunked = true
  · rw [if_pos hchunked, if_pos hchunked]
    exact ⟨_, rfl⟩
  · rw [if_neg hchunked, if_neg hchunked]
    cases h.contentLength with
    | some len =>
      by_cases hmax : len > MAX_BODY_BYTES
      · simp only [if_pos hmax]
        exact ⟨_, rfl⟩
      · simp only [if_neg hmax]
    | none =>
      by_cases hok : h.status = 200
      · simp only [if_pos hok]
        exact ⟨_, rfl⟩
      · simp only [if_neg hok, readBody_zero]
        rfl

/-! ## Which streams are read alike in all pieces -/

section Outcome

variable {u : Unicode} {pr : Printing} {s buf : Bytes} {chunks rest : List Bytes}
  {headEnd len : Nat} {h : Head}

/-- The stream holds a response: its headers end here, they are in order, and the body they ask for
is there. -/
structure Acceptable (u : Unicode) (pr : Printing) (s : Bytes) (headEnd : Nat) (h : Head)
    (len : Nat) : Prop where
  ends : endOfHead s = some headEnd
  head : readHead u pr (pr.lossy (s.take headEnd)) = .ok h
  asks : h.bodyLen = some len
  enough : headEnd + len ≤ s.length

theorem readResponse_of_headers (hread : readHeaders [] chunks = .ok (headEnd, buf, rest))
    (hflat : buf ++ rest.flatten = s) (hle : headEnd ≤ buf.length)
    (hhead : readHead u pr (pr.lossy (s.take headEnd)) = .ok h) :
    readResponse u pr chunks = finish h (buf.drop headEnd) rest := by
  have htake : buf.take headEnd = s.take headEnd := by
    rw [← hflat, List.take_append_of_le_length hle]
  unfold readResponse
  rw [hread]
  simp only [bind, Except.bind, htake, hhead]

theorem drop_of_headers (hflat : buf ++ rest.flatten = s) (hle : headEnd ≤ buf.length) :
    buf.drop headEnd ++ rest.flatten = s.drop headEnd := by
  rw [← hflat, List.drop_append_of_le_length hle]

theorem readResponse_eq_ok (hp : Pieces s chunks) {r : UInt16 × Bytes}
    (hread : readResponse u pr chunks = .ok r) : ∃ headEnd h len, Acceptable u pr s headEnd h len ∧
      headEnd ≤ MAX_HEADER_BYTES + CHUNK_LEN ∧ r = (h.status, slice s headEnd len) := by
  have hwhole := hread
  unfold readResponse at hread
  obtain ⟨⟨headEnd, buf, rest⟩, hheaders, h₁⟩ := of_bind_eq_ok hread
  obtain ⟨h, hhead, h₂⟩ := of_bind_eq_ok h₁
  obtain ⟨hend, hle, hmax, hflat, -⟩ := readHeaders_eq_ok hheaders
    (fun c hc => (hp.sized c hc).2) (Nat.zero_le _)
  rw [List.nil_append, hp.flatten] at hend hflat
  have htake : buf.take headEnd = s.take headEnd := by
    rw [← hflat, List.take_append_of_le_length hle]
  rw [htake] at hhead
  have hfinish := finish_eq h (buf.drop headEnd) rest
  cases hasks : h.bodyLen with
  | none =>
    rw [hasks] at hfinish
    obtain ⟨e, he⟩ := hfinish
    rw [he] at h₂
    cases h₂
  | some len =>
    rw [hasks] at hfinish
    simp only at hfinish h₂
    rw [hfinish] at h₂
    cases hbody : readBody len (buf.drop headEnd) rest with
    | error e =>
      rw [hbody] at h₂
      cases h₂
    | ok b =>
      rw [hbody] at h₂
      cases h₂
      obtain ⟨hlen, rfl⟩ := readBody_eq_ok hbody
      rw [drop_of_headers hflat hle] at hlen ⊢
      rw [List.length_drop] at hlen
      refine ⟨headEnd, h, len, ⟨hend, hhead, hasks, ?_⟩, hle.trans hmax, rfl⟩
      have : headEnd ≤ s.length := by
        rw [← hflat, List.length_append]
        omega
      omega

theorem readResponse_any (ha : Acceptable u pr s headEnd h len)
    (hsoon : headEnd ≤ MAX_HEADER_BYTES + 1)
    (hlimit : len + CHUNK_LEN ≤ MAX_BODY_BYTES + 1 ∨ s.length ≤ headEnd + MAX_BODY_BYTES)
    (hp : Pieces s chunks) : readResponse u pr chunks = .ok (h.status, slice s headEnd len) := by
  have hends := ha.ends
  have henough := ha.enough
  have hsized : ∀ c ∈ chunks, c.length ≤ CHUNK_LEN := fun c hc => (hp.sized c hc).2
  have hstart : endOfHead ([] ++ chunks.flatten) = some headEnd := by
    rwa [List.nil_append, hp.flatten]
  obtain ⟨buf, rest, hheaders⟩ := readHeaders_soon hstart hsoon
  obtain ⟨-, hle, -, hflat, hsub⟩ := readHeaders_eq_ok hheaders hsized (Nat.zero_le _)
  rw [List.nil_append, hp.flatten] at hflat
  have hdrop := drop_of_headers hflat hle
  have hbody : readBody len (buf.drop headEnd) rest =
      .ok ((buf.drop headEnd ++ rest.flatten).take len) := by
    refine readBody_any (fun c hc => hsized c (hsub hc)) ?_ ?_
    · rw [hdrop, List.length_drop]
      omega
    · rw [hdrop, List.length_drop]
      omega
  have hfinish := finish_eq h (buf.drop headEnd) rest
  rw [ha.asks] at hfinish
  simp only at hfinish
  rw [readResponse_of_headers hheaders hflat hle ha.head, hfinish, hbody, hdrop]
  rfl

theorem take_slice_drop (s : Bytes) {k n : Nat} (h : k ≤ n) :
    s.take k ++ (slice s k (n - k) ++ s.drop n) = s := by
  have hhead : s.take k ++ slice s k (n - k) = s.take n := by
    have := List.take_add (l := s) (i := k) (j := n - k)
    rwa [Nat.add_sub_cancel' h, eq_comm] at this
  rw [← List.append_assoc, hhead, List.take_append_drop]

theorem take_slice (s : Bytes) {k n : Nat} (h : k ≤ n) : s.take k ++ slice s k (n - k) = s.take n := by
  have hsplit := take_slice_drop s h
  have hwhole := List.take_append_drop n s
  rw [← List.append_assoc] at hsplit
  exact List.append_cancel_right (hsplit.trans hwhole.symm)

theorem le_of_endOfHead (h : endOfHead s = some headEnd) : 4 ≤ headEnd ∧ headEnd ≤ s.length := by
  obtain ⟨pos, hpos, rfl⟩ := Option.map_eq_some_iff.mp h
  exact ⟨Nat.le_add_left 4 pos, length_of_findSubslice hpos⟩

theorem readHeaders_singles {k : Nat} (hends : endOfHead s = some headEnd) (hk : k < headEnd)
    (hshort : k ≤ MAX_HEADER_BYTES) {p : Bytes} {qs : List Bytes}
    (hflat : s.take k ++ (p ++ qs.flatten) = s) :
    readHeaders [] (singles (s.take k) ++ (p :: qs)) = readHeaders (s.take k ++ p) qs := by
  have hle := (le_of_endOfHead hends).2
  have hlen : (s.take k).length = k := List.length_take_of_le (by omega)
  have hstart : endOfHead ([] ++ (singles (s.take k) ++ (p :: qs)).flatten) = some headEnd := by
    rw [List.nil_append, List.flatten_append, flatten_singles, List.flatten_cons, hflat]
    exact hends
  have hmid : endOfHead (s.take k ++ (p :: qs).flatten) = some headEnd := by
    rw [List.flatten_cons, hflat]
    exact hends
  have hreached : ([] ++ (singles (s.take k)).flatten : Bytes) = s.take k := by
    rw [List.nil_append, flatten_singles]
  rw [readHeaders_append hstart (by rw [hreached]; omega) (by rw [hreached]; omega), hreached,
    readHeaders, turn_short hmid (by omega) (by omega)]

theorem readHeaders_jump {k : Nat} (hends : endOfHead s = some headEnd) (hk : k < headEnd)
    (hshort : k ≤ MAX_HEADER_BYTES) {qs : List Bytes} (hqs : qs.flatten = s.drop headEnd) :
    readHeaders [] (singles (s.take k) ++ (slice s k (headEnd - k) :: qs)) =
      .ok (headEnd, s.take headEnd, qs) := by
  rw [readHeaders_singles hends hk hshort (by rw [hqs, take_slice_drop s hk.le]), take_slice s hk.le]
  refine readHeaders_found ?_ ?_
  · rwa [hqs, List.take_append_drop]
  · rw [List.length_take_of_le (le_of_endOfHead hends).2]

theorem pieces_jump {k n : Nat} (hk : k < n) (hn : n ≤ s.length) (hlen : n - k ≤ CHUNK_LEN)
    {qs : List Bytes} (hqs : Pieces (s.drop n) qs) :
    Pieces s (singles (s.take k) ++ (slice s k (n - k) :: qs)) := by
  have hslice : (slice s k (n - k)).length = n - k := length_slice _ _ _ (by omega)
  have hone := pieces_one (List.ne_nil_of_length_pos (by omega : 0 < (slice s k (n - k)).length))
    (by omega)
  have hall := (pieces_singles (s.take k)).append (hone.append hqs)
  rwa [take_slice_drop s hk.le] at hall

theorem readResponse_some (ha : Acceptable u pr s headEnd h len)
    (hmax : headEnd ≤ MAX_HEADER_BYTES + CHUNK_LEN) : ∃ chunks, Pieces s chunks ∧
      readResponse u pr chunks = .ok (h.status, slice s headEnd len) := by
  obtain ⟨hfour, hle⟩ := le_of_endOfHead ha.ends
  have henough := ha.enough
  obtain ⟨k, hk, hshort, hjump⟩ : ∃ k, k < headEnd ∧ k ≤ MAX_HEADER_BYTES ∧
      headEnd - k ≤ CHUNK_LEN := by
    refine ⟨min MAX_HEADER_BYTES (headEnd - 1), by omega, Nat.min_le_left _ _, ?_⟩
    have : 1 ≤ CHUNK_LEN := Nat.le_of_ble_eq_true rfl
    omega
  have hbody : readBody len [] (singles (s.drop headEnd)) = .ok (slice s headEnd len) :=
    readBody_singles (by rw [List.length_drop]; omega) (bodyLen_eq ha.asks).2
  have hfinish := finish_eq h [] (singles (s.drop headEnd))
  rw [ha.asks] at hfinish
  simp only at hfinish
  refine ⟨_, pieces_jump hk hle hjump (pieces_singles _), ?_⟩
  have hheaders := readHeaders_jump ha.ends hk hshort (flatten_singles (s.drop headEnd))
  have hdrop : (s.take headEnd).drop headEnd = [] := by
    rw [List.drop_eq_nil_iff, List.length_take]
    omega
  rw [readResponse_of_headers hheaders (by rw [flatten_singles, List.take_append_drop])
    (by rw [List.length_take_of_le hle]) ha.head, hdrop, hfinish, hbody]
  rfl

theorem readResponse_late (hends : endOfHead s = some headEnd)
    (hlate : MAX_HEADER_BYTES + 1 < headEnd) :
    ∃ chunks e, Pieces s chunks ∧ readResponse u pr chunks = .error e := by
  obtain ⟨-, hle⟩ := le_of_endOfHead hends
  have hlen : (s.take (MAX_HEADER_BYTES + 1)).length = MAX_HEADER_BYTES + 1 :=
    List.length_take_of_le (by omega)
  have hk : MAX_HEADER_BYTES < MAX_HEADER_BYTES + 1 := Nat.lt_succ_self _
  have hone : MAX_HEADER_BYTES + 1 - MAX_HEADER_BYTES ≤ CHUNK_LEN := Nat.le_of_ble_eq_true rfl
  have hflat : s.take MAX_HEADER_BYTES ++
      (slice s MAX_HEADER_BYTES (MAX_HEADER_BYTES + 1 - MAX_HEADER_BYTES) ++
        (singles (s.drop (MAX_HEADER_BYTES + 1))).flatten) = s := by
    rw [flatten_singles, take_slice_drop s hk.le]
  have hheaders := readHeaders_singles hends (by omega) le_rfl hflat
  rw [take_slice s hk.le] at hheaders
  have hsplit : endOfHead (s.take (MAX_HEADER_BYTES + 1) ++ s.drop (MAX_HEADER_BYTES + 1)) =
      some headEnd := by
    rwa [List.take_append_drop]
  obtain ⟨e, he⟩ := turn_long hsplit (by omega) (by omega)
  have hstop : readHeaders (s.take (MAX_HEADER_BYTES + 1)) (singles (s.drop (MAX_HEADER_BYTES + 1))) =
      .error e := by
    cases singles (s.drop (MAX_HEADER_BYTES + 1)) with
    | nil =>
      rw [readHeaders, he]
      rfl
    | cons p ps =>
      rw [readHeaders, he]
      rfl
  refine ⟨_, e, pieces_jump hk (by omega) hone (pieces_singles _), ?_⟩
  unfold readResponse
  rw [hheaders, hstop]
  rfl

theorem readResponse_spill (ha : Acceptable u pr s headEnd h len)
    (hsoon : headEnd ≤ MAX_HEADER_BYTES + 1) (hlong : MAX_BODY_BYTES + 1 < len + CHUNK_LEN)
    (hmore : headEnd + MAX_BODY_BYTES < s.length) :
    ∃ chunks e, Pieces s chunks ∧ readResponse u pr chunks = .error e := by
  obtain ⟨hfour, hle⟩ := le_of_endOfHead ha.ends
  have hmax := (bodyLen_eq ha.asks).2
  have hroom : CHUNK_LEN ≤ MAX_BODY_BYTES := Nat.le_of_ble_eq_true rfl
  let t := s.drop headEnd
  have ht : MAX_BODY_BYTES + 1 ≤ t.length := by
    have hlength : t.length = s.length - headEnd := List.length_drop
    omega
  -- The body is read up to the last place from which one piece goes past the limit.
  obtain ⟨j, hj, hpast⟩ : ∃ j, j < len ∧ MAX_BODY_BYTES + 1 - j ≤ CHUNK_LEN :=
    ⟨MAX_BODY_BYTES + 1 - CHUNK_LEN, by omega, by omega⟩
  let qs := singles (t.take j) ++
    (slice t j (MAX_BODY_BYTES + 1 - j) :: singles (t.drop (MAX_BODY_BYTES + 1)))
  have hqs : Pieces t qs := pieces_jump (by omega) ht hpast (pieces_singles _)
  have hone : headEnd - (headEnd - 1) ≤ CHUNK_LEN := by
    have : 1 ≤ CHUNK_LEN := Nat.le_of_ble_eq_true rfl
    omega
  have hheaders := readHeaders_jump ha.ends (by omega : headEnd - 1 < headEnd) (by omega) hqs.flatten
  have htake : (t.take j).length = j := List.length_take_of_le (by omega)
  have hreached : ([] ++ (singles (t.take j)).flatten : Bytes) = t.take j := by
    rw [List.nil_append, flatten_singles]
  have hbody : ∃ e, readBody len [] qs = .error e := by
    rw [readBody_append (by rw [hreached]; omega) hmax, hreached, readBody, if_pos (by omega)]
    simp only [take_slice t (by omega : j ≤ MAX_BODY_BYTES + 1)]
    rw [if_pos (by rw [List.length_take_of_le ht]; exact Nat.lt_succ_self _)]
    exact ⟨_, rfl⟩
  obtain ⟨e, he⟩ := hbody
  have hfinish := finish_eq h [] qs
  rw [ha.asks] at hfinish
  simp only at hfinish
  have hdrop : (s.take headEnd).drop headEnd = [] := by
    rw [List.drop_eq_nil_iff, List.length_take]
    omega
  refine ⟨_, e, pieces_jump (by omega) hle hone hqs, ?_⟩
  rw [readResponse_of_headers hheaders (by rw [hqs.flatten, List.take_append_drop])
    (by rw [List.length_take_of_le hle]) ha.head, hdrop, hfinish, he]
  rfl

/-! ## The buffer -/

/-- The buffer at the top of the loop over the headers, and what is left to read. -/
inductive Held (chunks : List Bytes) : Bytes → List Bytes → Prop
  | start : Held chunks [] chunks
  | read {buf chunk : Bytes} {rest : List Bytes} : Held chunks buf (chunk :: rest) →
      headerTurn buf = none → Held chunks (buf ++ chunk) rest

theorem Held.subset (hheld : Held chunks buf rest) : rest ⊆ chunks := by
  induction hheld with
  | start => exact List.Subset.refl _
  | read _ _ ih => exact List.Subset.trans (List.subset_cons_self _ _) ih

theorem Held.length_le (hp : Pieces s chunks) (hheld : Held chunks buf rest) :
    buf.length ≤ MAX_HEADER_BYTES + CHUNK_LEN := by
  cases hheld with
  | start => exact Nat.zero_le _
  | read hbefore hturn =>
    have hshort := length_of_turn hturn
    have hchunk := (hp.sized _ (hbefore.subset List.mem_cons_self)).2
    rw [List.length_append]
    omega

/-! ## One outcome for all pieces -/

/-- A response does not depend on its pieces: its headers end at the limit or before, and its body
is too short to run past its own limit, or nothing follows that would. -/
def Settled (u : Unicode) (pr : Printing) (s : Bytes) : Prop :=
  ∀ headEnd h len, Acceptable u pr s headEnd h len → headEnd ≤ MAX_HEADER_BYTES + CHUNK_LEN →
    headEnd ≤ MAX_HEADER_BYTES + 1 ∧
      (len + CHUNK_LEN ≤ MAX_BODY_BYTES + 1 ∨ s.length ≤ headEnd + MAX_BODY_BYTES)

/-- All pieces of the stream are read as the same status and body, or all are refused. -/
def SameOutcome (u : Unicode) (pr : Printing) (s : Bytes) : Prop :=
  ∀ ps qs, Pieces s ps → Pieces s qs →
    (readResponse u pr ps).toOption = (readResponse u pr qs).toOption

theorem sameOutcome_iff (u : Unicode) (pr : Printing) (s : Bytes) :
    SameOutcome u pr s ↔ Settled u pr s := by
  constructor
  · intro hsame headEnd h len ha hmax
    obtain ⟨ps, hps, hok⟩ := readResponse_some ha hmax
    have hnone : ∀ qs e, Pieces s qs → readResponse u pr qs ≠ .error e := by
      intro qs e hqs herr
      have := hsame ps qs hps hqs
      rw [hok, herr] at this
      cases this
    have hsoon : headEnd ≤ MAX_HEADER_BYTES + 1 := by
      by_contra hlate
      obtain ⟨qs, e, hqs, herr⟩ := readResponse_late ha.ends (not_le.mp hlate)
      exact hnone qs e hqs herr
    refine ⟨hsoon, ?_⟩
    by_contra hlimit
    push Not at hlimit
    obtain ⟨qs, e, hqs, herr⟩ := readResponse_spill ha hsoon hlimit.1 hlimit.2
    exact hnone qs e hqs herr
  · intro hsettled
    have hall : ∀ ps qs r, Pieces s ps → Pieces s qs → readResponse u pr ps = .ok r →
        readResponse u pr qs = .ok r := by
      intro ps qs r hps hqs hok
      obtain ⟨headEnd, h, len, ha, hmax, rfl⟩ := readResponse_eq_ok hps hok
      obtain ⟨hsoon, hlimit⟩ := hsettled headEnd h len ha hmax
      exact readResponse_any ha hsoon hlimit hqs
    intro ps qs hps hqs
    cases hok : readResponse u pr ps with
    | ok r => rw [hall ps qs r hps hqs hok]
    | error e =>
      cases hok' : readResponse u pr qs with
      | ok r =>
        have := hall qs ps r hqs hps hok'
        rw [hok] at this
        cases this
      | error e' => rfl

/-- **Responses and their pieces.** The outcome is the same for all pieces of a stream exactly where
it is settled. In any pieces, a body of a declared length is what follows the first blank line, at
most as much as may be declared, and the headers are never held beyond one piece past their limit. -/
theorem fragmentation_iff (u : Unicode) (pr : Printing) (s : Bytes) :
    (SameOutcome u pr s ↔ Settled u pr s) ∧
    ∀ chunks, Pieces s chunks →
      (∀ status body, readResponse u pr chunks = .ok (status, body) → ∃ headEnd h,
        endOfHead s = some headEnd ∧ readHead u pr (pr.lossy (s.take headEnd)) = .ok h ∧
        h.status = status ∧
        (∀ n, h.contentLength = some n → n ≤ MAX_BODY_BYTES ∧ body.length = n ∧
          body = slice s headEnd n) ∧
        (h.contentLength = none → body = [])) ∧
      ∀ buf rest, Held chunks buf rest → buf.length ≤ MAX_HEADER_BYTES + CHUNK_LEN := by
  refine ⟨sameOutcome_iff u pr s, fun chunks hp => ⟨?_, fun buf rest hheld => hheld.length_le hp⟩⟩
  intro status body hread
  obtain ⟨headEnd, h, len, ha, -, hr⟩ := readResponse_eq_ok hp hread
  cases hr
  have henough := ha.enough
  obtain ⟨hlen, hmax⟩ := bodyLen_eq ha.asks
  refine ⟨headEnd, h, ha.ends, ha.head, rfl, ?_, ?_⟩
  · intro n hn
    rw [hn] at hlen
    obtain rfl : n = len := hlen
    exact ⟨hmax, length_slice _ _ _ henough, rfl⟩
  · intro hnone
    rw [hnone] at hlen
    obtain rfl : 0 = len := hlen
    exact slice_zero _ _

end Outcome

/-! ## A byte behind the body -/

/-- Bytes of ASCII are printed as they are. -/
def samplePrinting : Printing where
  lossy b := b.map fun x => Char.ofNat x.toNat
  debug s := (String.ofList s).quote

def helloStream : Bytes := ascii "HTTP/1.1 200 OK\r\nContent-Length: 5\r\n\r\nhello"

theorem fragmentation_iff_hello : SameOutcome sampleUnicode samplePrinting helloStream ∧
    ∀ buf rest, Held (singles helloStream) buf rest →
      buf.length ≤ MAX_HEADER_BYTES + CHUNK_LEN := by
  obtain ⟨hsame, hpieces⟩ := fragmentation_iff sampleUnicode samplePrinting helloStream
  refine ⟨hsame.mpr ?_, (hpieces _ (pieces_singles helloStream)).2⟩
  intro headEnd h len ha _
  have hends : endOfHead helloStream = some 38 := by decide +kernel
  have hlength : helloStream.length ≤ 38 + MAX_BODY_BYTES := by decide +kernel
  rw [ha.ends] at hends
  cases hends
  exact ⟨by decide, .inr hlength⟩

/-- A body of the greatest length, and one byte more. -/
def trailingStream : Bytes :=
  ascii "HTTP/1.1 200 OK\r\nContent-Length: 1360\r\n\r\n" ++ List.replicate 1361 120

set_option maxRecDepth 100000 in
theorem trailingStream_acceptable :
    Acceptable sampleUnicode samplePrinting trailingStream 41 ⟨200, some 1360, false⟩ 1360 where
  ends := by decide +kernel
  head := by rfl
  asks := by rfl
  enough := by decide +kernel

/-- The response is read in some pieces and refused in others. -/
theorem trailing_byte_matters : ∃ ps qs body e,
    Pieces trailingStream ps ∧ Pieces trailingStream qs ∧
    readResponse sampleUnicode samplePrinting ps = .ok (200, body) ∧
    readResponse sampleUnicode samplePrinting qs = .error e := by
  have ha := trailingStream_acceptable
  obtain ⟨ps, hps, hok⟩ := readResponse_some ha (by decide)
  obtain ⟨qs, e, hqs, herr⟩ := readResponse_spill ha (by decide) (by decide) (by decide +kernel)
  exact ⟨ps, qs, _, e, hps, hqs, hok, herr⟩

end Response

end AtomVault.Live
