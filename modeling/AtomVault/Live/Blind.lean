import AtomVault.Lib.Http
import AtomVault.Live.Link
import AtomVault.Live.Endpoints

/-!
# Blind endpoints (`blind.rs`)

A blind endpoint is a store behind HTTP that was configured by pasting its link. The path in the
link is written into the request as it is.
-/

open Lib Lib.Http

namespace AtomVault.Live

/-! ## Endpoints -/

/-- The TLS configuration is left out: it is made of the pins alone. -/
structure BlindEndpoint where
  name : Text
  host : Text
  port : UInt16
  pathPrefix : Text
  pins : List CertPin
  via : Option SocketAddr

def decimal (n : Nat) : Text := (toString n).toList

namespace ServerLink

def label (l : ServerLink) : Text :=
  if l.host ≠ [] then l.host ++ ':' :: decimal l.port.toNat
  else match l.onion with
    | some o => o.host.take 8 ++ "…onion".toList
    | none => "server".toList

def isOnionOnly (l : ServerLink) : Bool := l.host = [] && l.onion.isSome

end ServerLink

namespace BlindEndpoint

section Configure

variable (usable : Text → Bool)

def new (name host : Text) (port : UInt16) (pathPrefix : Text) (pins : List CertPin) :
    Except Error BlindEndpoint :=
  if host = [] then .error (.discovery "endpoint host is empty")
  else if usable host = false then
    .error (.discovery s!"`{String.ofList host}` is not a usable host name")
  else if pins = [] then
    .error (.discovery ("a rendezvous endpoint must be pinned to a certificate: without a pin " ++
      "there is nothing distinguishing the real endpoint from whoever " ++
      "answers, and this design has no CA to fall back on"))
  else .ok ⟨name, host, port, trimSlashes pathPrefix, pins, none⟩

def viaSocks (e : BlindEndpoint) (proxy : SocketAddr) : BlindEndpoint := { e with via := proxy }

/-- Where a link is dialled: its onion where there is a proxy for it. -/
def target (l : ServerLink) (socks : Option SocketAddr) : Except Error (Text × UInt16) :=
  match l.onion, socks with
  | some onion, some _ => .ok (onion.host, onion.port)
  | _, _ =>
    if l.isOnionOnly = true then
      .error (.discovery ("this endpoint is reachable only over Tor, so it needs a SOCKS " ++
        "proxy — pass one (usually 127.0.0.1:9050)"))
    else .ok (l.host, l.port)

def fromLink (l : ServerLink) (socks : Option SocketAddr) : Except Error BlindEndpoint :=
  if l.kind ≠ .rendezvous then
    .error (.discovery ("this link names a different kind of server — a rendezvous endpoint " ++
      "and a relay do different jobs and are not interchangeable"))
  else do
    let (host, port) ← target l socks
    let endpoint ← new usable l.label host port l.pathPrefix l.pins
    return match socks with
      | some proxy => endpoint.viaSocks proxy
      | none => endpoint

end Configure

/-! ## Requests -/

/-- The two calls of `request`, with what they send. The time to live is in whole seconds. -/
inductive Query
  | put (record : Bytes) (ttl : UInt64)
  | get

def Query.method : Query → Text
  | put _ _ => "PUT".toList
  | get => "GET".toList

def Query.body : Query → Option (Bytes × UInt64)
  | put record ttl => some (record, ttl)
  | get => none

def pathFor (e : BlindEndpoint) (tag : Text) : Text :=
  if e.pathPrefix = [] then '/' :: tag else '/' :: (e.pathPrefix ++ '/' :: tag)

def head (e : BlindEndpoint) (method tag : Text) (body : Option (Bytes × UInt64)) : Text :=
  method ++ (" ".toList ++ (e.pathFor tag ++ (" HTTP/1.1\r\nHost: ".toList ++ (e.host ++
    (":".toList ++ (decimal e.port.toNat ++ ("\r\nConnection: close\r\n".toList ++
      ((match body with
        | some (bytes, ttl) =>
          "Content-Length: ".toList ++ (decimal bytes.length ++ ("\r\n".toList ++
            ("Content-Type: application/octet-stream\r\n".toList ++
              ("X-Atom-Expire-Seconds: ".toList ++ (decimal ttl.toNat ++ "\r\n".toList)))))
        | none => "Accept: application/octet-stream\r\n".toList) ++ "\r\n".toList))))))))

/-- What is sent before the body. -/
def request (e : BlindEndpoint) (q : Query) (slot : Slot) : Bytes :=
  utf8 (e.head q.method slot.tagHex.toList q.body)

/-! ## What the request should be -/

/-- The fields of the head, without the text around them. -/
def fields (e : BlindEndpoint) (body : Option (Bytes × UInt64)) : List (Bytes × Bytes) :=
  (ascii "Host", utf8 (e.host ++ ':' :: decimal e.port.toNat)) ::
    (ascii "Connection", ascii "close") ::
    match body with
    | some (bytes, ttl) =>
      [(ascii "Content-Length", utf8 (decimal bytes.length)),
        (ascii "Content-Type", ascii "application/octet-stream"),
        (ascii "X-Atom-Expire-Seconds", utf8 (decimal ttl.toNat))]
    | none => [(ascii "Accept", ascii "application/octet-stream")]

/-- The head with nothing filled in. -/
def Query.template : Query → Bytes
  | put _ _ => ascii ("  HTTP/1.1\r\nHost: :\r\nConnection: close\r\nContent-Length: \r\n" ++
      "Content-Type: application/octet-stream\r\nX-Atom-Expire-Seconds: \r\n\r\n")
  | get => ascii ("  HTTP/1.1\r\nHost: :\r\nConnection: close\r\n" ++
      "Accept: application/octet-stream\r\n\r\n")

/-- One request for the path of the tag with the fixed fields, whatever is sent behind it, and no
line ends or spaces but those of the template. -/
structure OneRequest (e : BlindEndpoint) (q : Query) (slot : Slot) : Prop where
  parses : ∀ rest, parseHead (e.request q slot ++ rest) =
    some (⟨utf8 q.method, utf8 (e.pathFor slot.tagHex.toList), none, e.fields q.body⟩, rest)
  tight : breaks (e.request q slot) = breaks q.template

/-! ## What a request is -/

theorem hostChar_ascii : ∀ c ∈ HOST_CHARS, c.toNat < 128 ∧
    isVisible (UInt8.ofNat c.toNat) = true := by
  have hall : HOST_CHARS.all (fun c => decide (c.toNat < 128 ∧
      isVisible (UInt8.ofNat c.toNat) = true)) = true := by decide +kernel
  intro c hc
  exact of_decide_eq_true (List.all_eq_true.mp hall c hc)

theorem all_utf8 {p : UInt8 → Bool} {s : Text}
    (h : ∀ c ∈ s, c.toNat < 128 ∧ p (UInt8.ofNat c.toNat) = true) : (utf8 s).all p = true := by
  rw [utf8_ascii fun c hc => (h c hc).1, List.all_map]
  exact List.all_eq_true.mpr fun c hc => (h c hc).2

theorem decimal_visible (n : Nat) :
    ∀ c ∈ decimal n, c.toNat < 128 ∧ isVisible (UInt8.ofNat c.toNat) = true := by
  intro c hc
  have hdigit := digit_visible (isDigit_of_mem_toString hc)
  have hall : ∀ k < 58, 48 ≤ k → isVisible (UInt8.ofNat k) = true := by decide
  exact ⟨by omega, hall _ (by omega) hdigit.1⟩

theorem tagHex_path (slot : Slot) : (utf8 slot.tagHex.toList).all isPathByte = true := by
  refine all_utf8 fun c hc => ?_
  have hall : ∀ k < 16, (Nat.digitChar k).toNat < 128 ∧
      isPathByte (UInt8.ofNat (Nat.digitChar k).toNat) = true := by decide
  unfold Slot.tagHex at hc
  rw [toList_hex] at hc
  obtain ⟨x, -, hx⟩ := List.mem_flatMap.mp hc
  have hlt := x.toNat_lt
  simp only [List.mem_cons, List.not_mem_nil, or_false] at hx
  rcases hx with rfl | rfl
  · exact hall _ (by omega)
  · exact hall _ (by omega)

section Requests

variable {usable : Text → Bool} {e : BlindEndpoint} {l : ServerLink} {socks : Option SocketAddr}

theorem new_eq_ok {name host pathPrefix : Text} {port : UInt16} {pins : List CertPin}
    (h : new usable name host port pathPrefix pins = .ok e) :
    usable host = true ∧ e = ⟨name, host, port, trimSlashes pathPrefix, pins, none⟩ := by
  unfold new at h
  split at h
  · cases h
  · split at h
    · cases h
    · rename_i husable
      split at h
      · cases h
      · cases h
        exact ⟨by simpa using husable, rfl⟩

theorem fromLink_eq_ok (h : fromLink usable l socks = .ok e) :
    usable e.host = true ∧ e.pathPrefix = trimSlashes l.pathPrefix := by
  unfold fromLink at h
  split at h
  · cases h
  obtain ⟨⟨host, port⟩, -, h₁⟩ := of_bind_eq_ok h
  obtain ⟨endpoint, hnew, h₂⟩ := of_bind_eq_ok h₁
  obtain ⟨husable, rfl⟩ := new_eq_ok hnew
  cases h₂
  cases socks with
  | none => exact ⟨husable, rfl⟩
  | some proxy => exact ⟨husable, rfl⟩

theorem request_eq (e : BlindEndpoint) (q : Query) (slot : Slot) : e.request q slot =
    writeHead (utf8 q.method) (utf8 (e.pathFor slot.tagHex.toList)) (e.fields q.body) := by
  have hhost : utf8 " HTTP/1.1\r\nHost: ".toList =
      [SP] ++ (VERSION ++ ([CR, LF] ++ (ascii "Host" ++ [COLON, SP]))) := by decide +kernel
  have hconnection : utf8 "\r\nConnection: close\r\n".toList =
      [CR, LF] ++ (ascii "Connection" ++ ([COLON, SP] ++ (ascii "close" ++ [CR, LF]))) := by
    decide +kernel
  have hlength : utf8 "Content-Length: ".toList = ascii "Content-Length" ++ [COLON, SP] := by
    decide +kernel
  have htype : utf8 "Content-Type: application/octet-stream\r\n".toList = ascii "Content-Type" ++
      ([COLON, SP] ++ (ascii "application/octet-stream" ++ [CR, LF])) := by decide +kernel
  have hexpire : utf8 "X-Atom-Expire-Seconds: ".toList =
      ascii "X-Atom-Expire-Seconds" ++ [COLON, SP] := by decide +kernel
  have haccept : utf8 "Accept: application/octet-stream\r\n".toList = ascii "Accept" ++
      ([COLON, SP] ++ (ascii "application/octet-stream" ++ [CR, LF])) := by decide +kernel
  have hspace : utf8 " ".toList = [SP] := by decide
  have hcolon : utf8 ":".toList = [COLON] := by decide
  have hline : utf8 "\r\n".toList = [CR, LF] := by decide
  have hport : ∀ host port : Text, utf8 (host ++ ':' :: port) =
      utf8 host ++ ([COLON] ++ utf8 port) := by
    intro host port
    rw [utf8_append]
    rfl
  unfold request head writeHead fields
  cases q with
  | put record ttl =>
    simp only [Query.method, Query.body, utf8_append, hhost, hconnection, hlength, htype, hexpire,
      hspace, hcolon, hline, hport, List.flatMap_cons, List.flatMap_nil, writeField,
      List.append_assoc, List.append_nil]
  | get =>
    simp only [Query.method, Query.body, utf8_append, hhost, hconnection, haccept, hspace, hcolon,
      hline, hport, List.flatMap_cons, List.flatMap_nil, writeField, List.append_assoc,
      List.append_nil]

theorem plain_field {name value : Bytes} (hname : name ≠ [] ∧ name.all isToken = true)
    (hvalue : value.all isVisible = true) : Plain (name, value) :=
  ⟨hname.1, hname.2, hvalue⟩

theorem fields_plain (hnames : HostNames usable) (he : usable e.host = true)
    (body : Option (Bytes × UInt64)) : ∀ f ∈ e.fields body, Plain f := by
  have hhost : (utf8 (e.host ++ ':' :: decimal e.port.toNat)).all isVisible = true := by
    refine all_utf8 fun c hc => ?_
    rcases List.mem_append.mp hc with hc | hc
    · exact hostChar_ascii c (hnames _ he c hc)
    · rcases List.mem_cons.mp hc with rfl | hc
      · decide
      · exact decimal_visible _ c hc
  have hnumber : ∀ n, (utf8 (decimal n)).all isVisible = true :=
    fun n => all_utf8 (decimal_visible n)
  have hfirst := plain_field (by decide : ascii "Host" ≠ [] ∧ _) hhost
  have hsecond := plain_field (by decide : ascii "Connection" ≠ [] ∧ _)
    (by decide : (ascii "close").all isVisible = true)
  have hoctets : (ascii "application/octet-stream").all isVisible = true := by decide +kernel
  unfold fields
  cases body with
  | none =>
    simp only [List.forall_mem_cons, List.not_mem_nil, false_imp_iff, implies_true, and_true]
    exact ⟨hfirst, hsecond, plain_field (by decide) hoctets⟩
  | some body =>
    simp only [List.forall_mem_cons, List.not_mem_nil, false_imp_iff, implies_true, and_true]
    exact ⟨hfirst, hsecond, plain_field (by decide) (hnumber _), plain_field (by decide) hoctets,
      plain_field (by decide +kernel) (hnumber _)⟩

theorem utf8_slashes {s : Text} (h : ∀ c ∈ s, c = '/') : ∀ x ∈ utf8 s, x = Http.SLASH := by
  intro x hx
  obtain ⟨c, hc, hx⟩ := List.mem_flatMap.mp hx
  rw [h c hc] at hx
  exact List.mem_singleton.mp hx

theorem isPath_pathFor (he : e.pathPrefix = trimSlashes l.pathPrefix) (slot : Slot) :
    isPath (utf8 (e.pathFor slot.tagHex.toList)) =
      encodedFrom isPathByte 0 (utf8 l.pathPrefix) := by
  have htag := encodedFrom_of_all (tagHex_path slot)
  have hcons : ∀ s : Text, utf8 ('/' :: s) = Http.SLASH :: utf8 s := fun _ => rfl
  have hpath : ∀ b, isPath (Http.SLASH :: b) = encodedFrom isPathByte 0 b := fun _ => rfl
  have hlink : encodedFrom isPathByte 0 (utf8 l.pathPrefix) =
      encodedFrom isPathByte 0 (utf8 e.pathPrefix) := by
    obtain ⟨pre, post, hsplit, hpre, hpost⟩ := trimSlashes_infix l.pathPrefix
    rw [he]
    conv_lhs => rw [hsplit, utf8_append, utf8_append]
    exact encodedFrom_slashes (utf8_slashes hpre) (utf8_slashes hpost) _
  rw [hlink]
  unfold pathFor
  split
  · rename_i hempty
    rw [hcons, hpath, htag, hempty]
    rfl
  · rw [hcons, hpath, utf8_append, hcons, encodedFrom_slash, htag, Bool.and_true]

theorem breaks_slashes {s : Text} (h : ∀ c ∈ s, c = '/') : breaks (utf8 s) = [] := by
  have hslash : ∀ x ∈ utf8 s, x = Http.SLASH := utf8_slashes h
  refine (breaks_eq_nil_iff _).mpr ⟨fun hx => ?_, fun hx => ?_, fun hx => ?_⟩
  all_goals exact absurd (hslash _ hx) (by decide)

theorem breaks_pathFor (he : e.pathPrefix = trimSlashes l.pathPrefix) (slot : Slot) :
    breaks (utf8 (e.pathFor slot.tagHex.toList)) = breaks (utf8 l.pathPrefix) := by
  have htag : breaks (utf8 slot.tagHex.toList) = [] :=
    (breaks_eq_nil_iff _).mpr ⟨notMem_of_all (tagHex_path slot) (by decide),
      notMem_of_all (tagHex_path slot) (by decide), notMem_of_all (tagHex_path slot) (by decide)⟩
  have hslash : breaks (utf8 ['/']) = [] := breaks_slashes (by simp)
  have hcons : ∀ s : Text, breaks (utf8 ('/' :: s)) = breaks (utf8 s) := by
    intro s
    have hs : utf8 ('/' :: s) = utf8 ['/'] ++ utf8 s := utf8_append ['/'] s
    rw [hs, breaks_append, hslash, List.nil_append]
  have hlink : breaks (utf8 l.pathPrefix) = breaks (utf8 e.pathPrefix) := by
    obtain ⟨pre, post, hsplit, hpre, hpost⟩ := trimSlashes_infix l.pathPrefix
    rw [he]
    conv_lhs => rw [hsplit, utf8_append, utf8_append, breaks_append, breaks_append,
      breaks_slashes hpre, breaks_slashes hpost, List.nil_append, List.append_nil]
  rw [hlink]
  unfold pathFor
  split
  · rename_i hempty
    rw [hcons, htag, hempty]
    rfl
  · rw [hcons, utf8_append, breaks_append, hcons, htag, List.append_nil]

theorem method_token (q : Query) : utf8 q.method ≠ [] ∧ (utf8 q.method).all isToken = true := by
  cases q with
  | put record ttl => exact (by decide : utf8 "PUT".toList ≠ [] ∧ (utf8 "PUT".toList).all isToken = true)
  | get => exact (by decide : utf8 "GET".toList ≠ [] ∧ (utf8 "GET".toList).all isToken = true)

theorem tight_iff (hnames : HostNames usable) (h : fromLink usable l socks = .ok e) (q : Query)
    (slot : Slot) :
    breaks (e.request q slot) = breaks q.template ↔ breaks (utf8 l.pathPrefix) = [] := by
  obtain ⟨husable, hpath⟩ := fromLink_eq_ok h
  have hbreaks := breaks_writeHead (utf8 (e.pathFor slot.tagHex.toList)) (method_token q).2
    (fields_plain hnames husable q.body)
  rw [request_eq, hbreaks, breaks_pathFor hpath]
  cases q with
  | put record ttl =>
    have htemplate : breaks (Query.put record ttl).template = [SP] ++ ([SP, CR, LF] ++
        ((e.fields (some (record, ttl))).flatMap (fun _ => [SP, CR, LF]) ++ [CR, LF])) := by
      show breaks (ascii _) = [SP, SP, CR, LF, SP, CR, LF, SP, CR, LF, SP, CR, LF, SP, CR, LF, SP, CR,
        LF, CR, LF]
      decide +kernel
    rw [htemplate, List.append_cancel_left_eq]
    exact List.append_left_eq_self
  | get =>
    have htemplate : breaks Query.get.template = [SP] ++ ([SP, CR, LF] ++
        ((e.fields none).flatMap (fun _ => [SP, CR, LF]) ++ [CR, LF])) := by
      show breaks (ascii _) = [SP, SP, CR, LF, SP, CR, LF, SP, CR, LF, SP, CR, LF, CR, LF]
      decide +kernel
    rw [htemplate, List.append_cancel_left_eq]
    exact List.append_left_eq_self

variable (usable) in
/-- **A request is one request but for the path.** For every link that makes an endpoint, every
slot and both calls, what is sent is one request with the fixed fields exactly where the link's
path is written in the characters of a path, and has the line ends and spaces of its template
exactly where the link's path has none. -/
theorem oneRequest_iff (hnames : HostNames usable) (l : ServerLink) (socks : Option SocketAddr)
    (e : BlindEndpoint) (h : fromLink usable l socks = .ok e) (q : Query) (slot : Slot) :
    (e.OneRequest q slot ↔ encodedFrom isPathByte 0 (utf8 l.pathPrefix) = true) ∧
      (breaks (e.request q slot) = breaks q.template ↔
        CR ∉ utf8 l.pathPrefix ∧ LF ∉ utf8 l.pathPrefix ∧ SP ∉ utf8 l.pathPrefix) := by
  obtain ⟨husable, hpath⟩ := fromLink_eq_ok h
  have htight := tight_iff hnames h q slot
  refine ⟨?_, htight.trans (breaks_eq_nil_iff _)⟩
  rw [← isPath_pathFor hpath slot]
  constructor
  · intro hone
    exact isPath_of_parseHead (hone.parses [])
  · intro htarget
    obtain ⟨hne, htoken⟩ := method_token q
    refine ⟨fun rest => ?_, ?_⟩
    · rw [request_eq]
      exact parseHead_written hne htoken htarget (fields_plain hnames husable q.body) rest
    · rw [htight, ← breaks_pathFor hpath slot]
      exact (breaks_eq_nil_iff _).mpr ⟨notMem_of_isPath htarget (by decide),
        notMem_of_isPath htarget (by decide), notMem_of_isPath htarget (by decide)⟩

end Requests

/-! ## A link that sends two requests -/

open ServerLink (sampleUsable sampleHash hostLink hostLink_valid)

def sampleSlot : Slot := ⟨List.Vector.replicate _ 171, List.Vector.replicate _ 0⟩

def INJECTED : Text := "a HTTP/1.1\r\nHost: x\r\n\r\nGET /b".toList

/-- What the link to a path is made into. -/
def hostEndpoint (pathPrefix : Text) : BlindEndpoint :=
  ⟨"rdv.example.org:8443".toList, "rdv.example.org".toList, 8443, pathPrefix,
    [⟨List.replicate 32 1, ServerLink.length_samplePin⟩], none⟩

theorem sampleUsable_names : HostNames sampleUsable := by
  intro host h c hc
  exact of_decide_eq_true (List.all_eq_true.mp h c hc)

theorem fromLink_hostLink {pathPrefix : Text} (h : trimSlashes pathPrefix = pathPrefix) :
    fromLink sampleUsable (hostLink pathPrefix) none = .ok (hostEndpoint pathPrefix) := by
  have husable : sampleUsable "rdv.example.org".toList = true := by decide +kernel
  have hlabel : (hostLink pathPrefix).label = "rdv.example.org:8443".toList := by
    show "rdv.example.org".toList ++ ':' :: decimal 8443 = _
    decide +kernel
  have hnew : new sampleUsable "rdv.example.org:8443".toList "rdv.example.org".toList 8443 pathPrefix
      [⟨List.replicate 32 1, rfl⟩] = .ok (hostEndpoint pathPrefix) := by
    unfold new
    rw [if_neg (by decide), if_neg (by rw [husable]; decide), if_neg (by simp), h]
    rfl
  show (do
    let endpoint ← new sampleUsable (hostLink pathPrefix).label
      "rdv.example.org".toList 8443 pathPrefix [⟨List.replicate 32 1, rfl⟩]
    return endpoint) = _
  rw [hlabel, hnew]

theorem oneRequest_iff_records :
    (hostEndpoint "records".toList).OneRequest .get sampleSlot ∧
      breaks ((hostEndpoint "records".toList).request (.put [1, 2, 3] 60) sampleSlot) =
        breaks (Query.put [1, 2, 3] 60).template := by
  have hlink := fromLink_hostLink (by decide +kernel : trimSlashes "records".toList = _)
  obtain ⟨hone, -⟩ := oneRequest_iff sampleUsable sampleUsable_names _ _ _ hlink .get sampleSlot
  obtain ⟨-, htight⟩ :=
    oneRequest_iff sampleUsable sampleUsable_names _ _ _ hlink (.put [1, 2, 3] 60) sampleSlot
  exact ⟨hone.mpr (by decide +kernel), htight.mpr (by decide +kernel)⟩

set_option maxRecDepth 100000 in
theorem parseHead_injected : (parseHead ((hostEndpoint INJECTED).request .get sampleSlot)).map
    (fun r => (r.1, (parseHead r.2).map fun r => (r.1.path, r.2))) =
    some (⟨ascii "GET", ascii "/a", none, [(ascii "Host", ascii "x")]⟩,
      some (ascii "/b/" ++ utf8 sampleSlot.tagHex.toList, [])) := by
  decide +kernel

/-- A pasted link whose path carries the end of a request sends two: one for a path of its own, and
one for the tag below another. -/
theorem pasted_link_injects :
    (∃ text, ServerLink.fromText sampleUsable sampleUnicode sampleTexts sampleHash text =
      .ok (hostLink INJECTED)) ∧
    fromLink sampleUsable (hostLink INJECTED) none = .ok (hostEndpoint INJECTED) ∧
    (∃ rest, parseHead ((hostEndpoint INJECTED).request .get sampleSlot) =
      some (⟨ascii "GET", ascii "/a", none, [(ascii "Host", ascii "x")]⟩, rest) ∧
      ∃ second, parseHead rest = some (second, []) ∧
        second.path = ascii "/b/" ++ utf8 sampleSlot.tagHex.toList) ∧
    ¬(hostEndpoint INJECTED).OneRequest .get sampleSlot := by
  have hparse := parseHead_injected
  obtain ⟨⟨first, rest⟩, hfirst, hmap⟩ := Option.map_eq_some_iff.mp hparse
  simp only [Prod.mk.injEq] at hmap
  obtain ⟨rfl, hsecond⟩ := hmap
  obtain ⟨⟨second, tail⟩, hread, hpath⟩ := Option.map_eq_some_iff.mp hsecond
  simp only [Prod.mk.injEq] at hpath
  obtain ⟨hpath, rfl⟩ := hpath
  refine ⟨⟨_, ServerLink.fromText_mangled sampleUnicode_plain sampleTexts_correct
    (hostLink_valid (by decide +kernel)) (Mangles.refl _ _)⟩,
    fromLink_hostLink (by decide +kernel), ⟨rest, hfirst, second, hread, hpath⟩, ?_⟩
  intro hone
  have hall := hone.parses []
  rw [List.append_nil, hfirst] at hall
  have hfields := congrArg (fun r => r.map fun r => r.1.fields.length) hall
  have hne : (some 1 : Option Nat) ≠ some 3 := by decide
  exact hne hfields

end BlindEndpoint

end AtomVault.Live
