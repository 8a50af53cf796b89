import AtomVault.Live.Canonical
import AtomVault.Daemon.Noise
import AtomVault.Daemon.Receive
import AtomVault.Daemon.SavePaths

/-!
# Pushing a vault (`sync.rs`, `daemon.rs`, `gui/mod.rs`, `gui/p2p.rs`)

A sender proposes a vault, the daemon asks its user, and the bytes go into the file that the user
has named. The daemon has any number of connections, one address book, and one window.
-/

open Lib

namespace AtomVault.Daemon.Push

open Live Book Receive

inductive SyncMessage
  | proposal (filename : String) (lastModified : UInt64)
  | accept (action : String)
  | reject
  deriving DecidableEq

/-- One direction of a stream: what is not read yet, and how it ends after that. -/
structure Pipe where
  bytes : Bytes
  ended : Option (Except String Unit)

def NEWLINE : UInt8 := 10

/-- `read_line` waits for the end of a line, or of the stream. -/
def Pipe.readLine (p : Pipe) : Option (Except String (Text × Pipe)) :=
  let n := p.bytes.idxOf NEWLINE
  if n < p.bytes.length then some (decoded (n + 1))
  else
    match p.ended with
    | none => none
    | some (.error e) => some (.error e)
    | some (.ok ()) => some (decoded p.bytes.length)
where
  decoded (n : Nat) : Except String (Text × Pipe) :=
    match fromUtf8 (p.bytes.take n) with
    | some line => .ok (line, { p with bytes := p.bytes.drop n })
    | none => .error "stream did not contain valid UTF-8"

/-- What is written to a stream that is gone comes nowhere. -/
def Pipe.push (p : Pipe) (b : Bytes) : Pipe :=
  if p.ended.isSome then p else { p with bytes := p.bytes ++ b }

/-- The rest is lost, and the reader is told so or sees an end. -/
def Pipe.cut (p : Pipe) (n : Nat) (r : Except String Unit) : Pipe := ⟨p.bytes.take n, some r⟩

/-- The writer drops its end. What was not flushed is lost. -/
def Pipe.hangUp (p : Pipe) (n : Nat) (r : Except String Unit) : Pipe :=
  if p.ended.isSome then p else p.cut n r

/-- Where `sync_core` is. -/
inductive Stage
  | proposing
  | waiting
  | pumping
  | done (r : Except String Unit)

structure Sender where
  filename : String
  lastModified : UInt64
  content : Bytes
  stage : Stage
  sent : Nat

/-- What the daemon does for a connection. A proposal of a vault that is not known is asked for,
with an operation on the address book, and that is saved before the reply. -/
inductive Task
  | reading
  | asking (p : Nat) (filename : String)
  | saving (p : Nat) (filename path : String)
  | replying (filename : String) (path : Option String)
  | creating (filename path : String)
  | copying (path : String)
  | finished (report : Option Report)

/-- The operation on the address book that a task waits for. -/
def Task.op : Task → Option Nat
  | asking p _ => some p
  | saving p _ _ => some p
  | _ => none

structure Conn where
  nick : String
  there : Pipe
  back : Pipe
  task : Task
  /-- What was replied, and what was copied. -/
  replied : Option SyncMessage
  copied : Bytes
  /-- The other end, if it is `sync_core`. -/
  sender : Option Sender

structure Request where
  conn : Nat
  senderNick : String
  filename : String
  deriving DecidableEq

/-- `incoming_sync`, with its two fields. -/
structure Dialog where
  request : Request
  vaultLabel : String
  savePath : Text

inductive Event
  | connected (k : Nat) (nick : String) (key : VerifyingKey) (secret : List.Vector UInt8 32)
    (payload : Bytes)
  /-- `add_friend_core` saves the link. -/
  | added (nick : String) (url : Text)
  | consented (k : Nat) (nick filename path : String)
  | opened (k : Nat) (nick filename path : String)
  /-- The network or `sync_core` gave the stream up, and the daemon was not done with it. -/
  | cut (k : Nat)

structure World where
  store : Store
  /-- The lists that were saved. -/
  saves : List (List FriendRecord)
  stopped : Bool
  /-- The list that the peer of the next connection has to be in. -/
  accepting : Option (List FriendRecord)
  conns : List Conn
  channel : List Request
  dialog : Option Dialog
  /-- All files but `friends.json`. -/
  files : String → Option Bytes
  log : List Event

structure Config where
  u : Unicode
  tx : Texts
  ed : Ed25519
  cipher : ConfigCipher
  friends : Json (List FriendRecord)
  messages : Json SyncMessage
  home : Option Text
  /-- The file that a path leads to, through links and dots. -/
  leads : String → String
  bookFile : String
  /-- Whether a window has set the event sender. -/
  gui : Bool

inductive ConnAct
  | reply (r : Except String Unit)
  | create (r : Except String Unit)
  | copy (n : Nat)
  | copyFails (n : Nat) (e : String)
  | copyEnds
  -- `sync_core`
  | propose
  | readReply
  | pump (n : Nat)
  | shutdown
  | fail (e : String) (n : Nat) (r : Except String Unit)
  | hangUp (n : Nat) (r : Except String Unit)
  -- whoever else is at the other end, and the network
  | foreign (b : Bytes)
  | cut (there back : Nat) (r : Except String Unit)

inductive Act
  /-- The address book, changed elsewhere or by a save that was begun. -/
  | book (a : Book.Act)
  | request (reads : Bool)
  | refuse
  | authenticate (secret : List.Vector UInt8 32) (payload : Bytes)
    (sender : Option (String × UInt64 × Bytes))
  | readProposal (k : Nat) (reads : Bool)
  | poll (n : Nat)
  | edit (vaultLabel : String) (savePath : Text)
  | accept
  | reject
  | prompt (k : Nat) (ans label pathAns : Text)
  | saved (k : Nat)
  | conn (k : Nat) (a : ConnAct)

section Model

variable (cfg : Config)

/-! ## One connection -/

def line (m : SyncMessage) : Bytes := utf8 (cfg.messages.write m ++ ['\n'])

def acceptReply : SyncMessage := .accept "pull_from_you"

def Conn.answer (conn : Conn) (m : SyncMessage) : Conn :=
  { conn with replied := some m, back := conn.back.push (line cfg m) }

/-- What the write of a rejection gives is not looked at. -/
def Conn.refuse (conn : Conn) (r : Except String Unit) : Conn :=
  { (if r.isOk then conn.answer cfg .reject else conn) with task := .finished (some .rejected) }

def Conn.reply (conn : Conn) (r : Except String Unit) : Option Conn :=
  match conn.task with
  | .replying _ none => some (conn.refuse cfg r)
  | .replying filename (some path) =>
    if path = "" then some (conn.refuse cfg r)
    else
      match r with
      | .error e => some { conn with task := .finished (some (.replyFailed e)) }
      | .ok () => some { conn.answer cfg acceptReply with task := .creating filename path }
  | _ => none

def Conn.readReply (conn : Conn) (s : Sender) : Option Conn :=
  match s.stage with
  | .waiting =>
    conn.back.readLine.map fun
      | .error e => { conn with sender := some { s with stage := .done (.error e) } }
      | .ok (reply, back) =>
        { conn with
          back := back
          sender := some { s with
            stage := match cfg.messages.read reply with
              | .ok (.accept _) => .pumping
              | _ => .done (.ok ()) } }
  | _ => none

/-- A step of `sync_core`. A write into a stream that is gone ends it. -/
def Conn.send (conn : Conn) (s : Sender) : ConnAct → Option Conn
  | .propose =>
    match s.stage with
    | .proposing =>
      some { conn with
        there := conn.there.push (line cfg (.proposal s.filename s.lastModified))
        sender := some { s with stage := .waiting } }
    | _ => none
  | .readReply => conn.readReply cfg s
  | .pump n =>
    match s.stage with
    | .pumping =>
      if 0 < n ∧ s.sent + n ≤ s.content.length ∧ conn.there.ended.isNone then
        some { conn with
          there := conn.there.push (slice s.content s.sent n)
          sender := some { s with sent := s.sent + n } }
      else none
    | _ => none
  | .shutdown =>
    match s.stage with
    | .pumping =>
      if s.sent = s.content.length ∧ conn.there.ended.isNone then
        some { conn with
          there := { conn.there with ended := some (.ok ()) }
          sender := some { s with stage := .done (.ok ()) } }
      else none
    | _ => none
  | _ => none

/-- `sync_core` has returned, and its end of the stream is gone. -/
def Conn.leave (conn : Conn) (s : Sender) (res : Except String Unit) (n : Nat)
    (r : Except String Unit) : Conn :=
  { conn with there := conn.there.hangUp n r, sender := some { s with stage := .done res } }

/-- What a step does to the files. -/
abbrev Written := Option (String × Bytes)

/-- What is logged where the stream is given up. -/
def Conn.cutEvents (k : Nat) (conn : Conn) : List Event :=
  match conn.task with
  | .finished _ => []
  | _ => [.cut k]

/-- The same for an end that `sync_core` drops: it may have been shut down. -/
def Conn.leaveEvents (k : Nat) (conn : Conn) : List Event :=
  if conn.there.ended.isSome then [] else conn.cutEvents k

/-- The connection, what it has written where, and what is logged of it. -/
def Conn.step (k : Nat) (files : String → Option Bytes) (conn : Conn) :
    ConnAct → Option (Conn × Written × List Event)
  | .reply r => (conn.reply cfg r).map fun conn => (conn, none, [])
  | .create r =>
    match conn.task, r with
    | .creating filename path, .ok () =>
      some ({ conn with task := .copying path }, some (path, []),
        [.opened k conn.nick filename path])
    | .creating _ _, .error e =>
      some ({ conn with task := .finished (some (.cannotWrite e)) }, none, [])
    | _, _ => none
  | .copy n =>
    match conn.task with
    | .copying path =>
      if 0 < n ∧ n ≤ conn.there.bytes.length then
        some (
          { conn with
            there := { conn.there with bytes := conn.there.bytes.drop n }
            copied := conn.copied ++ conn.there.bytes.take n },
          some (path,
            patch ((files path).getD []) conn.copied.length (conn.there.bytes.take n)), [])
      else none
    | _ => none
  -- a write that fails after `n` bytes
  | .copyFails n e =>
    match conn.task with
    | .copying path =>
      if n ≤ conn.there.bytes.length then
        some (
          { conn with
            task := .finished (some (.transferFailed e))
            copied := conn.copied ++ conn.there.bytes.take n },
          some (path,
            patch ((files path).getD []) conn.copied.length (conn.there.bytes.take n)), [])
      else none
    | _ => none
  | .copyEnds =>
    match conn.task, conn.there.bytes, conn.there.ended with
    | .copying _, [], some (.ok ()) =>
      some ({ conn with task := .finished (some (.success conn.copied.length)) }, none, [])
    | .copying _, [], some (.error e) =>
      some ({ conn with task := .finished (some (.transferFailed e)) }, none, [])
    | _, _, _ => none
  | .foreign b =>
    match conn.sender with
    | none => some ({ conn with there := conn.there.push b }, none, [])
    | some _ => none
  | .cut there back r =>
    some ({ conn with there := conn.there.cut there r, back := conn.back.cut back r }, none,
      conn.cutEvents k)
  -- an error is returned at once
  | .fail e n r => conn.sender.bind fun s =>
    match s.stage with
    | .done _ => none
    | _ => some (conn.leave s (.error e) n r, none, conn.leaveEvents k)
  | .hangUp n r => conn.sender.bind fun s =>
    match s.stage with
    | .done res => some (conn.leave s res n r, none, conn.leaveEvents k)
    | _ => none
  | a => conn.sender.bind fun s => (conn.send cfg s a).map fun conn => (conn, none, [])

/-! ## The daemon -/

def World.read (w : World) (path : String) : Option Bytes :=
  if cfg.leads path = cfg.bookFile then w.store.file else w.files (cfg.leads path)

def World.write (w : World) : Written → World
  | none => w
  | some (path, b) =>
    if cfg.leads path = cfg.bookFile then { w with store := { w.store with file := some b } }
    else { w with files := Function.update w.files (cfg.leads path) (some b) }

def World.connStep (w : World) (k : Nat) (a : ConnAct) : Option World := do
  let conn ← w.conns[k]?
  let (conn, written, events) ← conn.step cfg k (w.read cfg) a
  let w := w.write cfg written
  return { w with conns := w.conns.set k conn, log := w.log ++ events }

abbrev bookStep := Book.step cfg.u cfg.tx cfg.ed cfg.cipher cfg.friends

/-- A file that cannot be read is an empty list. -/
def World.load (w : World) (reads : Bool) : Option (List FriendRecord) :=
  if reads then loadFriends cfg.cipher cfg.friends w.store.file else some []

/-- An operation has loaded the list. -/
def World.loaded (w : World) (p : Nat) (a : Book.Act) : Option World := do
  let store ← bookStep cfg w.store a
  let events := match store.procs[p]?.bind Proc.update with
    | some (.friend nick url) => [.added nick url]
    | _ => []
  return { w with store := store, log := w.log ++ events }

/-- Operations of others, and the writes of all. A proposal is begun and answered by its own
connection. -/
def World.book (w : World) (a : Book.Act) : Option World :=
  match a with
  | .begin (.proposal _ _ _) => none
  | .answer _ _ => none
  | .load p => w.loaded cfg p a
  | .loadFails p => w.loaded cfg p a
  | .openFile p _ => do
    let store ← bookStep cfg w.store a
    let lists := match w.store.procs[p]?.map Proc.phase with
      | some (.saving _ friends) => [friends]
      | _ => []
    return { w with store := store, saves := w.saves ++ lists }
  | _ => do
    let store ← bookStep cfg w.store a
    return { w with store := store }

/-- The next connection: the list is loaded before it is accepted. A list that cannot be decrypted
ends the process. -/
def World.request (w : World) (reads : Bool) : Option World :=
  match w.accepting with
  | some _ => none
  | none =>
    match w.load cfg reads with
    | none => some { w with stopped := true }
    | some friends =>
      match authorizedKeys cfg.tx cfg.ed friends with
      | none => some { w with stopped := true }
      | some _ => some { w with accepting := some friends }

/-- The first friend with that key. -/
def nickOf (friends : List FriendRecord) (key : VerifyingKey) : String :=
  ((friends.find? fun f => keyOf cfg.tx cfg.ed f.url = some (some key)).map
    FriendRecord.nickname).getD "Unknown"

def Conn.new (nick : String) (sender : Option (String × UInt64 × Bytes)) : Conn where
  nick := nick
  there := ⟨[], none⟩
  back := ⟨[], none⟩
  task := .reading
  replied := none
  copied := []
  sender := sender.map fun (filename, lastModified, content) =>
    ⟨filename, lastModified, content, .proposing, 0⟩

/-- The last message of the handshake. -/
def World.authenticate (w : World) (secret : List.Vector UInt8 32) (payload : Bytes)
    (sender : Option (String × UInt64 × Bytes)) : Option World := do
  let friends ← w.accepting
  let keys ← authorizedKeys cfg.tx cfg.ed friends
  match Noise.checkPayload cfg.ed keys secret () payload with
  | .error _ => return { w with accepting := none }
  | .ok session =>
    let nick := nickOf cfg friends session.remoteStaticKey
    return { w with
      accepting := none
      conns := w.conns ++ [.new nick sender]
      log := w.log ++ [.connected w.conns.length nick session.remoteStaticKey secret payload] }

def World.setTask (w : World) (k : Nat) (conn : Conn) (task : Task) : World :=
  { w with conns := w.conns.set k { conn with task := task } }

/-- A proposal: the list is loaded, and what is not in it is asked for. -/
def World.propose (w : World) (k : Nat) (conn : Conn) (filename : String) (lastModified : UInt64)
    (reads : Bool) : Option World :=
  let p := w.store.procs.length
  match w.load cfg reads with
  | none => some { w with stopped := true }
  | some friends => do
    let begun ← bookStep cfg w.store (.begin (.proposal conn.nick filename lastModified))
    let store ← bookStep cfg begun (if reads then .load p else .loadFails p)
    match knownVault friends conn.nick filename with
    | some vault =>
      return { w.setTask k conn (.replying filename (some vault.localPath)) with store := store }
    | none =>
      return { w.setTask k conn (.asking p filename) with
        store := store
        channel := if cfg.gui then w.channel ++ [⟨k, conn.nick, filename⟩] else w.channel }

def World.readProposal (w : World) (k : Nat) (reads : Bool) : Option World := do
  let conn ← w.conns[k]?
  match conn.task with
  | .reading =>
    match ← conn.there.readLine with
    | .error _ => return w.setTask k conn (.finished none)
    | .ok (text, there) =>
      match cfg.messages.read text with
      | .ok (.proposal filename lastModified) =>
        w.propose cfg k { conn with there := there } filename lastModified reads
      | _ => return w.setTask k { conn with there := there } (.finished none)
  | _ => none

/-- `ask_user_interactive` has returned. -/
def World.respond (w : World) (k : Nat) (response : SyncResponse) : Option World := do
  let conn ← w.conns[k]?
  match conn.task with
  | .asking p filename =>
    let store ← bookStep cfg w.store (.answer p response)
    let path := response.savePath.getD ""
    if response.accepted then
      return { w.setTask k conn (.saving p filename path) with
        store := store
        log := w.log ++ [.consented k conn.nick filename path] }
    else
      return { w.setTask k conn (.replying filename none) with store := store }
  | _ => none

/-- `save_friends` has returned, with the list saved or not. -/
def World.saved (w : World) (k : Nat) : Option World := do
  let conn ← w.conns[k]?
  match conn.task with
  | .saving p filename path =>
    let proc ← w.store.procs[p]?
    match proc.phase with
    | .finished => return w.setTask k conn (.replying filename (some path))
    | _ => none
  | _ => none

/-! ## The window -/

def refusal : SyncResponse := ⟨false, none, none⟩

/-- The response channels of these requests are dropped. -/
def World.dropAll (w : World) (requests : List Request) : Option World :=
  requests.foldlM (fun w r => w.respond cfg r.conn refusal) w

def Dialog.new (home : Option Text) (r : Request) : Dialog :=
  ⟨r, "", SavePaths.prefilledPath home r.senderNick r.filename⟩

/-- `poll_daemon_events` takes the events that are there. Each request takes the place of the one
before it. -/
def World.poll (w : World) (n : Nat) : Option World :=
  match (w.channel.take n).getLast? with
  | none => none
  | some last =>
    { w with
      channel := w.channel.drop n
      dialog := some (.new cfg.home last) }.dropAll cfg
        ((w.dialog.map Dialog.request).toList ++ (w.channel.take n).dropLast)

/-- The dialog is closed with an answer. -/
def World.close (w : World) (response : Dialog → SyncResponse) : Option World := do
  let d ← w.dialog
  { w with dialog := none }.respond cfg d.request.conn (response d)

def accepted (d : Dialog) : SyncResponse :=
  SavePaths.acceptRequest cfg.home d.request.senderNick d.request.filename d.vaultLabel d.savePath

/-- The questions at the terminal. -/
def World.prompt (w : World) (k : Nat) (ans label pathAns : Text) : Option World := do
  let conn ← w.conns[k]?
  match conn.task with
  | .asking _ filename =>
    let response := SavePaths.askUser cfg.u cfg.home conn.nick filename ans label pathAns
    if cfg.gui then none else w.respond cfg k response
  | _ => none

def step (w : World) (a : Act) : Option World :=
  if w.stopped then none
  else
    match a with
    | .book a => w.book cfg a
    | .request reads => w.request cfg reads
    | .refuse => w.accepting.map fun _ => { w with accepting := none }
    | .authenticate secret payload sender => w.authenticate cfg secret payload sender
    | .readProposal k reads => w.readProposal cfg k reads
    | .poll n => w.poll cfg n
    | .edit vaultLabel savePath =>
      w.dialog.map fun d =>
        { w with dialog := some { d with vaultLabel := vaultLabel, savePath := savePath } }
    | .accept => w.close cfg (accepted cfg)
    | .reject => w.close cfg fun _ => refusal
    | .prompt k ans label pathAns => w.prompt cfg k ans label pathAns
    | .saved k => w.saved k
    | .conn k a => w.connStep cfg k a

/-- The daemon as it is started. -/
def start (file : Option Bytes) (files : String → Option Bytes) : World where
  store := ⟨file, []⟩
  saves := []
  stopped := false
  accepting := none
  conns := []
  channel := []
  dialog := none
  files := files
  log := []

end Model

/-! ## What a step of a connection can do -/

/-- What `sync_core` does. -/
inductive Sends (cfg : Config) (conn : Conn) (s : Sender) : Conn → Prop
  | proposes (hstage : s.stage = .proposing) : Sends cfg conn s
      { conn with
        there := conn.there.push (line cfg (.proposal s.filename s.lastModified))
        sender := some { s with stage := .waiting } }
  | hears (reply : Text) (back : Pipe) (hstage : s.stage = .waiting)
      (hline : conn.back.readLine = some (.ok (reply, back))) (action : String)
      (hreply : cfg.messages.read reply = .ok (.accept action)) : Sends cfg conn s
      { conn with back := back, sender := some { s with stage := .pumping } }
  | pumps (n : Nat) (hstage : s.stage = .pumping) (hle : s.sent + n ≤ s.content.length)
      (hopen : conn.there.ended = none) : Sends cfg conn s
      { conn with
        there := { conn.there with bytes := conn.there.bytes ++ slice s.content s.sent n }
        sender := some { s with sent := s.sent + n } }
  | shuts (hstage : s.stage = .pumping) (hall : s.sent = s.content.length)
      (hopen : conn.there.ended = none) : Sends cfg conn s
      { conn with
        there := { conn.there with ended := some (.ok ()) }
        sender := some { s with stage := .done (.ok ()) } }
  /-- At a reply that is no accept. -/
  | stops (back : Pipe) (r : Except String Unit) (hstage : ∀ r, s.stage ≠ .done r) :
    Sends cfg conn s
      { conn with back := back, sender := some { s with stage := .done r } }

inductive Serves (cfg : Config) (k : Nat) (files : String → Option Bytes) (conn : Conn) :
    Conn → Written → List Event → Prop
  | refuses (filename : String) (path : Option String) (r : Except String Unit)
      (htask : conn.task = .replying filename path) :
      Serves cfg k files conn (conn.refuse cfg r) none []
  | accepts (filename path : String) (htask : conn.task = .replying filename (some path))
      (hpath : path ≠ "") :
      Serves cfg k files conn
        { conn.answer cfg acceptReply with task := .creating filename path } none []
  | opens (filename path : String) (htask : conn.task = .creating filename path) :
      Serves cfg k files conn { conn with task := .copying path } (some (path, []))
        [.opened k conn.nick filename path]
  | copies (path : String) (n : Nat) (htask : conn.task = .copying path)
      (hle : n ≤ conn.there.bytes.length) :
      Serves cfg k files conn
        { conn with
          there := { conn.there with bytes := conn.there.bytes.drop n }
          copied := conn.copied ++ conn.there.bytes.take n }
        (some (path, patch ((files path).getD []) conn.copied.length (conn.there.bytes.take n))) []
  | copyFails (path : String) (n : Nat) (e : String) (htask : conn.task = .copying path)
      (hle : n ≤ conn.there.bytes.length) :
      Serves cfg k files conn
        { conn with
          task := .finished (some (.transferFailed e))
          copied := conn.copied ++ conn.there.bytes.take n }
        (some (path, patch ((files path).getD []) conn.copied.length (conn.there.bytes.take n))) []
  | succeeds (path : String) (htask : conn.task = .copying path) (hbytes : conn.there.bytes = [])
      (hended : conn.there.ended = some (.ok ())) :
      Serves cfg k files conn
        { conn with task := .finished (some (.success conn.copied.length)) } none []
  /-- A reply that cannot be written, a file that cannot be opened, a stream that breaks. -/
  | givesUp (report : Report) (hreport : ∀ n, report ≠ .success n) (hop : conn.task.op = none) :
      Serves cfg k files conn { conn with task := .finished (some report) } none []
  | sends (s : Sender) (hsender : conn.sender = some s) (conn' : Conn)
      (hsends : Sends cfg conn s conn') : Serves cfg k files conn conn' none []
  /-- It returns, with a stream that has its end. -/
  | leaves (s : Sender) (hsender : conn.sender = some s) (res : Except String Unit) :
      Serves cfg k files conn { conn with sender := some { s with stage := .done res } } none []
  | drops (s : Sender) (hsender : conn.sender = some s) (res : Except String Unit) (there : Nat)
      (r : Except String Unit) {events : List Event}
      (hevents : events = [.cut k] ∨ events = [] ∧ ∃ report, conn.task = .finished report) :
      Serves cfg k files conn
        { conn with
          there := conn.there.cut there r
          sender := some { s with stage := .done res } } none events
  | foreign (b : Bytes) (hsender : conn.sender = none) :
      Serves cfg k files conn { conn with there := conn.there.push b } none []
  | cut (there back : Nat) (r : Except String Unit) {events : List Event}
      (hevents : events = [.cut k] ∨ events = [] ∧ ∃ report, conn.task = .finished report) :
      Serves cfg k files conn
        { conn with there := conn.there.cut there r, back := conn.back.cut back r } none events

section Steps

variable {cfg : Config} {k : Nat} {files : String → Option Bytes} {conn conn' : Conn}
  {written : Written} {events : List Event} {w w' : World}

theorem reply_serves {r : Except String Unit} (h : conn.reply cfg r = some conn') :
    Serves cfg k files conn conn' none [] := by
  unfold Conn.reply at h
  split at h
  · rename_i htask
    cases h
    exact .refuses _ _ r htask
  · rename_i filename path htask
    split at h
    · cases h
      exact .refuses _ _ r htask
    · rename_i hpath
      split at h
      · cases h
        exact .givesUp _ (by simp) (by rw [htask]; rfl)
      · cases h
        exact .accepts filename path htask hpath
  · cases h

theorem readReply_sends {s : Sender} (h : conn.readReply cfg s = some conn') :
    Sends cfg conn s conn' := by
  unfold Conn.readReply at h
  split at h
  · rename_i hstage
    have hgoing : ∀ r, s.stage ≠ .done r := by simp [hstage]
    obtain ⟨r, hr, rfl⟩ := Option.map_eq_some_iff.mp h
    split
    · exact .stops conn.back _ hgoing
    · rename_i reply back
      split
      · rename_i action hreply
        exact .hears reply back hstage hr action hreply
      · exact .stops back _ hgoing
  · cases h

theorem push_of_open {p : Pipe} (h : p.ended = none) (b : Bytes) :
    p.push b = { p with bytes := p.bytes ++ b } := by
  simp [Pipe.push, h]

theorem send_sends {s : Sender} {a : ConnAct} (h : conn.send cfg s a = some conn') :
    Sends cfg conn s conn' := by
  unfold Conn.send at h
  split at h
  · split at h
    · rename_i hstage
      cases h
      exact .proposes hstage
    · cases h
  · exact readReply_sends h
  · split at h
    · rename_i hstage
      split at h
      · rename_i hn
        have hopen := Option.isNone_iff_eq_none.mp hn.2.2
        cases h
        rw [push_of_open hopen]
        exact .pumps _ hstage hn.2.1 hopen
      · cases h
    · cases h
  · split at h
    · rename_i hstage
      split at h
      · rename_i hn
        cases h
        exact .shuts hstage hn.1 (Option.isNone_iff_eq_none.mp hn.2)
      · cases h
    · cases h
  · cases h

theorem Sends.same {s : Sender} (h : Sends cfg conn s conn') :
    conn'.nick = conn.nick ∧ conn'.task = conn.task ∧ conn'.copied = conn.copied ∧
      conn'.replied = conn.replied := by
  cases h <;> exact ⟨rfl, rfl, rfl, rfl⟩

theorem cutEvents_cases (k : Nat) (conn : Conn) :
    conn.cutEvents k = [.cut k] ∨
      conn.cutEvents k = [] ∧ ∃ report, conn.task = .finished report := by
  unfold Conn.cutEvents
  split
  · rename_i htask
    exact Or.inr ⟨rfl, _, htask⟩
  · exact Or.inl rfl

theorem leave_serves {s : Sender} (hsender : conn.sender = some s) (res : Except String Unit)
    (n : Nat) (r : Except String Unit) :
    Serves cfg k files conn (conn.leave s res n r) none (conn.leaveEvents k) := by
  unfold Conn.leave Conn.leaveEvents Pipe.hangUp
  split
  · exact .leaves s hsender res
  · exact .drops s hsender res n r (cutEvents_cases k conn)

theorem step_serves {a : ConnAct} (h : conn.step cfg k files a = some (conn', written, events)) :
    Serves cfg k files conn conn' written events := by
  unfold Conn.step at h
  split at h
  · obtain ⟨conn₁, hreply, heq⟩ := Option.map_eq_some_iff.mp h
    cases heq
    exact reply_serves hreply
  · split at h
    · rename_i filename path htask
      cases h
      exact .opens filename path htask
    · rename_i htask
      cases h
      exact .givesUp _ (by simp) (by rw [htask]; rfl)
    · cases h
  · split at h
    · rename_i path htask
      split at h
      · rename_i hn
        cases h
        exact .copies path _ htask hn.2
      · cases h
    · cases h
  · split at h
    · rename_i path htask
      split at h
      · rename_i hle
        cases h
        exact .copyFails path _ _ htask hle
      · cases h
    · cases h
  · split at h
    · rename_i path htask hbytes hended
      cases h
      exact .succeeds path htask hbytes hended
    · rename_i htask _ _
      cases h
      exact .givesUp _ (by simp) (by rw [htask]; rfl)
    · cases h
  · split at h
    · rename_i hsender
      cases h
      exact .foreign _ hsender
    · cases h
  · cases h
    exact .cut _ _ _ (cutEvents_cases k conn)
  · obtain ⟨s, hsender, h⟩ := Option.bind_eq_some_iff.mp h
    split at h
    · cases h
    · cases h
      exact leave_serves hsender _ _ _
  · obtain ⟨s, hsender, h⟩ := Option.bind_eq_some_iff.mp h
    split at h
    · cases h
      exact leave_serves hsender _ _ _
    · cases h
  · obtain ⟨s, hsender, h⟩ := Option.bind_eq_some_iff.mp h
    obtain ⟨conn₁, hsend, heq⟩ := Option.map_eq_some_iff.mp h
    cases heq
    exact .sends s hsender _ (send_sends hsend)

theorem connStep_eq_some {a : ConnAct} (h : w.connStep cfg k a = some w') :
    ∃ conn conn' written events, w.conns[k]? = some conn ∧
      Serves cfg k (w.read cfg) conn conn' written events ∧
      w' = { w.write cfg written with
        conns := w.conns.set k conn', log := w.log ++ events } := by
  obtain ⟨conn, hk, h⟩ := Option.bind_eq_some_iff.mp h
  obtain ⟨⟨conn', written, events⟩, hstep, h⟩ := Option.bind_eq_some_iff.mp h
  cases h
  refine ⟨conn, conn', written, events, hk, step_serves hstep, ?_⟩
  unfold World.write
  split
  · rfl
  · split <;> rfl

theorem write_of_ne {path : String} (hpath : cfg.leads path ≠ cfg.bookFile) (b : Bytes) :
    w.write cfg (some (path, b)) =
      { w with files := Function.update w.files (cfg.leads path) (some b) } := by
  unfold World.write
  exact if_neg hpath

theorem read_of_ne {path : String} (hpath : cfg.leads path ≠ cfg.bookFile) :
    w.read cfg path = w.files (cfg.leads path) := by
  unfold World.read
  exact if_neg hpath

theorem respond_eq_some {response : SyncResponse} (h : w.respond cfg k response = some w') :
    ∃ conn p filename store, w.conns[k]? = some conn ∧ conn.task = .asking p filename ∧
      bookStep cfg w.store (.answer p response) = some store ∧
      w' = if response.accepted then
        { w.setTask k conn (.saving p filename (response.savePath.getD "")) with
          store := store
          log := w.log ++ [.consented k conn.nick filename (response.savePath.getD "")] }
      else { w.setTask k conn (.replying filename none) with store := store } := by
  obtain ⟨conn, hk, h⟩ := Option.bind_eq_some_iff.mp h
  split at h
  · rename_i p filename htask
    obtain ⟨store, hstore, h⟩ := Option.bind_eq_some_iff.mp h
    refine ⟨conn, p, filename, store, hk, htask, hstore, ?_⟩
    split at h
    · rename_i hyes
      rw [if_pos hyes]
      exact (Option.some.inj h).symm
    · rename_i hno
      rw [if_neg hno]
      exact (Option.some.inj h).symm
  · cases h

/-- What each answer keeps, the poll and the buttons keep. -/
theorem dropAll_invariant {I : World → Prop} (hrespond : ∀ w k w',
      I w → w.respond cfg k refusal = some w' → I w') {requests : List Request}
    (h : w.dropAll cfg requests = some w') (hw : I w) : I w' := by
  induction requests generalizing w with
  | nil =>
    cases h
    exact hw
  | cons r requests ih =>
    obtain ⟨m, hm, h⟩ := Option.bind_eq_some_iff.mp h
    exact ih h (hrespond _ _ _ hw hm)

end Steps

/-! ### A push to run the model with -/

section Compact

open Bincode Coding

/-- A text as its bytes. -/
def utf8Text : Codec Text :=
  (Codec.list count byte).restrict fromUtf8 utf8 fromUtf8_utf8 utf8_of_fromUtf8

def shortRecord : Codec FriendRecord :=
  (Coding.string.seq fun _ => utf8Text.seq fun _ => (Codec.list count sharedVault).seq fun _ =>
    option u64).iso
    (fun p => ⟨p.1, p.2.1, p.2.2.1, p.2.2.2⟩)
    (fun f => (f.nickname, f.url, f.sharedVaults, f.lastSeen)) (fun _ => rfl) (fun _ => rfl)

def messageCodec : Codec SyncMessage :=
  ((Codec.list count Coding.string).seq fun _ => Codec.list count u64).restrict
    (fun
      | ([filename], [lastModified]) => some (.proposal filename lastModified)
      | ([action], []) => some (.accept action)
      | ([], []) => some .reject
      | _ => none)
    (fun
      | .proposal filename lastModified => ([filename], [lastModified])
      | .accept action => ([action], [])
      | .reject => ([], []))
    (by
      intro m
      cases m <;> rfl)
    (by
      intro p m h
      split at h <;> cases h <;> rfl)

end Compact

def parseMessage (b : Bytes) : Except String SyncMessage :=
  match messageCodec.dec b with
  | some (m, []) => .ok m
  | _ => .error "expected value"

/-- The bytes of the codec, none of which looks like the end of a line. -/
def sampleMessages : Json SyncMessage where
  write m := (messageCodec.enc m).map fun b => Char.ofNat (b.toNat + 256)
  read t := parseMessage ((t.filter (· ≠ '\n')).map fun c => UInt8.ofNat (c.toNat - 256))

def sampleConfig : Config where
  u := sampleUnicode
  tx := sampleTexts
  ed := sampleEd
  cipher := sampleCipher
  friends := Json.inBrackets (.ofCodec (Codec.list Bincode.count shortRecord))
  messages := sampleMessages
  home := some "/home/u".toList
  leads path := if path = "/w/../v" then "/v" else path
  bookFile := "/home/u/.atom_vault/friends.json"
  gui := true

def sampleSecret : List.Vector UInt8 32 := List.Vector.replicate _ 5

end AtomVault.Daemon.Push
