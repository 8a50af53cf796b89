import Mathlib.Data.List.ReduceOption
import AtomVault.Lib.Keyed
import AtomVault.Daemon.Push

/-!
# Who has agreed to what

Every entry of a list of friends can be traced to where it came from: the file as it was, a link
that was added, or a path that the user has given. A file that the daemon writes is one of these
paths.
-/

open Lib

namespace AtomVault.Daemon.Push

open Live Book Receive

/-! ## Where an entry comes from -/

section Entries

variable (init : List FriendRecord) (log : List Event)

/-- The link was in the book, or was added to it. -/
def Linked (nick : String) (url : Text) : Prop :=
  (∃ f ∈ init, f.nickname = nick ∧ f.url = url) ∨ .added nick url ∈ log

/-- The path was in the book for that name, or the user has agreed to it. -/
def Agreed (nick filename path : String) : Prop :=
  (∃ f ∈ init, f.nickname = nick ∧
    ∃ v ∈ f.sharedVaults, v.originalName = filename ∧ v.localPath = path) ∨
  ∃ k, .consented k nick filename path ∈ log

structure Known (friends : List FriendRecord) : Prop where
  links : ∀ f ∈ friends, Linked init log f.nickname f.url
  vaults : ∀ f ∈ friends, ∀ v ∈ f.sharedVaults,
    Agreed init log f.nickname v.originalName v.localPath

end Entries

section Known

variable {init friends : List FriendRecord} {log log' : List Event} {nick filename path : String}

theorem Linked.mono (hlog : log ⊆ log') {url : Text} (h : Linked init log nick url) :
    Linked init log' nick url := by
  rcases h with h | h
  · exact Or.inl h
  · exact Or.inr (hlog h)

theorem Agreed.mono (hlog : log ⊆ log') (h : Agreed init log nick filename path) :
    Agreed init log' nick filename path := by
  rcases h with h | ⟨k, h⟩
  · exact Or.inl h
  · exact Or.inr ⟨k, hlog h⟩

theorem Known.mono (hlog : log ⊆ log') (h : Known init log friends) : Known init log' friends where
  links f hf := (h.links f hf).mono hlog
  vaults f hf v hv := (h.vaults f hf v hv).mono hlog

theorem known_nil : Known init log [] := ⟨by simp, by simp⟩

theorem Known.modify (h : Known init log friends) {g : FriendRecord → FriendRecord}
    (hlink : ∀ f ∈ friends, f.nickname = nick → Linked init log (g f).nickname (g f).url)
    (hvault : ∀ f ∈ friends, f.nickname = nick → ∀ v ∈ (g f).sharedVaults,
      Agreed init log (g f).nickname v.originalName v.localPath) :
    Known init log (modifyFriend nick g friends) := by
  refine ⟨fun f hf => ?_, fun f hf => ?_⟩
  · rcases mem_modify_findIdx hf with hf | ⟨a, ha, hnick, rfl⟩
    · exact h.links f hf
    · exact hlink a ha (by simpa using hnick)
  · rcases mem_modify_findIdx hf with hf | ⟨a, ha, hnick, rfl⟩
    · exact h.vaults f hf
    · exact hvault a ha (by simpa using hnick)

theorem Known.friend (h : Known init log friends) {url : Text} (hurl : Linked init log nick url) :
    Known init log ((Update.friend nick url).apply friends) := by
  simp only [Update.apply]
  split
  · refine h.modify (fun f _ hnick => ?_) fun f hf _ => h.vaults f hf
    rw [hnick]
    exact hurl
  · refine ⟨fun f hf => ?_, fun f hf => ?_⟩
    · rcases List.mem_append.mp hf with hf | hf
      · exact h.links f hf
      · rw [List.mem_singleton.mp hf]
        exact hurl
    · rcases List.mem_append.mp hf with hf | hf
      · exact h.vaults f hf
      · rw [List.mem_singleton.mp hf]
        simp

theorem Known.push (h : Known init log friends) {v : SharedVault}
    (hv : Agreed init log nick v.originalName v.localPath) :
    Known init log (pushVault nick v friends) := by
  refine h.modify (fun f hf _ => h.links f hf) fun f hf hnick w hw => ?_
  rcases List.mem_append.mp hw with hw | hw
  · exact h.vaults f hf w hw
  · obtain rfl := List.mem_singleton.mp hw
    show Agreed init log f.nickname w.originalName w.localPath
    rw [hnick]
    exact hv

theorem Known.seen (h : Known init log friends) {now : UInt64} :
    Known init log (modifyFriend nick (fun f => { f with lastSeen := some now }) friends) :=
  h.modify (fun f hf _ => h.links f hf) fun f hf _ => h.vaults f hf

theorem Known.agreed (h : Known init log friends) {v : SharedVault}
    (hv : knownVault friends nick filename = some v) :
    Agreed init log nick filename v.localPath := by
  obtain ⟨f, hf, hv⟩ := Option.bind_eq_some_iff.mp hv
  have hnick : f.nickname = nick := by simpa using List.find?_some hf
  have hname : v.originalName = filename := by simpa using List.find?_some hv
  have hagreed := h.vaults f (List.mem_of_find?_eq_some hf) v (List.mem_of_find?_eq_some hv)
  rwa [hnick, hname] at hagreed

end Known

/-! ## What a load gives -/

/-- A save has emptied the file. Each save starts with the magic, and what was never written is
zeros. -/
def Begun (file : Option Bytes) : Prop :=
  ∃ raw, file = some raw ∧ ∀ b ∈ raw.head?, b = 65 ∨ b = 0

/-- The key is in the keyring and nowhere else: what opens was sealed by a save. -/
def Unforged (cfg : Config) (init : List FriendRecord) (w : World) : Prop :=
  ∀ raw ∈ w.store.file, raw.take MAGIC.length = MAGIC →
    ∀ p, decryptConfig cfg.cipher raw = .ok p →
      ∃ friends ∈ init :: w.saves, p = utf8 (cfg.friends.write friends)

section Loads

variable {cfg : Config} {init friends : List FriendRecord} {file₀ : Option Bytes} {w : World}

end Loads

/-! ## The operations on the book -/

/-- What an operation has in hand can be traced. -/
def Fine (cfg : Config) (init : List FriendRecord) (log : List Event) (file : Option Bytes)
    (p : Proc) : Prop :=
  match p.phase with
  | .asking base => Known init log base
  | .saving _ friends => Known init log friends
  | .writing data _ =>
    Begun file ∧ ∃ nonce friends, data = friendsData cfg.cipher cfg.friends nonce friends
  | _ => True

structure Books (cfg : Config) (init : List FriendRecord) (file₀ : Option Bytes) (log : List Event)
    (saves : List (List FriendRecord)) (s : Store) : Prop where
  file : s.file = file₀ ∨ Begun s.file
  procs : ∀ p ∈ s.procs, Fine cfg init log s.file p
  saves : ∀ friends ∈ saves, Known init log friends

section Books

variable {cfg : Config} {init : List FriendRecord} {file₀ file file' : Option Bytes}
  {log log' : List Event} {saves : List (List FriendRecord)} {s s' : Store} {p : Proc}

theorem Fine.mono (hlog : log ⊆ log') (h : Fine cfg init log file p) :
    Fine cfg init log' file p := by
  unfold Fine at h ⊢
  split <;> rename_i hphase <;> simp only [hphase] at h
  · exact h.mono hlog
  · exact h.mono hlog
  · exact h
  · trivial

theorem Fine.of_begun (hfile : Begun file') (h : Fine cfg init log file p) :
    Fine cfg init log file' p := by
  unfold Fine at h ⊢
  split <;> rename_i hphase <;> simp only [hphase] at h
  · exact h
  · exact h
  · exact ⟨hfile, h.2⟩
  · trivial

theorem Books.mono (hlog : log ⊆ log') (h : Books cfg init file₀ log saves s) :
    Books cfg init file₀ log' saves s where
  file := h.file
  procs p hp := (h.procs p hp).mono hlog
  saves friends hfriends := (h.saves friends hfriends).mono hlog

theorem Books.begin (h : Books cfg init file₀ log saves s) (op : Op) :
    Books cfg init file₀ log saves { s with procs := s.procs ++ [⟨op, .begun, none⟩] } where
  file := h.file
  procs q hq := by
    rcases List.mem_append.mp hq with hq | hq
    · exact h.procs q hq
    · rw [List.mem_singleton.mp hq]
      trivial
  saves := h.saves

theorem Books.set (h : Books cfg init file₀ log saves s) (k : Nat)
    (hp : Fine cfg init log s.file p) :
    Books cfg init file₀ log saves { s with procs := s.procs.set k p } where
  file := h.file
  procs q hq := by
    rcases List.mem_or_eq_of_mem_set hq with hq | rfl
    · exact h.procs q hq
    · exact hp
  saves := h.saves

variable (cfg) in
theorem head?_friendsData (nonce : List.Vector UInt8 24) (friends : List FriendRecord) (n : Nat) :
    ∀ b ∈ (slice (friendsData cfg.cipher cfg.friends nonce friends) 0 n).head?, b = 65 := by
  intro b hb
  cases n with
  | zero => simp [slice] at hb
  | succ n =>
    have hstart : friendsData cfg.cipher cfg.friends nonce friends = 65 :: (MAGIC.tail ++
      (nonce.toList ++ cfg.cipher.encrypt nonce (utf8 (cfg.friends.write friends)))) := rfl
    rw [hstart] at hb
    simpa [slice] using hb.symm

variable (cfg) in
theorem begun_patch (h : Begun file) (nonce : List.Vector UInt8 24) (friends : List FriendRecord)
    (done n : Nat) : Begun (some (patch (file.getD []) done
      (slice (friendsData cfg.cipher cfg.friends nonce friends) done n))) := by
  obtain ⟨raw, rfl, hraw⟩ := h
  refine ⟨_, rfl, fun b hb => ?_⟩
  rw [Option.getD_some] at hb
  unfold patch at hb
  cases done with
  | zero =>
    generalize hdata : slice (friendsData cfg.cipher cfg.friends nonce friends) 0 n = data at hb
    have hhead := head?_friendsData cfg nonce friends n
    rw [hdata] at hhead
    cases data with
    | nil =>
      simp only [List.take_zero, Nat.zero_sub, List.replicate_zero, List.nil_append,
        List.length_nil, Nat.add_zero, List.drop_zero] at hb
      exact hraw b hb
    | cons x data =>
      simp only [List.take_zero, Nat.zero_sub, List.replicate_zero, List.nil_append,
        List.cons_append, List.head?_cons] at hb
      exact Or.inl (hhead b (by simpa using hb))
  | succ done =>
    cases raw with
    | nil =>
      simp only [List.take_nil, List.nil_append, List.length_nil, Nat.sub_zero,
        List.replicate_succ, List.cons_append, List.head?_cons, Option.mem_def,
        Option.some.injEq] at hb
      exact Or.inr hb.symm
    | cons x raw =>
      simp only [List.take_succ_cons, List.cons_append, List.head?_cons] at hb
      exact hraw b hb

theorem fine_afterLoad {loaded : Option (List FriendRecord)}
    (hloaded : ∀ friends ∈ loaded, Known init log friends)
    (hadded : ∀ nick url,
      (afterLoad cfg.u cfg.tx cfg.ed p loaded).update = some (.friend nick url) →
        .added nick url ∈ log) (hphase : p.phase = .begun) :
    Fine cfg init log file (afterLoad cfg.u cfg.tx cfg.ed p loaded) := by
  have hbegun : Fine cfg init log file p := by
    unfold Fine
    rw [hphase]
    trivial
  unfold afterLoad at hadded ⊢
  split
  · split
    · trivial
    · rename_i friends
      split
      · trivial
      · exact hloaded friends rfl
  · rename_i home url nick hop
    rw [hop] at hadded
    dsimp only at hadded
    split
    · rename_i msg friends hadd
      rw [hadd] at hadded
      obtain ⟨base, -, key, hbase, -, hto⟩ := addFriendCore_eq_ok hadd
      obtain rfl := addTo_eq_ok hto
      exact (hloaded base hbase).friend (Or.inr (hadded nick url rfl))
    · trivial
  · split
    · trivial
    · rename_i friends
      split
      · rename_i friends' hseen
        unfold updateFriendLastSeen at hseen
        split at hseen
        · cases hseen
          exact (hloaded friends rfl).seen
        · cases hseen
      · trivial

theorem load_eq_some {k : Nat} {a : Book.Act} (ha : a = .load k ∨ a = .loadFails k)
    (h : bookStep cfg s a = some s') :
    ∃ p loaded, s.procs[k]? = some p ∧ p.phase = .begun ∧
      (loaded = loadFriends cfg.cipher cfg.friends s.file ∨ loaded = some []) ∧
      s' = { s with procs := s.procs.set k (afterLoad cfg.u cfg.tx cfg.ed p loaded) } := by
  rcases ha with rfl | rfl
  · obtain ⟨p, hk, h⟩ := Option.bind_eq_some_iff.mp h
    split at h
    · rename_i hphase
      exact ⟨p, _, hk, hphase, Or.inl rfl, (Option.some.inj h).symm⟩
    · cases h
  · obtain ⟨p, hk, h⟩ := Option.bind_eq_some_iff.mp h
    split at h
    · rename_i hphase
      exact ⟨p, _, hk, hphase, Or.inr rfl, (Option.some.inj h).symm⟩
    · cases h

theorem Books.load (h : Books cfg init file₀ log saves s) {k : Nat} {a : Book.Act}
    (ha : a = .load k ∨ a = .loadFails k)
    (hfriends : ∀ friends ∈ loadFriends cfg.cipher cfg.friends s.file, Known init log friends)
    (hadded : ∀ p ∈ s'.procs[k]?, ∀ nick url, p.update = some (.friend nick url) →
      .added nick url ∈ log) (hstep : bookStep cfg s a = some s') :
    Books cfg init file₀ log saves s' := by
  obtain ⟨p, loaded, hk, hphase, hcases, rfl⟩ := load_eq_some ha hstep
  have hloaded : ∀ friends ∈ loaded, Known init log friends := by
    rcases hcases with rfl | rfl
    · exact hfriends
    · intro friends hnil
      rw [← Option.some.inj (Option.mem_def.mp hnil)]
      exact known_nil
  refine h.set k
    (fine_afterLoad hloaded (fun nick url hupdate => hadded _ ?_ nick url hupdate) hphase)
  exact List.getElem?_set_self (List.getElem?_eq_some_iff.mp hk).1

theorem update_proposal {nick filename : String} {lastModified : UInt64}
    {loaded : Option (List FriendRecord)} {nick' : String} {url : Text} :
    (afterLoad cfg.u cfg.tx cfg.ed ⟨.proposal nick filename lastModified, .begun, none⟩
      loaded).update ≠ some (.friend nick' url) := by
  unfold afterLoad Proc.finish
  dsimp only
  split
  · simp
  · split <;> simp

theorem Books.answer (h : Books cfg init file₀ log saves s) {k : Nat} {response : SyncResponse}
    {nick filename : String} {lastModified : UInt64}
    (hop : ∀ p ∈ s.procs[k]?, p.op = .proposal nick filename lastModified)
    (hagreed : response.accepted = true →
      Agreed init log nick filename (response.savePath.getD ""))
    (hstep : bookStep cfg s (.answer k response) = some s') :
    Books cfg init file₀ log saves s' := by
  obtain ⟨p, hk, hstep⟩ := Option.bind_eq_some_iff.mp hstep
  split at hstep
  · rename_i base hphase
    cases hstep
    have hbase : Known init log base := by
      have hp := h.procs p (List.mem_of_getElem? hk)
      unfold Fine at hp
      rwa [hphase] at hp
    refine h.set k ?_
    unfold afterAnswer
    rw [hop p hk]
    dsimp only
    split
    · rename_i hyes
      exact hbase.push (v := acceptedVault filename lastModified response) (hagreed hyes)
    · trivial
  · cases hstep

theorem Books.openFile (h : Books cfg init file₀ log saves s) {k : Nat}
    {nonce : List.Vector UInt8 24} (hstep : bookStep cfg s (.openFile k nonce) = some s') :
    ∃ p base friends, s.procs[k]? = some p ∧ p.phase = .saving base friends ∧
      Books cfg init file₀ log (saves ++ [friends]) s' := by
  obtain ⟨p, hk, hstep⟩ := Option.bind_eq_some_iff.mp hstep
  split at hstep
  · rename_i base friends hphase
    cases hstep
    have hfriends : Known init log friends := by
      have hp := h.procs p (List.mem_of_getElem? hk)
      unfold Fine at hp
      rwa [hphase] at hp
    have hempty : Begun (some []) := ⟨[], rfl, by simp⟩
    refine ⟨p, base, friends, hk, hphase, Or.inr hempty, fun q hq => ?_, fun l hl => ?_⟩
    · rcases List.mem_or_eq_of_mem_set hq with hq | rfl
      · exact (h.procs q hq).of_begun hempty
      · exact ⟨hempty, nonce, friends, rfl⟩
    · rcases List.mem_append.mp hl with hl | hl
      · exact h.saves l hl
      · rw [List.mem_singleton.mp hl]
        exact hfriends
  · cases hstep

theorem Books.write (h : Books cfg init file₀ log saves s) {k n : Nat}
    (hstep : bookStep cfg s (.write k n) = some s') : Books cfg init file₀ log saves s' := by
  obtain ⟨p, hk, hstep⟩ := Option.bind_eq_some_iff.mp hstep
  split at hstep
  · rename_i data done hphase
    split at hstep
    · cases hstep
      have hp := h.procs p (List.mem_of_getElem? hk)
      unfold Fine at hp
      rw [hphase] at hp
      obtain ⟨hbegun, nonce, friends, rfl⟩ := hp
      have hafter := begun_patch cfg hbegun nonce friends done n
      refine ⟨Or.inr hafter, fun q hq => ?_, h.saves⟩
      rcases List.mem_or_eq_of_mem_set hq with hq | rfl
      · exact (h.procs q hq).of_begun hafter
      · unfold Fine
        by_cases hend : done + n = (friendsData cfg.cipher cfg.friends nonce friends).length
        · simp only [if_pos hend]
        · simp only [if_neg hend]
          exact ⟨hafter, nonce, friends, rfl⟩
    · cases hstep
  · cases hstep

/-- A save that fails is dropped, with the file as it is. -/
theorem Books.saveFails (h : Books cfg init file₀ log saves s) {k : Nat} {a : Book.Act}
    (ha : a = .openFails k ∨ a = .writeFails k) (hstep : bookStep cfg s a = some s') :
    Books cfg init file₀ log saves s' := by
  rcases ha with rfl | rfl
  all_goals
    obtain ⟨p, hk, hstep⟩ := Option.bind_eq_some_iff.mp hstep
    split at hstep
    · cases hstep
      exact h.set k trivial
    · cases hstep

end Books

/-! ## Who is connected -/

/-- The peer has signed with the key of a link that stands under the nickname. -/
def Proved (cfg : Config) (init : List FriendRecord) (log : List Event) (k : Nat) (nick : String) :
    Prop :=
  ∃ key secret payload, .connected k nick key secret payload ∈ log ∧
    (∃ sig : List.Vector UInt8 64, payload = key.toList ++ sig.toList ∧
      cfg.ed.verifyStrict key secret.toList sig = true) ∧
    ∃ url, Linked init log nick url ∧ keyOf cfg.tx cfg.ed url = some (some key)

section Keys

variable {cfg : Config} {init friends : List FriendRecord} {log log' : List Event}
  {keys : List VerifyingKey} {key : VerifyingKey} {k : Nat} {nick : String}

theorem Proved.mono (hlog : log ⊆ log') (h : Proved cfg init log k nick) :
    Proved cfg init log' k nick := by
  obtain ⟨key, secret, payload, hconn, hsig, url, hurl, hkey⟩ := h
  exact ⟨key, secret, payload, hlog hconn, hsig, url, hurl.mono hlog, hkey⟩

theorem mem_of_mapM {α β : Type} {f : α → Option β} {l : List α} {l' : List β}
    (h : l.mapM f = some l') {b : β} (hb : b ∈ l') : ∃ a ∈ l, f a = some b := by
  induction l generalizing l' with
  | nil =>
    cases h
    cases hb
  | cons a l ih =>
    rw [List.mapM_cons] at h
    obtain ⟨c, hc, h⟩ := Option.bind_eq_some_iff.mp h
    obtain ⟨l'', hl, h⟩ := Option.bind_eq_some_iff.mp h
    cases h
    rcases List.mem_cons.mp hb with rfl | hb
    · exact ⟨a, List.mem_cons_self, hc⟩
    · obtain ⟨d, hd, hf⟩ := ih hl hb
      exact ⟨d, List.mem_cons_of_mem _ hd, hf⟩

theorem exists_nickOf (hkeys : authorizedKeys cfg.tx cfg.ed friends = some keys)
    (hkey : key ∈ keys) :
    ∃ f ∈ friends, f.nickname = nickOf cfg friends key ∧
      keyOf cfg.tx cfg.ed f.url = some (some key) := by
  obtain ⟨found, hfound, rfl⟩ := Option.map_eq_some_iff.mp hkeys
  obtain ⟨f, hf, hurl⟩ := mem_of_mapM hfound (List.reduceOption_mem_iff.mp hkey)
  unfold nickOf
  cases hfirst : friends.find? fun f => keyOf cfg.tx cfg.ed f.url = some (some key) with
  | none =>
    have hno := List.find?_eq_none.mp hfirst f hf
    exact absurd hurl (by simpa using hno)
  | some g =>
    exact ⟨g, List.mem_of_find?_eq_some hfirst, rfl, by simpa using List.find?_some hfirst⟩

end Keys

/-! ## Every step -/

/-- What a task is going to open was agreed to, and what it has open was opened. -/
def Cleared (init : List FriendRecord) (log : List Event) (s : Store) (k : Nat) (conn : Conn) :
    Prop :=
  match conn.task with
  | .asking p filename => ∃ proc lastModified, s.procs[p]? = some proc ∧
      proc.op = .proposal conn.nick filename lastModified
  | .saving _ filename path => Agreed init log conn.nick filename path
  | .replying filename (some path) => Agreed init log conn.nick filename path
  | .creating filename path => path ≠ "" ∧ Agreed init log conn.nick filename path
  | .copying path => ∃ filename, .opened k conn.nick filename path ∈ log
  | _ => True

structure Served (cfg : Config) (init : List FriendRecord) (log : List Event) (s : Store) (k : Nat)
    (conn : Conn) : Prop where
  proved : Proved cfg init log k conn.nick
  cleared : Cleared init log s k conn

/-- No operation becomes another one. -/
def SameOps (s s' : Store) : Prop :=
  ∀ (p : Nat) (proc : Proc), s.procs[p]? = some proc →
    ∃ proc' : Proc, s'.procs[p]? = some proc' ∧ proc'.op = proc.op

structure Traced (cfg : Config) (init : List FriendRecord) (file₀ : Option Bytes)
    (files₀ : String → Option Bytes) (w : World) : Prop where
  books : Books cfg init file₀ w.log w.saves w.store
  accepting : ∀ friends ∈ w.accepting, Known init w.log friends
  conns : ∀ k conn, w.conns[k]? = some conn → Served cfg init w.log w.store k conn
  opened : ∀ k nick filename path, .opened k nick filename path ∈ w.log →
    path ≠ "" ∧ Proved cfg init w.log k nick ∧ Agreed init w.log nick filename path
  files : ∀ file, w.files file ≠ files₀ file →
    ∃ k nick filename path, .opened k nick filename path ∈ w.log ∧ cfg.leads path = file

section Steps

variable {cfg : Config} {init : List FriendRecord} {file₀ : Option Bytes}
  {files₀ : String → Option Bytes} {w w' : World} {log log' : List Event} {s s' : Store} {k : Nat}
  {conn conn' : Conn}

theorem SameOps.refl : SameOps s s := fun _ proc h => ⟨proc, h, rfl⟩

theorem SameOps.set {p : Nat} {proc proc' : Proc} (hp : s.procs[p]? = some proc)
    (hop : proc'.op = proc.op) (file : Option Bytes) :
    SameOps s ⟨file, s.procs.set p proc'⟩ := by
  intro q other hq
  by_cases hqp : q = p
  · subst hqp
    cases hp.symm.trans hq
    exact ⟨proc', List.getElem?_set_self (List.getElem?_eq_some_iff.mp hp).1, hop⟩
  · exact ⟨other, (List.getElem?_set_ne (Ne.symm hqp)).trans hq, rfl⟩

theorem op_afterLoad (p : Proc) (loaded : Option (List FriendRecord)) :
    (afterLoad cfg.u cfg.tx cfg.ed p loaded).op = p.op := by
  unfold afterLoad Proc.finish Proc.save
  split
  · split
    · rfl
    · split <;> rfl
  · split <;> rfl
  · split
    · rfl
    · split <;> rfl

theorem op_afterAnswer (p : Proc) (base : List FriendRecord) (response : SyncResponse) :
    (afterAnswer p base response).op = p.op := by
  unfold afterAnswer Proc.finish Proc.save
  split
  · split <;> rfl
  · rfl

theorem sameOps_bookStep {a : Book.Act} (h : bookStep cfg s a = some s') : SameOps s s' := by
  cases a with
  | begin op =>
    cases h
    intro p proc hp
    exact ⟨proc, getElem?_concat_eq_some.mpr (Or.inl hp), rfl⟩
  | load p =>
    obtain ⟨proc, hp, h⟩ := Option.bind_eq_some_iff.mp h
    split at h
    · cases h
      exact .set hp (op_afterLoad _ _) _
    · cases h
  | loadFails p =>
    obtain ⟨proc, hp, h⟩ := Option.bind_eq_some_iff.mp h
    split at h
    · cases h
      exact .set hp (op_afterLoad _ _) _
    · cases h
  | answer p response =>
    obtain ⟨proc, hp, h⟩ := Option.bind_eq_some_iff.mp h
    split at h
    · cases h
      exact .set hp (op_afterAnswer _ _ _) _
    · cases h
  | openFile p _ | openFails p | writeFails p =>
    obtain ⟨proc, hp, h⟩ := Option.bind_eq_some_iff.mp h
    split at h
    · cases h
      refine SameOps.set hp ?_ _
      rfl
    · cases h
  | write p n =>
    obtain ⟨proc, hp, h⟩ := Option.bind_eq_some_iff.mp h
    split at h
    · split at h
      · cases h
        refine SameOps.set hp ?_ _
        rfl
      · cases h
    · cases h

theorem Cleared.mono (hlog : log ⊆ log') (hops : SameOps s s') (h : Cleared init log s k conn) :
    Cleared init log' s' k conn := by
  unfold Cleared at h ⊢
  split <;> rename_i htask <;> simp only [htask] at h
  · obtain ⟨proc, lastModified, hp, hop⟩ := h
    obtain ⟨proc', hp', hop'⟩ := hops _ _ hp
    exact ⟨proc', lastModified, hp', hop'.trans hop⟩
  · exact h.mono hlog
  · exact h.mono hlog
  · exact ⟨h.1, h.2.mono hlog⟩
  · obtain ⟨filename, hopened⟩ := h
    exact ⟨filename, hlog hopened⟩
  · trivial

theorem Served.mono (hlog : log ⊆ log') (hops : SameOps s s')
    (h : Served cfg init log s k conn) : Served cfg init log' s' k conn :=
  ⟨h.proved.mono hlog, h.cleared.mono hlog hops⟩

theorem Traced.next (h : Traced cfg init file₀ files₀ w) (hlog : w.log ⊆ w'.log)
    (hops : SameOps w.store w'.store) (hbooks : Books cfg init file₀ w'.log w'.saves w'.store)
    (haccepting : ∀ friends ∈ w'.accepting, friends ∈ w.accepting ∨ Known init w'.log friends)
    (hconns : ∀ k conn, w'.conns[k]? = some conn →
      w.conns[k]? = some conn ∨ Served cfg init w'.log w'.store k conn)
    (hopened : ∀ k nick filename path, .opened k nick filename path ∈ w'.log →
      .opened k nick filename path ∈ w.log ∨ (path ≠ "" ∧ Proved cfg init w'.log k nick ∧
        Agreed init w'.log nick filename path))
    (hfiles : ∀ file, w'.files file = w.files file ∨
      ∃ k nick filename path, .opened k nick filename path ∈ w'.log ∧ cfg.leads path = file) :
    Traced cfg init file₀ files₀ w' where
  books := hbooks
  accepting friends hfriends := by
    rcases haccepting friends hfriends with h' | h'
    · exact (h.accepting friends h').mono hlog
    · exact h'
  conns k conn hk := by
    rcases hconns k conn hk with h' | h'
    · exact (h.conns k conn h').mono hlog hops
    · exact h'
  opened k nick filename path hm := by
    rcases hopened k nick filename path hm with h' | h'
    · obtain ⟨hpath, hproved, hagreed⟩ := h.opened k nick filename path h'
      exact ⟨hpath, hproved.mono hlog, hagreed.mono hlog⟩
    · exact h'
  files file hchanged := by
    rcases hfiles file with h' | h'
    · rw [h'] at hchanged
      obtain ⟨k, nick, filename, path, hm, hleads⟩ := h.files file hchanged
      exact ⟨k, nick, filename, path, hlog hm, hleads⟩
    · exact h'

theorem Traced.quiet (h : Traced cfg init file₀ files₀ w) (events : List Event)
    (hevents : w'.log = w.log ++ events)
    (hnone : ∀ k nick filename path, .opened k nick filename path ∉ events)
    (hfiles : w'.files = w.files) (hops : SameOps w.store w'.store)
    (hbooks : Books cfg init file₀ w'.log w'.saves w'.store)
    (haccepting : ∀ friends ∈ w'.accepting, friends ∈ w.accepting ∨ Known init w'.log friends)
    (hconns : ∀ k conn, w'.conns[k]? = some conn →
      w.conns[k]? = some conn ∨ Served cfg init w'.log w'.store k conn) :
    Traced cfg init file₀ files₀ w' := by
  refine h.next ?_ hops hbooks haccepting hconns (fun k nick filename path hm => Or.inl ?_)
    fun file => Or.inl (congrFun hfiles file)
  · rw [hevents]
    exact List.subset_append_left _ _
  · rw [hevents] at hm
    exact (List.mem_append.mp hm).resolve_right (hnone k nick filename path)

theorem Traced.loaded (h : Traced cfg init file₀ files₀ w)
    (hload : ∀ friends ∈ loadFriends cfg.cipher cfg.friends w.store.file,
      Known init w.log friends) {p : Nat} {a : Book.Act} (ha : a = .load p ∨ a = .loadFails p)
    (hstep : w.loaded cfg p a = some w') : Traced cfg init file₀ files₀ w' := by
  obtain ⟨store, hstore, hstep⟩ := Option.bind_eq_some_iff.mp hstep
  cases hstep
  refine h.quiet _ rfl (fun k nick filename path => ?_) rfl (sameOps_bookStep hstore) ?_
    (fun _ hf => Or.inl hf) fun _ _ hk => Or.inl hk
  · split <;> simp
  · refine (h.books.mono (List.subset_append_left _ _)).load ha (fun friends hf => ?_)
      (fun proc hproc nick url hupdate => ?_) hstore
    · exact (hload friends hf).mono (List.subset_append_left _ _)
    · rw [Option.mem_def.mp hproc, Option.bind_some, hupdate]
      simp

theorem Traced.book (h : Traced cfg init file₀ files₀ w)
    (hload : ∀ reads friends, w.load cfg reads = some friends → Known init w.log friends)
    {a : Book.Act}
    (hstep : w.book cfg a = some w') : Traced cfg init file₀ files₀ w' := by
  have hquiet : ∀ store saves, bookStep cfg w.store a = some store →
      Books cfg init file₀ w.log saves store →
      Traced cfg init file₀ files₀ { w with store := store, saves := saves } := by
    intro store saves hstore hbooks
    exact h.quiet [] (List.append_nil _).symm (by simp) rfl (sameOps_bookStep hstore)
      hbooks (fun _ hf => Or.inl hf) fun _ _ hk => Or.inl hk
  cases a with
  | begin op =>
    have hbooks := h.books.begin op
    cases op with
    | proposal nick filename lastModified => cases hstep
    | addFriend home url nick =>
      cases hstep
      exact hquiet _ _ rfl hbooks
    | lastSeen nick now =>
      cases hstep
      exact hquiet _ _ rfl hbooks
  | load p => exact h.loaded (fun friends hf => hload true friends hf) (Or.inl rfl) hstep
  | loadFails p => exact h.loaded (fun friends hf => hload true friends hf) (Or.inr rfl) hstep
  | answer p response => cases hstep
  | openFile p nonce =>
    obtain ⟨store, hstore, hstep⟩ := Option.bind_eq_some_iff.mp hstep
    cases hstep
    obtain ⟨proc, base, friends, hp, hphase, hbooks⟩ := h.books.openFile hstore
    rw [hp, Option.map_some, hphase]
    exact hquiet store _ hstore hbooks
  | write p n =>
    obtain ⟨store, hstore, hstep⟩ := Option.bind_eq_some_iff.mp hstep
    cases hstep
    exact hquiet store _ hstore (h.books.write hstore)
  | openFails p =>
    obtain ⟨store, hstore, hstep⟩ := Option.bind_eq_some_iff.mp hstep
    cases hstep
    exact hquiet store _ hstore (h.books.saveFails (Or.inl rfl) hstore)
  | writeFails p =>
    obtain ⟨store, hstore, hstep⟩ := Option.bind_eq_some_iff.mp hstep
    cases hstep
    exact hquiet store _ hstore (h.books.saveFails (Or.inr rfl) hstore)

theorem Traced.request (h : Traced cfg init file₀ files₀ w) {reads : Bool}
    (hload : ∀ friends, w.load cfg reads = some friends → Known init w.log friends)
    (hstep : w.request cfg reads = some w') : Traced cfg init file₀ files₀ w' := by
  unfold World.request at hstep
  split at hstep
  · cases hstep
  · split at hstep
    · cases hstep
      exact ⟨h.books, h.accepting, h.conns, h.opened, h.files⟩
    · rename_i friends hfriends
      split at hstep
      · cases hstep
        exact ⟨h.books, h.accepting, h.conns, h.opened, h.files⟩
      · cases hstep
        refine ⟨h.books, fun l hl => ?_, h.conns, h.opened, h.files⟩
        obtain rfl := Option.some.inj hl
        exact hload friends hfriends

theorem Traced.authenticate (h : Traced cfg init file₀ files₀ w) {secret : List.Vector UInt8 32}
    {payload : Bytes} {sender : Option (String × UInt64 × Bytes)}
    (hstep : w.authenticate cfg secret payload sender = some w') :
    Traced cfg init file₀ files₀ w' := by
  obtain ⟨friends, hfriends, hstep⟩ := Option.bind_eq_some_iff.mp hstep
  obtain ⟨keys, hkeys, hstep⟩ := Option.bind_eq_some_iff.mp hstep
  split at hstep
  · cases hstep
    exact ⟨h.books, by simp, h.conns, h.opened, h.files⟩
  · rename_i session hsession
    cases hstep
    obtain ⟨-, hkey, hsig⟩ := Noise.checkPayload_eq_ok hsession
    obtain ⟨f, hf, hnick, hurl⟩ := exists_nickOf hkeys hkey
    refine h.quiet _ rfl (by simp) rfl .refl (h.books.mono (List.subset_append_left _ _)) (by simp)
      fun k conn hk => ?_
    rcases getElem?_concat_eq_some.mp hk with hk | ⟨rfl, rfl⟩
    · exact Or.inl hk
    · refine Or.inr ⟨⟨_, secret, payload, ?_, hsig, f.url, ?_, hurl⟩, trivial⟩
      · exact List.mem_append_right _ List.mem_cons_self
      · have hlink := (h.accepting friends hfriends).links f hf
        rw [hnick] at hlink
        exact hlink.mono (List.subset_append_left _ _)

theorem Traced.setTask (h : Traced cfg init file₀ files₀ w) (hk : w.conns[k]? = some conn)
    {there : Pipe} (task : Task) {log : List Event} {store : Store}
    (hcleared : Cleared init log store k { conn with there := there, task := task })
    (hlog : w.log ⊆ log) {j : Nat} {c : Conn}
    (hj : (w.conns.set k { conn with there := there, task := task })[j]? = some c) :
    w.conns[j]? = some c ∨ Served cfg init log store j c := by
  rcases getElem?_set_eq_some hj with ⟨rfl, rfl⟩ | ⟨-, hj⟩
  · exact Or.inr ⟨(h.conns j conn hk).proved.mono hlog, hcleared⟩
  · exact Or.inl hj

theorem Traced.readProposal (h : Traced cfg init file₀ files₀ w) {reads : Bool}
    (hload : ∀ reads friends, w.load cfg reads = some friends → Known init w.log friends)
    (hstep : w.readProposal cfg k reads = some w') : Traced cfg init file₀ files₀ w' := by
  obtain ⟨conn, hk, hstep⟩ := Option.bind_eq_some_iff.mp hstep
  have hfinish : ∀ there, Traced cfg init file₀ files₀
      (w.setTask k { conn with there := there } (.finished none)) := by
    intro there
    exact h.quiet [] (List.append_nil _).symm (by simp) rfl .refl h.books
      (fun _ hf => Or.inl hf)
      fun j c hj => h.setTask hk (.finished none) trivial (List.Subset.refl _) hj
  split at hstep
  case h_2 => cases hstep
  obtain ⟨r, -, hstep⟩ := Option.bind_eq_some_iff.mp hstep
  split at hstep
  · cases hstep
    exact hfinish conn.there
  · rename_i text there
    split at hstep
    case h_2 =>
      cases hstep
      exact hfinish there
    rename_i filename lastModified hread
    unfold World.propose at hstep
    dsimp only at hstep
    split at hstep
    · cases hstep
      exact ⟨h.books, h.accepting, h.conns, h.opened, h.files⟩
    · rename_i friends hfriends
      obtain ⟨begun, hbegun, hrest⟩ := Option.bind_eq_some_iff.mp hstep
      obtain ⟨store, hstore, htask⟩ := Option.bind_eq_some_iff.mp hrest
      have hknown := hload reads friends hfriends
      have hloads : ∀ p, (if reads then Book.Act.load p else .loadFails p) = .load p ∨
          (if reads then Book.Act.load p else .loadFails p) = .loadFails p := by
        cases reads
        · exact fun p => Or.inr rfl
        · exact fun p => Or.inl rfl
      cases hbegun
      have hproc : ∃ proc, store.procs[w.store.procs.length]? = some proc ∧
          proc.op = .proposal conn.nick filename lastModified :=
        sameOps_bookStep hstore _ _ List.getElem?_concat_length
      have hops : SameOps w.store store := by
        intro p proc hp
        exact sameOps_bookStep hstore _ _ (getElem?_concat_eq_some.mpr (Or.inl hp))
      have hbooks : Books cfg init file₀ w.log w.saves store := by
        refine (h.books.begin _).load (hloads _) (fun l hl => hload true l hl)
          (fun proc hp nick url hupdate => ?_) hstore
        obtain ⟨p, loaded, hnew, -, -, rfl⟩ := load_eq_some (hloads _) hstore
        obtain rfl := Option.some.inj (List.getElem?_concat_length.symm.trans hnew)
        rw [List.getElem?_set_self (by simp)] at hp
        obtain rfl := Option.some.inj hp
        exact absurd hupdate update_proposal
      split at htask
      · rename_i vault hvault
        cases htask
        exact h.quiet [] (List.append_nil _).symm (by simp) rfl hops hbooks
          (fun _ hf => Or.inl hf)
          fun j c hj => h.setTask hk (.replying filename (some vault.localPath))
            (hknown.agreed hvault) (List.Subset.refl _) hj
      · cases htask
        obtain ⟨proc, hp, hop⟩ := hproc
        exact h.quiet [] (List.append_nil _).symm (by simp) rfl hops hbooks
          (fun _ hf => Or.inl hf)
          fun j c hj => h.setTask hk (.asking w.store.procs.length filename)
            ⟨proc, lastModified, hp, hop⟩ (List.Subset.refl _) hj

theorem Traced.respond (h : Traced cfg init file₀ files₀ w) {response : SyncResponse}
    (hstep : w.respond cfg k response = some w') : Traced cfg init file₀ files₀ w' := by
  obtain ⟨conn, p, filename, store, hk, htask, hstore, rfl⟩ := respond_eq_some hstep
  have hcleared := (h.conns k conn hk).cleared
  unfold Cleared at hcleared
  rw [htask] at hcleared
  obtain ⟨proc, lastModified, hp, hop⟩ := hcleared
  have hops : ∀ q ∈ w.store.procs[p]?, q.op = .proposal conn.nick filename lastModified := by
    intro q hq
    obtain rfl := Option.some.inj (hp.symm.trans hq)
    exact hop
  split
  · have hsub : w.log ⊆ w.log ++ [.consented k conn.nick filename (response.savePath.getD "")] :=
      List.subset_append_left _ _
    have hagreed : Agreed init
        (w.log ++ [.consented k conn.nick filename (response.savePath.getD "")]) conn.nick filename
        (response.savePath.getD "") :=
      Or.inr ⟨k, List.mem_append_right _ List.mem_cons_self⟩
    exact h.quiet _ rfl (by simp) rfl (sameOps_bookStep hstore)
      ((h.books.mono hsub).answer hops (fun _ => hagreed) hstore) (fun _ hf => Or.inl hf)
      fun j c hj => h.setTask hk (.saving p filename _) hagreed hsub hj
  · rename_i hno
    exact h.quiet [] (List.append_nil _).symm (by simp) rfl (sameOps_bookStep hstore)
      (h.books.answer hops (fun hyes => absurd hyes hno) hstore) (fun _ hf => Or.inl hf)
      fun j c hj => h.setTask hk (.replying filename none) trivial (List.Subset.refl _) hj

theorem Traced.saved (h : Traced cfg init file₀ files₀ w) (hstep : w.saved k = some w') :
    Traced cfg init file₀ files₀ w' := by
  obtain ⟨conn, hk, hstep⟩ := Option.bind_eq_some_iff.mp hstep
  split at hstep
  case h_2 => cases hstep
  rename_i p filename path htask
  obtain ⟨proc, hp, hstep⟩ := Option.bind_eq_some_iff.mp hstep
  have hagreed := (h.conns k conn hk).cleared
  unfold Cleared at hagreed
  rw [htask] at hagreed
  split at hstep
  · cases hstep
    exact h.quiet [] (List.append_nil _).symm (by simp) rfl .refl h.books (fun _ hf => Or.inl hf)
      fun j c hj => h.setTask hk (.replying filename (some path)) hagreed
        (List.Subset.refl _) hj
  · cases hstep

theorem nick_refuse (conn : Conn) (r : Except String Unit) :
    (conn.refuse cfg r).nick = conn.nick := by
  unfold Conn.refuse Conn.answer
  split <;> rfl

theorem Traced.serve (h : Traced cfg init file₀ files₀ w) (hk : w.conns[k]? = some conn)
    {events : List Event} {files : String → Option Bytes} (hnick : conn'.nick = conn.nick)
    (hcleared : Cleared init (w.log ++ events) w.store k conn')
    (hopened : ∀ j nick filename path, .opened j nick filename path ∈ events →
      j = k ∧ nick = conn.nick ∧ path ≠ "" ∧ Agreed init (w.log ++ events) nick filename path)
    (hfiles : ∀ file, files file = w.files file ∨
      ∃ j nick filename path, .opened j nick filename path ∈ w.log ++ events ∧
        cfg.leads path = file) :
    Traced cfg init file₀ files₀ { w with
      conns := w.conns.set k conn', files := files, log := w.log ++ events } := by
  have hsub : w.log ⊆ w.log ++ events := List.subset_append_left _ _
  have hproved := (h.conns k conn hk).proved.mono hsub
  refine h.next hsub .refl (h.books.mono hsub) (fun _ hf => Or.inl hf) (fun j c hj => ?_)
    (fun j nick filename path hm => ?_) hfiles
  · rcases getElem?_set_eq_some hj with ⟨rfl, rfl⟩ | ⟨-, hj⟩
    · exact Or.inr ⟨hnick ▸ hproved, hcleared⟩
    · exact Or.inl hj
  · rcases List.mem_append.mp hm with hm | hm
    · exact Or.inl hm
    · obtain ⟨rfl, rfl, hpath, hagreed⟩ := hopened j nick filename path hm
      exact Or.inr ⟨hpath, hproved, hagreed⟩

/-- The user has not agreed to the address book itself, under whichever path. -/
def SparesBook (cfg : Config) (init : List FriendRecord) (w : World) : Prop :=
  ∀ nick filename path, Agreed init w.log nick filename path → cfg.leads path ≠ cfg.bookFile

theorem Traced.copies (h : Traced cfg init file₀ files₀ w) (hspares : SparesBook cfg init w)
    (hk : w.conns[k]? = some conn) {path : String} (htask : conn.task = .copying path)
    (hnick : conn'.nick = conn.nick) (hcleared : Cleared init (w.log ++ []) w.store k conn')
    (b : Bytes) :
    Traced cfg init file₀ files₀ { w.write cfg (some (path, b)) with
      conns := w.conns.set k conn', log := w.log ++ [] } := by
  have hcopying := (h.conns k conn hk).cleared
  unfold Cleared at hcopying
  rw [htask] at hcopying
  obtain ⟨filename, hopened⟩ := hcopying
  obtain ⟨-, -, hagreed⟩ := h.opened k conn.nick filename path hopened
  rw [write_of_ne (hspares _ _ _ hagreed)]
  refine h.serve hk hnick hcleared (by simp) fun file => ?_
  by_cases hfile : file = cfg.leads path
  · subst hfile
    exact Or.inr ⟨k, conn.nick, filename, path, List.mem_append_left _ hopened, rfl⟩
  · exact Or.inl (Function.update_of_ne hfile _ _)

theorem Traced.connStep (h : Traced cfg init file₀ files₀ w) (hspares : SparesBook cfg init w)
    {a : ConnAct} (hstep : w.connStep cfg k a = some w') : Traced cfg init file₀ files₀ w' := by
  obtain ⟨conn, conn', written, events, hk, hserves, rfl⟩ := connStep_eq_some hstep
  have hcleared := (h.conns k conn hk).cleared
  have hsame : ∀ events conn', conn'.nick = conn.nick → conn'.task = conn.task →
      (∀ j nick filename path, .opened j nick filename path ∉ events) →
      Traced cfg init file₀ files₀
        { w with conns := w.conns.set k conn', log := w.log ++ events } := by
    intro events conn' hnick htask hnone
    refine h.serve hk hnick ?_
      (fun j nick filename path hm => absurd hm (hnone j nick filename path))
      fun file => Or.inl rfl
    have hgrown := hcleared.mono (List.subset_append_left w.log events) .refl
    unfold Cleared at hgrown ⊢
    rw [hnick, htask]
    exact hgrown
  have hcuts : ∀ {events : List Event},
      events = [.cut k] ∨ events = [] ∧ (∃ report, conn.task = .finished report) →
        ∀ j nick filename path, .opened j nick filename path ∉ events := by
    intro events hevents j nick filename path hm
    rcases hevents with rfl | ⟨rfl, -⟩
    · simp at hm
    · cases hm
  cases hserves with
  | refuses filename path r htask =>
    exact h.serve hk (nick_refuse conn r) trivial (by simp) fun file => Or.inl rfl
  | accepts filename path htask hpath =>
    refine h.serve hk rfl ⟨hpath, ?_⟩ (by simp) fun file => Or.inl rfl
    unfold Cleared at hcleared
    rw [htask] at hcleared
    exact hcleared.mono (List.subset_append_left _ _)
  | opens filename path htask =>
    unfold Cleared at hcleared
    rw [htask] at hcleared
    obtain ⟨hpath, hagreed⟩ := hcleared
    rw [write_of_ne (hspares _ _ _ hagreed)]
    refine h.serve hk rfl ⟨filename, List.mem_append_right _ List.mem_cons_self⟩
      (fun j nick filename' path' hm => ?_) fun file => ?_
    · cases List.mem_singleton.mp hm
      exact ⟨rfl, rfl, hpath, hagreed.mono (List.subset_append_left _ _)⟩
    · by_cases hfile : file = cfg.leads path
      · subst hfile
        exact Or.inr ⟨k, conn.nick, filename, path, List.mem_append_right _ List.mem_cons_self,
          rfl⟩
      · exact Or.inl (Function.update_of_ne hfile _ _)
  | copies path n htask hle =>
    refine h.copies hspares hk htask (by rfl) ?_ _
    have hgrown := hcleared.mono (List.subset_append_left w.log []) .refl
    unfold Cleared at hgrown ⊢
    exact hgrown
  | copyFails path n e htask hle => exact h.copies hspares hk htask (by rfl) (by trivial) _
  | succeeds path htask hbytes hended =>
    exact h.serve hk rfl trivial (by simp) fun file => Or.inl rfl
  | givesUp report hreport hop => exact h.serve hk rfl trivial (by simp) fun file => Or.inl rfl
  | sends s hsender conn' hsends =>
    obtain ⟨hnick, htask, -, -⟩ := hsends.same
    exact hsame [] conn' hnick htask (by simp)
  | leaves s hsender res => exact hsame [] _ rfl rfl (by simp)
  | drops s hsender res there r hevents => exact hsame _ _ rfl rfl (hcuts hevents)
  | foreign b hsender => exact hsame [] _ rfl rfl (by simp)
  | cut there back r hevents => exact hsame _ _ rfl rfl (hcuts hevents)

theorem Traced.step (h : Traced cfg init file₀ files₀ w)
    (hload : ∀ reads friends, w.load cfg reads = some friends → Known init w.log friends)
    (hspares : SparesBook cfg init w) {a : Act}
    (hstep : Push.step cfg w a = some w') : Traced cfg init file₀ files₀ w' := by
  have hwindow : ∀ channel dialog,
      Traced cfg init file₀ files₀ { w with channel := channel, dialog := dialog } :=
    fun _ _ => ⟨h.books, h.accepting, h.conns, h.opened, h.files⟩
  unfold Push.step at hstep
  split at hstep
  · cases hstep
  cases a with
  | book a => exact h.book hload hstep
  | request reads => exact h.request (hload reads) hstep
  | refuse =>
    obtain ⟨friends, -, rfl⟩ := Option.map_eq_some_iff.mp hstep
    exact ⟨h.books, by simp, h.conns, h.opened, h.files⟩
  | authenticate secret payload sender => exact h.authenticate hstep
  | readProposal k reads => exact h.readProposal hload hstep
  | poll n =>
    unfold World.poll at hstep
    dsimp only at hstep
    split at hstep
    · cases hstep
    · exact dropAll_invariant (fun _ _ _ hw hr => hw.respond hr) hstep (hwindow _ _)
  | edit vaultLabel savePath =>
    obtain ⟨d, -, rfl⟩ := Option.map_eq_some_iff.mp hstep
    exact hwindow _ _
  | accept =>
    obtain ⟨d, -, hstep⟩ := Option.bind_eq_some_iff.mp hstep
    exact (hwindow _ _).respond hstep
  | reject =>
    obtain ⟨d, -, hstep⟩ := Option.bind_eq_some_iff.mp hstep
    exact (hwindow _ _).respond hstep
  | prompt k ans label pathAns =>
    obtain ⟨conn, -, hstep⟩ := Option.bind_eq_some_iff.mp hstep
    split at hstep
    · split at hstep
      · cases hstep
      · exact h.respond hstep
    · cases hstep
  | saved k => exact h.saved hstep
  | conn k a => exact h.connStep hspares hstep

end Steps

/-! ## Every run -/

section Runs

variable {cfg : Config} {init : List FriendRecord} {file₀ : Option Bytes}
  {files₀ : String → Option Bytes} {acts : List Act} {w : World}

end Runs

end AtomVault.Daemon.Push
