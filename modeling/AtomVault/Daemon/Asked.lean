import AtomVault.Lib.Keyed
import AtomVault.Daemon.Push

/-!
# Every question has one answer

The window shows one request at a time, and a request can come while another one is shown. A
connection waits just as long as its request is shown or is still to come.
-/

open Lib

namespace AtomVault.Daemon.Push

open Live Book Receive

/-- The requests without an answer: the one that is shown, and those that are to come. -/
def World.pending (w : World) : List Request := (w.dialog.map Dialog.request).toList ++ w.channel

/-- These are the requests of the connections that wait, and each can be answered. -/
structure Asked (conns : List Conn) (procs : List Proc) (requests : List Request) : Prop where
  nodup : (requests.map Request.conn).Nodup
  waits : ∀ r ∈ requests, ∃ (conn : Conn) (p : Nat), conns[r.conn]? = some conn ∧
    conn.task = .asking p r.filename ∧ conn.nick = r.senderNick
  asked : ∀ (k : Nat) (conn : Conn) p filename, conns[k]? = some conn →
    conn.task = .asking p filename → ⟨k, conn.nick, filename⟩ ∈ requests
  begun : ∀ (k : Nat) (conn : Conn) p filename, conns[k]? = some conn →
    conn.task = .asking p filename →
      ∃ (proc : Proc) (base : List FriendRecord), procs[p]? = some proc ∧ proc.phase = .asking base
  bound : ∀ (k : Nat) (conn : Conn) p, conns[k]? = some conn → conn.task.op = some p →
    p < procs.length
  apart : ∀ (j k : Nat) (conn conn' : Conn) p, conns[j]? = some conn → conns[k]? = some conn' →
    conn.task.op = some p → conn'.task.op = some p → j = k

section Asked

variable {conns conns' : List Conn} {procs procs' : List Proc} {requests : List Request}
  {r : Request} {conn conn' : Conn} {k p : Nat} {filename : String}

theorem op_asking (h : conn.task = .asking p filename) : conn.task.op = some p := by
  rw [h]
  rfl

theorem Asked.next (h : Asked conns procs requests)
    (hconns : ∀ (k : Nat) (conn' : Conn), conns'[k]? = some conn' →
      (∃ conn : Conn, conns[k]? = some conn ∧ conn'.nick = conn.nick ∧ conn'.task = conn.task) ∨
        conn'.task.op = none)
    (hwaits : ∀ (k : Nat) (conn : Conn) p filename, conns[k]? = some conn →
      conn.task = .asking p filename →
        (∃ conn' : Conn, conns'[k]? = some conn' ∧ conn'.nick = conn.nick ∧
          conn'.task = conn.task) ∧ procs'[p]? = procs[p]?)
    (hlen : procs.length ≤ procs'.length) : Asked conns' procs' requests where
  nodup := h.nodup
  waits r hr := by
    obtain ⟨conn, p, hk, htask, hnick⟩ := h.waits r hr
    obtain ⟨⟨conn', hk', hnick', htask'⟩, -⟩ := hwaits _ _ _ _ hk htask
    exact ⟨conn', p, hk', htask'.trans htask, hnick'.trans hnick⟩
  asked k conn' p filename hk' htask := by
    rcases hconns k conn' hk' with ⟨conn, hk, hnick, hsame⟩ | hnone
    · rw [hnick]
      exact h.asked k conn p filename hk (hsame.symm.trans htask)
    · rw [op_asking htask] at hnone
      cases hnone
  begun k conn' p filename hk' htask := by
    rcases hconns k conn' hk' with ⟨conn, hk, -, hsame⟩ | hnone
    · have hasking := hsame.symm.trans htask
      rw [(hwaits k conn p filename hk hasking).2]
      exact h.begun k conn p filename hk hasking
    · rw [op_asking htask] at hnone
      cases hnone
  bound k conn' p hk' hop := by
    rcases hconns k conn' hk' with ⟨conn, hk, -, hsame⟩ | hnone
    · rw [hsame] at hop
      exact Nat.lt_of_lt_of_le (h.bound k conn p hk hop) hlen
    · rw [hnone] at hop
      cases hop
  apart i j conn₁ conn₂ p hi hj hopi hopj := by
    rcases hconns i conn₁ hi with ⟨c₁, hi, -, hsame₁⟩ | hnone
    · rcases hconns j conn₂ hj with ⟨c₂, hj, -, hsame₂⟩ | hnone
      · rw [hsame₁] at hopi
        rw [hsame₂] at hopj
        exact h.apart i j c₁ c₂ p hi hj hopi hopj
      · rw [hnone] at hopj
        cases hopj
    · rw [hnone] at hopi
      cases hopi

theorem Asked.answer (h : Asked conns procs (r :: requests)) (hk : conns[r.conn]? = some conn)
    (htask : conn.task = .asking p filename) {task : Task}
    (htask' : task.op = none ∨ ∃ filename path, task = .saving p filename path) (proc' : Proc) :
    Asked (conns.set r.conn { conn with task := task }) (procs.set p proc') requests := by
  have hnew : ∀ {q f}, task ≠ .asking q f := by
    rintro q f rfl
    rcases htask' with hnone | ⟨f', path, hsaving⟩
    · cases hnone
    · cases hsaving
  have hop : ∀ q, task.op = some q → conn.task.op = some q := by
    intro q hq
    rcases htask' with hnone | ⟨f, path, rfl⟩
    · rw [hnone] at hq
      cases hq
    · rw [op_asking htask]
      exact hq
  -- what is not the connection of the request is as it was
  have hback : ∀ {j : Nat} {c : Conn},
      (conns.set r.conn { conn with task := task })[j]? = some c →
      ∃ c₀ : Conn, conns[j]? = some c₀ ∧ (∀ q, c.task.op = some q → c₀.task.op = some q) ∧
        ∀ q f, c.task = .asking q f → j ≠ r.conn ∧ c = c₀ := by
    intro j c hj
    rcases getElem?_set_eq_some hj with ⟨rfl, rfl⟩ | ⟨hne, hj⟩
    · exact ⟨conn, hk, hop, fun q f hq => absurd hq hnew⟩
    · exact ⟨c, hj, fun _ hq => hq, fun _ _ _ => ⟨hne, rfl⟩⟩
  have hnodup := List.nodup_cons.mp h.nodup
  refine ⟨hnodup.2, fun r' hr' => ?_, fun j c q f hj hq => ?_, fun j c q f hj hq => ?_,
    fun j c q hj hq => ?_, fun i j c₁ c₂ q hi hj hqi hqj => ?_⟩
  · obtain ⟨c, q, hj, hq, hnick⟩ := h.waits r' (List.mem_cons_of_mem _ hr')
    have hne : r.conn ≠ r'.conn := by
      intro heq
      exact hnodup.1 (heq ▸ List.mem_map_of_mem hr')
    exact ⟨c, q, (List.getElem?_set_ne hne).trans hj, hq, hnick⟩
  · obtain ⟨c₀, hj₀, -, hsame⟩ := hback hj
    obtain ⟨hne, rfl⟩ := hsame q f hq
    rcases List.mem_cons.mp (h.asked j c q f hj₀ hq) with heq | hmem
    · exact absurd (congrArg Request.conn heq) hne
    · exact hmem
  · obtain ⟨c₀, hj₀, -, hsame⟩ := hback hj
    obtain ⟨hne, rfl⟩ := hsame q f hq
    have hqp : p ≠ q := by
      rintro rfl
      exact hne (h.apart _ _ _ _ _ hj₀ hk (op_asking hq) (op_asking htask))
    rw [List.getElem?_set_ne hqp]
    exact h.begun j c q f hj₀ hq
  · obtain ⟨c₀, hj₀, hops, -⟩ := hback hj
    rw [List.length_set]
    exact h.bound j c₀ q hj₀ (hops q hq)
  · obtain ⟨c, hi₀, hopsi, -⟩ := hback hi
    obtain ⟨d, hj₀, hopsj, -⟩ := hback hj
    exact h.apart i j c d q hi₀ hj₀ (hopsi q hqi) (hopsj q hqj)

theorem Asked.ask (h : Asked conns procs requests) (hk : conns[k]? = some conn)
    (htask : conn.task = .reading) (hnew : conn'.task = .asking procs.length filename)
    {proc : Proc} {base : List FriendRecord} (hproc : proc.phase = .asking base) :
    Asked (conns.set k conn') (procs ++ [proc]) (requests ++ [⟨k, conn'.nick, filename⟩]) := by
  have hop : conn'.task.op = some procs.length := op_asking hnew
  have hlt : k < conns.length := (List.getElem?_eq_some_iff.mp hk).1
  have hidle : ∀ r ∈ requests, r.conn ≠ k := by
    rintro r hr rfl
    obtain ⟨c, q, hj, hq, -⟩ := h.waits r hr
    obtain rfl := Option.some.inj (hk.symm.trans hj)
    rw [htask] at hq
    cases hq
  refine ⟨?_, fun r hr => ?_, fun j c q f hj hq => ?_, fun j c q f hj hq => ?_,
    fun j c q hj hq => ?_, fun i j c₁ c₂ q hi hj hqi hqj => ?_⟩
  · rw [List.map_append, List.nodup_append]
    refine ⟨h.nodup, List.nodup_singleton _, ?_⟩
    rintro a ha b hb rfl
    obtain ⟨r, hr, rfl⟩ := List.mem_map.mp ha
    exact hidle r hr (List.mem_singleton.mp hb)
  · rcases List.mem_append.mp hr with hr | hr
    · obtain ⟨c, q, hj, hq, hnick⟩ := h.waits r hr
      exact ⟨c, q, (List.getElem?_set_ne (hidle r hr).symm).trans hj, hq, hnick⟩
    · obtain rfl := List.mem_singleton.mp hr
      exact ⟨conn', _, List.getElem?_set_self hlt, hnew, rfl⟩
  · rcases getElem?_set_eq_some hj with ⟨rfl, rfl⟩ | ⟨-, hj⟩
    · rw [hnew] at hq
      cases hq
      exact List.mem_append_right _ List.mem_cons_self
    · exact List.mem_append_left _ (h.asked j c q f hj hq)
  · rcases getElem?_set_eq_some hj with ⟨rfl, rfl⟩ | ⟨-, hj⟩
    · rw [hnew] at hq
      cases hq
      exact ⟨proc, base, List.getElem?_concat_length, hproc⟩
    · obtain ⟨proc', base', hproc', hphase⟩ := h.begun j c q f hj hq
      exact ⟨proc', base', getElem?_concat_eq_some.mpr (Or.inl hproc'), hphase⟩
  · rw [List.length_append, List.length_singleton]
    rcases getElem?_set_eq_some hj with ⟨rfl, rfl⟩ | ⟨-, hj⟩
    · rw [hop] at hq
      cases hq
      exact Nat.lt_succ_self _
    · exact Nat.lt_succ_of_lt (h.bound j c q hj hq)
  · rcases getElem?_set_eq_some hi with ⟨rfl, rfl⟩ | ⟨-, hi₀⟩
    · rcases getElem?_set_eq_some hj with ⟨rfl, rfl⟩ | ⟨-, hj₀⟩
      · rfl
      · rw [hop] at hqi
        cases hqi
        exact absurd (h.bound j c₂ _ hj₀ hqj) (Nat.lt_irrefl _)
    · rcases getElem?_set_eq_some hj with ⟨rfl, rfl⟩ | ⟨-, hj₀⟩
      · rw [hop] at hqj
        cases hqj
        exact absurd (h.bound i c₁ _ hi₀ hqi) (Nat.lt_irrefl _)
      · exact h.apart i j c₁ c₂ q hi₀ hj₀ hqi hqj

end Asked

/-! ## Answers -/

/-- The connection of a request is about to write that it is refused. -/
def World.Refuses (w : World) (r : Request) : Prop :=
  ∃ conn, w.conns[r.conn]? = some conn ∧ conn.task = .replying r.filename none

section Answers

variable {cfg : Config} {w w' : World} {requests dropped : List Request} {r : Request}

variable (cfg) in
theorem Asked.respond (h : Asked w.conns w.store.procs (r :: requests)) (response : SyncResponse) :
    ∃ w', w.respond cfg r.conn response = some w' ∧ Asked w'.conns w'.store.procs requests ∧
      w'.channel = w.channel ∧ w'.dialog = w.dialog := by
  obtain ⟨conn, p, hk, htask, -⟩ := h.waits r List.mem_cons_self
  obtain ⟨proc, base, hp, hphase⟩ := h.begun _ _ _ _ hk htask
  have hstore : bookStep cfg w.store (.answer p response) = some { w.store with
      procs := w.store.procs.set p (afterAnswer proc base response) } := by
    unfold bookStep Book.step
    simp [hp, hphase]
  unfold World.respond
  simp only [hk, htask, hstore, Option.bind_eq_bind, Option.bind_some]
  split
  · exact ⟨_, rfl, h.answer hk htask (Or.inr ⟨_, _, rfl⟩) _, rfl, rfl⟩
  · exact ⟨_, rfl, h.answer hk htask (Or.inl rfl) _, rfl, rfl⟩

theorem Asked.respond_refusal (h : Asked w.conns w.store.procs (r :: requests))
    (hstep : w.respond cfg r.conn refusal = some w') :
    w'.Refuses r ∧ ∀ j ≠ r.conn, w'.conns[j]? = w.conns[j]? := by
  obtain ⟨conn, p, hk, htask, -⟩ := h.waits r List.mem_cons_self
  obtain ⟨conn', p', filename, store, hk', htask', -, hw'⟩ := respond_eq_some hstep
  obtain rfl := Option.some.inj (hk.symm.trans hk')
  have hname : filename = r.filename := by
    rw [htask] at htask'
    exact (Task.asking.inj htask').2.symm
  have hno : ¬ refusal.accepted = true := by decide
  rw [if_neg hno, hname] at hw'
  subst hw'
  refine ⟨⟨_, List.getElem?_set_self (List.getElem?_eq_some_iff.mp hk).1, rfl⟩, fun j hj => ?_⟩
  exact List.getElem?_set_ne hj.symm

variable (cfg) in
theorem Asked.dropAll (h : Asked w.conns w.store.procs (dropped ++ requests)) :
    ∃ w', w.dropAll cfg dropped = some w' ∧ Asked w'.conns w'.store.procs requests ∧
      w'.channel = w.channel ∧ w'.dialog = w.dialog ∧ (∀ r ∈ dropped, w'.Refuses r) ∧
      ∀ j ∉ dropped.map Request.conn, w'.conns[j]? = w.conns[j]? := by
  induction dropped generalizing w with
  | nil => exact ⟨w, rfl, h, rfl, rfl, by simp, fun _ _ => rfl⟩
  | cons r dropped ih =>
    obtain ⟨m, hm, hnext, hchannel, hdialog⟩ := h.respond cfg refusal
    obtain ⟨hrefuses, hother⟩ := h.respond_refusal hm
    obtain ⟨w', hw', hlast, hchannel', hdialog', hall, hkept⟩ := ih hnext
    refine ⟨w', ?_, hlast, hchannel'.trans hchannel, hdialog'.trans hdialog, fun q hq => ?_,
      fun j hj => ?_⟩
    · unfold World.dropAll at hw' ⊢
      rw [List.foldlM_cons, hm]
      exact hw'
    · rcases List.mem_cons.mp hq with rfl | hq
      · -- no other request is of the same connection
        have hfresh : q.conn ∉ dropped.map Request.conn := by
          have hnodup := h.nodup
          rw [List.map_append, List.map_cons, List.cons_append] at hnodup
          exact fun hmem => (List.nodup_cons.mp hnodup).1 (List.mem_append_left _ hmem)
        obtain ⟨conn, hk, htask⟩ := hrefuses
        exact ⟨conn, (hkept _ hfresh).trans hk, htask⟩
      · exact hall q hq
    · rw [List.map_cons, List.mem_cons, not_or] at hj
      exact (hkept j hj.2).trans (hother j hj.1)

variable (cfg) in
theorem Asked.poll (h : Asked w.conns w.store.procs w.pending) {n : Nat} (hn : 0 < n)
    (hsome : w.channel ≠ []) :
    ∃ w' last, w.poll cfg n = some w' ∧ Asked w'.conns w'.store.procs w'.pending ∧
      w'.channel = w.channel.drop n ∧ (w.channel.take n).getLast? = some last ∧
      w'.dialog = some (.new cfg.home last) ∧
      ∀ r ∈ (w.dialog.map Dialog.request).toList ++ (w.channel.take n).dropLast, w'.Refuses r := by
  obtain ⟨first, channel, hchannel⟩ := List.exists_cons_of_ne_nil hsome
  obtain ⟨m, rfl⟩ : ∃ m, n = m + 1 := ⟨n - 1, by omega⟩
  have hne : w.channel.take (m + 1) ≠ [] := by
    rw [hchannel, List.take_succ_cons]
    exact List.cons_ne_nil _ _
  have hlast := List.getLast?_eq_some_getLast hne
  generalize (w.channel.take (m + 1)).getLast hne = last at hlast
  have htake : w.channel.take (m + 1) = (w.channel.take (m + 1)).dropLast ++ [last] :=
    (List.dropLast_append_getLast? last hlast).symm
  have hpending : w.pending = ((w.dialog.map Dialog.request).toList ++
      (w.channel.take (m + 1)).dropLast) ++ (last :: w.channel.drop (m + 1)) := by
    unfold World.pending
    conv => lhs; rw [← List.take_append_drop (m + 1) w.channel, htake]
    simp
  rw [hpending] at h
  obtain ⟨w', hw', hasked, hchannel', hdialog', hrefuses, -⟩ := Asked.dropAll cfg
    (w := { w with channel := w.channel.drop (m + 1), dialog := some (.new cfg.home last) }) h
  refine ⟨w', last, ?_, ?_, hchannel', hlast, hdialog', hrefuses⟩
  · unfold World.poll
    simp only [hlast]
    exact hw'
  · unfold World.pending
    rw [hchannel', hdialog']
    exact hasked

variable (cfg) in
theorem Asked.close (h : Asked w.conns w.store.procs w.pending) (hopen : w.dialog.isSome)
    (response : Dialog → SyncResponse) :
    ∃ w', w.close cfg response = some w' ∧ Asked w'.conns w'.store.procs w'.pending ∧
      w'.dialog = none ∧ w'.channel = w.channel := by
  obtain ⟨d, hd⟩ := Option.isSome_iff_exists.mp hopen
  have hpending : w.pending = d.request :: w.channel := by
    unfold World.pending
    rw [hd]
    rfl
  rw [hpending] at h
  obtain ⟨w', hw', hasked, hchannel, hdialog⟩ := Asked.respond cfg
    (w := { w with dialog := none }) h (response d)
  refine ⟨w', ?_, ?_, hdialog, hchannel⟩
  · unfold World.close
    rw [hd]
    exact hw'
  · unfold World.pending
    rw [hchannel, hdialog]
    exact hasked

end Answers

/-! ## Every step -/

section Steps

variable {cfg : Config} {w w' : World} {k : Nat}

theorem asking_bookStep {s s' : Store} {a : Book.Act} (h : bookStep cfg s a = some s')
    (ha : ∀ p response, a ≠ .answer p response) :
    s.procs.length ≤ s'.procs.length ∧ ∀ (p : Nat) (proc : Proc) base, s.procs[p]? = some proc →
      proc.phase = .asking base → s'.procs[p]? = s.procs[p]? := by
  have hset : ∀ {q : Nat} {other other' : Proc}, s.procs[q]? = some other →
      (∀ base, other.phase ≠ .asking base) →
      s.procs.length ≤ (s.procs.set q other').length ∧
        ∀ (p : Nat) (proc : Proc) base, s.procs[p]? = some proc → proc.phase = .asking base →
          (s.procs.set q other')[p]? = s.procs[p]? := by
    intro q other other' hq hother
    refine ⟨by simp, fun p proc base hp hphase => List.getElem?_set_ne ?_⟩
    rintro rfl
    obtain rfl := Option.some.inj (hq.symm.trans hp)
    exact hother base hphase
  cases a with
  | begin op =>
    cases h
    refine ⟨by simp, fun p proc base hp _ => ?_⟩
    rw [hp]
    exact getElem?_concat_eq_some.mpr (Or.inl hp)
  | load p =>
    obtain ⟨proc, hp, h⟩ := Option.bind_eq_some_iff.mp h
    split at h
    · rename_i hphase
      cases h
      exact hset hp (by simp [hphase])
    · cases h
  | answer p response => exact absurd rfl (ha p response)
  | loadFails p | openFile p _ | openFails p | writeFails p =>
    obtain ⟨proc, hp, h⟩ := Option.bind_eq_some_iff.mp h
    split at h
    · rename_i hphase
      cases h
      exact hset hp (by simp [hphase])
    · cases h
  | write p n =>
    obtain ⟨proc, hp, h⟩ := Option.bind_eq_some_iff.mp h
    split at h
    · rename_i hphase
      split at h
      · cases h
        exact hset hp (by simp [hphase])
      · cases h
    · cases h

theorem Asked.store {requests : List Request} (h : Asked w.conns w.store.procs requests) {s : Store}
    {a : Book.Act} (hstep : bookStep cfg w.store a = some s)
    (ha : ∀ p response, a ≠ .answer p response) : Asked w.conns s.procs requests := by
  obtain ⟨hlen, hkept⟩ := asking_bookStep hstep ha
  refine h.next (fun k conn hk => Or.inl ⟨conn, hk, rfl, rfl⟩)
    (fun k conn p filename hk htask => ?_)
    hlen
  obtain ⟨proc, base, hp, hphase⟩ := h.begun k conn p filename hk htask
  exact ⟨⟨conn, hk, rfl, rfl⟩, hkept p proc base hp hphase⟩

theorem Asked.conn {requests : List Request} {procs : List Proc} {conn conn' : Conn}
    (h : Asked w.conns w.store.procs requests) (hk : w.conns[k]? = some conn)
    (hsame : conn'.nick = conn.nick ∧ conn'.task = conn.task ∨
      (∀ p filename, conn.task ≠ .asking p filename) ∧ conn'.task.op = none)
    (hlen : w.store.procs.length ≤ procs.length)
    (hprocs : ∀ (j : Nat) (c : Conn) p filename, w.conns[j]? = some c →
      c.task = .asking p filename → procs[p]? = w.store.procs[p]?) :
    Asked (w.conns.set k conn') procs requests := by
  have hlt : k < w.conns.length := (List.getElem?_eq_some_iff.mp hk).1
  refine h.next (fun j c hj => ?_)
    (fun j c p filename hj htask => ⟨?_, hprocs j c p filename hj htask⟩)
    hlen
  · rcases getElem?_set_eq_some hj with ⟨rfl, rfl⟩ | ⟨-, hj⟩
    · rcases hsame with ⟨hnick, htask⟩ | ⟨-, hop⟩
      · exact Or.inl ⟨conn, hk, hnick, htask⟩
      · exact Or.inr hop
    · exact Or.inl ⟨c, hj, rfl, rfl⟩
  · by_cases hjk : j = k
    · subst hjk
      obtain rfl := Option.some.inj (hk.symm.trans hj)
      rcases hsame with ⟨hnick, hsame⟩ | ⟨hnot, -⟩
      · exact ⟨conn', List.getElem?_set_self hlt, hnick, hsame⟩
      · exact absurd htask (hnot p filename)
    · exact ⟨c, (List.getElem?_set_ne (Ne.symm hjk)).trans hj, rfl, rfl⟩

theorem not_asking_of_op {t : Task} (h : t.op = none) (p : Nat) (filename : String) :
    t ≠ .asking p filename := by
  rintro rfl
  cases h

theorem Serves.op {files : String → Option Bytes} {conn conn' : Conn} {written : Written}
    {events : List Event} (h : Serves cfg k files conn conn' written events) :
    conn'.nick = conn.nick ∧ conn'.task = conn.task ∨
      (∀ p filename, conn.task ≠ .asking p filename) ∧ conn'.task.op = none := by
  cases h with
  | refuses filename path r htask => exact Or.inr ⟨by simp [htask], rfl⟩
  | accepts filename path htask hpath => exact Or.inr ⟨by simp [htask], rfl⟩
  | opens filename path htask => exact Or.inr ⟨by simp [htask], rfl⟩
  | copies path n htask hle => exact Or.inl ⟨rfl, rfl⟩
  | copyFails path n e htask hle => exact Or.inr ⟨by simp [htask], rfl⟩
  | succeeds path htask hbytes hended => exact Or.inr ⟨by simp [htask], rfl⟩
  | givesUp report hreport hop => exact Or.inr ⟨not_asking_of_op hop, rfl⟩
  | sends s hsender conn' hsends =>
    obtain ⟨hnick, htask, -, -⟩ := hsends.same
    exact Or.inl ⟨hnick, htask⟩
  | leaves s hsender res => exact Or.inl ⟨rfl, rfl⟩
  | drops s hsender res there r hevents => exact Or.inl ⟨rfl, rfl⟩
  | foreign b hsender => exact Or.inl ⟨rfl, rfl⟩
  | cut there back r hevents => exact Or.inl ⟨rfl, rfl⟩

end Steps

/-! ## Every run -/

section Runs

variable {cfg : Config} {file₀ : Option Bytes} {files₀ : String → Option Bytes} {acts : List Act}
  {w : World}

end Runs

end AtomVault.Daemon.Push
