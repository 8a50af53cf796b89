import AtomVault.Live.Canonical
import AtomVault.Daemon.Consent

/-!
# What arrives of a vault

A proposal and its reply are one line each, and then the sender writes its file. Nothing says how
long the file is: the daemon takes what comes before the end of the stream.
-/

open Lib

namespace AtomVault.Daemon.Push

open Live Book Receive

/-! ## Lines -/

/-- A message is on one line, and what is left of it when it is cut is none. -/
structure Lines (js : Json SyncMessage) : Prop where
  read_write : ∀ m, js.read (js.write m) = .ok m
  read_line : ∀ m, js.read (js.write m ++ ['\n']) = .ok m
  newline : ∀ m, '\n' ∉ js.write m
  read_prefix : ∀ m t, t <+: js.write m → t ≠ js.write m → ∃ e, js.read t = .error e

section Lines

variable {cfg : Config} {m m' : SyncMessage} {p p' : Pipe} {text : Text}

theorem fromUtf8_utf8_append (a : Text) (b : Bytes) :
    fromUtf8 (utf8 a ++ b) = (fromUtf8 b).map (a ++ ·) := by
  induction a with
  | nil => simp [utf8]
  | cons c a ih =>
    have hcons : utf8 (c :: a) ++ b = String.utf8EncodeChar c ++ (utf8 a ++ b) := by
      simp [utf8]
    rw [hcons, fromUtf8_append, ih, Option.map_map]
    rfl

theorem prefix_of_utf8 {a b : Text} (h : utf8 a <+: utf8 b) : a <+: b := by
  obtain ⟨rest, hrest⟩ := h
  have hb := fromUtf8_utf8 b
  rw [← hrest, fromUtf8_utf8_append] at hb
  obtain ⟨t, -, rfl⟩ := Option.map_eq_some_iff.mp hb
  exact List.prefix_append a t

theorem newline_not_mem {t : Text} (h : '\n' ∉ t) : NEWLINE ∉ utf8 t := by
  intro hmem
  obtain ⟨c, hc, hbyte⟩ := List.mem_flatMap.mp hmem
  have hval := toNat_of_mem_utf8EncodeChar (by decide) hbyte
  have hnl : c = '\n' := by
    rw [← Char.ofNat_toNat c, hval]
    rfl
  exact h (hnl ▸ hc)

variable (cfg) in
theorem line_eq (m : SyncMessage) : line cfg m = utf8 (cfg.messages.write m) ++ [NEWLINE] := by
  unfold line
  rw [utf8_append]
  rfl

theorem readLine_eq_ok (h : p.readLine = some (.ok (text, p'))) :
    ∃ n, fromUtf8 (p.bytes.take n) = some text ∧ p' = { p with bytes := p.bytes.drop n } ∧
      (n = p.bytes.idxOf NEWLINE + 1 ∨ NEWLINE ∉ p.bytes ∧ n = p.bytes.length) := by
  have hdecoded : ∀ n, Pipe.readLine.decoded p n = .ok (text, p') →
      fromUtf8 (p.bytes.take n) = some text ∧ p' = { p with bytes := p.bytes.drop n } := by
    intro n hn
    unfold Pipe.readLine.decoded at hn
    split at hn
    · rename_i t ht
      cases hn
      exact ⟨ht, rfl⟩
    · cases hn
  unfold Pipe.readLine at h
  dsimp only at h
  split at h
  · obtain ⟨htext, hrest⟩ := hdecoded _ (Option.some.inj h)
    exact ⟨_, htext, hrest, Or.inl rfl⟩
  · rename_i hno
    split at h
    · cases h
    · cases h
    · obtain ⟨htext, hrest⟩ := hdecoded _ (Option.some.inj h)
      refine ⟨_, htext, hrest, Or.inr ⟨fun hmem => hno ?_, rfl⟩⟩
      exact List.idxOf_lt_length_of_mem hmem

theorem readLine_of_prefix (hlines : Lines cfg.messages) (hbytes : p.bytes <+: line cfg m)
    (h : p.readLine = some (.ok (text, p'))) (hread : cfg.messages.read text = .ok m') :
    m' = m ∧ p' = { p with bytes := [] } := by
  have hno := newline_not_mem (hlines.newline m)
  obtain ⟨n, htext, rfl, hn⟩ := readLine_eq_ok h
  rw [line_eq cfg, List.prefix_concat_iff] at hbytes
  rcases hbytes with hall | hpart
  · have hlen : n = p.bytes.length := by
      rcases hn with hn | ⟨hnot, -⟩
      · rw [hn, hall, List.idxOf_append_of_notMem hno]
        simp
      · exact absurd (by simp [hall]) hnot
    rw [hlen, List.take_length, hall, ← line_eq cfg] at htext
    unfold line at htext
    rw [fromUtf8_utf8] at htext
    obtain rfl := Option.some.inj htext
    rw [hlines.read_line] at hread
    cases hread
    rw [hlen, List.drop_length]
    exact ⟨rfl, rfl⟩
  · have hnot : NEWLINE ∉ p.bytes := fun hmem => hno (hpart.subset hmem)
    have hlen : p.bytes.length ≤ n := by
      rcases hn with hn | ⟨-, hn⟩
      · rw [hn, List.idxOf_eq_length hnot]
        exact Nat.le_succ _
      · exact Nat.le_of_eq hn.symm
    rw [List.take_of_length_le hlen] at htext
    have hstart : text <+: cfg.messages.write m := by
      refine prefix_of_utf8 ?_
      rw [utf8_of_fromUtf8 htext]
      exact hpart
    refine ⟨?_, ?_⟩
    · by_cases hwhole : text = cfg.messages.write m
      · rw [hwhole, hlines.read_write] at hread
        cases hread
        rfl
      · obtain ⟨e, he⟩ := hlines.read_prefix m text hstart hwhole
        rw [he] at hread
        cases hread
    · rw [List.drop_of_length_le hlen]

end Lines

/-! ## One connection with `sync_core` -/

/-- The name of the vault that a task is about. -/
def Task.name : Task → Option String
  | asking _ filename | saving _ filename _ | replying filename _ | creating filename _ =>
    some filename
  | _ => none

def Task.unanswered : Task → Bool
  | reading | asking _ _ | saving _ _ _ | replying _ _ => true
  | _ => false

def Task.done : Task → Bool
  | finished _ => true
  | _ => false

/-- What is on its way back is the reply, or the beginning of it. -/
def Heard (cfg : Config) (conn : Conn) : Prop :=
  match conn.replied with
  | none => conn.back.bytes = []
  | some m => (m = acceptReply ∨ m = .reject) ∧ conn.back.bytes <+: line cfg m

/-- What `sync_core` and the daemon know of each other. -/
structure Flow (cfg : Config) (init : List FriendRecord) (log : List Event) (k : Nat) (conn : Conn)
    (s : Sender) : Prop where
  sent : s.sent ≤ s.content.length
  replied : s.stage = .pumping ∨ 0 < s.sent → conn.replied = some acceptReply
  agreed : conn.replied = some acceptReply →
    ∃ path, path ≠ "" ∧ Agreed init log conn.nick s.filename path
  unanswered : conn.task.unanswered = true → conn.replied = none
  back : s.stage = .proposing ∨ s.stage = .waiting → Heard cfg conn
  name : ∀ filename ∈ conn.task.name, filename = s.filename
  copied : conn.copied <+: s.content.take s.sent
  reading : conn.task = .reading →
    conn.there.bytes <+: line cfg (.proposal s.filename s.lastModified) ∧
      (s.stage = .proposing → conn.there.bytes = [])
  stream : conn.task ≠ .reading → conn.task.done = false → s.stage ≠ .proposing ∧
    conn.copied ++ conn.there.bytes <+: s.content.take s.sent ∧
      (.cut k ∉ log → conn.copied ++ conn.there.bytes = s.content.take s.sent)
  ended : conn.task.done = false → (.cut k ∈ log → conn.there.ended.isSome) ∧
    (.cut k ∉ log → conn.there.ended.isSome →
      s.sent = s.content.length ∧ conn.replied = some acceptReply)
  success : ∀ n, conn.task = .finished (some (.success n)) →
    n = conn.copied.length ∧ (.cut k ∉ log → conn.copied = s.content)

section Flow

variable {cfg : Config} {init : List FriendRecord} {log log' : List Event} {k : Nat}
  {conn conn' : Conn} {s : Sender} {files : String → Option Bytes} {written : Written}
  {events : List Event} {store : Store}

theorem Flow.mono (h : Flow cfg init log k conn s) (hlog : log ⊆ log')
    (hcut : .cut k ∈ log' → .cut k ∈ log) : Flow cfg init log' k conn s where
  sent := h.sent
  replied := h.replied
  agreed hreplied := by
    obtain ⟨path, hpath, hagreed⟩ := h.agreed hreplied
    exact ⟨path, hpath, hagreed.mono hlog⟩
  unanswered := h.unanswered
  back := h.back
  name := h.name
  copied := h.copied
  reading := h.reading
  stream hread hdone := by
    obtain ⟨hstage, hpart, hall⟩ := h.stream hread hdone
    exact ⟨hstage, hpart, fun hno => hall fun hyes => hno (hlog hyes)⟩
  ended hdone := by
    obtain ⟨hyes, hno⟩ := h.ended hdone
    exact ⟨fun hcutk => hyes (hcut hcutk), fun hnot => hno fun hcutk => hnot (hlog hcutk)⟩
  success n htask := by
    obtain ⟨hn, hall⟩ := h.success n htask
    exact ⟨hn, fun hno => hall fun hyes => hno (hlog hyes)⟩

theorem Heard.push (h : Heard cfg conn) (hreplied : conn.replied = none) {m : SyncMessage}
    (hm : m = acceptReply ∨ m = .reject) : Heard cfg (conn.answer cfg m) := by
  unfold Heard at h
  rw [hreplied] at h
  refine ⟨hm, ?_⟩
  show (conn.back.push (line cfg m)).bytes <+: line cfg m
  unfold Pipe.push
  split
  · rw [h]
    exact List.nil_prefix
  · show conn.back.bytes ++ line cfg m <+: line cfg m
    rw [h, List.nil_append]

theorem Heard.accepted (hlines : Lines cfg.messages) (h : Heard cfg conn) {reply : Text}
    {back : Pipe} {action : String} (hline : conn.back.readLine = some (.ok (reply, back)))
    (hreply : cfg.messages.read reply = .ok (.accept action)) :
    conn.replied = some acceptReply := by
  have hreject : ¬ conn.back.bytes <+: line cfg .reject := by
    intro hpart
    obtain ⟨heq, -⟩ := readLine_of_prefix hlines hpart hline hreply
    cases heq
  unfold Heard at h
  split at h
  · rw [h] at hreject
    exact absurd List.nil_prefix hreject
  · rename_i m hm
    rcases h.1 with rfl | rfl
    · exact hm
    · exact absurd h.2 hreject

theorem take_add_eq (b : Bytes) (i n : Nat) : b.take (i + n) = b.take i ++ slice b i n := by
  unfold slice
  exact List.take_add

theorem Flow.task (h : Flow cfg init log k conn s) {task : Task}
    (hname : task.name = conn.task.name) (hread : conn.task ≠ .reading)
    (hunanswered : conn.task.unanswered = true) (hread' : task ≠ .reading)
    (hunanswered' : task.unanswered = true) :
    Flow cfg init log k { conn with task := task } s := by
  have hdone : ∀ {t : Task}, t.unanswered = true → t.done = false := by
    intro t ht
    cases t <;> first | rfl | cases ht
  refine ⟨h.sent, h.replied, h.agreed, fun _ => h.unanswered hunanswered, h.back, ?_, h.copied,
    fun ht => absurd ht hread', fun _ _ => h.stream hread (hdone hunanswered),
    fun _ => h.ended (hdone hunanswered), fun n ht => ?_⟩
  · intro filename hf
    exact h.name filename (hname ▸ hf)
  · rw [show task = .finished (some (.success n)) from ht] at hunanswered'
    cases hunanswered'

theorem Flow.finish (h : Flow cfg init log k conn s) {report : Option Report}
    (htask : conn'.task = .finished report) (hnick : conn'.nick = conn.nick)
    (hreplied : conn'.replied = conn.replied ∨
      conn.replied = none ∧ conn'.replied = some .reject)
    (hback : s.stage = .proposing ∨ s.stage = .waiting → Heard cfg conn')
    (hcopied : conn'.copied <+: s.content.take s.sent)
    (hsuccess : ∀ n, report = some (.success n) →
      n = conn'.copied.length ∧ (.cut k ∉ log → conn'.copied = s.content)) :
    Flow cfg init log k conn' s := by
  have hyes : conn'.replied = some acceptReply → conn.replied = some acceptReply := by
    intro hr
    rcases hreplied with hsame | ⟨-, hrejected⟩
    · exact hsame.symm.trans hr
    · cases hrejected.symm.trans hr
  refine ⟨h.sent, fun hr => ?_, fun hr => ?_, fun hu => ?_, hback, fun f hf => ?_, hcopied,
    fun ht => ?_, fun _ hd => ?_, fun hd => ?_, fun n ht => ?_⟩
  · have hr := h.replied hr
    rcases hreplied with hsame | ⟨hnone, -⟩
    · exact hsame.trans hr
    · cases hnone.symm.trans hr
  · rw [hnick]
    exact h.agreed (hyes hr)
  · rw [htask] at hu
    cases hu
  · rw [htask] at hf
    cases hf
  · cases htask.symm.trans ht
  · rw [htask] at hd
    cases hd
  · rw [htask] at hd
    cases hd
  · rw [htask] at ht
    cases ht
    exact hsuccess n rfl

theorem Flow.read (hlines : Lines cfg.messages) (h : Flow cfg init log k conn s)
    (hreading : conn.task = .reading) {text : Text} {there : Pipe} {filename : String}
    {lastModified : UInt64} (hline : conn.there.readLine = some (.ok (text, there)))
    (hmsg : cfg.messages.read text = .ok (.proposal filename lastModified)) {task : Task}
    (hname : task.name = some filename) (hunanswered : task.unanswered = true)
    (hread' : task ≠ .reading) :
    Flow cfg init log k { conn with there := there, task := task } s := by
  obtain ⟨hpart, hempty⟩ := h.reading hreading
  obtain ⟨heq, rfl⟩ := readLine_of_prefix hlines hpart hline hmsg
  cases heq
  have hnone : conn.replied = none := h.unanswered (by rw [hreading]; rfl)
  have hsent : s.sent = 0 := by
    by_contra hne
    have hyes := h.replied (Or.inr (Nat.pos_of_ne_zero hne))
    rw [hnone] at hyes
    cases hyes
  have hcopied : conn.copied = [] := by
    have hpre := h.copied
    rw [hsent, List.take_zero] at hpre
    exact List.prefix_nil.mp hpre
  have hstage : s.stage ≠ .proposing := by
    intro hstage
    have hnil : conn.there.bytes <+: line cfg .reject := by
      rw [hempty hstage]
      exact List.nil_prefix
    obtain ⟨hno, -⟩ := readLine_of_prefix hlines hnil hline hmsg
    cases hno
  have hdone : conn.task.done = false := by
    rw [hreading]
    rfl
  refine ⟨h.sent, h.replied, h.agreed, fun _ => hnone, h.back, ?_, h.copied,
    fun ht => absurd ht hread', fun _ _ => ⟨hstage, ?_, fun _ => ?_⟩, fun _ => h.ended hdone,
    fun n ht => ?_⟩
  · intro f hf
    rw [show task.name = some s.filename from hname] at hf
    cases hf
    rfl
  · rw [hcopied, hsent]
    exact List.nil_prefix
  · rw [hcopied, hsent]
    rfl
  · rw [show task = .finished (some (.success n)) from ht] at hunanswered
    cases hunanswered

theorem Flow.quits (h : Flow cfg init log k conn s) (back : Pipe) (res : Except String Unit)
    (sender : Option Sender) :
    Flow cfg init log k { conn with back := back, sender := sender }
      { s with stage := .done res } := by
  refine ⟨h.sent, fun hr => ?_, h.agreed, h.unanswered, fun hs => ?_, h.name, h.copied,
    fun ht => ⟨(h.reading ht).1, fun hs => by cases hs⟩, fun hread hdone => ?_, h.ended, h.success⟩
  · rcases hr with hr | hr
    · cases hr
    · exact h.replied (Or.inr hr)
  · rcases hs with hs | hs <;> cases hs
  · exact ⟨by simp, (h.stream hread hdone).2⟩

theorem Heard.of_part (h : Heard cfg conn) (hreplied : conn'.replied = conn.replied)
    (hback : conn'.back.bytes <+: conn.back.bytes) : Heard cfg conn' := by
  unfold Heard at h ⊢
  rw [hreplied]
  split <;> rename_i hr <;> rw [hr] at h
  · rw [show conn.back.bytes = [] from h] at hback
    exact List.prefix_nil.mp hback
  · exact ⟨h.1, hback.trans h.2⟩

/-- The stream comes to an end before its time, and that is logged unless the daemon is done. -/
theorem Flow.cut (h : Flow cfg init log k conn s)
    (hevents : events = [.cut k] ∨ conn.task.done = true) (n : Nat) (r : Except String Unit)
    {back : Pipe} (hback : back.bytes <+: conn.back.bytes) :
    Flow cfg init (log ++ events) k { conn with there := conn.there.cut n r, back := back } s := by
  have hcut : conn.task.done = false → ¬ .cut k ∉ log ++ events := by
    intro hdone hno
    rcases hevents with rfl | htask
    · exact hno (List.mem_append_right _ List.mem_cons_self)
    · rw [htask] at hdone
      cases hdone
  refine ⟨h.sent, h.replied, fun hr => ?_, h.unanswered,
    fun hs => (h.back hs).of_part rfl hback, h.name, h.copied,
    fun ht => ⟨(List.take_prefix _ _).trans (h.reading ht).1, fun hs => ?_⟩,
    fun hread hdone => ⟨(h.stream hread hdone).1, ?_, fun hno => ?_⟩,
    fun hdone => ⟨fun _ => rfl, fun hno _ => ?_⟩, fun n ht => ?_⟩
  · obtain ⟨path, hpath, hagreed⟩ := h.agreed hr
    exact ⟨path, hpath, hagreed.mono (List.subset_append_left _ _)⟩
  · show conn.there.bytes.take n = []
    rw [(h.reading ht).2 hs, List.take_nil]
  · exact ((List.prefix_append_right_inj _).mpr (List.take_prefix _ _)).trans
      (h.stream hread hdone).2.1
  · exact absurd hno (hcut hdone)
  · exact absurd hno (hcut hdone)
  · obtain ⟨hn, hall⟩ := h.success n ht
    exact ⟨hn, fun hno => hall fun hyes => hno (List.mem_append_left _ hyes)⟩

theorem Flow.sends (hlines : Lines cfg.messages) (h : Flow cfg init log k conn s)
    (hsends : Sends cfg conn s conn') :
    ∃ s', conn'.sender = some s' ∧ Flow cfg init log k conn' s' := by
  cases hsends with
  | proposes hstage =>
    refine ⟨_, rfl, h.sent, fun hr => ?_, h.agreed, h.unanswered,
      fun _ => h.back (Or.inl hstage), h.name, h.copied,
      fun ht => ⟨?_, fun hs => by cases hs⟩, fun hread hdone => ?_, fun hdone => ?_, h.success⟩
    · rcases hr with hr | hr
      · cases hr
      · exact h.replied (Or.inr hr)
    · obtain ⟨-, hempty⟩ := h.reading ht
      show (conn.there.push _).bytes <+: _
      unfold Pipe.push
      split
      · rw [hempty hstage]
        exact List.nil_prefix
      · show conn.there.bytes ++ _ <+: _
        rw [hempty hstage, List.nil_append]
    · exact absurd hstage (h.stream hread hdone).1
    · have hsame : (conn.there.push (line cfg (.proposal s.filename s.lastModified))).ended =
          conn.there.ended := by
        unfold Pipe.push
        split <;> rfl
      rw [hsame]
      exact h.ended hdone
  | hears reply back hstage hline action hreply =>
    have hyes := (h.back (Or.inr hstage)).accepted hlines hline hreply
    refine ⟨_, rfl, h.sent, fun _ => hyes, h.agreed, h.unanswered, fun hs => ?_, h.name, h.copied,
      fun ht => ⟨(h.reading ht).1, fun hs => by cases hs⟩, fun hread hdone => ?_, h.ended,
      h.success⟩
    · rcases hs with hs | hs <;> cases hs
    · exact ⟨by simp, (h.stream hread hdone).2⟩
  | pumps n hstage hle hopen =>
    have hyes := h.replied (Or.inl hstage)
    have hnocut : conn.task.done = false → .cut k ∉ log := by
      intro hdone hcut
      have hsome := (h.ended hdone).1 hcut
      rw [hopen] at hsome
      cases hsome
    refine ⟨_, rfl, hle, fun _ => hyes, h.agreed, h.unanswered, fun hs => ?_, h.name,
      h.copied.trans (List.take_prefix_take_left (Nat.le_add_right _ _)), fun ht => ?_,
      fun hread hdone => ?_,
      fun hdone => ⟨fun hcut => absurd hcut (hnocut hdone), fun _ hsome => ?_⟩, h.success⟩
    · rcases hs with hs | hs
      · exact h.back (Or.inl hs)
      · exact h.back (Or.inr hs)
    · have hnone := h.unanswered (by rw [show conn.task = .reading from ht]; rfl)
      rw [hyes] at hnone
      cases hnone
    · obtain ⟨-, -, hall⟩ := h.stream hread hdone
      have hnow : conn.copied ++ (conn.there.bytes ++ slice s.content s.sent n) =
          s.content.take (s.sent + n) := by
        rw [← List.append_assoc, hall (hnocut hdone), take_add_eq]
      refine ⟨?_, ?_, fun _ => hnow⟩
      · rw [hstage]
        simp
      · show conn.copied ++ (conn.there.bytes ++ slice s.content s.sent n) <+: _
        rw [hnow]
    · rw [hopen] at hsome
      cases hsome
  | shuts hstage hall hopen =>
    have hyes := h.replied (Or.inl hstage)
    refine ⟨_, rfl, h.sent, fun _ => hyes, h.agreed, h.unanswered, fun hs => ?_, h.name, h.copied,
      fun ht => ⟨(h.reading ht).1, fun hs => by cases hs⟩, fun hread hdone => ?_,
      fun _ => ⟨fun _ => rfl, fun _ _ => ⟨hall, hyes⟩⟩, h.success⟩
    · rcases hs with hs | hs <;> cases hs
    · exact ⟨by simp, (h.stream hread hdone).2⟩
  | stops back r hgoing => exact ⟨_, rfl, h.quits back r _⟩

theorem Flow.serves (hlines : Lines cfg.messages) (h : Flow cfg init log k conn s)
    (hsender : conn.sender = some s) (hcleared : Cleared init log store k conn)
    (hserves : Serves cfg k files conn conn' written events) :
    ∃ s', conn'.sender = some s' ∧ Flow cfg init (log ++ events) k conn' s' := by
  have hkeep : ∀ events c, (∀ j, .cut j ∉ events) →
      (∃ s', c.sender = some s' ∧ Flow cfg init log k c s') →
        ∃ s', c.sender = some s' ∧ Flow cfg init (log ++ events) k c s' := by
    rintro events c hno ⟨s', hs', hflow⟩
    refine ⟨s', hs', hflow.mono (List.subset_append_left _ _) fun hcut => ?_⟩
    exact (List.mem_append.mp hcut).resolve_right (hno k)
  have hover : ∀ {events : List Event},
      events = [.cut k] ∨ events = [] ∧ (∃ report, conn.task = .finished report) →
        events = [.cut k] ∨ conn.task.done = true := by
    rintro events (hcut | ⟨-, report, htask⟩)
    · exact Or.inl hcut
    · right
      rw [htask]
      rfl
  cases hserves with
  | refuses filename path r htask =>
    refine hkeep [] _ (by simp) ?_
    have hnone : conn.replied = none := h.unanswered (by rw [htask]; rfl)
    unfold Conn.refuse
    split
    · exact ⟨s, hsender, h.finish rfl rfl (Or.inr ⟨hnone, rfl⟩)
        (fun hs => (h.back hs).push hnone (Or.inr rfl)) h.copied (by simp)⟩
    · exact ⟨s, hsender, h.finish rfl rfl (Or.inl rfl) h.back h.copied (by simp)⟩
  | accepts filename path htask hpath =>
    refine hkeep [] _ (by simp) ⟨s, hsender, ?_⟩
    have hnone : conn.replied = none := h.unanswered (by rw [htask]; rfl)
    have hdone : conn.task.done = false := by
      rw [htask]
      rfl
    have hname : filename = s.filename := h.name filename (by rw [htask]; rfl)
    unfold Cleared at hcleared
    rw [htask] at hcleared
    refine ⟨h.sent, fun _ => rfl, fun _ => ⟨path, hpath, hname ▸ hcleared⟩, fun hu => (by cases hu),
      fun hs => (h.back hs).push hnone (Or.inl rfl), fun f hf => ?_, h.copied,
      fun ht => (by cases ht), fun _ _ => h.stream (by simp [htask]) hdone,
      fun _ => ⟨(h.ended hdone).1, fun hno hsome => ⟨((h.ended hdone).2 hno hsome).1, rfl⟩⟩,
      fun n ht => by cases ht⟩
    cases hf
    exact hname
  | opens filename path htask =>
    refine hkeep _ _ (by simp) ⟨s, hsender, ?_⟩
    have hdone : conn.task.done = false := by
      rw [htask]
      rfl
    exact ⟨h.sent, h.replied, h.agreed, fun hu => (by cases hu), h.back, fun f hf => (by cases hf),
      h.copied, fun ht => (by cases ht), fun _ _ => h.stream (by simp [htask]) hdone,
      fun _ => h.ended hdone, fun n ht => by cases ht⟩
  | copies path n htask hle =>
    refine hkeep [] _ (by simp) ⟨s, hsender, ?_⟩
    have hdone : conn.task.done = false := by
      rw [htask]
      rfl
    obtain ⟨hstage, hpart, hall⟩ := h.stream (by simp [htask]) hdone
    have hsame : (conn.copied ++ conn.there.bytes.take n) ++ conn.there.bytes.drop n =
        conn.copied ++ conn.there.bytes := by
      rw [List.append_assoc, List.take_append_drop]
    refine ⟨h.sent, h.replied, h.agreed, h.unanswered, h.back, h.name, ?_, fun ht => ?_,
      fun _ _ => ⟨hstage, ?_, fun hno => ?_⟩, fun _ => h.ended hdone, fun m ht => ?_⟩
    · exact ((List.prefix_append_right_inj _).mpr (List.take_prefix _ _)).trans hpart
    · cases htask.symm.trans ht
    · rw [hsame]
      exact hpart
    · rw [hsame]
      exact hall hno
    · cases htask.symm.trans ht
  | copyFails path n e htask hle =>
    obtain ⟨-, hpart, -⟩ := h.stream (by simp [htask]) (by rw [htask]; rfl)
    exact hkeep [] _ (by simp) ⟨s, hsender, h.finish rfl rfl (Or.inl rfl) h.back
      (((List.prefix_append_right_inj _).mpr (List.take_prefix _ _)).trans hpart) (by simp)⟩
  | succeeds path htask hbytes hended =>
    have hdone : conn.task.done = false := by
      rw [htask]
      rfl
    obtain ⟨-, -, hall⟩ := h.stream (by simp [htask]) hdone
    refine hkeep [] _ (by simp) ⟨s, hsender, h.finish rfl rfl (Or.inl rfl) h.back h.copied
      fun n hn => ?_⟩
    cases hn
    refine ⟨rfl, fun hno => ?_⟩
    have hlast := hall hno
    rw [hbytes, List.append_nil, ((h.ended hdone).2 hno (by rw [hended]; rfl)).1,
      List.take_length] at hlast
    exact hlast
  | givesUp report hreport hop =>
    exact hkeep [] _ (by simp) ⟨s, hsender, h.finish rfl rfl (Or.inl rfl) h.back h.copied
      fun n hn => absurd (Option.some.inj hn) (hreport n)⟩
  | sends s₀ hsender₀ _ hsends =>
    obtain rfl := Option.some.inj (hsender.symm.trans hsender₀)
    exact hkeep [] _ (by simp) (h.sends hlines hsends)
  | foreign b hnone =>
    rw [hsender] at hnone
    cases hnone
  | leaves s₀ hsender₀ res =>
    obtain rfl := Option.some.inj (hsender.symm.trans hsender₀)
    exact hkeep [] _ (by simp) ⟨_, rfl, h.quits conn.back res _⟩
  | drops s₀ hsender₀ res there r hevents =>
    obtain rfl := Option.some.inj (hsender.symm.trans hsender₀)
    have hquits := h.quits conn.back res (some { s with stage := .done res })
    exact ⟨_, rfl, hquits.cut (hover hevents) there r (List.prefix_refl _)⟩
  | cut there back r hevents =>
    exact ⟨s, hsender, h.cut (hover hevents) there r (List.take_prefix _ _)⟩

theorem Serves.sender_eq_none (h : Serves cfg k files conn conn' written events)
    (hnone : conn.sender = none) : conn'.sender = none := by
  cases h with
  | refuses filename path r htask =>
    unfold Conn.refuse Conn.answer
    split <;> exact hnone
  | sends s hsender _ hsends =>
    rw [hnone] at hsender
    cases hsender
  | leaves s hsender res =>
    rw [hnone] at hsender
    cases hsender
  | drops s hsender res there r hevents =>
    rw [hnone] at hsender
    cases hsender
  | _ => exact hnone

end Flow

/-! ## What is in the files -/

/-- Nothing is opened yet. -/
def Task.early : Task → Bool
  | copying _ | finished _ => false
  | _ => true

theorem Task.early_spec {t : Task} (h : t.early = true) :
    t.done = false ∧ ∀ path, t ≠ .copying path := by
  cases t with
  | copying path => cases h
  | finished report => cases h
  | _ => exact ⟨rfl, by simp⟩

/-- A file that one connection alone has opened, on whichever path, is what that connection has
copied. -/
structure Landed (cfg : Config) (conns : List Conn) (files : String → Option Bytes)
    (log : List Event) : Prop where
  opened : ∀ k nick filename path, .opened k nick filename path ∈ log →
    ∃ conn : Conn, conns[k]? = some conn ∧ (conn.task = .copying path ∨ conn.task.done = true)
  copying : ∀ (k : Nat) (conn : Conn) path, conns[k]? = some conn → conn.task = .copying path →
    ∃ nick filename, .opened k nick filename path ∈ log
  early : ∀ (k : Nat) (conn : Conn), conns[k]? = some conn → conn.task.early = true →
    conn.copied = []
  file : ∀ (k : Nat) (conn : Conn) nick filename path, conns[k]? = some conn →
    .opened k nick filename path ∈ log →
      (∀ j nick' filename' path', .opened j nick' filename' path' ∈ log →
        cfg.leads path' = cfg.leads path → j = k) →
          files (cfg.leads path) = some conn.copied

section Landed

variable {cfg : Config} {conns : List Conn} {files : String → Option Bytes} {log events : List Event} {k : Nat}
  {conn conn' : Conn}

theorem Landed.grow (h : Landed cfg conns files log)
    (hnone : ∀ k nick filename path, .opened k nick filename path ∉ events) :
    Landed cfg conns files (log ++ events) := by
  have hold : ∀ {k nick filename path}, .opened k nick filename path ∈ log ++ events →
      .opened k nick filename path ∈ log :=
    fun hm => (List.mem_append.mp hm).resolve_right (hnone _ _ _ _)
  refine ⟨fun k nick filename path hm => h.opened k nick filename path (hold hm),
    fun k conn path hk htask => ?_, h.early, fun k conn nick filename path hk hm honly => ?_⟩
  · obtain ⟨nick, filename, hm⟩ := h.copying k conn path hk htask
    exact ⟨nick, filename, List.mem_append_left _ hm⟩
  · exact h.file k conn nick filename path hk (hold hm) fun j nick' filename' path' hj =>
      honly j nick' filename' path' (List.mem_append_left _ hj)

theorem Landed.set (h : Landed cfg conns files log) (hk : conns[k]? = some conn)
    (hcopied : conn'.copied = conn.copied)
    (htask : conn'.task = conn.task ∨ conn'.task.done = true ∨
      (conn.task.early = true ∧ conn'.task.early = true)) :
    Landed cfg (conns.set k conn') files log := by
  have hlt : k < conns.length := (List.getElem?_eq_some_iff.mp hk).1
  refine ⟨fun j nick filename path hm => ?_, fun j c path hj hc => ?_, fun j c hj hc => ?_,
    fun j c nick filename path hj hm honly => ?_⟩
  · obtain ⟨c, hj, hc⟩ := h.opened j nick filename path hm
    by_cases hjk : j = k
    · subst hjk
      obtain rfl := Option.some.inj (hk.symm.trans hj)
      refine ⟨conn', List.getElem?_set_self hlt, ?_⟩
      rcases htask with hsame | hdone | ⟨hearly, -⟩
      · rw [hsame]
        exact hc
      · exact Or.inr hdone
      · obtain ⟨hdone, hcopying⟩ := Task.early_spec hearly
        rcases hc with hc | hc
        · exact absurd hc (hcopying path)
        · rw [hdone] at hc
          cases hc
    · exact ⟨c, (List.getElem?_set_ne (Ne.symm hjk)).trans hj, hc⟩
  · rcases getElem?_set_eq_some hj with ⟨rfl, rfl⟩ | ⟨-, hj⟩
    · rcases htask with hsame | hdone | ⟨-, hearly⟩
      · exact h.copying j conn path hk (hsame.symm.trans hc)
      · rw [hc] at hdone
        cases hdone
      · rw [hc] at hearly
        cases hearly
    · exact h.copying j c path hj hc
  · rcases getElem?_set_eq_some hj with ⟨rfl, rfl⟩ | ⟨-, hj⟩
    · rw [hcopied]
      rcases htask with hsame | hdone | ⟨hearly, -⟩
      · exact h.early j conn hk (hsame ▸ hc)
      · rw [(Task.early_spec hc).1] at hdone
        cases hdone
      · exact h.early j conn hk hearly
    · exact h.early j c hj hc
  · rcases getElem?_set_eq_some hj with ⟨rfl, rfl⟩ | ⟨-, hj⟩
    · rw [hcopied]
      exact h.file j conn nick filename path hk hm honly
    · exact h.file j c nick filename path hj hm honly

theorem Landed.append (h : Landed cfg conns files log) (hearly : conn.task.early = true)
    (hcopied : conn.copied = []) : Landed cfg (conns ++ [conn]) files log := by
  have hold : ∀ {j : Nat} {c : Conn}, conns[j]? = some c → (conns ++ [conn])[j]? = some c :=
    fun hj => getElem?_concat_eq_some.mpr (Or.inl hj)
  refine ⟨fun j nick filename path hm => ?_, fun j c path hj hc => ?_, fun j c hj hc => ?_,
    fun j c nick filename path hj hm honly => ?_⟩
  · obtain ⟨c, hj, hc⟩ := h.opened j nick filename path hm
    exact ⟨c, hold hj, hc⟩
  · rcases getElem?_concat_eq_some.mp hj with hj | ⟨-, rfl⟩
    · exact h.copying j c path hj hc
    · exact absurd hc ((Task.early_spec hearly).2 path)
  · rcases getElem?_concat_eq_some.mp hj with hj | ⟨-, rfl⟩
    · exact h.early j c hj hc
    · exact hcopied
  · obtain ⟨c', hj', hc'⟩ := h.opened j nick filename path hm
    obtain rfl := Option.some.inj ((hold hj').symm.trans hj)
    exact h.file j c' nick filename path hj' hm honly

theorem Landed.open (h : Landed cfg conns files log) (hk : conns[k]? = some conn)
    (hearly : conn.task.early = true) {path : String} (nick filename : String) :
    Landed cfg (conns.set k { conn with task := .copying path })
      (Function.update files (cfg.leads path) (some [])) (log ++ [.opened k nick filename path]) := by
  have hlt : k < conns.length := (List.getElem?_eq_some_iff.mp hk).1
  have hfirst : ∀ nick filename path, .opened k nick filename path ∉ log := by
    intro nick filename path hm
    obtain ⟨c, hk', hc⟩ := h.opened k nick filename path hm
    obtain rfl := Option.some.inj (hk.symm.trans hk')
    obtain ⟨hdone, hcopying⟩ := Task.early_spec hearly
    rcases hc with hc | hc
    · exact hcopying path hc
    · rw [hdone] at hc
      cases hc
  refine ⟨fun j nick' filename' path' hm => ?_, fun j c path' hj hc => ?_, fun j c hj hc => ?_,
    fun j c nick' filename' path' hj hm honly => ?_⟩
  · rcases List.mem_append.mp hm with hm | hm
    · obtain ⟨c, hj, hc⟩ := h.opened j nick' filename' path' hm
      have hjk : k ≠ j := by
        rintro rfl
        exact hfirst _ _ _ hm
      exact ⟨c, (List.getElem?_set_ne hjk).trans hj, hc⟩
    · cases List.mem_singleton.mp hm
      exact ⟨_, List.getElem?_set_self hlt, Or.inl rfl⟩
  · rcases getElem?_set_eq_some hj with ⟨rfl, rfl⟩ | ⟨-, hj⟩
    · cases hc
      exact ⟨nick, filename, List.mem_append_right _ List.mem_cons_self⟩
    · obtain ⟨nick', filename', hm⟩ := h.copying j c path' hj hc
      exact ⟨nick', filename', List.mem_append_left _ hm⟩
  · rcases getElem?_set_eq_some hj with ⟨rfl, rfl⟩ | ⟨-, hj⟩
    · cases hc
    · exact h.early j c hj hc
  · rcases getElem?_set_eq_some hj with ⟨rfl, rfl⟩ | ⟨hjk, hj⟩
    · rcases List.mem_append.mp hm with hm | hm
      · exact absurd hm (hfirst _ _ _)
      · cases List.mem_singleton.mp hm
        rw [Function.update_self]
        exact congrArg some (h.early j conn hk hearly).symm
    · rcases List.mem_append.mp hm with hm | hm
      · have hne : cfg.leads path' ≠ cfg.leads path := by
          intro heq
          exact hjk (honly k nick filename path (List.mem_append_right _ List.mem_cons_self)
            heq.symm).symm
        rw [Function.update_of_ne hne]
        exact h.file j c nick' filename' path' hj hm fun i n f p hi =>
          honly i n f p (List.mem_append_left _ hi)
      · cases List.mem_singleton.mp hm
        exact absurd rfl hjk

theorem Landed.write (h : Landed cfg conns files log) (hk : conns[k]? = some conn) {path : String}
    (htask : conn.task = .copying path) (b : Bytes) (hcopied : conn'.copied = conn.copied ++ b)
    (htask' : conn'.task = .copying path ∨ conn'.task.done = true) :
    Landed cfg (conns.set k conn')
      (Function.update files (cfg.leads path)
        (some (patch ((files (cfg.leads path)).getD []) conn.copied.length b))) log := by
  have hlt : k < conns.length := (List.getElem?_eq_some_iff.mp hk).1
  obtain ⟨nick, filename, hopened⟩ := h.copying k conn path hk htask
  refine ⟨fun j nick' filename' path' hm => ?_, fun j c path' hj hc => ?_, fun j c hj hc => ?_,
    fun j c nick' filename' path' hj hm honly => ?_⟩
  · obtain ⟨c, hj, hc⟩ := h.opened j nick' filename' path' hm
    by_cases hjk : j = k
    · subst hjk
      obtain rfl := Option.some.inj (hk.symm.trans hj)
      refine ⟨conn', List.getElem?_set_self hlt, ?_⟩
      rw [htask] at hc
      rcases hc with hc | hc
      · cases hc
        exact htask'
      · cases hc
    · exact ⟨c, (List.getElem?_set_ne (Ne.symm hjk)).trans hj, hc⟩
  · rcases getElem?_set_eq_some hj with ⟨rfl, rfl⟩ | ⟨-, hj⟩
    · rcases htask' with htask' | hdone
      · rw [htask'] at hc
        cases hc
        exact ⟨nick, filename, hopened⟩
      · rw [hc] at hdone
        cases hdone
    · exact h.copying j c path' hj hc
  · rcases getElem?_set_eq_some hj with ⟨rfl, rfl⟩ | ⟨-, hj⟩
    · obtain ⟨hno, hcopying⟩ := Task.early_spec hc
      rcases htask' with htask' | hdone
      · exact absurd htask' (hcopying path)
      · rw [hno] at hdone
        cases hdone
    · exact h.early j c hj hc
  · rcases getElem?_set_eq_some hj with ⟨rfl, rfl⟩ | ⟨hjk, hj⟩
    · obtain ⟨c', hk', hc'⟩ := h.opened j nick' filename' path' hm
      obtain rfl := Option.some.inj (hk.symm.trans hk')
      rw [htask] at hc'
      rcases hc' with hc' | hc'
      · cases hc'
        rw [Function.update_self, h.file j conn nick' filename' path hk hm honly, Option.getD_some,
          patch_at_end, hcopied]
      · cases hc'
    · have hne : cfg.leads path' ≠ cfg.leads path := by
        intro heq
        exact hjk (honly k nick filename path hopened heq.symm).symm
      rw [Function.update_of_ne hne]
      exact h.file j c nick' filename' path' hj hm honly

end Landed

/-! ## Every step -/

structure Delivered (cfg : Config) (init : List FriendRecord) (w : World) : Prop where
  flow : ∀ (k : Nat) (conn : Conn) s, w.conns[k]? = some conn → conn.sender = some s →
    Flow cfg init w.log k conn s
  bound : ∀ k, .cut k ∈ w.log → k < w.conns.length
  landed : Landed cfg w.conns w.files w.log

section Steps

variable {cfg : Config} {init : List FriendRecord} {file₀ : Option Bytes}
  {files₀ : String → Option Bytes} {w w' : World} {k : Nat} {conn conn' : Conn}
  {events : List Event}

/-- Nothing is opened or cut. -/
def Calm (events : List Event) : Prop :=
  (∀ k nick filename path, .opened k nick filename path ∉ events) ∧ ∀ k, .cut k ∉ events

theorem calm_nil : Calm [] := ⟨by simp, by simp⟩

theorem Delivered.grow (h : Delivered cfg init w) (hconns : w'.conns = w.conns)
    (hfiles : w'.files = w.files) (hlog : w'.log = w.log ++ events) (hcalm : Calm events) :
    Delivered cfg init w' := by
  have hcut : ∀ {j}, .cut j ∈ w'.log → .cut j ∈ w.log := by
    intro j hj
    rw [hlog] at hj
    exact (List.mem_append.mp hj).resolve_right (hcalm.2 j)
  refine ⟨fun j c s hj hs => ?_, fun j hj => ?_, ?_⟩
  · rw [hconns] at hj
    exact (h.flow j c s hj hs).mono (by rw [hlog]; exact List.subset_append_left _ _) hcut
  · rw [hconns]
    exact h.bound j (hcut hj)
  · rw [hconns, hfiles, hlog]
    exact h.landed.grow hcalm.1

theorem Delivered.set (h : Delivered cfg init w) (hk : w.conns[k]? = some conn)
    (hconns : w'.conns = w.conns.set k conn') (hfiles : w'.files = w.files)
    (hlog : w'.log = w.log ++ events) (hcalm : Calm events) (hsender : conn'.sender = conn.sender)
    (hcopied : conn'.copied = conn.copied)
    (htask : conn'.task = conn.task ∨ conn'.task.done = true ∨
      (conn.task.early = true ∧ conn'.task.early = true))
    (hflow : ∀ s, Flow cfg init w.log k conn s → Flow cfg init w.log k conn' s) :
    Delivered cfg init w' := by
  have hmid : Delivered cfg init { w with conns := w.conns.set k conn' } := by
    refine ⟨fun j c s hj hs => ?_, fun j hj => ?_, h.landed.set hk hcopied htask⟩
    · rcases getElem?_set_eq_some hj with ⟨rfl, rfl⟩ | ⟨-, hj⟩
      · exact hflow s (h.flow j conn s hk (hsender ▸ hs))
      · exact h.flow j c s hj hs
    · rw [List.length_set]
      exact h.bound j hj
  exact hmid.grow hconns hfiles hlog hcalm

theorem Delivered.respond (h : Delivered cfg init w) {response : SyncResponse}
    (hstep : w.respond cfg k response = some w') : Delivered cfg init w' := by
  obtain ⟨conn, p, filename, store, hk, htask, -, rfl⟩ := respond_eq_some hstep
  have hearly : conn.task.early = true := by
    rw [htask]
    rfl
  have hflow : ∀ {task : Task}, task.name = some filename → task.unanswered = true →
      task ≠ .reading → ∀ s, Flow cfg init w.log k conn s →
        Flow cfg init w.log k { conn with task := task } s := by
    intro task hname hun hread s hs
    exact hs.task (by rw [hname, htask]; rfl) (by simp [htask]) (by rw [htask]; rfl) hread hun
  split
  · exact h.set hk rfl rfl rfl ⟨by simp, by simp⟩ rfl rfl (Or.inr (Or.inr ⟨hearly, rfl⟩))
      (hflow rfl rfl (by simp))
  · exact h.set hk rfl rfl (List.append_nil _).symm calm_nil rfl rfl
      (Or.inr (Or.inr ⟨hearly, rfl⟩)) (hflow rfl rfl (by simp))

theorem Delivered.saved (h : Delivered cfg init w) (hstep : w.saved k = some w') :
    Delivered cfg init w' := by
  obtain ⟨conn, hk, hstep⟩ := Option.bind_eq_some_iff.mp hstep
  split at hstep
  case h_2 => cases hstep
  rename_i p filename path htask
  obtain ⟨proc, hp, hstep⟩ := Option.bind_eq_some_iff.mp hstep
  have hearly : conn.task.early = true := by
    rw [htask]
    rfl
  split at hstep
  · cases hstep
    refine h.set hk rfl rfl (List.append_nil _).symm calm_nil rfl rfl
      (Or.inr (Or.inr ⟨hearly, rfl⟩)) fun s hs => ?_
    exact hs.task (by rw [htask]; rfl) (by simp [htask]) (by rw [htask]; rfl) (by simp) rfl
  · cases hstep

theorem Delivered.readProposal (hlines : Lines cfg.messages) (h : Delivered cfg init w)
    {reads : Bool} (hstep : w.readProposal cfg k reads = some w') : Delivered cfg init w' := by
  obtain ⟨conn, hk, hstep⟩ := Option.bind_eq_some_iff.mp hstep
  split at hstep
  case h_2 => cases hstep
  rename_i hreading
  have hearly : conn.task.early = true := by
    rw [hreading]
    rfl
  have hfinish : ∀ there, Delivered cfg init
      (w.setTask k { conn with there := there } (.finished none)) := by
    intro there
    refine h.set hk rfl rfl (List.append_nil _).symm calm_nil rfl rfl (Or.inr (Or.inl rfl))
      fun s hs => ?_
    exact hs.finish rfl rfl (Or.inl rfl) hs.back hs.copied (by simp)
  obtain ⟨r, hline, hstep⟩ := Option.bind_eq_some_iff.mp hstep
  split at hstep
  · cases hstep
    exact hfinish conn.there
  · rename_i text there
    split at hstep
    case h_2 =>
      cases hstep
      exact hfinish there
    rename_i filename lastModified hmsg
    have hset : ∀ task store channel, task.name = some filename → task.unanswered = true →
        task ≠ .reading → Delivered cfg init
          { w.setTask k { conn with there := there } task with
            store := store, channel := channel } := by
      intro task store channel hname hun hread
      have hearly' : task.early = true := by
        cases task with
        | copying path => cases hun
        | finished report => cases hun
        | _ => rfl
      exact h.set hk rfl rfl (List.append_nil _).symm calm_nil rfl rfl
        (Or.inr (Or.inr ⟨hearly, hearly'⟩)) fun s hs =>
          hs.read hlines hreading hline hmsg hname hun hread
    unfold World.propose at hstep
    dsimp only at hstep
    split at hstep
    · cases hstep
      exact h.grow rfl rfl (List.append_nil _).symm calm_nil
    · obtain ⟨begun, -, hrest⟩ := Option.bind_eq_some_iff.mp hstep
      obtain ⟨store, -, hlast⟩ := Option.bind_eq_some_iff.mp hrest
      split at hlast
      · cases hlast
        exact hset _ _ _ rfl rfl (by simp)
      · cases hlast
        exact hset _ _ _ rfl rfl (by simp)

theorem Landed.serves (h : Landed cfg w.conns w.files w.log) (hspares : SparesBook cfg init w)
    (ht : Traced cfg init file₀ files₀ w) (hk : w.conns[k]? = some conn) {written : Written}
    (hserves : Serves cfg k (w.read cfg) conn conn' written events) :
    Landed cfg (w.conns.set k conn') (w.write cfg written).files (w.log ++ events) := by
  have hquiet : ∀ c, c.copied = conn.copied → (c.task = conn.task ∨ c.task.done = true ∨
      (conn.task.early = true ∧ c.task.early = true)) →
      (∀ k nick filename path, .opened k nick filename path ∉ events) →
      Landed cfg (w.conns.set k c) w.files (w.log ++ events) :=
    fun c hcopied htask hnone => (h.set hk hcopied htask).grow hnone
  have hover : events = [.cut k] ∨ events = [] ∧ (∃ report, conn.task = .finished report) →
      ∀ j nick filename path, .opened j nick filename path ∉ events := by
    intro hevents j nick filename path hj
    rcases hevents with rfl | ⟨rfl, -⟩
    · simp at hj
    · cases hj
  have hwrite : ∀ path c, conn.task = .copying path → ∀ n,
      c.copied = conn.copied ++ conn.there.bytes.take n →
      (c.task = .copying path ∨ c.task.done = true) →
      Landed cfg (w.conns.set k c) (w.write cfg (some (path, patch ((w.read cfg path).getD [])
        conn.copied.length (conn.there.bytes.take n)))).files w.log := by
    intro path c htask n hcopied htask'
    obtain ⟨nick, filename, hopened⟩ := h.copying k conn path hk htask
    obtain ⟨-, -, hagreed⟩ := ht.opened k nick filename path hopened
    have hne := hspares _ _ _ hagreed
    rw [write_of_ne hne, read_of_ne hne]
    exact h.write hk htask _ hcopied htask'
  cases hserves with
  | refuses filename path r htask =>
    refine hquiet _ ?_ (Or.inr (Or.inl rfl)) (by simp)
    unfold Conn.refuse Conn.answer
    split <;> rfl
  | accepts filename path htask hpath =>
    exact hquiet _ rfl (Or.inr (Or.inr ⟨by rw [htask]; rfl, rfl⟩)) (by simp)
  | opens filename path htask =>
    have hcleared := (ht.conns k conn hk).cleared
    unfold Cleared at hcleared
    rw [htask] at hcleared
    rw [write_of_ne (hspares _ _ _ hcleared.2)]
    exact h.open hk (by rw [htask]; rfl) conn.nick filename
  | copies path n htask hle =>
    exact (hwrite path _ htask n (by rfl) (Or.inl (by exact htask))).grow (by simp)
  | copyFails path n e htask hle =>
    exact (hwrite path _ htask n (by rfl) (Or.inr (by rfl))).grow (by simp)
  | succeeds path htask hbytes hended => exact hquiet _ rfl (Or.inr (Or.inl rfl)) (by simp)
  | givesUp report hreport hop => exact hquiet _ rfl (Or.inr (Or.inl rfl)) (by simp)
  | sends s hsender _ hsends =>
    obtain ⟨-, htask, hcopied, -⟩ := hsends.same
    exact hquiet _ hcopied (Or.inl htask) (by simp)
  | leaves s hsender res => exact hquiet _ rfl (Or.inl rfl) (by simp)
  | drops s hsender res there r hevents => exact hquiet _ rfl (Or.inl rfl) (hover hevents)
  | foreign b hsender => exact hquiet _ rfl (Or.inl rfl) (by simp)
  | cut there back r hevents => exact hquiet _ rfl (Or.inl rfl) (hover hevents)

theorem Delivered.connStep (hlines : Lines cfg.messages) (ht : Traced cfg init file₀ files₀ w)
    (hspares : SparesBook cfg init w) (h : Delivered cfg init w) {a : ConnAct}
    (hstep : w.connStep cfg k a = some w') : Delivered cfg init w' := by
  obtain ⟨conn, conn', written, events, hk, hserves, rfl⟩ := connStep_eq_some hstep
  have hcleared := (ht.conns k conn hk).cleared
  have hcuts : ∀ j, .cut j ∈ events → j = k := by
    have hover : ∀ {Q : Prop}, events = [.cut k] ∨ events = [] ∧ Q →
        ∀ j, .cut j ∈ events → j = k := by
      intro Q hevents j hj
      rcases hevents with rfl | ⟨rfl, -⟩
      · simpa using hj
      · cases hj
    intro j hj
    cases hserves with
    | opens filename path htask => simp at hj
    | drops s hsender res there r hevents => exact hover hevents j hj
    | cut there back r hevents => exact hover hevents j hj
    | _ => cases hj
  have hlanded : Landed cfg (w.conns.set k conn') (w.write cfg written).files
      (w.log ++ events) := h.landed.serves hspares ht hk hserves
  refine ⟨fun j c s hj hs => ?_, fun j hj => ?_, hlanded⟩
  · rcases getElem?_set_eq_some hj with ⟨rfl, rfl⟩ | ⟨hjk, hj⟩
    · cases hsender : conn.sender with
      | none =>
        rw [hserves.sender_eq_none hsender] at hs
        cases hs
      | some s₀ =>
        obtain ⟨s', hs', hflow⟩ := (h.flow j conn s₀ hk hsender).serves hlines hsender
          hcleared hserves
        obtain rfl := Option.some.inj (hs.symm.trans hs')
        exact hflow
    · refine (h.flow j c s hj hs).mono (List.subset_append_left _ _) fun hcut => ?_
      exact (List.mem_append.mp hcut).resolve_right fun hj => hjk (hcuts j hj)
  · rw [List.length_set]
    rcases List.mem_append.mp hj with hj | hj
    · exact h.bound j hj
    · rw [hcuts j hj]
      exact (List.getElem?_eq_some_iff.mp hk).1

theorem Delivered.loaded (h : Delivered cfg init w) {p : Nat} {a : Book.Act}
    (hstep : w.loaded cfg p a = some w') : Delivered cfg init w' := by
  obtain ⟨s, hs, hstep⟩ := Option.bind_eq_some_iff.mp hstep
  cases hstep
  refine h.grow rfl rfl rfl ?_
  split
  · exact ⟨by simp, by simp⟩
  · exact calm_nil

theorem Delivered.book (h : Delivered cfg init w) {a : Book.Act} (hstep : w.book cfg a = some w') :
    Delivered cfg init w' := by
  unfold World.book at hstep
  split at hstep
  · cases hstep
  · cases hstep
  · exact h.loaded hstep
  · exact h.loaded hstep
  · obtain ⟨s, hs, hstep⟩ := Option.bind_eq_some_iff.mp hstep
    cases hstep
    exact h.grow rfl rfl (List.append_nil _).symm calm_nil
  · obtain ⟨s, hs, hstep⟩ := Option.bind_eq_some_iff.mp hstep
    cases hstep
    exact h.grow rfl rfl (List.append_nil _).symm calm_nil

theorem flow_new (nick : String) {sender : Option (String × UInt64 × Bytes)} {s : Sender}
    {log : List Event} (hs : (Conn.new nick sender).sender = some s) (hcut : .cut k ∉ log) :
    Flow cfg init log k (Conn.new nick sender) s := by
  obtain ⟨⟨filename, lastModified, content⟩, -, rfl⟩ := Option.map_eq_some_iff.mp hs
  refine ⟨Nat.zero_le _, fun hr => ?_, fun hr => (by cases hr), fun _ => rfl, fun _ => rfl,
    fun f hf => (by cases hf), List.nil_prefix, fun _ => ⟨List.nil_prefix, fun _ => rfl⟩,
    fun hread => absurd rfl hread, fun _ => ⟨fun hyes => absurd hyes hcut, fun _ hsome => ?_⟩,
    fun n ht => by cases ht⟩
  · rcases hr with hr | hr
    · cases hr
    · cases hr
  · cases hsome

theorem Delivered.authenticate (h : Delivered cfg init w) {secret : List.Vector UInt8 32}
    {payload : Bytes} {sender : Option (String × UInt64 × Bytes)}
    (hstep : w.authenticate cfg secret payload sender = some w') : Delivered cfg init w' := by
  obtain ⟨friends, -, hstep⟩ := Option.bind_eq_some_iff.mp hstep
  obtain ⟨keys, -, hstep⟩ := Option.bind_eq_some_iff.mp hstep
  split at hstep
  · cases hstep
    exact h.grow rfl rfl (List.append_nil _).symm calm_nil
  · rename_i session hsession
    cases hstep
    let nick := nickOf cfg friends session.remoteStaticKey
    have hmid : Delivered cfg init { w with conns := w.conns ++ [.new nick sender] } := by
      refine ⟨fun j c s hj hs => ?_, fun j hj => ?_, h.landed.append rfl rfl⟩
      · rcases getElem?_concat_eq_some.mp hj with hj | ⟨rfl, rfl⟩
        · exact h.flow j c s hj hs
        · exact flow_new nick hs fun hcut => absurd (h.bound _ hcut) (Nat.lt_irrefl _)
      · rw [List.length_append]
        exact Nat.lt_add_right _ (h.bound j hj)
    exact hmid.grow rfl rfl rfl ⟨by simp, by simp⟩

theorem Delivered.step (hlines : Lines cfg.messages) (ht : Traced cfg init file₀ files₀ w)
    (hspares : SparesBook cfg init w) (h : Delivered cfg init w) {a : Act}
    (hstep : Push.step cfg w a = some w') :
    Delivered cfg init w' := by
  have hwindow : ∀ channel dialog,
      Delivered cfg init { w with channel := channel, dialog := dialog } :=
    fun _ _ => ⟨h.flow, h.bound, h.landed⟩
  unfold Push.step at hstep
  split at hstep
  · cases hstep
  cases a with
  | book a => exact h.book hstep
  | request reads =>
    have hstep : w.request cfg reads = some w' := hstep
    unfold World.request at hstep
    split at hstep
    · cases hstep
    · split at hstep
      · cases hstep
        exact h.grow rfl rfl (List.append_nil _).symm calm_nil
      · split at hstep <;> cases hstep <;> exact h.grow rfl rfl (List.append_nil _).symm calm_nil
  | refuse =>
    obtain ⟨friends, -, rfl⟩ := Option.map_eq_some_iff.mp hstep
    exact h.grow rfl rfl (List.append_nil _).symm calm_nil
  | authenticate secret payload sender => exact h.authenticate hstep
  | readProposal k reads => exact h.readProposal hlines hstep
  | poll n =>
    have hstep : w.poll cfg n = some w' := hstep
    unfold World.poll at hstep
    split at hstep
    · cases hstep
    · exact dropAll_invariant (fun _ _ _ hw hr => hw.respond hr) hstep (hwindow _ _)
  | edit vaultLabel savePath =>
    obtain ⟨d, -, rfl⟩ := Option.map_eq_some_iff.mp hstep
    exact hwindow _ _
  | accept =>
    obtain ⟨d, -, hstep⟩ := Option.bind_eq_some_iff.mp hstep
    exact (hwindow w.channel none).respond hstep
  | reject =>
    obtain ⟨d, -, hstep⟩ := Option.bind_eq_some_iff.mp hstep
    exact (hwindow w.channel none).respond hstep
  | prompt k ans label pathAns =>
    obtain ⟨conn, -, hstep⟩ := Option.bind_eq_some_iff.mp hstep
    split at hstep
    · split at hstep
      · cases hstep
      · exact h.respond hstep
    · cases hstep
  | saved k => exact h.saved hstep
  | conn k a => exact h.connStep hlines ht hspares hstep

end Steps

/-! ## Every run -/

section Runs

variable {cfg : Config} {init : List FriendRecord} {file₀ : Option Bytes}
  {files₀ : String → Option Bytes} {acts : List Act} {w : World}

end Runs

end AtomVault.Daemon.Push
