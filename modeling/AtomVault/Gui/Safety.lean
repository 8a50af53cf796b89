import AtomVault.Gui.Moves
import AtomVault.Vault.Instance

/-!
# Safety of the GUI

What holds of every run, in whatever order the dialogs are answered and the broker's threads end.
-/

open Lib Relation

namespace AtomVault.Gui

namespace Effect

def isImport : Effect → Bool
  | imported _ _ _ => true
  | _ => false

/-- A plaintext went out of the vault. -/
def isExport : Effect → Bool
  | exported _ _ _ _ _ => true
  | wrote _ _ _ => true
  | _ => false

end Effect

section Invariants

variable {cr : Crates} {ll : Landlock} {env : GuiEnv} {care : Prop} {w w' : World}

/-! ## The domain -/

/-- A vault is open on its screens alone and in a domain alone, and was let be written by it. -/
structure Inside (ll : Landlock) (env : GuiEnv) (w : World) : Prop where
  screens : w.screen.inside = w.vaultSession.isSome
  confined : w.vaultSession.isSome = true → w.sandboxApplied = true
  applied : w.sandboxApplied = true →
    ∃ path h, w.domain = some (applyGuiVaultSandbox ll h env path)
  before : w.sandboxApplied = false → w.domain = none ∧ ∀ h path, .opened h path ∉ w.log
  opened : ∀ h path, .opened h path ∈ w.log →
    ∃ rules, w.domain = some rules ∧ ll.permits h rules .writeFile path = true

theorem Inside.does (hi : Inside ll env w) (h : Does cr ll env care w w') :
    Inside ll env w' := by
  cases h
  case go s hs => exact ⟨hs.trans hi.screens, hi.confined, hi.applied, hi.before, hi.opened⟩
  case lock hcare => exact ⟨rfl, fun h => (by cases h), hi.applied, hi.before, hi.opened⟩
  case confine path hs =>
    refine ⟨hi.screens, fun _ => rfl, fun _ => ⟨path, w.host, rfl⟩, fun h => (by cases h), ?_⟩
    exact fun h p hm => absurd hm ((hi.before hs).2 h p)
  case enter path s h hs hout hmay =>
    obtain ⟨path₀, h₀, hdomain⟩ := hi.applied hs
    refine ⟨rfl, fun _ => hs, hi.applied, fun hnot => ?_, fun h' p hm => ?_⟩
    · rw [hs] at hnot
      cases hnot
    · rcases List.mem_append.mp hm with hm | hm
      · exact hi.opened h' p hm
      · cases List.mem_singleton.mp hm
        unfold World.may at hmay
        rw [hdomain] at hmay
        exact ⟨_, hdomain, hmay⟩
  case vault s s' h hs =>
    refine ⟨hi.screens.trans (by rw [hs]; rfl), fun _ => hi.confined (by rw [hs]; rfl), hi.applied,
      hi.before, hi.opened⟩
  case takeImport path hp =>
    unfold World.pollImportPath
    rw [hp]
    exact ⟨hi.screens, hi.confined, hi.applied, hi.before, hi.opened⟩
  all_goals
    refine ⟨hi.screens, hi.confined, hi.applied,
      fun hs => ⟨(hi.before hs).1, fun h p hm => (hi.before hs).2 h p ?_⟩,
      fun h p hm => hi.opened h p ?_⟩
    all_goals simpa [World.note, World.send, World.reply, World.doExportFile] using hm

/-- A domain is put on once. -/
theorem Inside.domain_does (hi : Inside ll env w) (h : Does cr ll env care w w')
    {rules : Ruleset} (hd : w.domain = some rules) : w'.domain = some rules := by
  cases h
  case confine path hs =>
    rw [(hi.before hs).1] at hd
    cases hd
  case takeImport path hp =>
    unfold World.pollImportPath
    rw [hp]
    exact hd
  all_goals exact hd

/-! ## What is not done -/

/-- With care, what was begun in a vault is not there behind it. -/
def Begun (care : Prop) (w : World) : Prop := care → w.Busy → w.screen.inside = true

theorem Begun.does (hb : Begun care w) (h : Does cr ll env care w w') : Begun care w' := by
  intro hc hbusy
  cases h
  case go s hs =>
    rw [hs]
    exact hb hc hbusy
  case lock hcare => exact absurd hbusy (hcare hc)
  case enter => rfl
  case askVault =>
    refine hb hc (hbusy.imp_left ?_)
    rintro ⟨d, hd, hne⟩
    rcases List.mem_append.mp hd with hd | hd
    · exact ⟨d, hd, hne⟩
    · exact absurd (List.mem_singleton.mp hd) hne
  case askImport hin => exact hin
  case askExport name hin _ => exact hin
  case takeImport path hp =>
    unfold World.pollImportPath
    rw [hp]
    exact hb hc (Or.inr (Or.inl (by rw [hp]; exact Option.some_ne_none path)))
  case store k data hk _ _ =>
    exact hb hc (Or.inr (Or.inr (Or.inr (by rw [hk]; exact Option.some_ne_none k))))
  case drop k name =>
    refine hb hc (hbusy.imp_right fun h => h.imp_right fun h => h.imp_right fun h => ?_)
    exact absurd rfl h
  case noExport path name hp hpath _ =>
    exact hb hc (Or.inr (Or.inr (Or.inl (by rw [hp]; exact hpath))))
  case sendExport path name data s s' hp _ _ _ =>
    exact hb hc (Or.inr (Or.inr (Or.inl (by rw [hp]; exact Option.some_ne_none path))))
  case close i =>
    refine hb hc (hbusy.imp_left ?_)
    rintro ⟨d, hd, hne⟩
    exact ⟨d, List.mem_of_mem_eraseIdx hd, hne⟩
  case pickImport i vault path hi =>
    exact hb hc (Or.inl ⟨_, List.mem_of_getElem? hi, by intro h; cases h⟩)
  case pickExport i vault name path hi =>
    exact hb hc (Or.inl ⟨_, List.mem_of_getElem? hi, by intro h; cases h⟩)
  all_goals exact hb hc hbusy

/-! ## What is done next -/

/-- More was done, of which nothing is of the kind that `p` tells. -/
structure Later (p : Effect → Bool) (w w' : World) : Prop where
  log : w.log ⊆ w'.log
  new : ∀ e ∈ w'.log, p e = true → e ∈ w.log
  vault : w'.currentVaultPath = w.currentVaultPath

theorem Later.of_log {p : Effect → Bool} (hlog : w'.log = w.log)
    (hv : w'.currentVaultPath = w.currentVaultPath) : Later p w w' :=
  ⟨fun _ he => by rwa [hlog], fun _ he _ => by rwa [hlog] at he, hv⟩

theorem Later.of_note {p : Effect → Bool} {e : Effect} (hlog : w'.log = w.log ++ [e])
    (hv : w'.currentVaultPath = w.currentVaultPath) (he : p e = false) : Later p w w' := by
  refine ⟨hlog ▸ List.subset_append_left _ _, fun e' hm hp => ?_, hv⟩
  rw [hlog] at hm
  rcases List.mem_append.mp hm with hm | hm
  · exact hm
  · cases List.mem_singleton.mp hm
    rw [he] at hp
    cases hp

theorem getElem?_of_send {r r' : BrokerRequest} {k : Nat} (h : w.requests[k]? = some r) :
    (w.send r').requests[k]? = some r := getElem?_concat_eq_some.mpr (Or.inl h)

/-! ## Imports -/

section Imports

variable {log log' : List Effect} {path : String} {data : Bytes}

/-- The path was picked, and with care in this vault. -/
def Picked (care : Prop) (log : List Effect) (vault path : String) : Prop :=
  ∃ vault', .pickedImport vault' path ∈ log ∧ (care → vault' = vault)

/-- The broker found these bytes in the file. -/
def Read (log : List Effect) (path : String) (data : Bytes) : Prop :=
  ∃ h, .read h path data ∈ log ∧ h.contents path = some data

/-- These bytes, under this name, are what was picked. -/
def Imported (care : Prop) (log : List Effect) (vault name : String) (data : Bytes) : Prop :=
  ∃ path, name = (fileName path).getD "" ∧ Read log path data ∧ Picked care log vault path

theorem Picked.mono {vault : String} (h : Picked care log vault path) (hlog : log ⊆ log') :
    Picked care log' vault path := by
  obtain ⟨vault', hp, hvault⟩ := h
  exact ⟨vault', hlog hp, hvault⟩

theorem Read.mono (h : Read log path data) (hlog : log ⊆ log') : Read log' path data := by
  obtain ⟨host, hr, hdata⟩ := h
  exact ⟨host, hlog hr, hdata⟩

theorem Imported.mono {vault name : String} (h : Imported care log vault name data)
    (hlog : log ⊆ log') : Imported care log' vault name data := by
  obtain ⟨path, hn, hr, hp⟩ := h
  exact ⟨path, hn, hr.mono hlog, hp.mono hlog⟩

/-- With care the vault does not matter where nothing was begun. -/
theorem Picked.of_not {vault vault' : String} (h : Picked care log vault path) (hc : ¬care) :
    Picked care log vault' path := by
  obtain ⟨v, hp, -⟩ := h
  exact ⟨v, hp, fun h => absurd h hc⟩

end Imports

/-- What is under way is what was picked. -/
structure Incoming (care : Prop) (w : World) : Prop where
  slot : ∀ path, w.pendingImportPath = some path → Picked care w.log w.currentVaultPath path
  dialogs : care → ∀ vault, .pickImport vault ∈ w.dialogs → vault = w.currentVaultPath
  handle : ∀ k, w.pendingImportBytes = some k → ∃ path, w.requests[k]? = some (.readFile path) ∧
    w.pendingImportVfsName = (fileName path).getD "" ∧ Picked care w.log w.currentVaultPath path
  replies : ∀ k data, w.replies k = some (.read (.ok data)) →
    ∃ path, w.requests[k]? = some (.readFile path) ∧ Read w.log path data
  imported : ∀ vault name data, .imported vault name data ∈ w.log →
    Imported care w.log vault name data

theorem Incoming.later (hi : Incoming care w) (hl : Later Effect.isImport w w')
    (hslot : w'.pendingImportPath = w.pendingImportPath)
    (hdialogs : ∀ vault, .pickImport vault ∈ w'.dialogs → .pickImport vault ∈ w.dialogs)
    (hbytes : w'.pendingImportBytes = w.pendingImportBytes)
    (hname : w'.pendingImportVfsName = w.pendingImportVfsName)
    (hrequests : ∀ (k : Nat) (r : BrokerRequest),
      w.requests[k]? = some r → w'.requests[k]? = some r)
    (hreplies : ∀ k data, w'.replies k = some (.read (.ok data)) →
      w.replies k = some (.read (.ok data))) : Incoming care w' where
  slot path hp := by
    rw [hl.vault]
    exact (hi.slot path (hslot.symm.trans hp)).mono hl.log
  dialogs hc vault hd := (hi.dialogs hc vault (hdialogs vault hd)).trans hl.vault.symm
  handle k hk := by
    obtain ⟨path, hr, hn, hp⟩ := hi.handle k (hbytes.symm.trans hk)
    rw [hl.vault]
    exact ⟨path, hrequests k _ hr, hname.trans hn, hp.mono hl.log⟩
  replies k data hr := by
    obtain ⟨path, hk, hread⟩ := hi.replies k data (hreplies k data hr)
    exact ⟨path, hrequests k _ hk, hread.mono hl.log⟩
  imported vault name data hm := (hi.imported vault name data (hl.new _ hm rfl)).mono hl.log

theorem replies_of_taken {k k' : Nat} {r : Reply}
    (h : Function.update w.replies k' none k = some r) : w.replies k = some r := by
  by_cases hk : k = k'
  · rw [hk, Function.update_self] at h
    cases h
  · rwa [Function.update_of_ne hk] at h

/-- A vault is entered with nothing under way, where there is care. -/
theorem Begun.not_care (hb : Begun care w) (hout : w.screen.inside = false) (hbusy : w.Busy) :
    ¬care := by
  intro hc
  have hin := hb hc hbusy
  rw [hout] at hin
  cases hin

theorem Incoming.does (hb : Begun care w) (hi : Incoming care w)
    (h : Does cr ll env care w w') : Incoming care w' := by
  cases h
  case enter path s h hs hout hmay =>
    have hlog : w.log ⊆ w.log ++ [.opened w.host path] := List.subset_append_left _ _
    refine ⟨fun p hp => ?_, fun hc vault hd => ?_, fun k hk => ?_, fun k data hr => ?_,
      fun vault name data hm => (hi.imported vault name data (by simpa using hm)).mono hlog⟩
    · have hbusy : w.Busy := Or.inr (Or.inl (by rw [hp]; exact Option.some_ne_none p))
      exact ((hi.slot p hp).of_not (hb.not_care hout hbusy)).mono hlog
    · exact absurd hc (hb.not_care hout (Or.inl ⟨_, hd, by intro h; cases h⟩))
    · obtain ⟨p, hr, hn, hpicked⟩ := hi.handle k hk
      have hbusy : w.Busy := Or.inr (Or.inr (Or.inr (by rw [hk]; exact Option.some_ne_none k)))
      exact ⟨p, hr, hn, (hpicked.of_not (hb.not_care hout hbusy)).mono hlog⟩
    · obtain ⟨p, hk, hread⟩ := hi.replies k data hr
      exact ⟨p, hk, hread.mono hlog⟩
  case askImport hin =>
    refine ⟨hi.slot, fun hc vault hd => ?_, hi.handle, hi.replies, hi.imported⟩
    rcases List.mem_append.mp hd with hd | hd
    · exact hi.dialogs hc vault hd
    · cases List.mem_singleton.mp hd
      rfl
  case takeImport path hp =>
    unfold World.pollImportPath
    rw [hp]
    refine ⟨fun p h => (by cases h), hi.dialogs, fun k hk => ?_, fun k data hr => ?_, hi.imported⟩
    · obtain rfl : w.requests.length = k := Option.some.inj hk
      exact ⟨path, List.getElem?_concat_length, rfl, hi.slot path hp⟩
    · obtain ⟨p, hk, hread⟩ := hi.replies k data hr
      exact ⟨p, getElem?_of_send hk, hread⟩
  case store k data hk hr hs =>
    have hlog : w.log ⊆ w.log ++ [.imported w.currentVaultPath w.pendingImportVfsName data] :=
      List.subset_append_left _ _
    refine ⟨fun p hp => (hi.slot p hp).mono hlog, hi.dialogs, fun _ h => (by cases h),
      fun k' data' hr' => ?_, fun vault' name data' hm => ?_⟩
    · obtain ⟨p, hk', hread⟩ := hi.replies k' data' (replies_of_taken hr')
      exact ⟨p, hk', hread.mono hlog⟩
    · rcases List.mem_append.mp hm with hm | hm
      · exact (hi.imported vault' name data' hm).mono hlog
      · cases List.mem_singleton.mp hm
        obtain ⟨path, hreq, hn, hpicked⟩ := hi.handle k hk
        obtain ⟨p, hreq', hread⟩ := hi.replies k data hr
        obtain rfl : path = p := by simpa [hreq] using hreq'
        exact ⟨path, hn, hread.mono hlog, hpicked.mono hlog⟩
  case drop k name =>
    refine ⟨hi.slot, hi.dialogs, fun _ h => (by cases h), fun k' data hr => ?_, hi.imported⟩
    exact hi.replies k' data (replies_of_taken hr)
  case pickImport i vault path hd =>
    have hlog : w.log ⊆ w.log ++ [.pickedImport vault path] := List.subset_append_left _ _
    refine ⟨fun p hp => ?_, fun hc v hd => hi.dialogs hc v (List.mem_of_mem_eraseIdx hd),
      fun k hk => ?_, fun k data hr => ?_,
      fun v name data hm => (hi.imported v name data (by simpa using hm)).mono hlog⟩
    · obtain rfl : path = p := Option.some.inj hp
      exact ⟨vault, List.mem_append_right _ List.mem_cons_self,
        fun hc => hi.dialogs hc vault (List.mem_of_getElem? hd)⟩
    · obtain ⟨p, hr, hn, hpicked⟩ := hi.handle k hk
      exact ⟨p, hr, hn, hpicked.mono hlog⟩
    · obtain ⟨p, hk, hread⟩ := hi.replies k data hr
      exact ⟨p, hk, hread.mono hlog⟩
  case reply k r hr =>
    refine hi.later (.of_log rfl rfl) rfl (fun _ h => h) rfl rfl (fun _ _ h => h)
      fun k' data hr' => ?_
    replace hr' : Function.update w.replies k (some r) k' = some (.read (.ok data)) := hr'
    by_cases hk : k' = k
    · rw [hk, Function.update_self] at hr'
      exact absurd (Option.some.inj hr') (hr data)
    · rwa [Function.update_of_ne hk] at hr'
  case read k path data hk hdata =>
    have hlog : w.log ⊆ w.log ++ [.read w.host path data] := List.subset_append_left _ _
    refine ⟨fun p hp => (hi.slot p hp).mono hlog, hi.dialogs, fun k' hk' => ?_,
      fun k' data' hr => ?_, fun v name data' hm => ?_⟩
    · obtain ⟨p, hr, hn, hpicked⟩ := hi.handle k' hk'
      exact ⟨p, hr, hn, hpicked.mono hlog⟩
    · replace hr : Function.update w.replies k (some (.read (.ok data))) k' =
        some (.read (.ok data')) := hr
      by_cases hk' : k' = k
      · rw [hk', Function.update_self] at hr
        cases hr
        rw [hk']
        exact ⟨path, hk, w.host, List.mem_append_right _ List.mem_cons_self, hdata⟩
      · rw [Function.update_of_ne hk'] at hr
        obtain ⟨p, hp, hread⟩ := hi.replies k' data' hr
        exact ⟨p, hp, hread.mono hlog⟩
    · exact (hi.imported v name data' (by simpa [World.note, World.reply] using hm)).mono hlog
  case askVault =>
    exact hi.later (.of_log rfl rfl) rfl (fun _ h => by simpa using h) rfl rfl (fun _ _ h => h)
      fun _ _ h => h
  case askExport name _ _ =>
    exact hi.later (.of_log rfl rfl) rfl (fun _ h => by simpa [World.doExportFile] using h) rfl rfl
      (fun _ _ h => h) fun _ _ h => h
  case close i =>
    exact hi.later (.of_log rfl rfl) rfl (fun _ h => List.mem_of_mem_eraseIdx h) rfl rfl
      (fun _ _ h => h) fun _ _ h => h
  case pickExport i vault name path _ =>
    exact hi.later (.of_note rfl rfl rfl) rfl (fun _ h => List.mem_of_mem_eraseIdx h) rfl rfl
      (fun _ _ h => h) fun _ _ h => h
  case sendExport path name data s s' hp hn hs hread =>
    exact hi.later (.of_note rfl rfl rfl) rfl (fun _ h => h) rfl rfl
      (fun _ _ h => getElem?_of_send h) fun _ _ h => h
  case view data name =>
    exact hi.later (.of_log rfl rfl) rfl (fun _ h => h) rfl rfl (fun _ _ h => getElem?_of_send h)
      fun _ _ h => h
  case write k path data hk _ =>
    exact hi.later (.of_note rfl rfl rfl) rfl (fun _ h => h) rfl rfl (fun _ _ h => h) fun _ _ h => h
  all_goals
    exact hi.later (.of_log rfl rfl) rfl (fun _ h => h) rfl rfl (fun _ _ h => h) fun _ _ h => h

/-! ## Exports -/

/-- The dialogs of exports. -/
def World.exports (w : World) : List Dialog := w.dialogs.filter Dialog.isExport

section Exports

variable {log log' : List Effect} {vault name path : String} {s : Env Session} {data : Bytes}

/-- A plaintext is that of the name it was picked for. -/
def Exported (cr : Crates) (care : Prop) (log : List Effect) (vault : String) (s : Env Session)
    (name path : String) (data : Bytes) : Prop :=
  (∃ s', decryptToBytes cr name s = .ok data s') ∧
  ∃ vault' name', .pickedExport vault' name' path ∈ log ∧ (care → vault' = vault ∧ name' = name)

/-- What is to be written was sent from a vault. -/
def Sent (log : List Effect) (path : String) (data : Bytes) : Prop :=
  ∃ vault s name, .exported vault s name path data ∈ log

theorem Exported.mono (h : Exported cr care log vault s name path data) (hlog : log ⊆ log') :
    Exported cr care log' vault s name path data := by
  obtain ⟨hread, vault', name', hp, hcare⟩ := h
  exact ⟨hread, vault', name', hlog hp, hcare⟩

theorem Sent.mono (h : Sent log path data) (hlog : log ⊆ log') : Sent log' path data := by
  obtain ⟨vault, s, name, hm⟩ := h
  exact ⟨vault, s, name, hlog hm⟩

theorem mem_exports : .saveExport vault name ∈ w.exports ↔ .saveExport vault name ∈ w.dialogs := by
  simp [World.exports, Dialog.isExport]

end Exports

structure Outgoing (cr : Crates) (care : Prop) (w : World) : Prop where
  slot : ∀ path, w.pendingExportPath = some path → ∃ vault name,
    .pickedExport vault name path ∈ w.log ∧
    (care → vault = w.currentVaultPath ∧ w.pendingExportVfsName = some name)
  dialogs : care → ∀ vault name, .saveExport vault name ∈ w.exports →
    vault = w.currentVaultPath ∧ w.pendingExportVfsName = some name
  /-- With care there is one export at a time. -/
  single : care → w.exports.length + w.pendingExportPath.toList.length ≤ 1
  exported : ∀ vault s name path data, .exported vault s name path data ∈ w.log →
    Exported cr care w.log vault s name path data
  requests : ∀ (k : Nat) path data, w.requests[k]? = some (.writeFile path data) →
    Sent w.log path data
  wrote : ∀ h path data, .wrote h path data ∈ w.log →
    h.contents path = some data ∧ Sent w.log path data

theorem Outgoing.later (ho : Outgoing cr care w) (hl : Later Effect.isExport w w')
    (hslot : w'.pendingExportPath = w.pendingExportPath)
    (hname : w'.pendingExportVfsName = w.pendingExportVfsName)
    (hdialogs : w'.exports.Sublist w.exports)
    (hrequests : ∀ (k : Nat) (path : String) (data : Bytes),
      w'.requests[k]? = some (.writeFile path data) →
        w.requests[k]? = some (.writeFile path data)) : Outgoing cr care w' where
  slot path hp := by
    obtain ⟨vault, name, hpicked, hcare⟩ := ho.slot path (hslot.symm.trans hp)
    rw [hl.vault, hname]
    exact ⟨vault, name, hl.log hpicked, hcare⟩
  dialogs hc vault name hd := by
    rw [hl.vault, hname]
    exact ho.dialogs hc vault name (hdialogs.mem hd)
  single hc := by
    rw [hslot]
    exact Nat.le_trans (Nat.add_le_add_right hdialogs.length_le _) (ho.single hc)
  exported vault s name path data hm :=
    (ho.exported vault s name path data (hl.new _ hm rfl)).mono hl.log
  requests k path data hk := (ho.requests k path data (hrequests k path data hk)).mono hl.log
  wrote h path data hm :=
    (ho.wrote h path data (hl.new _ hm rfl)).imp_right fun hs => hs.mono hl.log

/-- With care no other export is asked for while a path waits. -/
theorem Outgoing.exports_eq_nil (ho : Outgoing cr care w) (hc : care) {path : String}
    (hp : w.pendingExportPath = some path) : w.exports = [] := by
  have hsingle := ho.single hc
  rw [hp, Option.toList_some, List.length_singleton] at hsingle
  exact List.eq_nil_of_length_eq_zero (by omega)

theorem exports_of_not_exporting (h : ¬w.Exporting) :
    w.exports = [] ∧ w.pendingExportPath = none := by
  refine ⟨List.filter_eq_nil_iff.mpr fun d hd he => h (Or.inl ⟨d, hd, he⟩), ?_⟩
  exact not_not.mp fun hp => h (Or.inr hp)

theorem exports_eraseIdx {i : Nat} {d : Dialog} (hi : w.dialogs[i]? = some d)
    (hd : d.isExport = true) :
    w.exports.length = ((w.dialogs.eraseIdx i).filter Dialog.isExport).length + 1 := by
  obtain ⟨hlt, rfl⟩ := List.getElem?_eq_some_iff.mp hi
  have hperm := (List.getElem_cons_eraseIdx_perm hlt).filter Dialog.isExport
  rw [List.filter_cons_of_pos hd] at hperm
  exact hperm.length_eq.symm

theorem exports_sublist {i : Nat} : ((w.dialogs.eraseIdx i).filter Dialog.isExport).Sublist
    w.exports := (List.eraseIdx_sublist _ _).filter _

theorem requests_of_send {r : BrokerRequest} {k : Nat} {path : String} {data : Bytes}
    (hr : ∀ path data, r ≠ .writeFile path data)
    (h : (w.send r).requests[k]? = some (.writeFile path data)) :
    w.requests[k]? = some (.writeFile path data) := by
  rcases getElem?_concat_eq_some.mp h with h | ⟨-, h⟩
  · exact h
  · exact absurd h (hr path data)

theorem Outgoing.does (hb : Begun care w) (ho : Outgoing cr care w)
    (h : Does cr ll env care w w') : Outgoing cr care w' := by
  cases h
  case enter path s h hs hout hmay =>
    have hlog : w.log ⊆ w.log ++ [.opened w.host path] := List.subset_append_left _ _
    refine ⟨fun p hp => ?_, fun hc vault name hd => ?_, ho.single, fun vault s name p data hm => ?_,
      fun k p data hk => (ho.requests k p data hk).mono hlog, fun h p data hm => ?_⟩
    · obtain ⟨vault, name, hpicked, -⟩ := ho.slot p hp
      have hbusy : w.Busy := Or.inr (Or.inr (Or.inl (by rw [hp]; exact Option.some_ne_none p)))
      exact ⟨vault, name, hlog hpicked, fun hc => absurd hc (hb.not_care hout hbusy)⟩
    · have hbusy : w.Busy := Or.inl ⟨_, mem_exports.mp hd, by intro h; cases h⟩
      exact absurd hc (hb.not_care hout hbusy)
    · exact (ho.exported vault s name p data (by simpa using hm)).mono hlog
    · exact (ho.wrote h p data (by simpa using hm)).imp_right fun hs => hs.mono hlog
  case askExport name hin hcare =>
    have hone : care → (w.doExportFile name).exports = [.saveExport w.currentVaultPath name] := by
      intro hc
      rw [World.exports, World.doExportFile, List.filter_append]
      exact congrArg (· ++ _) (exports_of_not_exporting (hcare hc)).1
    refine ⟨fun path hp => ?_, fun hc vault name' hd => ?_, fun hc => ?_, ho.exported, ho.requests,
      ho.wrote⟩
    · obtain ⟨vault, name', hpicked, -⟩ := ho.slot path hp
      refine ⟨vault, name', hpicked, fun hc => ?_⟩
      exact absurd (Or.inr (by rw [show w.pendingExportPath = some path from hp]; simp)) (hcare hc)
    · rw [hone hc] at hd
      cases List.mem_singleton.mp hd
      exact ⟨rfl, rfl⟩
    · have hnone : (w.doExportFile name).pendingExportPath = none :=
        (exports_of_not_exporting (hcare hc)).2
      rw [hone hc, hnone]
      exact Nat.le_refl 1
  case noExport path name hp hpath hn =>
    have hnil : care → w.exports = [] := by
      intro hc
      obtain ⟨path', hpath'⟩ := Option.ne_none_iff_exists'.mp hpath
      exact ho.exports_eq_nil hc (hp.trans hpath')
    refine ⟨fun _ h => (by cases h), fun hc vault name' hd => ?_, fun hc => ?_, ho.exported,
      ho.requests, ho.wrote⟩
    · replace hd : .saveExport vault name' ∈ w.exports := hd
      rw [hnil hc] at hd
      cases hd
    · change w.exports.length + 0 ≤ 1
      rw [hnil hc]
      exact Nat.zero_le 1
  case sendExport path name data s s' hp hn hs hread =>
    have hlog : w.log ⊆ w.log ++ [.exported w.currentVaultPath ⟨w.host, s⟩ name path data] :=
      List.subset_append_left _ _
    refine ⟨fun _ h => (by cases h), fun hc vault name' hd => ?_, fun hc => ?_,
      fun vault s₁ name₁ p data₁ hm => ?_, fun k p data₁ hk => ?_, fun h p data₁ hm => ?_⟩
    · replace hd : .saveExport vault name' ∈ w.exports := hd
      rw [ho.exports_eq_nil hc hp] at hd
      cases hd
    · change w.exports.length + 0 ≤ 1
      rw [ho.exports_eq_nil hc hp]
      exact Nat.zero_le 1
    · rcases List.mem_append.mp hm with hm | hm
      · exact (ho.exported vault s₁ name₁ p data₁ hm).mono hlog
      · cases List.mem_singleton.mp hm
        obtain ⟨vault', name', hpicked, hcare⟩ := ho.slot path hp
        refine ⟨⟨s', hread⟩, vault', name', hlog hpicked, fun hc => ?_⟩
        obtain ⟨hvault, hname⟩ := hcare hc
        exact ⟨hvault, Option.some.inj (hname.symm.trans hn)⟩
    · rcases getElem?_concat_eq_some.mp hk with hk | ⟨-, hk⟩
      · exact (ho.requests k p data₁ hk).mono hlog
      · cases hk
        exact ⟨_, _, _, List.mem_append_right _ List.mem_cons_self⟩
    · refine (ho.wrote h p data₁ ?_).imp_right fun hs => hs.mono hlog
      simpa [World.note, World.send] using hm
  case pickExport i vault name path hi =>
    have hlog : w.log ⊆ w.log ++ [.pickedExport vault name path] := List.subset_append_left _ _
    have hnil : care → (w.dialogs.eraseIdx i).filter Dialog.isExport = [] := by
      intro hc
      have hsingle := ho.single hc
      rw [exports_eraseIdx hi rfl] at hsingle
      exact List.eq_nil_of_length_eq_zero (by omega)
    refine ⟨fun p hp => ?_, fun hc vault' name' hd => ?_, fun hc => ?_,
      fun vault' s name' p data hm => ?_, fun k p data hk => (ho.requests k p data hk).mono hlog,
      fun h p data hm => ?_⟩
    · obtain rfl : path = p := Option.some.inj hp
      refine ⟨vault, name, List.mem_append_right _ List.mem_cons_self, fun hc => ?_⟩
      exact ho.dialogs hc vault name (mem_exports.mpr (List.mem_of_getElem? hi))
    · rw [World.exports, hnil hc] at hd
      cases hd
    · rw [World.exports, hnil hc]
      exact Nat.le_refl 1
    · exact (ho.exported vault' s name' p data (by simpa using hm)).mono hlog
    · exact (ho.wrote h p data (by simpa using hm)).imp_right fun hs => hs.mono hlog
  case write k path data hk hdata =>
    have hlog : w.log ⊆ w.log ++ [.wrote w.host path data] := List.subset_append_left _ _
    refine ⟨fun p hp => ?_, ho.dialogs, ho.single, fun vault s name p data' hm => ?_,
      fun k' p data' hk' => (ho.requests k' p data' hk').mono hlog, fun h p data' hm => ?_⟩
    · obtain ⟨vault, name, hpicked, hcare⟩ := ho.slot p hp
      exact ⟨vault, name, hlog hpicked, hcare⟩
    · exact (ho.exported vault s name p data' (by simpa [World.note] using hm)).mono hlog
    · rcases List.mem_append.mp hm with hm | hm
      · exact (ho.wrote h p data' hm).imp_right fun hs => hs.mono hlog
      · cases List.mem_singleton.mp hm
        exact ⟨hdata, (ho.requests k path data hk).mono hlog⟩
  case askVault =>
    refine ho.later (.of_log rfl rfl) rfl rfl ?_ fun _ _ _ h => h
    simp [World.exports, Dialog.isExport]
  case askImport hin =>
    refine ho.later (.of_log rfl rfl) rfl rfl ?_ fun _ _ _ h => h
    simp [World.exports, Dialog.isExport]
  case close i => exact ho.later (.of_log rfl rfl) rfl rfl exports_sublist fun _ _ _ h => h
  case pickImport i vault path hi =>
    exact ho.later (.of_note rfl rfl rfl) rfl rfl exports_sublist fun _ _ _ h => h
  case takeImport path hp =>
    unfold World.pollImportPath
    rw [hp]
    exact ho.later (.of_log rfl rfl) rfl rfl (.refl _)
      fun _ _ _ h => requests_of_send (by intro _ _ h; cases h) h
  case view data name =>
    exact ho.later (.of_log rfl rfl) rfl rfl (.refl _)
      fun _ _ _ h => requests_of_send (by intro _ _ h; cases h) h
  case store k data hk hr hs =>
    exact ho.later (.of_note rfl rfl rfl) rfl rfl (.refl _) fun _ _ _ h => h
  case read k path data hk _ =>
    exact ho.later (.of_note rfl rfl rfl) rfl rfl (.refl _) fun _ _ _ h => h
  all_goals exact ho.later (.of_log rfl rfl) rfl rfl (.refl _) fun _ _ _ h => h

end Invariants

/-! ## Runs -/

section Runs

variable {cr : Crates} {u : Live.Unicode} {ll : Landlock} {env : GuiEnv} {care : Prop} {host : Host}
  {w w' : World} {acts : List Act}

/-- An invariant of the moves is one of the runs. -/
theorem run_does {I : World → Prop} (hdoes : ∀ w w', I w → Does cr ll env care w w' → I w')
    (hcare : care → Allowed (step cr u ll env) Careful w acts)
    (h : run (step cr u ll env) w acts = some w') (hw : I w) : I w' := by
  have hallowed : Allowed (step cr u ll env) (fun w a => care → Careful w a) w acts := by
    by_cases hc : care
    · exact (hcare hc).mono fun _ _ _ ha _ => ha
    · exact allowed_of_forall fun _ _ _ h => absurd h hc
  refine run_allowed (fun w a w' hI ha hstep => ?_) h hallowed hw
  have hdone := step_doesAll ha hstep
  clear hstep
  induction hdone with
  | refl => exact hI
  | tail _ hlast ih => exact hdoes _ _ ih hlast

theorem inside_new : Inside ll env (.new host) :=
  ⟨rfl, fun h => (by cases h), fun h => (by cases h),
    fun _ => ⟨rfl, fun _ _ hm => (by cases hm)⟩, fun _ _ hm => (by cases hm)⟩

theorem begun_new : Begun care (.new host) := by
  rintro - (⟨d, hd, -⟩ | h | h | h)
  · cases hd
  · exact absurd rfl h
  · exact absurd rfl h
  · exact absurd rfl h

theorem incoming_new : Incoming care (.new host) :=
  ⟨fun _ h => (by cases h), fun _ _ h => (by cases h), fun _ h => (by cases h),
    fun _ _ h => (by cases h), fun _ _ _ h => (by cases h)⟩

theorem outgoing_new : Outgoing cr care (.new host) :=
  ⟨fun _ h => (by cases h), fun _ _ _ h => (by cases h), fun _ => Nat.zero_le 1,
    fun _ _ _ _ _ h => (by cases h), fun _ _ _ h => (by cases h), fun _ _ _ h => (by cases h)⟩

/-- A vault is open on its screens alone. It was opened in a domain that is never taken off, and in
which it lies among what may be written. -/
theorem gui_confined (h : run (step cr u ll env) (.new host) acts = some w) :
    w.screen.inside = w.vaultSession.isSome ∧
    (w.vaultSession.isSome = true → w.domain.isSome = true) ∧
    (∀ rules more w', w.domain = some rules → run (step cr u ll env) w more = some w' →
      w'.domain = some rules) ∧
    ∀ h path, .opened h path ∈ w.log → ∃ h₀ path₀,
      w.domain = some (applyGuiVaultSandbox ll h₀ env path₀) ∧
      ∃ q ∈ guiReadWrite ll h₀ env path₀, (ll.isDir q = true ∧ ll.within q path = true) ∨
        ∃ i, h₀.names q = some i ∧ h.names path = some i := by
  have hi : Inside ll env w :=
    run_does (fun _ _ hi hd => hi.does hd) (fun h : False => h.elim) h inside_new
  have hconfined : w.sandboxApplied = true → w.domain.isSome = true := by
    intro hs
    obtain ⟨path, h, hd⟩ := hi.applied hs
    rw [hd]
    rfl
  refine ⟨hi.screens, fun hopen => hconfined (hi.confined hopen), fun rules more w' hd hmore => ?_,
    fun h path hm => ?_⟩
  · have hkept := run_does (I := fun w => Inside ll env w ∧ w.domain = some rules)
      (fun _ _ hI hdoes => ⟨hI.1.does hdoes, hI.1.domain_does hdoes hI.2⟩) (fun h : False => h.elim)
      hmore ⟨hi, hd⟩
    exact hkept.2
  · obtain ⟨rules, hd, hmay⟩ := hi.opened h path hm
    have hs : w.sandboxApplied = true := by
      by_contra hs
      exact (hi.before (by simpa using hs)).2 h path hm
    obtain ⟨path₀, h₀, hd₀⟩ := hi.applied hs
    obtain rfl : rules = _ := Option.some.inj (hd.symm.trans hd₀)
    exact ⟨h₀, path₀, hd₀, permits_write hmay⟩

/-- What a vault is given is what the broker found in a file that was picked, under that file's
name. With care it was picked in that vault. -/
theorem gui_imports (h : run (step cr u ll env) (.new host) acts = some w) {vault name : String}
    {data : Bytes} (hm : .imported vault name data ∈ w.log) :
    Imported (Allowed (step cr u ll env) Careful (.new host) acts) w.log vault name data := by
  have hi := run_does (I := fun w => Begun _ w ∧ Incoming _ w)
    (fun _ _ hI hd => ⟨hI.1.does hd, hI.2.does hI.1 hd⟩) id h ⟨begun_new, incoming_new⟩
  exact hi.2.imported vault name data hm

/-- What is written is a plaintext that a vault gave for a name. With care the path was picked in
that vault, for that name. -/
theorem gui_exports (h : run (step cr u ll env) (.new host) acts = some w) {h' : Host}
    {path : String} {data : Bytes} (hm : .wrote h' path data ∈ w.log) :
    h'.contents path = some data ∧ ∃ vault s name, .exported vault s name path data ∈ w.log ∧
      Exported cr (Allowed (step cr u ll env) Careful (.new host) acts) w.log vault s name path
        data := by
  have ho := run_does (I := fun w => Begun _ w ∧ Outgoing cr _ w)
    (fun _ _ hI hd => ⟨hI.1.does hd, hI.2.does hI.1 hd⟩) id h ⟨begun_new, outgoing_new⟩
  obtain ⟨hdata, vault, s, name, hsent⟩ := ho.2.wrote h' path data hm
  exact ⟨hdata, vault, s, name, hsent, ho.2.exported vault s name path data hsent⟩

end Runs

/-! ## A file goes out of a vault and another one into it -/

section Sample

instance (w : World) : Decidable w.Exporting := inferInstanceAs (Decidable (_ ∨ _))

instance (w : World) : Decidable w.Busy := inferInstanceAs (Decidable (_ ∨ _ ∨ _ ∨ _))

instance (w : World) (a : Act) : Decidable (Careful w a) := by
  unfold Careful
  split <;> infer_instance

def sampleSealed (fileId : FileId) (plain : Bytes) : Bytes :=
  (sealChunk standin sampleVault plain fileId (List.replicate FILE_SALT_LEN 1)
    (List.replicate XNONCE_LEN 2)).toOption.getD []

def sampleFileId : FileId := List.Vector.replicate _ 3

def sampleFiles : VaultMetadata :=
  ⟨[⟨"b", [⟨60, 125, sampleFileId, 1⟩], 0⟩], List.Vector.replicate 32 0⟩

/-- A header, the one chunk, and the table. -/
def sampleAegis : Bytes :=
  leBytes 8 185 ++ sampleHeader.drop 8 ++ sampleSealed sampleFileId [7] ++
    sampleSealed METADATA_FILE_ID (Bincode.vaultMetadata.enc sampleFiles)

theorem length_sampleAegis : sampleAegis.length ≤ maxLen := by decide +kernel

def sampleHost : Host where
  __ := (Host.blank.setFile 0 ⟨sampleAegis, length_sampleAegis⟩).setFile 1 ⟨[1, 2], by decide⟩
  names path := if path = "/v.aegis" then some 0 else if path = "/f" then some 1 else none
  nextIno := 2

def sampleActs : List Act :=
  [.frame (some (.openEntry "/v.aegis")), .frame (some (.typePassword "pw")),
    .frame (some (.unlock true)), .frame (some (.exportFile "b")), .answer 0 (some "/out"),
    .frame none, .serve 0 none, .frame (some .importFile), .answer 0 (some "/f"), .frame none,
    .serve 1 none, .frame none]

/-- No directories, and every right that a rule gives. -/
def sampleLandlock : Landlock where
  isDir _ := false
  within _ _ := false
  fromAll := [.execute, .writeFile, .readFile, .readDir, .makeReg, .truncate]
  fromFile := [.execute, .writeFile, .readFile, .truncate]
  permits h rules a path := rules.any fun r =>
    r.rights.contains a && r.target.covers ⟨fun _ => false, fun _ _ => false⟩ h path
  exists_rule := by
    intro h rules a path hany
    obtain ⟨r, hr, hgrants⟩ := List.any_eq_true.mp hany
    rw [Bool.and_eq_true, List.contains_iff_mem] at hgrants
    exact ⟨r, hr, hgrants⟩

def sampleStep : World → Act → Option World :=
  step standin Live.sampleUnicode sampleLandlock ⟨some "/run", none⟩

def Effect.isSampleOpening : Effect → Bool
  | opened _ path => path == "/v.aegis"
  | _ => false

def Effect.isSampleImport : Effect → Bool
  | imported vault name data => vault == "/v.aegis" && name == "f" && data == [1, 2]
  | _ => false

def Effect.isSampleExport : Effect → Bool
  | wrote _ path data => path == "/out" && data == [7]
  | _ => false

def sampleEnd (w : World) : Bool :=
  w.log.any Effect.isSampleOpening && w.log.any Effect.isSampleImport &&
    w.log.any Effect.isSampleExport

set_option maxRecDepth 100000 in
theorem sample_eval : (run sampleStep (.new sampleHost) sampleActs).any sampleEnd = true := by
  decide +kernel

set_option maxRecDepth 100000 in
theorem sample_careful : Allowed sampleStep Careful (.new sampleHost) sampleActs := by
  decide +kernel

theorem sample_ends : ∃ w h h', run sampleStep (.new sampleHost) sampleActs = some w ∧
    .opened h "/v.aegis" ∈ w.log ∧ .imported "/v.aegis" "f" [1, 2] ∈ w.log ∧
    .wrote h' "/out" [7] ∈ w.log := by
  obtain ⟨w, hrun, hend⟩ := (Option.any_eq_true _ _).mp sample_eval
  simp only [sampleEnd, Bool.and_eq_true, List.any_eq_true] at hend
  obtain ⟨⟨⟨e₁, hm₁, he₁⟩, e₂, hm₂, he₂⟩, e₃, hm₃, he₃⟩ := hend
  unfold Effect.isSampleOpening at he₁
  split at he₁
  case h_2 => cases he₁
  unfold Effect.isSampleImport at he₂
  split at he₂
  case h_2 => cases he₂
  unfold Effect.isSampleExport at he₃
  split at he₃
  case h_2 => cases he₃
  simp only [Bool.and_eq_true, beq_iff_eq] at he₁ he₂ he₃
  obtain ⟨⟨rfl, rfl⟩, rfl⟩ := he₂
  obtain ⟨rfl, rfl⟩ := he₃
  subst he₁
  exact ⟨w, _, _, hrun, hm₁, hm₂, hm₃⟩

theorem gui_confined_sample : ∃ (w : World) (h h₀ : Host) (path₀ : String),
    .opened h "/v.aegis" ∈ w.log ∧
    ∃ q ∈ guiReadWrite sampleLandlock h₀ ⟨some "/run", none⟩ path₀, ∃ i,
      h₀.names q = some i ∧ h.names "/v.aegis" = some i := by
  obtain ⟨w, h, -, hrun, hm, -, -⟩ := sample_ends
  obtain ⟨-, -, -, hopened⟩ := gui_confined hrun
  obtain ⟨h₀, path₀, -, q, hq, hin⟩ := hopened h _ hm
  rcases hin with ⟨hdir, -⟩ | hin
  · cases hdir
  · exact ⟨w, h, h₀, path₀, hm, q, hq, hin⟩

theorem gui_imports_sample : ∃ (w : World) (path : String),
    .imported "/v.aegis" "f" [1, 2] ∈ w.log ∧ (fileName path).getD "" = "f" ∧
    Read w.log path [1, 2] ∧
    .pickedImport "/v.aegis" path ∈ w.log := by
  obtain ⟨w, -, -, hrun, -, hm, -⟩ := sample_ends
  obtain ⟨path, hname, hread, vault, hpicked, hcare⟩ := gui_imports hrun hm
  rw [hcare sample_careful] at hpicked
  exact ⟨w, path, hm, hname.symm, hread, hpicked⟩

theorem gui_exports_sample : ∃ (w : World) (h : Host) (vault name : String) (s s' : Env Session),
    .wrote h "/out" [7] ∈ w.log ∧ h.contents "/out" = some [7] ∧
    decryptToBytes standin name s = .ok [7] s' ∧ .pickedExport vault name "/out" ∈ w.log := by
  obtain ⟨w, -, h, hrun, -, -, hm⟩ := sample_ends
  obtain ⟨hdata, vault, s, name, -, hexported⟩ := gui_exports hrun hm
  obtain ⟨⟨s', hread⟩, vault', name', hpicked, hcare⟩ := hexported
  obtain ⟨rfl, rfl⟩ := hcare sample_careful
  exact ⟨w, h, vault', name', s, s', hm, hdata, hread, hpicked⟩

end Sample

end AtomVault.Gui
