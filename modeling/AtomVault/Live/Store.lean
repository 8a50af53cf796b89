import AtomVault.Live.Repairing

/-!
# Whom a nickname is bound to (`commands/live.rs`)

Pairing, remembering and setting addresses change one file, one after the other.
-/

open Lib

namespace AtomVault.Live.Store

open Pairing Transfers Repairing

inductive Op (S T : Type)
  | pair (x : Around) (channel : PairedChannel) (blob : Text) (nickname : String)
  | learn (x : Execution S T) (nickname : String) (learned : PeerState)
  | address (addresses : List Text) (read : Reading) (write : Write)

/-- How the write of the store goes, if it comes to that. -/
def Op.write {S T : Type} : Op S T → Write
  | pair x _ _ _ => x.write
  | learn x _ _ => x.write
  | address _ _ write => write

section Model

variable {S T : Type} (pr : Primitives) (u : Unicode) (tx : Texts) (blake3 : Bytes → BundleId)
  (me : IdentityBundle)

/-- How an operation ends, and the file it leaves. -/
def step (f : PeersFile) : Op S T → Except Failure Unit × PeersFile
  | .pair x channel blob nickname =>
    let (r, file) := pairComplete pr u tx blake3 me x channel blob nickname f f
    (r.map fun _ => (), file)
  | .learn x nickname learned =>
    match remember tx nickname x learned ⟨f, []⟩ with
    | .ok () w => (.ok (), w.file)
    | .error e w => (.error e, w.file)
  | .address addresses read write => setEndpoints u tx addresses read write f

def run (f : PeersFile) (ops : List (Op S T)) : PeersFile :=
  ops.foldl (fun f op => (step pr u tx blake3 me f op).2) f

end Model

/-! ## The invariant -/

/-- The peers of a file. A file that cannot be read has none. -/
def peersOf : PeersFile → List LivePeer
  | .holds s => s.peers
  | _ => []

section Invariant

variable (u : Unicode) (tx : Texts) (blake3 : Bytes → BundleId) (me : IdentityBundle)

/-- Nicknames stand once each, and every ticket is read, and is not our own. -/
structure Sound (f : PeersFile) : Prop where
  nicknames : ((peersOf f).map LivePeer.nickname).Nodup
  tickets : ∀ p ∈ peersOf f, ∃ t, Ticket.fromText u tx blake3 p.ticket = .ok t ∧
    t.id blake3 ≠ me.id blake3

/-- The ticket under `nickname` is one of `id`. -/
def BoundTo (f : PeersFile) (nickname : String) (id : BundleId) : Prop :=
  ∃ p ∈ peersOf f, p.nickname = nickname ∧
    ∃ t, Ticket.fromText u tx blake3 p.ticket = .ok t ∧ t.id blake3 = id

/-- What was bound is bound, as long as the file can be read. -/
structure Continues (f f' : PeersFile) : Prop where
  sound : Sound u tx blake3 me f'
  bound : f' ≠ .broken → ∀ nickname id, BoundTo u tx blake3 f nickname id →
    BoundTo u tx blake3 f' nickname id

variable {u tx blake3 me} {S T : Type} {pr : Primitives} {f f' : PeersFile} {s s' : LiveState}

theorem sound_broken : Sound u tx blake3 me .broken := ⟨List.nodup_nil, by simp [peersOf]⟩

theorem sound_missing : Sound u tx blake3 me .missing := ⟨List.nodup_nil, by simp [peersOf]⟩

theorem Sound.stay (h : Sound u tx blake3 me f) : Continues u tx blake3 me f f :=
  ⟨h, fun _ _ _ hbound => hbound⟩

theorem continues_broken : Continues u tx blake3 me f .broken :=
  ⟨sound_broken, fun h => absurd rfl h⟩

theorem peersOf_of_load {read : Reading} (h : loadState read f = .ok s) :
    peersOf f = s.peers ∧ f ≠ .broken := by
  rcases loadState_eq_ok h with ⟨rfl, rfl⟩ | rfl
  · exact ⟨rfl, nofun⟩
  · exact ⟨rfl, nofun⟩

theorem Sound.change (h : Sound u tx blake3 me f) {nickname : String} {g : LivePeer → LivePeer}
    (hname : ∀ p, (g p).nickname = p.nickname)
    (hticket : ∀ p ∈ peersOf f, p.nickname = nickname → ∀ t,
      Ticket.fromText u tx blake3 p.ticket = .ok t → ∃ t',
        Ticket.fromText u tx blake3 (g p).ticket = .ok t' ∧ t'.id blake3 = t.id blake3)
    (hpeers : peersOf f' = change LivePeer.nickname nickname g (peersOf f)) :
    Continues u tx blake3 me f f' := by
  refine ⟨⟨?_, fun p hp => ?_⟩, fun _ name id hbound => ?_⟩
  · rw [hpeers, map_change fun p _ _ => hname p]
    exact h.nicknames
  · rw [hpeers] at hp
    rcases mem_change.mp hp with ⟨q, hq, hsame, rfl⟩ | ⟨hp, -⟩
    · obtain ⟨t, ht, hother⟩ := h.tickets q hq
      obtain ⟨t', ht', hid⟩ := hticket q hq hsame t ht
      exact ⟨t', ht', hid ▸ hother⟩
    · exact h.tickets p hp
  · obtain ⟨p, hp, rfl, t, ht, rfl⟩ := hbound
    unfold BoundTo
    rw [hpeers]
    by_cases hsame : p.nickname = nickname
    · obtain ⟨t', ht', hid⟩ := hticket p hp hsame t ht
      exact ⟨g p, mem_change.mpr (.inl ⟨p, hp, hsame, rfl⟩), hname p, t', ht', hid⟩
    · exact ⟨p, mem_change.mpr (.inr ⟨hp, hsame⟩), rfl, t, ht, rfl⟩

theorem Sound.append (h : Sound u tx blake3 me f) {p : LivePeer} {t : Ticket}
    (hname : p.nickname ∉ (peersOf f).map LivePeer.nickname)
    (hticket : Ticket.fromText u tx blake3 p.ticket = .ok t) (hother : t.id blake3 ≠ me.id blake3)
    (hpeers : peersOf f' = peersOf f ++ [p]) : Continues u tx blake3 me f f' := by
  refine ⟨⟨?_, fun q hq => ?_⟩, fun _ name id hbound => ?_⟩
  · rw [hpeers]
    exact nodup_map_append h.nicknames hname
  · rw [hpeers] at hq
    rcases List.mem_append.mp hq with hq | hq
    · exact h.tickets q hq
    · rw [List.mem_singleton.mp hq]
      exact ⟨t, hticket, hother⟩
  · obtain ⟨q, hq, hbound⟩ := hbound
    refine ⟨q, ?_, hbound⟩
    rw [hpeers]
    exact List.mem_append_left _ hq

end Invariant

/-! ## One operation -/

section Steps

variable {S T : Type} (pr : Primitives) (u : Unicode) (tx : Texts) (blake3 : Bytes → BundleId)
  (me : IdentityBundle)

/-- The state that is about to be saved, if one is. -/
def Op.saves (op : Op S T) (f : PeersFile) : Except Failure (Option LiveState) :=
  match op with
  | pair x channel blob nickname => do
    let (_, state) ← accept pr u tx blake3 me x channel blob nickname f
    return some state
  | learn x nickname learned => do
    let state ← loadState (x.reads 3) f
    return (state.peer nickname).map fun _ => state.learn tx nickname learned
  | address addresses read _ => do
    let parsed ← addresses.mapM (parseEndpoint u tx)
    let state ← loadState read f
    return some { state with myEndpoints := parsed.map (showEndpoint tx) }

variable {pr u tx blake3 me} {f f' : PeersFile} {op : Op S T} {r : Except Failure Unit}

theorem step_eq (f : PeersFile) (op : Op S T) : step pr u tx blake3 me f op =
    match op.saves pr u tx blake3 me f with
    | .error e => (.error e, f)
    | .ok none => (.ok (), f)
    | .ok (some state) => saveState state f op.write := by
  cases op with
  | pair x channel blob nickname =>
    simp only [step, pairComplete, Op.saves, Op.write]
    cases accept pr u tx blake3 me x channel blob nickname f with
    | error e => rfl
    | ok a => cases x.write <;> rfl
  | learn x nickname learned =>
    simp only [step, remember_eq, remembered, Op.saves, Op.write]
    cases loadState (x.reads 3) f with
    | error e => rfl
    | ok s =>
      simp only [bind, Except.bind]
      cases s.peer nickname with
      | none => rfl
      | some p => cases x.write <;> rfl
  | address addresses read write =>
    simp only [step, setEndpoints, Op.saves, Op.write]
    cases addresses.mapM (parseEndpoint u tx) with
    | error e => rfl
    | ok parsed =>
      cases loadState read f with
      | error e => rfl
      | ok s => rfl

theorem saveState_cases {s : LiveState} {write : Write} (h : saveState s f write = (r, f')) :
    r = .ok () ∧ f' = .holds s ∨ (∃ e, r = .error e) ∧
      (f' = f ∨ ∃ e, write = .cut e ∧ f' = .broken) := by
  cases write with
  | through =>
    cases h
    exact .inl ⟨rfl, rfl⟩
  | unopened e =>
    cases h
    exact .inr ⟨⟨e, rfl⟩, .inl rfl⟩
  | cut e =>
    cases h
    exact .inr ⟨⟨e, rfl⟩, .inr ⟨e, rfl, rfl⟩⟩

theorem step_cases (h : step pr u tx blake3 me f op = (r, f')) :
    (∃ e, r = .error e) ∧ (f' = f ∨ ∃ e, op.write = .cut e ∧ f' = .broken) ∨
    r = .ok () ∧ op.saves pr u tx blake3 me f = .ok none ∧ f' = f ∨
    ∃ s, r = .ok () ∧ op.saves pr u tx blake3 me f = .ok (some s) ∧ f' = .holds s := by
  rw [step_eq] at h
  split at h
  · cases h
    exact .inl ⟨⟨_, rfl⟩, .inl rfl⟩
  · rename_i hsaves
    cases h
    exact .inr (.inl ⟨rfl, hsaves, rfl⟩)
  · rename_i s hsaves
    rcases saveState_cases h with ⟨hr, hf'⟩ | herror
    · exact .inr (.inr ⟨s, hr, hsaves, hf'⟩)
    · exact .inl herror

theorem saves_loads {result : Option LiveState} (h : op.saves pr u tx blake3 me f = .ok result) :
    ∃ read s, loadState read f = .ok s := by
  cases op with
  | pair x channel blob nickname =>
    simp only [Op.saves] at h
    obtain ⟨⟨t, state⟩, haccept, -⟩ := of_bind_eq_ok h
    obtain ⟨-, -, old, hold, -⟩ := accept_eq_ok haccept
    exact ⟨_, old, hold⟩
  | learn x nickname learned =>
    simp only [Op.saves] at h
    obtain ⟨s, hload, -⟩ := of_bind_eq_ok h
    exact ⟨_, s, hload⟩
  | address addresses read write =>
    simp only [Op.saves] at h
    obtain ⟨parsed, -, h⟩ := of_bind_eq_ok h
    obtain ⟨s, hload, -⟩ := of_bind_eq_ok h
    exact ⟨_, s, hload⟩

theorem step_broken (op : Op S T) : (step pr u tx blake3 me .broken op).2 = .broken := by
  rw [step_eq]
  cases hsaves : op.saves pr u tx blake3 me .broken with
  | error e => rfl
  | ok result =>
    obtain ⟨read, s, hload⟩ := saves_loads hsaves
    obtain ⟨e, he⟩ := loadState_broken read
    rw [he] at hload
    cases hload

theorem peersOf_learn (h : Sound u tx blake3 me f) {s : LiveState} (hpeers : peersOf f = s.peers)
    (nickname : String) (learned : PeerState) :
    (s.learn tx nickname learned).peers = change LivePeer.nickname nickname (fun p => { p with
      lastKnown := learned.lastKnown.map (showEndpoint tx), newestSeen := learned.newestSeen })
      (peersOf f) := by
  have hnodup := h.nicknames
  rw [hpeers] at hnodup ⊢
  exact modify_findIdx_eq_change hnodup

theorem saves_continues (hu : u.Plain) (htx : tx.Correct) (h : Sound u tx blake3 me f)
    {s : LiveState} (hsaves : op.saves pr u tx blake3 me f = .ok (some s)) :
    Continues u tx blake3 me f (.holds s) := by
  cases op with
  | pair x channel blob nickname =>
    simp only [Op.saves] at hsaves
    obtain ⟨⟨t, state⟩, haccept, hs⟩ := of_bind_eq_ok hsaves
    cases hs
    obtain ⟨hopen, hother, old, hold, henroll⟩ := accept_eq_ok haccept
    obtain ⟨hpeers, -⟩ := peersOf_of_load hold
    have hticket : Ticket.fromText u tx blake3 (t.toText u tx blake3) = .ok t :=
      fromText_opened hu htx hopen
    rcases enroll_cases henroll with ⟨existing, told, hpeer, htold, hid, rfl⟩ | ⟨hnone, rfl⟩
    · have hnodup := h.nicknames
      rw [hpeers] at hnodup
      have hexisting := (find?_key_eq_some hnodup).mp hpeer
      have hchange : old.peers.modify (old.peers.findIdx fun p => p.nickname = nickname)
          (renewed u tx blake3 t channel.rendezvousSecret) = change LivePeer.nickname nickname
            (renewed u tx blake3 t channel.rendezvousSecret) (peersOf f) := by
        rw [hpeers]
        exact modify_findIdx_eq_change hnodup
      refine h.change ?_ (fun p hp hname t' ht' => ?_) hchange
      · exact fun _ => rfl
      · rw [hpeers] at hp
        obtain rfl := List.inj_on_of_nodup_map hnodup hp hexisting.1 (hname.trans hexisting.2.symm)
        cases htold.symm.trans ht'
        exact ⟨t, hticket, hid.symm⟩
    · rw [← hpeers]
      refine h.append ?_ hticket hother rfl
      rw [hpeers]
      exact find?_key_eq_none.mp hnone
  | learn x nickname learned =>
    simp only [Op.saves] at hsaves
    obtain ⟨state, hload, hsome⟩ := of_bind_eq_ok hsaves
    obtain ⟨p, -, rfl⟩ := Option.map_eq_some_iff.mp (Except.ok.inj hsome)
    have hpeers := peersOf_learn h (peersOf_of_load hload).1 nickname learned
    refine h.change ?_ ?_ hpeers
    · exact fun _ => rfl
    · exact fun _ _ _ t ht => ⟨t, ht, rfl⟩
  | address addresses read write =>
    simp only [Op.saves] at hsaves
    obtain ⟨parsed, -, hsaves⟩ := of_bind_eq_ok hsaves
    obtain ⟨state, hload, hsaves⟩ := of_bind_eq_ok hsaves
    cases hsaves
    obtain ⟨hpeers, -⟩ := peersOf_of_load hload
    have hsame : peersOf (.holds { state with myEndpoints := parsed.map (showEndpoint tx) }) =
        peersOf f := hpeers.symm
    refine ⟨⟨?_, ?_⟩, fun _ nickname id hbound => ?_⟩
    · rw [hsame]
      exact h.nicknames
    · rw [hsame]
      exact h.tickets
    · unfold BoundTo
      rw [hsame]
      exact hbound

theorem step_continues (hu : u.Plain) (htx : tx.Correct) (h : Sound u tx blake3 me f)
    (op : Op S T) : Continues u tx blake3 me f (step pr u tx blake3 me f op).2 := by
  rcases step_cases (Prod.eta (step pr u tx blake3 me f op)).symm with
    ⟨-, hf | ⟨-, -, hf⟩⟩ | ⟨-, -, hf⟩ | ⟨s, -, hsaves, hf⟩
  · rw [hf]
    exact h.stay
  · rw [hf]
    exact continues_broken
  · rw [hf]
    exact h.stay
  · rw [hf]
    exact saves_continues hu htx h hsaves

/-- What an operation that goes through changes. -/
def Effect (tx : Texts) (f f' : PeersFile) : Op S T → Prop
  | .pair _ _ _ nickname => ∀ p : LivePeer, p.nickname ≠ nickname →
      (p ∈ peersOf f' ↔ p ∈ peersOf f)
  | .learn _ nickname learned => f = .missing ∧ f' = .missing ∨ ∃ s, f = .holds s ∧
      f' = .holds { s with peers := s.peers.map fun p =>
        if p.nickname = nickname then
          { p with
            lastKnown := learned.lastKnown.map (showEndpoint tx)
            newestSeen := learned.newestSeen }
        else p }
  | .address _ _ _ => ∃ s, f' = .holds s ∧ s.peers = peersOf f

theorem enroll_others {old s : LiveState} {nickname : String} {t : Ticket}
    {secret : RendezvousSecret} (hnodup : (old.peers.map LivePeer.nickname).Nodup)
    (h : enroll u tx blake3 old nickname t secret = .ok s) {p : LivePeer}
    (hp : p.nickname ≠ nickname) : p ∈ s.peers ↔ p ∈ old.peers := by
  rcases enroll_cases h with ⟨-, -, -, -, -, rfl⟩ | ⟨-, rfl⟩
  · have hchange : old.peers.modify (old.peers.findIdx fun p => p.nickname = nickname)
        (renewed u tx blake3 t secret) = change LivePeer.nickname nickname
          (renewed u tx blake3 t secret) old.peers := modify_findIdx_eq_change hnodup
    simp only [hchange, mem_change]
    constructor
    · rintro (⟨q, -, hq, rfl⟩ | ⟨hmem, -⟩)
      · exact absurd hq hp
      · exact hmem
    · exact fun hmem => .inr ⟨hmem, hp⟩
  · rw [List.mem_append, List.mem_singleton, or_iff_left]
    rintro rfl
    exact hp rfl

theorem step_effect (h : Sound u tx blake3 me f)
    (hstep : step pr u tx blake3 me f op = (.ok (), f')) : Effect tx f f' op := by
  rcases step_cases hstep with ⟨⟨e, he⟩, -⟩ | ⟨-, hsaves, rfl⟩ | ⟨s, -, hsaves, rfl⟩
  · cases he
  · cases op with
    | pair x channel blob nickname => exact fun _ _ => Iff.rfl
    | learn x nickname learned =>
      simp only [Op.saves] at hsaves
      obtain ⟨s, hload, hnone⟩ := of_bind_eq_ok hsaves
      have hpeer : s.peer nickname = none := Option.map_eq_none_iff.mp (Except.ok.inj hnone)
      rcases loadState_eq_ok hload with ⟨rfl, -⟩ | rfl
      · exact .inl ⟨rfl, rfl⟩
      · -- No peer has that name.
        refine .inr ⟨s, rfl, ?_⟩
        have hkept := change_of_not_mem (g := fun p : LivePeer => { p with
          lastKnown := learned.lastKnown.map (showEndpoint tx), newestSeen := learned.newestSeen })
          (find?_key_eq_none.mp hpeer)
        unfold change at hkept
        rw [hkept]
    | address addresses read write =>
      simp only [Op.saves] at hsaves
      obtain ⟨parsed, -, hsaves⟩ := of_bind_eq_ok hsaves
      obtain ⟨s, -, hsaves⟩ := of_bind_eq_ok hsaves
      cases hsaves
  · cases op with
    | pair x channel blob nickname =>
      simp only [Op.saves] at hsaves
      obtain ⟨⟨t, state⟩, haccept, hs⟩ := of_bind_eq_ok hsaves
      cases hs
      obtain ⟨-, -, old, hold, henroll⟩ := accept_eq_ok haccept
      obtain ⟨hpeers, -⟩ := peersOf_of_load hold
      have hnodup := h.nicknames
      intro p hp
      rw [hpeers] at hnodup ⊢
      exact enroll_others hnodup henroll hp
    | learn x nickname learned =>
      simp only [Op.saves] at hsaves
      obtain ⟨state, hload, hsome⟩ := of_bind_eq_ok hsaves
      obtain ⟨p, hpeer, rfl⟩ := Option.map_eq_some_iff.mp (Except.ok.inj hsome)
      have hpeers := peersOf_learn h (peersOf_of_load hload).1 nickname learned
      rcases loadState_eq_ok hload with ⟨-, rfl⟩ | rfl
      · cases hpeer
      · refine .inr ⟨state, rfl, ?_⟩
        have hlearn : state.learn tx nickname learned =
            { state with peers := (state.learn tx nickname learned).peers } := rfl
        rw [hlearn, hpeers]
        rfl
    | address addresses read write =>
      simp only [Op.saves] at hsaves
      obtain ⟨parsed, -, hsaves⟩ := of_bind_eq_ok hsaves
      obtain ⟨state, hload, hsaves⟩ := of_bind_eq_ok hsaves
      cases hsaves
      exact ⟨_, rfl, (peersOf_of_load hload).1.symm⟩

end Steps

/-! ## Every run -/

section Runs

variable {S T : Type} {pr : Primitives} {u : Unicode} {tx : Texts} {blake3 : Bytes → BundleId}
  {me : IdentityBundle} {f : PeersFile}

theorem run_broken (ops : List (Op S T)) : run pr u tx blake3 me .broken ops = .broken := by
  induction ops with
  | nil => rfl
  | cons op ops ih =>
    have hfirst : run pr u tx blake3 me .broken (op :: ops) =
        run pr u tx blake3 me (step pr u tx blake3 me .broken op).2 ops := rfl
    rw [hfirst, step_broken, ih]

theorem run_continues (hu : u.Plain) (htx : tx.Correct) (h : Sound u tx blake3 me f)
    (ops : List (Op S T)) : Continues u tx blake3 me f (run pr u tx blake3 me f ops) := by
  induction ops generalizing f with
  | nil => exact h.stay
  | cons op ops ih =>
    have hfirst : Continues u tx blake3 me f (step pr u tx blake3 me f op).2 :=
      step_continues hu htx h op
    have hrest := ih hfirst.sound
    refine ⟨hrest.sound, fun hend nickname id hbound => ?_⟩
    refine hrest.bound hend nickname id (hfirst.bound (fun hbroken => hend ?_) nickname id hbound)
    have hrun : run pr u tx blake3 me f (op :: ops) =
        run pr u tx blake3 me (step pr u tx blake3 me f op).2 ops := rfl
    rw [hrun, hbroken, run_broken]

variable (pr u tx blake3 me) in
/-- **The store.** From no file on, whatever the operations and however they end, nicknames stand
once each, we are not among the peers, and who was bound to a nickname stays bound to it. An
error leaves the file as it was, unless its write was cut. -/
theorem store_invariant (hu : u.Plain) (htx : tx.Correct) (ops : List (Op S T)) :
    Sound u tx blake3 me (run pr u tx blake3 me .missing ops) ∧
    (∀ (later : List (Op S T)) nickname id,
      BoundTo u tx blake3 (run pr u tx blake3 me .missing ops) nickname id →
        run pr u tx blake3 me .missing (ops ++ later) ≠ .broken →
          BoundTo u tx blake3 (run pr u tx blake3 me .missing (ops ++ later)) nickname id) ∧
    ∀ (op : Op S T) r f', step pr u tx blake3 me (run pr u tx blake3 me .missing ops) op = (r, f') →
      (∀ e, r = .error e → f' = run pr u tx blake3 me .missing ops ∨
        ∃ e', op.write = .cut e' ∧ f' = .broken) ∧
      (r = .ok () → Effect tx (run pr u tx blake3 me .missing ops) f' op) := by
  have hsound : Sound u tx blake3 me (run pr u tx blake3 me .missing ops) :=
    (run_continues hu htx sound_missing ops).sound
  refine ⟨hsound, fun later nickname id hbound hend => ?_, fun op r f' hstep => ⟨?_, ?_⟩⟩
  · have hsplit : run pr u tx blake3 me .missing (ops ++ later) =
        run pr u tx blake3 me (run pr u tx blake3 me .missing ops) later := List.foldl_append
    rw [hsplit] at hend ⊢
    exact (run_continues hu htx hsound later).bound hend nickname id hbound
  · rintro e rfl
    rcases step_cases hstep with ⟨-, hf'⟩ | ⟨hr, -⟩ | ⟨s, hr, -⟩
    · exact hf'
    · cases hr
    · cases hr
  · rintro rfl
    exact step_effect hsound hstep

end Runs

/-! ### Bob is paired with, is reached, and we move -/

/-- The last operation meets a file that cannot be opened. -/
def sampleOps : List (Op Unit Unit) :=
  [.pair sampleAround sampleChannel (sampleBlob 1) "bob",
    .learn (sampleExecution (.ok ())) "bob" learnedSample,
    .address ["203.0.113.7:4433".toList] .through .through,
    .address [] .through (.unopened (.text "read-only"))]

def sampleRun : PeersFile :=
  run samplePrimitives sampleUnicode socketTexts sampleBlake3 (sample.party 0) .missing sampleOps

theorem store_invariant_bob :
    Sound sampleUnicode socketTexts sampleBlake3 (sample.party 0) sampleRun ∧
    (peersOf sampleRun).map (fun p => (p.nickname, p.newestSeen)) = [("bob", some 9)] :=
  ⟨(store_invariant samplePrimitives sampleUnicode socketTexts sampleBlake3 (sample.party 0)
    sampleUnicode_plain socketTexts_correct sampleOps).1, by decide +kernel⟩

end AtomVault.Live.Store
