import AtomVault.Live.Discovery

/-!
# What was published last is found

Any number of pairs publish into one substrate. It keeps what it was given for the time it
was given, and may or may not keep it longer. Its clock is its own, and so is each peer's.
-/

open Lib

namespace AtomVault.Live.Discovery

/-! ## A substrate that keeps what it is given -/

/-- The bytes under each tag, and when they may go. -/
abbrev Store := String → Option (Bytes × Nat)

/-- `late` says which gets still find what may already be gone. -/
def Store.substrate (st : Store) (name : String) (time : Nat) (late : Nat → Bool) : Substrate where
  name := name
  put _ := none
  get n tag := .ok (match st tag with
    | none => none
    | some (bytes, deadline) => if time < deadline || late n then some bytes else none)

/-- A publish by `loc`, for `peer`: the publisher's clock, the substrate's, and the other
substrates that are configured. -/
structure Publishing where
  secret : RendezvousSecret
  loc : BundleId
  peer : BundleId
  record : AddressRecord
  clock : UInt64
  time : Nat
  draws : Nat → SealDraws
  others : List Substrate

def Publishing.direction (x : Publishing) : Direction := Direction.publishing x.loc x.peer

section Model

variable (pr : Primitives)

def Store.keep (deadline : Nat) (st : Store) (item : String × Bytes) : Store :=
  Function.update st item.1 (some (item.2, deadline))

def Store.publish (st : Store) (x : Publishing) : Store :=
  let sub := st.substrate "" x.time fun _ => true
  match Discovery.publish pr (sub :: x.others) x.secret x.loc x.peer x.record (.ok x.clock) x.draws with
  | .error _ => st
  | .ok (items, _) => (putAll sub 0 items).2.foldl (Store.keep (x.time + TTL.toNat)) st

def published (xs : List Publishing) : Store := xs.foldl (Store.publish pr) fun _ => none

end Model

/-! ## Which slots are used -/

structure SlotId where
  secret : RendezvousSecret
  direction : Direction
  epoch : UInt64
  deriving DecidableEq

def SlotId.slot (pr : Primitives) (i : SlotId) : Slot := Live.slot pr i.secret i.direction i.epoch

def Publishing.first (x : Publishing) : SlotId := ⟨x.secret, x.direction, epochAt x.clock⟩

def Publishing.second (x : Publishing) : SlotId := ⟨x.secret, x.direction, epochAt x.clock + 1⟩

def Publishing.slotIds (x : Publishing) : List SlotId := [x.first, x.second]

def lookupIds (secret : RendezvousSecret) (direction : Direction) (now : UInt64) : List SlotId :=
  [⟨secret, direction, saturatingPred (epochAt now)⟩, ⟨secret, direction, epochAt now⟩,
    ⟨secret, direction, epochAt now + 1⟩]

/-- No two of these slots have one tag. -/
def DistinctTags (pr : Primitives) (ids : List SlotId) : Prop :=
  ∀ i ∈ ids, ∀ j ∈ ids, (i.slot pr).tag = (j.slot pr).tag → i = j

instance (pr : Primitives) (ids : List SlotId) : Decidable (DistinctTags pr ids) :=
  inferInstanceAs (Decidable (∀ i ∈ ids, ∀ j ∈ ids, (i.slot pr).tag = (j.slot pr).tag → i = j))

/-- The record was built by `AddressRecord::new`, at or before the publisher's clock read
`x.clock`, from hints that can be carried. -/
def Publishing.Built (x : Publishing) : Prop :=
  ∃ hints now millis, AddressRecord.new hints now (.ok millis) = .ok x.record ∧ now ≤ x.clock ∧
    AddressRecord.Publishable hints

/-! ## Epochs -/

theorem toNat_epochAt (now : UInt64) : (epochAt now).toNat = now.toNat / 3600 :=
  UInt64.toNat_div now EPOCH_SECS

theorem toNat_epochAt_succ (now : UInt64) : (epochAt now + 1).toNat = now.toNat / 3600 + 1 := by
  have h := now.toNat_lt
  rw [UInt64.toNat_add, toNat_epochAt]
  have : (1 : UInt64).toNat = 1 := rfl
  omega

theorem toNat_saturatingPred (n : UInt64) : (saturatingPred n).toNat = n.toNat - 1 := by
  unfold saturatingPred
  split
  · rename_i h
    rw [h]
    rfl
  · rename_i h
    have hpos : 1 ≤ n.toNat := by
      by_contra hn
      exact h (UInt64.toNat_inj.mp (by simp; omega))
    exact UInt64.toNat_sub_of_le n 1 (UInt64.le_iff_toNat_le.mpr hpos)

theorem slot_met (secret : RendezvousSecret) (direction : Direction) {p r : UInt64}
    (hearly : p.toNat ≤ r.toNat + 3600) (hlate : r.toNat < p.toNat + 7200) :
    ∃ i ∈ lookupIds secret direction r,
      i = ⟨secret, direction, epochAt p⟩ ∨ i = ⟨secret, direction, epochAt p + 1⟩ := by
  have hp := toNat_epochAt p
  have hp' := toNat_epochAt_succ p
  have hr := toNat_epochAt r
  have hr' := toNat_epochAt_succ r
  have hpred := toNat_saturatingPred (epochAt r)
  have hcases : r.toNat / 3600 + 1 = p.toNat / 3600 ∨ r.toNat / 3600 = p.toNat / 3600 ∨
      r.toNat / 3600 = p.toNat / 3600 + 1 ∨ r.toNat / 3600 = p.toNat / 3600 + 2 := by omega
  rcases hcases with h | h | h | h
  · have heq : epochAt r + 1 = epochAt p := UInt64.toNat_inj.mp (by omega)
    exact ⟨⟨secret, direction, epochAt r + 1⟩, by simp [lookupIds], Or.inl (by rw [heq])⟩
  · have heq : epochAt r = epochAt p := UInt64.toNat_inj.mp (by omega)
    exact ⟨⟨secret, direction, epochAt r⟩, by simp [lookupIds], Or.inl (by rw [heq])⟩
  · have heq : epochAt r = epochAt p + 1 := UInt64.toNat_inj.mp (by omega)
    exact ⟨⟨secret, direction, epochAt r⟩, by simp [lookupIds], Or.inr (by rw [heq])⟩
  · have heq : saturatingPred (epochAt r) = epochAt p + 1 := UInt64.toNat_inj.mp (by omega)
    exact ⟨⟨secret, direction, saturatingPred (epochAt r)⟩, by simp [lookupIds],
      Or.inr (by rw [heq])⟩

/-! ## What a publish does to the store -/

variable {pr : Primitives} {u : Unicode} {st : Store} {x e : Publishing}

theorem putAll_accepted {sub : Substrate} (h : ∀ n, sub.put n = none) (n : Nat)
    (items : List (String × Bytes)) : (putAll sub n items).2 = items := by
  induction items generalizing n with
  | nil => rfl
  | cons item items ih =>
    unfold putAll
    rw [h]
    simp only [ih]

theorem publish_ok {subs : List Substrate} {items : List (String × Bytes)} {report : PublishReport}
    (h : publish pr subs x.secret x.loc x.peer x.record (.ok x.clock) x.draws =
      .ok (items, report)) :
    ∃ b b', x.record.sealFor pr (x.first.slot pr) (x.draws 0) = .ok b ∧
      x.record.sealFor pr (x.second.slot pr) (x.draws 1) = .ok b' ∧
      items = [((x.first.slot pr).tagHex, b), ((x.second.slot pr).tagHex, b')] := by
  unfold publish at h
  split at h
  · cases h
  · obtain ⟨_, h₀, h⟩ := of_bind_eq_ok h
    cases h₀
    obtain ⟨items', hitems, h⟩ := of_bind_eq_ok h
    cases h
    obtain ⟨b, hb, hitems⟩ := of_bind_eq_ok hitems
    obtain ⟨rest, hrest, hitems⟩ := of_bind_eq_ok hitems
    cases hitems
    obtain ⟨b', hb', hrest⟩ := of_bind_eq_ok hrest
    cases hrest
    exact ⟨b, b', hb, hb', rfl⟩

theorem publish_eq {subs : List Substrate} (hne : subs ≠ []) {b b' : Bytes}
    (hb : x.record.sealFor pr (x.first.slot pr) (x.draws 0) = .ok b)
    (hb' : x.record.sealFor pr (x.second.slot pr) (x.draws 1) = .ok b') :
    publish pr subs x.secret x.loc x.peer x.record (.ok x.clock) x.draws =
      .ok ([((x.first.slot pr).tagHex, b), ((x.second.slot pr).tagHex, b')],
        reportOn [((x.first.slot pr).tagHex, b), ((x.second.slot pr).tagHex, b')] subs) := by
  have hitems : sealAll pr x.record x.draws 0 [x.first.slot pr, x.second.slot pr] =
      .ok [((x.first.slot pr).tagHex, b), ((x.second.slot pr).tagHex, b')] := by
    simp only [sealAll, hb, hb', bind, Except.bind]
    rfl
  unfold publish
  rw [if_neg hne]
  show (sealAll pr x.record x.draws 0 [x.first.slot pr, x.second.slot pr] >>= fun items =>
    pure (items, reportOn items subs)) = _
  rw [hitems]
  rfl

theorem store_publish_eq (st : Store) {b b' : Bytes}
    (hb : x.record.sealFor pr (x.first.slot pr) (x.draws 0) = .ok b)
    (hb' : x.record.sealFor pr (x.second.slot pr) (x.draws 1) = .ok b') :
    st.publish pr x = Function.update (Function.update st (x.first.slot pr).tagHex
      (some (b, x.time + TTL.toNat))) (x.second.slot pr).tagHex (some (b', x.time + TTL.toNat)) := by
  unfold Store.publish
  simp only [publish_eq (List.cons_ne_nil _ _) hb hb']
  rw [putAll_accepted fun _ => rfl]
  rfl

theorem publish_cases (st : Store) (x : Publishing) :
    st.publish pr x = st ∨ ∃ b b',
      x.record.sealFor pr (x.first.slot pr) (x.draws 0) = .ok b ∧
      x.record.sealFor pr (x.second.slot pr) (x.draws 1) = .ok b' ∧
      st.publish pr x = Function.update (Function.update st (x.first.slot pr).tagHex
        (some (b, x.time + TTL.toNat))) (x.second.slot pr).tagHex
          (some (b', x.time + TTL.toNat)) := by
  by_cases h : ∃ items report, publish pr (st.substrate "" x.time (fun _ => true) :: x.others)
      x.secret x.loc x.peer x.record (.ok x.clock) x.draws = .ok (items, report)
  · obtain ⟨items, report, hok⟩ := h
    obtain ⟨b, b', hb, hb', -⟩ := publish_ok hok
    exact Or.inr ⟨b, b', hb, hb', store_publish_eq st hb hb'⟩
  · left
    unfold Store.publish
    simp only
    split
    · rfl
    · rename_i items report hok
      exact absurd ⟨items, report, hok⟩ h

theorem publish_other {ids : List SlotId} (htags : DistinctTags pr ids) {i : SlotId} (hi : i ∈ ids)
    (hx : ∀ j ∈ x.slotIds, j ∈ ids) (hne : i ∉ x.slotIds) (st : Store) :
    st.publish pr x (i.slot pr).tagHex = st (i.slot pr).tagHex := by
  have hother : ∀ j ∈ x.slotIds, (i.slot pr).tagHex ≠ (j.slot pr).tagHex := by
    intro j hj heq
    have := htags i hi j (hx j hj) (tagHex_injective heq)
    exact hne (this ▸ hj)
  rcases publish_cases st x with heq | ⟨b, b', -, -, heq⟩
  · rw [heq]
  · rw [heq, Function.update_of_ne (hother _ (by simp [Publishing.slotIds])),
      Function.update_of_ne (hother _ (by simp [Publishing.slotIds]))]

/-- Every record that can be found in the slot satisfies `P`. -/
def Holds (pr : Primitives) (st : Store) (i : SlotId) (P : AddressRecord → Prop) : Prop :=
  ∀ b deadline, st (i.slot pr).tagHex = some (b, deadline) →
    ∃ record draws, record.sealFor pr (i.slot pr) draws = .ok b ∧
      AddressRecord.Publishable record.hints ∧ P record

/-- What the publish put into one of its slots stays there for the time it gave. -/
def Serves (pr : Primitives) (st : Store) (i : SlotId) (r : AddressRecord) (deadline : Nat) : Prop :=
  ∃ b draws, r.sealFor pr (i.slot pr) draws = .ok b ∧ st (i.slot pr).tagHex = some (b, deadline)

theorem Publishing.Built.record_eq (h : x.Built) : ∃ now, now ≤ x.clock ∧
    x.record.notAfter = saturatingAdd now AddressRecord.DEFAULT_TTL_SECS ∧
    AddressRecord.Publishable x.record.hints := by
  obtain ⟨hints, now, millis, hnew, hclock, hhints⟩ := h
  have hrecord := (AddressRecord.new_eq_ok hnew).2
  refine ⟨now, hclock, by rw [hrecord], ?_⟩
  rw [hrecord]
  exact hhints

theorem Publishing.Built.publishable (h : x.Built) :
    AddressRecord.Publishable x.record.hints := by
  obtain ⟨-, -, -, hhints⟩ := h.record_eq
  exact hhints

theorem Holds.publish {P : AddressRecord → Prop} {ids : List SlotId} (htags : DistinctTags pr ids)
    {i : SlotId} (hi : i ∈ ids) (hx : ∀ j ∈ x.slotIds, j ∈ ids) (h : Holds pr st i P)
    (hbuilt : x.Built) (hP : i ∈ x.slotIds → P x.record) : Holds pr (st.publish pr x) i P := by
  by_cases hmem : i ∈ x.slotIds
  · intro b deadline hb
    rcases publish_cases st x with heq | ⟨b₁, b₂, hb₁, hb₂, heq⟩
    · rw [heq] at hb
      exact h b deadline hb
    · rw [heq] at hb
      by_cases hsecond : i = x.second
      · rw [hsecond, Function.update_self] at hb
        cases hb
        exact ⟨x.record, x.draws 1, hsecond ▸ hb₂, hbuilt.publishable, hP hmem⟩
      · have hfirst : i = x.first := by
          simp only [Publishing.slotIds, List.mem_cons, List.not_mem_nil, or_false] at hmem
          exact hmem.resolve_right hsecond
        have hne : (i.slot pr).tagHex ≠ (x.second.slot pr).tagHex := by
          intro hsame
          exact hsecond (htags i hi _ (hx _ (by simp [Publishing.slotIds])) (tagHex_injective hsame))
        rw [Function.update_of_ne hne, hfirst, Function.update_self] at hb
        cases hb
        exact ⟨x.record, x.draws 0, hfirst ▸ hb₁, hbuilt.publishable, hP hmem⟩
  · intro b deadline hb
    rw [publish_other htags hi hx hmem] at hb
    exact h b deadline hb

theorem serves_publish {ids : List SlotId} (htags : DistinctTags pr ids)
    (hx : ∀ j ∈ x.slotIds, j ∈ ids) {subs : List Substrate}
    {result : List (String × Bytes) × PublishReport}
    (hok : publish pr subs x.secret x.loc x.peer x.record (.ok x.clock) x.draws = .ok result)
    (st : Store) :
    ∀ i ∈ x.slotIds, Serves pr (st.publish pr x) i x.record (x.time + TTL.toNat) := by
  obtain ⟨b, b', hb, hb', -⟩ := publish_ok hok
  rw [store_publish_eq st hb hb']
  intro i hi
  by_cases hsecond : i = x.second
  · rw [hsecond]
    exact ⟨b', x.draws 1, hb', Function.update_self ..⟩
  · have hfirst : i = x.first := by
      simp only [Publishing.slotIds, List.mem_cons, List.not_mem_nil, or_false] at hi
      exact hi.resolve_right hsecond
    have hne : (i.slot pr).tagHex ≠ (x.second.slot pr).tagHex := by
      intro hsame
      exact hsecond (htags i (hx i hi) _ (hx _ (by simp [Publishing.slotIds]))
        (tagHex_injective hsame))
    refine ⟨b, x.draws 0, hfirst ▸ hb, ?_⟩
    rw [Function.update_of_ne hne, hfirst, Function.update_self]

/-! ## A run of publishes -/

theorem Serves.publish {ids : List SlotId} (htags : DistinctTags pr ids) {i : SlotId} (hi : i ∈ ids)
    (hx : ∀ j ∈ x.slotIds, j ∈ ids) (hne : i ∉ x.slotIds) {r : AddressRecord} {deadline : Nat}
    (h : Serves pr st i r deadline) : Serves pr (st.publish pr x) i r deadline := by
  obtain ⟨b, draws, hseal, hst⟩ := h
  exact ⟨b, draws, hseal, by rw [publish_other htags hi hx hne, hst]⟩

theorem serves_run {ids : List SlotId} (htags : DistinctTags pr ids) {i : SlotId} (hi : i ∈ ids)
    {xs : List Publishing} (hxs : ∀ x ∈ xs, (∀ j ∈ x.slotIds, j ∈ ids) ∧ i ∉ x.slotIds)
    {r : AddressRecord} {deadline : Nat} (h : Serves pr st i r deadline) :
    Serves pr (xs.foldl (Store.publish pr) st) i r deadline := by
  induction xs generalizing st with
  | nil => exact h
  | cons x xs ih =>
    obtain ⟨hids, hne⟩ := hxs x List.mem_cons_self
    exact ih (fun y hy => hxs y (List.mem_cons_of_mem _ hy)) (h.publish htags hi hids hne)

theorem holds_run {P : AddressRecord → Prop} {ids : List SlotId} (htags : DistinctTags pr ids)
    {i : SlotId} (hi : i ∈ ids) {xs : List Publishing}
    (hxs : ∀ x ∈ xs, (∀ j ∈ x.slotIds, j ∈ ids) ∧ x.Built ∧ (i ∈ x.slotIds → P x.record))
    (h : Holds pr st i P) : Holds pr (xs.foldl (Store.publish pr) st) i P := by
  induction xs generalizing st with
  | nil => exact h
  | cons x xs ih =>
    obtain ⟨hids, hbuilt, hP⟩ := hxs x List.mem_cons_self
    exact ih (fun y hy => hxs y (List.mem_cons_of_mem _ hy)) (h.publish htags hi hids hbuilt hP)

/-! ## Looking up -/

variable {now : UInt64} {newestSeen : Option UInt64} {name : String} {time : Nat} {late : Nat → Bool}

theorem offer_eq_some {slot : Slot} {answer : Except Error (Option Bytes)} {b : AddressRecord}
    (h : offer pr u now newestSeen slot answer = some b) :
    ∃ bytes, answer = .ok (some bytes) ∧ AddressRecord.openAt pr u bytes slot now = .ok b ∧
      b.supersedes newestSeen = true := by
  unfold offer at h
  split at h
  · rename_i bytes
    split at h
    · rename_i hopen
      split at h
      · rename_i hsup
        cases h
        exact ⟨bytes, rfl, hopen, hsup⟩
      · cases h
    · cases h
  · cases h

theorem Holds.offer (hpr : pr.Correct) (hu : u.Plain) {i : SlotId} {P : AddressRecord → Prop}
    (h : Holds pr st i P) {n : Nat} {b : AddressRecord}
    (hb : Discovery.offer pr u now newestSeen (i.slot pr)
      ((st.substrate name time late).get n (i.slot pr).tagHex) = some b) : P b := by
  obtain ⟨bytes, hanswer, hopen, -⟩ := offer_eq_some hb
  unfold Store.substrate at hanswer
  simp only [Except.ok.injEq] at hanswer
  split at hanswer
  · cases hanswer
  · rename_i bytes' deadline hst
    split at hanswer
    · cases hanswer
      obtain ⟨record, draws, hseal, hhints, hP⟩ := h _ _ hst
      rw [AddressRecord.openAt_sealFor hpr hu hhints hseal] at hopen
      rw [(AddressRecord.checkTimes_eq_ok hopen).1]
      exact hP
    · cases hanswer

theorem Serves.offer (hpr : pr.Correct) (hu : u.Plain) {i : SlotId} {r : AddressRecord}
    {deadline : Nat} (h : Serves pr st i r deadline) (hkept : time < deadline)
    (hhints : AddressRecord.Publishable r.hints) (htimes : r.checkTimes now = .ok r)
    (hsup : r.supersedes newestSeen = true) (n : Nat) :
    Discovery.offer pr u now newestSeen (i.slot pr)
      ((st.substrate name time late).get n (i.slot pr).tagHex) = some r := by
  obtain ⟨b, draws, hseal, hst⟩ := h
  unfold Store.substrate Discovery.offer
  simp only [hst, hkept, decide_true, Bool.true_or, if_true,
    AddressRecord.openAt_sealFor hpr hu hhints hseal, htimes, hsup]

/-! ## The last publish -/

/-- Publishes of any pairs, among them those of `a` and `b` under `secret`, and the last one
of `a`, which went through. -/
structure Followed (pr : Primitives) (secret : RendezvousSecret) (a b : BundleId)
    (before : List Publishing) (e : Publishing) (after : List Publishing) : Prop where
  built : ∀ x ∈ before ++ e :: after, x.Built
  pair : ∀ x ∈ before ++ e :: after, x.secret = secret →
    x.loc = a ∧ x.peer = b ∨ x.loc = b ∧ x.peer = a
  mine : e.secret = secret ∧ e.loc = a
  went : ∃ subs result,
    publish pr subs e.secret e.loc e.peer e.record (.ok e.clock) e.draws = .ok result
  newer : ∀ x ∈ before, x.secret = secret → x.loc = a → x.record.seq < e.record.seq
  last : ∀ x ∈ after, x.secret = secret → x.loc ≠ a

def allIds (xs : List Publishing) (secret : RendezvousSecret) (a b : BundleId) (now : UInt64) :
    List SlotId :=
  xs.flatMap Publishing.slotIds ++ lookupIds secret (Direction.publishing a b) now

variable {secret : RendezvousSecret} {a b : BundleId} {before after : List Publishing}

theorem Publishing.mem_slotIds {i : SlotId} (h : i ∈ x.slotIds) :
    i.secret = x.secret ∧ i.direction = x.direction := by
  simp only [slotIds, List.mem_cons, List.not_mem_nil, or_false] at h
  rcases h with rfl | rfl <;> exact ⟨rfl, rfl⟩

theorem Followed.owner (h : Followed pr secret a b before e after) (hne : a ≠ b)
    (hx : x ∈ before ++ e :: after) {i : SlotId} (hi : i ∈ x.slotIds) (hsecret : i.secret = secret)
    (hdir : i.direction = Direction.publishing a b) : x.secret = secret ∧ x.loc = a := by
  obtain ⟨hs, hd⟩ := Publishing.mem_slotIds hi
  have hsecret' : x.secret = secret := by rw [← hs, hsecret]
  rcases h.pair x hx hsecret' with ⟨hloc, -⟩ | ⟨hloc, hpeer⟩
  · exact ⟨hsecret', hloc⟩
  · have hswap : Direction.publishing b a = Direction.publishing a b := by
      rw [← hdir, hd, Publishing.direction, hloc, hpeer]
    rw [Direction.publishing_swap hne] at hswap
    exact absurd hswap (Direction.flip_ne _)

theorem mem_lookupIds {i : SlotId} {direction : Direction} {r : UInt64}
    (h : i ∈ lookupIds secret direction r) : i.secret = secret ∧ i.direction = direction := by
  simp only [lookupIds, List.mem_cons, List.not_mem_nil, or_false] at h
  rcases h with rfl | rfl | rfl <;> exact ⟨rfl, rfl⟩

theorem exists_lookupId {direction : Direction} {r : UInt64} {k : Nat} {slot : Slot}
    (h : (lookupSlots pr secret direction r)[k]? = some slot) :
    ∃ i ∈ lookupIds secret direction r, slot = i.slot pr := by
  have hmap : lookupSlots pr secret direction r =
      (lookupIds secret direction r).map (SlotId.slot pr) := rfl
  rw [hmap] at h
  obtain ⟨i, hi, heq⟩ := List.mem_map.mp (List.mem_of_getElem? h)
  exact ⟨i, hi, heq.symm⟩

/-- In each slot that is looked into there is the last record, or an older one of `a`. -/
theorem Followed.holds (h : Followed pr secret a b before e after) (hne : a ≠ b) {now : UInt64}
    (htags : DistinctTags pr (allIds (before ++ e :: after) secret a b now)) {i : SlotId}
    (hi : i ∈ lookupIds secret (Direction.publishing a b) now) :
    Holds pr (published pr (before ++ e :: after)) i
      fun r => r = e.record ∨ r.seq < e.record.seq := by
  obtain ⟨hsecret, hdir⟩ := mem_lookupIds hi
  refine holds_run htags (List.mem_append_right _ hi) ?_ ?_
  · intro x hx
    refine ⟨?_, h.built x hx, ?_⟩
    · intro j hj
      exact List.mem_append_left _ (List.mem_flatMap.mpr ⟨x, hx, hj⟩)
    · intro hmem
      obtain ⟨hs, hloc⟩ := h.owner hne hx hmem hsecret hdir
      rcases List.mem_append.mp hx with hx | hx
      · exact Or.inr (h.newer x hx hs hloc)
      · rcases List.mem_cons.mp hx with rfl | hx
        · exact Or.inl rfl
        · exact absurd hloc (h.last x hx hs)
  · intro b deadline hb
    cases hb

theorem Followed.direction_eq (h : Followed pr secret a b before e after) (hne : a ≠ b) :
    e.direction = Direction.publishing a b := by
  have he : e ∈ before ++ e :: after := List.mem_append_right _ List.mem_cons_self
  rw [Publishing.direction, h.mine.2]
  rcases h.pair e he h.mine.1 with ⟨-, hpeer⟩ | ⟨hloc, -⟩
  · rw [hpeer]
  · exact absurd (h.mine.2.symm.trans hloc) hne

theorem Followed.serves (h : Followed pr secret a b before e after) (hne : a ≠ b) {now : UInt64}
    (htags : DistinctTags pr (allIds (before ++ e :: after) secret a b now)) {i : SlotId}
    (hi : i ∈ e.slotIds) :
    Serves pr (published pr (before ++ e :: after)) i e.record (e.time + TTL.toNat) := by
  have hids : ∀ x ∈ before ++ e :: after, ∀ j ∈ x.slotIds,
      j ∈ allIds (before ++ e :: after) secret a b now := fun x hx j hj =>
    List.mem_append_left _ (List.mem_flatMap.mpr ⟨x, hx, hj⟩)
  have he : e ∈ before ++ e :: after := List.mem_append_right _ List.mem_cons_self
  obtain ⟨subs, result, hok⟩ := h.went
  obtain ⟨hs, hd⟩ := Publishing.mem_slotIds hi
  have hdir : i.direction = Direction.publishing a b := hd.trans (h.direction_eq hne)
  unfold published
  rw [List.foldl_append, List.foldl_cons]
  refine serves_run htags (hids e he i hi) ?_ (serves_publish htags (hids e he) hok _ i hi)
  intro x hx
  have hx' : x ∈ before ++ e :: after := List.mem_append_right _ (List.mem_cons_of_mem _ hx)
  refine ⟨hids x hx', fun hmem => ?_⟩
  obtain ⟨hsecret, hloc⟩ := h.owner hne hx' hmem (by rw [hs, h.mine.1]) hdir
  exact h.last x hx hsecret hloc

theorem Publishing.Built.checkTimes (h : x.Built) {r : UInt64}
    (hearly : x.clock.toNat ≤ r.toNat + 3600) (hlate : r < x.record.notAfter) :
    x.record.checkTimes r = .ok x.record ∧ r.toNat < x.clock.toNat + 7200 := by
  obtain ⟨built, hclock, hafter, -⟩ := h.record_eq
  have hclock := UInt64.le_iff_toNat_le.mp hclock
  have hafter := congrArg UInt64.toNat hafter
  rw [toNat_saturatingAdd] at hafter
  have hlife : AddressRecord.DEFAULT_TTL_SECS.toNat = 7200 := by decide
  have hmax : MAX_TTL_SECS.toNat = 21600 := by decide
  rw [hlife] at hafter
  have hlate' := UInt64.lt_iff_toNat_lt.mp hlate
  refine ⟨AddressRecord.checkTimes_ok hlate ?_, by omega⟩
  rw [UInt64.le_iff_toNat_le, toNat_saturatingAdd, hmax]
  omega

/-- **Publish and resolve.** The last record a peer published is what the other resolves, as
long as the record is valid by the reader's clock and the substrate still has to keep it,
with the reader's clock up to an epoch behind, whatever else is in the substrate, whatever
order the substrates are asked in, and whatever the others say that is not a newer record.
And no other publish touches a slot that the peer puts its records into. -/
theorem last_published_found (hpr : pr.Correct) (hu : u.Plain) (hne : a ≠ b)
    (h : Followed pr secret a b before e after) {r : UInt64}
    (htags : DistinctTags pr (allIds (before ++ e :: after) secret a b r)) :
    (∀ {time : Nat} {newestSeen : Option UInt64} {name : String} {late : Nat → Bool}
      {subs : List Substrate} (noise : Nat → UInt64),
      e.clock.toNat ≤ r.toNat + 3600 → r < e.record.notAfter → time < e.time + 7200 →
      e.record.supersedes newestSeen = true →
      (published pr (before ++ e :: after)).substrate name time late ∈ subs →
      (∀ s ∈ subs, s = (published pr (before ++ e :: after)).substrate name time late ∨
        ∀ n, ∀ i ∈ lookupIds secret (Direction.publishing a b) r,
          offer pr u r newestSeen (i.slot pr) (s.get n (i.slot pr).tagHex) = none) →
      (resolve pr u subs secret b a newestSeen (.ok r) (.ok noise)).1 = .ok e.record) ∧
    ∀ x ∈ before ++ e :: after, ¬ (x.secret = secret ∧ x.loc = a) →
      ∀ i ∈ allIds (before ++ e :: after) secret a b r, i.secret = secret →
        i.direction = Direction.publishing a b →
        ∀ st : Store, st.publish pr x (i.slot pr).tagHex = st (i.slot pr).tagHex := by
  constructor
  · intro time newestSeen name late subs noise hearly hlate hkept hseen hmem huseless
    have he : e ∈ before ++ e :: after := List.mem_append_right _ List.mem_cons_self
    have hbuilt := h.built e he
    obtain ⟨htimes, hwindow⟩ := hbuilt.checkTimes hearly hlate
    obtain ⟨i, hi, hslot⟩ := slot_met secret (Direction.publishing a b) hearly hwindow
    have hserves : Serves pr (published pr (before ++ e :: after)) i e.record (e.time + 7200) := by
      refine h.serves hne htags ?_
      rw [Publishing.slotIds, Publishing.first, Publishing.second, h.mine.1, h.direction_eq hne]
      rcases hslot with rfl | rfl <;> simp
    obtain ⟨subs', hshuffled, hperm⟩ := shuffled_ok subs noise
    have hdir : (Direction.publishing b a).flip = Direction.publishing a b := by
      rw [Direction.publishing_swap hne, Direction.flip_flip]
    unfold resolve
    rw [if_neg (List.ne_nil_of_mem hmem)]
    simp only [hshuffled, hdir]
    refine lookThrough_finds (hperm.mem_iff.mpr hmem) ?_ ?_ ?_
    · have hmapped : i.slot pr ∈ (lookupIds secret (Direction.publishing a b) r).map
          (SlotId.slot pr) := List.mem_map_of_mem hi
      obtain ⟨k, hk⟩ := List.getElem?_of_mem hmapped
      refine mem_offers.mpr ⟨k, i.slot pr, hk, ?_⟩
      rw [hserves.offer hpr hu hkept hbuilt.publishable htimes hseen]
    · intro c hc
      obtain ⟨k, slot, hk, hoffer⟩ := mem_offers.mp hc
      obtain ⟨j, hj, rfl⟩ := exists_lookupId hk
      exact (h.holds hne htags hj).offer hpr hu hoffer.symm
    · intro s hs
      refine (huseless s (hperm.mem_iff.mp hs)).imp_right fun hnone o ho => ?_
      obtain ⟨k, slot, hk, rfl⟩ := mem_offers.mp ho
      obtain ⟨j, hj, rfl⟩ := exists_lookupId hk
      exact hnone _ j hj
  · intro x hx hnot i hi hsecret hdir st
    refine publish_other htags hi ?_ ?_ st
    · intro j hj
      exact List.mem_append_left _ (List.mem_flatMap.mpr ⟨x, hx, hj⟩)
    · intro hmem
      exact hnot (h.owner hne hx hmem hsecret hdir)

/-! ### One record, published once -/

def samplePeer : BundleId := List.Vector.replicate _ 1
def sampleReader : BundleId := List.Vector.replicate _ 2
def sampleSecret : RendezvousSecret := List.Vector.replicate _ 5
def sampleNow : UInt64 := 1800000000

def sampleRecord : AddressRecord :=
  ⟨[.direct (.v4 ⟨[203, 0, 113, 7], length_sampleOctets⟩ 4433)], 1800000000000, sampleNow + 7200⟩

/-- Built when the clock read `sampleNow`, and put at `clock`, when the substrate's read 0. -/
def samplePublishing (clock : UInt64) : Publishing where
  secret := sampleSecret
  loc := samplePeer
  peer := sampleReader
  record := sampleRecord
  clock := clock
  time := 0
  draws _ := ⟨.ok (List.Vector.replicate _ 0), .ok (List.Vector.replicate _ 0)⟩
  others := []

def sampleResolve (clock r : UInt64) (time : Nat) : Except Error AddressRecord :=
  (resolve samplePrimitives sampleUnicode
    [(published samplePrimitives [samplePublishing clock]).substrate "rdv" time fun _ => false]
    sampleSecret sampleReader samplePeer none (.ok r) (.ok fun _ => 0)).1

theorem sampleFollowed : Followed samplePrimitives sampleSecret samplePeer sampleReader []
    (samplePublishing sampleNow) [] where
  built := by
    intro x hx
    rw [List.nil_append, List.mem_singleton] at hx
    subst hx
    refine ⟨sampleRecord.hints, sampleNow, 1800000000000, rfl, UInt64.le_refl _, ?_⟩
    exact ⟨List.cons_ne_nil _ _, by decide, by simp [sampleRecord, Endpoint.Carried]⟩
  pair := by
    intro x hx _
    rw [List.nil_append, List.mem_singleton] at hx
    subst hx
    exact Or.inl ⟨rfl, rfl⟩
  mine := ⟨rfl, rfl⟩
  went := by
    have hseal : ∀ slot, ∃ b, sampleRecord.sealFor samplePrimitives slot
        ((samplePublishing sampleNow).draws 0) = .ok b := fun slot =>
      AddressRecord.sealFor_ok samplePrimitives_correct (by decide) slot
    obtain ⟨b, hb⟩ := hseal ((samplePublishing sampleNow).first.slot samplePrimitives)
    obtain ⟨b', hb'⟩ := hseal ((samplePublishing sampleNow).second.slot samplePrimitives)
    exact ⟨[⟨"", fun _ => none, fun _ _ => .ok none⟩], _, publish_eq (List.cons_ne_nil _ _) hb hb'⟩
  newer := by simp
  last := by simp

theorem last_published_found_half_an_hour_behind :
    sampleResolve sampleNow (sampleNow - 1800) 60 = .ok sampleRecord :=
  (last_published_found samplePrimitives_correct sampleUnicode_plain (by decide) sampleFollowed
    (by decide +kernel)).1 (fun _ => 0) (by decide) (by decide) (by decide) rfl (List.mem_singleton_self _)
    fun _ hs => Or.inl (List.mem_singleton.mp hs)

/-- A record that was built in the second before it was published is gone a second before
the window of the publish ends. And a substrate that keeps a record for its time has dropped
it while a reader whose clock is a second behind still has a second of the window left. -/
theorem published_not_found :
    (sampleNow + 1).toNat ≤ (sampleNow + 7200).toNat + 3600 ∧
    (sampleNow + 7200).toNat < (sampleNow + 1).toNat + 7200 ∧
    sampleResolve (sampleNow + 1) (sampleNow + 7200) 60 ≠ .ok sampleRecord ∧
    sampleNow.toNat ≤ (sampleNow + 7199).toNat + 3600 ∧
    (sampleNow + 7199).toNat < sampleNow.toNat + 7200 ∧
    sampleResolve sampleNow (sampleNow + 7199) 7200 ≠ .ok sampleRecord := by
  decide +kernel

end AtomVault.Live.Discovery
