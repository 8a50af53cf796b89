import AtomVault.Transfer.Jitter
import Mathlib.Algebra.Order.Floor.Div
import Mathlib.Order.Bounds.Basic

/-!
# The bounds of a frame plan (`pacing.rs`)

`plan` once more, with the operations of Rust that panic, and what it rounds up to.
-/

namespace AtomVault.Transfer

/-! ## The plan with its panics -/

def checkedDiv (a b : Nat) : Option Nat := if 0 < b then some (a / b) else Option.none

/-- `u64::div_ceil` -/
def divCeilOrPanic (a b : Nat) : Option Nat := do
  let d ← checkedDiv a b
  let r ← checkedRem a b
  if 0 < r then checked (d + 1) else some d

def Ladder.quantiseOrPanic (ladder : Ladder) (realFrames : Nat) : Option Nat :=
  match ladder with
  | .powerOfTwo => some ((checkedNextPowerOfTwo realFrames).getD realFrames)
  | .multiple n =>
    if 0 < n then do
      let steps ← divCeilOrPanic realFrames n.toNat
      some ((checked (steps * n.toNat)).getD realFrames)
    else some realFrames
  | .none => some realFrames

def Pacing.jitterOrPanic (p : Pacing) (draws : Draws) : Option (Except Error Nat) :=
  if 0 < p.jitterFrames then do
    randomBelowOrPanic (← checked (p.jitterFrames.toNat + 1)) draws
  else some (.ok 0)

def Pacing.planOrPanic (p : Pacing) (realFrames : Nat) (draws : Draws) :
    Option (Except Error Nat) := do
  let floored := max (← p.ladder.quantiseOrPanic realFrames) p.minFrames.toNat
  match ← p.jitterOrPanic draws with
  | .error e => return .error e
  | .ok jitter => return .ok (max (min (floored + jitter) (2 ^ 64 - 1)) realFrames)

theorem divCeilOrPanic_eq {a b : Nat} (ha : a < 2 ^ 64) (hb : 0 < b) :
    divCeilOrPanic a b = some (divCeil a b) := by
  have hsplit := Nat.div_add_mod a b
  have hr := Nat.mod_lt a hb
  have hnext : (a / b + 1) * b = b * (a / b) + b := by ring
  unfold divCeilOrPanic checkedDiv checkedRem
  simp only [if_pos hb, Option.bind_eq_bind, Option.bind_some]
  split
  · rename_i hpos
    have hceil : divCeil a b = a / b + 1 := by
      unfold divCeil
      apply Nat.div_eq_of_lt_le
      · omega
      · have : (a / b + 1 + 1) * b = b * (a / b) + b + b := by ring
        omega
    have hlt : a / b + 1 < 2 ^ 64 := by
      have hb' : 1 < b := by omega
      have hne : a ≠ 0 := by rintro rfl; simp at hpos
      have := Nat.div_lt_self (Nat.pos_of_ne_zero hne) hb'
      omega
    rw [hceil]
    exact if_pos hlt
  · rename_i hzero
    congr 1
    unfold divCeil
    symm
    apply Nat.div_eq_of_lt_le
    · have : a / b * b = b * (a / b) := Nat.mul_comm _ _
      omega
    · omega

theorem quantiseOrPanic_eq (ladder : Ladder) {realFrames : Nat} (hreal : realFrames < 2 ^ 64) :
    ladder.quantiseOrPanic realFrames = some (ladder.quantise realFrames) := by
  unfold Ladder.quantiseOrPanic Ladder.quantise
  cases ladder with
  | powerOfTwo => rfl
  | none => rfl
  | multiple n =>
    dsimp only
    split
    · rename_i hn
      rw [divCeilOrPanic_eq hreal (by simpa using UInt64.lt_iff_toNat_lt.mp hn)]
      rfl
    · rfl

theorem jitterFrames_succ {p : Pacing} (h : p.jitterFrames.toNat ≠ 2 ^ 64 - 1) :
    p.jitterFrames.toNat + 1 < 2 ^ 64 ∧
      (p.jitterFrames + 1).toNat = p.jitterFrames.toNat + 1 := by
  have hlt := p.jitterFrames.toNat_lt
  have hfits : p.jitterFrames.toNat + 1 < 2 ^ 64 := by omega
  refine ⟨hfits, ?_⟩
  rw [UInt64.toNat_add]
  exact Nat.mod_eq_of_lt hfits

theorem jitterOrPanic_eq {p : Pacing} (h : p.jitterFrames.toNat ≠ 2 ^ 64 - 1) (draws : Draws) :
    p.jitterOrPanic draws = some (p.jitter draws) := by
  obtain ⟨hfits, hsum⟩ := jitterFrames_succ h
  unfold Pacing.jitterOrPanic Pacing.jitter
  split
  · rw [checked, if_pos hfits, hsum]
    exact randomBelowOrPanic_eq _ _
  · rfl

theorem jitterOrPanic_eq_none {p : Pacing} (h : p.jitterFrames.toNat = 2 ^ 64 - 1)
    (draws : Draws) : p.jitterOrPanic draws = Option.none := by
  have hpos : 0 < p.jitterFrames := by
    rw [UInt64.lt_iff_toNat_lt, h]
    decide
  unfold Pacing.jitterOrPanic
  rw [if_pos hpos, h]
  rfl

theorem planOrPanic_eq {p : Pacing} (h : p.jitterFrames.toNat ≠ 2 ^ 64 - 1) {realFrames : Nat}
    (hreal : realFrames < 2 ^ 64) (draws : Draws) :
    p.planOrPanic realFrames draws = some (p.plan realFrames draws) := by
  unfold Pacing.planOrPanic Pacing.plan
  rw [quantiseOrPanic_eq _ hreal, jitterOrPanic_eq h]
  simp only [Option.bind_eq_bind, Option.bind_some]
  cases p.jitter draws <;> rfl

theorem planOrPanic_eq_none {p : Pacing} (h : p.jitterFrames.toNat = 2 ^ 64 - 1)
    {realFrames : Nat} (hreal : realFrames < 2 ^ 64) (draws : Draws) :
    p.planOrPanic realFrames draws = Option.none := by
  unfold Pacing.planOrPanic
  rw [quantiseOrPanic_eq _ hreal, jitterOrPanic_eq_none h]
  rfl

/-! ## The rungs of a ladder -/

def Ladder.IsRung : Ladder → Nat → Prop
  | .powerOfTwo, m => ∃ k, m = 2 ^ k
  | .multiple n, m => n.toNat ∣ m
  | .none, _ => True

/-- The least rung from `real` on that is a `u64`, and `real` itself where there is none. -/
def Ladder.Rounds (ladder : Ladder) (real q : Nat) : Prop :=
  IsLeast {m | ladder.IsRung m ∧ real ≤ m ∧ m < 2 ^ 64} q ∨
    (∀ m, ladder.IsRung m → real ≤ m → ¬ m < 2 ^ 64) ∧ q = real

section Rounds

variable {ladder : Ladder} {a b q q' : Nat}

theorem Ladder.Rounds.le (h : ladder.Rounds a q) : a ≤ q := by
  rcases h with h | ⟨-, rfl⟩
  · exact h.1.2.1
  · exact le_refl _

theorem Ladder.Rounds.lt (h : ladder.Rounds a q) (ha : a < 2 ^ 64) : q < 2 ^ 64 := by
  rcases h with h | ⟨-, rfl⟩
  · exact h.1.2.2
  · exact ha

theorem Ladder.Rounds.mono (h : ladder.Rounds a q) (h' : ladder.Rounds b q') (hab : a ≤ b) :
    q ≤ q' := by
  rcases h with h | ⟨hnone, rfl⟩ <;> rcases h' with h' | ⟨hnone', rfl⟩
  · exact h.2 ⟨h'.1.1, hab.trans h'.1.2.1, h'.1.2.2⟩
  · -- From `b` on no rung is a `u64`, so the one found is below `b`.
    by_contra hlt
    exact hnone' q h.1.1 (Nat.le_of_not_le hlt) h.1.2.2
  · exact absurd h'.1.2.2 (hnone _ h'.1.1 (hab.trans h'.1.2.1))
  · exact hab

theorem Ladder.Rounds.unique (h : ladder.Rounds a q) (h' : ladder.Rounds a q') : q = q' :=
  le_antisymm (h.mono h' (le_refl _)) (h'.mono h (le_refl _))

theorem rounds_checked (h : IsLeast {m | ladder.IsRung m ∧ a ≤ m} q) :
    ladder.Rounds a ((checked q).getD a) := by
  unfold checked
  split
  · rename_i hfits
    exact .inl ⟨⟨h.1.1, h.1.2, hfits⟩, fun m hm => h.2 ⟨hm.1, hm.2.1⟩⟩
  · rename_i hbig
    exact .inr ⟨fun m hm hle hlt => hbig ((h.2 ⟨hm, hle⟩).trans_lt hlt), rfl⟩

theorem isLeast_powerOfTwo (a : Nat) :
    IsLeast {m | Ladder.powerOfTwo.IsRung m ∧ a ≤ m} (2 ^ Nat.clog 2 a) := by
  constructor
  · exact ⟨⟨_, rfl⟩, Nat.le_pow_clog Nat.one_lt_two a⟩
  · rintro m ⟨⟨k, rfl⟩, hle⟩
    exact Nat.pow_le_pow_right Nat.zero_lt_two (Nat.clog_le_of_le_pow hle)

theorem isLeast_multiple {n : UInt64} (hn : 0 < n.toNat) (a : Nat) :
    IsLeast {m | (Ladder.multiple n).IsRung m ∧ a ≤ m} (divCeil a n.toNat * n.toNat) := by
  have hceil : ∀ k, divCeil a n.toNat ≤ k ↔ a ≤ n.toNat * k := fun k => by
    rw [divCeil, ← Nat.ceilDiv_eq_add_pred_div]
    exact ceilDiv_le_iff_le_mul hn
  constructor
  · refine ⟨Nat.dvd_mul_left _ _, ?_⟩
    rw [Nat.mul_comm]
    exact (hceil _).mp (le_refl _)
  · rintro m ⟨⟨k, rfl⟩, hle⟩
    rw [Nat.mul_comm]
    exact Nat.mul_le_mul_left _ ((hceil k).mpr hle)

theorem rounds_multiple_zero {n : UInt64} (hn : n.toNat = 0) (a : Nat) :
    (Ladder.multiple n).Rounds a a := by
  have hrung : ∀ m, (Ladder.multiple n).IsRung m ↔ m = 0 := fun m => by
    rw [Ladder.IsRung, hn]
    exact Nat.zero_dvd
  rcases Nat.eq_zero_or_pos a with rfl | ha
  · exact .inl ⟨⟨(hrung 0).mpr rfl, le_refl _, by decide⟩, fun m _ => Nat.zero_le m⟩
  · refine .inr ⟨fun m hm hle => ?_, rfl⟩
    have := (hrung m).mp hm
    omega

theorem rounds_quantise (ladder : Ladder) {a : Nat} (ha : a < 2 ^ 64) :
    ladder.Rounds a (ladder.quantise a) := by
  cases ladder with
  | powerOfTwo => exact rounds_checked (isLeast_powerOfTwo a)
  | none => exact .inl ⟨⟨trivial, le_refl _, ha⟩, fun m hm => hm.2.1⟩
  | multiple n =>
    unfold Ladder.quantise
    dsimp only
    split
    · rename_i hn
      exact rounds_checked (isLeast_multiple (by simpa using UInt64.lt_iff_toNat_lt.mp hn) a)
    · rename_i hn
      have hzero : n.toNat = 0 := by
        rw [UInt64.lt_iff_toNat_lt] at hn
        simpa using hn
      exact rounds_multiple_zero hzero a

theorem powerOfTwo_lt (h : Ladder.powerOfTwo.Rounds a q) : q < 2 * max a 1 := by
  rcases h with h | ⟨-, rfl⟩
  · have hle : q ≤ 2 ^ Nat.clog 2 a := by
      by_cases hfits : 2 ^ Nat.clog 2 a < 2 ^ 64
      · exact h.2 ⟨⟨_, rfl⟩, Nat.le_pow_clog Nat.one_lt_two a, hfits⟩
      · exact h.1.2.2.le.trans (Nat.le_of_not_lt hfits)
    rcases Nat.lt_or_ge 1 a with ha | ha
    · have hpred := Nat.pow_pred_clog_lt_self Nat.one_lt_two ha
      have hpos : 0 < Nat.clog 2 a := Nat.clog_pos Nat.one_lt_two ha
      have hdouble : 2 ^ Nat.clog 2 a = 2 * 2 ^ (Nat.clog 2 a).pred := by
        rw [← Nat.pow_succ', Nat.succ_pred_eq_of_pos hpos]
      omega
    · rw [Nat.clog_of_right_le_one ha] at hle
      omega
  · omega

end Rounds

/-! ## The plan of a pacing -/

/-- What `plan` is to do for every count of frames, `draws` being what the generator returns. -/
structure Pacing.Exact (p : Pacing) : Prop where
  total : ∀ (real : UInt64) draws, p.planOrPanic real.toNat draws ≠ Option.none
  rounds : ∀ real : UInt64, ∃! q, p.ladder.Rounds real.toNat q
  doubled : p.ladder = .powerOfTwo → ∀ (real : UInt64) q, p.ladder.Rounds real.toNat q →
    q < 2 * max real.toNat 1
  bounds : ∀ (real : UInt64) q draws r, p.ladder.Rounds real.toNat q →
    p.planOrPanic real.toNat draws = some (.ok r) →
      max real.toNat (max q p.minFrames.toNat) ≤ r ∧
        r ≤ min (max q p.minFrames.toNat + p.jitterFrames.toNat) (2 ^ 64 - 1)
  mono : ∀ (a b : UInt64) draws r r', a ≤ b → p.planOrPanic a.toNat draws = some (.ok r) →
    p.planOrPanic b.toNat draws = some (.ok r') → r ≤ r'
  same_rung : ∀ (a b : UInt64) q draws, p.ladder.Rounds a.toNat q → p.ladder.Rounds b.toNat q →
    p.planOrPanic a.toNat draws = p.planOrPanic b.toNat draws

section Plan

variable {p : Pacing} {draws : Draws} {real n r : Nat}

theorem plan_eq (p : Pacing) (hreal : real < 2 ^ 64) (draws : Draws) :
    p.plan real draws = (p.jitter draws).map
      fun j => min (max (p.ladder.quantise real) p.minFrames.toNat + j) (2 ^ 64 - 1) := by
  have hle := (rounds_quantise p.ladder hreal).le
  unfold Pacing.plan
  cases p.jitter draws with
  | error e => rfl
  | ok j =>
    have hmax : max (min (max (p.ladder.quantise real) p.minFrames.toNat + j) (2 ^ 64 - 1)) real =
        min (max (p.ladder.quantise real) p.minFrames.toNat + j) (2 ^ 64 - 1) := by
      omega
    simp only [bind, Except.bind, pure, Except.pure, Except.map, hmax]

theorem plan_ok (hreal : real < 2 ^ 64) (h : p.plan real draws = .ok r) :
    ∃ j, p.jitter draws = .ok j ∧
      r = min (max (p.ladder.quantise real) p.minFrames.toNat + j) (2 ^ 64 - 1) := by
  obtain ⟨j, hj, -⟩ := p.exists_jitter h
  rw [plan_eq p hreal, hj] at h
  exact ⟨j, hj, (Except.ok.inj h).symm⟩

theorem jitter_le (hjitter : p.jitterFrames.toNat ≠ 2 ^ 64 - 1) (h : p.jitter draws = .ok n) :
    n ≤ p.jitterFrames.toNat := by
  obtain ⟨-, hsum⟩ := jitterFrames_succ hjitter
  unfold Pacing.jitter at h
  split at h
  · have hbelow := randomBelow_lt (by omega) h
    omega
  · cases h
    exact Nat.zero_le _

end Plan

theorem exact_of_jitter {p : Pacing} (h : p.jitterFrames.toNat ≠ 2 ^ 64 - 1) : p.Exact := by
  have hplan : ∀ (real : UInt64) draws, p.planOrPanic real.toNat draws =
      some (p.plan real.toNat draws) := fun real => planOrPanic_eq h real.toNat_lt
  have hok : ∀ {real : UInt64} {draws r}, p.planOrPanic real.toNat draws = some (.ok r) →
      ∃ j, p.jitter draws = .ok j ∧
        r = min (max (p.ladder.quantise real.toNat) p.minFrames.toNat + j) (2 ^ 64 - 1) := by
    intro real draws r hr
    rw [hplan, Option.some.injEq] at hr
    exact plan_ok real.toNat_lt hr
  have hrounds : ∀ real : UInt64, p.ladder.Rounds real.toNat (p.ladder.quantise real.toNat) :=
    fun real => rounds_quantise _ real.toNat_lt
  constructor
  case total => simp [hplan]
  case rounds => exact fun real => ⟨_, hrounds real, fun q hq => hq.unique (hrounds real)⟩
  case doubled =>
    intro hpower real q hq
    rw [hpower] at hq
    exact powerOfTwo_lt hq
  case bounds =>
    intro real q draws r hq hr
    obtain ⟨j, hj, rfl⟩ := hok hr
    have hle := hq.le
    have hlt := hq.lt real.toNat_lt
    have hmin := p.minFrames.toNat_lt
    have hjle := jitter_le h hj
    rw [(hrounds real).unique hq]
    omega
  case mono =>
    intro a b draws r r' hab hr hr'
    obtain ⟨j, hj, rfl⟩ := hok hr
    obtain ⟨j', hj', rfl⟩ := hok hr'
    cases hj.symm.trans hj'
    have hle := (hrounds a).mono (hrounds b) (UInt64.le_iff_toNat_le.mp hab)
    omega
  case same_rung =>
    intro a b q draws ha hb
    rw [hplan, hplan, plan_eq p a.toNat_lt, plan_eq p b.toNat_lt, (hrounds a).unique ha,
      (hrounds b).unique hb]

/-- `plan` keeps its bounds, except that `jitter_frames + 1` overflows at the largest jitter. -/
theorem plan_exact_iff (p : Pacing) : p.Exact ↔ p.jitterFrames.toNat ≠ 2 ^ 64 - 1 := by
  constructor
  · intro h hjitter
    exact h.total 0 ⟨[], ""⟩ (planOrPanic_eq_none hjitter (by decide) _)
  · exact exact_of_jitter

theorem plan_not_exact : ¬ (Pacing.mk .powerOfTwo 0 18446744073709551615).Exact :=
  fun h => h.total 0 ⟨[], ""⟩ (planOrPanic_eq_none (by decide) (by decide) _)

end AtomVault.Transfer
