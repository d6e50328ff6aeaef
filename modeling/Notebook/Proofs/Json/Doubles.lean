/-
  Notebook.Proofs.Json.Doubles — two doubles with one text are one double.

  A double is kept in its standard form: the significand has its 53 bits unless the exponent is the
  least one.  The reals that round to a double make up an interval around it, and the intervals of
  two doubles in standard form do not meet.  The digits that are written for a double lie in its
  interval, and the text gives their value back, so the text tells which double was written.

  Main results:
    * `Covers.eq` — a real rounds to one double only,
    * `covers_shortest` — the digits that are written round to the double; seventeen suffice,
    * `magnitudeOf_layOut` — a text gives the value of its digits back,
    * `text_injective`.
-/
import Mathlib.Algebra.Order.Field.Power
import Mathlib.Algebra.Order.Field.Rat
import Mathlib.Data.List.TakeWhile
import Mathlib.Tactic.FieldSimp
import Mathlib.Tactic.Linarith
import Mathlib.Tactic.LinearCombination
import Mathlib.Tactic.NormNum
import Mathlib.Tactic.Positivity
import Mathlib.Tactic.Ring
import Notebook.Json.Shortest

namespace Notebook.Double

variable {a b d : Double} {q : ℚ} {n : Nat} {p : Int}

/-! ## §1. Standard form. -/

/-- Whether the significand has its 53 bits, or the exponent is the least one. -/
def isStandard (d : Double) : Bool :=
  decide (minExponent ≤ d.exponent) && decide (d.exponent ≤ maxExponent) &&
    decide (d.significand < Nat.pow 2 precision) &&
    (decide (d.exponent = minExponent) || decide (Nat.pow 2 (precision - 1) ≤ d.significand))

theorem isStandard_iff : d.isStandard = true ↔
    (-1074 ≤ d.exponent ∧ d.exponent ≤ 971 ∧ d.significand < 9007199254740992) ∧
      (d.exponent = -1074 ∨ 4503599627370496 ≤ d.significand) := by
  simp only [isStandard, Bool.and_eq_true, Bool.or_eq_true, decide_eq_true_eq, and_assoc]
  rfl

/-! ## §2. The interval of a double. -/

/-- A quarter of the last place. -/
def quarter (d : Double) : ℚ := 2 ^ (d.exponent - 2)

theorem quarter_pos (d : Double) : 0 < d.quarter := by
  unfold quarter
  positivity

/-- The number without its sign. -/
def magnitude (d : Double) : ℚ := d.significand * 2 ^ d.exponent

theorem magnitude_eq (d : Double) : d.magnitude = d.interval.2.1 * d.quarter := by
  have htwo : (2 : ℚ) ^ d.exponent = 2 ^ (d.exponent - 2) * 2 ^ (2 : Int) := by
    rw [← zpow_add₀ (by norm_num)]
    congr 1
    omega
  have hvalue : d.interval.2.1 = 4 * d.significand := rfl
  rw [magnitude, hvalue, quarter, htwo]
  push_cast
  ring

/-- `q` rounds to the magnitude of the double. -/
def Covers (d : Double) (q : ℚ) : Prop :=
  if d.significand % 2 = 0 then
    d.interval.1 * d.quarter ≤ q ∧ q ≤ d.interval.2.2 * d.quarter
  else d.interval.1 * d.quarter < q ∧ q < d.interval.2.2 * d.quarter

theorem Covers.bounds (h : d.Covers q) :
    d.interval.1 * d.quarter ≤ q ∧ q ≤ d.interval.2.2 * d.quarter := by
  unfold Covers at h
  split at h
  · exact h
  · exact ⟨h.1.le, h.2.le⟩

/-- The ends of the interval. -/
theorem interval_eq (d : Double) :
    d.interval.2.2 = 4 * d.significand + 2 ∧
      ((d.significand = 4503599627370496 ∧ -1074 < d.exponent) ∧
          d.interval.1 = 4 * d.significand - 1 ∨
        ¬ (d.significand = 4503599627370496 ∧ -1074 < d.exponent) ∧
          d.interval.1 = 4 * d.significand - 2) := by
  refine ⟨rfl, ?_⟩
  unfold interval
  simp only [Bool.and_eq_true, beq_iff_eq, decide_eq_true_eq]
  split
  · rename_i h
    exact .inl ⟨h, rfl⟩
  · rename_i h
    exact .inr ⟨h, rfl⟩

/-- The intervals of two doubles in standard form do not meet, wherever the first is below the
second. -/
theorem not_covers_of_lt (ha : a.isStandard = true) (hb : b.isStandard = true)
    (hne : 0 < b.significand)
    (hlt : a.exponent < b.exponent ∨ a.exponent = b.exponent ∧ a.significand < b.significand)
    (hqa : a.Covers q) : ¬ b.Covers q := by
  intro hqb
  obtain ⟨⟨hamin, -, hasig⟩, -⟩ := isStandard_iff.1 ha
  obtain ⟨-, hbsig⟩ := isStandard_iff.1 hb
  obtain ⟨hahigh, -⟩ := interval_eq a
  obtain ⟨-, hblow⟩ := interval_eq b
  have hpos := a.quarter_pos
  have hupper := hqa.bounds.2
  have hlower := hqb.bounds.1
  -- no end belongs to an interval around an odd significand
  have hupper' : a.significand % 2 = 1 → q < a.interval.2.2 * a.quarter := by
    intro hodd
    unfold Covers at hqa
    rw [if_neg (by omega)] at hqa
    exact hqa.2
  have hlower' : b.significand % 2 = 1 → b.interval.1 * b.quarter < q := by
    intro hodd
    unfold Covers at hqb
    rw [if_neg (by omega)] at hqb
    exact hqb.1
  rcases hlt with hlt | ⟨heq, hlt⟩
  · -- the quarters of the greater exponent are at least twice as large
    have htwice : 2 * a.quarter ≤ b.quarter := by
      have : (2 : ℚ) * 2 ^ (a.exponent - 2) = 2 ^ (a.exponent - 1) := by
        rw [show a.exponent - 1 = 1 + (a.exponent - 2) by omega, zpow_add₀ (by norm_num), zpow_one]
      rw [quarter, quarter, this]
      exact zpow_le_zpow_right₀ (by norm_num) (by omega)
    have hbig : 4503599627370496 ≤ b.significand := by omega
    have hends : a.interval.2.2 ≤ 2 * b.interval.1 := by omega
    have hcast : (a.interval.2.2 : ℚ) ≤ 2 * b.interval.1 := by exact_mod_cast hends
    have hchain : (a.interval.2.2 : ℚ) * a.quarter ≤ b.interval.1 * b.quarter := by
      calc (a.interval.2.2 : ℚ) * a.quarter ≤ 2 * b.interval.1 * a.quarter :=
            mul_le_mul_of_nonneg_right hcast hpos.le
        _ = b.interval.1 * (2 * a.quarter) := by ring
        _ ≤ b.interval.1 * b.quarter := mul_le_mul_of_nonneg_left htwice (Nat.cast_nonneg _)
    rcases Nat.mod_two_eq_zero_or_one a.significand with heven | hodd
    · have hends : a.interval.2.2 < 2 * b.interval.1 := by omega
      have hcast : (a.interval.2.2 : ℚ) < 2 * b.interval.1 := by exact_mod_cast hends
      have := mul_lt_mul_of_pos_right hcast hpos
      have := mul_le_mul_of_nonneg_left htwice (Nat.cast_nonneg b.interval.1)
      linarith
    · have := hupper' hodd
      linarith
  · have hquarter : b.quarter = a.quarter := by rw [quarter, quarter, heq]
    rw [hquarter] at hlower hlower'
    have hends : a.interval.2.2 ≤ b.interval.1 := by omega
    have hcast : (a.interval.2.2 : ℚ) ≤ b.interval.1 := by exact_mod_cast hends
    have hchain := mul_le_mul_of_nonneg_right hcast hpos.le
    rcases Nat.mod_two_eq_zero_or_one a.significand with heven | hodd
    · rcases Nat.mod_two_eq_zero_or_one b.significand with heven' | hodd
      · have hends : a.interval.2.2 < b.interval.1 := by omega
        have hcast : (a.interval.2.2 : ℚ) < b.interval.1 := by exact_mod_cast hends
        have := mul_lt_mul_of_pos_right hcast hpos
        linarith
      · have := hlower' hodd
        linarith
    · have := hupper' hodd
      linarith

/-- A real rounds to one double only. -/
theorem Covers.eq (ha : a.isStandard = true) (hb : b.isStandard = true)
    (hane : 0 < a.significand) (hbne : 0 < b.significand) (hqa : a.Covers q) (hqb : b.Covers q) :
    a.significand = b.significand ∧ a.exponent = b.exponent := by
  by_contra hne
  have hcases : (a.exponent < b.exponent ∨ a.exponent = b.exponent ∧
      a.significand < b.significand) ∨ b.exponent < a.exponent ∨ b.exponent = a.exponent ∧
      b.significand < a.significand := by omega
  rcases hcases with hlt | hlt
  · exact not_covers_of_lt ha hb hbne hlt hqa hqb
  · exact not_covers_of_lt hb ha hane hlt hqb hqa

/-! ## §3. Neighbours on a decimal grid. -/

/-- A power as a fraction of powers that are natural numbers. -/
theorem zpow_toNat (x : ℚ) (hx : x ≠ 0) (n : Int) : x ^ n * x ^ (-n).toNat = x ^ n.toNat := by
  rw [← zpow_natCast, ← zpow_natCast, ← zpow_add₀ hx]
  congr 1
  omega

theorem stepsOf_den (units : Nat) (exponent power : Int) :
    0 < ((stepsOf units exponent power).2 : ℚ) := by
  unfold stepsOf
  simp only [Nat.pow_eq]
  positivity

/-- Counting steps is division by the width of a step. -/
theorem stepsOf_eq (d : Double) (units : Nat) (power : Int) :
    ((stepsOf units d.exponent power).1 : ℚ) * 10 ^ power =
      units * d.quarter * (stepsOf units d.exponent power).2 := by
  have htwo := zpow_toNat 2 (by norm_num) (d.exponent - 2)
  have hten := zpow_toNat 10 (by norm_num) power
  unfold stepsOf quarter
  simp only [Nat.pow_eq]
  push_cast
  rw [← htwo, ← hten]
  ring

/-- Comparing with a number of steps is comparing with their width. -/
theorem stepsOf_le_iff (d : Double) (units steps : Nat) (power : Int) :
    (stepsOf units d.exponent power).1 ≤ steps * (stepsOf units d.exponent power).2 ↔
      units * d.quarter ≤ steps * 10 ^ power := by
  have hpower : (0 : ℚ) < 10 ^ power := by positivity
  have hden := stepsOf_den units d.exponent power
  rw [← Nat.cast_le (α := ℚ), ← mul_le_mul_iff_left₀ hpower, stepsOf_eq]
  push_cast
  rw [mul_right_comm (steps : ℚ), mul_le_mul_iff_left₀ hden]

theorem le_stepsOf_iff (d : Double) (units steps : Nat) (power : Int) :
    steps * (stepsOf units d.exponent power).2 ≤ (stepsOf units d.exponent power).1 ↔
      steps * 10 ^ power ≤ units * d.quarter := by
  have hpower : (0 : ℚ) < 10 ^ power := by positivity
  have hden := stepsOf_den units d.exponent power
  rw [← Nat.cast_le (α := ℚ), ← mul_le_mul_iff_left₀ hpower, stepsOf_eq]
  push_cast
  rw [mul_right_comm (steps : ℚ), mul_le_mul_iff_left₀ hden]

/-- Whether so many steps of `10 ^ power` round to the double. -/
def covers? (d : Double) (power : Int) (steps : Nat) : Bool :=
  let (low, _, high) := d.interval
  let (lowNum, den) := stepsOf low d.exponent power
  let (highNum, _) := stepsOf high d.exponent power
  if d.significand % 2 == 0 then
    decide (lowNum ≤ steps * den) && decide (steps * den ≤ highNum)
  else decide (lowNum < steps * den) && decide (steps * den < highNum)

theorem covers?_iff (d : Double) (power : Int) (steps : Nat) :
    d.covers? power steps = true ↔ d.Covers (steps * 10 ^ power) := by
  have hlow := stepsOf_le_iff d d.interval.1 steps power
  have hhigh := le_stepsOf_iff d d.interval.2.2 steps power
  have hlow' := le_stepsOf_iff d d.interval.1 steps power
  have hhigh' := stepsOf_le_iff d d.interval.2.2 steps power
  unfold covers? Covers
  rw [← hlow, ← hhigh, ← not_le (b := (d.interval.1 * d.quarter : ℚ)), ← hlow',
    ← not_le (a := (d.interval.2.2 * d.quarter : ℚ)), ← hhigh']
  simp only [beq_iff_eq]
  split
  · simp only [Bool.and_eq_true, decide_eq_true_eq]
    rfl
  · simp only [Bool.and_eq_true, decide_eq_true_eq, not_le]
    rfl

/-- The steps of `10 ^ power` just below the double. -/
def stepsBelow (d : Double) (power : Int) : Nat :=
  (stepsOf d.interval.2.1 d.exponent power).1 / (stepsOf d.interval.2.1 d.exponent power).2

/-- A neighbour is found when one of the two neighbours on the grid rounds to the double, and it
does. -/
theorem neighbour?_cases (d : Double) (power : Int) :
    (d.neighbour? power = none ∧ d.covers? power (d.stepsBelow power) = false ∧
        d.covers? power (d.stepsBelow power + 1) = false) ∨
      ∃ steps, d.neighbour? power = some steps ∧ d.covers? power steps = true := by
  unfold neighbour?
  dsimp only
  split
  · rename_i hbelow habove
    exact .inl ⟨rfl, hbelow, habove⟩
  · rename_i hbelow _
    exact .inr ⟨_, rfl, hbelow⟩
  · rename_i _ habove
    exact .inr ⟨_, rfl, habove⟩
  · -- both round back: the nearer one counts, or the even one
    rename_i hbelow habove
    refine .inr ?_
    split
    · exact ⟨_, rfl, hbelow⟩
    · split
      · exact ⟨_, rfl, habove⟩
      · split
        · exact ⟨_, rfl, hbelow⟩
        · exact ⟨_, rfl, habove⟩

theorem le_low_of_not_covers (h : ¬ d.Covers q) (hq : q < d.interval.2.2 * d.quarter) :
    q ≤ d.interval.1 * d.quarter := by
  by_contra hlow
  refine h ?_
  unfold Covers
  split
  · exact ⟨(not_le.1 hlow).le, hq.le⟩
  · exact ⟨not_le.1 hlow, hq⟩

theorem high_le_of_not_covers (h : ¬ d.Covers q) (hq : d.interval.1 * d.quarter < q) :
    d.interval.2.2 * d.quarter ≤ q := by
  by_contra hhigh
  refine h ?_
  unfold Covers
  split
  · exact ⟨hq.le, (not_le.1 hhigh).le⟩
  · exact ⟨hq, not_le.1 hhigh⟩

/-- On a grid that is finer than the interval is wide, there is a neighbour. -/
theorem exists_neighbour?
    (hfine : (10 : ℚ) ^ p < (d.interval.2.2 - d.interval.1) * d.quarter) :
    ∃ steps, d.neighbour? p = some steps ∧ d.covers? p steps = true := by
  rcases neighbour?_cases d p with ⟨-, hbelow, habove⟩ | h
  · exfalso
    rw [Bool.eq_false_iff, ne_eq, covers?_iff] at hbelow habove
    have hden : 0 < (stepsOf d.interval.2.1 d.exponent p).2 := by
      exact_mod_cast stepsOf_den d.interval.2.1 d.exponent p
    -- the double lies between its neighbours, and inside its interval
    have hle := (le_stepsOf_iff d d.interval.2.1 (d.stepsBelow p) p).1 (Nat.div_mul_le_self ..)
    have hlt : (d.interval.2.1 * d.quarter : ℚ) < (d.stepsBelow p + 1 : Nat) * 10 ^ p := by
      rw [← not_le, ← le_stepsOf_iff, not_le]
      exact Nat.lt_mul_of_div_lt (Nat.lt_succ_self _) hden
    have hinside : d.interval.1 ≤ d.interval.2.1 ∧ d.interval.2.1 < d.interval.2.2 := by
      obtain ⟨hhigh, hlow⟩ := interval_eq d
      have hvalue : d.interval.2.1 = 4 * d.significand := rfl
      omega
    have hpos := d.quarter_pos
    have hlow : (d.interval.1 * d.quarter : ℚ) ≤ d.interval.2.1 * d.quarter :=
      mul_le_mul_of_nonneg_right (by exact_mod_cast hinside.1) hpos.le
    have hhigh : (d.interval.2.1 * d.quarter : ℚ) < d.interval.2.2 * d.quarter :=
      mul_lt_mul_of_pos_right (by exact_mod_cast hinside.2) hpos
    have hbelow' := le_low_of_not_covers hbelow (hle.trans_lt hhigh)
    have habove' := high_le_of_not_covers habove (hlow.trans_lt hlt)
    push_cast at habove'
    linarith
  · exact h

/-! ## §4. Seventeen digits suffice. -/

/-- The ratio of a double is its magnitude. -/
theorem ratio_eq (d : Double) : (d.ratio.1 : ℚ) = d.magnitude * d.ratio.2 := by
  obtain ⟨negative, significand, exponent⟩ := d
  unfold ratio magnitude
  cases exponent with
  | ofNat e =>
    simp only [Nat.pow_eq, Int.ofNat_eq_natCast, zpow_natCast]
    push_cast
    ring
  | negSucc e =>
    simp only [Nat.pow_eq, zpow_negSucc]
    push_cast
    rw [mul_assoc, inv_mul_cancel₀ (by positivity), mul_one]

/-- The denominators of doubles are powers of two up to the least exponent. -/
theorem ratio_den (hd : d.isStandard = true) {shift : Nat} (hshift : 358 ≤ shift) :
    0 < d.ratio.2 ∧ d.ratio.2 ≤ 10 ^ shift := by
  obtain ⟨⟨hmin, -, -⟩, -⟩ := isStandard_iff.1 hd
  obtain ⟨negative, significand, exponent⟩ := d
  unfold ratio
  cases exponent with
  | ofNat e => exact ⟨Nat.one_pos, Nat.one_le_pow _ _ (by norm_num)⟩
  | negSucc e =>
    have he : e + 1 ≤ 3 * shift := by
      dsimp only at hmin
      omega
    refine ⟨Nat.pow_pos (by norm_num), ?_⟩
    calc 2 ^ (e + 1) ≤ 2 ^ (3 * shift) := Nat.pow_le_pow_right (by norm_num) he
      _ = 8 ^ shift := by rw [pow_mul]; rfl
      _ ≤ 10 ^ shift := Nat.pow_le_pow_left (by norm_num) shift

theorem pow_length_digits_le (hn : 0 < n) : 10 ^ ((digits n).length - 1) ≤ n := by
  rcases Nat.eq_zero_or_pos ((digits n).length - 1) with h | h
  · rw [h]
    exact hn
  · by_contra hlt
    have := (Nat.length_toDigits_le_iff (by norm_num) h).2 (not_le.1 hlt)
    unfold digits at this h
    omega

/-- The first digit of a fraction, found in the digits of its whole part after a shift. -/
theorem pow_leading_le {num den shift : Nat} (hnum : 0 < num) (hden : 0 < den)
    (hshift : den ≤ 10 ^ shift) :
    (10 : ℚ) ^ (((digits (num * 10 ^ shift / den)).length : Int) - 1 - shift) * den ≤ num := by
  have hquotient : 0 < num * 10 ^ shift / den :=
    Nat.div_pos (hshift.trans (Nat.le_mul_of_pos_left _ hnum)) hden
  have hlead := pow_length_digits_le hquotient
  have hlength : 0 < (digits (num * 10 ^ shift / den)).length := Nat.length_toDigits_pos
  generalize (digits (num * 10 ^ shift / den)).length = length at hlead hlength ⊢
  have hmul : ((10 ^ (length - 1) * den : Nat) : ℚ) ≤ (num * 10 ^ shift : Nat) := by
    exact_mod_cast (Nat.le_div_iff_mul_le hden).1 hlead
  push_cast at hmul
  rw [show (length : Int) - 1 - shift = (length - 1 : Nat) - (shift : Int) by omega,
    zpow_sub₀ (by norm_num), zpow_natCast, zpow_natCast, div_mul_eq_mul_div,
    div_le_iff₀ (by positivity)]
  exact hmul

/-- The leading power is read off after a shift that no double needs. -/
theorem leadingPower_eq (d : Double) : ∃ shift, 358 ≤ shift ∧ d.leadingPower =
    ((digits (d.ratio.1 * Nat.pow 10 shift / d.ratio.2)).length : Int) - 1 - shift := by
  unfold leadingPower
  generalize hshift : (400 : Nat) = shift
  exact ⟨shift, by omega, rfl⟩

/-- The leading power is not above the first digit. -/
theorem leadingPower_le (hd : d.isStandard = true) (hne : 0 < d.significand) :
    (10 : ℚ) ^ d.leadingPower ≤ d.magnitude := by
  obtain ⟨shift, hshift, heq⟩ := leadingPower_eq d
  obtain ⟨hden, hbound⟩ := ratio_den hd hshift
  have hpos : (0 : ℚ) < d.ratio.2 := by exact_mod_cast hden
  have hnum : 0 < d.ratio.1 := by
    have hmagnitude : 0 < d.magnitude := by
      unfold magnitude
      positivity
    have : (0 : ℚ) < d.ratio.1 := by
      rw [ratio_eq]
      exact mul_pos hmagnitude hpos
    exact_mod_cast this
  have hlead := pow_leading_le hnum hden hbound
  rw [ratio_eq] at hlead
  rw [heq]
  exact le_of_mul_le_mul_right hlead hpos

/-- The grid of the seventeenth digit is finer than the interval is wide. -/
theorem grid_fine (hd : d.isStandard = true) (hne : 0 < d.significand) :
    (10 : ℚ) ^ (d.leadingPower - 16) < (d.interval.2.2 - d.interval.1) * d.quarter := by
  obtain ⟨⟨-, -, hsig⟩, -⟩ := isStandard_iff.1 hd
  have hleading := leadingPower_le hd hne
  have hpos := d.quarter_pos
  rw [magnitude_eq, show d.interval.2.1 = 4 * d.significand from rfl] at hleading
  have hgrid : (10 : ℚ) ^ (d.leadingPower - 16) * 10000000000000000 = 10 ^ d.leadingPower := by
    rw [show (10000000000000000 : ℚ) = 10 ^ (16 : Int) by norm_num, ← zpow_add₀ (by norm_num)]
    congr 1
    omega
  obtain ⟨hhigh, hlow⟩ := interval_eq d
  have hwidth : (4 * d.significand : ℚ) < 10000000000000000 * (d.interval.2.2 - d.interval.1) := by
    have hnat : 4 * d.significand + 10000000000000000 * d.interval.1 <
        10000000000000000 * d.interval.2.2 := by omega
    have : (4 * d.significand + 10000000000000000 * d.interval.1 : ℚ) <
        10000000000000000 * d.interval.2.2 := by exact_mod_cast hnat
    linarith
  have hscaled := mul_lt_mul_of_pos_right hwidth hpos
  push_cast at hleading
  linarith

theorem covers_shortestFrom {leading : Int} {tries count : Nat}
    (h : ∃ steps, d.neighbour? (leading + 1 - (count + tries : Nat)) = some steps ∧
      d.covers? (leading + 1 - (count + tries : Nat)) steps = true) :
    d.Covers ((shortestFrom d leading (tries + 1) count).1 *
      10 ^ (shortestFrom d leading (tries + 1) count).2) := by
  induction tries generalizing count with
  | zero =>
    obtain ⟨steps, hsome, hcovers⟩ := h
    rw [Nat.add_zero] at hsome hcovers
    unfold shortestFrom
    dsimp only
    rw [hsome]
    exact (covers?_iff ..).1 hcovers
  | succ tries ih =>
    unfold shortestFrom
    dsimp only
    rcases neighbour?_cases d (leading + 1 - count) with ⟨hnone, -, -⟩ | ⟨steps, hsome, hcovers⟩
    · rw [hnone]
      refine ih ?_
      rw [Nat.add_right_comm, Nat.add_assoc] at *
      exact h
    · rw [hsome]
      exact (covers?_iff ..).1 hcovers

/-- The digits that are written for a double round to it. -/
theorem covers_shortest (hd : d.isStandard = true) (hne : 0 < d.significand) :
    d.Covers (d.shortest.1 * 10 ^ d.shortest.2) := by
  refine covers_shortestFrom (exists_neighbour? ?_)
  have hpower : d.leadingPower + 1 - (1 + 16 : Nat) = d.leadingPower - 16 := by omega
  rw [hpower]
  exact grid_fine hd hne

/-! ## §5. What a text says. -/

/-- The exponent with its sign, read back. -/
def exponentOf : List Char → Int
  | '+' :: ds => Nat.ofDigitChars 10 ds 0
  | '-' :: ds => -(Nat.ofDigitChars 10 ds 0 : Int)
  | _ => 0

/-- The number that digits with a point, an exponent or both stand for. -/
def magnitudeOf (text : List Char) : ℚ :=
  let mantissa := text.takeWhile (· != 'e')
  let exponent := exponentOf ((text.dropWhile (· != 'e')).drop 1)
  let whole := mantissa.takeWhile (· != '.')
  let fraction := (mantissa.dropWhile (· != '.')).drop 1
  Nat.ofDigitChars 10 (whole ++ fraction) 0 * 10 ^ (exponent - fraction.length)

/-- Nothing but digits. -/
def AllDigits (ds : List Char) : Prop := ∀ c ∈ ds, c.isDigit = true

theorem AllDigits.ne {ds : List Char} (h : AllDigits ds) {c : Char} (hc : c ∈ ds) :
    c ≠ 'e' ∧ c ≠ '.' := by
  have := h c hc
  constructor <;> (rintro rfl; revert this; decide)

theorem allDigits_digits (n : Nat) : AllDigits (digits n) := by
  intro c hc
  exact Nat.isDigit_of_mem_toDigits (by norm_num) (by norm_num) hc

theorem exponentOf_exponentText (e : Int) : exponentOf (exponentText e) = e := by
  cases e with
  | ofNat n => exact congrArg Int.ofNat Nat.ofDigitChars_ten_toDigits
  | negSucc n =>
    show -((Nat.ofDigitChars 10 (digits (n + 1)) 0 : Nat) : Int) = _
    rw [show Nat.ofDigitChars 10 (digits (n + 1)) 0 = n + 1 from Nat.ofDigitChars_ten_toDigits]
    rfl

variable {whole fraction ds : List Char}

/-- Digits around a point. -/
theorem magnitudeOf_point (hw : AllDigits whole) (hf : AllDigits fraction) :
    magnitudeOf (whole ++ '.' :: fraction) =
      Nat.ofDigitChars 10 (whole ++ fraction) 0 * 10 ^ (-fraction.length : Int) := by
  have hwe : ∀ c ∈ whole, (c != 'e') = true := fun c hc => by simpa using (hw.ne hc).1
  have hfe : ∀ c ∈ fraction, (c != 'e') = true := fun c hc => by simpa using (hf.ne hc).1
  have hwp : ∀ c ∈ whole, (c != '.') = true := fun c hc => by simpa using (hw.ne hc).2
  have htake : (whole ++ '.' :: fraction).takeWhile (· != 'e') = whole ++ '.' :: fraction := by
    rw [List.takeWhile_append_of_pos hwe, List.takeWhile_cons_of_pos (by decide),
      List.takeWhile_eq_self_iff.2 hfe]
  have hdrop : (whole ++ '.' :: fraction).dropWhile (· != 'e') = [] := by
    rw [List.dropWhile_append_of_pos hwe, List.dropWhile_cons_of_pos (by decide),
      List.dropWhile_eq_nil_iff.2 hfe]
  unfold magnitudeOf
  dsimp only
  rw [htake, hdrop, List.takeWhile_append_of_pos hwp, List.dropWhile_append_of_pos hwp]
  simp [exponentOf]

/-- Digits around a point, with an exponent. -/
theorem magnitudeOf_point_exponent (hw : AllDigits whole) (hf : AllDigits fraction) (e : Int) :
    magnitudeOf (whole ++ '.' :: fraction ++ 'e' :: exponentText e) =
      Nat.ofDigitChars 10 (whole ++ fraction) 0 * 10 ^ (e - fraction.length) := by
  have hwp : ∀ c ∈ whole, (c != '.') = true := fun c hc => by simpa using (hw.ne hc).2
  have hme : ∀ c ∈ whole ++ '.' :: fraction, (c != 'e') = true := by
    intro c hc
    simp only [List.mem_append, List.mem_cons] at hc
    rcases hc with hc | rfl | hc
    · simpa using (hw.ne hc).1
    · decide
    · simpa using (hf.ne hc).1
  unfold magnitudeOf
  dsimp only
  rw [List.takeWhile_append_of_pos hme, List.dropWhile_append_of_pos hme]
  simp [List.takeWhile_append_of_pos hwp, List.dropWhile_append_of_pos hwp,
    exponentOf_exponentText]

/-- One digit with an exponent. -/
theorem magnitudeOf_exponent (hw : AllDigits whole) (e : Int) :
    magnitudeOf (whole ++ 'e' :: exponentText e) = Nat.ofDigitChars 10 whole 0 * 10 ^ e := by
  have hwe : ∀ c ∈ whole, (c != 'e') = true := fun c hc => by simpa using (hw.ne hc).1
  have hwp : ∀ c ∈ whole, (c != '.') = true := fun c hc => by simpa using (hw.ne hc).2
  unfold magnitudeOf
  dsimp only
  rw [List.takeWhile_append_of_pos hwe, List.dropWhile_append_of_pos hwe]
  simp [List.takeWhile_eq_self_iff.2 hwp, List.dropWhile_eq_nil_iff.2 hwp,
    exponentOf_exponentText]

/-- The text of digits gives their value back. -/
theorem magnitudeOf_layOut (style : Layout) (hds : AllDigits ds) (hne : ds ≠ []) (power : Int) :
    magnitudeOf (layOut style ds power) = Nat.ofDigitChars 10 ds 0 * 10 ^ power := by
  have hlength := List.length_pos_iff.2 hne
  unfold layOut
  dsimp only
  split
  · split
    · rename_i hpower
      -- zeros behind the digits raise their value
      have hzeros : AllDigits (ds ++ List.replicate power.toNat '0') := by
        intro c hc
        rcases List.mem_append.1 hc with hc | hc
        · exact hds c hc
        · rw [List.eq_of_mem_replicate hc]
          decide
      have hzero : AllDigits ['0'] := by simp [AllDigits]
      have hraise : (10 : ℚ) ^ power = 10 ^ power.toNat := by
        rw [← zpow_natCast, Int.toNat_of_nonneg hpower]
      rw [magnitudeOf_point hzeros hzero, Nat.ofDigitChars_append, Nat.ofDigitChars_append,
        Nat.ofDigitChars_replicate_zero, hraise]
      simp [Nat.ofDigitChars_cons]
      ring
    · split
      · rename_i hpower hleading
        rw [magnitudeOf_point (fun c hc => hds c (List.mem_of_mem_take hc))
          (fun c hc => hds c (List.mem_of_mem_drop hc)), List.take_append_drop]
        congr 2
        rw [List.length_drop]
        omega
      · rename_i hpower hleading
        -- zeros between the point and the digits lower it
        have hzero : AllDigits ['0'] := by simp [AllDigits]
        have hzeros : AllDigits
            (List.replicate (-(power + ds.length - 1) - 1).toNat '0' ++ ds) := by
          intro c hc
          rcases List.mem_append.1 hc with hc | hc
          · rw [List.eq_of_mem_replicate hc]
            decide
          · exact hds c hc
        refine (magnitudeOf_point hzero hzeros).trans ?_
        rw [Nat.ofDigitChars_append, Nat.ofDigitChars_append, Nat.ofDigitChars_replicate_zero]
        congr 2
        rw [List.length_append, List.length_replicate]
        omega
  -- in scientific form the point stands behind the first digit, if there are others
  · match ds, hne with
    | [d], _ =>
      refine (magnitudeOf_exponent hds _).trans ?_
      congr 2
      simp
    | d :: e :: rest, _ =>
      have hfirst : AllDigits [d] := by simpa [AllDigits] using hds d (List.mem_cons_self ..)
      have hothers : AllDigits (e :: rest) := fun c hc => hds c (List.mem_cons_of_mem _ hc)
      refine (magnitudeOf_point_exponent hfirst hothers _).trans ?_
      congr 2
      simp only [List.length_cons]
      push_cast
      omega

/-! ## §6. Texts. -/

/-- The characters of numbers. -/
def isNumeral (c : Char) : Bool := c.isDigit || ['.', 'e', '+', '-'].contains c

theorem isNumeral_of_isDigit {c : Char} (h : c.isDigit = true) : isNumeral c = true := by
  simp [isNumeral, h]

theorem exponentText_numerals (e : Int) : ∀ c ∈ exponentText e, isNumeral c = true := by
  intro c hc
  cases e with
  | ofNat n =>
    rcases List.mem_cons.1 hc with rfl | hc
    · decide
    · exact isNumeral_of_isDigit (allDigits_digits _ c hc)
  | negSucc n =>
    rcases List.mem_cons.1 hc with rfl | hc
    · decide
    · exact isNumeral_of_isDigit (allDigits_digits _ c hc)

/-- A text of digits begins with one, and has a point or an exponent. -/
theorem layOut_form (style : Layout) (hds : AllDigits ds) (hne : ds ≠ []) (power : Int) :
    (∃ c rest, layOut style ds power = c :: rest ∧ c.isDigit = true) ∧
      (∀ c ∈ layOut style ds power, isNumeral c = true) ∧
      ('.' ∈ layOut style ds power ∨ 'e' ∈ layOut style ds power) := by
  have hnumerals : ∀ c ∈ ds, isNumeral c = true := fun c hc => isNumeral_of_isDigit (hds c hc)
  have hpoint : isNumeral '.' = true := by decide
  have hletter : isNumeral 'e' = true := by decide
  have hzero : ∀ n, ∀ c ∈ List.replicate n '0', isNumeral c = true := by
    intro n c hc
    rw [List.eq_of_mem_replicate hc]
    decide
  obtain ⟨first, others, rfl⟩ := List.exists_cons_of_ne_nil hne
  have hfirst := hds first (List.mem_cons_self ..)
  unfold layOut
  dsimp only
  split
  · split
    · refine ⟨⟨first, _, rfl, hfirst⟩, fun c hc => ?_, .inl (by simp)⟩
      simp only [List.mem_append] at hc
      rcases hc with (hc | hc) | hc
      · exact hnumerals c hc
      · exact hzero _ c hc
      · rcases List.mem_cons.1 hc with rfl | hc
        · exact hpoint
        · rw [List.mem_singleton.1 hc]
          decide
    · split
      · refine ⟨⟨first, _, by rw [List.take_succ_cons]; rfl, hfirst⟩, fun c hc => ?_,
          .inl (by simp)⟩
        rcases List.mem_append.1 hc with hc | hc
        · exact hnumerals c (List.mem_of_mem_take hc)
        · rcases List.mem_cons.1 hc with rfl | hc
          · exact hpoint
          · exact hnumerals c (List.mem_of_mem_drop hc)
      · refine ⟨⟨'0', _, rfl, by decide⟩, fun c hc => ?_, .inl (by simp)⟩
        rw [List.mem_append, List.mem_cons, List.mem_cons] at hc
        rcases hc with (rfl | rfl | hc) | hc
        · decide
        · exact hpoint
        · exact hzero _ c hc
        · exact hnumerals c hc
  · match others with
    | [] =>
      refine ⟨⟨first, _, rfl, hfirst⟩, fun c hc => ?_, .inr (by simp)⟩
      rcases List.mem_cons.1 hc with rfl | hc
      · exact hnumerals _ (List.mem_cons_self ..)
      · rcases List.mem_cons.1 hc with rfl | hc
        · exact hletter
        · exact exponentText_numerals _ c hc
    | second :: others =>
      refine ⟨⟨first, _, rfl, hfirst⟩, fun c hc => ?_, .inr (by simp)⟩
      simp only [List.mem_append, List.mem_cons] at hc
      rcases hc with (rfl | rfl | rfl | hc) | rfl | hc
      · exact hnumerals _ (by simp)
      · exact hpoint
      · exact hnumerals _ (by simp)
      · exact hnumerals c (by simp [hc])
      · exact hletter
      · exact exponentText_numerals _ c hc

/-- Zeros at the end are given back by the power. -/
theorem trimZeros_eq (ds : List Char) (power : Int) : ∃ zeros : Nat,
    ds = (trimZeros ds power).1 ++ List.replicate zeros '0' ∧
      (trimZeros ds power).2 = power + zeros := by
  have hends : ∀ c ∈ ds.reverse.takeWhile (· == '0'), c = '0' := by
    intro c hc
    simpa using List.mem_takeWhile_imp hc
  have hsplit : ds = (ds.reverse.dropWhile (· == '0')).reverse ++
      (ds.reverse.takeWhile (· == '0')).reverse := by
    rw [← List.reverse_append, List.takeWhile_append_dropWhile, List.reverse_reverse]
  rw [List.eq_replicate_of_mem hends, List.reverse_replicate] at hsplit
  refine ⟨_, hsplit, ?_⟩
  have hlength := congrArg List.length hsplit
  rw [List.length_append, List.length_replicate] at hlength
  unfold trimZeros
  dsimp only
  omega

/-- The text without a sign. -/
def written (d : Double) : List Char :=
  if d.isZero then ['0', '.', '0'] else
  let (n, power) := d.shortest
  let (ds, power) := trimZeros (digits n) power
  layOut layout ds power

theorem text_eq (d : Double) :
    d.text = String.ofList (if d.negative then '-' :: d.written else d.written) := rfl

/-- What is written for a double that is not zero: digits of a number that rounds to it. -/
theorem exists_digits (hd : d.isStandard = true) (hne : 0 < d.significand) :
    ∃ ds power, d.written = layOut layout ds power ∧ AllDigits ds ∧ ds ≠ [] ∧
      0 < (Nat.ofDigitChars 10 ds 0 * 10 ^ power : ℚ) ∧
      d.Covers (Nat.ofDigitChars 10 ds 0 * 10 ^ power) := by
  have hcovers := covers_shortest hd hne
  obtain ⟨zeros, hsplit, hpower⟩ := trimZeros_eq (digits d.shortest.1) d.shortest.2
  have hvalue : (Nat.ofDigitChars 10 (trimZeros (digits d.shortest.1) d.shortest.2).1 0 *
      10 ^ (trimZeros (digits d.shortest.1) d.shortest.2).2 : ℚ) =
        d.shortest.1 * 10 ^ d.shortest.2 := by
    have hn : Nat.ofDigitChars 10 (digits d.shortest.1) 0 = d.shortest.1 :=
      Nat.ofDigitChars_ten_toDigits
    -- the zeros that were cut off are made up for by the power
    rw [hsplit, Nat.ofDigitChars_append, Nat.ofDigitChars_replicate_zero] at hn
    have hcast : (10 ^ zeros * Nat.ofDigitChars 10 (trimZeros (digits d.shortest.1)
        d.shortest.2).1 0 : ℚ) = d.shortest.1 := by exact_mod_cast hn
    rw [hpower, zpow_add₀ (by norm_num), zpow_natCast]
    linear_combination 10 ^ d.shortest.2 * hcast
  have hpos : (0 : ℚ) < d.shortest.1 * 10 ^ d.shortest.2 := by
    obtain ⟨-, hlow⟩ := interval_eq d
    -- the interval of a double that is not zero keeps clear of zero
    have hends : 0 < d.interval.1 := by omega
    have := mul_pos (Nat.cast_pos (α := ℚ).2 hends) d.quarter_pos
    exact this.trans_le hcovers.bounds.1
  refine ⟨_, _, ?_, fun c hc => ?_, fun hnil => ?_, hvalue ▸ hpos, hvalue ▸ hcovers⟩
  · unfold written
    rw [if_neg (by simp [isZero, hne.ne'])]
  · refine allDigits_digits d.shortest.1 c ?_
    rw [hsplit]
    exact List.mem_append_left _ hc
  · rw [hnil] at hvalue
    simp only [Nat.ofDigitChars_nil, Nat.cast_zero, zero_mul] at hvalue
    exact hpos.ne hvalue

theorem written_zero (h : d.significand = 0) : d.written = ['0', '.', '0'] := by
  unfold written
  rw [if_pos (by simp [isZero, h])]

/-- The text of a double gives back what rounds to it. -/
theorem magnitudeOf_written (hd : d.isStandard = true) (hne : 0 < d.significand) :
    0 < magnitudeOf d.written ∧ d.Covers (magnitudeOf d.written) := by
  obtain ⟨ds, power, hwritten, hds, hnil, hpos, hcovers⟩ := exists_digits hd hne
  rw [hwritten, magnitudeOf_layOut layout hds hnil]
  exact ⟨hpos, hcovers⟩

theorem magnitudeOf_written_zero (h : d.significand = 0) : magnitudeOf d.written = 0 := by
  have hzero : AllDigits ['0'] := by simp [AllDigits]
  rw [written_zero h]
  refine (magnitudeOf_point hzero hzero).trans ?_
  simp [Nat.ofDigitChars_cons]

/-- The text of a double begins with a digit, and has a point or an exponent. -/
theorem written_form (hd : d.isStandard = true) :
    (∃ c rest, d.written = c :: rest ∧ c.isDigit = true) ∧
      (∀ c ∈ d.written, isNumeral c = true) ∧ ('.' ∈ d.written ∨ 'e' ∈ d.written) := by
  rcases Nat.eq_zero_or_pos d.significand with hzero | hne
  · rw [written_zero hzero]
    have hnumerals : (['0'] ++ '.' :: ['0']).all isNumeral = true := by decide
    exact ⟨⟨'0', _, rfl, by decide⟩, List.all_eq_true.1 hnumerals, .inl (by decide)⟩
  · obtain ⟨ds, power, hwritten, hds, hnil, -⟩ := exists_digits hd hne
    rw [hwritten]
    exact layOut_form layout hds hnil power

/-- Two doubles with the same digits written are alike up to their signs. -/
theorem eq_of_written (ha : a.isStandard = true) (hb : b.isStandard = true)
    (h : a.written = b.written) : a.significand = b.significand ∧ a.exponent = b.exponent := by
  have hexponent : ∀ {d : Double}, d.isStandard = true → d.significand = 0 →
      d.exponent = -1074 := by
    intro d hd hzero
    obtain ⟨-, hleast⟩ := isStandard_iff.1 hd
    omega
  rcases Nat.eq_zero_or_pos a.significand with hazero | hane <;>
    rcases Nat.eq_zero_or_pos b.significand with hbzero | hbne
  · exact ⟨hazero.trans hbzero.symm, (hexponent ha hazero).trans (hexponent hb hbzero).symm⟩
  -- zero is written like no other double
  · have hpos := (magnitudeOf_written hb hbne).1
    rw [← h, magnitudeOf_written_zero hazero] at hpos
    exact absurd hpos (lt_irrefl 0)
  · have hpos := (magnitudeOf_written ha hane).1
    rw [h, magnitudeOf_written_zero hbzero] at hpos
    exact absurd hpos (lt_irrefl 0)
  · have hcovers := (magnitudeOf_written ha hane).2
    rw [h] at hcovers
    exact hcovers.eq ha hb hane hbne (magnitudeOf_written hb hbne).2

/-- The characters of the text of a double: a sign if there is one, and digits. -/
theorem toList_text (d : Double) :
    d.text.toList = if d.negative then '-' :: d.written else d.written := by
  rw [text_eq, String.toList_ofList]

/-- Two doubles with one text are one double. -/
theorem text_injective (ha : a.isStandard = true) (hb : b.isStandard = true)
    (h : a.text = b.text) : a = b := by
  have hlist := congrArg String.toList h
  rw [toList_text, toList_text] at hlist
  obtain ⟨⟨first, rest, hawritten, hafirst⟩, -⟩ := written_form ha
  obtain ⟨⟨first', rest', hbwritten, hbfirst⟩, -⟩ := written_form hb
  have hminus : ¬ ('-').isDigit = true := by decide
  have hsign : a.negative = b.negative ∧ a.written = b.written := by
    cases hasign : a.negative <;> cases hbsign : b.negative <;> rw [hasign, hbsign] at hlist
    · exact ⟨rfl, hlist⟩
    -- a sign is no digit, and every text begins with a digit behind its sign
    · rw [if_neg Bool.false_ne_true, if_pos rfl, hawritten] at hlist
      rw [(List.cons.inj hlist).1] at hafirst
      exact absurd hafirst hminus
    · rw [if_neg Bool.false_ne_true, if_pos rfl, hbwritten] at hlist
      rw [← (List.cons.inj hlist).1] at hbfirst
      exact absurd hbfirst hminus
    · exact ⟨rfl, (List.cons.inj hlist).2⟩
  obtain ⟨hsig, hexp⟩ := eq_of_written ha hb hsign.2
  have hneg := hsign.1
  cases a
  cases b
  simp_all

end Notebook.Double
