import Mathlib.Data.Int.ConditionallyCompleteOrder
import Mathlib.Data.Int.Log
import Mathlib.Data.Rat.Floor
import Mathlib.Tactic.Linarith

/-! # Rounding of rationals

To the nearest integer, toward zero, and to the nearest number with 53 significant
bits, which is what one operation on floats of double precision gives away from the
ends of their range.
-/

namespace LiveQuiz

set_option autoImplicit false

/-- Python's `round`: to the nearest integer, ties to the even one. -/
def roundHalfEven (x : ℚ) : ℤ :=
  let r := x - ⌊x⌋
  if r < 1 / 2 then ⌊x⌋
  else if 1 / 2 < r then ⌊x⌋ + 1
  else if ⌊x⌋ % 2 = 0 then ⌊x⌋ else ⌊x⌋ + 1

theorem floor_le_roundHalfEven (x : ℚ) : ⌊x⌋ ≤ roundHalfEven x := by
  simp only [roundHalfEven]
  split_ifs <;> omega

theorem roundHalfEven_le_floor_add_one (x : ℚ) : roundHalfEven x ≤ ⌊x⌋ + 1 := by
  simp only [roundHalfEven]
  split_ifs <;> omega

@[simp] theorem roundHalfEven_intCast (n : ℤ) : roundHalfEven n = n := by
  simp [roundHalfEven]

/-- Within one unit interval only the distance from its lower end matters. -/
theorem roundHalfEven_le_of_floor_eq {x y : ℚ} (hFloor : ⌊x⌋ = ⌊y⌋) (hle : x ≤ y) :
    roundHalfEven x ≤ roundHalfEven y := by
  simp only [roundHalfEven, hFloor]
  split_ifs <;> linarith

theorem roundHalfEven_mono : Monotone roundHalfEven := by
  intro x y hle
  obtain hFloor | hFloor := (Int.floor_mono hle).eq_or_lt
  · exact roundHalfEven_le_of_floor_eq hFloor hle
  · calc roundHalfEven x ≤ ⌊x⌋ + 1 := roundHalfEven_le_floor_add_one x
      _ ≤ ⌊y⌋ := hFloor
      _ ≤ roundHalfEven y := floor_le_roundHalfEven y

theorem abs_roundHalfEven_sub_le (x : ℚ) : |(roundHalfEven x : ℚ) - x| ≤ 1 / 2 := by
  have hLow := Int.floor_le x
  have hHigh := Int.lt_floor_add_one x
  rw [abs_le]
  simp only [roundHalfEven]
  split_ifs <;> push_cast <;> constructor <;> linarith

/-- Python's `int` of a float: toward zero. -/
def truncate (x : ℚ) : ℤ :=
  if 0 ≤ x then ⌊x⌋ else ⌈x⌉

theorem truncate_nonneg {x : ℚ} (hx : 0 ≤ x) : 0 ≤ truncate x := by
  rw [truncate, if_pos hx]
  exact Int.floor_nonneg.mpr hx

/-- The distance of the doubles around `x`. -/
def ulp (x : ℚ) : ℚ := 2 ^ (Int.log 2 |x| - 52)

def nearestDouble (x : ℚ) : ℚ := roundHalfEven (x / ulp x) * ulp x

theorem ulp_pos (x : ℚ) : 0 < ulp x := by
  exact zpow_pos (by norm_num) _

theorem ulp_le {x : ℚ} (hx : 0 < x) : ulp x ≤ x / 2 ^ 52 := by
  have hLog : (2 : ℚ) ^ Int.log 2 |x| ≤ x := by
    have hSelf := Int.zpow_log_le_self (b := 2) (by norm_num) (abs_pos.mpr hx.ne')
    rw [abs_of_pos hx] at hSelf ⊢
    exact_mod_cast hSelf
  rw [ulp, zpow_sub₀ (by norm_num)]
  exact div_le_div_of_nonneg_right hLog (by positivity)

theorem nearestDouble_nonneg {x : ℚ} (hx : 0 ≤ x) : 0 ≤ nearestDouble x := by
  have hQuotient : 0 ≤ x / ulp x := div_nonneg hx (ulp_pos x).le
  have hRounded := roundHalfEven_mono hQuotient
  rw [← Int.cast_zero, roundHalfEven_intCast] at hRounded
  exact mul_nonneg (by exact_mod_cast hRounded) (ulp_pos x).le

theorem abs_nearestDouble_sub_le {x : ℚ} (hx : 0 ≤ x) :
    |nearestDouble x - x| ≤ x / 2 ^ 53 := by
  obtain rfl | hPos := hx.eq_or_lt
  · simp [nearestDouble, roundHalfEven]
  have hUlp := ulp_pos x
  have hFactor : nearestDouble x - x = (roundHalfEven (x / ulp x) - x / ulp x) * ulp x := by
    rw [nearestDouble, sub_mul, div_mul_cancel₀ x hUlp.ne']
  calc |nearestDouble x - x|
      = |(roundHalfEven (x / ulp x) : ℚ) - x / ulp x| * ulp x := by
        rw [hFactor, abs_mul, abs_of_pos hUlp]
    _ ≤ 1 / 2 * (x / 2 ^ 52) :=
        mul_le_mul (abs_roundHalfEven_sub_le _) (ulp_le hPos) hUlp.le (by norm_num)
    _ = x / 2 ^ 53 := by ring

theorem nearestDouble_intCast {m : ℤ} (hm : 0 ≤ m) (hSmall : m < 2 ^ 53) :
    nearestDouble m = m := by
  obtain rfl | hPos := hm.eq_or_lt
  · simp [nearestDouble, roundHalfEven]
  have hLog : Int.log 2 |(m : ℚ)| ≤ 52 := by
    have hLt : |(m : ℚ)| < (2 : ℕ) ^ (53 : ℤ) := by
      rw [abs_of_pos (by exact_mod_cast hPos)]
      exact_mod_cast hSmall
    have hPosAbs : 0 < |(m : ℚ)| := abs_pos.mpr (by exact_mod_cast hPos.ne')
    have hBelow := (Int.lt_zpow_iff_log_lt (by norm_num) hPosAbs).mp hLt
    omega
  obtain ⟨k, hk⟩ := Int.eq_ofNat_of_zero_le (sub_nonneg.mpr hLog)
  have hUlp : ulp m = ((2 : ℚ) ^ k)⁻¹ := by
    rw [ulp, ← zpow_natCast, ← zpow_neg, show (Int.log 2 |(m : ℚ)| - 52) = -(k : ℤ) by omega]
  have hWhole : (m : ℚ) / ulp m = ((m * 2 ^ k : ℤ) : ℚ) := by
    rw [hUlp]
    push_cast
    rw [div_inv_eq_mul]
  rw [nearestDouble, hWhole, roundHalfEven_intCast, ← hWhole, div_mul_cancel₀ _ (ulp_pos _).ne']

/-- `int(a / b)` is the integer quotient as long as `a` is an exact double. -/
theorem truncate_nearestDouble_div {a : ℤ} {b : ℕ} (ha : 0 ≤ a) (hSmall : a < 2 ^ 53)
    (hb : 0 < b) : truncate (nearestDouble (a / b)) = a / b := by
  have hbInt : (0 : ℤ) < b := by exact_mod_cast hb
  have hbRat : (0 : ℚ) < b := by exact_mod_cast hb
  have hQuotient : 0 ≤ a / b := Int.ediv_nonneg ha hbInt.le
  have hSplit : (a : ℚ) / b = (a / b : ℤ) + (a % b : ℤ) / b := by
    have hDivMod : (a : ℚ) = b * (a / b : ℤ) + (a % b : ℤ) := by
      exact_mod_cast (Int.mul_ediv_add_emod a b).symm
    rw [eq_comm, ← sub_eq_zero]
    field_simp
    linarith
  suffices hBetween : ((a / b : ℤ) : ℚ) ≤ nearestDouble (a / b) ∧
      nearestDouble (a / b) < (a / b : ℤ) + 1 by
    have hNonneg : (0 : ℚ) ≤ nearestDouble (a / b) :=
      le_trans (by exact_mod_cast hQuotient) hBetween.1
    rw [truncate, if_pos hNonneg]
    exact Int.floor_eq_iff.mpr hBetween
  obtain hWhole | hRest := (Int.emod_nonneg a hbInt.ne').eq_or_lt
  · have hLess : a / b < 2 ^ 53 := (Int.ediv_le_self b ha).trans_lt hSmall
    rw [hSplit, ← hWhole, Int.cast_zero, zero_div, add_zero,
      nearestDouble_intCast hQuotient hLess]
    exact ⟨le_rfl, lt_add_one _⟩
  · -- Between two integers the quotient keeps a distance of `1 / b` from both.
    have hError := abs_le.mp (abs_nearestDouble_sub_le (x := a / b)
      (div_nonneg (by exact_mod_cast ha) hbRat.le))
    have hTiny : (a : ℚ) / b / 2 ^ 53 < 1 / b := by
      rw [div_right_comm]
      apply div_lt_div_of_pos_right _ hbRat
      rw [div_lt_one (by norm_num)]
      exact_mod_cast hSmall
    have hLow : (1 : ℚ) / b ≤ (a % b : ℤ) / b := by
      apply div_le_div_of_nonneg_right _ hbRat.le
      exact_mod_cast hRest
    have hHigh : ((a % b : ℤ) : ℚ) / b ≤ 1 - 1 / b := by
      rw [le_sub_iff_add_le, ← add_div, div_le_one hbRat]
      exact_mod_cast Int.emod_lt_of_pos a hbInt
    constructor <;> linarith

end LiveQuiz
