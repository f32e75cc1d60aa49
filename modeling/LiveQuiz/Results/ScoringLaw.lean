import LiveQuiz.Service.Scoring
import Mathlib.Tactic.Linarith
import Mathlib.Tactic.NormNum
import Mathlib.Tactic.Ring

/-! # The scoring law

The value that `score` rounds is a fraction of the points between one half and
one, which falls as the response time grows. Rounding keeps the order, and fixes
the integers at both ends.
-/

namespace LiveQuiz

set_option autoImplicit false

/-- The response time as `score` clamps it. -/
def clampedTime (responseTimeMs deadlineMs : Int) : Int :=
  max 0 (min responseTimeMs deadlineMs)

/-- The share of the points a correct answer is worth in `speed_bonus` mode. -/
def speedShare (responseTimeMs deadlineMs : Int) : ℚ :=
  1 / 2 + 1 / 2 * (1 - clampedTime responseTimeMs deadlineMs / deadlineMs)

section

variable {points deadlineMs : Int} {mode : String}

theorem score_speed (hMode : mode ≠ scoringModeFixed) (hPos : 0 < deadlineMs) (rt : Int) :
    score points rt deadlineMs mode true =
      roundHalfEven (points * speedShare rt deadlineMs) := by
  simp [score, speedShare, clampedTime, hMode, hPos.not_ge]

theorem score_flat (h : mode = scoringModeFixed ∨ deadlineMs ≤ 0) (rt : Int) :
    score points rt deadlineMs mode true = points := by
  obtain hMode | hDeadline := h
  · simp [score, hMode]
  · simp [score, hDeadline]

theorem clampedTime_mono {rt rt' : Int} (hle : rt ≤ rt') :
    clampedTime rt deadlineMs ≤ clampedTime rt' deadlineMs := by
  unfold clampedTime
  omega

theorem clampedTime_of_nonpos {rt : Int} (hRt : rt ≤ 0) : clampedTime rt deadlineMs = 0 := by
  unfold clampedTime
  omega

theorem clampedTime_of_late {rt : Int} (hPos : 0 < deadlineMs) (hRt : deadlineMs ≤ rt) :
    clampedTime rt deadlineMs = deadlineMs := by
  unfold clampedTime
  omega

theorem speedShare_anti (hPos : 0 < deadlineMs) {rt rt' : Int} (hle : rt ≤ rt') :
    speedShare rt' deadlineMs ≤ speedShare rt deadlineMs := by
  have hDeadline : (0 : ℚ) < deadlineMs := by exact_mod_cast hPos
  have hClamp : (clampedTime rt deadlineMs : ℚ) ≤ clampedTime rt' deadlineMs := by
    exact_mod_cast clampedTime_mono hle
  have hDiv := div_le_div_of_nonneg_right hClamp hDeadline.le
  unfold speedShare
  linarith

theorem speedShare_of_nonpos {rt : Int} (hRt : rt ≤ 0) : speedShare rt deadlineMs = 1 := by
  rw [speedShare, clampedTime_of_nonpos hRt]
  norm_num

theorem speedShare_of_late {rt : Int} (hPos : 0 < deadlineMs) (hRt : deadlineMs ≤ rt) :
    speedShare rt deadlineMs = 1 / 2 := by
  have hDeadline : (deadlineMs : ℚ) ≠ 0 := by exact_mod_cast hPos.ne'
  rw [speedShare, clampedTime_of_late hPos hRt, div_self hDeadline]
  norm_num

theorem half_le_speedShare (hPos : 0 < deadlineMs) (rt : Int) :
    1 / 2 ≤ speedShare rt deadlineMs := by
  calc (1 / 2 : ℚ) = speedShare (max rt deadlineMs) deadlineMs :=
        (speedShare_of_late hPos (le_max_right _ _)).symm
    _ ≤ speedShare rt deadlineMs := speedShare_anti hPos (le_max_left _ _)

theorem speedShare_le_one (hPos : 0 < deadlineMs) (rt : Int) : speedShare rt deadlineMs ≤ 1 := by
  calc speedShare rt deadlineMs ≤ speedShare (min rt 0) deadlineMs :=
        speedShare_anti hPos (min_le_left _ _)
    _ = 1 := speedShare_of_nonpos (min_le_right _ _)

theorem half_le_score (hMode : mode ≠ scoringModeFixed) (hPos : 0 < deadlineMs)
    (hPoints : 0 ≤ points) (rt : Int) :
    roundHalfEven (points / 2) ≤ score points rt deadlineMs mode true := by
  have hCast : (0 : ℚ) ≤ points := by exact_mod_cast hPoints
  rw [score_speed hMode hPos]
  apply roundHalfEven_mono
  calc (points / 2 : ℚ) = points * (1 / 2) := by ring
    _ ≤ points * speedShare rt deadlineMs :=
        mul_le_mul_of_nonneg_left (half_le_speedShare hPos rt) hCast

theorem score_le_points (hMode : mode ≠ scoringModeFixed) (hPos : 0 < deadlineMs)
    (hPoints : 0 ≤ points) (rt : Int) : score points rt deadlineMs mode true ≤ points := by
  have hCast : (0 : ℚ) ≤ points := by exact_mod_cast hPoints
  rw [score_speed hMode hPos]
  calc roundHalfEven (points * speedShare rt deadlineMs) ≤ roundHalfEven points :=
        roundHalfEven_mono (mul_le_of_le_one_right hCast (speedShare_le_one hPos rt))
    _ = points := roundHalfEven_intCast points

theorem score_anti (hMode : mode ≠ scoringModeFixed) (hPos : 0 < deadlineMs)
    (hPoints : 0 ≤ points) {rt rt' : Int} (hle : rt ≤ rt') :
    score points rt' deadlineMs mode true ≤ score points rt deadlineMs mode true := by
  have hCast : (0 : ℚ) ≤ points := by exact_mod_cast hPoints
  rw [score_speed hMode hPos, score_speed hMode hPos]
  apply roundHalfEven_mono
  exact mul_le_mul_of_nonneg_left (speedShare_anti hPos hle) hCast

theorem score_mono_points (hMode : mode ≠ scoringModeFixed) (hPos : 0 < deadlineMs)
    {points' : Int} (hle : points ≤ points') (rt : Int) :
    score points rt deadlineMs mode true ≤ score points' rt deadlineMs mode true := by
  have hCast : (points : ℚ) ≤ points' := by exact_mod_cast hle
  have hShare : 0 ≤ speedShare rt deadlineMs := by
    have hHalf := half_le_speedShare hPos rt
    linarith
  rw [score_speed hMode hPos, score_speed hMode hPos]
  apply roundHalfEven_mono
  exact mul_le_mul_of_nonneg_right hCast hShare

theorem score_of_nonpos (hMode : mode ≠ scoringModeFixed) (hPos : 0 < deadlineMs) {rt : Int}
    (hRt : rt ≤ 0) : score points rt deadlineMs mode true = points := by
  rw [score_speed hMode hPos, speedShare_of_nonpos hRt, mul_one, roundHalfEven_intCast]

theorem score_of_late (hMode : mode ≠ scoringModeFixed) (hPos : 0 < deadlineMs) {rt : Int}
    (hRt : deadlineMs ≤ rt) :
    score points rt deadlineMs mode true = roundHalfEven (points / 2) := by
  rw [score_speed hMode hPos, speedShare_of_late hPos hRt, mul_one_div]

end

theorem score_law (points deadlineMs : Int) (mode : String) (hPoints : 0 ≤ points) :
    (∀ rt, score points rt deadlineMs mode false = 0) ∧
      (mode = scoringModeFixed ∨ deadlineMs ≤ 0 →
        ∀ rt, score points rt deadlineMs mode true = points) ∧
      (mode ≠ scoringModeFixed → 0 < deadlineMs →
        (∀ rt, roundHalfEven (points / 2) ≤ score points rt deadlineMs mode true ∧
          score points rt deadlineMs mode true ≤ points) ∧
        (∀ rt rt', rt ≤ rt' →
          score points rt' deadlineMs mode true ≤ score points rt deadlineMs mode true) ∧
        (∀ points' rt, points ≤ points' →
          score points rt deadlineMs mode true ≤ score points' rt deadlineMs mode true) ∧
        (∀ rt, rt ≤ 0 → score points rt deadlineMs mode true = points) ∧
        (∀ rt, deadlineMs ≤ rt →
          score points rt deadlineMs mode true = roundHalfEven (points / 2))) := by
  constructor
  · intro rt
    rfl
  constructor
  · exact score_flat
  intro hMode hPos
  constructor
  · intro rt
    exact ⟨half_le_score hMode hPos hPoints rt, score_le_points hMode hPos hPoints rt⟩
  constructor
  · intro rt rt' hle
    exact score_anti hMode hPos hPoints hle
  constructor
  · intro points' rt hle
    exact score_mono_points hMode hPos hle rt
  constructor
  · intro rt hRt
    exact score_of_nonpos hMode hPos hRt
  · intro rt hRt
    exact score_of_late hMode hPos hRt

/-- Two and a half of five points round to the even two, and no later answer gets
more. -/
theorem score_law_five :
    score 5 20000 20000 scoringModeSpeedBonus true = 2 ∧
      ∀ rt, 20000 ≤ rt → score 5 rt 20000 scoringModeSpeedBonus true = 2 := by
  have hLate := (score_law 5 20000 scoringModeSpeedBonus (by decide)).2.2
    (by decide) (by decide)
  have hRound : roundHalfEven ((5 : Int) / 2 : ℚ) = 2 := by
    norm_num [roundHalfEven]
  constructor
  · exact (hLate.2.2.2.2 20000 le_rfl).trans hRound
  · intro rt hRt
    exact (hLate.2.2.2.2 rt hRt).trans hRound

end LiveQuiz
