import LiveQuiz.Lib.Rounding

/-! # Scoring

The arithmetic of `score` over the rationals. The source computes in floats; the
values agree wherever those are exact.
-/

namespace LiveQuiz

set_option autoImplicit false

def scoringModeFixed : String := "fixed"

def scoringModeSpeedBonus : String := "speed_bonus"

def score (points responseTimeMs deadlineMs : Int) (mode : String) (isCorrect : Bool) : Int :=
  if !isCorrect then 0
  else if mode = scoringModeFixed then points
  else if deadlineMs ≤ 0 then points
  else
    let rt := max 0 (min responseTimeMs deadlineMs)
    let fraction : ℚ := 1 - rt / deadlineMs
    roundHalfEven (points * (1 / 2 + 1 / 2 * fraction))

end LiveQuiz
