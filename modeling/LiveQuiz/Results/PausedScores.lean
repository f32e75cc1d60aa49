import LiveQuiz.Protocol.Award
import LiveQuiz.Results.PauseResume
import LiveQuiz.Results.ScoringLaw
import Mathlib.Algebra.Order.Archimedean.Basic

/-! # Scores of paused questions

The response time and the span that `submit_answer` hands to `score` are both read off the
wall clock, so the time spent in pauses is in both. A score is the one without the pauses,
whatever the question is worth, exactly when this leaves their quotient as it was.
-/

namespace LiveQuiz

open Coroutine

set_option autoImplicit false

namespace PauseResume

open Award

/-- A question armed at `startedAt` and then paused and resumed: since when it runs, until
when, how long it ran before that, and how long it was stopped. -/
inductive Timed (mq : Id) (seconds : Int) (startedAt : Micros) :
    Nat → Micros → Micros → Micros → Micros → Prop
  | armed {deadlineAt : Micros} (hArm : Arms mq seconds startedAt deadlineAt) :
      Timed mq seconds startedAt 0 startedAt deadlineAt 0 0
  | cycle {n : Nat} {since deadlineAt spent stopped pausedAt resumedAt deadlineAt' : Micros}
      {record : PauseRecord} (hCourse : Timed mq seconds startedAt n since deadlineAt spent stopped)
      (hAfter : since ≤ pausedAt) (hThen : pausedAt ≤ resumedAt)
      (hPause : Pauses mq deadlineAt pausedAt record)
      (hResume : Resumes mq record resumedAt deadlineAt') :
      Timed mq seconds startedAt (n + 1) resumedAt deadlineAt' (spent + (pausedAt - since))
        (stopped + (resumedAt - pausedAt))

def judged (log : List ((o : Op) × Except Exn o.Res)) : Award.Judged := Award.judge.after {} log

/-- A run of `submit_answer` that finds `mq` with these times in a `speed_bonus` room, reads
the clock at `now`, and inserts `row` for a correct answer to a question of this worth. -/
def Submits (mq : Id) (startedAt deadlineAt now : Micros) (points : Int) (row : AnswerSubmission) :
    Prop :=
  ∃ matchId participantId payload requestId before after r found,
    Plays (submitAnswer matchId participantId payload requestId)
      (before ++ ⟨.flush [.insertSubmission row], .ok ()⟩ :: after) r ∧
      (judged before).question = some found ∧ found.id = mq ∧ found.startedAt = some startedAt ∧
      found.deadlineAt = some deadlineAt ∧ (judged before).clock = some now ∧
      (judged before).points = points ∧ (judged before).mode = scoringModeSpeedBonus ∧
      row.isCorrect = true

/-- The share of its points that a correct answer is worth, for any span. -/
def share (responseTimeMs deadlineMs : Int) : ℚ :=
  if deadlineMs ≤ 0 then 1 else speedShare responseTimeMs deadlineMs

section

variable {mq : Id} {seconds : Int} {n : Nat}
  {startedAt since deadlineAt spent stopped now : Micros} {points : Int} {row : AnswerSubmission}

theorem Timed.since_eq (h : Timed mq seconds startedAt n since deadlineAt spent stopped) :
    since = startedAt + spent + stopped ∧ 0 ≤ spent ∧ 0 ≤ stopped := by
  induction h with
  | armed _ =>
    refine ⟨?_, le_rfl, le_rfl⟩
    ring
  | cycle _ hAfter hThen _ _ ih =>
    obtain ⟨hSince, hSpent, hStopped⟩ := ih
    refine ⟨?_, by linarith, by linarith⟩
    rw [hSince]
    ring

theorem score_share (points rt deadlineMs : Int) :
    score points rt deadlineMs scoringModeSpeedBonus true = roundHalfEven (points * share rt deadlineMs) := by
  have hMode : scoringModeSpeedBonus ≠ scoringModeFixed := by decide
  unfold share
  split
  next hPos => rw [score_flat (.inr hPos), mul_one, roundHalfEven_intCast]
  next hPos => exact score_speed hMode (not_le.mp hPos) rt

theorem share_eq_of_worth {s s' : ℚ}
    (h : ∀ points : Nat, roundHalfEven (points * s) = roundHalfEven (points * s')) : s = s' := by
  by_contra hNe
  obtain ⟨k, hk⟩ := exists_nat_gt (1 / |s - s'|)
  have hGap : 0 < |s - s'| := abs_pos.mpr (sub_ne_zero.mpr hNe)
  have hFar : 1 < k * |s - s'| := by
    rwa [div_lt_iff₀ hGap] at hk
  have hNear : |k * s - k * s'| ≤ 1 := by
    have hLeft := abs_roundHalfEven_sub_le (k * s)
    have hRight := abs_roundHalfEven_sub_le (k * s')
    rw [h k] at hLeft
    rw [abs_le] at hLeft hRight ⊢
    constructor <;> linarith
  rw [← mul_sub, abs_mul, Nat.abs_cast] at hNear
  linarith

/-- The same time stopped on both sides of the quotient takes a share away, unless the time
was up. -/
theorem share_shift_iff {a w d : Int} (ha : 0 ≤ a) (hw : 0 ≤ w) (hd : 0 < d) (hLate : a ≤ d) :
    share (a + w) (d + w) = share a d ↔ w = 0 ∨ a = d := by
  have hdw : 0 < d + w := by omega
  have hdRat : (d : ℚ) ≠ 0 := by exact_mod_cast hd.ne'
  have hdwRat : ((d : ℚ) + w) ≠ 0 := by exact_mod_cast hdw.ne'
  have hClamp : clampedTime (a + w) (d + w) = a + w := by
    unfold clampedTime
    omega
  have hClamp' : clampedTime a d = a := by
    unfold clampedTime
    omega
  rw [share, share, if_neg hdw.not_ge, if_neg hd.not_ge, speedShare, speedShare, hClamp, hClamp']
  push_cast
  constructor
  · intro hEq
    have hQuotient : ((a : ℚ) + w) / (d + w) = a / d := by linarith
    rw [div_eq_div_iff hdwRat hdRat] at hQuotient
    have hCross : (a + w) * d = a * (d + w) := by exact_mod_cast hQuotient
    have hProduct : w * (d - a) = 0 := by linarith [hCross]
    obtain hZero | hEnd := mul_eq_zero.mp hProduct
    · exact .inl hZero
    · exact .inr (by omega)
  · rintro (rfl | rfl)
    · simp
    · rw [div_self hdwRat, div_self hdRat]

/-- The rows that a submission to `mq` finds: match 1 in the room of the samples, Ann, and a
question with one option. -/
def found (mq : Id) (startedAt deadlineAt : Micros) : MatchQuestion :=
  ⟨mq, 1, 3, 1, some startedAt, some deadlineAt, none⟩

def ann : RoomParticipant := ⟨2, 2, "Ann", none, false⟩

def option : AnswerOption := ⟨1, 3, 1, "", true⟩

def answered (mq : Id) (startedAt deadlineAt now : Micros) (points : Int) : AnswerSubmission where
  id := 7
  matchId := 1
  matchQuestionId := mq
  participantId := 2
  selectedOptionIds := [1]
  isCorrect := true
  scoreAwarded := score points (toMillis (max 0 (now - startedAt))) (toMillis (deadlineAt - startedAt))
    scoringModeSpeedBonus true
  responseTimeMs := toMillis (max 0 (now - startedAt))
  requestId := "r"

def admitLog (mq : Id) (startedAt deadlineAt now : Micros) : List ((o : Op) × Except Exn o.Res) :=
  [⟨.selectForUpdate (.questionById mq), .ok (some (found mq startedAt deadlineAt))⟩,
    ⟨.select (.getMatch 1), .ok (some ⟨1, 2, 1, .running, 0, none⟩)⟩, ⟨.utcnow, .ok now⟩,
    ⟨.select (.participantInRoom 2 2), .ok (some ann)⟩]

theorem admitAnswer_plays (hAccepted : now ≤ deadlineAt + ofMillis deadlineGraceMs) :
    Plays (admitAnswer 1 2 mq) (admitLog mq startedAt deadlineAt now)
      (.ok (found mq startedAt deadlineAt, ⟨1, 2, 1, .running, 0, none⟩, now, deadlineAt, startedAt, ann)) := by
  refine .call _ (.call _ (.call _ ?_))
  change Plays (if deadlineAt + ofMillis deadlineGraceMs < now then _ else _) _ _
  rw [if_neg (not_lt.mpr hAccepted)]
  exact .call _ (.done _)

def gradeLog (points : Int) : List ((o : Op) × Except Exn o.Res) :=
  [⟨.select (.getOptions 3), .ok [option]⟩,
    ⟨.select (.getQuestion 3), .ok (some ⟨3, "", .singleChoice, 20, points, none⟩)⟩,
    ⟨.select (.getRoom 2), .ok (some Demo.room)⟩, ⟨.nextId, .ok 7⟩]

theorem submitTx_plays (mq : Id) (startedAt : Micros) (points : Int)
    (hAccepted : now ≤ deadlineAt + ofMillis deadlineGraceMs) :
    ∃ after, Plays (submitTx 1 2 ⟨mq, [1]⟩ "r") (admitLog mq startedAt deadlineAt now ++ (gradeLog points ++
      ⟨.flush [.insertSubmission (answered mq startedAt deadlineAt now points)], .ok ()⟩ :: after))
      (.ok (.inserted (answered mq startedAt deadlineAt now points) 3 "Ann" (some "ABC123"))) := by
  refine ⟨[⟨.nextId, .ok 8⟩, ⟨.flush [.insertEvent (answerSubmittedEvent 8
    (answered mq startedAt deadlineAt now points) 2 3 now)], .ok ()⟩],
    Plays.bind (admitAnswer_plays hAccepted) ?_⟩
  refine .call _ ?_
  change Plays (Prog.call (Op.select (.getQuestion 3)) _) _ _
  refine .call _ (.call _ (.call _ ?_))
  refine .call _ (.call _ (.call _ ?_))
  exact .done _

theorem exists_submits (hAccepted : now ≤ deadlineAt + ofMillis deadlineGraceMs) :
    Submits mq startedAt deadlineAt now points (answered mq startedAt deadlineAt now points) := by
  obtain ⟨after, hTx⟩ := submitTx_plays mq startedAt points hAccepted
  let hooks := submitHooks (answered mq startedAt deadlineAt now points) 3 "Ann" (some "ABC123")
  obtain ⟨r, hHooks⟩ := exists_plays (Demo.answers .running now) hooks
  have hInTx : Plays (inTransaction (submitTx 1 2 ⟨mq, [1]⟩ "r")) _ _ :=
    Plays.handle (Plays.bind hTx (.call (.ok ()) (.done _)))
  have hAll := Plays.bind (f := afterTx "r") hInTx hHooks
  refine ⟨1, 2, ⟨mq, [1]⟩, "r", ⟨.redis (.idemGet "r"), .ok none⟩ ::
    (admitLog mq startedAt deadlineAt now ++ gradeLog points),
    after ++ ⟨.commit, .ok ()⟩ :: hooks.logWith (Demo.answers .running now), r,
    found mq startedAt deadlineAt, ?_, rfl, rfl, rfl, rfl, rfl, rfl, rfl, rfl⟩
  unfold submitAnswer
  rw [if_neg (by decide)]
  simp only [List.append_assoc, List.cons_append, List.nil_append] at hAll ⊢
  refine .call _ ?_
  exact hAll

theorem Submits.awarded (h : Submits mq startedAt deadlineAt now points row) :
    row.scoreAwarded = roundHalfEven (points *
      share (toMillis (max 0 (now - startedAt))) (toMillis (deadlineAt - startedAt))) := by
  obtain ⟨matchId, participantId, payload, requestId, before, after, r, found, hPlays, hFound, -,
    hStarted, hDeadline, hClock, rfl, hMode, hCorrect⟩ := h
  have hAwards := ((submitAnswer_judge matchId participantId payload requestId).allowed_at hPlays row
    List.mem_cons_self).1 found startedAt deadlineAt now hFound hStarted hDeadline hClock
  have hModeEq : (judge.after {} before).mode = scoringModeSpeedBonus := hMode
  rw [hAwards, hModeEq, hCorrect, score_share]
  rfl

/-- A submission accepted after a question ran for `spent + (now - since)` and stood still for
`stopped`: it gets what it would have got without the pauses, whatever the question is
worth, exactly when the stopped time on both sides leaves the share as it was. -/
theorem paused_score_iff (h : Timed mq seconds startedAt n since deadlineAt spent stopped)
    (hAfter : since ≤ now) (hAccepted : now ≤ deadlineAt + ofMillis deadlineGraceMs) :
    (∀ (points : Nat) row, Submits mq startedAt deadlineAt now points row → row.scoreAwarded =
      score points (toMillis (spent + (now - since))) (1000 * seconds) scoringModeSpeedBonus true) ↔
    share (toMillis (spent + (now - since) + stopped))
      (toMillis (spent + (deadlineAt - since) + stopped)) =
        share (toMillis (spent + (now - since))) (1000 * seconds) := by
  obtain ⟨hSince, hSpent, hStopped⟩ := h.since_eq
  have hResponse : max 0 (now - startedAt) = spent + (now - since) + stopped := by
    rw [max_eq_right (by linarith)]
    linarith
  have hSpan : deadlineAt - startedAt = spent + (deadlineAt - since) + stopped := by linarith
  constructor
  · intro hSame
    apply share_eq_of_worth
    intro points
    have hSubmits : Submits mq startedAt deadlineAt now points _ := exists_submits hAccepted
    have hAwarded := hSubmits.awarded
    rw [hResponse, hSpan] at hAwarded
    have hDue := hSame points _ hSubmits
    rw [score_share] at hDue
    exact_mod_cast hAwarded.symm.trans hDue
  · intro hShare points row hSubmits
    rw [hSubmits.awarded, score_share, hResponse, hSpan, hShare]

theorem toMillis_ofSeconds (hNonneg : 0 ≤ seconds) (hSmall : seconds < 2 ^ 43) :
    toMillis (ofSeconds seconds) = 1000 * seconds := by
  have hQuotient : ((ofSeconds seconds : Int) : ℚ) / 1000000 = (seconds : Int) := by
    unfold ofSeconds
    push_cast
    ring
  have hProduct : ((seconds : Int) : ℚ) * 1000 = (1000 * seconds : Int) := by
    push_cast
    ring
  rw [toMillis, hQuotient, nearestDouble_intCast hNonneg (by omega), hProduct,
    nearestDouble_intCast (by omega) (by omega), truncate,
    if_pos (by exact_mod_cast (show (0 : Int) ≤ 1000 * seconds by omega)), Int.floor_intCast]

theorem share_unpaused (h : Timed mq seconds startedAt 0 since deadlineAt spent stopped)
    (hLow : 5 ≤ seconds) (hHigh : seconds ≤ 120) :
    share (toMillis (spent + (now - since) + stopped)) (toMillis (spent + (deadlineAt - since) + stopped)) =
      share (toMillis (spent + (now - since))) (1000 * seconds) := by
  cases h with
  | armed hArm =>
    have hDeadline : 0 + (deadlineAt - startedAt) + 0 = ofSeconds seconds := by
      rw [hArm.deadline]
      ring
    rw [hDeadline, toMillis_ofSeconds (by omega) (by omega), add_zero]

end

namespace Demo

theorem timed : Timed 5 20 0 1 30000000 31000000 18999000 11001000 :=
  .cycle (.armed arms) (by decide) (by decide) pauses resumes

end Demo

theorem share_timed : share (toMillis (18999000 + (31001000 - 30000000) + 11001000))
    (toMillis (18999000 + (31000000 - 30000000) + 11001000)) =
      share (toMillis (18999000 + (31001000 - 30000000))) (1000 * 20) := by
  have hRead : toMillis (18999000 + (31001000 - 30000000) + 11001000) = 31001 := by decide +kernel
  have hSpan : toMillis (18999000 + (31000000 - 30000000) + 11001000) = 20000 + 11000 := by decide +kernel
  have hRan : toMillis (18999000 + (31001000 - 30000000)) = 20000 := by decide +kernel
  have hClamped : share 31001 (20000 + 11000) = share (20000 + 11000) (20000 + 11000) := by
    simp only [share, speedShare, clampedTime]
    norm_num
  rw [hRead, hSpan, hRan, hClamped]
  exact (share_shift_iff (by decide) (by decide) (by decide) le_rfl).mpr (.inr rfl)

/-- The answer after 5 of 20 seconds, without a pause, and the one at the end of the paused
course. -/
theorem paused_score_iff_kept :
    (answered 5 0 20000000 5000000 1000).scoreAwarded =
      score (1000 : Nat) (toMillis (0 + (5000000 - 0))) (1000 * 20) scoringModeSpeedBonus true ∧
    (answered 5 0 31000000 31001000 1000).scoreAwarded =
      score (1000 : Nat) (toMillis (18999000 + (31001000 - 30000000))) (1000 * 20)
        scoringModeSpeedBonus true :=
  ⟨(paused_score_iff (.armed Demo.arms) (by decide) (by decide)).mpr
      (share_unpaused (.armed Demo.arms) (by decide) (by decide)) 1000 _ (exists_submits (by decide)),
    (paused_score_iff Demo.timed (by decide) (by decide)).mpr share_timed 1000 _
      (exists_submits (by decide))⟩

/-- Eleven seconds of pause cost an answer half a second later some of its points. -/
theorem pause_costs_points :
    Timed 5 20 0 1 30000000 31000000 18999000 11001000 ∧
      Submits 5 0 31000000 30500000 1000 (answered 5 0 31000000 30500000 1000) ∧
      (answered 5 0 31000000 30500000 1000).scoreAwarded ≠
        score 1000 (toMillis (18999000 + (30500000 - 30000000))) (1000 * 20) scoringModeSpeedBonus true :=
  ⟨Demo.timed, exists_submits (by decide), by decide +kernel⟩

end PauseResume

end LiveQuiz
