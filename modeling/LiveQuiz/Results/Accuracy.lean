import LiveQuiz.Protocol.Host
import LiveQuiz.Protocol.Discreet
import LiveQuiz.Lib.Guard
import LiveQuiz.Results.Positions
import LiveQuiz.Results.QuestionOrder
import LiveQuiz.Results.Reveal

/-! # The accuracy of a question

`close_question` divides the correct rows of Postgres by the size of a Redis set. A
submitter puts itself into that set only behind its commit, so the quotient is the share
of the correct answers when no submitter stands between the two.
-/

namespace LiveQuiz

open Coroutine

set_option autoImplicit false

/-- The rounded percentage of correct rows. -/
def shareOf (rows : List AnswerSubmission) : ℚ :=
  accuracyPercent (rows.filter (·.isCorrect)).length rows.length

/-- The question is closed with these answers. -/
def Settled (i : Id) (rows : List AnswerSubmission) (w : World) : Prop :=
  w.db.IsClosed i ∧ w.db.answersTo i = rows

/-- A committed answer of `p` to the question `q` of match `m`. -/
def Authored (w : World) (m q p : Id) : Prop :=
  ∃ row ∈ w.db.submissions, ∃ mq ∈ w.db.matchQuestions, mq.id = row.matchQuestionId ∧
    mq.matchId = m ∧ mq.questionId = q ∧ row.participantId = p

/-- The set that is about to be counted is empty, or every committed answer to the question
is in it, or none of them is correct. -/
def Gathered (w : World) (m q : Id) : Prop :=
  w.redis.answered m q = [] ∨ ∀ mq ∈ w.db.matchQuestions, mq.matchId = m → mq.questionId = q →
    (∀ row ∈ w.db.answersTo mq.id, row.isCorrect = false) ∨
      ∀ row ∈ w.db.answersTo mq.id, row.participantId ∈ w.redis.answered m q

def AsksOnce (db : Db) : Prop :=
  ∀ a ∈ db.matchQuestions, ∀ b ∈ db.matchQuestions,
    a.matchId = b.matchId → a.questionId = b.questionId → a = b

instance (w : World) (m q : Id) : Decidable (Gathered w m q) :=
  inferInstanceAs (Decidable (_ ∨ _))

instance (db : Db) : Decidable (AsksOnce db) :=
  inferInstanceAs (Decidable (∀ a ∈ db.matchQuestions, ∀ b ∈ db.matchQuestions, _))

def countGuard (w : World) (_ : Task) (_ : Nat) : Op → Decision → Bool
  | .redis (.answeredCount m q), _ => decide (Gathered w m q) && decide (AsksOnce w.db)
  | _, _ => true

abbrev gathering : Machine World Op Op.Res Exn Ret Task Decision EnvAction :=
  service.guarded countGuard

/-- Every mark in an answered set stands for a committed answer, and every accuracy that was
told is the share of the final answers. -/
structure Accurate (w : World) : Prop where
  marks : ∀ m q, (w.redis.answered m q).Nodup ∧ ∀ p ∈ w.redis.answered m q, Authored w m q p
  told : ∀ code i ids ex a, (code, .questionClosed i ids ex (some a)) ∈ w.sent →
    ∃ rows, Settled i rows w ∧ a = shareOf rows

def accuracyLayer : SysLayer where
  inv := Accurate
  rely _ _ _ w w' := ∀ i rows, Settled i rows w → Settled i rows w'
  req _ _ w
    | .redis (.markAnswered m q p) => Authored w m q p
    | .broadcast _ (.questionClosed i _ _ (some a)) => ∃ rows, Settled i rows w ∧ a = shareOf rows
    | _ => True

section

variable {rows : List AnswerSubmission} {c n : Nat}

theorem accuracyPercent_bounds (h : c ≤ n) : 0 ≤ accuracyPercent c n ∧ accuracyPercent c n ≤ 100 := by
  unfold accuracyPercent
  have hPos : (0 : ℚ) < (max 1 n : ℕ) := by
    exact_mod_cast lt_of_lt_of_le Nat.one_pos (le_max_left 1 n)
  have hLe : (c : ℚ) ≤ (max 1 n : ℕ) := by
    exact_mod_cast h.trans (le_max_right 1 n)
  generalize ((max 1 n : ℕ) : ℚ) = total at hPos hLe ⊢
  have hLow : roundHalfEven ((0 : ℤ) : ℚ) ≤ roundHalfEven (1000 * c / total) := by
    apply roundHalfEven_mono
    rw [Int.cast_zero]
    positivity
  have hHigh : roundHalfEven (1000 * c / total) ≤ roundHalfEven ((1000 : ℤ) : ℚ) := by
    apply roundHalfEven_mono
    rw [div_le_iff₀ hPos]
    push_cast
    linarith
  rw [roundHalfEven_intCast] at hLow hHigh
  constructor
  · have hCast : (0 : ℚ) ≤ roundHalfEven (1000 * c / total) := by exact_mod_cast hLow
    linarith
  · have hCast : (roundHalfEven (1000 * c / total) : ℚ) ≤ 1000 := by exact_mod_cast hHigh
    linarith

theorem accuracyPercent_zero : accuracyPercent 0 n = 0 := by
  have hZero : roundHalfEven ((0 : ℤ) : ℚ) = 0 := roundHalfEven_intCast 0
  simpa [accuracyPercent] using hZero

theorem shareOf_bounds : 0 ≤ shareOf rows ∧ shareOf rows ≤ 100 :=
  accuracyPercent_bounds (List.length_filter_le _ _)

end

section

variable {w : World} {n : Nat} {m q : Id} {mq : MatchQuestion}

theorem Db.Keys.authors_nodup (h : w.db.Keys) (i : Id) :
    ((w.db.answersTo i).map (·.participantId)).Nodup := by
  rw [List.Nodup, List.pairwise_map]
  have hOnce := h.submissions.filter (p := fun r => decide (r.matchQuestionId = i))
  apply List.Pairwise.imp_of_mem _ hOnce
  intro a b ha hb hApart hSame
  have ha := of_decide_eq_true (List.mem_filter.mp ha).2
  have hb := of_decide_eq_true (List.mem_filter.mp hb).2
  exact hApart.2.1 ⟨ha.trans hb.symm, hSame⟩

theorem Accurate.count (h : Accurate w) (hKeys : w.db.Keys) (hOnce : AsksOnce w.db)
    (hMem : mq ∈ w.db.matchQuestions) (hAll : ∀ row ∈ w.db.answersTo mq.id,
      row.participantId ∈ w.redis.answered mq.matchId mq.questionId) :
    (w.redis.answered mq.matchId mq.questionId).length = (w.db.answersTo mq.id).length := by
  obtain ⟨hNodup, hAuthored⟩ := h.marks mq.matchId mq.questionId
  rw [← List.length_map AnswerSubmission.participantId]
  apply List.Perm.length_eq
  rw [List.perm_ext_iff_of_nodup hNodup (hKeys.authors_nodup mq.id)]
  intro p
  constructor
  · intro hp
    obtain ⟨row, hRow, mq', hMem', hId, hMatch, hQuestion, rfl⟩ := hAuthored p hp
    obtain rfl := hOnce mq' hMem' mq hMem hMatch hQuestion
    exact List.mem_map_of_mem (List.mem_filter.mpr ⟨hRow, decide_eq_true hId.symm⟩)
  · intro hp
    obtain ⟨row, hRow, rfl⟩ := List.mem_map.mp hp
    exact hAll row hRow

theorem Gathered.share (h : Gathered w mq.matchId mq.questionId) (hAccurate : Accurate w)
    (hKeys : w.db.Keys) (hOnce : AsksOnce w.db) (hMem : mq ∈ w.db.matchQuestions)
    (hSome : (w.redis.answered mq.matchId mq.questionId).length ≠ 0) :
    accuracyPercent ((w.db.answersTo mq.id).filter (·.isCorrect)).length
      (w.redis.answered mq.matchId mq.questionId).length = shareOf (w.db.answersTo mq.id) := by
  obtain hNil | hEach := h
  · rw [hNil] at hSome
    exact absurd rfl hSome
  obtain hNone | hAll := hEach mq hMem rfl rfl
  · have hEmpty : (w.db.answersTo mq.id).filter (·.isCorrect) = [] := by
      rw [List.filter_eq_nil_iff]
      intro row hRow hCorrect
      rw [hNone row hRow] at hCorrect
      cases hCorrect
    simp only [shareOf, hEmpty, List.length_nil, accuracyPercent_zero]
  · rw [hAccurate.count hKeys hOnce hMem hAll]
    rfl

theorem Settled.same {w' : World} {i : Id} {rows : List AnswerSubmission} (h : Settled i rows w)
    (hDb : w'.db = w.db) : Settled i rows w' := by
  rw [Settled, hDb]
  exact h

theorem Authored.later {w' : World} {p : Id} (h : Authored w m q p) (hLater : Later w w') :
    Authored w' m q p := by
  obtain ⟨row, hRow, mq, hMem, hId, hMatch, hQuestion, hBy⟩ := h
  obtain ⟨mq', hMem', hL⟩ := hLater.matchQuestions mq hMem
  exact ⟨row, hLater.submissions hRow, mq', hMem', hL.id.trans hId, hL.matchId.trans hMatch,
    hL.questionId.trans hQuestion, hBy⟩

end

section

variable {w : World} {n pid : Nat} {t : Task} {o : Op} {d : Decision}

theorem isClosed_later {w' : World} {i : Id} (h : w.db.IsClosed i) (hLater : Later w w') :
    w'.db.IsClosed i := by
  obtain ⟨q, hq, hId, hc⟩ := h
  obtain ⟨q', hq', hL⟩ := hLater.matchQuestions q hq
  exact ⟨q', hq', hL.id.trans hId, hL.closed hc⟩

theorem exec_settled {out : Answer o} (hInv : Inv n w) (hReq : Req pid t w o)
    (h : exec w t pid n o d = some out) :
    (∀ i rows, Settled i rows w → Settled i rows out.shared) ∧
      ∀ m q p, Authored w m q p → Authored out.shared m q p := by
  obtain hDb | ⟨rfl, hDb⟩ := exec_db h
  · constructor
    · exact fun i rows hSettled => hSettled.same hDb
    · intro m q p hAuthored
      rw [Authored, hDb]
      exact hAuthored
  · have hC : Commit w pid t.job (w.tx pid).writes := hReq
    have hLater : Later w (w.commit pid) := later_commit hInv hC
    have hSame : out.shared.db = (w.commit pid).db := hDb
    constructor
    · rintro i rows ⟨hClosed, hRows⟩
      refine Settled.same ⟨isClosed_later hClosed hLater, ?_⟩ hSame
      exact (hC.answersTo hInv hClosed).trans hRows
    · intro m q p hAuthored
      rw [Authored, hSame]
      exact hAuthored.later hLater

theorem Redis.answered_run (r : Redis) (c : RedisCmd) : (c.run r).1.answered = r.answered ∨
    ∃ m q p, c = .markAnswered m q p ∧ (c.run r).1 = r.sadd m q p := by
  cases c with
  | markAnswered m q p => exact .inr ⟨m, q, p, rfl, rfl⟩
  | idemSet k resp =>
    left
    simp only [RedisCmd.run]
    split <;> rfl
  | _ => exact .inl rfl

theorem exec_accurate {out : Answer o} (hInv : Inv n w) (hAccurate : Accurate w)
    (hReq : Req pid t w o) (hLayer : accuracyLayer.req pid t w o)
    (h : exec w t pid n o d = some out) : Accurate out.shared := by
  obtain ⟨hSettled, hAuthored⟩ := exec_settled hInv hReq h
  constructor
  · intro m q
    obtain ⟨hNodup, hMarks⟩ := hAccurate.marks m q
    have hOld : (w.redis.answered m q).Nodup ∧
        ∀ p ∈ w.redis.answered m q, Authored out.shared m q p :=
      ⟨hNodup, fun p hp => hAuthored m q p (hMarks p hp)⟩
    obtain hSame | ⟨-, c, rfl, hRun⟩ := exec_redis h
    · rw [hSame]
      exact hOld
    rw [hRun]
    obtain hAnswered | ⟨m', q', p', rfl, hAdd⟩ := Redis.answered_run w.redis c
    · rw [hAnswered]
      exact hOld
    rw [hAdd]
    unfold Redis.sadd
    dsimp only
    split
    case isFalse => exact hOld
    case isTrue hKey =>
      obtain ⟨rfl, rfl⟩ := hKey
      split
      case isTrue => exact hOld
      case isFalse hNew =>
        constructor
        · exact List.nodup_append.mpr ⟨hNodup, List.nodup_singleton _, by
            rintro a ha b hb rfl
            exact hNew (List.mem_singleton.mp hb ▸ ha)⟩
        · intro p hp
          obtain hp | hp := List.mem_append.mp hp
          · exact hOld.2 p hp
          · rw [List.mem_singleton.mp hp]
            exact hAuthored _ _ _ hLayer
  · intro code i ids ex a hSent
    have hKept : (∃ rows, Settled i rows w ∧ a = shareOf rows) →
        ∃ rows, Settled i rows out.shared ∧ a = shareOf rows := by
      rintro ⟨rows, hRows, hShare⟩
      exact ⟨rows, hSettled i rows hRows, hShare⟩
    apply hKept
    obtain hSame | ⟨c, message, rfl, hNew⟩ := (exec_effect h).1.sent
    · exact hAccurate.told code i ids ex a (hSame ▸ hSent)
    rw [hNew] at hSent
    obtain hOld | hLast := List.mem_append.mp hSent
    · exact hAccurate.told code i ids ex a hOld
    · cases List.mem_singleton.mp hLast
      exact hLayer

theorem env_answered {e : EnvAction} {out : World × Option Task} (h : env w n e = some out) :
    out.1.redis.answered = w.redis.answered := by
  cases e with
  | edit q =>
    obtain ⟨db, -, rfl⟩ := Option.map_eq_some_iff.mp h
    rfl
  | tick | expireIdem | expirePause | kick => cases h; rfl
  | _ =>
    simp only [env] at h
    split at h <;> cases h
    rfl

theorem SameMatches.settled {w' : World} (h : SameMatches w w') {i : Id}
    {rows : List AnswerSubmission} (hSettled : Settled i rows w) : Settled i rows w' := by
  unfold Settled Db.IsClosed Db.answersTo
  rw [h.matchQuestions, h.submissions]
  exact hSettled

theorem env_accurate {e : EnvAction} {out : World × Option Task} (hAccurate : Accurate w)
    (h : env w n e = some out) : Accurate out.1 := by
  have hSame := env_same h
  constructor
  · intro m q
    rw [env_answered h]
    obtain ⟨hNodup, hMarks⟩ := hAccurate.marks m q
    exact ⟨hNodup, fun p hp => (hMarks p hp).later hSame.later⟩
  · intro code i ids ex a hSent
    rw [(env_sent_now h).1] at hSent
    obtain ⟨rows, hRows, hShare⟩ := hAccurate.told code i ids ex a hSent
    exact ⟨rows, hSame.settled hRows, hShare⟩

end

section

variable {w : World} {pid : Nat} {t : Task} {α β : Type} {m : Id} {p : Nat}

abbrev Counts {α : Type} (pid : Nat) (t : Task) (p : Coro α) (Q : Except Exn α → World → Prop)
    (w : World) : Prop :=
  accuracyLayer.wp gathering contract pid t p Q w

theorem discreet_free {p : Coro α} (h : Discreet p) :
    Confined (fun o => ∀ w, accuracyLayer.req pid t w o) (fun _ => True) p := by
  apply Confined.mono h
  intro o ho w
  cases o with
  | redis c =>
    cases c with
    | markAnswered => cases ho
    | _ => trivial
  | broadcast code message =>
    cases message with
    | questionClosed => cases ho
    | _ => trivial
  | _ => trivial

theorem counts_discreet {p : Coro α} (h : Discreet p) : Counts pid t p (fun _ _ => True) w :=
  Layer.keeps_of_confined (discreet_free h)

theorem counts_runs {p : Coro α} {Q : α → World → Prop} (h : Discreet p) (hRuns : Runs pid t p Q w) :
    Counts pid t p (fun r w' => ∀ a, r = .ok a → Q a w') w :=
  Layer.wp_of_confined (discreet_free h) (wp_guarded hRuns)

theorem counts_bind {p : Coro α} {f : α → Coro β} {Q : α → World → Prop}
    (h : Counts pid t p (fun r w' => ∀ a, r = .ok a → Q a w') w)
    (hf : ∀ a w', Q a w' → Counts pid t (f a) (fun _ _ => True) w') :
    Counts pid t (p >>= f) (fun _ _ => True) w := by
  apply Layer.wp_seq h
  · exact fun a w' hQ => hf a w' (hQ a rfl)
  · exact fun _ _ _ => trivial

theorem counts_call {o : Op} {f : o.Res → Coro α} {Q : Except Exn α → World → Prop}
    (hError : ∀ e w', Q (.error e) w')
    (h : ∀ w₁ n, Rely pid w w₁ → (∀ i rows, Settled i rows w → Settled i rows w₁) → Inv n w₁ →
      Accurate w₁ → accuracyLayer.req pid t w₁ o ∧ ∀ d out v, countGuard w₁ t pid o d = true →
        perform w₁ t pid n o d = some out → out.result = .ok v → Counts pid t (f v) Q out.shared) :
    Counts pid t (ask o >>= f) Q w := by
  intro w₁ n _ hRely hSettled hInv hAccurate _
  obtain ⟨hReq, hNext⟩ := h w₁ n hRely hSettled hInv hAccurate
  refine ⟨hReq, fun d out hExec => ?_⟩
  obtain ⟨hGuard, hExec'⟩ := guarded_exec hExec
  obtain ⟨-, -, hOk⟩ | ⟨e, hErr, -⟩ := exec_cases hExec'
  · cases hRes : out.result with
    | ok v => exact hNext d out v hGuard hOk hRes
    | error e => exact hError e _
  · rw [hErr]
    exact hError e _

theorem broadcast_counts {code : String} {message : Message}
    (hReq : ∀ w', (∀ i rows, Settled i rows w → Settled i rows w') →
      accuracyLayer.req pid t w' (.broadcast code message)) :
    Counts pid t (broadcast code message) (fun _ _ => True) w := by
  apply counts_call fun _ _ => trivial
  intro w₁ n₁ _ hKept₁ _ _
  refine ⟨trivial, fun d₁ out₁ i₁ _ hOk₁ _ => ?_⟩
  cases hOk₁
  apply Layer.wp_handle
  intro w₂ n₂ _ _ hKept₂ _ _ _
  refine ⟨hReq w₂ fun i rows hRows => hKept₂ i rows (hKept₁ i rows hRows), fun d₂ out₂ _ => ?_⟩
  cases out₂.result with
  | ok _ => trivial
  | error e => cases e <;> trivial

theorem submitHooks_counts {row : AnswerSubmission} {questionId : Id} {nickname : String}
    {code : Option String} (hRow : Authored w row.matchId questionId row.participantId) :
    Counts pid t (submitHooks row questionId nickname code) (fun _ _ => True) w := by
  apply counts_call fun _ _ => trivial
  intro w₁ n₁ h₁ _ hInv₁ _
  refine ⟨trivial, fun d₁ out₁ v₁ _ hOk₁ _ => ?_⟩
  cases hOk₁
  have hRow₁ := hRow.later h₁.later
  apply counts_call fun _ _ => trivial
  intro w₂ n₂ h₂ _ hInv₂ _
  refine ⟨?_, fun d₂ out₂ v₂ _ _ _ => ?_⟩
  · refine Authored.later ?_ h₂.later
    exact hRow₁
  apply counts_discreet
  apply Discreet.call rfl
  intro _
  apply Confined.bind Discreet.top
  intro top10
  apply Discreet.call rfl
  intro version
  have hCached : ∀ response, Discreet (do
      redis (.idemSet row.requestId response)
      return response) :=
    fun _ => Discreet.call rfl fun _ => Confined.pure _
  dsimp only
  split
  · exact Confined.bind (Discreet.broadcast rfl) fun _ => hCached _
  · exact hCached _

theorem submitAnswer_counts {participantId : Id} {payload : AnswerSubmitRequest} {rid : String}
    (hJob : t.job = .submitAnswer m participantId payload rid) (hTx : w.tx pid = {})
    (hReq : t.job ∈ w.requests) :
    Counts pid t (submitAnswer m participantId payload rid) (fun _ _ => True) w := by
  unfold submitAnswer
  split
  · trivial
  apply counts_call fun _ _ => trivial
  intro w₁ n h₁ _ _ _
  refine ⟨trivial, fun d out cached _ hOk hCached => ?_⟩
  cases hOk
  split
  · trivial
  apply counts_bind (counts_runs (Discreet.transaction Discreet.submitTx) (submitted_runs hJob
    (h₁.tx.trans hTx) (h₁.later.requests hReq)))
  intro r w₂ hr
  cases r with
  | duplicate resp => exact counts_discreet (Discreet.call rfl fun _ => Confined.pure _)
  | inserted row questionId nickname code =>
    obtain ⟨hUnhooked, -, mq, hMem, hId, hMatch, hQuestion⟩ := hr
    exact submitHooks_counts ⟨row, hUnhooked.mem, mq, hMem, hId, hMatch, hQuestion, rfl⟩

theorem closedAccuracy_counts {mq : MatchQuestion} (hTx : w.tx pid = {})
    (hMem : ∃ q ∈ w.db.matchQuestions, mq.Later q ∧ q.closedAt.isSome) :
    Counts pid t (closedAccuracy mq.matchId mq) (fun r w' => ∀ acc, r = .ok acc →
      w'.tx pid = {} ∧ ∃ rows, Settled mq.id rows w' ∧ ∀ a, acc = some a → a = shareOf rows) w := by
  apply counts_call
  case hError => exact fun _ _ _ hErr => by cases hErr
  intro w₁ n₁ h₁ _ hInv₁ hAccurate₁
  refine ⟨trivial, fun d₁ out₁ answered hGuard hOk hAnswered => ?_⟩
  obtain ⟨hGathered, hOnce⟩ := Bool.and_eq_true_iff.mp hGuard
  cases hOk
  cases hAnswered
  have hTx₁ : w₁.tx pid = {} := h₁.tx.trans hTx
  obtain ⟨q, hq, hOf, hClosed⟩ := hMem
  obtain ⟨q₁, hq₁, hOf₁⟩ := h₁.later.matchQuestions q hq
  replace hOf₁ := hOf.trans hOf₁
  have hSettled₁ : Settled mq.id (w₁.db.answersTo mq.id) w₁ :=
    ⟨isClosed_later ⟨q, hq, hOf.id, hClosed⟩ h₁.later, rfl⟩
  split
  case isTrue =>
    intro acc hAcc
    cases hAcc
    exact ⟨hTx₁, _, hSettled₁, fun a ha => by cases ha⟩
  case isFalse hSome =>
  apply counts_call
  case hError => exact fun _ _ _ hErr => by cases hErr
  intro w₂ n₂ h₂ hKept₂ _ _
  refine ⟨trivial, fun d₂ out₂ correct _ hOk₂ hCorrect => ?_⟩
  cases hOk₂
  cases hCorrect
  have hTx₂ : w₂.tx pid = {} := h₂.tx.trans hTx₁
  have hSettled₂ := hKept₂ mq.id _ hSettled₁
  intro acc hAcc
  cases hAcc
  refine ⟨hTx₂, _, hSettled₂, ?_⟩
  rintro a ha
  cases ha
  have hCorrect : Query.run (w₂.view pid) (.correctSubmissions mq.id) =
      (w₁.db.answersTo mq.id).filter (·.isCorrect) := by
    rw [World.view, hTx₂, ← hSettled₂.2, Db.answersTo, List.filter_filter]
    simp [Query.run, applyAll_nil, and_comm]
  have hGathered₁ : Gathered w₁ q₁.matchId q₁.questionId := by
    rw [hOf₁.matchId, hOf₁.questionId]
    exact of_decide_eq_true hGathered
  have hShare := hGathered₁.share hAccurate₁ hInv₁.keys (of_decide_eq_true hOnce) hq₁
    (by rw [hOf₁.matchId, hOf₁.questionId]; exact hSome)
  rw [hOf₁.matchId, hOf₁.questionId, hOf₁.id] at hShare
  rw [hCorrect]
  exact hShare

theorem closeQuestion_counts (hCloses : Closes t.job m p) (hTx : w.tx pid = {})
    (hSilent : Silent w pid) (hStarted : HasStarted w m p)
    (hEnd : Finishes t.job m ∨ Registered w t.replica m pid) :
    Counts pid t (closeQuestion m p) (fun _ _ => True) w := by
  apply counts_bind (counts_runs (confined_exceptException (Discreet.transaction Discreet.closeTx))
    (closed_runs hCloses hTx hSilent hStarted hEnd))
  intro r w₁ hr
  split
  case h_2 => trivial
  case h_1 closed =>
  obtain ⟨hTx₁, rfl, -, -, hMem, -⟩ := hr closed rfl
  apply counts_bind (closedAccuracy_counts hTx₁ hMem)
  rintro acc w₂ ⟨-, rows, hSettled, hShare⟩
  have hTold : ∀ w', (∀ i rows, Settled i rows w₂ → Settled i rows w') → accuracyLayer.req pid t w'
      (.broadcast closed.roomCode
        (.questionClosed closed.mq.id closed.correctIds closed.explanation acc)) := by
    intro w' hKept
    cases acc with
    | none => trivial
    | some a => exact ⟨rows, hKept _ _ hSettled, hShare a rfl⟩
  apply counts_bind (Q := fun _ _ => True)
  case h => exact Layer.wp_mono (broadcast_counts hTold) fun _ _ _ _ _ => trivial
  intro _ w₃ _
  split
  · exact counts_discreet (Confined.bind Discreet.endMatch fun _ => Confined.pure _)
  · exact counts_discreet (Discreet.only rfl)

theorem jobBody_counts (h : Begin w pid t) :
    accuracyLayer.Keeps gathering contract pid t (jobBody t.job) w := by
  have hMap : ∀ {α : Type} {p : Coro α} {f : α → Ret},
      Counts pid t p (fun _ _ => True) w → Counts pid t (f <$> p) (fun _ _ => True) w := by
    intro α p f hp
    apply counts_bind (Q := fun _ _ => True) (Layer.wp_mono hp fun _ _ _ _ _ => trivial)
    intro a w' _
    trivial
  cases hJob : t.job with
  | submitAnswer m p payload rid =>
    exact hMap (submitAnswer_counts hJob h.tx (h.requested m p payload rid hJob))
  | startMatch host code => exact hMap (counts_discreet Discreet.startMatch)
  | pauseMatch host code => exact hMap (counts_discreet Discreet.pauseMatch)
  | resumeMatch host code => exact hMap (counts_discreet Discreet.resumeMatch)
  | endMatch m host => exact hMap (counts_discreet Discreet.endMatch)
  | recoverRunningMatches => exact hMap (counts_discreet Discreet.recoverRunningMatches)
  | armQuestion m p => exact hMap (counts_discreet Discreet.armQuestion)
  | gapThenArm m p s => exact hMap (counts_discreet Discreet.gapThenArm)
  | closeQuestion m p =>
    have hCloses : Closes t.job m p := hJob ▸ .close m p
    exact hMap (closeQuestion_counts hCloses h.tx h.silent (h.started m p hCloses)
      (.inl (hJob ▸ .last m p)))
  | closeQuestionAfter m p delay =>
    have hCloses : Closes t.job m p := hJob ▸ .after m p delay
    have hSleeps : Runs pid t (sleepUncancelled delay) (fun live w' => live = true →
        Holds pid w w' ∧ w'.tx pid = w.tx pid) w :=
      .sleepUncancelled (fun _ hLive => by cases hLive) fun w₁ _ h₁ hTx₁ _ _ => ⟨h₁, hTx₁⟩
    apply hMap
    apply counts_bind (counts_runs Discreet.sleepUncancelled hSleeps)
    intro live w₁ hLive
    split
    case isFalse => trivial
    case isTrue hTrue =>
      obtain ⟨h₁, hTx₁⟩ := hLive hTrue
      exact closeQuestion_counts hCloses (hTx₁.trans h.tx) (h.silent.holds h₁)
        ((h.started m p hCloses).later h₁.later)
        (.inr (h₁.registered _ _ (h.registered m p delay hJob)))

theorem accuracyLayer_fits : accuracyLayer.Fits gathering contract where
  steady := ⟨fun _ _ _ _ _ _ h => h, fun _ _ _ _ _ _ h h' i rows hRows => h' i rows (h i rows hRows)⟩
  exec w t pid fresh o d out hInv hAccurate hReq hLayer hExec := by
    obtain ⟨-, hExec'⟩ := guarded_exec hExec
    refine ⟨exec_accurate hInv hAccurate hReq hLayer hExec', fun _ _ _ _ _ => ?_, fun t' ht' => ?_⟩
    · exact (exec_settled hInv hReq hExec').1
    · exact jobBody_counts (exec_begin hInv hReq hExec' ht')
  env w fresh e out hInv hAccurate hEnv := by
    have hEnv' : env w fresh e = some out := hEnv
    refine ⟨env_accurate hAccurate hEnv', fun _ _ _ _ i rows hRows => ?_, fun t' ht' => ?_⟩
    · exact (env_same hEnv').settled hRows
    · exact jobBody_counts (env_begin hInv hEnv' ht')

end

section

variable {seed : Seed} {C : SysState → SysLabel → Prop} {S : SysState} {qs : List Question}

theorem QuizEdit.questionIds {e : QuizEdit} {db db' : Db} (h : e.apply db = some db')
    (hIds : (db.questions.map (·.id)).Nodup) : (db'.questions.map (·.id)).Nodup := by
  cases e with
  | updateQuestion o i u ids =>
    rw [updateQuestion_ids h]
    exact hIds
  | addQuestion o s i c ids => exact addQuestion_ids hIds h
  | updateQuizSet o s u =>
    simp only [QuizEdit.apply, LiveQuiz.updateQuizSet, Option.bind_eq_bind,
      Option.bind_eq_some_iff, Option.pure_def, Option.some.injEq] at h
    obtain ⟨x, -, -, -, rfl⟩ := h
    exact hIds

theorem env_questionIds {w : World} {n : Nat} {e : EnvAction} {out : World × Option Task}
    (h : env w n e = some out) (hIds : (w.db.questions.map (·.id)).Nodup) :
    (out.1.db.questions.map (·.id)).Nodup := by
  cases e with
  | edit q =>
    obtain ⟨db, hEdit, rfl⟩ := Option.map_eq_some_iff.mp h
    exact QuizEdit.questionIds hEdit hIds
  | tick | expireIdem | expirePause | kick => cases h; exact hIds
  | _ =>
    simp only [env] at h
    split at h <;> cases h
    exact hIds

theorem questions_applyAll (ws : List Write) (db : Db) :
    (applyAll ws db).questions = db.questions :=
  Transactions.applyAll_same (g := Db.questions) fun wr _ db => by cases wr <;> rfl

theorem questionIds_reach (hSeed : (seed.questions.map (·.id)).Nodup)
    (h : service.Reach C (initial seed) S) : (S.shared.db.questions.map (·.id)).Nodup := by
  induction h with
  | refl => exact hSeed
  | tail hReach _ hStep ih =>
    obtain ⟨hDb, -⟩ | ⟨e, out, -, hEnv, hEq⟩ | ⟨pid, t, hC⟩ := step_effect (held_of_reach hReach) hStep
    · rw [hDb]
      exact ih
    · rw [hEq]
      exact env_questionIds hEnv ih
    · rw [hC.db, questions_applyAll]
      exact ih

theorem numbered_position (hIds : (qs.map (·.id)).Nodup) {a b : Nat × Id} (ha : a ∈ numbered qs)
    (hb : b ∈ numbered qs) (hSame : a.2 = b.2) : a.1 = b.1 := by
  obtain ⟨i, hi, rfl⟩ := List.mem_mapIdx.mp ha
  obtain ⟨j, hj, rfl⟩ := List.mem_mapIdx.mp hb
  have hi' : i < (qs.map (·.id)).length := by simpa using hi
  have hj' : j < (qs.map (·.id)).length := by simpa using hj
  have hIdSame : (qs.map (·.id))[i] = (qs.map (·.id))[j] := by simpa using hSame
  have hij : i = j := hIds.getElem_inj_iff.mp hIdSame
  exact congrArg (· + 1) hij

theorem asksOnce_reach (hSeed : (seed.questions.map (·.id)).Nodup)
    (h : service.Reach (fun _ _ => True) (initial seed) S) : AsksOnce S.shared.db := by
  intro a ha b hb hMatch hQuestion
  have hInv := (held_of_reach h).inv
  obtain ⟨m, hm, hId⟩ := hInv.matchOf a ha
  obtain ⟨room, -, -, questions, ⟨S₀, hReach, -, rfl⟩, hOutline⟩ := outlined_reach h .refl m hm
  have hIds : ((Query.run S₀.shared.db (.questionsOfQuiz room.quizSetId)).map (·.id)).Nodup := by
    have hPerm := List.perm_insertionSort (fun a b : Question => a.position ≤ b.position)
      (S₀.shared.db.questions.filter (·.quizSetId = room.quizSetId))
    exact ((hPerm.map _).nodup_iff).mpr
      ((List.filter_sublist.map _).nodup (questionIds_reach hSeed hReach))
  have hListed : ∀ q ∈ S.shared.db.matchQuestions, q.matchId = m.id →
      (q.position, q.questionId) ∈ numbered (Query.run S₀.shared.db (.questionsOfQuiz room.quizSetId)) := by
    intro q hq hOf
    rw [← hOutline]
    exact List.mem_map.mpr ⟨q, List.mem_filter.mpr ⟨hq, decide_eq_true hOf⟩, rfl⟩
  apply hInv.keys.matchQuestion_eq ha hb
  right
  refine ⟨hMatch, ?_⟩
  exact numbered_position hIds (hListed a ha hId.symm) (hListed b hb (hMatch.symm.trans hId.symm))
    hQuestion

end

/-- No answered set is counted before it is gathered. -/
def countsInTime (S : SysState) : SysLabel → Bool
  | .op pid _ =>
    match S.procs[pid]? with
    | some ⟨_, .call (.redis (.answeredCount m q)) _⟩ => decide (Gathered S.shared m q)
    | _ => true
  | .env _ => true

section

variable {seed : Seed} {S : SysState}

theorem countsInTime_allows {l : SysLabel} (h : countsInTime S l = true)
    (hOnce : AsksOnce S.shared.db) : Machine.allows countGuard S l = true := by
  cases l with
  | env e => rfl
  | op pid d =>
    unfold Machine.allows
    unfold countsInTime at h
    dsimp only at h ⊢
    split
    case h_2 => rfl
    case h_1 t o k hProc =>
      rw [hProc] at h
      cases o with
      | redis c =>
        cases c with
        | answeredCount m q => exact Bool.and_eq_true_iff.mpr ⟨h, decide_eq_true hOnce⟩
        | _ => rfl
      | _ => rfl

theorem gathering_reach (hSeed : (seed.questions.map (·.id)).Nodup)
    (h : service.Reach (fun S l => countsInTime S l = true) (initial seed) S) :
    gathering.Reach (fun _ _ => True) (initial seed) S := by
  apply Machine.Reach.guarded
  induction h with
  | refl => exact .refl
  | tail hReach hInTime hStep ih =>
    have hOnce := asksOnce_reach hSeed (hReach.mono fun _ _ _ => trivial)
    exact ih.tail (countsInTime_allows hInTime hOnce) hStep

theorem accurate_reach (hSeed : (seed.questions.map (·.id)).Nodup)
    (h : service.Reach (fun S l => countsInTime S l = true) (initial seed) S) :
    Accurate S.shared := by
  have hCarried : accuracyLayer.Carried gathering contract (initial seed) := by
    constructor
    case kept => exact (held_initial seed).guarded
    case inv =>
      constructor
      · exact fun _ _ => ⟨List.nodup_nil, fun _ hp => by cases hp⟩
      · exact fun _ _ _ _ _ hSent => by cases hSent
    case procs => exact fun _ _ hp => by cases hp
  exact (hCarried.reach accuracyLayer_fits sound.guarded (gathering_reach hSeed h)).inv

/-- The accuracy that a closer tells is the rounded share of the correct answers. -/
theorem accuracy_is_share {code : String} {i : Id} {ids : List Id} {explanation : Option String}
    {a : ℚ} (hSeed : (seed.questions.map (·.id)).Nodup)
    (h : service.Reach (fun S l => countsInTime S l = true) (initial seed) S)
    (hSent : (code, .questionClosed i ids explanation (some a)) ∈ S.shared.sent) :
    a = shareOf (S.shared.db.answersTo i) ∧ 0 ≤ a ∧ a ≤ 100 := by
  obtain ⟨rows, ⟨-, hRows⟩, rfl⟩ := (accurate_reach hSeed h).told code i ids explanation a hSent
  rw [hRows]
  exact ⟨rfl, shareOf_bounds⟩

end

/-- Ann's answer is the only one, and the question is closed behind her hooks. -/
theorem accuracy_is_share_ann : ∃ S code ids explanation a,
    service.Reach (fun S l => countsInTime S l = true) (initial Demo.seed) S ∧
    (code, .questionClosed 56 ids explanation (some a)) ∈ S.shared.sent ∧
    a = shareOf (S.shared.db.answersTo 56) ∧ 0 ≤ a ∧ a ≤ 100 := by
  have hRun : (service.runWhile countsInTime (initial Demo.seed) Demo.revealing).any (fun S =>
      S.shared.sent.contains ("AB", .questionClosed 56 [201] none (some 100))) = true := by
    decide +kernel
  obtain ⟨S, hReach, hSent⟩ := Machine.Reach.exists_of_runWhile hRun
  replace hSent := List.contains_iff_mem.mp hSent
  exact ⟨S, _, _, _, _, hReach, hSent, accuracy_is_share (by decide) hReach hSent⟩

/-- Bob has committed the same answer, and the question is closed before his hooks. -/
def Demo.between : List SysLabel :=
  annAnswers ++ [.env (.request 0 lateJob)] ++ calls 5 13 350 ++ calls 3 1 400 ++
    [.env (.tick 20000000)] ++ calls 3 17 401

theorem accuracy_beyond_hundred : ∃ S code ids explanation,
    service.Reach (fun _ _ => True) (initial Demo.seed) S ∧
    (code, .questionClosed 56 ids explanation (some 200)) ∈ S.shared.sent ∧
    shareOf (S.shared.db.answersTo 56) = 100 := by
  have hRun : (service.run (initial Demo.seed) Demo.between).any (fun S =>
      S.shared.sent.contains ("AB", .questionClosed 56 [201] none (some 200)) ∧
        shareOf (S.shared.db.answersTo 56) = 100) = true := by
    decide +kernel
  obtain ⟨S, hReach, hS⟩ := Machine.Reach.exists_of_run hRun
  obtain ⟨hSent, hShare⟩ := of_decide_eq_true hS
  exact ⟨S, _, _, _, hReach, List.contains_iff_mem.mp hSent, hShare⟩

end LiveQuiz
