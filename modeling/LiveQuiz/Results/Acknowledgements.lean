import LiveQuiz.Client.Store
import LiveQuiz.Lib.Steps

/-! # Whose answer an acknowledgement is for

`answer.accepted` names no question. The store ties it to the question that is current
when it arrives, or to that of the answer at hand when none is.
-/

namespace LiveQuiz.Client

open Steps

set_option autoImplicit false

/-- The actions of the store. An acknowledgement comes with the question whose answer it
acknowledges, which the store is not told. -/
inductive Action where
  | reset (code : String)
  | setConnection (c : Connection)
  | applySnapshot (p : SnapshotPayload)
  | applyParticipantJoined (participantId : Id) (nickname : String) (playerCount : Nat)
  | applyParticipantLeft (participantId : Id) (playerCount : Nat)
  | ofMatch (m : Message)
  | applyAnswerAccepted (acknowledged submissionId : Id) (accepted : Bool)
      (scoreAwarded responseTimeMs : Int)
  | setError (p : ErrorPayload)
  | markAnswerSubmitted (matchQuestionId : Id) (selectedOptionIds : List Id)
  deriving DecidableEq, Repr

def Action.apply (now : Int) (s : LiveMatchState) : Action → LiveMatchState
  | .reset code => s.reset code
  | .setConnection c => s.setConnection c
  | .applySnapshot p => s.applySnapshot now p
  | .applyParticipantJoined p nickname count => s.applyParticipantJoined p nickname count
  | .applyParticipantLeft p count => s.applyParticipantLeft p count
  | .ofMatch m => s.dispatch now m
  | .applyAnswerAccepted _ i accepted score rt => s.applyAnswerAccepted i accepted score rt
  | .setError p => s.setError p
  | .markAnswerSubmitted mq selected => s.markAnswerSubmitted mq selected

/-- The question of the answer at hand. -/
def LiveMatchState.answered (s : LiveMatchState) : Option Id := s.myAnswer.bind (·.matchQuestionId)

/-- `submitAnswer` of the play view, up to its request. -/
def LiveMatchState.submitAnswer (s : LiveMatchState) (selectedOptionIds : List Id) : LiveMatchState :=
  match s.currentQuestion, s.matchInfo with
  | some cq, some _ =>
    if s.answered = some cq.matchQuestionId then s
    else s.markAnswerSubmitted cq.matchQuestionId selectedOptionIds
  | _, _ => s

/-- The store and the questions marked as submitted since the reset. -/
structure Session where
  store : LiveMatchState
  submitted : List Id
  deriving DecidableEq, Repr

def Session.step (s : Session) (x : Int × Action) : Session where
  store := x.2.apply x.1 s.store
  submitted :=
    match x.2 with
    | .reset _ => []
    | .markAnswerSubmitted mq _ => s.submitted ++ [mq]
    | _ => s.submitted

def Session.start (code : String) : Session := ⟨emptyState.reset code, []⟩

/-- After the action the answer at hand is for a question that was submitted, an acceptance
has gone to the answer it acknowledges, and an open question without an answer takes one. -/
structure Attributed (s : Session) (x : Int × Action) : Prop where
  submitted : ∀ q, (s.step x).store.answered = some q → q ∈ (s.step x).submitted
  acknowledged : ∀ q i score rt, x.2 = .applyAnswerAccepted q i true score rt →
    (s.step x).store.answered = some q
  answerable : ∀ cq m selected, (s.step x).store.currentQuestion = some cq →
    (s.step x).store.matchInfo = some m → cq.matchQuestionId ∉ (s.step x).submitted →
    (s.step x).store.submitAnswer selected =
      (s.step x).store.markAnswerSubmitted cq.matchQuestionId selected

/-- The question that the actions so far, the last one first, have brought to the screen. -/
def shown : List Action → Option Id
  | [] => none
  | .reset _ :: _ | .ofMatch (.matchStarted _ _ _) :: _ => none
  | .ofMatch (.questionStarted p) :: _ => some p.matchQuestionId
  | .applySnapshot p :: past =>
    ((p.matchBlock.bind (·.currentQuestion)).map (·.matchQuestionId)).or (shown past)
  | _ :: past => shown past

def marked : List Action → List Id
  | [] => []
  | .reset _ :: _ => []
  | .markAnswerSubmitted mq _ :: past => mq :: marked past
  | _ :: past => marked past

/-- The question marked last, since a question or a match has started. -/
def lastMarked : List Action → Option Id
  | [] => none
  | .reset _ :: _ | .ofMatch (.matchStarted _ _ _) :: _ | .ofMatch (.questionStarted _) :: _ => none
  | .markAnswerSubmitted mq _ :: _ => some mq
  | _ :: past => lastMarked past

/-- The question that an acknowledgement would now be taken for: the one on the screen, or
without one the one marked last. -/
def due (past : List Action) : Option Id := (shown past).or (lastMarked past)

/-- An acknowledgement comes when a question marked as submitted is due, and an acceptance
when the very question that it acknowledges is. -/
def Timely (past : List Action) : Action → Prop
  | .applyAnswerAccepted q _ accepted _ _ =>
    (∀ t, due past = some t → t ∈ marked past) ∧ (accepted = true → due past = some q)
  | _ => True

/-- Every acknowledgement of the sequence does. -/
def InTime (actions : List (Int × Action)) : Prop :=
  Every (fun past x => x.2 :: past) (fun past x => Timely past x.2) [] actions

def Session.Held (s : Session) : Prop := ∀ q, s.store.answered = some q → q ∈ s.submitted

/-- The store shows the question that the actions have brought, and without one has the
answer that was marked last. -/
structure Session.After (past : List Action) (s : Session) : Prop where
  shown : s.store.currentQuestion.map (·.matchQuestionId) = shown past
  given : Client.shown past = none → s.store.answered = lastMarked past
  submitted : ∀ q, q ∈ s.submitted ↔ q ∈ marked past

section

variable {past : List Action} {s : Session} {x : Int × Action}

theorem answered_setError (s : LiveMatchState) (p : ErrorPayload) :
    (s.setError p).answered = s.answered := by
  unfold LiveMatchState.setError LiveMatchState.answered
  cases hAnswer : s.myAnswer with
  | none => simp
  | some a =>
    dsimp only
    split
    · rfl
    · rfl

theorem shown_setError (s : LiveMatchState) (p : ErrorPayload) :
    (s.setError p).currentQuestion = s.currentQuestion := by
  unfold LiveMatchState.setError
  split
  · split <;> rfl
  · rfl

theorem maybeLockSkew_same (s : LiveMatchState) (now : Int) (t : Option Micros) :
    (s.maybeLockSkew now t).myAnswer = s.myAnswer ∧
      (s.maybeLockSkew now t).currentQuestion = s.currentQuestion := by
  unfold LiveMatchState.maybeLockSkew
  split
  · exact ⟨rfl, rfl⟩
  · split <;> exact ⟨rfl, rfl⟩

theorem answered_applySnapshot (s : LiveMatchState) (now : Int) (p : SnapshotPayload) :
    (s.applySnapshot now p).answered = s.answered :=
  congrArg (·.bind MyAnswer.matchQuestionId) (maybeLockSkew_same s now _).1

theorem leaderboardUpdated_same (s : LiveMatchState) (version : Int) (top : List LeaderboardEntry) :
    (s.applyLeaderboardUpdated version top).answered = s.answered ∧
      (s.applyLeaderboardUpdated version top).currentQuestion = s.currentQuestion := by
  unfold LiveMatchState.applyLeaderboardUpdated
  split <;> exact ⟨rfl, rfl⟩

theorem Session.After.taken (h : s.After past) (now : Int) (ack i : Id) (accepted : Bool) (score rt : Int) :
    (s.step (now, .applyAnswerAccepted ack i accepted score rt)).store.answered = due past := by
  change (s.store.currentQuestion.map (·.matchQuestionId)).or s.store.answered = due past
  unfold due
  rw [h.shown]
  cases hShown : Client.shown past with
  | some q => rfl
  | none => exact h.given hShown

theorem Session.After.step (h : s.After past) : (s.step x).After (x.2 :: past) := by
  obtain ⟨now, a⟩ := x
  cases a with
  | reset code => exact ⟨rfl, fun _ => rfl, fun q => Iff.rfl⟩
  | applySnapshot p =>
    constructor
    · change (Option.or (p.matchBlock.bind (·.currentQuestion)) s.store.currentQuestion).map _ =
        Option.or _ (Client.shown past)
      rw [← h.shown]
      cases p.matchBlock.bind (·.currentQuestion) <;> rfl
    · intro hNone
      refine (answered_applySnapshot s.store now p).trans (h.given ?_)
      exact (Option.or_eq_none_iff.mp hNone).2
    · exact h.submitted
  | ofMatch m =>
    cases m with
    | matchStarted i count t => exact ⟨rfl, fun _ => rfl, h.submitted⟩
    | questionStarted p => exact ⟨rfl, fun hNone => (by cases hNone), h.submitted⟩
    | questionClosed mq correct explanation accuracy => exact ⟨h.shown, h.given, h.submitted⟩
    | leaderboardUpdated version top =>
      obtain ⟨hAnswered, hQuestion⟩ := leaderboardUpdated_same s.store version top
      exact ⟨(congrArg _ hQuestion).trans h.shown, fun hNone => hAnswered.trans (h.given hNone), h.submitted⟩
    | matchFinished i => exact ⟨h.shown, h.given, h.submitted⟩
  | applyAnswerAccepted ack i accepted score rt =>
    refine ⟨h.shown, fun hNone => ?_, h.submitted⟩
    rw [h.taken now]
    unfold due
    rw [show Client.shown past = none from hNone]
    rfl
  | setError p =>
    refine ⟨(congrArg _ (shown_setError s.store p)).trans h.shown, fun hNone => ?_, h.submitted⟩
    exact (answered_setError s.store p).trans (h.given hNone)
  | markAnswerSubmitted mq selected =>
    refine ⟨h.shown, fun _ => rfl, fun q => ?_⟩
    change q ∈ s.submitted ++ [mq] ↔ q ∈ mq :: marked past
    rw [List.mem_append, List.mem_singleton, List.mem_cons, h.submitted, or_comm]
  | _ => exact ⟨h.shown, h.given, h.submitted⟩

theorem Session.Held.step (h : s.Held) (hAfter : s.After past) (hTimely : Timely past x.2) : (s.step x).Held := by
  obtain ⟨now, a⟩ := x
  intro q hq
  cases a with
  | reset code => cases hq
  | applySnapshot p => exact h q ((answered_applySnapshot s.store now p) ▸ hq)
  | ofMatch m =>
    cases m with
    | matchStarted i count t => cases hq
    | questionStarted p => cases hq
    | leaderboardUpdated version top => exact h q ((leaderboardUpdated_same s.store version top).1 ▸ hq)
    | _ => exact h q hq
  | applyAnswerAccepted ack i accepted score rt =>
    rw [hAfter.taken now] at hq
    exact (hAfter.submitted q).mpr (hTimely.1 q hq)
  | setError p => exact h q ((answered_setError s.store p) ▸ hq)
  | markAnswerSubmitted mq selected =>
    cases hq
    exact List.mem_append_right _ (List.mem_singleton_self _)
  | _ => exact h q hq

theorem attributed_iff_timely (h : s.Held) (hAfter : s.After past) : Attributed s x ↔ Timely past x.2 := by
  constructor
  · intro hAttributed
    obtain ⟨now, a⟩ := x
    cases a with
    | applyAnswerAccepted ack i accepted score rt =>
      have hTaken := hAfter.taken now ack i accepted score rt
      constructor
      · intro t ht
        exact (hAfter.submitted t).mp (hAttributed.submitted t (hTaken.trans ht))
      · rintro rfl
        exact hTaken.symm.trans (hAttributed.acknowledged ack i score rt rfl)
    | _ => trivial
  · intro hTimely
    have hHeld := h.step hAfter hTimely
    constructor
    · exact hHeld
    · obtain ⟨now, a⟩ := x
      rintro q i score rt rfl
      exact (hAfter.taken now q i true score rt).trans (hTimely.2 rfl)
    · intro cq m selected hQuestion hMatch hNew
      have hOpen : (s.step x).store.answered ≠ some cq.matchQuestionId := fun hAnswered =>
        hNew (hHeld _ hAnswered)
      simp only [LiveMatchState.submitAnswer, hQuestion, hMatch]
      exact if_neg hOpen

/-- Over every sequence of actions: each answer belongs to the question it was given to
exactly when each acknowledgement arrives while its question is due. -/
theorem acknowledgements_attributed_iff (code : String) (actions : List (Int × Action)) :
    Every Session.step Attributed (.start code) actions ↔ InTime actions := by
  refine Every.iff_of_related (R := fun s past => s.Held ∧ s.After past)
    ⟨?_, rfl, fun _ => rfl, fun q => Iff.rfl⟩ ?_ ?_
  · intro q hq
    cases hq
  · exact fun s past x h => attributed_iff_timely h.1 h.2
  · exact fun s past x h hTimely => ⟨h.1.step h.2 hTimely, h.2.step⟩

/-- The acknowledgement of the first question's answer arrives in the second. -/
def Demo.late : List (Int × Action) :=
  [(0, .ofMatch (.matchStarted 1 2 0)), (0, .ofMatch (.questionStarted ⟨11, 1, "", .singleChoice, [], 0, 10, 0⟩)),
    (5, .markAnswerSubmitted 11 [3]), (9, .ofMatch (.questionStarted ⟨12, 2, "", .singleChoice, [], 9, 19, 9⟩)),
    (10, .applyAnswerAccepted 11 5 true 100 4)]

/-- The second question counts as answered, and takes no answer. -/
theorem late_acknowledgement_blocks :
    ¬Every Session.step Attributed (.start "AB") Demo.late ∧
    (Demo.late.foldl Session.step (.start "AB")).submitted = [11] ∧
    (Demo.late.foldl Session.step (.start "AB")).store.currentQuestion.map (·.matchQuestionId) = some 12 ∧
    (Demo.late.foldl Session.step (.start "AB")).store.answered = some 12 ∧
    ∀ selected, (Demo.late.foldl Session.step (.start "AB")).store.submitAnswer selected =
      (Demo.late.foldl Session.step (.start "AB")).store := by
  refine ⟨?_, rfl, rfl, rfl, fun _ => rfl⟩
  rintro ⟨-, -, -, -, hLast, -⟩
  have hFirst := hLast.acknowledged 11 5 100 4 rfl
  cases hFirst

end

end LiveQuiz.Client
