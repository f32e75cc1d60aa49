import LiveQuiz.Model.Types

/-! # The live-match store

The state of one browser tab in a room and the actions that the socket's messages
dispatch to. An id that the client keeps as a string is an `Id` here, and the empty
string in its place is `none`. `now` is the client's clock in milliseconds.
-/

namespace LiveQuiz.Client

set_option autoImplicit false

inductive Connection where
  | idle | connecting | opened | reconnecting | closed
  deriving DecidableEq, Repr

structure SnapshotRoom where
  code : String
  status : RoomStatus
  playerCount : Nat
  deriving DecidableEq, Repr

structure SnapshotParticipant where
  participantId : Id
  nickname : String
  online : Bool
  deriving DecidableEq, Repr

/-- The `match` block of a snapshot, of which only the id is always there. -/
structure SnapshotMatch where
  matchId : Id
  questionCount : Option Nat
  status : Option RoomStatus
  currentQuestion : Option QuestionPayload
  deriving DecidableEq, Repr

structure SnapshotPayload where
  room : SnapshotRoom
  participants : List SnapshotParticipant
  matchBlock : Option SnapshotMatch
  leaderboard : List LeaderboardEntry
  deriving DecidableEq, Repr

structure MatchInfo where
  matchId : Id
  questionCount : Nat
  status : RoomStatus
  deriving DecidableEq, Repr

structure MyAnswer where
  matchQuestionId : Option Id
  selectedOptionIds : List Id
  pending : Bool
  accepted : Bool
  tooLate : Bool
  submissionId : Option Id := none
  scoreAwarded : Option Int := none
  responseTimeMs : Option Int := none
  deriving DecidableEq, Repr

structure QuestionClosedPayload where
  matchQuestionId : Id
  correctOptionIds : List Id
  explanation : Option String
  accuracyPercent : Option ℚ
  deriving DecidableEq, Repr

structure ErrorPayload where
  code : String
  message : Option String
  retryAfterMs : Option Int
  deriving DecidableEq, Repr

structure Standing where
  version : Int
  top : List LeaderboardEntry
  deriving DecidableEq, Repr

structure LiveMatchState where
  roomCode : Option String := none
  connection : Connection := .idle
  room : Option SnapshotRoom := none
  participants : List SnapshotParticipant := []
  playerCount : Nat := 0
  matchInfo : Option MatchInfo := none
  currentQuestion : Option QuestionPayload := none
  closedQuestion : Option QuestionClosedPayload := none
  leaderboard : Standing := ⟨-1, []⟩
  myAnswer : Option MyAnswer := none
  clockSkewMs : Int := 0
  skewLocked : Bool := false
  finished : Option Id := none
  lastError : Option ErrorPayload := none
  deriving DecidableEq, Repr

def emptyState : LiveMatchState := {}

namespace LiveMatchState

variable (s : LiveMatchState)

def reset (_ : LiveMatchState) (code : String) : LiveMatchState :=
  { emptyState with roomCode := some code, connection := .connecting }

def setConnection (c : Connection) : LiveMatchState := { s with connection := c }

/-- The first server time that arrives fixes the skew. -/
def maybeLockSkew (now : Int) : Option Micros → LiveMatchState
  | none => s
  | some serverNow =>
    if s.skewLocked then s else { s with clockSkewMs := serverNow / 1000 - now, skewLocked := true }

def matchFromSnapshot (m : SnapshotMatch) : MatchInfo :=
  ⟨m.matchId, m.questionCount.getD 0, m.status.getD .running⟩

def applySnapshot (now : Int) (p : SnapshotPayload) : LiveMatchState :=
  let cq := p.matchBlock.bind (·.currentQuestion)
  { s.maybeLockSkew now (cq.map (·.serverNow)) with
    room := some p.room
    participants := p.participants
    playerCount := p.room.playerCount
    matchInfo := p.matchBlock.map matchFromSnapshot
    currentQuestion := cq.or s.currentQuestion
    leaderboard :=
      if p.leaderboard.isEmpty then s.leaderboard
      else ⟨max 0 s.leaderboard.version, p.leaderboard⟩ }

def applyParticipantJoined (participantId : Id) (nickname : String) (playerCount : Nat) :
    LiveMatchState :=
  { s with
    participants :=
      if s.participants.any (·.participantId = participantId) then
        s.participants.map fun x =>
          if x.participantId = participantId then { x with online := true, nickname := nickname }
          else x
      else s.participants ++ [⟨participantId, nickname, true⟩]
    playerCount := playerCount }

def applyParticipantLeft (participantId : Id) (playerCount : Nat) : LiveMatchState :=
  { s with
    participants := s.participants.map fun x =>
      if x.participantId = participantId then { x with online := false } else x
    playerCount := playerCount }

def applyMatchStarted (now : Int) (matchId : Id) (questionCount : Nat) (serverNow : Micros) :
    LiveMatchState :=
  { s.maybeLockSkew now (some serverNow) with
    matchInfo := some ⟨matchId, questionCount, .running⟩
    room := s.room.map fun r => { r with status := .running }
    finished := none
    closedQuestion := none
    currentQuestion := none
    myAnswer := none }

def applyQuestionStarted (now : Int) (p : QuestionPayload) : LiveMatchState :=
  { s.maybeLockSkew now (some p.serverNow) with
    currentQuestion := some p
    closedQuestion := none
    myAnswer := none
    lastError := none }

def applyAnswerAccepted (submissionId : Id) (accepted : Bool) (scoreAwarded responseTimeMs : Int) :
    LiveMatchState :=
  { s with
    myAnswer := some
      { matchQuestionId := (s.currentQuestion.map (·.matchQuestionId)).or
          (s.myAnswer.bind (·.matchQuestionId))
        selectedOptionIds := (s.myAnswer.map (·.selectedOptionIds)).getD []
        pending := false
        accepted := accepted
        tooLate := false
        submissionId := some submissionId
        scoreAwarded := some scoreAwarded
        responseTimeMs := some responseTimeMs } }

def applyLeaderboardUpdated (version : Int) (top : List LeaderboardEntry) : LiveMatchState :=
  if s.leaderboard.version ≤ version then { s with leaderboard := ⟨version, top⟩ } else s

def applyQuestionClosed (p : QuestionClosedPayload) : LiveMatchState :=
  { s with closedQuestion := some p }

def applyMatchFinished (matchId : Id) : LiveMatchState :=
  { s with
    finished := some matchId
    matchInfo := s.matchInfo.map fun m => { m with status := .completed }
    room := s.room.map fun r => { r with status := .completed } }

def setError (p : ErrorPayload) : LiveMatchState :=
  match s.myAnswer with
  | some a =>
    if a.pending then
      { s with
        lastError := some p
        myAnswer := some { a with pending := false, tooLate := p.code = "QUESTION_CLOSED" } }
    else { s with lastError := some p }
  | none => { s with lastError := some p }

def markAnswerSubmitted (matchQuestionId : Id) (selectedOptionIds : List Id) : LiveMatchState :=
  { s with myAnswer := some ⟨some matchQuestionId, selectedOptionIds, true, false, false, none, none, none⟩ }

/-- `dispatch`, for the messages that a match broadcasts to its room. -/
def dispatch (now : Int) : Message → LiveMatchState
  | .matchStarted matchId questionCount serverNow =>
    s.applyMatchStarted now matchId questionCount serverNow
  | .questionStarted p => s.applyQuestionStarted now p
  | .questionClosed mq correct explanation accuracy =>
    s.applyQuestionClosed ⟨mq, correct, explanation, accuracy⟩
  | .leaderboardUpdated version top => s.applyLeaderboardUpdated version top
  | .matchFinished matchId => s.applyMatchFinished matchId

end LiveMatchState

/-- One update: the greatest one replaces any, another one only an older. -/
theorem applyLeaderboardUpdated_cases {u best : Nat × List LeaderboardEntry} {s : LiveMatchState}
    (hBest : u ≠ best → u.1 < best.1)
    (h : s.leaderboard.version < best.1 ∨ s.leaderboard = ⟨best.1, best.2⟩) :
    (s.applyLeaderboardUpdated u.1 u.2).leaderboard = ⟨best.1, best.2⟩ ∨
      (u ≠ best ∧ s.leaderboard.version < best.1 ∧
        (s.applyLeaderboardUpdated u.1 u.2).leaderboard.version < best.1) := by
  unfold LiveMatchState.applyLeaderboardUpdated
  by_cases hu : u = best
  · subst hu
    have hLe : s.leaderboard.version ≤ u.1 := by
      obtain hLt | hEq := h
      · omega
      · exact Int.le_of_eq (by rw [hEq])
    rw [if_pos hLe]
    exact .inl rfl
  · have hLt := hBest hu
    split
    next hLe =>
      obtain hOld | hEq := h
      · refine .inr ⟨hu, hOld, ?_⟩
        dsimp only
        omega
      · rw [hEq] at hLe
        dsimp only at hLe
        omega
    · obtain hOld | hEq := h
      · exact .inr ⟨hu, hOld, hOld⟩
      · exact .inl hEq

/-- The client has the update with the greatest version, whatever the order they come in. -/
theorem foldl_applyLeaderboardUpdated {updates : List (Nat × List LeaderboardEntry)}
    {best : Nat × List LeaderboardEntry} {s : LiveMatchState}
    (hBest : ∀ u ∈ updates, u ≠ best → u.1 < best.1)
    (h : (s.leaderboard.version < best.1 ∧ best ∈ updates) ∨ s.leaderboard = ⟨best.1, best.2⟩) :
    (updates.foldl (fun s u => s.applyLeaderboardUpdated u.1 u.2) s).leaderboard =
      ⟨best.1, best.2⟩ := by
  induction updates generalizing s with
  | nil =>
    obtain ⟨-, hMem⟩ | hEq := h
    · cases hMem
    · exact hEq
  | cons u us ih =>
    rw [List.foldl_cons]
    refine ih (fun v hv => hBest v (List.mem_cons_of_mem _ hv)) ?_
    obtain hEq | ⟨hOther, hLt, hLt'⟩ := applyLeaderboardUpdated_cases (hBest u List.mem_cons_self)
      (h.imp_left fun hOld => hOld.1)
    · exact .inr hEq
    · refine .inl ⟨hLt', ?_⟩
      obtain ⟨-, hMem⟩ | hEq := h
      · exact (List.mem_cons.mp hMem).resolve_left (Ne.symm hOther)
      · rw [hEq] at hLt
        exact absurd hLt (by simp)

end LiveQuiz.Client
