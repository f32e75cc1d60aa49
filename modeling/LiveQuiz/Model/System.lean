import LiveQuiz.Service.SubmitAnswer
import LiveQuiz.Service.Questions
import LiveQuiz.Service.HostControls

/-! # The match service as one machine

Every job runs its coroutine; a run interleaves the calls of any number of them,
on any number of replicas, with the actions of the environment.
-/

namespace LiveQuiz

open Coroutine

set_option autoImplicit false

/-- What a job returns. -/
inductive Ret where
  | unit
  | count (n : Nat)
  | matchRow (m : Match)
  | response (r : Response)
  deriving DecidableEq, Repr

def jobBody : Job → Coro Ret
  | .startMatch h c => .matchRow <$> startMatch h c
  | .pauseMatch h c => .matchRow <$> pauseMatch h c
  | .resumeMatch h c => .matchRow <$> resumeMatch h c
  | .endMatch m h => .matchRow <$> endMatch m h
  | .submitAnswer m p payload r => .response <$> submitAnswer m p payload r
  | .recoverRunningMatches => .count <$> recoverRunningMatches
  | .armQuestion m p => (fun _ => .unit) <$> armQuestion m p
  | .closeQuestion m p => (fun _ => .unit) <$> closeQuestion m p
  | .closeQuestionAfter m p d => (fun _ => .unit) <$> closeQuestionAfter m p d
  | .gapThenArm m p d => (fun _ => .unit) <$> gapThenArm m p d

def service : Machine World Op Op.Res Exn Ret Task Decision EnvAction where
  exec := exec
  env := env
  body := fun t => jobBody t.job

abbrev SysState := State World Op Op.Res Exn Ret Task

abbrev SysLabel := Label Decision EnvAction

/-- The rows the other services have stored before any match. -/
structure Seed where
  rooms : List Room
  participants : List RoomParticipant
  quizSets : List QuizSet
  questions : List Question
  options : List AnswerOption

def World.genesis (seed : Seed) : World where
  db := { emptyDb with
    rooms := seed.rooms, participants := seed.participants, quizSets := seed.quizSets
    questions := seed.questions, options := seed.options }
  redis := .empty
  tx := fun _ => {}
  lock := fun _ => none
  now := 0
  phase := fun _ => .off
  active := fun _ _ => none
  cancelling := fun _ => false
  wal := []
  requests := []
  sent := []

def initial (seed : Seed) : SysState := ⟨.genesis seed, []⟩

end LiveQuiz
