import LiveQuiz.Model.Types
import Mathlib.Data.List.Sort

/-! # Redis keys and commands

One field for each key family the match service touches, one command for each
round trip it makes; every command is atomic.
-/

namespace LiveQuiz

set_option autoImplicit false

/-- The JSON record a pause leaves under `match:{id}:pause`. -/
structure PauseRecord where
  position : Option Nat
  remainingMs : Int
  deriving DecidableEq, Repr

/-- The parts of the snapshot under `room:{code}:state` that the match service
rewrites. -/
structure RoomSnapshot where
  status : RoomStatus
  matchBlock : Option (Id × Nat × RoomStatus)
  deriving DecidableEq, Repr

/-- `applied` is a history variable: the submissions whose ZINCRBY has run. -/
structure Redis where
  idem : String → Option Response
  leaderboard : Id → List (Id × Int)
  applied : List Id
  answered : Id → Id → List Id
  nicknames : Id → List (Id × String)
  lbVersion : Id → Nat
  currentQuestion : Id → Option QuestionPayload
  pause : Id → Option PauseRecord
  snapshot : String → Option RoomSnapshot

def Redis.empty : Redis :=
  ⟨fun _ => none, fun _ => [], [], fun _ _ => [], fun _ => [], fun _ => 0, fun _ => none,
    fun _ => none, fun _ => none⟩

def zincrby (members : List (Id × Int)) (member : Id) (delta : Int) : List (Id × Int) :=
  if members.any (·.1 = member) then
    members.map fun x => if x.1 = member then (x.1, x.2 + delta) else x
  else members ++ [(member, delta)]

/-- The score of a member, zero when it is absent. -/
def zscore (members : List (Id × Int)) (member : Id) : Int :=
  match members.find? (·.1 = member) with
  | some x => x.2
  | none => 0

/-- ZREVRANGE: scores descending, equal scores by member string descending. -/
def zrevrange (members : List (Id × Int)) (n : Nat) : List (Id × Int) :=
  (members.insertionSort fun a b =>
    b.2 < a.2 ∨ (a.2 = b.2 ∧ toString b.1 ≤ toString a.1)).take n

def hset (fields : List (Id × String)) (pairs : List (Id × String)) : List (Id × String) :=
  pairs.foldl (fun h p => h.filter (·.1 ≠ p.1) ++ [p]) fields

def hget (fields : List (Id × String)) (field : Id) : Option String :=
  (fields.find? (·.1 = field)).map (·.2)

/-- `idemSet` is SET NX: the first stored response wins. `zaddTotal` carries, as a
history tag, the submission it counts. -/
inductive RedisCmd where
  | idemGet (requestId : String)
  | idemSet (requestId : String) (response : Response)
  | zaddTotal (matchId participantId : Id) (delta : Int) (submissionId : Id)
  | markAnswered (matchId questionId participantId : Id)
  | answeredCount (matchId questionId : Id)
  | setNicknames (matchId : Id) (pairs : List (Id × String))
  | zrevrange (matchId : Id) (n : Nat)
  | hmgetNicknames (matchId : Id) (participantIds : List Id)
  | incrLbVersion (matchId : Id)
  | resetLeaderboard (matchId : Id)
  | setCurrentQuestion (matchId : Id) (payload : QuestionPayload)
  | setPause (matchId : Id) (record : PauseRecord)
  | getPause (matchId : Id)
  | readSnapshot (code : String)
  | writeSnapshot (code : String) (snapshot : RoomSnapshot)
  deriving DecidableEq, Repr

@[reducible] def RedisCmd.Reply : RedisCmd → Type
  | .idemGet _ => Option Response
  | .zrevrange _ _ => List (Id × Int)
  | .markAnswered _ _ _ => Nat
  | .answeredCount _ _ => Nat
  | .hmgetNicknames _ _ => List (Option String)
  | .incrLbVersion _ => Nat
  | .getPause _ => Option PauseRecord
  | .readSnapshot _ => Option RoomSnapshot
  | _ => Unit

def Redis.sadd (r : Redis) (m q p : Id) : Redis :=
  { r with
    answered := fun m' q' =>
      if m' = m ∧ q' = q then
        if p ∈ r.answered m q then r.answered m q else r.answered m q ++ [p]
      else r.answered m' q' }

def RedisCmd.run (r : Redis) : (c : RedisCmd) → Redis × c.Reply
  | .idemGet k => (r, r.idem k)
  | .idemSet k resp =>
    (match r.idem k with
      | some _ => r
      | none => { r with idem := Function.update r.idem k (some resp) }, ())
  | .zaddTotal m p d i =>
    ({ r with
      leaderboard := Function.update r.leaderboard m (zincrby (r.leaderboard m) p d)
      applied := r.applied ++ [i] }, ())
  | .markAnswered m q p => (r.sadd m q p, ((r.sadd m q p).answered m q).length)
  | .answeredCount m q => (r, (r.answered m q).length)
  | .setNicknames m pairs =>
    ({ r with nicknames := Function.update r.nicknames m (hset (r.nicknames m) pairs) }, ())
  | .zrevrange m n => (r, LiveQuiz.zrevrange (r.leaderboard m) n)
  | .hmgetNicknames m ps => (r, ps.map (hget (r.nicknames m)))
  | .incrLbVersion m =>
    ({ r with lbVersion := Function.update r.lbVersion m (r.lbVersion m + 1) }, r.lbVersion m + 1)
  | .resetLeaderboard m =>
    ({ r with
      leaderboard := Function.update r.leaderboard m []
      nicknames := Function.update r.nicknames m [] }, ())
  | .setCurrentQuestion m p =>
    ({ r with currentQuestion := Function.update r.currentQuestion m (some p) }, ())
  | .setPause m rec => ({ r with pause := Function.update r.pause m (some rec) }, ())
  | .getPause m => (r, r.pause m)
  | .readSnapshot c => (r, r.snapshot c)
  | .writeSnapshot c s => ({ r with snapshot := Function.update r.snapshot c (some s) }, ())

end LiveQuiz
