import LiveQuiz.Service.EndMatch

/-! # `read_leaderboard`

The three places a leaderboard is read from: the final scores of a completed match, the
sorted set, or, under `LEADERBOARD_BACKEND=pg`, the submissions grouped by participant.
-/

namespace LiveQuiz

set_option autoImplicit false

inductive LeaderboardBackend where
  | redis | pg
  deriving DecidableEq, Repr

structure LeaderboardResponse where
  matchId : Id
  isFinal : Bool
  entries : List LeaderboardEntry
  deriving DecidableEq, Repr

/-- `nick_by_id.get(pid, "")` on the rows with these ids. -/
def nickById (db : Db) (participantId : Id) : String :=
  ((db.participants.find? (·.id = participantId)).map (·.nickname)).getD ""

/-- `list_by_match_ordered_by_rank`. -/
def finalRows (db : Db) (matchId : Id) : List FinalScore :=
  sortBy (fun f => (f.rank : Int)) (db.finalScores.filter (·.matchId = matchId))

def finalEntries (db : Db) (matchId : Id) (limit : Nat) : List LeaderboardEntry :=
  ((finalRows db matchId).take limit).map fun r =>
    ⟨r.rank, r.participantId, nickById db r.participantId, r.totalScore⟩

/-- One row of the GROUP BY. -/
structure PgRow where
  participantId : Id
  score : Int
  avgRt : ℚ
  deriving DecidableEq, Repr

def PgRow.ofGroup (subs : List AnswerSubmission) (participantId : Id) : PgRow :=
  let own := subs.filter (·.participantId = participantId)
  ⟨participantId, (own.map (·.scoreAwarded)).sum, (own.map (·.responseTimeMs)).sum / own.length⟩

/-- `ORDER BY score DESC, avg_rt ASC`; `plan` is the order in which the server leaves the
groups that the clause does not tell apart. -/
def PgRow.before (plan : List Id) (a b : PgRow) : Prop :=
  b.score < a.score ∨ (a.score = b.score ∧ (a.avgRt < b.avgRt ∨
    (a.avgRt = b.avgRt ∧ plan.idxOf a.participantId ≤ plan.idxOf b.participantId)))

instance (plan : List Id) (a b : PgRow) : Decidable (a.before plan b) :=
  inferInstanceAs (Decidable (_ ∨ _))

def pgRows (plan : List Id) (subs : List AnswerSubmission) : List PgRow :=
  ((subs.map (·.participantId)).eraseDups.map (PgRow.ofGroup subs)).insertionSort (PgRow.before plan)

def pgEntries (plan : List Id) (db : Db) (matchId : Id) (limit : Nat) : List LeaderboardEntry :=
  ((pgRows plan (db.submissions.filter (·.matchId = matchId))).take limit).mapIdx fun i row =>
    ⟨i + 1, row.participantId, nickById db row.participantId, row.score⟩

/-- `lb_cache.top` on one state; ZREVRANGE is asked for the range from `0` to
`max(0, n - 1)`. -/
def topEntries (r : Redis) (matchId : Id) (n : Nat) : List LeaderboardEntry :=
  (zrevrange (r.leaderboard matchId) (n - 1 + 1)).mapIdx fun i x =>
    ⟨i + 1, x.1, (hget (r.nicknames matchId) x.1).getD "", x.2⟩

def readLeaderboard (backend : LeaderboardBackend) (plan : List Id) (db : Db) (r : Redis)
    (matchId : Id) (limit : Nat) : Except Exn LeaderboardResponse :=
  match db.matches'.find? (·.id = matchId) with
  | none => .error (.auth "ROOM_NOT_FOUND" 404 "match not found" [])
  | some m =>
    if m.status = .completed then .ok ⟨matchId, true, finalEntries db matchId limit⟩
    else
      match backend with
      | .pg => .ok ⟨matchId, false, pgEntries plan db matchId limit⟩
      | .redis => .ok ⟨matchId, false, topEntries r matchId limit⟩

end LiveQuiz
