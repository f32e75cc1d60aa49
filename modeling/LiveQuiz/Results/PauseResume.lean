import LiveQuiz.Protocol.Watch
import LiveQuiz.Service.HostControls
import LiveQuiz.Service.Questions

/-! # Time across pauses

A pause writes down how many whole milliseconds are left, a resume puts the deadline
that far ahead again. A monitor keeps what a request has been told, so that the
values it writes can be read off its calls.
-/

namespace LiveQuiz

open Coroutine

set_option autoImplicit false

namespace PauseResume

/-- The last answers to a request: the clock, the match's questions, the open one as
the identity map holds it, the time limit, the pause record. -/
structure Heard where
  clock : Option Micros := none
  loaded : List MatchQuestion := []
  active : Option MatchQuestion := none
  limit : Option Int := none
  record : Option PauseRecord := none

def Heard.hear (h : Heard) : (o : Op) → Except Exn o.Res → Heard
  | .utcnow, .ok now => { h with clock := some now }
  | .select (.questionsOfMatch _), .ok rows => { h with loaded := rows }
  | .select (.openQuestion _), .ok row => { h with active := row.map (identityMapped h.loaded) }
  | .select (.getQuestion _), .ok question =>
    { h with limit := question.map (·.timeLimitSeconds) }
  | .redis (.getPause _), .ok record => { h with record := record }
  | _, _ => h

/-- The deadline an UPDATE may write, with or without a new start. -/
def Heard.Sets (h : Heard) : Option Micros → Micros → Prop
  | some startedAt, deadlineAt =>
    h.clock = some startedAt ∧ ∃ seconds ∈ h.limit, deadlineAt = startedAt + ofSeconds seconds
  | none, deadlineAt => ∃ now ∈ h.clock,
    deadlineAt = now + ofMillis (max 0 (h.record.getD ⟨none, 0⟩).remainingMs)

def Heard.Allows (h : Heard) : Op → Prop
  | .flush ws => ∀ i startedAt deadlineAt closedAt,
      .updateMatchQuestion i startedAt (some deadlineAt) closedAt ∈ ws →
        h.Sets startedAt deadlineAt
  | .redis (.setPause _ record) => ∀ mq deadlineAt, h.active = some mq →
      mq.deadlineAt = some deadlineAt →
        ∃ now ∈ h.clock, record.remainingMs = max 0 (toMillis (deadlineAt - now))
  | _ => True

def watch : Monitor Op Op.Res Exn Heard := ⟨Heard.Allows, Heard.hear⟩

section

variable {α β : Type} {h : Heard} {Q : Heard → Except Exn α → Prop}

theorem hostedMatch_watch {host : Id} {code : String} {status : RoomStatus} {message : String}
    {f : Room × Match × List MatchQuestion → Coro α} (hQ : Watch.Lax Q)
    (hNext : ∀ room m loaded (h : Heard), h.loaded = loaded →
      Follows watch Q h (f (room, m, loaded))) :
    Follows watch Q h (hostedMatch host code status message >>= f) := by
  apply Follows.bind
  unfold hostedMatch
  apply Watch.call hQ.bind
  · trivial
  intro room
  split
  case h_2 => exact Watch.refused hQ.bind
  split
  · exact Watch.refused hQ.bind
  apply Watch.call hQ.bind
  · trivial
  intro m
  split
  case h_2 => exact Watch.refused hQ.bind
  apply Watch.call hQ.bind
  · trivial
  intro loaded
  split
  · exact Watch.refused hQ.bind
  · exact hNext _ _ _ _ rfl

theorem pauseMatch_watch (host : Id) (code : String) :
    Follows watch (fun _ _ => True) h (pauseMatch host code) := by
  apply Watch.withSession (fun _ => trivial) (fun _ _ => trivial)
  apply hostedMatch_watch (fun _ _ => trivial)
  rintro room m loaded h rfl
  apply Watch.call (fun _ _ => trivial)
  · trivial
  intro active
  have hRest : ∀ (h' : Heard) (remaining : Int),
      h'.Allows (.redis (.setPause m.id
        ⟨(active.map (identityMapped h.loaded)).map (·.position), remaining⟩)) →
      Follows watch (fun _ _ => True) h' (do
        flush [.updateRoom room.id .paused none none, .updateMatch m.id .paused none]
        commit
        cancelActive m.id
        redis (.setPause m.id
          ⟨(active.map (identityMapped h.loaded)).map (·.position), remaining⟩)
        return m.patch .paused none) := by
    intro h' remaining hAllows
    apply Watch.call (fun _ _ => trivial)
    · simp [watch, Heard.Allows]
    intro _
    apply Watch.call (fun _ _ => trivial)
    · trivial
    intro _
    apply Watch.call (fun _ _ => trivial)
    · trivial
    intro _
    apply Watch.call (fun _ _ => trivial)
    · exact hAllows
    intro _
    trivial
  apply Follows.bind
  unfold remainingMs
  split
  case h_1 hNone =>
    apply hRest
    intro mq deadlineAt hActive hDeadline
    have hSome : active.map (identityMapped h.loaded) = some mq := hActive
    rw [hSome] at hNone
    exact absurd (hNone.symm.trans hDeadline) (by simp)
  case h_2 deadlineAt hSome =>
    apply Watch.call (fun _ _ => trivial)
    · trivial
    intro now
    apply hRest
    intro mq deadlineAt' hActive hDeadline
    have hMapped : active.map (identityMapped h.loaded) = some mq := hActive
    rw [hMapped] at hSome
    obtain rfl : deadlineAt = deadlineAt' := Option.some.inj (hSome.symm.trans hDeadline)
    exact ⟨now, rfl, rfl⟩

theorem rearm_watch {m : Id} {position : Option Nat} {remaining : Int} {f : Unit → Coro α}
    (hQ : Watch.Lax Q) (hNext : ∀ h, Follows watch Q h (f ())) :
    Follows watch Q h (rearm m position remaining >>= f) := by
  have hArm : ∀ h, Follows watch (Before watch Q f) h (rearm.armNext m) := by
    intro h
    apply Watch.call hQ.bind
    · trivial
    intro next
    split
    · exact Watch.last trivial fun h r => by cases r <;> [exact hQ _ _; exact hNext h]
    · exact hNext _
  apply Follows.bind
  unfold rearm
  split
  · split
    · exact Watch.last trivial fun h r => by cases r <;> [exact hQ _ _; exact hNext h]
    · exact hArm _
  · exact hArm _

theorem resumeMatch_watch (host : Id) (code : String) :
    Follows watch (fun _ _ => True) h (resumeMatch host code) := by
  apply Watch.withSession (fun _ => trivial) (fun _ _ => trivial)
  apply hostedMatch_watch (fun _ _ => trivial)
  rintro room m loaded h -
  apply Watch.call (fun _ _ => trivial)
  · trivial
  intro record
  have hRest : ∀ (h' : Heard) (deadline : List Write),
      (∀ i startedAt deadlineAt closedAt,
        .updateMatchQuestion i startedAt (some deadlineAt) closedAt ∈ deadline →
          h'.Sets startedAt deadlineAt) →
      Follows watch (fun _ _ => True) h' (do
        flush ([.updateRoom room.id .running none none, .updateMatch m.id .running none] ++ deadline)
        commit
        rearm m.id (record.getD ⟨none, 0⟩).position (record.getD ⟨none, 0⟩).remainingMs
        return m.patch .running none) := by
    intro h' deadline hSets
    apply Watch.call (fun _ _ => trivial)
    · simpa [watch, Heard.Allows] using hSets
    intro _
    apply Watch.call (fun _ _ => trivial)
    · trivial
    intro _
    apply rearm_watch (fun _ _ => trivial)
    intro _
    trivial
  apply Follows.bind
  unfold extendDeadline
  split
  · apply hRest
    simp
  apply Watch.call (fun _ _ => trivial)
  · trivial
  intro row
  split
  case h_2 =>
    apply hRest
    simp
  split
  · apply hRest
    simp
  apply Watch.call (fun _ _ => trivial)
  · trivial
  intro now
  apply hRest
  intro i startedAt deadlineAt closedAt hMem
  obtain ⟨-, rfl, hDeadline, -⟩ := Write.updateMatchQuestion.inj (List.mem_singleton.mp hMem)
  exact ⟨now, rfl, Option.some.inj hDeadline⟩

theorem armTx_watch (matchId : Id) (position : Nat)
    {f : Option (String × Micros × QuestionPayload) → Coro α} (hQ : Watch.Lax Q)
    (hNext : ∀ h a, Follows watch Q h (f a)) :
    Follows watch Q h (armTx matchId position >>= f) := by
  apply Follows.bind
  unfold armTx
  apply Watch.call hQ.bind
  · trivial
  intro mq
  split
  case h_2 => exact hNext _ _
  split
  · exact hNext _ _
  apply Watch.call hQ.bind
  · trivial
  intro m
  split
  case h_2 => exact hNext _ _
  split
  · exact hNext _ _
  apply Watch.call hQ.bind
  · trivial
  intro question
  split
  case h_2 => exact hNext _ _
  apply Watch.call hQ.bind
  · trivial
  intro options
  apply Watch.call hQ.bind
  · trivial
  intro room
  split
  case h_2 => exact hNext _ _
  apply Watch.call hQ.bind
  · trivial
  intro startedAt
  apply Watch.call hQ.bind
  · trivial
  intro eventId
  apply Watch.call hQ.bind
  · intro i startedAt' deadlineAt closedAt hMem
    obtain hStart | hEvent := List.mem_pair.mp hMem
    · obtain ⟨-, rfl, hDeadline, -⟩ := Write.updateMatchQuestion.inj hStart
      exact ⟨rfl, _, rfl, Option.some.inj hDeadline⟩
    · exact absurd hEvent (by simp)
  intro _
  apply Watch.call hQ.bind
  · trivial
  intro serverNow
  exact hNext _ _

theorem armQuestion_watch (matchId : Id) (position : Nat) :
    Follows watch (fun _ _ => True) h (armQuestion matchId position) := by
  have hTx : Follows watch (fun _ _ => True) h (inTransaction (armTx matchId position)) := by
    apply Watch.withSession (fun _ => trivial) (fun _ _ => trivial)
    apply armTx_watch _ _ (fun _ _ => trivial)
    intro h a
    apply Watch.call (fun _ _ => trivial)
    · trivial
    intro _
    trivial
  apply Follows.bind
  apply Watch.exceptException (fun _ _ => trivial) hTx
  intro h armed
  cases armed with
  | none => trivial
  | some told =>
    apply Watch.call (fun _ _ => trivial)
    · trivial
    intro _
    apply Watch.broadcast (fun _ _ => trivial) trivial (fun _ => trivial)
    intro h
    apply Watch.call (fun _ _ => trivial)
    · trivial
    intro now
    apply Watch.last
    · trivial
    · exact fun _ _ => trivial

end

def heard (log : List ((o : Op) × Except Exn o.Res)) : Heard := watch.after {} log

/-- A run of `arm_question` on the row `mq`, with a limit of `seconds`. -/
def Arms (mq : Id) (seconds : Int) (startedAt deadlineAt : Micros) : Prop :=
  ∃ matchId position before ws after r,
    Plays (armQuestion matchId position) (before ++ ⟨.flush ws, .ok ()⟩ :: after) r ∧
      (heard before).limit = some seconds ∧
      .updateMatchQuestion mq (some startedAt) (some deadlineAt) none ∈ ws

/-- A run of `pause_match` that finds `mq` open with this deadline, reads the clock at
`pausedAt` and writes `record`. -/
def Pauses (mq : Id) (deadlineAt pausedAt : Micros) (record : PauseRecord) : Prop :=
  ∃ host code matchId before after r row,
    Plays (pauseMatch host code)
      (before ++ ⟨.redis (.setPause matchId record), .ok ()⟩ :: after) r ∧
      (heard before).active = some row ∧ row.id = mq ∧ row.deadlineAt = some deadlineAt ∧
      (heard before).clock = some pausedAt

/-- A run of `resume_match` that reads `record`, and the clock at `resumedAt`, and gives
`mq` this deadline. -/
def Resumes (mq : Id) (record : PauseRecord) (resumedAt deadlineAt : Micros) : Prop :=
  ∃ host code before ws after r,
    Plays (resumeMatch host code) (before ++ ⟨.flush ws, .ok ()⟩ :: after) r ∧
      (heard before).record = some record ∧ (heard before).clock = some resumedAt ∧
      .updateMatchQuestion mq none (some deadlineAt) none ∈ ws

/-- A question armed and then paused and resumed so many times: since when it runs,
until when, and how long it ran before that. -/
inductive Course (mq : Id) (seconds : Int) : Nat → Micros → Micros → Micros → Prop
  | armed {startedAt deadlineAt : Micros} (hArm : Arms mq seconds startedAt deadlineAt) :
      Course mq seconds 0 startedAt deadlineAt 0
  | cycle {n : Nat} {since deadlineAt spent pausedAt resumedAt deadlineAt' : Micros}
      {record : PauseRecord} (hCourse : Course mq seconds n since deadlineAt spent)
      (hAfter : since ≤ pausedAt) (hLeft : ofMillis 1 ≤ deadlineAt - pausedAt)
      (hPause : Pauses mq deadlineAt pausedAt record)
      (hResume : Resumes mq record resumedAt deadlineAt') :
      Course mq seconds (n + 1) resumedAt deadlineAt' (spent + (pausedAt - since))

section

variable {mq : Id} {seconds : Int} {startedAt deadlineAt pausedAt resumedAt : Micros}
  {record : PauseRecord}

theorem Arms.deadline (h : Arms mq seconds startedAt deadlineAt) :
    deadlineAt = startedAt + ofSeconds seconds := by
  obtain ⟨matchId, position, before, ws, after, r, hPlays, hLimit, hMem⟩ := h
  obtain ⟨-, seconds', hSeconds, hDeadline⟩ :=
    (armQuestion_watch matchId position).allowed_at hPlays _ _ _ _ hMem
  obtain rfl : seconds = seconds' := Option.some.inj (hLimit.symm.trans hSeconds)
  exact hDeadline

theorem Pauses.remaining (h : Pauses mq deadlineAt pausedAt record) :
    record.remainingMs = max 0 (toMillis (deadlineAt - pausedAt)) := by
  obtain ⟨host, code, matchId, before, after, r, row, hPlays, hActive, -, hDeadline, hClock⟩ := h
  obtain ⟨now, hNow, hRemaining⟩ :=
    (pauseMatch_watch host code).allowed_at hPlays _ _ hActive hDeadline
  obtain rfl : pausedAt = now := Option.some.inj (hClock.symm.trans hNow)
  exact hRemaining

theorem Resumes.deadline (h : Resumes mq record resumedAt deadlineAt) :
    deadlineAt = resumedAt + ofMillis (max 0 record.remainingMs) := by
  obtain ⟨host, code, before, ws, after, r, hPlays, hRecord, hClock, hMem⟩ := h
  obtain ⟨now, hNow, hDeadline⟩ :=
    (resumeMatch_watch host code).allowed_at hPlays _ _ _ _ hMem
  obtain rfl : resumedAt = now := Option.some.inj (hClock.symm.trans hNow)
  have hRead : (watch.after {} before).record = some record := hRecord
  rwa [hRead] at hDeadline

end

def millisFloat (d : Int) : ℚ := nearestDouble (nearestDouble (d / 1000000) * 1000)

theorem abs_millisFloat_sub_lt {d : Int} (hNonneg : 0 ≤ d) (hSmall : d ≤ 2 ^ 50) :
    0 ≤ millisFloat d ∧ |1000 * millisFloat d - d| < 1 := by
  have hd : (0 : ℚ) ≤ d := by exact_mod_cast hNonneg
  have hd' : (d : ℚ) ≤ 2 ^ 50 := by exact_mod_cast hSmall
  have hSeconds := abs_le.mp (abs_nearestDouble_sub_le (x := d / 1000000) (by positivity))
  have hSecondsNonneg : 0 ≤ nearestDouble (d / 1000000) := by linarith
  have hMillis := abs_le.mp (abs_nearestDouble_sub_le (x := nearestDouble (d / 1000000) * 1000)
    (by positivity))
  unfold millisFloat
  constructor
  · linarith
  · rw [abs_lt]
    constructor <;> linarith

theorem toMillis_bounds {d : Int} (hNonneg : 0 ≤ d) (hSmall : d ≤ 2 ^ 50) :
    1000 * toMillis d ≤ d ∧ d ≤ 1000 * toMillis d + 1000 := by
  obtain ⟨hFloatNonneg, hNear⟩ := abs_millisFloat_sub_lt hNonneg hSmall
  obtain ⟨hAbove, hBelow⟩ := abs_lt.mp hNear
  have hTruncate : toMillis d = ⌊millisFloat d⌋ := if_pos hFloatNonneg
  have hFloor := Int.floor_le (millisFloat d)
  have hNext := Int.lt_floor_add_one (millisFloat d)
  rw [hTruncate]
  have hLow : ((1000 * ⌊millisFloat d⌋ : Int) : ℚ) < (d + 1 : Int) := by
    push_cast
    linarith
  have hHigh : ((d - 1 : Int) : ℚ) < (1000 * ⌊millisFloat d⌋ + 1000 : Int) := by
    push_cast
    linarith
  have hLowInt := Int.cast_lt.mp hLow
  have hHighInt := Int.cast_lt.mp hHigh
  constructor <;> omega

theorem cycle_bounds {mq : Id} {deadlineAt pausedAt resumedAt deadlineAt' : Int}
    {record : PauseRecord} (hLeft : 0 ≤ deadlineAt - pausedAt)
    (hSmall : deadlineAt - pausedAt ≤ 2 ^ 50) (hPause : Pauses mq deadlineAt pausedAt record)
    (hResume : Resumes mq record resumedAt deadlineAt') :
    deadlineAt' - resumedAt ≤ deadlineAt - pausedAt ∧
      deadlineAt - pausedAt ≤ deadlineAt' - resumedAt + 1000 := by
  obtain ⟨hMost, hLeast⟩ := toMillis_bounds hLeft hSmall
  have hRemaining : record.remainingMs = max 0 (toMillis (deadlineAt - pausedAt)) :=
    hPause.remaining
  have hDeadline : deadlineAt' = resumedAt + 1000 * max 0 record.remainingMs := hResume.deadline
  omega

/-- The schema admits limits of 5 to 120 seconds. -/
theorem offered_time (mq : Id) (seconds : Int) (hLimit : seconds ≤ 120) {n : Nat}
    {since deadlineAt spent : Micros} (h : Course mq seconds n since deadlineAt spent) :
    ofMillis (1000 * seconds - n) ≤ spent + (deadlineAt - since) ∧
      spent + (deadlineAt - since) ≤ ofMillis (1000 * seconds) := by
  suffices hBounds : 0 ≤ spent ∧ ofMillis (1000 * seconds - n) ≤ spent + (deadlineAt - since) ∧
      spent + (deadlineAt - since) ≤ ofMillis (1000 * seconds) from hBounds.2
  induction h with
  | armed hArm =>
    have hDeadline := hArm.deadline
    unfold ofMillis ofSeconds at *
    constructor
    · exact le_rfl
    · push_cast
      constructor <;> linarith
  | cycle hCourse hAfter hLeft hPause hResume ih =>
    obtain ⟨hSpent, hLow, hHigh⟩ := ih
    unfold ofMillis at *
    obtain ⟨hMost, hLeast⟩ := cycle_bounds (by linarith) (by linarith) hPause hResume
    constructor
    · linarith
    · push_cast
      constructor <;> linarith

namespace Demo

def question : MatchQuestion := ⟨5, 1, 3, 1, some 0, some 20000000, none⟩

def room : Room := ⟨2, "ABC123", 9, 4, .running, none, none, none⟩

/-- Every row a request asks for is there, and nothing fails. -/
def answers (status : RoomStatus) (now : Micros) : (o : Op) → Except Exn o.Res
  | .utcnow => .ok now
  | .nextId => .ok 7
  | .select (.getMatch _) | .select (.matchOfRoom _) => .ok (some ⟨1, 2, 1, status, 0, none⟩)
  | .select (.getQuestion _) => .ok (some ⟨3, "", .singleChoice, 20, 1000, none⟩)
  | .select (.getOptions _) => .ok []
  | .select (.getRoom _) | .selectForUpdate (.roomByCode _) => .ok (some room)
  | .select (.questionsOfMatch _) => .ok [question]
  | .select (.openQuestion _) | .selectForUpdate (.questionAt _ _) => .ok (some question)
  | .redis (.getPause _) => .ok (some ⟨some 1, 1000⟩)
  | .redis (.setPause _ _) | .flush _ | .commit | .cancelActive _ => .ok ()
  | _ => .error .fault

def armLog : List ((o : Op) × Except Exn o.Res) :=
  (armQuestion 1 1).logWith (answers .running 0)

def pauseLog : List ((o : Op) × Except Exn o.Res) :=
  (pauseMatch 9 "ABC123").logWith (answers .running 18999000)

def resumeLog : List ((o : Op) × Except Exn o.Res) :=
  (resumeMatch 9 "ABC123").logWith (answers .paused 30000000)

theorem arms : Arms 5 20 0 20000000 := by
  obtain ⟨r, hPlays⟩ := exists_plays (answers .running 0) (armQuestion 1 1)
  exact ⟨1, 1, armLog.take 7, [.updateMatchQuestion 5 (some 0) (some 20000000) none,
    .insertEvent (questionStartedEvent 7 question ⟨3, "", .singleChoice, 20, 1000, none⟩
      0 20000000)], armLog.drop 8, r, hPlays, rfl, List.mem_cons_self⟩

theorem toMillis_short : toMillis 1001000 = 1000 := by decide +kernel

theorem pauses : Pauses 5 20000000 18999000 ⟨some 1, 1000⟩ := by
  obtain ⟨r, hPlays⟩ := exists_plays (answers .running 18999000) (pauseMatch 9 "ABC123")
  have hRecord : (⟨some 1, max 0 (toMillis 1001000)⟩ : PauseRecord) = ⟨some 1, 1000⟩ := by
    rw [toMillis_short]
    rfl
  rw [← hRecord]
  exact ⟨9, "ABC123", 1, pauseLog.take 8, pauseLog.drop 9, r, question, hPlays, rfl, rfl, rfl, rfl⟩

theorem resumes : Resumes 5 ⟨some 1, 1000⟩ 30000000 31000000 := by
  obtain ⟨r, hPlays⟩ := exists_plays (answers .paused 30000000) (resumeMatch 9 "ABC123")
  exact ⟨9, "ABC123", resumeLog.take 6, [.updateRoom 2 .running none none,
    .updateMatch 1 .running none, .updateMatchQuestion 5 none (some 31000000) none],
    resumeLog.drop 7, r, hPlays, rfl, rfl, by simp⟩

theorem course : Course 5 20 1 30000000 31000000 18999000 :=
  .cycle (.armed arms) (by decide) (by decide) pauses resumes

end Demo

/-- The whole millisecond is lost, not less than it. -/
theorem millisecond_lost : ¬ ∀ (mq : Id) (seconds : Int), 5 ≤ seconds → seconds ≤ 120 →
    ∀ (n : Nat) (since deadlineAt spent : Micros), Course mq seconds n since deadlineAt spent →
      ofMillis (1000 * seconds - n) < spent + (deadlineAt - since) := by
  intro hClaim
  have hStrict := hClaim 5 20 (by decide) (by decide) 1 30000000 31000000 18999000 Demo.course
  exact absurd hStrict (by decide)

theorem offered_time_cycle :
    ofMillis (1000 * 20 - (1 : Nat)) ≤ 18999000 + (31000000 - 30000000) ∧
      18999000 + (31000000 - 30000000) ≤ ofMillis (1000 * 20) :=
  offered_time 5 20 (by decide) Demo.course

end PauseResume

end LiveQuiz
