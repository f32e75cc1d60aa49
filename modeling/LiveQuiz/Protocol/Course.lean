import LiveQuiz.Lib.Monitor
import LiveQuiz.Protocol.Moves

/-! # Holding a match

A running match goes on because some program holds it: a start or a resume behind its COMMIT,
a task that arms or closes the next question, an `end_match` behind its call of the scheduler.
Such a program lets go for one of three reasons: it has created its successor, a reply tells
it that there is nothing to do, or a call raises.
-/

namespace LiveQuiz

open Coroutine

set_option autoImplicit false

/-- `asks`: nothing is committed. `tries`: an arm or a close that has found nothing against its
question; the room of its match and the number of questions are what it has read. `hands`: the
commit is behind it, the task for a position (or for the next unstarted one) still to be
created. `ends`: `end_match` behind its call of the scheduler. `shut`: a reply has told it to
stop. `left` commits nothing any more, and `past` is not looked at. -/
inductive Course where
  | asks (ws : List Write)
  | tries (ws : List Write) (room : Option Id) (count : Option Nat)
  | hands (p : Option Nat) (count : Option Nat)
  | ends (ws : List Write) (room : Option Id)
  | shut
  | left
  | past

/-- The position a task arms or closes. -/
def Job.position : Job → Option Nat
  | .armQuestion _ p | .gapThenArm _ p _ => some p
  | .closeQuestion _ p | .closeQuestionAfter _ p _ => some p
  | _ => none

def Job.successor : Job → Option Nat
  | .armQuestion _ p | .gapThenArm _ p _ => some p
  | .closeQuestion _ p | .closeQuestionAfter _ p _ => some (p + 1)
  | _ => none

def Job.arming : Job → Bool
  | .armQuestion _ _ | .gapThenArm _ _ _ => true
  | _ => false

/-- `hostId is None or hostId == room.host_id`, for an `end_match`. -/
def Job.admits (hostId : Id) : Job → Bool
  | .endMatch _ host => host.all (· = hostId)
  | _ => true

def Write.creates (m : Id) : Write → Bool
  | .insertMatch row => row.id = m
  | _ => false

def Write.marks : Write → Bool
  | .updateMatchQuestion _ _ _ _ | .insertEvent _ => true
  | _ => false

/-- The calls a program makes for match `m`, by how far it is. -/
def Course.allows (m : Id) (job : Job) : Course → Op → Prop
  | .asks _, .cancelActive i => i = m
  | .asks _, _ => True
  | .tries _ _ _, .utcnow | .tries _ _ _, .nextId | .tries _ _ _, .sleepUntil _ => True
  | .tries ws _ _, .selectForUpdate (.questionAt i p) => ws = [] ∧ i = m ∧ job.position = some p
  | .tries ws _ _, .select (.getMatch i) => ws = [] ∧ i = m
  | .tries ws room _, .select (.getRoom i) => ws = [] ∧ room = some i
  | .tries ws _ _, .select (.getQuestion _) => ws = []
  | .tries _ _ _, .select (.getOptions _) => True
  | .tries _ _ _, .select (.questionsOfMatch i) => i = m
  | .tries _ _ _, .flush ws' => ws'.all Write.marks = true
  | .tries ws _ _, .commit => ws ≠ []
  | .tries _ _ _, _ => False
  | .hands p _, .createTask j => ∃ b, p = some b ∧ j = .armQuestion m b
  | .hands p count, .cancelActive i => i = m ∧ ∃ b n, p = some b ∧ count = some n ∧ n < b
  | .hands p _, .select (.nextUnstarted i) => i = m ∧ p = none
  | .hands _ _, .sleepUntil _ | .hands _ _, .selectForUpdate _ | .hands _ _, .flush _ => False
  | .hands _ _, .commit | .hands _ _, .rollback => False
  | .hands _ _, .setActive i _ => i = m
  | .hands _ _, _ => True
  | .ends _ _, .utcnow | .ends _ _, .nextId | .ends _ _, .select _ | .ends _ _, .flush _ => True
  | .ends ws _, .selectForUpdate (.matchById i) => ws = [] ∧ i = m
  | .ends ws room, .selectForUpdate (.roomById i) => ws = [] ∧ room = some i
  | .ends ws _, .commit => ws ≠ []
  | .ends _ _, _ => False
  | .shut, .flush _ | .shut, .cancelActive _ => False
  | .left, .commit | .left, .cancelActive _ => False
  | _, _ => True

/-- A start holds the match it has inserted, a resume the one it has set running. -/
def Course.committed (m : Id) (ws : List Write) : Course :=
  if ws.any (Write.creates m) then .hands (some 1) none
  else if .updateMatch m .running none ∈ ws then .hands none none
  else .left

def Course.after (m : Id) (job : Job) : Course → (o : Op) → o.Res → Course
  | .asks ws, .flush ws', _ => .asks (ws ++ ws')
  | .asks ws, .commit, _ => .committed m ws
  | .asks ws, .cancelActive _, _ => .ends ws none
  | .asks _, .rollback, _ => .left
  | .tries ws room count, .selectForUpdate (.questionAt _ _), row =>
    if row.any (·.closedAt.isNone) then .tries ws room count else .shut
  | .tries ws _ count, .select (.getMatch _), row =>
    match row with
    | some x => if x.status = .running then .tries ws (some x.roomId) count else .shut
    | none => .shut
  | .tries ws room count, .select (.getRoom _), row =>
    if row.isSome then .tries ws room count else .shut
  | .tries ws room count, .select (.getQuestion _), row =>
    if row.isNone ∧ job.arming then .shut else .tries ws room count
  | .tries ws room _, .select (.questionsOfMatch _), rows => .tries ws room (some rows.length)
  | .tries ws room count, .flush ws', _ => .tries (ws ++ ws') room count
  | .tries _ _ count, .commit, _ => .hands job.successor count
  | .hands _ count, .select (.nextUnstarted _), row =>
    match row with
    | some next => .hands (some next.position) count
    | none => .left
  | .hands _ _, .createTask _, _ | .hands _ _, .setActive _ _, _ => .left
  | .hands _ _, .cancelActive _, _ => .past
  | .ends ws _, .selectForUpdate (.matchById _), row =>
    match row with
    | some x => if x.status = .completed then .shut else .ends ws (some x.roomId)
    | none => .left
  | .ends ws room, .selectForUpdate (.roomById _), row =>
    if row.any (fun r => job.admits r.hostId) then .ends ws room else .left
  | .ends ws room, .flush ws', _ => .ends (ws ++ ws') room
  | .ends _ _, .commit, _ => .left
  | .shut, .commit, _ | .shut, .rollback, _ => .left
  | s, _, _ => s

def Course.raised : Course → Op → Exn → Course
  | .past, _, _ => .past
  | .hands _ _, .broadcast _ _, .cancelled | .hands _ _, .broadcast _ _, .crashed => .left
  | .hands p count, .broadcast _ _, _ => .hands p count
  | _, _, _ => .left

def courseMonitor (m : Id) (job : Job) : Monitor Op Op.Res Exn Course where
  allowed := Course.allows m job
  next s o r :=
    match r with
    | .ok v => s.after m job o v
    | .error e => s.raised o e

def Course.over {α : Type} : Course → Except Exn α → Prop
  | .tries _ _ _, _ | .hands _ _, _ | .ends _ _, _ => False
  | _, _ => True

/-- The jobs whose programs may hold match `m`. -/
def Job.mayHold (m : Id) : Job → Bool
  | .startMatch _ _ | .resumeMatch _ _ => true
  | .endMatch i _ => i = m
  | job => job.question? = some m

/-- Where the program of a job begins. -/
def Course.start (job : Job) : Course :=
  if job.question?.isSome then .tries [] none none else .asks []

/-- The calls that change nothing for a program behind its commit. -/
def Op.aside : Op → Bool
  | .utcnow | .nextId | .redis _ => true
  | .select (.nextUnstarted _) => false
  | .select _ => true
  | _ => false

/-- The ends that raising needs. -/
structure Releases {α : Type} (Q : Course → Except Exn α → Prop) : Prop where
  left : ∀ e, Q .left (.error e)
  past : ∀ r, Q .past r

namespace Course

section

variable {α β : Type} {m : Id} {job : Job} {s : Course} {Q : Course → Except Exn α → Prop}

abbrev Walks (m : Id) (job : Job) (Q : Course → Except Exn α → Prop) : Course → Coro α → Prop :=
  Follows (courseMonitor m job) Q

theorem walks_past (h : ∀ r, Q .past r) (p : Coro α) : Walks m job Q .past p := by
  induction p with
  | done r => exact h r
  | call o k ih =>
    refine ⟨trivial, fun r => ?_⟩
    cases r with
    | ok v => exact ih (.ok v)
    | error e => exact ih (.error e)

theorem releases_bind {f : β → Coro α} (hQ : Releases Q) :
    Releases (Before (courseMonitor m job) Q f) := by
  refine ⟨hQ.left, fun r => ?_⟩
  cases r with
  | ok a => exact walks_past hQ.past _
  | error e => exact hQ.past _

theorem walks_call {o : Op} {f : o.Res → Coro α} (hQ : Releases Q) (ho : s.allows m job o)
    (hErr : ∀ e, s.raised o e = .left) (h : ∀ v, Walks m job Q (s.after m job o v) (f v)) :
    Walks m job Q s (ask o >>= f) := by
  refine ⟨ho, fun r => ?_⟩
  cases r with
  | ok v => exact h v
  | error e =>
    change Q (s.raised o e) (.error e)
    rw [hErr]
    exact hQ.left e

theorem walks_last {o : Op} {Q : Course → Except Exn o.Res → Prop} (hQ : Releases Q)
    (ho : s.allows m job o) (hErr : ∀ e, s.raised o e = .left)
    (h : ∀ v, Q (s.after m job o v) (.ok v)) : Walks m job Q s (ask o) := by
  refine ⟨ho, fun r => ?_⟩
  cases r with
  | ok v => exact h v
  | error e =>
    change Q (s.raised o e) (.error e)
    rw [hErr]
    exact hQ.left e

theorem walks_refused {c : Prop} [Decidable c] {code : String} {status : Nat} {message : String}
    {details : List (String × String)} {f : β → Coro α} {p : Coro α}
    (hRaise : ∀ e, Q s (.error e)) (h : Walks m job Q s p) :
    Walks m job Q s (if c then raise code status message details >>= f else p) := by
  split
  · exact hRaise _
  · exact h

/-- How the body of a session may end: an error finds nothing held. -/
def BodyEnds (Q : Course → Except Exn α → Prop) : Course → Except Exn α → Prop
  | s, .ok a => Q s (.ok a)
  | .tries _ _ _, .error _ | .hands _ _, .error _ | .ends _ _, .error _ => False
  | _, .error _ => True

theorem releases_bodyEnds (hQ : Releases Q) : Releases (BodyEnds Q) := by
  refine ⟨fun _ => trivial, fun r => ?_⟩
  cases r with
  | ok a => exact hQ.past _
  | error e => trivial

theorem walks_withSession {p : Coro α} (hQ : Releases Q) (h : Walks m job (BodyEnds Q) s p) :
    Walks m job Q s (withSession p) := by
  refine Follows.session (h.mono fun s r hr => ?_)
  cases r with
  | ok a => exact hr
  | error e =>
    cases s with
    | past => exact ⟨trivial, fun r => by cases r <;> exact hQ.past _⟩
    | tries => cases hr
    | hands => cases hr
    | ends => cases hr
    | _ => exact ⟨trivial, fun r => by cases r <;> exact hQ.left _⟩

theorem walks_fanOut {code : String} {message : Message} {f : Unit → Coro α} {p count : Option Nat}
    (hQ : Releases Q) (h : Walks m job Q (.hands p count) (f ())) :
    Walks m job Q (.hands p count) (broadcast code message >>= f) := by
  refine Follows.bind (walks_call (releases_bind hQ) trivial (fun _ => rfl) fun _ => ?_)
  refine Follows.handle ⟨trivial, fun r => ?_⟩
  cases r with
  | ok _ => exact h
  | error e =>
    cases e with
    | fault => exact h
    | cancelled => exact hQ.left _
    | crashed => exact hQ.left _
    | integrity => exact h
    | auth => exact h

def TxEnds (m : Id) (job : Job) (Q : Course → Except Exn α → Prop) (f : Option β → Coro α) :
    Course → Except Exn (Option β) → Prop
  | .tries ws _ count, .ok (some a) => ws ≠ [] ∧ Walks m job Q (.hands job.successor count) (f (some a))
  | .shut, .ok none => True
  | .left, .error _ => True
  | .past, _ => True
  | _, _ => False

theorem releases_txEnds {f : Option β → Coro α} : Releases (TxEnds m job Q f) :=
  ⟨fun _ => trivial, fun _ => trivial⟩

theorem walks_guarded {body : Coro (Option β)} {f : Option β → Coro α} (hQ : Releases Q)
    (hNone : Walks m job Q .left (f none))
    (h : Walks m job (TxEnds m job Q f) (.tries [] none none) body) :
    Walks m job Q (.tries [] none none) (exceptException (inTransaction body) none >>= f) := by
  have hBefore : Releases (Before (courseMonitor m job) Q f) := releases_bind hQ
  refine Follows.bind (Follows.handle ?_)
  generalize hU : Under (courseMonitor m job) (Before (courseMonitor m job) Q f) _ = U
  have hUnder : Releases U := by
    subst hU
    refine ⟨fun e => ?_, fun r => ?_⟩
    · cases e <;> first | exact hNone | exact hQ.left _
    · cases r with
      | ok a => exact hBefore.past (.ok a)
      | error e => exact walks_past hBefore.past _
  refine walks_withSession hUnder (Follows.bind (h.mono fun s r hr => ?_))
  have hEnds := releases_bodyEnds hUnder
  cases r with
  | error e =>
    cases s with
    | left => trivial
    | past => trivial
    | _ => cases hr
  | ok a =>
    cases s with
    | tries ws room count =>
      cases a with
      | none => cases hr
      | some a =>
        refine walks_call hEnds hr.1 (fun _ => rfl) fun _ => ?_
        subst hU
        exact hr.2
    | shut =>
      cases a with
      | some a => cases hr
      | none =>
        refine walks_call hEnds trivial (fun _ => rfl) fun _ => ?_
        subst hU
        exact hNone
    | past => exact walks_past hEnds.past _
    | _ => cases hr

theorem tries_call {o : Op} {f : o.Res → Coro α} {ws : List Write} {room : Option Id}
    {count : Option Nat} (hQ : Releases Q) (ho : Course.allows m job (.tries ws room count) o)
    (h : ∀ v, Walks m job Q ((Course.tries ws room count).after m job o v) (f v)) :
    Walks m job Q (.tries ws room count) (ask o >>= f) := by
  refine walks_call hQ ho (fun _ => ?_) h
  cases o <;> rfl

theorem walks_nothing {f : Option β → Coro α} : Walks m job (TxEnds m job Q f) .shut (pure none) :=
  trivial

theorem armTx_walks {p : Nat} {f : Option (String × Micros × QuestionPayload) → Coro α}
    (hPos : job.position = some p) (hArms : job.arming = true)
    (h : ∀ a, Walks m job Q (.hands job.successor none) (f (some a))) :
    Walks m job (TxEnds m job Q f) (.tries [] none none) (armTx m p) := by
  have hQ : Releases (TxEnds m job Q f) := releases_txEnds
  refine tries_call hQ ⟨rfl, rfl, hPos⟩ fun row => ?_
  cases row with
  | none => exact walks_nothing
  | some mq =>
  cases hClosed : mq.closedAt with
  | some _ =>
    simp only [Course.after, Option.any_some, hClosed]
    exact walks_nothing
  | none =>
  simp only [Course.after, Option.any_some, hClosed]
  refine tries_call hQ ⟨rfl, rfl⟩ fun row => ?_
  cases row with
  | none => exact walks_nothing
  | some x =>
  by_cases hStatus : x.status = .running
  case neg =>
    simp only [Course.after, ne_eq, hStatus, not_false_eq_true, if_true]
    exact walks_nothing
  case pos =>
  simp only [Course.after, hStatus]
  refine tries_call hQ rfl fun row => ?_
  cases row with
  | none =>
    simp only [Course.after, hArms]
    exact walks_nothing
  | some question =>
  refine tries_call hQ trivial fun options => ?_
  refine tries_call hQ ⟨rfl, rfl⟩ fun row => ?_
  cases row with
  | none => exact walks_nothing
  | some room =>
  refine tries_call hQ trivial fun startedAt => ?_
  refine tries_call hQ trivial fun eventId => ?_
  refine tries_call hQ rfl fun _ => ?_
  refine tries_call hQ trivial fun serverNow => ?_
  exact ⟨List.cons_ne_nil _ _, h _⟩

theorem closeTx_walks {p : Nat} {f : Option Closed → Coro α} (hPos : job.position = some p)
    (hArms : job.arming = false)
    (h : ∀ n a, a.lastQuestion = decide (n ≤ p) → Walks m job Q (.hands job.successor (some n)) (f (some a))) :
    Walks m job (TxEnds m job Q f) (.tries [] none none) (closeTx m p) := by
  have hQ : Releases (TxEnds m job Q f) := releases_txEnds
  refine tries_call hQ ⟨rfl, rfl, hPos⟩ fun row => ?_
  cases row with
  | none => exact walks_nothing
  | some mq =>
  cases hClosed : mq.closedAt with
  | some _ =>
    simp only [Course.after, Option.any_some, hClosed]
    exact walks_nothing
  | none =>
  simp only [Course.after, Option.any_some, hClosed]
  refine tries_call hQ ⟨rfl, rfl⟩ fun row => ?_
  cases row with
  | none => exact walks_nothing
  | some x =>
  by_cases hStatus : x.status = .running
  case neg =>
    simp only [Course.after, ne_eq, hStatus, not_false_eq_true, if_true]
    exact walks_nothing
  case pos =>
  simp only [Course.after, hStatus]
  refine tries_call hQ ⟨rfl, rfl⟩ fun row => ?_
  cases row with
  | none => exact walks_nothing
  | some room =>
  refine tries_call hQ trivial fun options => ?_
  refine tries_call hQ rfl fun question => ?_
  simp only [Course.after, hArms, Bool.false_eq_true, and_false, if_false]
  refine tries_call hQ trivial fun closedAt => ?_
  refine tries_call hQ rfl fun _ => ?_
  refine tries_call hQ rfl fun all => ?_
  refine tries_call hQ trivial fun eventId => ?_
  refine tries_call hQ rfl fun _ => ?_
  exact ⟨List.cons_ne_nil _ _, h _ _ rfl⟩

theorem hands_call {o : Op} {f : o.Res → Coro α} {p count : Option Nat} (hQ : Releases Q)
    (ho : Course.allows m job (.hands p count) o) (hb : ∀ code message, o ≠ .broadcast code message)
    (h : ∀ v, Walks m job Q ((Course.hands p count).after m job o v) (f v)) :
    Walks m job Q (.hands p count) (ask o >>= f) := by
  refine walks_call hQ ho (fun _ => ?_) h
  cases o <;> first | rfl | exact absurd rfl (hb _ _)

theorem armQuestion_walks {p : Nat} {Q : Course → Except Exn Unit → Prop} (hQ : Releases Q)
    (hPos : job.position = some p) (hArms : job.arming = true) (hLeft : Q .left (.ok ())) :
    Walks m job Q (.tries [] none none) (armQuestion m p) := by
  refine walks_guarded hQ hLeft (armTx_walks hPos hArms fun a => ?_)
  refine hands_call hQ trivial (by simp) fun _ => ?_
  refine walks_fanOut hQ ?_
  refine hands_call hQ trivial (by simp) fun now => ?_
  exact walks_last hQ rfl (fun _ => rfl) fun _ => hLeft

theorem closedAccuracy_walks {mq : MatchQuestion} {f : Option ℚ → Coro α} {p count : Option Nat}
    (hQ : Releases Q) (h : ∀ a, Walks m job Q (.hands p count) (f a)) :
    Walks m job Q (.hands p count) (closedAccuracy m mq >>= f) := by
  refine Follows.bind (hands_call (releases_bind hQ) trivial (by simp) fun answered => ?_)
  split
  · exact h none
  · refine hands_call (releases_bind hQ) trivial (by simp) fun correct => ?_
    exact h _

theorem closeQuestion_walks {p : Nat} {Q : Course → Except Exn Unit → Prop} (hQ : Releases Q)
    (hPos : job.position = some p) (hArms : job.arming = false)
    (hNext : job.successor = some (p + 1)) (hLeft : Q .left (.ok ())) :
    Walks m job Q (.tries [] none none) (closeQuestion m p) := by
  refine walks_guarded hQ hLeft (closeTx_walks hPos hArms fun n closed hLast => ?_)
  refine closedAccuracy_walks hQ fun accuracy => ?_
  refine walks_fanOut hQ ?_
  rw [hLast]
  split
  next hLe =>
    refine Follows.bind (hands_call (releases_bind hQ) ⟨rfl, p + 1, n, hNext, rfl, ?_⟩ (by simp)
      fun _ => walks_past (releases_bind hQ).past _)
    have := of_decide_eq_true hLe
    omega
  · exact walks_last hQ rfl (fun _ => rfl) fun _ => hLeft

theorem walks_sleep {p : Coro Unit} {d : Micros} {Q : Course → Except Exn Unit → Prop}
    (hQ : Releases Q) (hLeft : Q .left (.ok ())) (h : Walks m job Q (.tries [] none none) p) :
    Walks m job Q (.tries [] none none) (do if ← sleepUncancelled d then p) := by
  refine Follows.bind (tries_call (releases_bind hQ) trivial fun now => ?_)
  refine Follows.handle ⟨trivial, fun r => ?_⟩
  cases r with
  | ok _ => exact h
  | error e => cases e <;> first | exact hLeft | exact hQ.left _

theorem asks_call {o : Op} {f : o.Res → Coro α} {ws : List Write} (hQ : Releases Q)
    (ho : ∀ i, o ≠ .cancelActive i)
    (h : ∀ v, Walks m job Q ((Course.asks ws).after m job o v) (f v)) :
    Walks m job Q (.asks ws) (ask o >>= f) := by
  refine walks_call hQ ?_ (fun _ => ?_) h
  · cases o <;> first | exact trivial | exact absurd rfl (ho _)
  · cases o <;> rfl

def Behind (s : Course) : Prop := s = .left ∨ ∃ p count, s = .hands p count

theorem behind_aside {o : Op} (hs : Behind s) (ho : o.aside = true) :
    s.allows m job o ∧ (∀ e, s.raised o e = .left) ∧ ∀ v, s.after m job o v = s := by
  obtain rfl | ⟨p, count, rfl⟩ := hs
  · cases o with
    | select q => exact ⟨trivial, fun _ => rfl, fun _ => rfl⟩
    | _ => first | exact ⟨trivial, fun _ => rfl, fun _ => rfl⟩ | cases ho
  · cases o with
    | select q => cases q <;> first | exact ⟨trivial, fun _ => rfl, fun _ => rfl⟩ | cases ho
    | _ => first | exact ⟨trivial, fun _ => rfl, fun _ => rfl⟩ | cases ho

theorem behind_call {o : Op} {f : o.Res → Coro α} (hQ : Releases Q) (hs : Behind s)
    (ho : o.aside = true) (h : ∀ v, Walks m job Q s (f v)) : Walks m job Q s (ask o >>= f) := by
  obtain ⟨hAllowed, hRaised, hAfter⟩ := behind_aside hs ho
  refine walks_call hQ hAllowed hRaised fun v => ?_
  rw [hAfter]
  exact h v

theorem behind_last {o : Op} {Q : Course → Except Exn o.Res → Prop} (hQ : Releases Q)
    (hs : Behind s) (ho : o.aside = true) (h : ∀ v, Q s (.ok v)) : Walks m job Q s (ask o) := by
  obtain ⟨hAllowed, hRaised, hAfter⟩ := behind_aside hs ho
  refine walks_last hQ hAllowed hRaised fun v => ?_
  rw [hAfter]
  exact h v

theorem behind_fanOut {code : String} {message : Message} {f : Unit → Coro α} (hQ : Releases Q)
    (hs : Behind s) (h : Walks m job Q s (f ())) :
    Walks m job Q s (broadcast code message >>= f) := by
  obtain rfl | ⟨p, count, rfl⟩ := hs
  · refine Follows.bind (walks_call (releases_bind hQ) trivial (fun _ => rfl) fun _ => ?_)
    refine Follows.handle ⟨trivial, fun r => ?_⟩
    cases r with
    | ok _ => exact h
    | error e => cases e <;> first | exact h | exact hQ.left _
  · exact walks_fanOut hQ h

theorem drawIds_walks {ws : List Write} {Q : Course → Except Exn (List Id) → Prop}
    (hQ : Releases Q) (k : Nat) (h : ∀ ids, Q (.asks ws) (.ok ids)) :
    Walks m job Q (.asks ws) (drawIds k) := by
  induction k generalizing Q with
  | zero => exact h []
  | succ k ih =>
    refine asks_call hQ (by simp) fun id => ?_
    refine Follows.bind (ih (releases_bind hQ) fun ids => ?_)
    exact h (id :: ids)

theorem committed_start {x : Match} {mqs : List MatchQuestion} {room : Room} {e : OutboxEvent} :
    Course.committed m ([] ++ [.insertMatch x] ++ mqs.map .insertMatchQuestion ++
        [.updateRoom room.id .running (some x.startedAt) none, .insertEvent e]) =
      if x.id = m then .hands (some 1) none else .left := by
  have hNone : (mqs.map Write.insertMatchQuestion).any (Write.creates m) = false := by
    simp [Write.creates]
  unfold Course.committed
  simp [List.any_append, hNone, Write.creates]

theorem startTx_walks {host : Id} {code : String}
    {Q : Course → Except Exn (Match × Room × Nat) → Prop} (hQ : Releases Q)
    (hRaise : ∀ ws e, Q (.asks ws) (.error e))
    (h : ∀ (x : Match) room n, Q (if x.id = m then .hands (some 1) none else .left) (.ok (x, room, n))) :
    Walks m job Q (.asks []) (startTx host code) := by
  refine asks_call hQ (by simp) fun row => ?_
  cases row with
  | none => exact hRaise _ _
  | some room =>
  refine walks_refused (hRaise _) (walks_refused (hRaise _) ?_)
  refine asks_call hQ (by simp) fun row => ?_
  cases row with
  | none => exact hRaise _ _
  | some quiz =>
  refine asks_call hQ (by simp) fun questions => ?_
  refine walks_refused (hRaise _) ?_
  refine asks_call hQ (by simp) fun startedAt => ?_
  refine asks_call hQ (by simp) fun matchId => ?_
  refine asks_call hQ (by simp) fun _ => ?_
  refine Follows.bind (drawIds_walks (releases_bind hQ) _ fun ids => ?_)
  refine asks_call hQ (by simp) fun _ => ?_
  refine asks_call hQ (by simp) fun eventId => ?_
  refine asks_call hQ (by simp) fun _ => ?_
  refine asks_call hQ (by simp) fun _ => ?_
  have hEnd := h ⟨matchId, room.id, quiz.version, .running, startedAt, none⟩ room
    (matchQuestionRows matchId ids questions).length
  rw [← committed_start] at hEnd
  exact hEnd

theorem seedMatchState_walks {x : Match} {room : Room} {n : Nat} {f : Unit → Coro α}
    (hQ : Releases Q) (hs : Behind s) (h : Walks m job Q s (f ())) :
    Walks m job Q s (seedMatchState x room n >>= f) := by
  have hQ' : Releases (Before (courseMonitor m job) Q f) := releases_bind hQ
  have hRest : Walks m job (Before (courseMonitor m job) Q f) s (resetMatchState x room n) := by
    refine behind_call hQ' hs rfl fun _ => ?_
    refine behind_call hQ' hs rfl fun cached => ?_
    split
    · exact behind_last hQ' hs rfl fun _ => h
    · exact h
  refine Follows.bind (behind_call hQ' hs rfl fun participants => ?_)
  dsimp only
  split
  · exact behind_call hQ' hs rfl fun _ => hRest
  · exact hRest

theorem startMatch_walks {host : Id} {code : String} {Q : Course → Except Exn Match → Prop}
    (hQ : Releases Q) (hLeft : ∀ x, Q .left (.ok x)) :
    Walks m job Q (.asks []) (startMatch host code) := by
  have hQ' := releases_bodyEnds hQ
  refine walks_withSession hQ (Follows.bind (startTx_walks (releases_bind hQ') (fun _ _ => trivial) ?_))
  intro x room n
  have hBehind : Behind (if x.id = m then .hands (some 1) none else .left) := by
    split
    · exact .inr ⟨_, _, rfl⟩
    · exact .inl rfl
  refine seedMatchState_walks hQ' hBehind ?_
  refine behind_call hQ' hBehind rfl fun serverNow => ?_
  refine behind_fanOut hQ' hBehind ?_
  split
  next hId => exact walks_call hQ' ⟨1, rfl, by rw [hId]⟩ (fun _ => rfl) fun _ => hLeft x
  · exact walks_call hQ' trivial (fun _ => rfl) fun _ => hLeft x

theorem hostedMatch_walks {host : Id} {code message : String} {status : RoomStatus}
    {ws : List Write} {Q : Course → Except Exn (Room × Match × List MatchQuestion) → Prop}
    (hQ : Releases Q) (hRaise : ∀ e, Q (.asks ws) (.error e)) (h : ∀ r, Q (.asks ws) (.ok r)) :
    Walks m job Q (.asks ws) (hostedMatch host code status message) := by
  refine asks_call hQ (by simp) fun row => ?_
  cases row with
  | none => exact hRaise _
  | some room =>
  refine walks_refused hRaise ?_
  refine asks_call hQ (by simp) fun row => ?_
  cases row with
  | none => exact hRaise _
  | some x =>
  refine asks_call hQ (by simp) fun loaded => ?_
  exact walks_refused hRaise (h _)

theorem extendDeadline_walks {i : Id} {loaded : List MatchQuestion} {position : Option Nat}
    {remaining : Int} {ws : List Write} {Q : Course → Except Exn (List Write) → Prop}
    (hQ : Releases Q)
    (h : ∀ deadline, (deadline = [] ∨ ∃ j u, deadline = [.updateMatchQuestion j none (some u) none]) →
      Q (.asks ws) (.ok deadline)) :
    Walks m job Q (.asks ws) (extendDeadline i loaded position remaining) := by
  unfold extendDeadline
  split
  · exact h [] (.inl rfl)
  refine asks_call hQ (by simp) fun row => ?_
  cases row with
  | none => exact h [] (.inl rfl)
  | some row =>
  dsimp only
  split
  · exact h [] (.inl rfl)
  · exact asks_call hQ (by simp) fun now => h _ (.inr ⟨_, _, rfl⟩)

theorem committed_resume {room i : Id} {deadline : List Write}
    (h : deadline = [] ∨ ∃ j u, deadline = [.updateMatchQuestion j none (some u) none]) :
    Course.committed m ([] ++ ([.updateRoom room .running none none,
        .updateMatch i .running none] ++ deadline)) =
      if i = m then .hands none none else .left := by
  unfold Course.committed
  obtain rfl | ⟨j, u, rfl⟩ := h
  · simp [Write.creates, eq_comm]
  · simp [Write.creates, eq_comm]

theorem rearm_walks {i : Id} {position : Option Nat} {remaining : Int}
    {Q : Course → Except Exn Unit → Prop} (hQ : Releases Q) (hLeft : Q .left (.ok ())) :
    Walks m job Q (if i = m then .hands none none else .left) (rearm i position remaining) := by
  have hNext : Walks m job Q (if i = m then .hands none none else .left) (rearm.armNext i) := by
    split
    next hId =>
      refine hands_call hQ ⟨hId, rfl⟩ (by simp) fun row => ?_
      cases row with
      | none => exact hLeft
      | some next => exact walks_last hQ ⟨_, rfl, by rw [hId]⟩ (fun _ => rfl) fun _ => hLeft
    · refine walks_call hQ trivial (fun _ => rfl) fun row => ?_
      cases row with
      | none => exact hLeft
      | some next => exact walks_last hQ trivial (fun _ => rfl) fun _ => hLeft
  unfold rearm
  cases position with
  | none => exact hNext
  | some p =>
  dsimp only
  by_cases hLeast : 0 < remaining
  · rw [if_pos hLeast]
    split
    next hId => exact walks_last hQ hId (fun _ => rfl) fun _ => hLeft
    · exact walks_last hQ trivial (fun _ => rfl) fun _ => hLeft
  · rw [if_neg hLeast]
    exact hNext

theorem resumeMatch_walks {host : Id} {code : String} {Q : Course → Except Exn Match → Prop}
    (hQ : Releases Q) (hLeft : ∀ x, Q .left (.ok x)) :
    Walks m job Q (.asks []) (resumeMatch host code) := by
  have hQ' := releases_bodyEnds hQ
  refine walks_withSession hQ (Follows.bind (hostedMatch_walks (releases_bind hQ')
    (fun _ => trivial) ?_))
  rintro ⟨room, x, loaded⟩
  refine asks_call hQ' (by simp) fun record => ?_
  refine Follows.bind (extendDeadline_walks (releases_bind hQ') fun deadline hDeadline => ?_)
  refine asks_call hQ' (by simp) fun _ => ?_
  refine asks_call hQ' (by simp) fun _ => ?_
  simp only [Course.after, committed_resume hDeadline]
  exact Follows.bind (rearm_walks (releases_bind hQ') (hLeft _))

theorem ends_call {o : Op} {f : o.Res → Coro α} {ws : List Write} {room : Option Id}
    (hQ : Releases Q) (ho : Course.allows m job (.ends ws room) o)
    (h : ∀ v, Walks m job Q ((Course.ends ws room).after m job o v) (f v)) :
    Walks m job Q (.ends ws room) (ask o >>= f) := by
  refine walks_call hQ ho (fun _ => ?_) h
  cases o <;> rfl

theorem endTx_walks {host : Option Id} {Q : Course → Except Exn Ended → Prop} (hQ : Releases Q)
    (hJob : job = .endMatch m host) (hShut : ∀ e, Q .shut (.error e))
    (hDone : ∀ a, Q .shut (.ok a)) (h : ∀ ws room a, ws ≠ [] → Q (.ends ws room) (.ok a)) :
    Walks m job Q (.ends [] none) (endTx m host) := by
  refine ends_call hQ ⟨rfl, rfl⟩ fun row => ?_
  cases row with
  | none => exact hQ.left _
  | some x =>
  by_cases hStatus : x.status = .completed
  case pos =>
    simp only [Course.after, hStatus, if_true]
    refine walks_call hQ trivial (fun _ => rfl) fun row => ?_
    cases row with
    | none => exact hShut _
    | some room => exact walks_refused hShut (hDone _)
  case neg =>
  simp only [Course.after, hStatus, if_false]
  refine ends_call hQ ⟨rfl, rfl⟩ fun row => ?_
  cases row with
  | none => exact hQ.left _
  | some room =>
  have hAdmits : job.admits room.hostId = !host.any (· ≠ room.hostId) := by
    rw [hJob]
    cases host <;> simp [Job.admits]
  cases hHost : host.any (· ≠ room.hostId) with
  | true =>
    simp only [Course.after, Option.any_some, hAdmits, hHost]
    exact hQ.left _
  | false =>
  simp only [Course.after, Option.any_some, hAdmits, hHost, Bool.not_false, if_true,
    Bool.false_eq_true, if_false]
  refine ends_call hQ trivial fun subs => ?_
  refine ends_call hQ trivial fun participants => ?_
  refine ends_call hQ trivial fun endedAt => ?_
  refine ends_call hQ trivial fun eventId => ?_
  refine ends_call hQ trivial fun _ => ?_
  exact h _ _ _ (by simp)

theorem endMatch_walks {host : Option Id} {Q : Course → Except Exn Match → Prop}
    (hJob : job = .endMatch m host) (hQ : Releases Q) (hLeft : ∀ x, Q .left (.ok x)) :
    Walks m job Q (.asks []) (endMatch m host) := by
  refine walks_call hQ rfl (fun _ => rfl) fun _ => ?_
  refine Follows.bind (walks_withSession (releases_bind hQ) (Follows.bind ?_))
  refine endTx_walks (releases_bind (releases_bodyEnds (releases_bind hQ))) hJob (fun _ => trivial)
    (fun a => walks_call (releases_bodyEnds (releases_bind hQ)) trivial (fun _ => rfl) fun _ => ?_)
    fun ws room a hNe => walks_call (releases_bodyEnds (releases_bind hQ)) hNe (fun _ => rfl) fun _ => ?_
  -- either way the notices follow, and then the return
  all_goals
    change Walks m job Q .left _
    beta_reduce
    split
    · exact hLeft _
    refine behind_fanOut hQ (.inl rfl) ?_
    refine behind_call hQ (.inl rfl) rfl fun cached => ?_
    split
    · exact behind_call hQ (.inl rfl) rfl fun _ => hLeft _
    · exact hLeft _

theorem jobBody_walks (h : job.mayHold m = true) :
    Walks m job Course.over (.start job) (jobBody job) := by
  have hQ : @Releases Ret Course.over := ⟨fun _ => trivial, fun _ => trivial⟩
  have hBind : ∀ {β : Type} {f : β → Coro Ret},
      Releases (Before (courseMonitor m job) Course.over f) := releases_bind hQ
  cases job with
  | startMatch host code => exact Follows.bind (startMatch_walks hBind fun _ => trivial)
  | resumeMatch host code => exact Follows.bind (resumeMatch_walks hBind fun _ => trivial)
  | endMatch i host =>
    obtain rfl : i = m := of_decide_eq_true h
    exact Follows.bind (endMatch_walks rfl hBind fun _ => trivial)
  | armQuestion i p =>
    obtain rfl : i = m := by simpa [Job.mayHold, Job.question?] using h
    exact Follows.bind (armQuestion_walks hBind rfl rfl trivial)
  | gapThenArm i p d =>
    obtain rfl : i = m := by simpa [Job.mayHold, Job.question?] using h
    exact Follows.bind (walks_sleep hBind trivial (armQuestion_walks hBind rfl rfl trivial))
  | closeQuestion i p =>
    obtain rfl : i = m := by simpa [Job.mayHold, Job.question?] using h
    exact Follows.bind (closeQuestion_walks hBind rfl rfl rfl trivial)
  | closeQuestionAfter i p d =>
    obtain rfl : i = m := by simpa [Job.mayHold, Job.question?] using h
    exact Follows.bind (walks_sleep hBind trivial (closeQuestion_walks hBind rfl rfl rfl trivial))
  | _ => cases h

end

end Course

end LiveQuiz
