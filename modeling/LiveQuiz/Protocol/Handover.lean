import LiveQuiz.Lib.Monitor
import LiveQuiz.Protocol.Moves

/-! # Handing a match on

A start, an arm and a close commit, tell Redis about it and then schedule what comes
next. The order is the same in all three and only the broadcasts are guarded, so the
next step is scheduled exactly when every other call in between returns.
-/

namespace LiveQuiz

open Coroutine

set_option autoImplicit false

/-- `working ws`: the writes flushed so far. `leaving ws`: these are committed. `handed`: a
timer or a gap is scheduled or `end_match` called. `gone`: the first arm is scheduled.
`idle`: nothing is committed, and nothing will be. `void` is where a call after the commit
has raised. -/
inductive HandPhase where
  | working (ws : List Write)
  | leaving (ws : List Write)
  | handed
  | gone
  | idle
  | void

/-- The calls that carry a match on after a commit of `ws`. -/
inductive Hands : Job → List Write → Op → Prop
  | first (host : Id) (code : String) (m : Match) (ws : List Write) :
      .insertMatch m ∈ ws → (∀ m', .insertMatch m' ∈ ws → m' = m) →
      Hands (.startMatch host code) ws (.createTask (.armQuestion m.id 1))
  | timer (job : Job) (m : Id) (p : Nat) (d : Micros) (ws : List Write) :
      Arms job m p → Hands job ws (.setActive m (.closeQuestionAfter m p d))
  | gap (job : Job) (m : Id) (p : Nat) (s : Micros) (ws : List Write) :
      Closes job m p → Hands job ws (.setActive m (.gapThenArm m (p + 1) s))
  | finish (job : Job) (m : Id) (p : Nat) (ws : List Write) :
      Closes job m p → Hands job ws (.cancelActive m)

def Op.schedules : Op → Bool
  | .createTask _ | .setActive _ _ | .cancelActive _ => true
  | _ => false

def Op.isCreate : Op → Bool
  | .createTask _ => true
  | _ => false

def Op.isBroadcast : Op → Bool
  | .broadcast _ _ => true
  | _ => false

/-- The calls between a commit and its successor; the others are `end_match`'s. -/
def Op.aftermath : Op → Bool
  | .select (.submissionsOfMatch _) | .select (.keptParticipants _) | .selectForUpdate _ => false
  | .flush _ | .commit | .rollback => false
  | _ => true

def HandPhase.allows (job : Job) : HandPhase → Op → Prop
  | .leaving ws, o => o.aftermath = true ∧ (o.schedules = true → Hands job ws o)
  | .idle, o => o ≠ .commit ∧ ∀ ws, o ≠ .flush ws
  | .gone, o => o ≠ .commit
  | _, _ => True

def afterWorking (ws : List Write) : (o : Op) → Except Exn o.Res → HandPhase
  | .rollback, _ => .idle
  | .commit, .ok _ => if ws = [] then .idle else .leaving ws
  | .flush ws', .ok _ => .working (ws ++ ws')
  | _, .ok _ => .working ws
  | _, .error _ => .idle

def afterLeaving (ws : List Write) (o : Op) : Except Exn o.Res → HandPhase
  | .ok _ => if o.isCreate then .gone else if o.schedules then .handed else .leaving ws
  | .error e => if o.isBroadcast ∧ e = .fault then .leaving ws else .void

def handMonitor (job : Job) : Monitor Op Op.Res Exn HandPhase where
  allowed := HandPhase.allows job
  next
    | .working ws, o, r => afterWorking ws o r
    | .leaving ws, o, r => afterLeaving ws o r
    | s, _, _ => s

def HandPhase.ends {α : Type} : HandPhase → Except Exn α → Prop
  | .leaving _, _ => False
  | _, _ => True

/-- The ends that raising needs. -/
structure Forgiving {α : Type} (Q : HandPhase → Except Exn α → Prop) : Prop where
  idle : ∀ e, Q .idle (.error e)
  void : ∀ r, Q .void r
  handed : ∀ r, Q .handed r

section

variable {α β : Type} {job : Job} {ws : List Write} {Q : HandPhase → Except Exn α → Prop}

abbrev Hands.Walks (job : Job) (Q : HandPhase → Except Exn α → Prop) : HandPhase → Coro α → Prop :=
  Follows (handMonitor job) Q

theorem walks_of_free {s : HandPhase} (hAllowed : ∀ o, (handMonitor job).allowed s o)
    (hNext : ∀ o r, (handMonitor job).next s o r = s) (h : ∀ r, Q s r) (p : Coro α) :
    Hands.Walks job Q s p := by
  induction p with
  | done r => exact h r
  | call o k ih => exact ⟨hAllowed o, fun r => (hNext o r).symm ▸ ih r⟩

theorem walks_spent (h : ∀ r, Q .void r) (p : Coro α) : Hands.Walks job Q .void p :=
  walks_of_free (s := .void) (fun _ => True.intro) (fun _ _ => rfl) h p

theorem walks_handed (h : ∀ r, Q .handed r) (p : Coro α) : Hands.Walks job Q .handed p :=
  walks_of_free (s := .handed) (fun _ => True.intro) (fun _ _ => rfl) h p

theorem Forgiving.bind {f : β → Coro α} (hQ : Forgiving Q) :
    Forgiving (Before (handMonitor job) Q f) := by
  refine ⟨hQ.idle, fun r => ?_, fun r => ?_⟩
  · cases r with
    | ok a => exact walks_spent hQ.void _
    | error e => exact hQ.void _
  · cases r with
    | ok a => exact walks_handed hQ.handed _
    | error e => exact hQ.handed _

/-- A call of the transaction that leaves its writes as they are. -/
def Op.inside : Op → Bool
  | .rollback | .commit | .flush _ => false
  | _ => true

theorem walks_inside {o : Op} {f : o.Res → Coro α} (hQ : Forgiving Q) (ho : o.inside = true)
    (h : ∀ v, Hands.Walks job Q (.working ws) (f v)) :
    Hands.Walks job Q (.working ws) (ask o >>= f) := by
  refine ⟨trivial, fun r => ?_⟩
  have hNext : (handMonitor job).next (.working ws) o r =
      match r with
      | .ok _ => .working ws
      | .error _ => .idle := by
    cases o <;> cases r <;> first | rfl | cases ho
  rw [hNext]
  cases r with
  | ok v => exact h v
  | error e => exact hQ.idle e

theorem walks_flush {ws' : List Write} {f : Unit → Coro α} (hQ : Forgiving Q)
    (h : Hands.Walks job Q (.working (ws ++ ws')) (f ())) :
    Hands.Walks job Q (.working ws) (flush ws' >>= f) := by
  refine ⟨trivial, fun r => ?_⟩
  cases r with
  | ok v => exact h
  | error e => exact hQ.idle e

def SessionEnds (Q : HandPhase → Except Exn α → Prop) : HandPhase → Except Exn α → Prop
  | .working _, .error _ => True
  | .idle, .error _ => True
  | .leaving _, .error _ => False
  | .gone, .error _ => False
  | s, r => Q s r

theorem forgiving_sessionEnds (hQ : Forgiving Q) : Forgiving (SessionEnds Q) := by
  refine ⟨fun _ => trivial, fun r => ?_, fun r => ?_⟩
  · cases r <;> exact hQ.void _
  · cases r <;> exact hQ.handed _

theorem walks_withSession {s : HandPhase} {p : Coro α} (hQ : Forgiving Q)
    (h : Hands.Walks job (SessionEnds Q) s p) : Hands.Walks job Q s (withSession p) := by
  refine Follows.session (h.mono fun s r hr => ?_)
  cases r with
  | ok a => cases s <;> exact hr
  | error e =>
    cases s with
    | working ws => exact ⟨trivial, fun _ => hQ.idle _⟩
    | idle => exact ⟨⟨by simp, by simp⟩, fun _ => hQ.idle _⟩
    | leaving ws => cases hr
    | void => exact ⟨trivial, fun _ => hQ.void _⟩
    | handed => exact ⟨trivial, fun _ => hQ.handed _⟩
    | gone => cases hr

theorem walks_commit {f : Unit → Coro α} (hQ : Forgiving Q)
    (hIdle : ws = [] → Hands.Walks job Q .idle (f ()))
    (hLeave : ws ≠ [] → Hands.Walks job Q (.leaving ws) (f ())) :
    Hands.Walks job Q (.working ws) (commit >>= f) := by
  refine ⟨trivial, fun r => ?_⟩
  cases r with
  | error e => exact hQ.idle e
  | ok v =>
    change Hands.Walks job Q (if ws = [] then .idle else .leaving ws) (f ())
    split
    next h => exact hIdle h
    next h => exact hLeave h

theorem walks_after {o : Op} {f : o.Res → Coro α} (hQ : Forgiving Q) (ho : o.aftermath = true)
    (hs : o.schedules = false) (hb : o.isBroadcast = false)
    (h : ∀ v, Hands.Walks job Q (.leaving ws) (f v)) :
    Hands.Walks job Q (.leaving ws) (ask o >>= f) := by
  refine ⟨⟨ho, fun h => by rw [hs] at h; cases h⟩, fun r => ?_⟩
  change Follows _ Q (afterLeaving ws o r) _
  cases r with
  | ok v =>
    have hc : o.isCreate = false := by cases o <;> first | rfl | cases hs
    rw [afterLeaving, hc, hs]
    exact h v
  | error e =>
    rw [afterLeaving, hb]
    exact hQ.void _

theorem walks_hands {o : Op} {k : Except Exn o.Res → Coro α} (hQ : Forgiving Q)
    (ho : o.aftermath = true) (hs : o.schedules = true) (hc : o.isCreate = false)
    (hb : o.isBroadcast = false) (hHands : Hands job ws o) :
    Hands.Walks job Q (.leaving ws) (.call o k) := by
  refine ⟨⟨ho, fun _ => hHands⟩, fun r => ?_⟩
  change Follows _ Q (afterLeaving ws o r) _
  cases r with
  | ok v =>
    rw [afterLeaving, hc, hs]
    exact walks_handed hQ.handed _
  | error e =>
    rw [afterLeaving, hb]
    exact walks_spent hQ.void _

theorem walks_fanOut {code : String} {message : Message} {f : Unit → Coro α} (hQ : Forgiving Q)
    (h : Hands.Walks job Q (.leaving ws) (f ())) :
    Hands.Walks job Q (.leaving ws) (broadcast code message >>= f) := by
  refine Follows.bind ?_
  refine walks_after hQ.bind rfl rfl rfl fun _ => ?_
  refine Follows.handle ⟨⟨rfl, by simp [Op.schedules]⟩, fun r => ?_⟩
  cases r with
  | ok _ => exact h
  | error e =>
    cases e with
    | fault => exact h
    | cancelled => exact hQ.void _
    | crashed => exact hQ.void _
    | integrity => exact walks_spent hQ.void _
    | auth => exact walks_spent hQ.void _

/-- How the body of a guarded transaction may end: without writes it returns nothing. -/
def GuardEnds (job : Job) (Q : HandPhase → Except Exn α → Prop) (f : Option β → Coro α) :
    HandPhase → Except Exn (Option β) → Prop
  | .working ws, .ok a => (ws = [] → a = none) ∧ (ws ≠ [] → Hands.Walks job Q (.leaving ws) (f a))
  | .idle, .ok _ => False
  | .leaving _, _ => False
  | .gone, _ => False
  | _, _ => True

theorem forgiving_guardEnds {f : Option β → Coro α} : Forgiving (GuardEnds job Q f) :=
  ⟨fun _ => trivial, fun _ => trivial, fun _ => trivial⟩

theorem walks_handled {body : Coro (Option β)} {handler : Exn → Coro (Option β)}
    {f : Option β → Coro α} (hQ : Forgiving Q) (hNone : Hands.Walks job Q .idle (f none))
    (hHandler : ∀ e, Hands.Walks job (Before (handMonitor job) Q f) .idle (handler e))
    (h : Hands.Walks job (GuardEnds job Q f) (.working []) body) :
    Hands.Walks job Q (.working []) ((inTransaction body).handle handler >>= f) := by
  have hUnder : Forgiving (Under (handMonitor job) (Before (handMonitor job) Q f) handler) := by
    refine ⟨hHandler, fun r => ?_, fun r => ?_⟩
    · cases r with
      | ok a => exact walks_spent hQ.void _
      | error e => exact walks_spent hQ.bind.void _
    · cases r with
      | ok a => exact walks_handed hQ.handed _
      | error e => exact walks_handed hQ.bind.handed _
  refine Follows.bind (Follows.handle (walks_withSession hUnder (Follows.bind (h.mono ?_))))
  have hEnds := forgiving_sessionEnds hUnder
  intro s r hr
  cases r with
  | error e =>
    cases s with
    | working ws => trivial
    | idle => trivial
    | leaving ws => cases hr
    | gone => cases hr
    | void => exact hEnds.bind.void _
    | handed => exact hEnds.bind.handed _
  | ok a =>
    cases s with
    | working ws =>
      refine walks_commit hEnds (fun hNil => ?_) fun hCons => hr.2 hCons
      rw [hr.1 hNil]
      exact hNone
    | idle => cases hr
    | leaving ws => cases hr
    | gone => cases hr
    | void => exact walks_spent hEnds.void _
    | handed => exact walks_handed hEnds.handed _

theorem walks_guarded {body : Coro (Option β)} {f : Option β → Coro α} (hQ : Forgiving Q)
    (hNone : Hands.Walks job Q .idle (f none))
    (h : Hands.Walks job (GuardEnds job Q f) (.working []) body) :
    Hands.Walks job Q (.working []) (exceptException (inTransaction body) none >>= f) :=
  walks_handled hQ hNone (fun e => by cases e <;> first | exact hNone | exact hQ.idle _) h

theorem walks_skip {f : Option β → Coro α} :
    Hands.Walks job (GuardEnds job Q f) (.working []) (pure none) :=
  ⟨fun _ => rfl, fun h => absurd rfl h⟩

theorem armTx_hands {m : Id} {p : Nat} {f : Option (String × Micros × QuestionPayload) → Coro α}
    (h : ∀ ws a, Hands.Walks job Q (.leaving ws) (f (some a))) :
    Hands.Walks job (GuardEnds job Q f) (.working []) (armTx m p) := by
  have hG : Forgiving (GuardEnds job Q f) := forgiving_guardEnds
  refine walks_inside hG rfl fun row => ?_
  split
  case h_2 => exact walks_skip
  next mq =>
  split
  · exact walks_skip
  refine walks_inside hG rfl fun row => ?_
  split
  case h_2 => exact walks_skip
  split
  · exact walks_skip
  refine walks_inside hG rfl fun row => ?_
  split
  case h_2 => exact walks_skip
  refine walks_inside hG rfl fun options => ?_
  refine walks_inside hG rfl fun row => ?_
  split
  case h_2 => exact walks_skip
  refine walks_inside hG rfl fun startedAt => ?_
  refine walks_inside hG rfl fun eventId => ?_
  refine walks_flush hG ?_
  refine walks_inside hG rfl fun serverNow => ?_
  exact ⟨fun hNil => (List.cons_ne_nil _ _ hNil).elim, fun _ => h _ _⟩

theorem armQuestion_hands {m : Id} {p : Nat} {Q : HandPhase → Except Exn Unit → Prop}
    (hQ : Forgiving Q) (hJob : Arms job m p) (hIdle : Q .idle (.ok ())) :
    Hands.Walks job Q (.working []) (armQuestion m p) := by
  refine walks_guarded hQ hIdle (armTx_hands fun ws a => ?_)
  refine walks_after hQ rfl rfl rfl fun _ => ?_
  refine walks_fanOut hQ ?_
  refine walks_after hQ rfl rfl rfl fun now => ?_
  exact walks_hands hQ rfl rfl rfl rfl (.timer job m p _ ws hJob)

theorem closeTx_hands {m : Id} {p : Nat} {f : Option Closed → Coro α}
    (h : ∀ ws a, Hands.Walks job Q (.leaving ws) (f (some a))) :
    Hands.Walks job (GuardEnds job Q f) (.working []) (closeTx m p) := by
  have hG : Forgiving (GuardEnds job Q f) := forgiving_guardEnds
  refine walks_inside hG rfl fun row => ?_
  split
  case h_2 => exact walks_skip
  next mq =>
  split
  · exact walks_skip
  refine walks_inside hG rfl fun row => ?_
  split
  case h_2 => exact walks_skip
  split
  · exact walks_skip
  refine walks_inside hG rfl fun row => ?_
  split
  case h_2 => exact walks_skip
  refine walks_inside hG rfl fun options => ?_
  refine walks_inside hG rfl fun question => ?_
  refine walks_inside hG rfl fun closedAt => ?_
  refine walks_flush hG ?_
  refine walks_inside hG rfl fun all => ?_
  refine walks_inside hG rfl fun eventId => ?_
  refine walks_flush hG ?_
  exact ⟨fun hNil => (List.cons_ne_nil _ _ hNil).elim, fun _ => h _ _⟩

theorem closedAccuracy_hands {m : Id} {mq : MatchQuestion} {f : Option ℚ → Coro α}
    (hQ : Forgiving Q) (h : ∀ a, Hands.Walks job Q (.leaving ws) (f a)) :
    Hands.Walks job Q (.leaving ws) (closedAccuracy m mq >>= f) := by
  refine Follows.bind (walks_after hQ.bind rfl rfl rfl fun answered => ?_)
  split
  · exact h none
  · refine walks_after hQ.bind rfl rfl rfl fun correct => ?_
    exact h _

theorem closeQuestion_hands {m : Id} {p : Nat} {Q : HandPhase → Except Exn Unit → Prop}
    (hQ : Forgiving Q) (hJob : Closes job m p) (hIdle : Q .idle (.ok ())) :
    Hands.Walks job Q (.working []) (closeQuestion m p) := by
  refine walks_guarded hQ hIdle (closeTx_hands fun ws closed => ?_)
  refine closedAccuracy_hands hQ fun accuracy => ?_
  refine walks_fanOut hQ ?_
  split
  · exact walks_hands hQ rfl rfl rfl rfl (.finish job m p ws hJob)
  · exact walks_hands hQ rfl rfl rfl rfl (.gap job m p _ ws hJob)

theorem drawIds_hands {Q : HandPhase → Except Exn (List Id) → Prop} (hQ : Forgiving Q) (k : Nat)
    (h : ∀ ids, Q (.working ws) (.ok ids)) : Hands.Walks job Q (.working ws) (drawIds k) := by
  induction k generalizing Q with
  | zero => exact h []
  | succ k ih =>
    refine walks_inside hQ rfl fun id => Follows.bind (ih hQ.bind fun ids => ?_)
    exact h (id :: ids)

theorem walks_refuse {c : Prop} [Decidable c] {code : String} {status : Nat} {message : String}
    {details : List (String × String)} {f : β → Coro α} {p : Coro α}
    (hRaise : ∀ e, Q (.working ws) (.error e)) (h : Hands.Walks job Q (.working ws) p) :
    Hands.Walks job Q (.working ws) (if c then raise code status message details >>= f else p) := by
  split
  · exact hRaise _
  · exact h

theorem startTx_hands {host : Id} {code : String}
    {Q : HandPhase → Except Exn (Match × Room × Nat) → Prop} (hQ : Forgiving Q)
    (hRaise : ∀ ws e, Q (.working ws) (.error e))
    (h : ∀ ws m room n, .insertMatch m ∈ ws → (∀ m', .insertMatch m' ∈ ws → m' = m) →
      Q (.leaving ws) (.ok (m, room, n))) :
    Hands.Walks job Q (.working []) (startTx host code) := by
  refine walks_inside hQ rfl fun row => ?_
  split
  case h_2 => exact hRaise _ _
  next room =>
  refine walks_refuse (hRaise _) (walks_refuse (hRaise _) ?_)
  refine walks_inside hQ rfl fun row => ?_
  split
  case h_2 => exact hRaise _ _
  next quiz =>
  refine walks_inside hQ rfl fun questions => ?_
  refine walks_refuse (hRaise _) ?_
  refine walks_inside hQ rfl fun startedAt => ?_
  refine walks_inside hQ rfl fun matchId => ?_
  refine walks_flush hQ ?_
  refine Follows.bind (drawIds_hands hQ.bind _ fun ids => ?_)
  refine walks_flush hQ ?_
  refine walks_inside hQ rfl fun eventId => ?_
  refine walks_flush hQ ?_
  refine walks_commit hQ (fun hNil => ?_) fun _ => ?_
  · simp at hNil
  · exact h _ _ _ _ (by simp) (by simp)

theorem seedMatchState_hands {m : Match} {room : Room} {count : Nat} {f : Unit → Coro α}
    (hQ : Forgiving Q) (h : Hands.Walks job Q (.leaving ws) (f ())) :
    Hands.Walks job Q (.leaving ws) (seedMatchState m room count >>= f) := by
  have hQ' : Forgiving (Before (handMonitor job) Q f) := hQ.bind
  have hRest : Hands.Walks job (Before (handMonitor job) Q f) (.leaving ws) 
      (resetMatchState m room count) := by
    refine walks_after hQ' rfl rfl rfl fun _ => ?_
    refine walks_after hQ' rfl rfl rfl fun cached => ?_
    split
    · refine ⟨⟨rfl, by simp [Op.schedules]⟩, fun r => ?_⟩
      cases r with
      | ok _ => exact h
      | error e => exact hQ'.void _
    · exact h
  refine Follows.bind (walks_after hQ' rfl rfl rfl fun participants => ?_)
  dsimp only
  split
  · exact walks_after hQ' rfl rfl rfl fun _ => hRest
  · exact hRest

theorem startMatch_hands {host : Id} {code : String} {Q : HandPhase → Except Exn Match → Prop}
    (hQ : Forgiving Q) (hGone : ∀ m, Q .gone (.ok m)) :
    Hands.Walks (.startMatch host code) Q (.working []) (startMatch host code) := by
  have hQ' := forgiving_sessionEnds hQ
  refine walks_withSession hQ ?_
  refine Follows.bind (startTx_hands hQ'.bind (fun _ _ => trivial) ?_)
  intro ws m room n hIns hOnly
  refine seedMatchState_hands hQ' ?_
  refine walks_after hQ' rfl rfl rfl fun serverNow => ?_
  refine walks_fanOut hQ' ?_
  refine ⟨⟨rfl, fun _ => .first host code m ws hIns hOnly⟩, fun r => ?_⟩
  cases r with
  | ok _ => exact hGone m
  | error e => exact hQ'.void _

theorem walks_sleep {p : Coro Unit} {d : Micros} {Q : HandPhase → Except Exn Unit → Prop}
    (hQ : Forgiving Q) (hIdle : Q .idle (.ok ())) (h : Hands.Walks job Q (.working []) p) :
    Hands.Walks job Q (.working []) (do if ← sleepUncancelled d then p) := by
  refine Follows.bind (walks_inside hQ.bind rfl fun now => ?_)
  refine Follows.handle ⟨trivial, fun r => ?_⟩
  cases r with
  | ok _ => exact h
  | error e => cases e <;> first | exact hIdle | exact hQ.idle _

/-- The jobs that commit one step of a match and hand it on. -/
def Job.carries : Job → Bool
  | .startMatch _ _ | .armQuestion _ _ | .gapThenArm _ _ _ => true
  | .closeQuestion _ _ | .closeQuestionAfter _ _ _ => true
  | _ => false

theorem jobBody_hands (hJob : job.carries = true) :
    Hands.Walks job HandPhase.ends (.working []) (jobBody job) := by
  have hQ : @Forgiving Ret HandPhase.ends :=
    ⟨fun _ => trivial, fun _ => trivial, fun _ => trivial⟩
  cases job with
  | startMatch host code => exact Follows.bind (startMatch_hands hQ.bind fun _ => trivial)
  | armQuestion m p => exact Follows.bind (armQuestion_hands hQ.bind (.arm m p) trivial)
  | gapThenArm m p s =>
    exact Follows.bind (walks_sleep hQ.bind trivial (armQuestion_hands hQ.bind (.gap m p s) trivial))
  | closeQuestion m p => exact Follows.bind (closeQuestion_hands hQ.bind (.close m p) trivial)
  | closeQuestionAfter m p d =>
    exact Follows.bind (walks_sleep hQ.bind trivial
      (closeQuestion_hands hQ.bind (.after m p d) trivial))
  | _ => cases hJob

end

section

variable {w : World} {t : Task} {pid n : Nat} {o : Op} {d : Decision} {out : Answer o}

theorem perform_tx (ho : o.inside = true) (h : perform w t pid n o d = some out) :
    (out.shared.tx pid).writes = (w.tx pid).writes ∧
      (o.aftermath = true → out.shared.tx pid = w.tx pid) := by
  have hSame : ∀ {v : World}, v.tx = w.tx →
      (v.tx pid).writes = (w.tx pid).writes ∧ (o.aftermath = true → v.tx pid = w.tx pid) := by
    intro v hv
    rw [hv]
    exact ⟨rfl, fun _ => rfl⟩
  have hCancel : ∀ (v : World) (p : Option Nat), (v.requestCancel p).tx = v.tx := by
    intro v p
    cases p <;> rfl
  cases o with
  | rollback => cases ho
  | commit => cases ho
  | flush ws => cases ho
  | sleepUntil u =>
    simp only [perform] at h
    split at h <;> cases h
    exact hSame rfl
  | select query =>
    cases h
    cases query with
    | submissionsOfMatch m =>
      constructor
      · simp [World.noteRead]
      · intro ha
        cases ha
    | _ => exact hSame rfl
  | selectForUpdate query =>
    simp only [perform, lockRow] at h
    split at h
    · cases h
      exact hSame rfl
    · split at h <;> cases h
      exact hSame rfl
  | setActive m j =>
    cases h
    exact hSame (hCancel _ _)
  | cancelActive m =>
    cases h
    exact hSame (hCancel _ _)
  | _ =>
    cases h
    exact hSame rfl

theorem perform_ok (ho : o.inside = true) (h : perform w t pid n o d = some out) :
    ∃ v, out.result = .ok v := by
  cases o with
  | rollback => cases ho
  | commit => cases ho
  | flush ws => cases ho
  | sleepUntil u =>
    simp only [perform] at h
    split at h <;> cases h
    exact ⟨_, rfl⟩
  | selectForUpdate query =>
    simp only [perform, lockRow] at h
    split at h
    · cases h
      exact ⟨_, rfl⟩
    · split at h <;> cases h
      exact ⟨_, rfl⟩
  | _ =>
    cases h
    exact ⟨_, rfl⟩

theorem exec_commit_failed {out : Answer .commit} (h : exec w t pid n .commit d = some out)
    (hLost : d.fault ≠ .lost) {e : Exn} (hErr : out.result = .error e) : out.shared.wal = w.wal := by
  unfold exec at h
  split at h
  · cases h
  · cases h
    rfl
  · split at h
    · split at h
      next hEq => exact absurd hEq hLost
      · cases h
        rfl
    · split at h
      · cases h
        cases hErr
      · cases h
        rfl
      next hEq => exact absurd hEq hLost

theorem exec_unhindered (h : exec w t pid n o d = some out) (hUp : w.phase t.replica ≠ .crashed)
    (hLive : ¬(o.suspends = true ∧ w.cancelling pid = true))
    (hFault : o.isBroadcast = true ∨ d.fault = .none) :
    perform w t pid n o d = some out ∨
      (o.isBroadcast = true ∧ out.result = .error .fault ∧
        (out.shared = w ∨ ∃ a, perform w t pid n o d = some a ∧ out.shared = a.shared)) := by
  have hGo : (o.suspends && w.cancelling pid) = false := by
    rw [← Bool.not_eq_true, Bool.and_eq_true]
    exact hLive
  unfold exec at h
  split at h
  · cases h
  next hCrashed => exact absurd hCrashed hUp
  · rw [hGo] at h
    simp only [Bool.false_eq_true, if_false] at h
    split at h
    · exact .inl h
    next hFail =>
      have hb := hFault.resolve_right (by rw [hFail]; simp)
      split at h <;> cases h
      exact .inr ⟨hb, rfl, .inl rfl⟩
    next hFail =>
      have hb := hFault.resolve_right (by rw [hFail]; simp)
      split at h
      · obtain ⟨a, ha, rfl⟩ := Option.map_eq_some_iff.mp h
        exact .inr ⟨hb, rfl, .inr ⟨a, ha, rfl⟩⟩
      · cases h

end

end LiveQuiz
