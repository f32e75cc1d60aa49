import LiveQuiz.Protocol.Exec
import LiveQuiz.Lib.Monitor

/-! # The phases of a `submit_answer` call

A call probes the cache, works on its transaction, and leaves it. While it works it
may be refused; once it leaves, it returns what it stores in the cache, or an
outage cuts it off.
-/

namespace LiveQuiz

open Coroutine

set_option autoImplicit false

/-- `void` is where no reply of the runtime leads. -/
inductive SubmitPhase where
  | probing
  | working
  | leaving
  | returned (resp : Response)
  | failed (e : Exn)
  | void

/-- The exceptions that say nothing about the request. -/
def Exn.isOutage : Exn → Bool
  | .fault | .cancelled | .crashed => true
  | _ => false

def Op.touchesIdem : Op → Bool
  | .redis (.idemGet _) | .redis (.idemSet _ _) => true
  | _ => false

def SubmitPhase.allows (rid : String) : SubmitPhase → Op → Prop
  | .probing, o => o = .redis (.idemGet rid)
  | .working, o => o.touchesIdem = false
  | .leaving, o => (∀ k resp, o = .redis (.idemSet k resp) → k = rid) ∧
    (∀ k, o ≠ .redis (.idemGet k)) ∧ (∀ ws, o ≠ .flush ws) ∧ o ≠ .commit
  | .void, _ => True
  | _, _ => False

def afterProbe : (o : Op) → Except Exn o.Res → SubmitPhase
  | .redis (.idemGet _), .ok (some resp) => .returned resp
  | .redis (.idemGet _), .ok none => .working
  | _, .ok _ => .void
  | _, .error e => .failed e

def afterWork (o : Op) : Except Exn o.Res → SubmitPhase
  | .ok _ => if o = .commit then .leaving else .working
  | .error e =>
    if e = .crashed then .leaving
    else if o = .commit then if e.isOutage then .leaving else .void
    else .working

def afterLeave : (o : Op) → Except Exn o.Res → SubmitPhase
  | .redis (.idemSet _ resp), .ok _ => .returned resp
  | .redis (.idemSet _ _), .error e => .failed e
  | _, .ok _ => .leaving
  | _, .error e => if e.isOutage then .leaving else .void

def submitMonitor (rid : String) : Monitor Op Op.Res Exn SubmitPhase where
  allowed := SubmitPhase.allows rid
  next
    | .probing, o, r => afterProbe o r
    | .working, o, r => afterWork o r
    | .leaving, o, r => afterLeave o r
    | _, _, _ => .void

def SubmitPhase.ends {α : Type} (ret : Response → α) : SubmitPhase → Except Exn α → Prop
  | .probing, _ => False
  | .working, r => ∃ e, r = .error e
  | .leaving, r => ∃ e, e.isOutage = true ∧ r = .error e
  | .returned resp, r => r = .ok (ret resp)
  | .failed e, r => r = .error e
  | .void, _ => True

/-- The ends that raising needs. -/
structure Lenient {α : Type} (Q : SubmitPhase → Except Exn α → Prop) : Prop where
  working : ∀ e, Q .working (.error e)
  leaving : ∀ e, e.isOutage = true → Q .leaving (.error e)
  void : ∀ r, Q .void r

section

variable {α β : Type} {rid : String} {Q : SubmitPhase → Except Exn α → Prop}

abbrev Walks (rid : String) (Q : SubmitPhase → Except Exn α → Prop) :
    SubmitPhase → Coro α → Prop :=
  Follows (submitMonitor rid) Q

theorem walks_void (h : ∀ r, Q .void r) (p : Coro α) : Walks rid Q .void p := by
  induction p with
  | done r => exact h r
  | call o k ih => exact ⟨trivial, ih⟩

theorem Lenient.bind {f : β → Coro α} (hQ : Lenient Q) :
    Lenient (Before (submitMonitor rid) Q f) := by
  refine ⟨hQ.working, hQ.leaving, fun r => ?_⟩
  cases r with
  | ok a => exact walks_void hQ.void _
  | error e => exact hQ.void _

theorem Walks.work {o : Op} {f : o.Res → Coro α} (hQ : Lenient Q)
    (ho : o.touchesIdem = false) (hc : o ≠ .commit) (h : ∀ v, Walks rid Q .working (f v)) :
    Walks rid Q .working (ask o >>= f) := by
  refine ⟨ho, fun r => ?_⟩
  cases r with
  | ok v =>
    change Walks rid Q (afterWork o (.ok v)) (f v)
    rw [afterWork, if_neg hc]
    exact h v
  | error e =>
    change Q (afterWork o (.error e)) (.error e)
    simp only [afterWork, hc, if_false]
    split
    next he =>
      rw [he]
      exact hQ.leaving .crashed rfl
    · exact hQ.working e

theorem walks_raise {code : String} {status : Nat} {message : String}
    {details : List (String × String)} (hQ : Lenient Q) :
    Walks rid Q .working (raise code status message details) := hQ.working _

theorem walks_bind_raise {code : String} {status : Nat} {message : String}
    {details : List (String × String)} {f : β → Coro α} (hQ : Lenient Q) :
    Walks rid Q .working (raise code status message details >>= f) := hQ.working _

theorem walks_refused {c : Prop} [Decidable c] {code : String} {status : Nat} {message : String}
    {details : List (String × String)} {f : β → Coro α} {p : Coro α} (hQ : Lenient Q)
    (h : Walks rid Q .working p) :
    Walks rid Q .working (if c then raise code status message details >>= f else p) := by
  split
  · exact walks_bind_raise hQ
  · exact h

theorem walks_rollback (hQ : Lenient Q) {s : SubmitPhase} {e : Exn}
    (hs : s = .working ∨ (s = .leaving ∧ e.isOutage = true)) :
    Walks rid Q s (do rollback; throw e) := by
  obtain rfl | ⟨rfl, he⟩ := hs
  · exact Walks.work hQ rfl (by simp) fun _ => hQ.working e
  · refine ⟨⟨by simp, by simp, by simp, by simp⟩, fun r => ?_⟩
    cases r with
    | ok _ => exact hQ.leaving e he
    | error e' =>
      change Q (if e'.isOutage then .leaving else .void) (.error e')
      split
      next he' => exact hQ.leaving e' he'
      · exact hQ.void _

def BodyEnds (Q : SubmitPhase → Except Exn α → Prop) : SubmitPhase → Except Exn α → Prop
  | .working, .ok a => Q .leaving (.ok a)
  | .working, .error _ => True
  | .leaving, .error e => e.isOutage = true
  | .void, _ => True
  | _, _ => False

theorem lenient_bodyEnds (Q : SubmitPhase → Except Exn α → Prop) : Lenient (BodyEnds Q) :=
  ⟨fun _ => trivial, fun _ he => he, fun _ => trivial⟩

theorem walks_inTransaction {p : Coro α} (hQ : Lenient Q)
    (h : Walks rid (BodyEnds Q) .working p) : Walks rid Q .working (inTransaction p) := by
  refine Follows.handle (Follows.bind (h.mono fun s r hr => ?_))
  cases s with
  | working =>
    cases r with
    | error e => exact walks_rollback hQ (.inl rfl)
    | ok a =>
      refine ⟨rfl, fun r => ?_⟩
      cases r with
      | ok _ => exact hr
      | error e =>
        change Walks rid Q (afterWork .commit (.error e)) (do rollback; throw e)
        simp only [afterWork, if_true]
        split
        next he => exact walks_rollback hQ (.inr ⟨rfl, by rw [he]; rfl⟩)
        · split
          next he => exact walks_rollback hQ (.inr ⟨rfl, he⟩)
          · exact walks_void hQ.void _
  | leaving =>
    cases r with
    | error e => exact walks_rollback hQ (.inr ⟨rfl, hr⟩)
    | ok a => cases hr
  | void =>
    cases r with
    | error e => exact walks_void hQ.void _
    | ok a =>
      refine walks_void (fun r => ?_) _
      cases r with
      | ok b => exact hQ.void _
      | error e => exact walks_void hQ.void _
  | probing => cases r <;> cases hr
  | returned resp => cases r <;> cases hr
  | failed e => cases r <;> cases hr

theorem afterLeave_of_ne {o : Op} (h : ∀ k resp, o ≠ .redis (.idemSet k resp))
    (r : Except Exn o.Res) : afterLeave o r =
      match r with
      | .ok _ => .leaving
      | .error e => if e.isOutage then .leaving else .void := by
  unfold afterLeave
  split
  next k resp _ => exact absurd rfl (h k resp)
  next k resp _ => exact absurd rfl (h k resp)
  · rfl
  · rfl

theorem Walks.leave {o : Op} {f : o.Res → Coro α} (hQ : Lenient Q)
    (ho : o.touchesIdem = false) (hf : ∀ ws, o ≠ .flush ws) (hc : o ≠ .commit)
    (h : ∀ v, Walks rid Q .leaving (f v)) : Walks rid Q .leaving (ask o >>= f) := by
  have hSet : ∀ k resp, o ≠ .redis (.idemSet k resp) := by
    rintro k resp rfl
    cases ho
  have hGet : ∀ k, o ≠ .redis (.idemGet k) := by
    rintro k rfl
    cases ho
  refine ⟨⟨fun k resp hEq => absurd hEq (hSet k resp), hGet, hf, hc⟩, fun r => ?_⟩
  change Follows _ Q (afterLeave o r) _
  rw [afterLeave_of_ne hSet]
  cases r with
  | ok v => exact h v
  | error e =>
    change Q (if e.isOutage then .leaving else .void) (.error e)
    split
    next he => exact hQ.leaving e he
    · exact hQ.void _

theorem walks_broadcast {code : String} {message : Message} {f : Unit → Coro α} (hQ : Lenient Q)
    (h : Walks rid Q .leaving (f ())) :
    Walks rid Q .leaving (broadcast code message >>= f) := by
  refine Follows.bind ?_
  refine Walks.leave hQ.bind rfl (by simp) (by simp) fun _ => ?_
  refine Follows.handle ⟨⟨by simp, by simp, by simp, by simp⟩, fun r => ?_⟩
  cases r with
  | ok _ => exact h
  | error e =>
    cases e with
    | fault => exact h
    | cancelled => exact hQ.leaving _ rfl
    | crashed => exact hQ.leaving _ rfl
    | integrity => exact walks_void hQ.void _
    | auth => exact walks_void hQ.void _

theorem walks_store {resp : Response} {Q : SubmitPhase → Except Exn Response → Prop}
    (hOk : Q (.returned resp) (.ok resp)) (hErr : ∀ e, Q (.failed e) (.error e)) :
    Walks rid Q .leaving (do redis (.idemSet rid resp); return resp) := by
  refine ⟨⟨by simp, by simp, by simp, by simp⟩, fun r => ?_⟩
  cases r with
  | ok _ => exact hOk
  | error e => exact hErr e

end

section

variable {rid : String}

theorem admitAnswer_walks {matchId participantId mqId : Id}
    {Q : SubmitPhase → Except Exn (MatchQuestion × Match × Micros × Micros × Micros × RoomParticipant) → Prop}
    (hQ : Lenient Q) (h : ∀ a, Q .working (.ok a)) :
    Walks rid Q .working (admitAnswer matchId participantId mqId) := by
  refine Walks.work hQ rfl (by simp) fun mq => ?_
  split
  case h_2 => exact walks_raise hQ
  refine walks_refused hQ (Walks.work hQ rfl (by simp) fun m => ?_)
  split
  case h_2 => exact walks_raise hQ
  refine Walks.work hQ rfl (by simp) fun now => walks_refused hQ (walks_refused hQ ?_)
  split
  case h_2 => exact walks_raise hQ
  refine walks_refused hQ (Walks.work hQ rfl (by simp) fun participant => ?_)
  split
  case h_2 => exact walks_raise hQ
  exact walks_refused hQ (h _)

theorem insertInSavepoint_walks {row : AnswerSubmission} {Q : SubmitPhase → Except Exn Bool → Prop}
    (hQ : Lenient Q) (h : ∀ b, Q .working (.ok b)) :
    Walks rid Q .working (insertInSavepoint row) := by
  refine Follows.handle ⟨rfl, fun r => ?_⟩
  cases r with
  | ok _ => exact h true
  | error e =>
    cases e with
    | integrity => exact h false
    | crashed => exact hQ.leaving _ rfl
    | _ => exact hQ.working _

theorem existingSubmission_walks {mqId participantId : Id}
    {Q : SubmitPhase → Except Exn AnswerSubmission → Prop} (hQ : Lenient Q)
    (h : ∀ row, Q .working (.ok row)) :
    Walks rid Q .working (existingSubmission mqId participantId rid) := by
  refine Walks.work hQ rfl (by simp) fun found => ?_
  split
  · exact h _
  · refine Walks.work hQ rfl (by simp) fun found => ?_
    split
    · exact h _
    · exact walks_raise hQ

theorem submitTx_walks {matchId participantId : Id} {payload : AnswerSubmitRequest}
    {Q : SubmitPhase → Except Exn SubmitResult → Prop} (hQ : Lenient Q)
    (hDuplicate : ∀ resp, Q .working (.ok (.duplicate resp)))
    (hInserted : ∀ row questionId nickname code, row.requestId = rid →
      Q .working (.ok (.inserted row questionId nickname code))) :
    Walks rid Q .working (submitTx matchId participantId payload rid) := by
  refine Follows.bind (admitAnswer_walks hQ.bind ?_)
  rintro ⟨mq, m, now, deadlineAt, startedAt, participant⟩
  refine Walks.work hQ rfl (by simp) fun options => ?_
  dsimp only
  split
  case h_2 => exact walks_raise hQ
  refine Walks.work hQ rfl (by simp) fun question => ?_
  refine Walks.work hQ rfl (by simp) fun room => ?_
  refine Walks.work hQ rfl (by simp) fun id => ?_
  refine Follows.bind (insertInSavepoint_walks hQ.bind fun inserted => ?_)
  cases inserted with
  | true =>
    refine Walks.work hQ rfl (by simp) fun eventId => ?_
    refine Walks.work hQ rfl (by simp) fun _ => ?_
    exact hInserted _ _ _ _ rfl
  | false => exact Follows.bind (existingSubmission_walks hQ.bind fun row => hDuplicate _)

theorem top_walks {matchId : Id} {n : Nat} {Q : SubmitPhase → Except Exn (List LeaderboardEntry) → Prop}
    (hQ : Lenient Q) (h : ∀ entries, Q .leaving (.ok entries)) :
    Walks rid Q .leaving (top matchId n) := by
  refine Walks.leave hQ rfl (by simp) (by simp) fun rows => ?_
  dsimp only
  split
  · exact h _
  · exact Walks.leave hQ rfl (by simp) (by simp) fun nicks => h _

theorem submitHooks_walks {row : AnswerSubmission} {questionId : Id} {nickname : String}
    {code : Option String} {Q : SubmitPhase → Except Exn Response → Prop} (hQ : Lenient Q)
    (hOk : ∀ resp, Q (.returned resp) (.ok resp)) (hErr : ∀ e, Q (.failed e) (.error e))
    (hRid : row.requestId = rid) :
    Walks rid Q .leaving (submitHooks row questionId nickname code) := by
  refine Walks.leave hQ rfl (by simp) (by simp) fun _ => ?_
  refine Walks.leave hQ rfl (by simp) (by simp) fun _ => ?_
  refine Walks.leave hQ rfl (by simp) (by simp) fun _ => ?_
  refine Follows.bind (top_walks hQ.bind fun top10 => ?_)
  refine Walks.leave hQ rfl (by simp) (by simp) fun version => ?_
  dsimp only
  rw [hRid]
  split
  · exact walks_broadcast hQ (walks_store (hOk _) hErr)
  · exact walks_store (hOk _) hErr

theorem lenient_ends {α : Type} (ret : Response → α) : Lenient (SubmitPhase.ends ret) :=
  ⟨fun e => ⟨e, rfl⟩, fun e he => ⟨e, he, rfl⟩, fun _ => trivial⟩

theorem submitAnswer_walks {matchId participantId : Id} {payload : AnswerSubmitRequest}
    (hRid : rid ≠ "") : Walks rid (SubmitPhase.ends Ret.response) .probing
      (jobBody (.submitAnswer matchId participantId payload rid)) := by
  have hQ : Lenient (Before (submitMonitor rid) (SubmitPhase.ends Ret.response)
      (pure ∘ Ret.response)) := (lenient_ends _).bind
  refine Follows.bind ?_
  unfold submitAnswer
  rw [if_neg hRid]
  refine ⟨rfl, fun r => ?_⟩
  cases r with
  | error e => exact rfl
  | ok found =>
    cases found with
    | some cached => exact rfl
    | none =>
      change Follows (submitMonitor rid) _ .working (Prog.bind (inTransaction _) _)
      refine Follows.bind (walks_inTransaction hQ.bind (submitTx_walks (lenient_bodyEnds _) ?_ ?_))
      · exact fun resp => walks_store rfl fun _ => rfl
      · exact fun row questionId nickname code hRow =>
          submitHooks_walks hQ (fun _ => rfl) (fun _ => rfl) hRow

theorem submitAnswer_refused (matchId participantId : Id) (payload : AnswerSubmitRequest) :
    ∃ e, jobBody (.submitAnswer matchId participantId payload "") = .done (.error e) :=
  ⟨_, rfl⟩

end

section

variable {rid : String} {prog : Coro Ret} {s : SubmitPhase} {o : Op}
  {k : Except Exn o.Res → Coro Ret}

/-- The call is in phase `s`. -/
abbrev InPhase (rid : String) (s : SubmitPhase) (prog : Coro Ret) : Prop :=
  Walks rid (SubmitPhase.ends Ret.response) s prog

theorem InPhase.returned {resp : Response} (h : InPhase rid (.returned resp) prog) :
    prog = .done (.ok (.response resp)) := by
  cases prog with
  | done r => exact congrArg Prog.done h
  | call o k => exact absurd h.1 id

theorem InPhase.failed {e : Exn} (h : InPhase rid (.failed e) prog) : prog = .done (.error e) := by
  cases prog with
  | done r => exact congrArg Prog.done h
  | call o k => exact absurd h.1 id

/-- The replies of the runtime: only a flush raises what is not an outage. -/
theorem exec_outage {w : World} {t : Task} {pid n : Nat} {d : Decision} {out : Answer o} {e : Exn}
    (h : exec w t pid n o d = some out) (he : out.result = .error e) (ho : ∀ ws, o ≠ .flush ws) :
    e.isOutage = true := by
  obtain ⟨-, -, hOk⟩ | ⟨e', hErr, -, hOut⟩ := exec_cases h
  · cases o with
    | flush ws => exact absurd rfl (ho ws)
    | selectForUpdate q =>
      simp only [perform, lockRow] at hOk
      split at hOk
      · cases hOk
        cases he
      · split at hOk <;> cases hOk
        cases he
    | sleepUntil u =>
      simp only [perform] at hOk
      split at hOk <;> cases hOk
      cases he
    | _ =>
      cases hOk
      cases he
  · rw [hErr] at he
    cases he
    generalize out.shared = v at hOut
    cases hOut <;> rfl

/-- The next phase of a call, by the reply it gets. -/
inductive PhaseMove (rid : String) (prog : Coro Ret) : SubmitPhase → (o : Op) →
    Except Exn o.Res → Prop
  | hit (resp : Response) : prog = .done (.ok (.response resp)) →
      PhaseMove rid prog .probing (.redis (.idemGet rid)) (.ok (some resp))
  | missed : InPhase rid .working prog →
      PhaseMove rid prog .probing (.redis (.idemGet rid)) (.ok none)
  | unprobed (e : Exn) : e.isOutage = true → prog = .done (.error e) →
      PhaseMove rid prog .probing (.redis (.idemGet rid)) (.error e)
  | worked (o : Op) (r : Except Exn o.Res) : o.touchesIdem = false → o ≠ .commit →
      r ≠ .error .crashed → InPhase rid .working prog → PhaseMove rid prog .working o r
  | left (o : Op) (r : Except Exn o.Res) : o.touchesIdem = false →
      (o = .commit ∨ r = .error .crashed) → InPhase rid .leaving prog →
      PhaseMove rid prog .working o r
  | hooked (o : Op) (r : Except Exn o.Res) : o.touchesIdem = false → o ≠ .commit →
      InPhase rid .leaving prog → PhaseMove rid prog .leaving o r
  | stored (resp : Response) : prog = .done (.ok (.response resp)) →
      PhaseMove rid prog .leaving (.redis (.idemSet rid resp)) (.ok ())
  | unstored (resp : Response) (e : Exn) : e.isOutage = true → prog = .done (.error e) →
      PhaseMove rid prog .leaving (.redis (.idemSet rid resp)) (.error e)

theorem InPhase.move {w : World} {t : Task} {pid n : Nat} {d : Decision} {out : Answer o}
    (h : InPhase rid s (.call o k)) (hs : s ≠ .void) (hExec : exec w t pid n o d = some out) :
    PhaseMove rid (k out.result) s o out.result := by
  obtain ⟨hAllowed, hNext⟩ := h
  have hOutage : ∀ e, out.result = .error e → (∀ ws, o ≠ .flush ws) → e.isOutage = true :=
    fun e he ho => exec_outage hExec he ho
  generalize out.result = r at hOutage ⊢
  replace hNext := hNext r
  cases s with
  | probing =>
    obtain rfl := hAllowed
    cases r with
    | ok found =>
      cases found with
      | some resp => exact .hit resp (InPhase.returned hNext)
      | none => exact .missed hNext
    | error e => exact .unprobed e (hOutage e rfl (by simp)) (InPhase.failed hNext)
  | working =>
    change InPhase rid (afterWork o r) _ at hNext
    by_cases hLeft : o = .commit ∨ r = .error .crashed
    · refine .left o r hAllowed hLeft ?_
      cases r with
      | ok v =>
        obtain rfl := hLeft.resolve_right (by simp)
        exact hNext
      | error e =>
        simp only [afterWork] at hNext
        split at hNext
        · exact hNext
        next he =>
          obtain rfl := hLeft.resolve_right (by simpa using he)
          rwa [if_pos rfl, if_pos (hOutage e rfl (by simp))] at hNext
    · obtain ⟨hc, hr⟩ := not_or.mp hLeft
      refine .worked o r hAllowed hc hr ?_
      cases r with
      | ok v => rwa [afterWork, if_neg hc] at hNext
      | error e =>
        simp only [afterWork] at hNext
        rwa [if_neg (by simpa using hr), if_neg hc] at hNext
  | leaving =>
    change InPhase rid (afterLeave o r) _ at hNext
    obtain ⟨hSet, hGet, hFlush, hc⟩ := hAllowed
    by_cases hStore : ∃ key resp, o = .redis (.idemSet key resp)
    · obtain ⟨key, resp, rfl⟩ := hStore
      obtain rfl := hSet key resp rfl
      cases r with
      | ok v => exact .stored resp (InPhase.returned hNext)
      | error e => exact .unstored resp e (hOutage e rfl (by simp)) (InPhase.failed hNext)
    · have hNe : ∀ key resp, o ≠ .redis (.idemSet key resp) :=
        fun key resp hEq => hStore ⟨key, resp, hEq⟩
      have hIdem : o.touchesIdem = false := by
        unfold Op.touchesIdem
        split
        next key => exact absurd rfl (hGet key)
        next key resp => exact absurd rfl (hNe key resp)
        · rfl
      refine .hooked o r hIdem hc ?_
      rw [afterLeave_of_ne hNe] at hNext
      cases r with
      | ok v => exact hNext
      | error e =>
        simp only [hOutage e rfl hFlush, if_true] at hNext
        exact hNext
  | returned resp => exact absurd hAllowed id
  | failed e => exact absurd hAllowed id
  | void => exact absurd rfl hs

end

end LiveQuiz
