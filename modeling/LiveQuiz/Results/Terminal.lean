import LiveQuiz.Protocol.Layered
import LiveQuiz.Results.Lifecycle

/-! # Completed is terminal for questions

An arm and a close lock their question, read the status of the match without a lock,
and commit later. They find a running match at that read; nothing keeps `end_match`
from committing before they do. So a question of a completed match stays as it is
exactly as long as no match is completed inside such a transaction.
-/

namespace LiveQuiz

open Coroutine

set_option autoImplicit false

def Uncompleted (w : World) (m : Id) : Prop :=
  ∀ x ∈ w.db.matches', x.id = m → x.status ≠ .completed

/-- Between its check of the match and its commit, an arm or a close has a match that
is not completed. -/
def checkLayer : SysLayer where
  inv _ := True
  rely pid t o w w' := Rely pid w w' ∧
    (w.phase t.replica = .crashed → w'.phase t.replica = .crashed) ∧
    ∀ q ∈ w.db.matchQuestions, w.lock (.matchQuestion q.id) = some pid → q.closedAt = none →
      o ≠ .select (.getMatch q.matchId) → o ≠ .rollback →
      (o = .commit → (w.tx pid).writes ≠ []) → Uncompleted w q.matchId →
      Uncompleted w' q.matchId ∨ Stopped pid t w' o
  req pid t w
    | .commit => w.phase t.replica ≠ .crashed → Silent w pid →
      ∀ i sa da ca, .updateMatchQuestion i sa da ca ∈ (w.tx pid).writes →
        ∀ q ∈ w.db.matchQuestions, q.id = i → Uncompleted w q.matchId
    | _ => True

section

variable {pid : Nat} {t : Task} {w w' : World} {m : Id} {p : Nat} {mq : MatchQuestion}

theorem Stopped.rely {o : Op} (h : Stopped pid t w o) (hRely : Rely pid w w')
    (hPhase : w.phase t.replica = .crashed → w'.phase t.replica = .crashed) :
    Stopped pid t w' o :=
  h.imp hPhase fun ⟨hs, hc, hCancel⟩ => ⟨hs, hc, hRely.cancelling hCancel⟩

theorem checkLayer_steady : checkLayer.Steady := by
  constructor
  · exact fun pid t o w => ⟨.refl pid w, id, fun _ _ _ _ _ _ _ h => .inl h⟩
  · rintro pid t o w₁ w₂ w₃ ⟨h₁, hPhase₁, hKeep₁⟩ ⟨h₂, hPhase₂, hKeep₂⟩
    refine ⟨h₁.trans h₂, fun h => hPhase₂ (hPhase₁ h), fun q hq hLock hOpen hGet hRoll hTx hUn => ?_⟩
    obtain hUn' | hStop := hKeep₁ q hq hLock hOpen hGet hRoll hTx hUn
    · exact hKeep₂ q (h₁.lockedQuestion q hq hLock) (h₁.lock _ hLock) hOpen hGet hRoll
        (fun hc => h₁.tx ▸ hTx hc) hUn'
    · exact .inr (hStop.rely h₂ hPhase₂)

/-- The transaction holds its question and has found the match running. -/
structure Checked (pid : Nat) (mq : MatchQuestion) (w : World) : Prop where
  held : HoldsQuestion pid mq w
  uncompleted : Uncompleted w mq.matchId

theorem checked_frame : Frame checkLayer pid t
    (fun o => o ≠ .select (.getMatch mq.matchId) ∧ o ≠ .rollback ∧ o ≠ .commit)
    (Checked pid mq) where
  others := by
    rintro o w w' ⟨hGet, hRoll, hNe⟩ hRely hRely' h hRuns
    refine ⟨h.held.holds hRely.toHolds, ?_⟩
    exact (hRely'.2.2 mq h.held.mem h.held.lock h.held.closedAt hGet hRoll (fun hc => absurd hc hNe)
      h.uncompleted).resolve_right hRuns
  own := by
    intro w w' hHolds hDb _ h
    refine ⟨h.held.holds hHolds, ?_⟩
    unfold Uncompleted
    rw [hDb]
    exact h.uncompleted

theorem checked_commit {ws : List Write} (h : Checked pid mq w)
    (hTx : w.tx pid = { writes := ws }) (hNe : ws ≠ []) (hRely : Rely pid w w')
    (hRely' : checkLayer.rely pid t .commit w w') (hRuns : ¬Stopped pid t w' .commit) :
    Checked pid mq w' := by
  refine ⟨h.held.holds hRely.toHolds, ?_⟩
  refine (hRely'.2.2 mq h.held.mem h.held.lock h.held.closedAt (by simp) (by simp) (fun _ => ?_)
    h.uncompleted).resolve_right hRuns
  rw [hTx]
  exact hNe

theorem uncompleted_of_running {n : Nat} (hInv : Inv n w) {x : Match}
    (hx : Query.run w.db (.getMatch m) = some x) (hStatus : x.status = .running) :
    Uncompleted w m := by
  intro y hy hId
  have hMem : x ∈ w.db.matches' := List.mem_of_find?_eq_some hx
  have hxId : x.id = m := by simpa using List.find?_some hx
  rw [hInv.keys.match_eq hy hMem (.inl (hId.trans hxId.symm)), hStatus]
  simp

theorem armTx_checked (hTx : w.tx pid = {}) : Layered checkLayer pid t (armTx m p)
    (fun r w' => match r with
      | none => w'.tx pid = {}
      | some _ => ∃ mq question eventId startedAt deadlineAt, Checked pid mq w' ∧
          w'.tx pid = { writes := armWrites mq question eventId startedAt deadlineAt }) w := by
  refine .bind (.selectForUpdate .trivial trivial trivial hTx (fun _ => trivial)
    (fun _ _ _ hTx _ _ => .pure hTx) ?_)
  intro w₁ n₁ (mq : MatchQuestion) hHolds hTx hInv _ hFind hLock
  obtain ⟨hMem, rfl, hPos⟩ := find_questionAt hFind
  dsimp only
  split
  · exact .pure hTx
  next hOpen =>
  have hMq : HoldsQuestion pid mq w₁ := ⟨hMem, hLock, by simpa using hOpen⟩
  refine .bind (.select .trivial trivial rfl trivial hTx (fun _ => trivial) ?_)
  intro w₂ _ h₂ hTx hInv₂ _ _
  split
  case h_2 => exact .pure hTx
  next x hx =>
  split
  · exact .pure hTx
  next hStatus =>
  have hC₂ : Checked pid mq w₂ :=
    ⟨hMq.holds h₂, uncompleted_of_running hInv₂ hx (by simpa using hStatus)⟩
  refine .bind (.select checked_frame hC₂ rfl (by simp) hTx (fun _ => trivial) ?_)
  intro w₃ _ _ hTx _ _ hC₃
  split
  case h_2 => exact .pure hTx
  refine .bind (.select checked_frame hC₃ rfl (by simp) hTx (fun _ => trivial) ?_)
  intro w₄ _ _ hTx _ _ hC₄
  refine .bind (.select checked_frame hC₄ rfl (by simp) hTx (fun _ => trivial) ?_)
  intro w₅ _ _ hTx _ _ hC₅
  split
  case h_2 => exact .pure hTx
  refine .bind (.quiet checked_frame hC₅ rfl (by simp) (fun _ => trivial) ?_)
  intro w₆ _ startedAt _ hTx₆ _ hC₆
  refine .bind (.quiet checked_frame hC₆ rfl (by simp) (fun _ => trivial) ?_)
  intro w₇ _ eventId _ hTx₇ _ hC₇
  rw [hTx₆, hTx] at hTx₇
  refine .bind (.flush checked_frame hC₇ (by simp) hTx₇ (fun _ => trivial) ?_)
  intro w₈ _ _ hTx₈ _ hC₈
  refine .bind (.quiet checked_frame hC₈ rfl (by simp) (fun _ => trivial) ?_)
  intro w₉ _ serverNow _ hTx₉ _ hC₉
  exact .pure ⟨mq, _, eventId, startedAt, _, hC₉, hTx₉.trans hTx₈⟩

theorem closeTx_checked (hTx : w.tx pid = {}) : Layered checkLayer pid t (closeTx m p)
    (fun r w' => match r with
      | none => w'.tx pid = {}
      | some _ => ∃ mq eventId closedAt correctIds, Checked pid mq w' ∧
          w'.tx pid = { writes := closeWrites mq eventId closedAt correctIds }) w := by
  refine .bind (.selectForUpdate .trivial trivial trivial hTx (fun _ => trivial)
    (fun _ _ _ hTx _ _ => .pure hTx) ?_)
  intro w₁ n₁ (mq : MatchQuestion) hHolds hTx hInv _ hFind hLock
  obtain ⟨hMem, rfl, hPos⟩ := find_questionAt hFind
  dsimp only
  split
  · exact .pure hTx
  next hOpen =>
  have hMq : HoldsQuestion pid mq w₁ := ⟨hMem, hLock, by simpa using hOpen⟩
  refine .bind (.select .trivial trivial rfl trivial hTx (fun _ => trivial) ?_)
  intro w₂ _ h₂ hTx hInv₂ _ _
  split
  case h_2 => exact .pure hTx
  next x hx =>
  split
  · exact .pure hTx
  next hStatus =>
  have hC₂ : Checked pid mq w₂ :=
    ⟨hMq.holds h₂, uncompleted_of_running hInv₂ hx (by simpa using hStatus)⟩
  refine .bind (.select checked_frame hC₂ rfl (by simp) hTx (fun _ => trivial) ?_)
  intro w₃ _ _ hTx _ _ hC₃
  split
  case h_2 => exact .pure hTx
  refine .bind (.select checked_frame hC₃ rfl (by simp) hTx (fun _ => trivial) ?_)
  intro w₄ _ _ hTx _ _ hC₄
  refine .bind (.select checked_frame hC₄ rfl (by simp) hTx (fun _ => trivial) ?_)
  intro w₅ _ _ hTx _ _ hC₅
  refine .bind (.quiet checked_frame hC₅ rfl (by simp) (fun _ => trivial) ?_)
  intro w₆ _ closedAt _ hTx₆ _ hC₆
  refine .bind (.flush checked_frame hC₆ (by simp) (hTx₆.trans hTx) (fun _ => trivial) ?_)
  intro w₇ _ _ hTx₇ _ hC₇
  refine .bind (.select checked_frame hC₇ rfl (by simp) hTx₇ (fun _ => trivial) ?_)
  intro w₈ _ _ hTx₈ _ _ hC₈
  refine .bind (.quiet checked_frame hC₈ rfl (by simp) (fun _ => trivial) ?_)
  intro w₉ _ eventId _ hTx₉ _ hC₉
  refine .bind (.flush checked_frame hC₉ (by simp) (hTx₉.trans hTx₈) (fun _ => trivial) ?_)
  intro w₁₀ _ _ hTx₁₀ _ hC₁₀
  exact .pure ⟨mq, eventId, closedAt, _, hC₁₀, hTx₁₀⟩

theorem checkLayer_spent (w : World) (o : Op) (h : ¬Silent w pid) : checkLayer.req pid t w o := by
  cases o with
  | commit => exact fun _ hSilent => absurd hSilent h
  | _ => trivial

theorem not_silent_commit (w : World) (pid : Nat) : ¬Silent (w.commit pid) pid :=
  fun h => h _ (List.mem_append_right _ (List.mem_singleton_self _))

theorem commit_nothing {Q : Unit → World → Prop} (hTx : w.tx pid = {})
    (hQ : ∀ w₁, ¬Silent w₁ pid → Q () w₁) : Layered checkLayer pid t commit Q w := by
  refine .commit hTx (fun _ _ _ _ => trivial) fun w₁ n _ hTx₁ _ _ _ => ⟨?_, fun _ => hQ _ ?_⟩
  · intro _ _ i sa da ca hwr
    rw [hTx₁] at hwr
    cases hwr
  · exact not_silent_commit w₁ pid

theorem commit_checked {ws : List Write} {Q : Unit → World → Prop} (hC : Checked pid mq w)
    (hTx : w.tx pid = { writes := ws }) (hNe : ws ≠ [])
    (hOnly : ∀ i sa da ca, .updateMatchQuestion i sa da ca ∈ ws → i = mq.id)
    (hQ : ∀ w₁, ¬Silent w₁ pid → Q () w₁) : Layered checkLayer pid t commit Q w := by
  refine .commit hTx (fun _ => checked_commit hC hTx hNe) fun w₁ n _ hTx₁ hInv hC₁ _ => ⟨?_, ?_⟩
  · intro hUp _ i sa da ca hwr q hq hId
    rw [hTx₁] at hwr
    have hC₁ := hC₁ hUp
    rw [hInv.keys.matchQuestion_eq hq hC₁.held.mem (.inl (hId.trans (hOnly i sa da ca hwr)))]
    exact hC₁.uncompleted
  · exact fun _ => hQ _ (not_silent_commit w₁ pid)

theorem armQuestion_checked (hTx : w.tx pid = {}) :
    Layered checkLayer pid t (armQuestion m p) (fun _ _ => True) w := by
  have hTxn : Layered checkLayer pid t (exceptException (inTransaction (armTx m p)) none)
      (fun r w' => r.isSome = true → ¬Silent w' pid) w := by
    refine .exceptException (.inTransaction (fun _ => trivial) ((armTx_checked hTx).mono ?_)) (by simp)
    intro r w₁ hr
    cases r with
    | none => exact commit_nothing hr fun _ h _ => h
    | some r =>
      obtain ⟨mq, question, eventId, startedAt, deadlineAt, hC, hTx₁⟩ := hr
      refine commit_checked hC hTx₁ (by simp [armWrites]) (fun i sa da ca hwr => ?_) fun _ h _ => h
      obtain ⟨hId, -⟩ : i = mq.id ∧ _ := by simpa [armWrites] using hwr
      exact hId
  refine .bind (hTxn.mono fun r w₁ hr => ?_)
  cases r with
  | none => exact .pure trivial
  | some r => exact .spent checkLayer_spent (hr rfl)

theorem closeQuestion_checked (hTx : w.tx pid = {}) :
    Layered checkLayer pid t (closeQuestion m p) (fun _ _ => True) w := by
  have hTxn : Layered checkLayer pid t (exceptException (inTransaction (closeTx m p)) none)
      (fun r w' => r.isSome = true → ¬Silent w' pid) w := by
    refine .exceptException (.inTransaction (fun _ => trivial) ((closeTx_checked hTx).mono ?_)) (by simp)
    intro r w₁ hr
    cases r with
    | none => exact commit_nothing hr fun _ h _ => h
    | some r =>
      obtain ⟨mq, eventId, closedAt, correctIds, hC, hTx₁⟩ := hr
      refine commit_checked hC hTx₁ (by simp [closeWrites]) (fun i sa da ca hwr => ?_) fun _ h _ => h
      obtain ⟨hId, -⟩ : i = mq.id ∧ _ := by simpa [closeWrites] using hwr
      exact hId
  refine .bind (hTxn.mono fun r w₁ hr => ?_)
  cases r with
  | none => exact .pure trivial
  | some r => exact .spent checkLayer_spent (hr rfl)

theorem jobBody_checked (hTx : w.tx pid = {}) (hJob : t.job.question?.isSome = true) :
    checkLayer.Keeps service contract pid t (jobBody t.job) w := by
  have hMap : ∀ {p : Coro Unit}, Layered checkLayer pid t p (fun _ _ => True) w →
      checkLayer.Keeps service contract pid t ((fun _ => Ret.unit) <$> p) w :=
    fun h => (Layered.map (Q := fun _ _ => True) h).keeps
  have hSleep : ∀ {p : Coro Unit} {d : Micros},
      (∀ w', w'.tx pid = {} → Layered checkLayer pid t p (fun _ _ => True) w') →
      Layered checkLayer pid t (do if ← sleepUncancelled d then p) (fun _ _ => True) w := by
    intro p d h
    refine .bind (.sleepUncancelled (fun _ => trivial) (fun _ _ => trivial) (fun _ => .pure trivial) ?_)
    exact fun w' _ hTx' => h w' (hTx'.trans hTx)
  generalize t.job = job at hJob
  cases job with
  | armQuestion m p => exact hMap (armQuestion_checked hTx)
  | gapThenArm m p s => exact hMap (hSleep fun w' hTx' => armQuestion_checked hTx')
  | closeQuestion m p => exact hMap (closeQuestion_checked hTx)
  | closeQuestionAfter m p d => exact hMap (hSleep fun w' hTx' => closeQuestion_checked hTx')
  | _ => cases hJob

end

/-- Program `pid` arms or closes a question of the match: it has found the match
running and is on its way to its commit. -/
def straddles (S : SysState) (m : Id) (pid : Nat) : Bool :=
  match S.procs[pid]? with
  | some ⟨t, .call o _⟩ =>
    t.job.question?.isSome ∧ S.shared.phase t.replica ≠ .crashed ∧
    ¬(o.suspends ∧ o ≠ .commit ∧ S.shared.cancelling pid) ∧
    o ≠ .select (.getMatch m) ∧ o ≠ .rollback ∧ (o = .commit → (S.shared.tx pid).writes ≠ []) ∧
    S.shared.db.matchQuestions.any fun q =>
      q.matchId = m ∧ q.closedAt = none ∧ S.shared.lock (.matchQuestion q.id) = some pid
  | _ => false

def Write.finishes? : Write → Option Id
  | .updateMatch m .completed _ => some m
  | _ => none

/-- A match is completed only while no transaction straddles that commit. -/
def finishesApart (S : SysState) : SysLabel → Bool
  | .op pid _ =>
    match S.procs[pid]? with
    | some ⟨_, .call .commit _⟩ =>
      ((S.shared.tx pid).writes.filterMap Write.finishes?).all fun m =>
        (List.range S.procs.length).all fun q => q = pid ∨ straddles S m q = false
    | _ => true
  | .env _ => true

/-- The transaction sets a column of a question of the match, or tells of one. -/
def Write.touchesQuestion (db : Db) (m : Id) : Write → Bool
  | .updateMatchQuestion i _ _ _ => db.matchQuestions.any fun q => q.id = i ∧ q.matchId = m
  | .insertEvent e =>
    match e.payload with
    | .questionStarted m' _ _ _ _ _ _ | .questionClosed m' _ _ _ _ _ => m' = m
    | _ => false
  | _ => false

/-- The commits between two states leave the questions of the match alone. -/
structure QuestionsFinal (m : Id) (w w' : World) : Prop where
  rows : w'.db.matchQuestions.filter (·.matchId = m) = w.db.matchQuestions.filter (·.matchId = m)
  wal : ∃ later, w'.wal = w.wal ++ later ∧
    ∀ c ∈ later, ∀ wr ∈ c.2, wr.touchesQuestion w.db m = false

section

variable {C : SysState → SysLabel → Prop} {seed : Seed} {S S' : SysState} {l : SysLabel} {m : Id}
  {pid : Nat} {t : Task}

theorem uncompleted_step (hS : Held S) (hStep : service.step S l = some S')
    (h : Uncompleted S.shared m) : Uncompleted S'.shared m ∨
      ∃ q t room scores endedAt eventId, Commits S l S' q t ∧ ∃ x : Match, x.id = m ∧
        (S.shared.tx q).writes = finishWrites x room scores endedAt eventId := by
  obtain hSame | ⟨q, t, hC⟩ := step_cases hS hStep
  · refine .inl fun x hx => h x ?_
    rwa [hSame.matches'] at hx
  · by_contra hNot
    obtain ⟨hDone, hNone⟩ := not_or.mp hNot
    refine hDone fun x' hx' hId hStatus => ?_
    rw [hC.db] at hx'
    obtain ⟨x, hx, hMove⟩ | ⟨-, hRunning, -⟩ := hC.shape.match_back hS.inv hx'
    · have hxId : x.id = m := hMove.id.symm.trans hId
      cases hMove with
      | same => exact h x' hx hId hStatus
      | paused => cases hStatus
      | resumed => cases hStatus
      | finished room scores endedAt eventId _ hEq =>
        exact hNone ⟨q, t, room, scores, endedAt, eventId, hC, x, hxId, hEq⟩
    · rw [hRunning] at hStatus
      cases hStatus

theorem finishWrites_finishes (x : Match) (room : Room) (scores : List FinalScore)
    (endedAt : Micros) (eventId : Id) :
    x.id ∈ (finishWrites x room scores endedAt eventId).filterMap Write.finishes? :=
  List.mem_filterMap.mpr ⟨.updateMatch x.id .completed (some endedAt), by simp [finishWrites], rfl⟩

theorem checkLayer_rely (hS : Held S) (hStep : service.step S l = some S')
    (hCond : finishesApart S l = true) {o : Op} {k : Except Exn o.Res → Coro Ret}
    (hProc : S.procs[pid]? = some ⟨t, .call o k⟩) (hJob : t.job.question?.isSome = true)
    (hOther : ∀ d, l ≠ .op pid d) (hRely : Rely pid S.shared S'.shared) :
    checkLayer.rely pid t o S.shared S'.shared := by
  refine ⟨hRely, fun h => step_crashed hStep h, ?_⟩
  intro q hq hLock hOpen hGet hRoll hTx hUn
  obtain hUn' | ⟨r, u, room, scores, endedAt, eventId, hC, x, hId, hEq⟩ := uncompleted_step hS hStep hUn
  · exact .inl hUn'
  right
  obtain ⟨d, rfl⟩ := hC.label
  obtain ⟨k', hCommit⟩ := hC.proc
  have hNe : pid ≠ r := by
    rintro rfl
    exact hOther d rfl
  have hFin : q.matchId ∈ (S.shared.tx r).writes.filterMap Write.finishes? := by
    rw [hEq, ← hId]
    exact finishWrites_finishes x room scores endedAt eventId
  simp only [finishesApart, hCommit, List.all_eq_true, List.mem_range, decide_eq_true_eq] at hCond
  have hApart := (hCond _ hFin pid (List.getElem?_eq_some_iff.mp hProc).1).resolve_left hNe
  simp only [straddles, hProc, decide_eq_false_iff_not] at hApart
  have hHeld : S.shared.db.matchQuestions.any (fun q' => q'.matchId = q.matchId ∧ q'.closedAt = none ∧
      S.shared.lock (.matchQuestion q'.id) = some pid) = true :=
    List.any_eq_true.mpr ⟨q, hq, decide_eq_true ⟨rfl, hOpen, hLock⟩⟩
  have hStop : Stopped pid t S.shared o := by
    by_contra hStop
    obtain ⟨hUp, hLive⟩ := not_or.mp hStop
    exact hApart ⟨hJob, hUp, hLive, hGet, hRoll, hTx, hHeld⟩
  exact hStop.rely hRely fun h => step_crashed hStep h

theorem checked_reach (h : service.Reach (fun S l => finishesApart S l = true) (initial seed) S)
    {p : Proc Op Op.Res Exn Ret Task} (hp : S.procs[pid]? = some p)
    (hJob : p.task.job.question?.isSome = true) :
    checkLayer.Keeps service contract pid p.task p.prog S.shared := by
  induction h generalizing p with
  | refl => cases hp
  | tail hReach hCond hStep ih =>
    have hS := held_of_reach hReach
    obtain ⟨p₀, hOld, hTask⟩ | ⟨rfl, hBody, -⟩ := step_proc hS hStep hp
    · refine (ih hOld (hTask ▸ hJob)).step checkLayer_steady sound hS trivial hStep hOld hp ?_
      intro hOther o k hPend
      obtain ⟨t₀, prog₀⟩ := p₀
      subst hPend
      exact checkLayer_rely hS hStep hCond hOld (hTask ▸ hJob) hOther
        (step_rely hS hStep (List.getElem?_eq_some_iff.mp hOld).1 hOther)
    · rw [hBody]
      exact jobBody_checked (step_fresh hS hStep).1 hJob

theorem touches_one {n : Nat} {w : World} (hInv : Inv n w) {mq : MatchQuestion}
    (hMem : mq ∈ w.db.matchQuestions) {sa da ca : Option Micros} {e : OutboxEvent} {wr : Write}
    (hwr : wr ∈ [Write.updateMatchQuestion mq.id sa da ca, .insertEvent e])
    (he : (Write.insertEvent e).touchesQuestion w.db m = true → mq.matchId = m)
    (hTouch : wr.touchesQuestion w.db m = true) : mq.matchId = m := by
  obtain rfl | hwr := List.mem_cons.mp hwr
  · obtain ⟨q, hq, hEq⟩ := List.any_eq_true.mp hTouch
    obtain ⟨hId, hOf⟩ := of_decide_eq_true hEq
    rwa [hInv.keys.matchQuestion_eq hq hMem (.inl hId)] at hOf
  · rw [List.mem_singleton.mp hwr] at hTouch
    exact he hTouch

theorem commit_uncompleted (h : service.Reach (fun S l => finishesApart S l = true) (initial seed) S)
    (hC : Commits S l S' pid t) {wr : Write} (hwr : wr ∈ (S.shared.tx pid).writes)
    (hTouch : wr.touchesQuestion S.shared.db m = true) : Uncompleted S.shared m := by
  have hS := held_of_reach h
  obtain ⟨k, hProc⟩ := hC.proc
  have hUp : S.shared.phase t.replica ≠ .crashed := by simp [hC.up]
  have hReq : t.job.question?.isSome = true → checkLayer.req pid t S.shared .commit :=
    fun hJob => (checked_reach h hProc hJob).req checkLayer_steady sound hS trivial hProc
  have hShape := hC.shape
  generalize hws : (S.shared.tx pid).writes = ws at hShape hwr
  generalize hJob : t.job = job at hShape
  cases hShape with
  | empty => cases hwr
  | start =>
    simp only [startWrites, List.mem_cons, List.mem_append, List.mem_map, List.not_mem_nil,
      or_false] at hwr
    obtain rfl | ⟨mq, -, rfl⟩ | rfl | rfl := hwr <;> cases hTouch
  | arm _ mq question eventId startedAt deadlineAt hArms hMem _ _ hSilent =>
    obtain rfl := touches_one hS.inv hMem hwr (fun he => of_decide_eq_true he) hTouch
    refine hReq (by rw [hJob, hArms.question]; rfl) hUp hSilent mq.id (some startedAt) (some deadlineAt) none ?_
      mq hMem rfl
    rw [hws]
    exact List.mem_cons_self
  | close _ mq eventId closedAt correctIds hCloses hMem _ _ _ hSilent =>
    obtain rfl := touches_one hS.inv hMem hwr (fun he => of_decide_eq_true he) hTouch
    refine hReq (by rw [hJob, hCloses.question]; rfl) hUp hSilent mq.id none none (some closedAt) ?_ mq hMem rfl
    rw [hws]
    exact List.mem_cons_self
  | pause =>
    simp only [List.mem_cons, List.not_mem_nil, or_false] at hwr
    obtain rfl | rfl := hwr <;> cases hTouch
  | resume _ _ x deadline hx _ hPaused hDeadline =>
    obtain rfl | ⟨i, u, ⟨q, hq, hId, hOf, -⟩, rfl⟩ := hDeadline
    · simp only [List.append_nil, List.mem_cons, List.not_mem_nil, or_false] at hwr
      obtain rfl | rfl := hwr <;> cases hTouch
    · simp only [List.cons_append, List.nil_append, List.mem_cons, List.not_mem_nil,
        or_false] at hwr
      obtain rfl | rfl | rfl := hwr
      · cases hTouch
      · cases hTouch
      · obtain ⟨q', hq', hEq⟩ := List.any_eq_true.mp hTouch
        obtain ⟨hId', hOf'⟩ := of_decide_eq_true hEq
        rw [hS.inv.keys.matchQuestion_eq hq' hq (.inl (hId'.trans hId.symm))] at hOf'
        intro y hy hyId
        rw [hS.inv.keys.match_eq hy hx (.inl (hyId.trans (hOf'.symm.trans hOf))), hPaused]
        simp
  | finish =>
    simp only [finishWrites, List.mem_append, List.mem_cons, List.mem_map, List.not_mem_nil,
      or_false] at hwr
    obtain ((rfl | rfl) | ⟨f, -, rfl⟩) | rfl := hwr <;> cases hTouch
  | submit =>
    simp only [submitWrites, List.mem_cons, List.not_mem_nil, or_false] at hwr
    obtain rfl | rfl := hwr <;> cases hTouch

theorem touchesQuestion_congr {db db' : Db} (wr : Write)
    (h : db'.matchQuestions.filter (·.matchId = m) = db.matchQuestions.filter (·.matchId = m)) :
    wr.touchesQuestion db' m = wr.touchesQuestion db m := by
  cases wr with
  | updateMatchQuestion i sa da ca =>
    have hAny : ∀ db : Db, (Write.updateMatchQuestion i sa da ca).touchesQuestion db m =
        (db.matchQuestions.filter (·.matchId = m)).any (·.id = i) := by
      intro db
      rw [List.any_filter]
      simp only [Write.touchesQuestion, Bool.decide_and, Bool.and_comm]
    rw [hAny, hAny, h]
  | _ => rfl

theorem Write.apply_questions {db : Db} {wr : Write} (h : wr.touchesQuestion db m = false)
    (hNew : ∀ row, wr = .insertMatchQuestion row → row.matchId ≠ m) :
    (wr.apply db).matchQuestions.filter (·.matchId = m) =
      db.matchQuestions.filter (·.matchId = m) := by
  cases wr with
  | insertMatchQuestion row => simp [Write.apply, List.filter_append, hNew row rfl]
  | updateMatchQuestion i sa da ca =>
    refine filter_updateWhere fun q hq hId => ?_
    have hOther := List.any_eq_false.mp h q hq
    have hNe : q.matchId ≠ m := fun hOf => hOther (decide_eq_true ⟨hId, hOf⟩)
    exact ⟨decide_eq_false hNe, decide_eq_false hNe⟩
  | _ => rfl

theorem applyAll_questions {ws : List Write} {db : Db}
    (h : ∀ wr ∈ ws, wr.touchesQuestion db m = false)
    (hNew : ∀ row, .insertMatchQuestion row ∈ ws → row.matchId ≠ m) :
    (applyAll ws db).matchQuestions.filter (·.matchId = m) =
      db.matchQuestions.filter (·.matchId = m) := by
  induction ws generalizing db with
  | nil => rfl
  | cons wr ws ih =>
    have hOne := Write.apply_questions (h wr List.mem_cons_self) fun row hRow =>
      hNew row (hRow ▸ List.mem_cons_self)
    rw [applyAll_cons, ih, hOne]
    · intro wr' hwr'
      rw [touchesQuestion_congr wr' hOne]
      exact h wr' (List.mem_cons_of_mem wr hwr')
    · exact fun row hRow => hNew row (List.mem_cons_of_mem wr hRow)

theorem QuestionsFinal.refl (m : Id) (w : World) : QuestionsFinal m w w :=
  ⟨rfl, [], (List.append_nil _).symm, fun _ hc => by cases hc⟩

theorem QuestionsFinal.trans {w w' w'' : World} (h : QuestionsFinal m w w')
    (h' : QuestionsFinal m w' w'') : QuestionsFinal m w w'' := by
  obtain ⟨later, hWal, hLater⟩ := h.wal
  obtain ⟨later', hWal', hLater'⟩ := h'.wal
  refine ⟨h'.rows.trans h.rows, later ++ later', by rw [hWal', hWal, List.append_assoc], ?_⟩
  intro c hc wr hwr
  obtain hc | hc := List.mem_append.mp hc
  · exact hLater c hc wr hwr
  · rw [← touchesQuestion_congr wr h.rows]
    exact hLater' c hc wr hwr

def Db.IsCompleted (db : Db) (m : Id) : Prop := ∃ x ∈ db.matches', x.id = m ∧ x.status = .completed

theorem questionsFinal_step
    (h : service.Reach (fun S l => finishesApart S l = true) (initial seed) S)
    (hStep : service.step S l = some S') (hDone : S.shared.db.IsCompleted m) :
    QuestionsFinal m S.shared S'.shared := by
  have hS := held_of_reach h
  obtain hSame | ⟨pid, t, hC⟩ := step_cases hS hStep
  · refine ⟨by rw [hSame.matchQuestions], [], by rw [hSame.wal, List.append_nil], ?_⟩
    exact fun _ hc => by cases hc
  · obtain ⟨x, hx, hId, hStatus⟩ := hDone
    have hFree : ∀ wr ∈ (S.shared.tx pid).writes, wr.touchesQuestion S.shared.db m = false := by
      intro wr hwr
      by_contra hTouch
      exact commit_uncompleted h hC hwr (by simpa using hTouch) x hx hId hStatus
    constructor
    · rw [hC.db]
      refine applyAll_questions hFree fun row hRow hOf => ?_
      obtain ⟨y, hy, hyId, -⟩ := hC.shape.inserted_matchQuestion hRow
      have hNew := List.any_eq_false.mp (hS.inv.uncollided pid _ hy) x hx
      have hSame : x.id = y.id := hId.trans (hOf.symm.trans hyId.symm)
      simp [hSame] at hNew
    · refine ⟨[(pid, (S.shared.tx pid).writes)], hC.wal, fun c hc wr hwr => ?_⟩
      rw [List.mem_singleton.mp hc] at hwr
      exact hFree wr hwr

/-- While every match is completed apart from the transactions on its questions: once
it is completed, or a MatchFinished event of it committed, no commit sets a column of
one of its questions or inserts a QuestionStarted or QuestionClosed event of it. -/
theorem completed_terminal
    (h : service.Reach (fun S l => finishesApart S l = true) (initial seed) S)
    (h' : service.Reach (fun S l => finishesApart S l = true) S S')
    (hDone : S.shared.db.IsCompleted m ∨ ∃ e ∈ S.shared.db.outbox, e.payload.finishesMatch m) :
    QuestionsFinal m S.shared S'.shared := by
  have hNow : S.shared.db.IsCompleted m := by
    obtain hNow | ⟨e, he, hm⟩ := hDone
    · exact hNow
    · exact (accounted_reach h).finished e he m hm
  have hStays : ∀ {U}, service.Reach (fun S l => finishesApart S l = true) S U →
      U.shared.db.IsCompleted m := by
    intro U hU
    obtain ⟨x, hx, hId, hStatus⟩ := hNow
    have hFinal := (final_reach (held_of_reach h) (accounted_reach h) hU).2
    exact ⟨x, hFinal.completed x hx hStatus, hId, hStatus⟩
  induction h' with
  | refl => exact .refl m _
  | tail hReach _ hStep ih =>
    exact ih.trans (questionsFinal_step (h.trans hReach) hStep (hStays hReach))

end

/-- The host ends match 54 while question 56 is open; its timer then finds the match over. -/
theorem completed_terminal_timer : ∃ S S' : SysState,
    S.shared.db.matchQuestions.map (·.startedAt) = [some 0, none] ∧
    (∃ prog, S'.procs[3]? = some ⟨⟨0, .closeQuestionAfter 54 1 20000000⟩, prog⟩ ∧ ∃ r, prog = .done r) ∧
    QuestionsFinal 54 S.shared S'.shared := by
  have hRun : (service.runWhile finishesApart (initial Demo.seed)
      (Demo.opening ++ Demo.endsMatch 4 120)).any (fun S =>
      S.shared.db.matchQuestions.map (·.startedAt) = [some 0, none] ∧
      (∃ x ∈ S.shared.db.matches', x.id = 54 ∧ x.status = .completed) ∧
      (service.runWhile finishesApart S (Demo.calls 3 2 200)).any (fun S' =>
        (outcome S' 3).any (·.1 = ⟨0, .closeQuestionAfter 54 1 20000000⟩))) = true := by
    decide +kernel
  obtain ⟨S, hReach, hS⟩ := Machine.Reach.exists_of_runWhile hRun
  obtain ⟨hStarted, hDone, hRun'⟩ := of_decide_eq_true hS
  obtain ⟨S', hReach', hS'⟩ := Machine.Reach.exists_of_runWhile hRun'
  obtain ⟨⟨t, r⟩, hOut, hTask⟩ := (Option.any_eq_true _ _).mp hS'
  refine ⟨S, S', hStarted, ⟨.done r, ?_, r, rfl⟩, completed_terminal hReach hReach' (.inl hDone)⟩
  rw [← of_decide_eq_true hTask]
  exact outcome_spec hOut

/-- The task that arms question 56 has read the status of the match; then the host ends
the match. -/
def Demo.endDuringArm : List SysLabel :=
  [.env (.boot 0)] ++ calls 0 1 0 ++ [.env (.request 0 (.startMatch 7 "AB"))] ++ calls 1 20 50 ++
    calls 2 2 80 ++ [.env (.request 0 (.endMatch 54 (some 7)))] ++ calls 3 11 120

/-- The task goes on, and starts a question of the completed match. -/
theorem completed_then_started : ∃ S S', service.Reach (fun _ _ => True) (initial Demo.seed) S ∧
    service.Reach (fun _ _ => True) S S' ∧ S.shared.db.IsCompleted 54 ∧
    (∃ e ∈ S.shared.db.outbox, e.payload.finishesMatch 54) ∧
    S.shared.db.matchQuestions.map (·.startedAt) = [none, none] ∧
    S'.shared.db.matchQuestions.map (·.startedAt) = [some 0, none] ∧
    ∃ later, S'.shared.db.outbox = S.shared.db.outbox ++ later ∧
      later.any (fun e => (Write.insertEvent e).touchesQuestion S.shared.db 54) = true := by
  have hRun : (service.run (initial Demo.seed) Demo.endDuringArm).any (fun S =>
      (∃ x ∈ S.shared.db.matches', x.id = 54 ∧ x.status = .completed) ∧
      (∃ e ∈ S.shared.db.outbox, e.payload.finishesMatch 54) ∧
      S.shared.db.matchQuestions.map (·.startedAt) = [none, none] ∧
      (service.run S (Demo.calls 2 9 140)).any (fun S' =>
        S'.shared.db.matchQuestions.map (·.startedAt) = [some 0, none] ∧
        S'.shared.db.outbox = S.shared.db.outbox ++ S'.shared.db.outbox.drop S.shared.db.outbox.length ∧
        (S'.shared.db.outbox.drop S.shared.db.outbox.length).any
          (fun e => (Write.insertEvent e).touchesQuestion S.shared.db 54))) = true := by
    decide +kernel
  obtain ⟨S, hReach, hS⟩ := Machine.Reach.exists_of_run hRun
  obtain ⟨hDone, hFinished, hNone, hRun'⟩ := of_decide_eq_true hS
  obtain ⟨S', hReach', hS'⟩ := Machine.Reach.exists_of_run hRun'
  obtain ⟨hStarted, hOutbox, hEvent⟩ := of_decide_eq_true hS'
  exact ⟨S, S', hReach, hReach', hDone, hFinished, hNone, hStarted, _, hOutbox, hEvent⟩

end LiveQuiz
