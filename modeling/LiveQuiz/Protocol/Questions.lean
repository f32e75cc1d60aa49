import LiveQuiz.Protocol.Rules

/-! # Arming, closing and finishing keep the contract -/

namespace LiveQuiz

open Coroutine

set_option autoImplicit false

section

variable {pid : Nat} {t : Task} {w w' : World} {m : Id} {p : Nat}

/-- The locked, unclosed question a transaction works on. -/
structure HoldsQuestion (pid : Nat) (mq : MatchQuestion) (w : World) : Prop where
  mem : mq ∈ w.db.matchQuestions
  lock : w.lock (.matchQuestion mq.id) = some pid
  closedAt : mq.closedAt = none

theorem HoldsQuestion.holds {mq : MatchQuestion} (h : HoldsQuestion pid mq w)
    (hHolds : Holds pid w w') : HoldsQuestion pid mq w' :=
  ⟨hHolds.lockedQuestion mq h.mem h.lock, hHolds.lock _ h.lock, h.closedAt⟩

theorem HoldsQuestion.reads {mq : MatchQuestion} (h : HoldsQuestion pid mq w) :
    ∃ x ∈ w.db.matchQuestions, x.questionId = mq.questionId ∧ x.closedAt = none :=
  ⟨mq, h.mem, rfl, h.closedAt⟩

theorem find_questionAt {db : Db} {mq : MatchQuestion}
    (h : (LockQuery.questionAt m p).find db = some mq) :
    mq ∈ db.matchQuestions ∧ mq.matchId = m ∧ mq.position = p :=
  ⟨List.mem_of_find?_eq_some h, by simpa using List.find?_some h⟩

theorem armTx_runs (hTx : w.tx pid = {}) (hSilent : Silent w pid) :
    Runs pid t (armTx m p) (fun r w => match r with
      | none => w.tx pid = {}
      | some _ => ∃ mq question eventId startedAt deadlineAt, HoldsQuestion pid mq w ∧
          mq.matchId = m ∧ mq.position = p ∧ Silent w pid ∧
          w.tx pid = { writes := armWrites mq question eventId startedAt deadlineAt }) w := by
  refine .bind (.selectForUpdate hTx (fun _ _ _ hTx _ => .pure hTx) ?_)
  intro w₁ n₁ mq hHolds hTx hInv hFind hLock
  obtain ⟨hMem, hMatch, hPos⟩ := find_questionAt hFind
  dsimp only
  split
  · exact .pure hTx
  next hOpen =>
  have hMq : HoldsQuestion pid mq w₁ := ⟨hMem, hLock, by simpa using hOpen⟩
  replace hSilent := hSilent.holds hHolds
  refine .bind (.select rfl hTx fun w₂ _ h₂ hTx _ => ⟨trivial, ?_⟩)
  split
  case h_2 => exact .pure hTx
  split
  · exact .pure hTx
  refine .bind (.select rfl hTx fun w₃ _ h₃ hTx _ => ⟨(hMq.holds (h₂.trans h₃)).reads, ?_⟩)
  replace h₃ := h₂.trans h₃
  split
  case h_2 => exact .pure hTx
  next question _ =>
  refine .bind (.select rfl hTx fun w₄ _ h₄ hTx _ => ⟨(hMq.holds (h₃.trans h₄)).reads, ?_⟩)
  refine .bind (.select rfl hTx fun w₅ _ h₅ hTx _ => ⟨trivial, ?_⟩)
  replace h₅ := (h₃.trans h₄).trans h₅
  split
  case h_2 => exact .pure hTx
  refine .bind (.quiet rfl (fun _ _ _ _ => trivial) fun w₆ _ startedAt h₆ hTx₆ _ => ?_)
  refine .bind (.quiet rfl (fun _ _ _ _ => trivial) fun w₇ _ eventId h₇ hTx₇ _ => ?_)
  replace h₇ := (h₅.trans h₆).trans h₇
  rw [hTx₆, hTx] at hTx₇
  refine .bind (.flush hTx₇ (fun _ _ _ _ => by simp [Req]) fun w₈ _ h₈ hTx₈ _ => ?_)
  replace h₈ := h₇.trans h₈
  refine .bind (.quiet rfl (fun _ _ _ _ => trivial) fun w₉ _ serverNow h₉ hTx₉ _ => .pure ?_)
  replace h₉ := h₈.trans h₉
  exact ⟨mq, question, eventId, startedAt, _, hMq.holds h₉, hMatch, hPos, hSilent.holds h₉,
    hTx₉.trans hTx₈⟩

theorem hasStarted_commit {mq : MatchQuestion} {startedAt : Micros} {da : Option Micros}
    {rest : List Write} (hMem : mq ∈ w.db.matchQuestions)
    (hTx : (w.tx pid).writes = .updateMatchQuestion mq.id (some startedAt) da none :: rest) :
    HasStarted (w.commit pid) mq.matchId mq.position := by
  have hRow : mq.patch (some startedAt) da none ∈
      ((Write.updateMatchQuestion mq.id (some startedAt) da none).apply w.db).matchQuestions :=
    mem_updateWhere_of_eq hMem rfl
  obtain ⟨q, hq, hLater⟩ := later_matchQuestion rest hRow
  refine ⟨q, ?_, hLater.matchId, hLater.position, hLater.started rfl⟩
  unfold World.commit
  rw [hTx]
  exact hq

theorem armQuestion_runs (hArms : Arms t.job m p) (hTx : w.tx pid = {}) (hSilent : Silent w pid) :
    Runs pid t (armQuestion m p) (fun _ _ => True) w := by
  have hTxn : Runs pid t (exceptException (inTransaction (armTx m p)) none)
      (fun r w => r.isSome = true → HasStarted w m p) w := by
    refine .exceptException (.inTransaction ((armTx_runs hTx hSilent).mono fun r w₁ hr => ?_))
      (by simp)
    cases r with
    | none => exact .commit hr fun w₂ _ _ _ _ => ⟨.empty _, by simp⟩
    | some r =>
      obtain ⟨mq, question, eventId, startedAt, deadlineAt, hMq, rfl, rfl, hSilent, hTx⟩ := hr
      refine .commit hTx fun w₂ n h₂ hTx₂ _ => ?_
      replace hMq := hMq.holds h₂
      refine ⟨.arm _ mq question eventId startedAt deadlineAt hArms hMq.mem hMq.lock hMq.closedAt
        (hSilent.holds h₂), fun _ _ _ => hasStarted_commit hMq.mem (by rw [hTx₂]; rfl)⟩
  refine .bind (hTxn.mono fun r w₁ hr => ?_)
  cases r with
  | none => exact .pure trivial
  | some r =>
    have hStarted := hr rfl
    refine .bind (.quiet rfl (fun _ _ _ _ => trivial) fun w₂ _ _ h₂ _ _ => ?_)
    refine .bind (.broadcast (fun _ _ _ _ => trivial) fun w₃ _ h₃ _ _ => ?_)
    refine .bind (.quiet rfl (fun _ _ _ _ => trivial) fun w₄ _ now h₄ _ _ => ?_)
    replace hStarted := ((hStarted.later h₂.later).later h₃.later).later h₄.later
    refine .ask fun w₅ n _ hRely _ => ⟨⟨?_, rfl⟩, fun _ _ _ _ _ _ _ => trivial⟩
    exact .timer _ m p _ hArms (hStarted.later hRely.later)

theorem gapThenArm_runs {sleep : Micros} (hArms : Arms t.job m p) (hTx : w.tx pid = {})
    (hSilent : Silent w pid) : Runs pid t (gapThenArm m p sleep) (fun _ _ => True) w := by
  refine .bind (.sleepUncancelled (fun _ => .pure trivial) fun w₁ _ h₁ hTx₁ _ => ?_)
  exact armQuestion_runs hArms (hTx₁.trans hTx) (hSilent.holds h₁)

theorem closeTx_runs (hTx : w.tx pid = {}) (hStarted : HasStarted w m p) :
    Runs pid t (closeTx m p) (fun r w' => match r with
      | none => w'.tx pid = {}
      | some c => ∃ eventId closedAt, Holds pid w w' ∧ HoldsQuestion pid c.mq w' ∧
          c.mq.matchId = m ∧ c.mq.position = p ∧ c.mq.startedAt.isSome ∧
          w'.tx pid = { writes := closeWrites c.mq eventId closedAt c.correctIds }) w := by
  refine .bind (.selectForUpdate hTx (fun _ _ _ hTx _ => .pure hTx) ?_)
  intro w₁ n₁ mq h₁ hTx hInv hFind hLock
  obtain ⟨hMem, hMatch, hPos⟩ := find_questionAt hFind
  have hStart : mq.startedAt.isSome := by
    obtain ⟨x, hx, hxm, hxp, hxs⟩ := hStarted.later h₁.later
    rw [hInv.keys.matchQuestion_eq hMem hx
      (.inr ⟨hMatch.trans hxm.symm, hPos.trans hxp.symm⟩)]
    exact hxs
  dsimp only
  split
  · exact .pure hTx
  next hOpen =>
  have hMq : HoldsQuestion pid mq w₁ := ⟨hMem, hLock, by simpa using hOpen⟩
  refine .bind (.select rfl hTx fun w₂ _ h₂ hTx _ => ⟨trivial, ?_⟩)
  split
  case h_2 => exact .pure hTx
  split
  · exact .pure hTx
  refine .bind (.select rfl hTx fun w₃ _ h₃ hTx _ => ⟨trivial, ?_⟩)
  replace h₃ := h₂.trans h₃
  split
  case h_2 => exact .pure hTx
  refine .bind (.select rfl hTx fun w₄ _ h₄ hTx _ => ⟨(hMq.holds (h₃.trans h₄)).reads, ?_⟩)
  replace h₄ := h₃.trans h₄
  refine .bind (.select rfl hTx fun w₅ _ h₅ hTx _ => ⟨(hMq.holds (h₄.trans h₅)).reads, ?_⟩)
  refine .bind (.quiet rfl (fun _ _ _ _ => trivial) fun w₆ _ closedAt h₆ hTx₆ _ => ?_)
  replace h₆ := (h₄.trans h₅).trans h₆
  refine .bind (.flush (hTx₆.trans hTx) (fun _ _ _ _ => by simp [Req]) fun w₇ _ h₇ hTx₇ _ => ?_)
  refine .bind (.select rfl hTx₇ fun w₈ _ h₈ hTx₈ _ => ⟨trivial, ?_⟩)
  replace h₈ := (h₆.trans h₇).trans h₈
  refine .bind (.quiet rfl (fun _ _ _ _ => trivial) fun w₉ _ eventId h₉ hTx₉ _ => ?_)
  refine .bind (.flush (hTx₉.trans hTx₈) (fun _ _ _ _ => by simp [Req]) fun w₁₀ _ h₁₀ hTx₁₀ _ => ?_)
  replace h₁₀ := (h₈.trans h₉).trans h₁₀
  exact .pure ⟨eventId, closedAt, h₁.trans h₁₀, hMq.holds h₁₀, hMatch, hPos, hStart, hTx₁₀⟩

theorem endTx_runs {host : Option Id} (hFinishes : Finishes t.job m) (hTx : w.tx pid = {}) :
    Runs pid t (endTx m host) (fun _ w => ∃ tx, w.tx pid = tx ∧
      ∀ w', Holds pid w w' → w'.tx pid = tx → Commit w' pid t.job tx.writes) w := by
  refine .bind (.selectForUpdate hTx (fun _ _ _ _ _ => .raise) ?_)
  intro w₁ n₁ (row : Match) h₁ hTx hInv hFind hLock
  have hMem : row ∈ w₁.db.matches' := List.mem_of_find?_eq_some hFind
  have hId : row.id = m := by simpa using List.find?_some hFind
  subst hId
  refine .bind (.selectForUpdate hTx (fun _ _ _ _ _ => .raise) ?_)
  intro w₂ n₂ room h₂ hTx hInv hRoomFind hRoomLock
  have hRoom : room.id = row.roomId := by simpa using List.find?_some hRoomFind
  replace hMem := h₂.lockedMatch row hMem (.inl hLock)
  replace hLock := h₂.lock _ hLock
  refine .refused fun _ => ?_
  split
  · exact .pure ⟨_, hTx, fun w' _ _ => .empty _⟩
  next hStatus =>
  refine .bind (.selectSubmissions hTx fun w₃ _ subs h₃ hTx₃ _ => ?_)
  refine .bind (.select rfl hTx₃ fun w₄ _ h₄ hTx₄ _ => ⟨trivial, ?_⟩)
  refine .bind (.quiet rfl (fun _ _ _ _ => trivial) fun w₅ _ endedAt h₅ hTx₅ _ => ?_)
  refine .bind (.quiet rfl (fun _ _ _ _ => trivial) fun w₆ _ eventId h₆ hTx₆ _ => ?_)
  replace h₆ := ((h₃.trans h₄).trans h₅).trans h₆
  rw [hTx₅, hTx₄] at hTx₆
  refine .bind (.flush hTx₆ (fun w' _ h _ i st ea hwr => ?_) fun w₇ _ h₇ hTx₇ _ => .pure ?_)
  · have hi : i = row.id := by
      simp at hwr
      exact hwr.1
    have hAll := h₆.trans h
    refine ⟨row, hAll.lockedMatch row hMem (.inl hLock), hi.symm, ?_⟩
    rw [← hRoom]
    exact hAll.lock _ hRoomLock
  · refine ⟨_, hTx₇, fun w' h hTx => ?_⟩
    have hAll := (h₆.trans h₇).trans h
    exact .finish t.job row room subs _ endedAt eventId hFinishes
      (hAll.lockedMatch row hMem (.inl hLock)) (hAll.lock _ hLock) hStatus hRoom (by rw [hTx])

theorem endMatch_runs {host : Option Id} (hFinishes : Finishes t.job m) (hTx : w.tx pid = {}) :
    Runs pid t (endMatch m host) (fun _ _ => True) w := by
  refine .bind (.ask fun w₁ n _ hRely _ => ⟨hFinishes.cancels, fun d out _ _ hOk _ _ => ?_⟩)
  have hTx₁ : out.shared.tx pid = {} := by
    cases hOk
    rw [(sameCore_schedule _ _ _).tx, hRely.tx, hTx]
  refine .bind (.inTransaction ((endTx_runs hFinishes hTx₁).mono fun ended w₂ hw₂ => ?_))
  obtain ⟨tx, hTx₂, hCommit⟩ := hw₂
  refine .commit hTx₂ fun w₃ n h₃ hTx₃ _ => ⟨hCommit w₃ h₃ hTx₃, fun _ _ => ?_⟩
  split
  · exact .pure trivial
  refine .bind (.broadcast (fun _ _ _ _ => trivial) fun w₄ _ _ _ _ => ?_)
  refine .bind (.quiet rfl (fun _ _ _ _ => trivial) fun w₅ _ cached _ _ _ => ?_)
  dsimp only
  split
  · exact .bind (.quiet rfl (fun _ _ _ _ => trivial) fun _ _ _ _ _ _ => .pure trivial)
  · exact .pure trivial

/-- A timer in the registry cancels itself: the first statement of `end_match`
raises CancelledError, and nothing is committed. -/
theorem endMatch_runs_registered {host : Option Id} (hCancels : Cancels t.job m)
    (hReg : Registered w t.replica m pid) :
    Runs pid t (endMatch m host) (fun _ _ => True) w := by
  refine .bind (.ask fun w₁ n _ hRely _ => ⟨hCancels, fun d out _ _ hOk _ _ => ?_⟩)
  have hCancel : out.shared.cancelling pid = true := by
    cases hOk
    obtain hActive | hCancel := hRely.registered _ _ hReg
    · rw [hActive]
      simp [World.requestCancel]
    · exact cancelling_requestCancel _ _ hCancel
  refine .bind (.inTransaction (.bind (.ask fun w₂ n _ hRely _ => ⟨trivial, ?_⟩)))
  intro _ _ _ hLive
  have hStill := hRely.cancelling hCancel
  rw [hLive rfl] at hStill
  cases hStill

theorem closed_commit {mq : MatchQuestion} {closedAt : Micros} {rest : List Write}
    (hMem : mq ∈ w.db.matchQuestions)
    (hTx : (w.tx pid).writes = .updateMatchQuestion mq.id none none (some closedAt) :: rest) :
    ∃ q ∈ (w.commit pid).db.matchQuestions, mq.Later q ∧ q.closedAt.isSome := by
  have hRow : mq.patch none none (some closedAt) ∈
      ((Write.updateMatchQuestion mq.id none none (some closedAt)).apply w.db).matchQuestions :=
    mem_updateWhere_of_eq hMem rfl
  obtain ⟨q, hq, hLater⟩ := later_matchQuestion rest hRow
  refine ⟨q, ?_, .trans (mq.later_patch none none (some closedAt)) hLater, hLater.closed rfl⟩
  unfold World.commit
  rw [hTx]
  exact hq

theorem closedAccuracy_runs (m : Id) (mq : MatchQuestion) :
    Runs pid t (closedAccuracy m mq) (fun _ w' => Holds pid w w' ∧ w'.tx pid = w.tx pid) w := by
  refine .bind (.quiet rfl (fun _ _ _ _ => trivial) fun w₁ _ answered h₁ hTx₁ _ => ?_)
  split
  · exact .pure ⟨h₁, hTx₁⟩
  · refine .bind (.quiet rfl (fun _ _ _ _ => trivial) fun w₂ _ correct h₂ hTx₂ _ => ?_)
    exact .pure ⟨h₁.trans h₂, hTx₂.trans hTx₁⟩

/-- The transaction of a closer. The way to `end_match` differs between a task in the
registry and the others. -/
theorem closed_runs (hCloses : Closes t.job m p) (hTx : w.tx pid = {})
    (hSilent : Silent w pid) (hStarted : HasStarted w m p)
    (hEnd : Finishes t.job m ∨ Registered w t.replica m pid) :
    Runs pid t (exceptException (inTransaction (closeTx m p)) none)
      (fun r w => ∀ c ∈ r, w.tx pid = {} ∧ c.mq.matchId = m ∧ c.mq.position = p ∧
        HasStarted w m p ∧ (∃ q ∈ w.db.matchQuestions, c.mq.Later q ∧ q.closedAt.isSome) ∧
        (Finishes t.job m ∨ Registered w t.replica m pid)) w := by
  refine .exceptException (.inTransaction ((closeTx_runs hTx hStarted).mono fun r w₁ hr => ?_))
    (by simp)
  cases r with
  | none => exact .commit hr fun w₂ _ _ _ _ => ⟨.empty _, by simp⟩
  | some r =>
    obtain ⟨eventId, closedAt, h₁, hMq, hMatch, hPos, hs, hTx⟩ := hr
    refine .commit hTx fun w₂ n h₂ hTx₂ _ => ?_
    replace hMq := hMq.holds h₂
    subst hMatch hPos
    refine ⟨.close _ r.mq eventId closedAt r.correctIds hCloses hMq.mem hMq.lock hMq.closedAt hs
      (hSilent.holds (h₁.trans h₂)), fun _ hLater c hc => ?_⟩
    cases hc
    refine ⟨?_, rfl, rfl, ?_, ?_, ?_⟩
    · simp [World.commit, World.endTx]
    · exact HasStarted.later ⟨r.mq, hMq.mem, rfl, rfl, hs⟩ hLater
    · exact closed_commit hMq.mem (by rw [hTx₂]; rfl)
    · exact hEnd.imp_right fun hReg => (h₁.trans h₂).registered _ _ hReg

theorem closeQuestion_runs (hCloses : Closes t.job m p) (hTx : w.tx pid = {})
    (hSilent : Silent w pid) (hStarted : HasStarted w m p)
    (hEnd : Finishes t.job m ∨ Registered w t.replica m pid) :
    Runs pid t (closeQuestion m p) (fun _ _ => True) w := by
  refine .bind ((closed_runs hCloses hTx hSilent hStarted hEnd).mono fun r w₁ hr => ?_)
  cases r with
  | none => exact .pure trivial
  | some closed =>
    obtain ⟨hTx, hMatch, hPos, hStarted, ⟨q, hq, hOf, hc⟩, hEnd⟩ := hr closed rfl
    have hClosed : HasClosed w₁ m p :=
      ⟨q, hq, hOf.matchId.trans hMatch, hOf.position.trans hPos, hc⟩
    refine .bind ((closedAccuracy_runs m closed.mq).mono fun _ w₂ ⟨h₂, hTx₂⟩ => ?_)
    refine .bind (.broadcast (fun w' _ h' _ => ?_) fun w₃ _ h₃ hTx₃ _ => ?_)
    · obtain ⟨q', hq', hL⟩ := (h₂.trans h').later.matchQuestions q hq
      exact ⟨q', hq', hL.id.trans hOf.id, hL.closed hc⟩
    replace h₃ := h₂.trans h₃
    split
    · refine .bind (.mono (Q := fun _ _ => True) ?_ fun _ _ _ => .pure trivial)
      obtain hFinishes | hReg := hEnd
      · exact endMatch_runs hFinishes (hTx₃.trans (hTx₂.trans hTx))
      · exact endMatch_runs_registered (.own _ m hCloses.question) (h₃.registered _ _ hReg)
    · refine .ask fun w₄ n _ hRely _ => ⟨⟨?_, rfl⟩, fun _ _ _ _ _ _ _ => trivial⟩
      have hLater := h₃.later.trans hRely.later
      exact .gap _ m p _ hCloses (hStarted.later hLater) (hClosed.later hLater)

theorem closeQuestionAfter_runs {delay : Micros} (hCloses : Closes t.job m p) (hTx : w.tx pid = {})
    (hSilent : Silent w pid) (hStarted : HasStarted w m p) (hReg : Registered w t.replica m pid) :
    Runs pid t (closeQuestionAfter m p delay) (fun _ _ => True) w := by
  refine .bind (.sleepUncancelled (fun _ => .pure trivial) fun w₁ _ h₁ hTx₁ _ => ?_)
  exact closeQuestion_runs hCloses (hTx₁.trans hTx) (hSilent.holds h₁) (hStarted.later h₁.later)
    (.inr (h₁.registered _ _ hReg))

end

end LiveQuiz
