import LiveQuiz.Protocol.Submit

/-! # Host controls and recovery keep the contract -/

namespace LiveQuiz

open Coroutine

set_option autoImplicit false

section

variable {pid : Nat} {t : Task} {w w' : World} {m : Id}

theorem drawIds_runs (k : Nat) :
    Runs pid t (drawIds k) (fun _ w' => Holds pid w w' ∧ w'.tx pid = w.tx pid) w := by
  induction k generalizing w with
  | zero => exact .pure ⟨.refl pid w, rfl⟩
  | succ k ih =>
    refine .bind (.quiet rfl (fun _ _ _ _ => trivial) fun w₁ _ id h₁ hTx₁ _ => ?_)
    refine .bind (ih.mono fun ids w₂ ⟨h₂, hTx₂⟩ => .pure ?_)
    exact ⟨h₁.trans h₂, hTx₂.trans hTx₁⟩

theorem startTx_runs {host : Id} {code : String} (hJob : t.job = .startMatch host code)
    (hTx : w.tx pid = {}) (hSilent : Silent w pid) :
    Runs pid t (startTx host code)
      (fun r w' => (∃ m ∈ w'.db.matches', m.id = r.1.id) ∧ Created w' pid r.1.id) w := by
  refine .bind (.selectForUpdate hTx (fun _ _ _ _ _ => .raise) ?_)
  intro w₁ n₁ (room : Room) h₁ hTx _ hFind hLock
  have hMem : room ∈ w₁.db.rooms := List.mem_of_find?_eq_some hFind
  replace hSilent := hSilent.holds h₁
  refine .refused fun _ => .refused fun hStatus => ?_
  refine .bind (.select rfl hTx fun w₂ _ h₂ hTx _ => ⟨⟨⟨_, _, hJob⟩, hSilent.holds h₂⟩, ?_⟩)
  split
  case h_2 => exact .raise
  next quiz _ =>
  refine .bind (.select rfl hTx fun w₃ _ h₃ hTx _ => ⟨⟨⟨_, _, hJob⟩, hSilent.holds (h₂.trans h₃)⟩, ?_⟩)
  refine .refused fun _ => ?_
  refine .bind (.quiet rfl (fun _ _ _ _ => trivial) fun w₄ _ startedAt h₄ hTx₄ _ => ?_)
  refine .bind (.quiet rfl (fun _ _ _ _ => trivial) fun w₅ _ matchId h₅ hTx₅ _ => ?_)
  rw [hTx₄, hTx] at hTx₅
  refine .bind (.flush hTx₅ (fun _ _ _ _ => by simp [Req]) fun w₆ _ h₆ hTx₆ _ => ?_)
  replace h₆ := (((h₂.trans h₃).trans h₄).trans h₅).trans h₆
  refine .bind ((drawIds_runs _).mono fun ids w₇ hDrawn => ?_)
  obtain ⟨h₇, hTx₇⟩ := hDrawn
  refine .bind (.flush (hTx₇.trans hTx₆) (fun _ _ _ _ => by simp [Req]) fun w₈ _ h₈ hTx₈ _ => ?_)
  refine .bind (.quiet rfl (fun _ _ _ _ => trivial) fun w₉ _ eventId h₉ hTx₉ _ => ?_)
  replace h₉ := ((h₆.trans h₇).trans h₈).trans h₉
  refine .bind (.flush (hTx₉.trans hTx₈) (fun _ _ _ _ => by simp [Req]) fun w₁₀ _ h₁₀ hTx₁₀ _ => ?_)
  replace h₁₀ := h₉.trans h₁₀
  refine .bind (.commit hTx₁₀ fun w₁₁ n h₁₁ hTx₁₁ _ => ⟨?_, fun _ _ => .pure ?_⟩)
  · have hAll := h₁₀.trans h₁₁
    rw [hJob]
    have hC := fun questions => Commit.start host code matchId room quiz questions ids startedAt
      eventId (hAll.lockedRoom room hMem hLock) (by simpa using hStatus) (hAll.lock _ hLock)
    simpa [startWrites, applyAll_nil] using hC (Query.run w₃.db (.questionsOfQuiz quiz.id))
  · have hIns : .insertMatch ⟨matchId, room.id, quiz.version, .running, startedAt, none⟩ ∈
        (w₁₁.tx pid).writes := by
      rw [hTx₁₁]
      simp
    obtain ⟨m, hm, hId, -⟩ := inserted_match w₁₁.db hIns
    exact ⟨⟨m, hm, hId⟩, _, _, List.mem_append_right _ (List.mem_singleton_self _), hIns, rfl⟩

theorem seedMatchState_runs {m : Match} (room : Room) (k : Nat) (hCreated : Created w pid m.id) :
    Runs pid t (seedMatchState m room k) (fun _ w' => Later w w') w := by
  have hReset : ∀ w₂, Later w w₂ → Runs pid t (resetMatchState m room k)
      (fun _ w' => Later w w') w₂ := by
    intro w₂ h₂
    refine .bind (.quiet rfl (fun w₃ _ h₃ _ => hCreated.later (h₂.trans h₃.later)) ?_)
    intro w₃ _ _ h₃ _ _
    refine .bind (.quiet rfl (fun _ _ _ _ => trivial) fun w₄ _ cached h₄ _ _ => ?_)
    replace h₄ := (h₂.trans h₃.later).trans h₄.later
    split
    · exact .quiet rfl (fun _ _ _ _ => trivial) fun w₅ _ _ h₅ _ _ => h₄.trans h₅.later
    · exact .pure h₄
  refine .bind (.quiet rfl (fun _ _ _ _ => trivial) fun w₁ _ participants h₁ _ _ => ?_)
  dsimp only
  split
  · exact .bind (.quiet rfl (fun _ _ _ _ => trivial)
      fun w₂ _ _ h₂ _ _ => hReset w₂ (h₁.later.trans h₂.later))
  · exact hReset w₁ h₁.later

theorem startMatch_runs {host : Id} {code : String} (hJob : t.job = .startMatch host code)
    (hTx : w.tx pid = {}) (hSilent : Silent w pid) :
    Runs pid t (startMatch host code) (fun _ _ => True) w := by
  refine .withSession (.bind ((startTx_runs hJob hTx hSilent).mono ?_))
  rintro ⟨m, room, k⟩ w₁ ⟨⟨m₁, hm₁, hId₁⟩, hCreated⟩
  refine .bind ((seedMatchState_runs room k hCreated).mono fun _ w₂ h₂ => ?_)
  refine .bind (.quiet rfl (fun _ _ _ _ => trivial) fun w₃ _ serverNow h₃ _ _ => ?_)
  refine .bind (.broadcast (fun _ _ _ _ => trivial) fun w₄ _ h₄ _ _ => ?_)
  replace h₄ := (h₂.trans h₃.later).trans h₄.later
  refine .bind (.quiet rfl (fun w₅ _ h₅ _ => ⟨?_, fun _ _ _ hEq => by cases hEq⟩)
    fun _ _ _ _ _ _ => .pure trivial)
  obtain ⟨m₅, hm₅, hId₅, -⟩ := (h₄.trans h₅.later).matches' m₁ hm₁
  rw [hJob, ← hId₁, ← hId₅]
  exact .first host code m₅ hm₅

theorem hostedMatch_runs {host : Id} {code : String} {status : RoomStatus} {message : String}
    (hTx : w.tx pid = {}) :
    Runs pid t (hostedMatch host code status message) (fun r w' => w'.tx pid = {} ∧
      r.2.1 ∈ w'.db.matches' ∧ r.1.id = r.2.1.roomId ∧ w'.lock (.room r.2.1.roomId) = some pid ∧
      r.2.1.status = status ∧
      ∀ x ∈ r.2.2, ∃ x' ∈ w'.db.matchQuestions, x.Later x') w := by
  refine .bind (.selectForUpdate hTx (fun _ _ _ _ _ => .raise) ?_)
  intro w₁ n₁ (room : Room) h₁ hTx _ hFind hLock
  refine .refused fun _ => ?_
  refine .bind (.select rfl hTx fun w₂ _ h₂ hTx _ => ⟨trivial, ?_⟩)
  split
  case h_2 => exact .raise
  next m hm =>
  have hMem : m ∈ w₂.db.matches' := List.mem_of_find?_eq_some hm
  have hRoom : m.roomId = room.id := by simpa using List.find?_some hm
  replace hLock : w₂.lock (.room m.roomId) = some pid := hRoom ▸ h₂.lock _ hLock
  refine .bind (.select rfl hTx fun w₃ _ h₃ hTx _ => ⟨trivial, ?_⟩)
  refine .refused fun hStatus => .pure ?_
  refine ⟨hTx, h₃.lockedMatch m hMem (.inr hLock), hRoom.symm, h₃.lock _ hLock,
    by simpa using hStatus, fun x hx => ⟨x, ?_, .refl x⟩⟩
  exact (List.mem_filter.mp (mem_sortBy.mp hx)).1

theorem remainingMs_runs (mq : Option MatchQuestion) :
    Runs pid t (remainingMs mq) (fun _ w' => Holds pid w w' ∧ w'.tx pid = w.tx pid) w := by
  unfold remainingMs
  split
  · exact .pure ⟨.refl pid w, rfl⟩
  · exact .bind (.quiet rfl (fun _ _ _ _ => trivial) fun w₁ _ now h₁ hTx₁ _ => .pure ⟨h₁, hTx₁⟩)

theorem run_openQuestion {db : Db} {q : MatchQuestion}
    (h : Query.run db (.openQuestion m) = some q) :
    q ∈ db.matchQuestions ∧ q.matchId = m ∧ q.startedAt.isSome := by
  obtain ⟨hMem, hProp⟩ := List.mem_filter.mp (minBy?_spec h).1
  have hProp' : q.matchId = m ∧ q.startedAt.isSome ∧ q.closedAt.isNone := by simpa using hProp
  exact ⟨hMem, hProp'.1, hProp'.2.1⟩

theorem run_nextUnstarted {q : MatchQuestion}
    (h : Query.run w.db (.nextUnstarted m) = some q) : Next w m q.position := by
  obtain ⟨hIn, hMin⟩ := minBy?_spec h
  obtain ⟨hMem, hProp⟩ := List.mem_filter.mp hIn
  refine ⟨⟨q, hMem, (by simpa using hProp : q.matchId = m ∧ _).1, rfl⟩, fun x hx hxm hxp => ?_⟩
  by_contra hNone
  have hLe := hMin x (List.mem_filter.mpr ⟨hx, by simpa [hxm] using hNone⟩)
  omega

theorem identityMapped_position {n : Nat} {loaded : List MatchQuestion} {q : MatchQuestion}
    (hInv : Inv n w) (hq : q ∈ w.db.matchQuestions)
    (hLoaded : ∀ x ∈ loaded, ∃ x' ∈ w.db.matchQuestions, x.Later x') :
    (identityMapped loaded q).position = q.position := by
  unfold identityMapped
  cases hFind : loaded.find? (·.id = q.id) with
  | none => rfl
  | some x =>
    obtain ⟨x', hx', hLater⟩ := hLoaded x (List.mem_of_find?_eq_some hFind)
    have hId : x.id = q.id := by simpa using List.find?_some hFind
    rw [Option.getD_some, ← hLater.position,
      hInv.keys.matchQuestion_eq hx' hq (.inl (hLater.id.trans hId))]

theorem pauseMatch_runs {host : Id} {code : String} (hJob : t.job = .pauseMatch host code)
    (hTx : w.tx pid = {}) : Runs pid t (pauseMatch host code) (fun _ _ => True) w := by
  refine .withSession (.bind ((hostedMatch_runs hTx).mono ?_))
  rintro ⟨room, m, loaded⟩ w₁ ⟨hTx, hMem, hRoom, hLock, hStatus, hLoaded⟩
  simp only at hMem hRoom hLock hStatus hLoaded
  refine .bind (.select rfl hTx fun w₂ _ h₂ hTx hInv₂ => ⟨trivial, ?_⟩)
  have hStarted : ∀ p, (((Query.run w₂.db (.openQuestion m.id)).map
      (identityMapped loaded)).map (·.position)) = some p → HasStarted w₂ m.id p := by
    intro p hp
    cases hOpen : Query.run w₂.db (.openQuestion m.id) with
    | none => simp [hOpen] at hp
    | some q =>
      obtain ⟨hq, hOf, hs⟩ := run_openQuestion hOpen
      refine ⟨q, hq, hOf, ?_, hs⟩
      have hPos : (identityMapped loaded q).position = p := by simpa [hOpen] using hp
      rw [← hPos, identityMapped_position hInv₂ hq]
      intro x hx
      obtain ⟨x', hx', hL⟩ := hLoaded x hx
      obtain ⟨x'', hx'', hL'⟩ := h₂.later.matchQuestions x' hx'
      exact ⟨x'', hx'', hL.trans hL'⟩
  refine .bind ((remainingMs_runs _).mono fun remaining w₃ ⟨h₃, hTx₃⟩ => ?_)
  replace hMem := (h₂.trans h₃).lockedMatch m hMem (.inr hLock)
  replace hLock := (h₂.trans h₃).lock _ hLock
  refine .bind (.flush (hTx₃.trans hTx) (fun w' _ h _ i st ea hwr => ?_) fun w₄ _ h₄ hTx₄ _ => ?_)
  · have hi : i = m.id := by
      simp at hwr
      exact hwr.1
    exact ⟨m, h.lockedMatch m hMem (.inr hLock), hi.symm, h.lock _ hLock⟩
  refine .bind (.commit hTx₄ fun w₅ n h₅ hTx₅ _ => ⟨?_, fun _ hLater => ?_⟩)
  · have hAll := h₄.trans h₅
    rw [hJob]
    have hC := Commit.pause host code m (hAll.lockedMatch m hMem (.inr hLock)) (hAll.lock _ hLock)
      hStatus
    simpa [hRoom] using hC
  refine .bind (.ask fun w₆ n _ hRely _ => ⟨?_, fun d out _ _ hOk _ _ => ?_⟩)
  · change Cancels t.job m.id
    rw [hJob]
    exact .pause host code m.id
  have hCancel : Later w₆ out.shared := by
    cases hOk
    exact (sameCore_schedule _ _ _).later
  have hAll : Later w₂ out.shared := ((((h₃.trans h₄).trans h₅).later.trans hLater).trans
    hRely.later).trans hCancel
  refine .bind (.quiet rfl (fun w₇ _ h₇ _ p hp => ?_) fun _ _ _ _ _ _ => .pure trivial)
  exact (hStarted p hp).later (hAll.trans h₇.later)

theorem extendDeadline_runs {loaded : List MatchQuestion} {position : Option Nat} {remaining : Int}
    (hTx : w.tx pid = {}) :
    Runs pid t (extendDeadline m loaded position remaining) (fun ws w' => Holds pid w w' ∧
      w'.tx pid = {} ∧ (ws = [] ∨ ∃ i u, (∃ q ∈ w'.db.matchQuestions, q.id = i ∧ q.matchId = m ∧
        w'.lock (.matchQuestion i) = some pid) ∧
        ws = [.updateMatchQuestion i none (some u) none])) w := by
  unfold extendDeadline
  split
  · exact .pure ⟨.refl pid w, hTx, .inl rfl⟩
  refine .bind (.selectForUpdate hTx (fun w₁ _ h₁ hTx _ => .pure ⟨h₁, hTx, .inl rfl⟩) ?_)
  intro w₁ _ row h₁ hTx _ hFind hLock
  obtain ⟨hMem, hMatch, -⟩ := find_questionAt hFind
  dsimp only
  split
  · exact .pure ⟨h₁, hTx, .inl rfl⟩
  · refine .bind (.quiet rfl (fun _ _ _ _ => trivial) fun w₂ _ now h₂ hTx₂ _ => .pure ?_)
    refine ⟨h₁.trans h₂, hTx₂.trans hTx, .inr ⟨_, _, ⟨row, ?_, rfl, hMatch, ?_⟩, rfl⟩⟩
    · exact h₂.lockedQuestion row hMem hLock
    · exact h₂.lock _ hLock

theorem rearm_runs {host : Id} {code : String} {position : Option Nat} {remaining : Int}
    (hJob : t.job = .resumeMatch host code) (hTx : w.tx pid = {})
    (hStarted : ∀ p, position = some p → HasStarted w m p) :
    Runs pid t (rearm m position remaining) (fun _ _ => True) w := by
  have hNext : Runs pid t (rearm.armNext m) (fun _ _ => True) w := by
    refine .bind (.select rfl hTx fun w₁ n h₁ _ hInv => ⟨trivial, ?_⟩)
    split
    case h_2 => exact .pure trivial
    next next hFind =>
    refine .quiet rfl (fun w₂ _ h₂ _ => ⟨?_, fun _ _ _ hEq => by cases hEq⟩)
      fun _ _ _ _ _ _ => trivial
    rw [hJob]
    exact .resumed host code m _ ((run_nextUnstarted hFind).later hInv h₂.later)
  unfold rearm
  split
  next p =>
    split
    · refine .ask fun w₁ n _ hRely _ => ⟨⟨?_, rfl⟩, fun _ _ _ _ _ _ _ => trivial⟩
      rw [hJob]
      exact .restarted host code m p _ ((hStarted p rfl).later hRely.later)
    · exact hNext
  · exact hNext

theorem resumeMatch_runs {host : Id} {code : String} (hJob : t.job = .resumeMatch host code)
    (hTx : w.tx pid = {}) : Runs pid t (resumeMatch host code) (fun _ _ => True) w := by
  refine .withSession (.bind ((hostedMatch_runs hTx).mono ?_))
  rintro ⟨room, m, loaded⟩ w₁ ⟨hTx, hMem, hRoom, hLock, hStatus, -⟩
  simp only at hMem hRoom hLock hStatus
  refine .bind (.ask fun w₂ n _ hRely hInv => ⟨trivial, fun d out record _ hOk hRec _ => ?_⟩)
  cases hOk
  cases hRec
  have hStarted : ∀ p, ((w₂.redis.pause m.id).getD ⟨none, 0⟩).position = some p →
      HasStarted w₂ m.id p := by
    intro p hp
    cases hPause : w₂.redis.pause m.id with
    | none => simp [hPause] at hp
    | some rec => exact hInv.paused m.id rec p hPause (by simpa [hPause] using hp)
  have h₂ := hRely.toHolds
  refine .bind ((extendDeadline_runs (hRely.tx.trans hTx)).mono ?_)
  rintro deadline w₃ ⟨h₃, hTx₃, hDeadline⟩
  replace hMem := (h₂.trans h₃).lockedMatch m hMem (.inr hLock)
  replace hLock := (h₂.trans h₃).lock _ hLock
  refine .bind (.flush hTx₃ (fun w' _ h _ i st ea hwr => ?_) fun w₄ _ h₄ hTx₄ _ => ?_)
  · have hi : i = m.id := by
      obtain rfl | ⟨j, u, -, rfl⟩ := hDeadline <;> simp at hwr <;> exact hwr.1
    exact ⟨m, h.lockedMatch m hMem (.inr hLock), hi.symm, h.lock _ hLock⟩
  refine .bind (.commit hTx₄ fun w₅ n h₅ hTx₅ _ => ⟨?_, fun _ hLater => ?_⟩)
  · have hAll := h₄.trans h₅
    rw [hJob]
    replace hDeadline : deadline = [] ∨ ∃ i u, (∃ q ∈ w₅.db.matchQuestions, q.id = i ∧
        q.matchId = m.id ∧ w₅.lock (.matchQuestion i) = some pid) ∧
        deadline = [.updateMatchQuestion i none (some u) none] := by
      refine hDeadline.imp_right ?_
      rintro ⟨i, u, ⟨q, hq, rfl, hOf, hHeld⟩, rfl⟩
      exact ⟨q.id, u, ⟨q, hAll.lockedQuestion q hq hHeld, rfl, hOf, hAll.lock _ hHeld⟩, rfl⟩
    have hC := Commit.resume host code m deadline (hAll.lockedMatch m hMem (.inr hLock))
      (hAll.lock _ hLock) hStatus hDeadline
    simpa [hRoom] using hC
  refine .bind (.mono (Q := fun _ _ => True) ?_ fun _ _ _ => .pure trivial)
  refine rearm_runs hJob (by simp [World.commit, World.endTx]) fun p hp => ?_
  exact (hStarted p hp).later (((h₃.trans h₄).trans h₅).later.trans hLater)

theorem recoverMatch_runs (m : Match) (hJob : t.job = .recoverRunningMatches)
    (hTx : w.tx pid = {}) :
    Runs pid t (recoverMatch m) (fun _ w' => w'.tx pid = {}) w := by
  refine .bind (.select rfl hTx fun w₁ n₁ h₁ hTx hInv => ⟨trivial, ?_⟩)
  split
  case h_2 =>
    refine .bind (.select rfl hTx fun w₂ n₂ h₂ hTx hInv => ⟨trivial, ?_⟩)
    split
    case h_2 => exact .pure hTx
    next next hFind =>
    refine .bind (.quiet rfl (fun w₃ _ h₃ _ => ⟨?_, fun _ _ _ hEq => by cases hEq⟩)
      fun w₃ _ _ _ hTx₃ _ => .pure (hTx₃.trans hTx))
    rw [hJob]
    exact .recovered m.id _ ((run_nextUnstarted hFind).later hInv h₃.later)
  next mq hOpen =>
  obtain ⟨hMem, hOf, hs⟩ := run_openQuestion hOpen
  have hStarted : HasStarted w₁ m.id mq.position := ⟨mq, hMem, hOf, rfl, hs⟩
  split
  case h_2 => exact .pure hTx
  refine .bind (.quiet rfl (fun _ _ _ _ => trivial) fun w₂ _ now h₂ hTx₂ _ => ?_)
  replace hTx := hTx₂.trans hTx
  dsimp only
  split
  · refine .bind (.quiet rfl (fun w₃ _ h₃ _ => ⟨?_, fun _ _ _ hEq => by cases hEq⟩)
      fun w₃ _ _ _ hTx₃ _ => .pure (hTx₃.trans hTx))
    rw [hJob]
    exact .overdue m.id _ (hStarted.later (h₂.later.trans h₃.later))
  · refine .bind (.ask fun w₃ n₃ _ hRely _ => ⟨⟨?_, rfl⟩, fun d out _ _ hOk _ _ => .pure ?_⟩)
    · rw [hJob]
      exact .rescheduled m.id _ _ (hStarted.later (h₂.later.trans hRely.later))
    · cases hOk
      rw [(sameCore_schedule _ _ _).tx, hRely.tx, hTx]

theorem recoverAll_runs (ms : List Match) (hJob : t.job = .recoverRunningMatches)
    (hTx : w.tx pid = {}) : Runs pid t (recoverAll ms) (fun _ _ => True) w := by
  induction ms generalizing w with
  | nil => exact .pure trivial
  | cons m ms ih =>
    refine .bind ((recoverMatch_runs m hJob hTx).mono fun _ w₁ hTx₁ => ?_)
    exact .bind ((ih hTx₁).mono fun _ _ _ => .pure trivial)

theorem recoverRunningMatches_runs (hJob : t.job = .recoverRunningMatches) (hTx : w.tx pid = {}) :
    Runs pid t recoverRunningMatches (fun _ _ => True) w :=
  .bind (.select rfl hTx fun _ _ _ hTx _ => ⟨trivial, recoverAll_runs _ hJob hTx⟩)

theorem jobBody_runs (h : Begin w pid t) :
    wp service contract pid t (jobBody t.job) (Post pid t) w := by
  have hOther : ∀ {p : Coro Ret}, (∀ m q payload r, t.job ≠ .submitAnswer m q payload r) →
      Runs pid t p (fun _ _ => True) w → wp service contract pid t p (Post pid t) w :=
    fun hNot hRuns => wp_mono hRuns fun _ _ _ m q payload r _ hJob _ => absurd hJob (hNot m q payload r)
  cases hJob : t.job with
  | submitAnswer m p payload rid =>
    have hRuns := submitAnswer_runs hJob h.tx (h.requested m p payload rid hJob)
    refine wp_mono (Runs.map (f := Ret.response) (Q := fun r w' => ∀ resp, r = .response resp →
      Accepted w' rid resp) (hRuns.mono fun resp w' hAcc resp' hEq => ?_)) fun r w' hr => ?_
    · cases hEq
      exact hAcc
    · intro m' p' payload' rid' resp hJob' hResp
      rw [hJob] at hJob'
      cases hJob'
      exact hr _ hResp resp rfl
  | startMatch host code =>
    exact hOther (by simp [hJob]) (.map (startMatch_runs hJob h.tx h.silent))
  | pauseMatch host code => exact hOther (by simp [hJob]) (.map (pauseMatch_runs hJob h.tx))
  | resumeMatch host code => exact hOther (by simp [hJob]) (.map (resumeMatch_runs hJob h.tx))
  | endMatch m host =>
    exact hOther (by simp [hJob]) (.map (endMatch_runs (hJob ▸ .host m host) h.tx))
  | recoverRunningMatches =>
    exact hOther (by simp [hJob]) (.map (recoverRunningMatches_runs hJob h.tx))
  | armQuestion m p =>
    exact hOther (by simp [hJob]) (.map (armQuestion_runs (hJob ▸ .arm m p) h.tx h.silent))
  | gapThenArm m p s =>
    exact hOther (by simp [hJob]) (.map (gapThenArm_runs (hJob ▸ .gap m p s) h.tx h.silent))
  | closeQuestion m p =>
    have hCloses : Closes t.job m p := hJob ▸ .close m p
    exact hOther (by simp [hJob]) (.map (closeQuestion_runs hCloses h.tx h.silent
      (h.started m p hCloses) (.inl (hJob ▸ .last m p))))
  | closeQuestionAfter m p d =>
    have hCloses : Closes t.job m p := hJob ▸ .after m p d
    exact hOther (by simp [hJob]) (.map (closeQuestionAfter_runs hCloses h.tx
      h.silent (h.started m p hCloses) (h.registered m p d hJob)))

theorem sound : Sound service contract where
  rely_trans _ _ _ _ h h' := Rely.trans h h'
  rely_refl := Rely.refl
  post_rely pid t r w w' h hRely := by
    have hPost : Post pid t r w := h
    exact hPost.rely hRely.later
  exec w t pid n o d out hInv hReq hPid hExec := by
    obtain ⟨hInv', hRely⟩ := exec_kept hInv hReq hPid hExec
    refine ⟨hInv'.mono (by omega), fun q _ hq => hRely q hq, fun t' ht' => ?_⟩
    exact jobBody_runs (exec_begin hInv hReq hExec ht')
  env w n e out hInv hEnv := by
    have hSame := env_same (n := n) hEnv
    refine ⟨(hSame.inv hInv).mono (by omega), fun q _ => hSame.rely, fun t' ht' => ?_⟩
    exact jobBody_runs (env_begin hInv hEnv ht')

end

end LiveQuiz
