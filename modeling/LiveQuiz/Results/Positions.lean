import LiveQuiz.Protocol.Layered
import LiveQuiz.Protocol.Moves

/-! # Questions start in order

A start numbers the quiz's questions as it reads them, and from then on the rows of
the match keep their positions. The task that arms a position finds every earlier
question started: by the start, by the resume and the recovery that look for the
first unstarted one, and by the close that goes on to the next position.
-/

namespace LiveQuiz

open Coroutine

set_option autoImplicit false

/-- Positions and questions of a match, in the order of its rows. -/
def Db.outline (db : Db) (matchId : Id) : List (Nat × Id) :=
  (db.matchQuestions.filter (·.matchId = matchId)).map fun q => (q.position, q.questionId)

def numbered (questions : List Question) : List (Nat × Id) :=
  questions.mapIdx fun i q => (i + 1, q.id)

def Write.matchQuestion? : Write → Option MatchQuestion
  | .insertMatchQuestion row => some row
  | _ => none

section

variable {matchId : Id}

theorem outline_rows {ids : List Id} {questions : List Question}
    (h : ids.length = questions.length) :
    (matchQuestionRows matchId ids questions).map (fun q => (q.position, q.questionId)) =
      numbered questions := by
  apply List.ext_getElem
  · simp [matchQuestionRows, numbered, h]
  · intro i hi hi'
    simp [matchQuestionRows, numbered]

theorem filter_map_updateWhere {i : Id} {sa da ca : Option Micros} {rows : List MatchQuestion} :
    ((updateWhere MatchQuestion.id i (MatchQuestion.patch sa da ca) rows).filter
        (·.matchId = matchId)).map (fun q => (q.position, q.questionId)) =
      (rows.filter (·.matchId = matchId)).map fun q => (q.position, q.questionId) := by
  induction rows with
  | nil => rfl
  | cons r rows ih =>
    have hPatch : (if r.id = i then r.patch sa da ca else r).matchId = r.matchId ∧
        (if r.id = i then r.patch sa da ca else r).position = r.position ∧
        (if r.id = i then r.patch sa da ca else r).questionId = r.questionId := by
      split <;> exact ⟨rfl, rfl, rfl⟩
    unfold updateWhere at ih ⊢
    rw [List.map_cons, List.filter_cons, List.filter_cons, hPatch.1]
    split
    · rw [List.map_cons, List.map_cons, ih, hPatch.2.1, hPatch.2.2]
    · exact ih

theorem outline_applyAll (ws : List Write) (db : Db) : (applyAll ws db).outline matchId =
    db.outline matchId ++ ((ws.filterMap Write.matchQuestion?).filter
      (·.matchId = matchId)).map fun q => (q.position, q.questionId) := by
  induction ws generalizing db with
  | nil => simp [applyAll_nil]
  | cons wr ws ih =>
    rw [applyAll_cons, ih]
    cases wr with
    | insertMatchQuestion row =>
      simp [Db.outline, Write.apply, Write.matchQuestion?, List.filter_append, List.filter_cons]
      split <;> simp
    | updateMatchQuestion i sa da ca =>
      simp only [Db.outline, Write.apply, filter_map_updateWhere]
      rfl
    | _ => rfl

end

/-- The match questions a transaction inserts with a match are the questions of the
room's quiz, as some statement saw them. -/
def Copies (Seen : Id → List Question → Prop) (w : World) (ws : List Write) : Prop :=
  ∀ row, .insertMatch row ∈ ws → ∃ room ∈ w.db.rooms, room.id = row.roomId ∧
    ∃ ids questions, ids.length = questions.length ∧ Seen room.quizSetId questions ∧
      ws.filterMap Write.matchQuestion? = matchQuestionRows row.id ids questions

def copyLayer (Seen : Id → List Question → Prop) : SysLayer where
  inv w := ∀ i, Seen i (Query.run w.db (.questionsOfQuiz i))
  rely _ _ _ _ _ := True
  req pid _ w
    | .commit => Copies Seen w (w.tx pid).writes
    | _ => True

section

variable {Seen : Id → List Question → Prop} {pid : Nat} {t : Task} {w : World}

theorem copyLayer_steady : (copyLayer Seen).Steady := ⟨fun _ _ _ _ => trivial, fun _ _ _ _ _ _ _ _ => trivial⟩

theorem drawIds_copies (k : Nat) : Layered (copyLayer Seen) pid t (drawIds k)
    (fun ids w' => ids.length = k ∧ Holds pid w w' ∧ w'.tx pid = w.tx pid) w := by
  induction k generalizing w with
  | zero => exact .pure ⟨rfl, .refl pid w, rfl⟩
  | succ k ih =>
    refine .bind (.skip rfl (fun _ => trivial) ?_)
    intro w₁ _ id h₁ hTx₁ _
    refine .bind (ih.mono fun ids w₂ ⟨hLen, h₂, hTx₂⟩ => .pure ?_)
    exact ⟨by simp [hLen], h₁.trans h₂, hTx₂.trans hTx₁⟩

theorem startTx_copies {host : Id} {code : String} (hTx : w.tx pid = {}) :
    Layered (copyLayer Seen) pid t (startTx host code) (fun _ _ => True) w := by
  refine .bind (.selectForUpdate .trivial trivial trivial hTx (fun _ => trivial)
    (fun _ _ _ _ _ _ => .raise) ?_)
  intro w₁ n₁ (room : Room) h₁ hTx _ _ hFind hLock
  have hMem : room ∈ w₁.db.rooms := List.mem_of_find?_eq_some hFind
  refine .refused fun _ => .refused fun _ => ?_
  refine .bind (.select .trivial trivial rfl trivial hTx (fun _ => trivial) fun w₂ _ h₂ hTx _ _ _ => ?_)
  split
  case h_2 => exact .raise
  next quiz hQuiz =>
  have hQuizId : quiz.id = room.quizSetId := by simpa using List.find?_some hQuiz
  refine .bind (.select .trivial trivial rfl trivial hTx (fun _ => trivial) ?_)
  intro w₃ _ h₃ hTx _ hSeen _
  replace hSeen : Seen room.quizSetId (Query.run w₃.db (.questionsOfQuiz quiz.id)) := by
    rw [← hQuizId]
    exact hSeen quiz.id
  refine .refused fun _ => ?_
  refine .bind (.skip rfl (fun _ => trivial) ?_)
  intro w₄ _ startedAt h₄ hTx₄ _
  refine .bind (.skip rfl (fun _ => trivial) ?_)
  intro w₅ _ matchId h₅ hTx₅ _
  rw [hTx₄, hTx] at hTx₅
  refine .bind (.flush .trivial trivial trivial hTx₅ (fun _ => trivial) ?_)
  intro w₆ _ h₆ hTx₆ _ _
  replace h₆ := (((h₂.trans h₃).trans h₄).trans h₅).trans h₆
  refine .bind ((drawIds_copies _).mono fun ids w₇ ⟨hLen, h₇, hTx₇⟩ => ?_)
  refine .bind (.flush .trivial trivial trivial (hTx₇.trans hTx₆) (fun _ => trivial) ?_)
  intro w₈ _ h₈ hTx₈ _ _
  refine .bind (.skip rfl (fun _ => trivial) ?_)
  intro w₉ _ eventId h₉ hTx₉ _
  replace h₉ := ((h₆.trans h₇).trans h₈).trans h₉
  refine .bind (.flush .trivial trivial trivial (hTx₉.trans hTx₈) (fun _ => trivial) ?_)
  intro w₁₀ _ h₁₀ hTx₁₀ _ _
  replace h₁₀ := h₉.trans h₁₀
  refine .bind (.commit hTx₁₀ (fun _ _ _ _ => trivial) fun w₁₁ n h₁₁ hTx₁₁ _ _ _ => ⟨?_, ?_⟩)
  · intro row hRow
    rw [hTx₁₁] at hRow ⊢
    have hRoom := (h₁₀.trans h₁₁).lockedRoom room hMem hLock
    obtain rfl : row = ⟨matchId, room.id, quiz.version, .running, startedAt, none⟩ := by
      simpa using hRow
    refine ⟨room, hRoom, rfl, ids, _, hLen, hSeen, ?_⟩
    have hRows : ∀ mqs : List MatchQuestion,
        (mqs.map Write.insertMatchQuestion).filterMap Write.matchQuestion? = mqs := by
      intro mqs
      rw [List.filterMap_map]
      exact List.filterMap_some
    simp [List.filterMap_append, List.filterMap_cons, hRows, Write.matchQuestion?]
  · exact fun _ => .pure trivial

theorem seedMatchState_copies (m : Match) (room : Room) (count : Nat) :
    Layered (copyLayer Seen) pid t (seedMatchState m room count) (fun _ _ => True) w := by
  have hRest : ∀ w₁, Layered (copyLayer Seen) pid t (resetMatchState m room count)
      (fun _ _ => True) w₁ := by
    intro w₁
    refine .bind (.skip rfl (fun _ => trivial) ?_)
    intro w₂ _ _ _ _ _
    refine .bind (.skip rfl (fun _ => trivial) ?_)
    intro w₃ _ cached _ _ _
    split
    · exact .skip rfl (fun _ => trivial) fun _ _ _ _ _ _ => trivial
    · exact .pure trivial
  refine .bind (.skip rfl (fun _ => trivial) ?_)
  intro w₁ _ participants _ _ _
  dsimp only
  split
  · refine .bind (.skip rfl (fun _ => trivial) ?_)
    intro w₂ _ _ _ _ _
    exact hRest w₂
  · exact hRest w₁

theorem startMatch_copies {host : Id} {code : String} (hTx : w.tx pid = {}) :
    Layered (copyLayer Seen) pid t (startMatch host code) (fun _ _ => True) w := by
  refine .withSession (fun _ => trivial) (.bind ((startTx_copies hTx).mono ?_))
  rintro ⟨m, room, count⟩ w₁ -
  refine .bind ((seedMatchState_copies m room count).mono fun _ w₂ _ => ?_)
  refine .bind (.skip rfl (fun _ => trivial) ?_)
  intro w₃ _ serverNow _ _ _
  refine .bind (.broadcast .trivial trivial trivial trivial (fun _ => trivial) (fun _ => trivial) ?_)
  intro w₄ _ _ _
  refine .bind (.skip rfl (fun _ => trivial) ?_)
  intro w₅ _ _ _ _ _
  exact .pure trivial

end

section

variable {seed : Seed} {S S' U : SysState} {l : SysLabel}

/-- On the way to `U` the quiz had these questions. -/
def SeenBefore (seed : Seed) (U : SysState) (quizSetId : Id) (questions : List Question) : Prop :=
  ∃ S₀, service.Reach (fun _ _ => True) (initial seed) S₀ ∧
    service.Reach (fun _ _ => True) S₀ U ∧ Query.run S₀.shared.db (.questionsOfQuiz quizSetId) = questions

theorem seenBefore_now (h : service.Reach (fun _ _ => True) (initial seed) S)
    (h' : service.Reach (fun _ _ => True) S U) : (copyLayer (SeenBefore seed U)).inv S.shared :=
  fun _ => ⟨S, h, h', rfl⟩

theorem start_copies (h : service.Reach (fun _ _ => True) (initial seed) S)
    (h' : service.Reach (fun _ _ => True) S U) {q : Nat} {p : Proc Op Op.Res Exn Ret Task}
    (hq : S.procs[q]? = some p) (hJob : ∃ host code, p.task.job = .startMatch host code) :
    (copyLayer (SeenBefore seed U)).Keeps service contract q p.task p.prog S.shared := by
  induction h generalizing p with
  | refl => cases hq
  | tail hReach _ hStep ih =>
    have hS := held_of_reach hReach
    have hOn := (Machine.Reach.refl.tail trivial hStep).trans h'
    obtain ⟨p₀, hOld, hTask⟩ | ⟨rfl, hBody, -⟩ := step_proc hS hStep hq
    · exact (ih hOn hOld (hTask ▸ hJob)).step copyLayer_steady sound hS (seenBefore_now hReach hOn)
        hStep hOld hq fun _ _ _ _ => trivial
    · obtain ⟨host, code, hJob⟩ := hJob
      rw [hBody, hJob]
      exact (Layered.map (f := Ret.matchRow) (Q := fun _ _ => True)
        (startMatch_copies (step_fresh hS hStep).1)).keeps

/-- Every match has the questions its start read, numbered from 1. -/
def Outlined (Seen : Id → List Question → Prop) (db : Db) : Prop :=
  ∀ m ∈ db.matches', ∃ room ∈ db.rooms, room.id = m.roomId ∧
    ∃ questions, Seen room.quizSetId questions ∧ db.outline m.id = numbered questions

theorem Outlined.commit {n pid : Nat} {w : World} {job : Job} {ws : List Write}
    {Seen : Id → List Question → Prop} (h : Outlined Seen w.db) (hInv : Inv n w)
    (hC : Commit w pid job ws) (hFresh : ∀ wr ∈ ws, wr.collides w.db = false)
    (hCopies : Copies Seen w ws) : Outlined Seen (applyAll ws w.db) := by
  have hNew : ∀ m, .insertMatch m ∈ ws → ∀ x ∈ w.db.matches', x.id ≠ m.id := by
    intro m hm x hx hEq
    have hFree := List.any_eq_false.mp (hFresh _ hm) x hx
    simp [hEq] at hFree
  intro m' hm'
  obtain ⟨m, hm, hMove⟩ | ⟨hIns, -⟩ := hC.match_back hInv hm'
  · obtain ⟨room, hRoom, hId, questions, hSeen, hOutline⟩ := h m hm
    obtain ⟨room', hRoom', hId', hQuiz'⟩ := later_room ws hRoom
    refine ⟨room', hRoom', hId'.trans (hId.trans hMove.roomId.symm), questions, hQuiz' ▸ hSeen, ?_⟩
    have hNone : (ws.filterMap Write.matchQuestion?).filter (·.matchId = m'.id) = [] := by
      rw [List.filter_eq_nil_iff]
      intro mq hmq hOf
      obtain ⟨wr, hwr, hEq⟩ := List.mem_filterMap.mp hmq
      cases wr with
      | insertMatchQuestion row =>
        cases hEq
        obtain ⟨x, hx, hxId, -⟩ := hC.inserted_matchQuestion hwr
        exact hNew x hx m hm (hMove.id.symm.trans ((of_decide_eq_true hOf).symm.trans hxId.symm))
      | _ => cases hEq
    rw [outline_applyAll, hNone, List.map_nil, List.append_nil, hMove.id, hOutline]
  · obtain ⟨room, hRoom, hId, ids, questions, hLen, hSeen, hRows⟩ := hCopies m' hIns
    obtain ⟨room', hRoom', hId', hQuiz'⟩ := later_room ws hRoom
    refine ⟨room', hRoom', hId'.trans hId, questions, hQuiz' ▸ hSeen, ?_⟩
    have hNone : w.db.matchQuestions.filter (·.matchId = m'.id) = [] := by
      rw [List.filter_eq_nil_iff]
      intro q hq hOf
      obtain ⟨x, hx, hxId⟩ := hInv.matchOf q hq
      exact hNew m' hIns x hx (hxId.trans (of_decide_eq_true hOf))
    have hAll : ∀ q ∈ matchQuestionRows m'.id ids questions, q.matchId = m'.id :=
      fun q hq => (mem_matchQuestionRows hq).1
    rw [outline_applyAll, Db.outline, hNone, hRows, List.filter_eq_self.mpr (by simpa using hAll),
      outline_rows hLen]
    rfl

theorem outlined_reach (h : service.Reach (fun _ _ => True) (initial seed) S)
    (h' : service.Reach (fun _ _ => True) S U) : Outlined (SeenBefore seed U) S.shared.db := by
  induction h with
  | refl =>
    intro m hm
    cases hm
  | tail hReach _ hStep ih =>
    have hS := held_of_reach hReach
    have hOn := (Machine.Reach.refl.tail trivial hStep).trans h'
    have hBefore := ih hOn
    obtain ⟨hDb, -⟩ | ⟨e, out, -, hEnv, hEq⟩ | ⟨pid, t, hC⟩ := step_effect hS hStep
    · rw [hDb]
      exact hBefore
    · have hSame := env_same hEnv
      rw [hEq]
      unfold Outlined Db.outline
      rw [hSame.matches', hSame.matchQuestions]
      intro m hm
      obtain ⟨room, hRoom, hRest⟩ := hBefore m hm
      exact ⟨room, hSame.rooms hRoom, hRest⟩
    · rw [hC.db]
      refine hBefore.commit hS.inv hC.shape (hS.inv.uncollided pid) fun row hRow => ?_
      obtain ⟨k, hProc⟩ := hC.proc
      obtain ⟨host, code, hJob⟩ := hC.shape.starts hRow
      exact (start_copies hReach hOn hProc ⟨host, code, hJob⟩).req copyLayer_steady sound hS
        (seenBefore_now hReach hOn) hProc row hRow

end

/-- The match exists, and its questions before position `p` are started. -/
def StartedBelow (w : World) (m : Id) (p : Nat) : Prop :=
  (∃ x ∈ w.db.matches', x.id = m) ∧
    ∀ q ∈ w.db.matchQuestions, q.matchId = m → q.position < p → q.startedAt.isSome

/-- The arming tasks and the started questions leave no gap behind them. -/
structure NoGap (S : SysState) : Prop where
  tasks : ∀ pr ∈ S.procs, ∀ m p, Arms pr.task.job m p → StartedBelow S.shared m p
  rows : ∀ q ∈ S.shared.db.matchQuestions, q.startedAt.isSome →
    StartedBelow S.shared q.matchId q.position
  closed : ∀ q ∈ S.shared.db.matchQuestions, q.closedAt.isSome → q.startedAt.isSome

section

variable {n : Nat} {w w' : World} {m : Id} {p : Nat} {seed : Seed} {S S' : SysState} {l : SysLabel}

theorem StartedBelow.later (h : StartedBelow w m p) (hLater : Later w w') : StartedBelow w' m p := by
  obtain ⟨⟨x, hx, hId⟩, hBelow⟩ := h
  constructor
  · obtain ⟨x', hx', hId', -⟩ := hLater.matches' x hx
    exact ⟨x', hx', hId'.trans hId⟩
  · intro q' hq' hm hp
    obtain ⟨q, hq, hL⟩ := hLater.questionsOf x hx q' hq' (hm.trans hId.symm)
    exact hL.started (hBelow q hq (hL.matchId.symm.trans hm) (hL.position ▸ hp))

theorem Next.startedBelow (hInv : Inv n w) (h : Next w m p) : StartedBelow w m p := by
  obtain ⟨⟨q, hq, hm, -⟩, hBelow⟩ := h
  obtain ⟨x, hx, hId⟩ := hInv.matchOf q hq
  exact ⟨⟨x, hx, hId.trans hm⟩, hBelow⟩

theorem StartedBelow.succ (hInv : Inv n w) (h : StartedBelow w m p) (hStarted : HasStarted w m p) :
    StartedBelow w m (p + 1) := by
  obtain ⟨q, hq, hm, hp, hs⟩ := hStarted
  refine ⟨h.1, fun y hy hym hyp => ?_⟩
  obtain hLt | hEq := Nat.lt_succ_iff_lt_or_eq.mp hyp
  · exact h.2 y hy hym hLt
  · rw [hInv.keys.matchQuestion_eq hy hq (.inr ⟨hym.trans hm.symm, hEq.trans hp.symm⟩)]
    exact hs

theorem NoGap.spawn (h : NoGap S) (hInv : Inv n S.shared) {job j : Job}
    (hSpawn : Spawn S.shared job j) (hArms : Arms j m p) : StartedBelow S.shared m p := by
  cases hSpawn with
  | first host code x hx =>
    cases hArms
    refine ⟨⟨x, hx, rfl⟩, fun q hq _ hLt => ?_⟩
    have hPos := hInv.positive q hq
    omega
  | resumed host code _ _ hNext =>
    cases hArms
    exact hNext.startedBelow hInv
  | recovered _ _ hNext =>
    cases hArms
    exact hNext.startedBelow hInv
  | gap _ _ p₀ _ _ hStarted =>
    cases hArms
    have hBelow : StartedBelow S.shared m p₀ := by
      obtain ⟨q, hq, rfl, rfl, hs⟩ := hStarted
      exact h.rows q hq hs
    exact hBelow.succ hInv hStarted
  | timer => cases hArms
  | restarted => cases hArms
  | rescheduled => cases hArms
  | overdue => cases hArms

theorem NoGap.launched (h : NoGap S) (hS : Held S) {t : Task} (hNew : Launched S l t)
    (hArms : Arms t.job m p) : StartedBelow S.shared m p := by
  cases hNew with
  | created pid d t₀ o k j hProc ho hSpawn => exact h.spawn hS.inv hSpawn hArms
  | requested r j hReq => cases hArms <;> cases hReq
  | booted r => cases hArms

theorem noGap_step (hS : Held S) (h : NoGap S) (hStep : service.step S l = some S') : NoGap S' := by
  have hLater := step_later hS hStep
  have hRows : ∀ q' ∈ S'.shared.db.matchQuestions,
      (q'.startedAt.isSome → StartedBelow S.shared q'.matchId q'.position) ∧
      (q'.closedAt.isSome → q'.startedAt.isSome) := by
    intro q' hq'
    obtain hSame | ⟨pid, t, hC⟩ := step_cases hS hStep
    · rw [hSame.matchQuestions] at hq'
      exact ⟨h.rows q' hq', h.closed q' hq'⟩
    · rw [hC.db] at hq'
      obtain ⟨q, hq, hMove⟩ | ⟨hIns, hNone⟩ := hC.shape.question_back hS.inv hq'
      · cases hMove with
        | same => exact ⟨h.rows q' hq, h.closed q' hq⟩
        | armed startedAt deadlineAt hArms =>
          obtain ⟨k, hProc⟩ := hC.proc
          exact ⟨fun _ => h.tasks _ (List.mem_of_getElem? hProc) _ _ hArms, fun _ => rfl⟩
        | closed closedAt _ _ hStarted => exact ⟨fun _ => h.rows q hq hStarted, fun _ => hStarted⟩
        | extended deadlineAt => exact ⟨h.rows q hq, h.closed q hq⟩
      · obtain ⟨-, -, -, -, -, hOpen⟩ := hC.shape.inserted_matchQuestion hIns
        simp [hNone, hOpen]
  constructor
  · intro pr hpr m p hArms
    obtain ⟨q, hq⟩ := List.mem_iff_getElem?.mp hpr
    obtain ⟨pr₀, hOld, hTask⟩ | ⟨-, -, hNew⟩ := step_proc hS hStep hq
    · exact (h.tasks pr₀ (List.mem_of_getElem? hOld) m p (hTask ▸ hArms)).later hLater
    · exact (h.launched hS hNew hArms).later hLater
  · exact fun q' hq' hs => ((hRows q' hq').1 hs).later hLater
  · exact fun q' hq' => (hRows q' hq').2

theorem noGap_reach (h : service.Reach (fun _ _ => True) (initial seed) S) : NoGap S := by
  induction h with
  | refl =>
    constructor
    · intro pr hpr
      cases hpr
    · intro q hq
      cases hq
    · intro q hq
      cases hq
  | tail hReach _ hStep ih => exact noGap_step (held_of_reach hReach) ih hStep

theorem NoGap.prefix_of (h : NoGap S) (hInv : Inv n S.shared) (m : Id) :
    ∃ k, ∀ q ∈ S.shared.db.matchQuestions, q.matchId = m → (q.startedAt.isSome ↔ q.position ≤ k) := by
  cases hLast : minBy? (fun q => -(q.position : Int))
      (S.shared.db.matchQuestions.filter fun q => q.matchId = m ∧ q.startedAt.isSome) with
  | none =>
    refine ⟨0, fun q hq hm => ⟨fun hs => ?_, fun hLe => ?_⟩⟩
    · have hNil := List.filter_eq_nil_iff.mp (minBy?_none hLast) q hq
      simp [hm, hs] at hNil
    · have hPos := hInv.positive q hq
      omega
  | some last =>
    obtain ⟨hIn, hMax⟩ := minBy?_spec hLast
    obtain ⟨hMem, hProp⟩ := List.mem_filter.mp hIn
    obtain ⟨hOf, hs⟩ : last.matchId = m ∧ last.startedAt.isSome := by simpa using hProp
    refine ⟨last.position, fun q hq hm => ⟨fun hqs => ?_, fun hLe => ?_⟩⟩
    · have hLe := hMax q (List.mem_filter.mpr ⟨hq, by simpa using ⟨hm, hqs⟩⟩)
      omega
    · obtain hLt | hEq := Nat.lt_or_eq_of_le hLe
      · exact (h.rows last hMem hs).2 q hq (hm.trans hOf.symm) hLt
      · rw [hInv.keys.matchQuestion_eq hq hMem (.inr ⟨hm.trans hOf.symm, hEq⟩)]
        exact hs

/-- The questions of a match are those its start read, numbered from 1 in the order of
the quiz; the started ones are a prefix, and every closed one is started. -/
theorem questions_start_in_order (h : service.Reach (fun _ _ => True) (initial seed) S)
    {x : Match} (hx : x ∈ S.shared.db.matches') :
    (∃ room ∈ S.shared.db.rooms, room.id = x.roomId ∧ ∃ S₀,
      service.Reach (fun _ _ => True) (initial seed) S₀ ∧
      service.Reach (fun _ _ => True) S₀ S ∧ S.shared.db.outline x.id =
        numbered (Query.run S₀.shared.db (.questionsOfQuiz room.quizSetId))) ∧
    (∃ k, ∀ q ∈ S.shared.db.matchQuestions, q.matchId = x.id →
      (q.startedAt.isSome ↔ q.position ≤ k)) ∧
    ∀ q ∈ S.shared.db.matchQuestions, q.matchId = x.id → q.closedAt.isSome → q.startedAt.isSome := by
  have hGap := noGap_reach h
  refine ⟨?_, hGap.prefix_of (held_of_reach h).inv x.id, fun q hq _ => hGap.closed q hq⟩
  obtain ⟨room, hRoom, hId, -, ⟨S₀, hReach, hReach', rfl⟩, hOutline⟩ := outlined_reach h .refl x hx
  exact ⟨room, hRoom, hId, S₀, hReach, hReach', hOutline⟩

end

def Demo.secondQuestion : List SysLabel :=
  Demo.opening ++ Demo.calls 3 1 100 ++ [.env (.tick 20000000)] ++ Demo.calls 3 16 101 ++
    Demo.calls 4 1 120 ++ [.env (.tick 3000000)] ++ Demo.calls 4 16 121

theorem questions_start_in_order_second : ∃ S x,
    service.Reach (fun _ _ => True) (initial Demo.seed) S ∧ x ∈ S.shared.db.matches' ∧
    S.shared.db.matchQuestions.map (fun q => (q.startedAt.isSome, q.closedAt.isSome)) =
      [(true, true), (true, false)] ∧
    (∃ room ∈ S.shared.db.rooms, room.id = x.roomId ∧ ∃ S₀,
      service.Reach (fun _ _ => True) (initial Demo.seed) S₀ ∧
      service.Reach (fun _ _ => True) S₀ S ∧ S.shared.db.outline x.id =
        numbered (Query.run S₀.shared.db (.questionsOfQuiz room.quizSetId))) ∧
    (∃ k, ∀ q ∈ S.shared.db.matchQuestions, q.matchId = x.id →
      (q.startedAt.isSome ↔ q.position ≤ k)) ∧
    ∀ q ∈ S.shared.db.matchQuestions, q.matchId = x.id → q.closedAt.isSome → q.startedAt.isSome := by
  have hRun : (service.run (initial Demo.seed) Demo.secondQuestion).any (fun S =>
      S.shared.db.matchQuestions.map (fun q => (q.startedAt.isSome, q.closedAt.isSome)) =
        [(true, true), (true, false)] ∧ S.shared.db.matches' ≠ []) = true := by
    decide +kernel
  obtain ⟨S, hReach, hS⟩ := Machine.Reach.exists_of_run hRun
  obtain ⟨hRows, hSome⟩ := of_decide_eq_true hS
  obtain ⟨x, hx⟩ := List.exists_mem_of_ne_nil _ hSome
  exact ⟨S, x, hReach, hx, hRows, questions_start_in_order hReach hx⟩

end LiveQuiz
