import LiveQuiz.Protocol.Phases
import LiveQuiz.Protocol.Moves

/-! # Retries of an answer

A retry that finds no cached response goes through the whole transaction again: it
may be refused, and the response it reads off the stored row has no rank. So
retries agree exactly as long as a call that misses the cache is the only one
under way and nothing has been stored under its id.
-/

namespace LiveQuiz

open Coroutine

set_option autoImplicit false

def Job.submitsAs (rid : String) : Job → Bool
  | .submitAnswer _ _ _ r => r = rid
  | _ => false

def atProbe : Coro Ret → Bool
  | .call (.redis (.idemGet _)) _ => true
  | _ => false

/-- The program is a call with this id, between its probe and its end. -/
def inFlight (S : SysState) (rid : String) (pr : Proc Op Op.Res Exn Ret Task) : Bool :=
  pr.task.job.submitsAs rid && live S pr && !atProbe pr.prog

/-- A probe that misses finds no row with its id and no other call with it under
way. -/
def probesAlone (S : SysState) : SysLabel → Bool
  | .op pid _ =>
    match S.procs[pid]? with
    | some ⟨_, .call (.redis (.idemGet rid)) _⟩ =>
      (S.shared.redis.idem rid).isSome ||
        (S.shared.db.submissions.all (·.requestId ≠ rid) &&
          S.procs.all fun pr => inFlight S rid pr = false)
    | _ => true
  | _ => true

def Responds (S : SysState) (rid : String) (resp : Response) : Prop :=
  S.shared.redis.idem rid = some resp ∨
    ∃ (q : Nat) (t : Task), S.procs[q]? = some ⟨t, .done (.ok (.response resp))⟩ ∧
      t.job.submitsAs rid = true

/-- A call with this id is under way as program `q`. -/
def UnderWay (S : SysState) (rid : String) (q : Nat) : Prop :=
  ∃ pr, S.procs[q]? = some pr ∧ inFlight S rid pr = true

section

variable {C : SysState → SysLabel → Prop} {seed : Seed} {S S' : SysState} {l : SysLabel}
  {rid : String} {q : Nat}

theorem submitsAs_iff {job : Job} :
    job.submitsAs rid = true ↔ ∃ m p payload, job = .submitAnswer m p payload rid := by
  constructor
  · intro h
    cases job with
    | submitAnswer m p payload r =>
      obtain rfl : r = rid := of_decide_eq_true h
      exact ⟨m, p, payload, rfl⟩
    | _ => cases h
  · rintro ⟨m, p, payload, rfl⟩
    exact decide_eq_true rfl

def Phased (S : SysState) (rid : String) : Prop :=
  ∀ (q : Nat) (t : Task) prog, S.procs[q]? = some ⟨t, prog⟩ → t.job.submitsAs rid = true →
    ∃ s, InPhase rid s prog ∧ s ≠ .void ∧ (rid = "" → ∃ e, s = .failed e)

theorem PhaseMove.phased {prog : Coro Ret} {s : SubmitPhase} {o : Op} {r : Except Exn o.Res}
    (h : PhaseMove rid prog s o r) (hRid : rid ≠ "") :
    ∃ s', InPhase rid s' prog ∧ s' ≠ .void ∧ (rid = "" → ∃ e, s' = .failed e) := by
  cases h with
  | hit resp hEq => exact ⟨.returned resp, hEq ▸ rfl, by simp, fun h => absurd h hRid⟩
  | missed hIn => exact ⟨.working, hIn, by simp, fun h => absurd h hRid⟩
  | unprobed e _ hEq => exact ⟨.failed e, hEq ▸ rfl, by simp, fun h => absurd h hRid⟩
  | worked _ _ _ _ _ hIn => exact ⟨.working, hIn, by simp, fun h => absurd h hRid⟩
  | left _ _ _ _ hIn => exact ⟨.leaving, hIn, by simp, fun h => absurd h hRid⟩
  | hooked _ _ _ _ hIn => exact ⟨.leaving, hIn, by simp, fun h => absurd h hRid⟩
  | stored resp hEq => exact ⟨.returned resp, hEq ▸ rfl, by simp, fun h => absurd h hRid⟩
  | unstored resp e _ hEq => exact ⟨.failed e, hEq ▸ rfl, by simp, fun h => absurd h hRid⟩

theorem launched_cases {m p : Id} {payload : AnswerSubmitRequest} {prog : Coro Ret}
    (h : prog = jobBody (.submitAnswer m p payload rid)) :
    (rid ≠ "" ∧ InPhase rid .probing prog) ∨ (rid = "" ∧ ∃ e, prog = .done (.error e)) := by
  subst h
  by_cases hRid : rid = ""
  · subst hRid
    exact .inr ⟨rfl, submitAnswer_refused m p payload⟩
  · exact .inl ⟨hRid, submitAnswer_walks hRid⟩

theorem Phased.calling (h : Phased S rid) {t : Task} {o : Op} {k : Except Exn o.Res → Coro Ret}
    (hProc : S.procs[q]? = some ⟨t, .call o k⟩) (hCall : t.job.submitsAs rid = true) :
    rid ≠ "" ∧ ∃ s, InPhase rid s (.call o k) ∧ s ≠ .void := by
  obtain ⟨s, hIn, hs, hFailed⟩ := h q t _ hProc hCall
  refine ⟨fun hRid => ?_, s, hIn, hs⟩
  obtain ⟨e, rfl⟩ := hFailed hRid
  cases hIn.failed

theorem phased_step (hS : Held S) (h : Phased S rid) (hStep : service.step S l = some S') :
    Phased S' rid := by
  intro q t prog hq hCall
  obtain ⟨hOld, -⟩ | ⟨d, t', o, k, out, -, hOld, hExec, hEq, -⟩ | ⟨-, hBody, -⟩ :=
    step_procs hS hStep hq
  · exact h q t prog hOld hCall
  · cases hEq
    obtain ⟨hRid, s, hIn, hs⟩ := h.calling hOld hCall
    exact (hIn.move hs hExec).phased hRid
  · obtain ⟨m, p, payload, hJob⟩ := submitsAs_iff.mp hCall
    simp only [hJob] at hBody
    obtain ⟨hRid, hIn⟩ | ⟨hRid, e, hDone⟩ := launched_cases hBody
    · exact ⟨.probing, hIn, by simp, fun h => absurd h hRid⟩
    · exact ⟨.failed e, hDone ▸ rfl, by simp, fun _ => ⟨e, rfl⟩⟩

theorem phased_reach (h : service.Reach C (initial seed) S) : Phased S rid := by
  induction h with
  | refl => exact fun _ _ _ hq => by cases hq
  | tail hReach _ hStep ih => exact phased_step (held_of_reach hReach) ih hStep

/-- Program `q` misses the cache in this step. -/
def Misses (S : SysState) (l : SysLabel) (rid : String) (q : Nat) : Prop :=
  ∃ d t k, l = .op q d ∧ S.procs[q]? = some ⟨t, .call (.redis (.idemGet rid)) k⟩ ∧
    S.shared.redis.idem rid = none

theorem probesAlone_spec (h : probesAlone S l = true) (hMiss : Misses S l rid q) :
    (∀ row ∈ S.shared.db.submissions, row.requestId ≠ rid) ∧ ∀ q', ¬UnderWay S rid q' := by
  obtain ⟨d, t, k, rfl, hProc, hNone⟩ := hMiss
  simp only [probesAlone, hProc, hNone, Option.isSome_none, Bool.false_or, Bool.and_eq_true,
    List.all_eq_true, decide_eq_true_eq] at h
  refine ⟨h.1, ?_⟩
  rintro q' ⟨pr, hq', hFlight⟩
  rw [h.2 pr (List.mem_of_getElem? hq')] at hFlight
  cases hFlight

theorem inFlight_iff {t : Task} {prog : Coro Ret} : inFlight S rid ⟨t, prog⟩ = true ↔
    t.job.submitsAs rid = true ∧ live S ⟨t, prog⟩ = true ∧ atProbe prog = false := by
  simp [inFlight, and_assoc]

theorem live_call {t : Task} {o : Op} {k : Except Exn o.Res → Coro Ret} :
    live S ⟨t, .call o k⟩ = true ↔ S.shared.phase t.replica ≠ .crashed := by
  simp [live]

theorem Phased.probe (h : Phased S rid) {t : Task} {o : Op} {k : Except Exn o.Res → Coro Ret}
    (hProc : S.procs[q]? = some ⟨t, .call o k⟩) (hCall : t.job.submitsAs rid = true)
    (hAt : atProbe (.call o k) = true) : o = .redis (.idemGet rid) ∧ InPhase rid .probing (.call o k) := by
  obtain ⟨-, s, hIn, hs⟩ := h.calling hProc hCall
  unfold atProbe at hAt
  split at hAt
  next key k' hEq =>
    cases hEq
    cases s with
    | probing => exact ⟨hIn.1, hIn⟩
    | working => cases hIn.1
    | leaving => exact absurd rfl (hIn.1.2.1 key)
    | returned => exact absurd hIn.1 id
    | failed => exact absurd hIn.1 id
    | void => exact absurd rfl hs
  · cases hAt

theorem UnderWay.back (hS : Held S) (hPhased : Phased S rid) (hStep : service.step S l = some S')
    (h : UnderWay S' rid q) : UnderWay S rid q ∨ Misses S l rid q := by
  obtain ⟨⟨t, prog⟩, hq, hFlight⟩ := h
  obtain ⟨hCall, hLive, hAt⟩ := inFlight_iff.mp hFlight
  have hPhase : ∀ r, S'.shared.phase r ≠ .crashed → S.shared.phase r ≠ .crashed :=
    fun r hr hc => hr (step_crashed hStep hc)
  cases prog with
  | done r => cases hLive
  | call o' k' =>
    obtain ⟨hOld, -⟩ | ⟨d, t', o, k, out, hl, hOld, hExec, hEq, hShared⟩ | ⟨-, hBody, -⟩ :=
      step_procs hS hStep hq
    · exact .inl ⟨_, hOld, inFlight_iff.mpr ⟨hCall, live_call.mpr (hPhase _ (live_call.mp hLive)), hAt⟩⟩
    · obtain ⟨rfl, hProg⟩ := Proc.mk.inj hEq
      cases hProbe : atProbe (.call o k) with
      | false =>
        exact .inl ⟨_, hOld, inFlight_iff.mpr ⟨hCall, live_call.mpr (hPhase _ (live_call.mp hLive)),
          hProbe⟩⟩
      | true =>
        obtain ⟨rfl, hIn⟩ := hPhased.probe hOld hCall hProbe
        have hMove := hIn.move (by simp) hExec
        rw [← hProg] at hMove
        generalize hr : out.result = r at hMove
        cases hMove with
        | hit resp hDone => cases hDone
        | unprobed e _ hDone => cases hDone
        | missed hWork =>
          refine .inr ⟨d, t, k, hl, hOld, ?_⟩
          obtain ⟨-, -, hOk⟩ | ⟨e, hErr, -⟩ := exec_cases hExec
          · cases hOk
            simpa [RedisCmd.run] using hr
          · rw [hErr] at hr
            cases hr
    · obtain ⟨m, p, payload, hJob⟩ := submitsAs_iff.mp hCall
      simp only [hJob] at hBody
      obtain ⟨-, hIn⟩ | ⟨-, e, hDone⟩ := launched_cases hBody
      · obtain rfl := hIn.1
        cases hAt
      · cases hDone

/-- Program `q` stores its response in this step. -/
def Stores (S : SysState) (l : SysLabel) (rid : String) (q : Nat) (resp : Response) : Prop :=
  ∃ d t k, l = .op q d ∧ S.procs[q]? = some ⟨t, .call (.redis (.idemSet rid resp)) k⟩ ∧
    S.shared.phase t.replica = .up

theorem Stores.underWay {resp : Response} (hS : Held S) (h : Stores S l rid q resp) :
    UnderWay S rid q := by
  obtain ⟨d, t, k, -, hProc, hUp⟩ := h
  obtain ⟨⟨m, p, payload, hJob, -⟩, -⟩ := hS.req sound hProc
  refine ⟨_, hProc, inFlight_iff.mpr ⟨?_, live_call.mpr (by simp [hUp]), rfl⟩⟩
  exact submitsAs_iff.mpr ⟨m, p, payload, hJob⟩

theorem Stores.over {resp : Response} (hS : Held S) (hPhased : Phased S rid)
    (h : Stores S l rid q resp) (hStep : service.step S l = some S') : ¬UnderWay S' rid q := by
  rintro ⟨⟨t', prog⟩, hq, hFlight⟩
  obtain ⟨hCall, hLive, -⟩ := inFlight_iff.mp hFlight
  obtain ⟨d, t, k, rfl, hProc, -⟩ := h
  obtain ⟨-, hNot⟩ | ⟨d', t₁, o, k', out, -, hOld, hExec, hEq, -⟩ | ⟨hLen, -⟩ :=
    step_procs hS hStep hq
  · exact hNot d rfl
  · rw [hProc] at hOld
    cases hOld
    cases hEq
    obtain ⟨-, s, hIn, hs⟩ := hPhased.calling hProc hCall
    have hMove := hIn.move hs hExec
    generalize k out.result = prog at hMove hLive
    generalize out.result = r at hMove
    cases hMove with
    | worked _ _ hIdem => cases hIdem
    | left _ _ hIdem => cases hIdem
    | hooked _ _ hIdem => cases hIdem
    | stored _ hDone => rw [hDone] at hLive; cases hLive
    | unstored _ e _ hDone => rw [hDone] at hLive; cases hLive
  · have := (List.getElem?_eq_some_iff.mp hProc).1
    omega

theorem idem_back {resp : Response} (hStep : service.step S l = some S')
    (h : S'.shared.redis.idem rid = some resp) :
    S.shared.redis.idem rid = some resp ∨ ∃ q, Stores S l rid q resp := by
  obtain ⟨pid, d, t, o, k, out, rfl, hProc, hExec, rfl⟩ | ⟨e, out, rfl, hEnv, rfl⟩ :=
    Machine.step_cases hStep
  · obtain hSame | ⟨hUp, c, rfl, hRun⟩ := exec_redis hExec
    · exact .inl (by rwa [hSame] at h)
    · rw [hRun] at h
      cases c with
      | idemSet key resp' =>
        cases hOld : S.shared.redis.idem key with
        | some r =>
          simp only [RedisCmd.run, hOld] at h
          exact .inl h
        | none =>
          simp only [RedisCmd.run, hOld] at h
          by_cases hKey : rid = key
          · subst hKey
            rw [Function.update_self] at h
            cases h
            exact .inr ⟨pid, d, t, k, rfl, hProc, hUp⟩
          · rw [Function.update_of_ne hKey] at h
            exact .inl h
      | _ => exact .inl h
  · exact .inl ((env_same (n := S.procs.length) hEnv).idem rid resp h)

theorem Responds.back {resp : Response} (hS : Held S) (hPhased : Phased S rid)
    (hStep : service.step S l = some S') (h : Responds S' rid resp) :
    Responds S rid resp ∨ ∃ q, Stores S l rid q resp := by
  obtain hCached | ⟨q, t, hq, hCall⟩ := h
  · exact (idem_back hStep hCached).imp_left .inl
  · obtain ⟨hOld, -⟩ | ⟨d, t', o, k, out, hl, hOld, hExec, hEq, -⟩ | ⟨-, hBody, -⟩ :=
      step_procs hS hStep hq
    · exact .inl (.inr ⟨q, t, hOld, hCall⟩)
    · obtain ⟨rfl, hProg⟩ := Proc.mk.inj hEq
      obtain ⟨-, s, hIn, hs⟩ := hPhased.calling hOld hCall
      have hMove := hIn.move hs hExec
      rw [← hProg] at hMove
      generalize hr : out.result = r at hMove
      cases hMove with
      | hit resp' hDone =>
        cases hDone
        obtain ⟨-, -, hOk⟩ | ⟨e, hErr, -⟩ := exec_cases hExec
        · cases hOk
          exact .inl (.inl (by simpa [RedisCmd.run] using hr))
        · rw [hErr] at hr
          cases hr
      | stored resp' hDone =>
        cases hDone
        obtain ⟨hUp, -⟩ | ⟨e, hErr, -⟩ := exec_cases hExec
        · exact .inr ⟨q, d, t, k, hl, hOld, hUp⟩
        · rw [hErr] at hr
          cases hr
      | missed hEnd =>
        obtain ⟨e, he⟩ := hEnd
        cases he
      | worked _ _ _ _ _ hEnd =>
        obtain ⟨e, he⟩ := hEnd
        cases he
      | left _ _ _ _ hEnd =>
        obtain ⟨e, -, he⟩ := hEnd
        cases he
      | hooked _ _ _ _ hEnd =>
        obtain ⟨e, -, he⟩ := hEnd
        cases he
      | unprobed e _ hDone => cases hDone
      | unstored _ e _ hDone => cases hDone
    · obtain ⟨m, p, payload, hJob⟩ := submitsAs_iff.mp hCall
      simp only [hJob] at hBody
      obtain ⟨-, hIn⟩ | ⟨-, e, hDone⟩ := launched_cases hBody
      · exact absurd hIn id
      · cases hDone

def Unstored (S : SysState) (rid : String) : Prop :=
  ∀ row ∈ S.shared.db.submissions, row.requestId ≠ rid

/-- All requests with the id are for one answer. -/
def ForOne (S : SysState) (rid : String) (p mq : Id) : Prop :=
  ∀ m p' payload, .submitAnswer m p' payload rid ∈ S.shared.requests →
    p' = p ∧ payload.matchQuestionId = mq

/-- At most one call is under way. While no row has the id, the responses are read
off the one row of the answer; once one has, they are all the same, and a call
under way is the one that stored it and has not responded. -/
structure Agreed (S : SysState) (rid : String) (p mq : Id) : Prop where
  alone : ∀ q q', UnderWay S rid q → UnderWay S rid q' → q = q'
  uncached : ∀ q, UnderWay S rid q → S.shared.redis.idem rid = none
  duplicate : Unstored S rid → ∀ resp, Responds S rid resp →
    ∃ row ∈ S.shared.db.submissions, row.matchQuestionId = mq ∧ row.participantId = p ∧
      resp = .ofRow row none
  same : ¬Unstored S rid → ∀ resp resp', Responds S rid resp → Responds S rid resp' → resp = resp'
  first : ¬Unstored S rid → ∀ q, UnderWay S rid q → (∀ resp, ¬Responds S rid resp) ∧
    ∀ t prog, S.procs[q]? = some ⟨t, prog⟩ → InPhase rid .leaving prog

variable {p mq : Id}

theorem stored_by (hS : Held S) (hOne : ForOne S rid p mq) (hStep : service.step S l = some S')
    (hOld : Unstored S rid) (hNew : ¬Unstored S' rid) :
    ∃ q t row, Commits S l S' q t ∧ .insertSubmission row ∈ (S.shared.tx q).writes ∧
      UnderWay S rid q ∧ row.matchQuestionId = mq ∧ row.participantId = p := by
  unfold Unstored at hNew
  push Not at hNew
  obtain ⟨row, hRow, hRid⟩ := hNew
  obtain hSame | ⟨q, t, hC⟩ := step_cases hS hStep
  · rw [hSame.submissions] at hRow
    exact absurd hRid (hOld row hRow)
  · rw [hC.db, applyAll_submissions] at hRow
    obtain hRow | hRow := List.mem_append.mp hRow
    · exact absurd hRid (hOld row hRow)
    · obtain ⟨wr, hwr, hEq⟩ := List.mem_filterMap.mp hRow
      have hIns : .insertSubmission row ∈ (S.shared.tx q).writes := by
        cases wr <;> cases hEq
        exact hwr
      obtain ⟨m, payload, hJob, hAns⟩ := hC.shape.submits hIns
      obtain ⟨m', payload', hReq, hMq⟩ := hAns
      rw [hRid] at hReq hJob
      obtain ⟨hp, hmq⟩ := hOne m' row.participantId payload' hReq
      obtain ⟨k, hProc⟩ := hC.proc
      refine ⟨q, t, row, hC, hIns, ⟨_, hProc, inFlight_iff.mpr ⟨?_, ?_, rfl⟩⟩, hMq ▸ hmq, hp⟩
      · exact submitsAs_iff.mpr ⟨_, _, _, hJob⟩
      · exact live_call.mpr (by simp [hC.up])

theorem Stores.unique {q q' : Nat} {resp resp' : Response} (h : Stores S l rid q resp)
    (h' : Stores S l rid q' resp') : resp = resp' := by
  obtain ⟨d, t, k, rfl, hProc, -⟩ := h
  obtain ⟨d', t', k', hl, hProc', -⟩ := h'
  cases hl
  rw [hProc] at hProc'
  cases hProc'
  rfl

theorem Commits.not_stores {q q' : Nat} {t : Task} {resp : Response} (h : Commits S l S' q t) :
    ¬Stores S l rid q' resp := by
  rintro ⟨d', t', k', rfl, hProc', -⟩
  obtain ⟨d, hl⟩ := h.label
  obtain ⟨k, hProc⟩ := h.proc
  cases hl
  rw [hProc] at hProc'
  cases hProc'

theorem Commits.not_misses {q q' : Nat} {t : Task} (h : Commits S l S' q t) :
    ¬Misses S l rid q' := by
  rintro ⟨d', t', k', rfl, hProc', -⟩
  obtain ⟨d, hl⟩ := h.label
  obtain ⟨k, hProc⟩ := h.proc
  cases hl
  rw [hProc] at hProc'
  cases hProc'

theorem Misses.not_stores {q q' : Nat} {resp : Response} (h : Misses S l rid q) :
    ¬Stores S l rid q' resp := by
  rintro ⟨d', t', k', rfl, hProc', -⟩
  obtain ⟨d, t, k, hl, hProc, -⟩ := h
  cases hl
  rw [hProc] at hProc'
  cases hProc'

theorem Unstored.back (hS : Held S) (hStep : service.step S l = some S') (h : Unstored S' rid) :
    Unstored S rid :=
  fun row hRow => h row ((step_later hS hStep).submissions hRow)

theorem Agreed.stores (h : Agreed S rid p mq) (hS : Held S) (hPhased : Phased S rid)
    (hStep : service.step S l = some S') {q q' : Nat} {resp : Response}
    (hStores : Stores S l rid q' resp) : UnderWay S rid q → ¬UnderWay S' rid q := by
  intro hOld hNew
  obtain rfl := h.alone q q' hOld (hStores.underWay hS)
  exact hStores.over hS hPhased hStep hNew

theorem agreed_alone (hS : Held S) (hPhased : Phased S rid) (h : Agreed S rid p mq)
    (hCond : probesAlone S l = true) (hStep : service.step S l = some S') {q q' : Nat}
    (hq : UnderWay S' rid q) (hq' : UnderWay S' rid q') : q = q' := by
  obtain hOld | hMiss := hq.back hS hPhased hStep
  · obtain hOld' | hMiss' := hq'.back hS hPhased hStep
    · exact h.alone q q' hOld hOld'
    · exact absurd hOld ((probesAlone_spec hCond hMiss').2 q)
  · obtain hOld' | ⟨d', t', k', hl', -⟩ := hq'.back hS hPhased hStep
    · exact absurd hOld' ((probesAlone_spec hCond hMiss).2 q')
    · obtain ⟨d, t, k, rfl, -⟩ := hMiss
      cases hl'
      rfl

theorem agreed_uncached (hS : Held S) (hPhased : Phased S rid) (h : Agreed S rid p mq)
    (hStep : service.step S l = some S') {q : Nat} (hq : UnderWay S' rid q) :
    S'.shared.redis.idem rid = none := by
  by_contra hSome
  obtain ⟨resp, hResp⟩ := Option.ne_none_iff_exists'.mp hSome
  obtain hOld | hMiss := hq.back hS hPhased hStep
  · obtain hCached | ⟨q', hStores⟩ := idem_back hStep hResp
    · rw [h.uncached q hOld] at hCached
      cases hCached
    · exact h.stores hS hPhased hStep hStores hOld hq
  · obtain hCached | ⟨q', hStores⟩ := idem_back hStep hResp
    · obtain ⟨d, t, k, -, -, hNone⟩ := hMiss
      rw [hNone] at hCached
      cases hCached
    · exact hMiss.not_stores hStores

theorem agreed_duplicate (hS : Held S) (hPhased : Phased S rid) (h : Agreed S rid p mq)
    (hOne : ForOne S rid p mq) (hCalls : ∀ (q : Nat) (t : Task) prog,
      S.procs[q]? = some ⟨t, prog⟩ → t.job.submitsAs rid = true → t.job ∈ S.shared.requests)
    (hStep : service.step S l = some S') (hUnstored : Unstored S' rid) {resp : Response}
    (hResp : Responds S' rid resp) : ∃ row ∈ S'.shared.db.submissions,
      row.matchQuestionId = mq ∧ row.participantId = p ∧ resp = .ofRow row none := by
  have hBefore := hUnstored.back hS hStep
  have hMono := (step_later hS hStep).submissions
  obtain hOld | ⟨q, hStores⟩ := hResp.back hS hPhased hStep
  · obtain ⟨row, hRow, hAt⟩ := h.duplicate hBefore resp hOld
    exact ⟨row, hMono hRow, hAt⟩
  · obtain ⟨d, t, k, -, hProc, -⟩ := hStores
    obtain ⟨⟨m, p', payload, hJob, hSource⟩, -⟩ := hS.req sound hProc
    have hReq := hCalls q t _ hProc (submitsAs_iff.mpr ⟨m, p', payload, hJob⟩)
    rw [hJob] at hReq
    obtain ⟨rfl, rfl⟩ := hOne m p' payload hReq
    obtain ⟨row, rank, hWrote, hRid, -⟩ | ⟨row, hRow, hEq, hRid | hAt⟩ := hSource
    · exact absurd hRid (hBefore row (hS.inv.wrote q row hWrote))
    · exact absurd hRid (hBefore row hRow)
    · exact ⟨row, hMono hRow, hAt.1, hAt.2, hEq⟩

theorem Agreed.silent_store (hS : Held S) (hPhased : Phased S rid) (h : Agreed S rid p mq)
    (hOne : ForOne S rid p mq) (hStep : service.step S l = some S') (hOld : Unstored S rid)
    (hNew : ¬Unstored S' rid) (resp : Response) : ¬Responds S' rid resp := by
  intro hResp
  obtain ⟨q, t, row, hC, hIns, -, hMq, hp⟩ := stored_by hS hOne hStep hOld hNew
  obtain hBefore | ⟨q', hStores⟩ := hResp.back hS hPhased hStep
  · obtain ⟨row', hRow', hMq', hp', -⟩ := h.duplicate hOld resp hBefore
    have hFree := List.any_eq_false.mp (hS.inv.uncollided q _ hIns) row' hRow'
    simp [hMq, hMq', hp, hp'] at hFree
  · exact hC.not_stores hStores

theorem agreed_same (hS : Held S) (hPhased : Phased S rid) (h : Agreed S rid p mq)
    (hOne : ForOne S rid p mq) (hStep : service.step S l = some S') (hNew : ¬Unstored S' rid)
    {resp resp' : Response} (hResp : Responds S' rid resp) (hResp' : Responds S' rid resp') :
    resp = resp' := by
  by_cases hOld : Unstored S rid
  · exact absurd hResp (h.silent_store hS hPhased hOne hStep hOld hNew resp)
  · obtain hBefore | ⟨q, hStores⟩ := hResp.back hS hPhased hStep
    · obtain hBefore' | ⟨q', hStores'⟩ := hResp'.back hS hPhased hStep
      · exact h.same hOld resp resp' hBefore hBefore'
      · exact absurd hBefore ((h.first hOld q' (hStores'.underWay hS)).1 resp)
    · obtain hBefore' | ⟨q', hStores'⟩ := hResp'.back hS hPhased hStep
      · exact absurd hBefore' ((h.first hOld q (hStores.underWay hS)).1 resp')
      · exact hStores.unique hStores'

theorem UnderWay.calling (h : UnderWay S rid q) : ∃ t o k, S.procs[q]? = some ⟨t, .call o k⟩ ∧
    t.job.submitsAs rid = true := by
  obtain ⟨⟨t, prog⟩, hq, hFlight⟩ := h
  obtain ⟨hCall, hLive, -⟩ := inFlight_iff.mp hFlight
  cases prog with
  | done r => cases hLive
  | call o k => exact ⟨t, o, k, hq, hCall⟩

theorem Commits.leaves (hS : Held S) (hPhased : Phased S rid) {t : Task} (h : Commits S l S' q t)
    (hStep : service.step S l = some S') (hCall : t.job.submitsAs rid = true) {t' : Task}
    {prog : Coro Ret} (hq : S'.procs[q]? = some ⟨t', prog⟩) : InPhase rid .leaving prog := by
  obtain ⟨k, hProc⟩ := h.proc
  obtain ⟨d, hl⟩ := h.label
  obtain ⟨-, hNot⟩ | ⟨d', t₁, o, k', out, -, hOld, hExec, hEq, -⟩ | ⟨hLen, -⟩ :=
    step_procs hS hStep hq
  · exact absurd hl (hNot d)
  · rw [hProc] at hOld
    cases hOld
    cases hEq
    obtain ⟨-, s, hIn, hs⟩ := hPhased.calling hProc hCall
    have hMove := hIn.move hs hExec
    generalize k out.result = prog at hMove
    generalize out.result = r at hMove
    cases hMove with
    | worked _ _ _ hNe => exact absurd rfl hNe
    | left _ _ _ _ hLeft => exact hLeft
    | hooked _ _ _ hNe => exact absurd rfl hNe
  · have := (List.getElem?_eq_some_iff.mp hProc).1
    omega

theorem leaving_step (hS : Held S) {t : Task} {o : Op} {k : Except Exn o.Res → Coro Ret}
    (hProc : S.procs[q]? = some ⟨t, .call o k⟩) (hIn : InPhase rid .leaving (.call o k))
    (hStep : service.step S l = some S') {t' : Task} {prog : Coro Ret}
    (hq : S'.procs[q]? = some ⟨t', prog⟩) : InPhase rid .leaving prog ∨
      (∃ resp, Stores S l rid q resp ∧ prog = .done (.ok (.response resp))) ∨
      ∃ e, e.isOutage = true ∧ prog = .done (.error e) := by
  obtain ⟨hOld, -⟩ | ⟨d, t₁, o', k', out, hl, hOld, hExec, hEq, -⟩ | ⟨hLen, -⟩ :=
    step_procs hS hStep hq
  · rw [hProc] at hOld
    cases hOld
    exact .inl hIn
  · rw [hProc] at hOld
    cases hOld
    cases hEq
    have hMove := hIn.move (by simp) hExec
    generalize k out.result = prog at hMove
    generalize hr : out.result = r at hMove
    cases hMove with
    | hooked _ _ _ _ hLeft => exact .inl hLeft
    | stored resp hDone =>
      obtain ⟨hUp, -⟩ | ⟨e, hErr, -⟩ := exec_cases hExec
      · exact .inr (.inl ⟨resp, ⟨d, t, k, hl, hProc, hUp⟩, hDone⟩)
      · rw [hErr] at hr
        cases hr
    | unstored _ e he hDone => exact .inr (.inr ⟨e, he, hDone⟩)
  · have := (List.getElem?_eq_some_iff.mp hProc).1
    omega

theorem agreed_first (hS : Held S) (hPhased : Phased S rid) (h : Agreed S rid p mq)
    (hOne : ForOne S rid p mq) (hCond : probesAlone S l = true)
    (hStep : service.step S l = some S') (hNew : ¬Unstored S' rid) {q : Nat}
    (hq : UnderWay S' rid q) : (∀ resp, ¬Responds S' rid resp) ∧
      ∀ t prog, S'.procs[q]? = some ⟨t, prog⟩ → InPhase rid .leaving prog := by
  by_cases hOld : Unstored S rid
  · refine ⟨h.silent_store hS hPhased hOne hStep hOld hNew, fun t prog hProc => ?_⟩
    obtain ⟨q₁, t₁, row, hC, -, hWay, -⟩ := stored_by hS hOne hStep hOld hNew
    obtain hBefore | hMiss := hq.back hS hPhased hStep
    · obtain rfl := h.alone q q₁ hBefore hWay
      obtain ⟨t₂, o, k, hProc₂, hCall⟩ := hWay.calling
      obtain ⟨k', hProc'⟩ := hC.proc
      rw [hProc'] at hProc₂
      cases hProc₂
      exact hC.leaves hS hPhased hStep hCall hProc
    · exact absurd hMiss hC.not_misses
  · obtain hBefore | hMiss := hq.back hS hPhased hStep
    · obtain ⟨hSilent, hLeaving⟩ := h.first hOld q hBefore
      refine ⟨fun resp hResp => ?_, fun t prog hProc => ?_⟩
      · obtain hResp | ⟨q', hStores⟩ := hResp.back hS hPhased hStep
        · exact hSilent resp hResp
        · exact h.stores hS hPhased hStep hStores hBefore hq
      · obtain ⟨t₀, o, k, hProc₀, -⟩ := hBefore.calling
        obtain ⟨t', o', k', hProc', -⟩ := hq.calling
        rw [hProc'] at hProc
        cases hProc
        obtain hLeft | ⟨resp, -, hDone⟩ | ⟨e, -, hDone⟩ :=
          leaving_step hS hProc₀ (hLeaving _ _ hProc₀) hStep hProc'
        · exact hLeft
        · cases hDone
        · cases hDone
    · exact absurd (probesAlone_spec hCond hMiss).1 hOld

theorem agreed_step (hS : Held S) (hPhased : Phased S rid) (h : Agreed S rid p mq)
    (hOne : ForOne S rid p mq) (hCalls : ∀ (q : Nat) (t : Task) prog,
      S.procs[q]? = some ⟨t, prog⟩ → t.job.submitsAs rid = true → t.job ∈ S.shared.requests)
    (hCond : probesAlone S l = true) (hStep : service.step S l = some S') :
    Agreed S' rid p mq where
  alone _ _ := agreed_alone hS hPhased h hCond hStep
  uncached _ := agreed_uncached hS hPhased h hStep
  duplicate hNew _ := agreed_duplicate hS hPhased h hOne hCalls hStep hNew
  same hNew _ _ := agreed_same hS hPhased h hOne hStep hNew
  first hNew _ := agreed_first hS hPhased h hOne hCond hStep hNew

theorem ForOne.back (h : ForOne S' rid p mq) (hLater : Later S.shared S'.shared) :
    ForOne S rid p mq :=
  fun m p' payload hReq => h m p' payload (hLater.requests hReq)

theorem agreed_reach (h : service.Reach (fun S l => probesAlone S l = true) (initial seed) S)
    (hOne : ForOne S rid p mq) : Agreed S rid p mq := by
  induction h with
  | refl =>
    have hNo : ∀ q, ¬UnderWay (initial seed) rid q := by
      rintro q ⟨pr, hq, -⟩
      cases hq
    have hSilent : ∀ resp, ¬Responds (initial seed) rid resp := by
      rintro resp (h | ⟨q, t, hq, -⟩)
      · cases h
      · cases hq
    exact ⟨fun q _ hq => absurd hq (hNo q), fun q hq => absurd hq (hNo q),
      fun _ resp hResp => absurd hResp (hSilent resp),
      fun _ resp _ hResp => absurd hResp (hSilent resp), fun _ q hq => absurd hq (hNo q)⟩
  | tail hReach hCond hStep ih =>
    have hS := held_of_reach hReach
    have hBefore := hOne.back (step_later hS hStep)
    refine agreed_step hS (phased_reach hReach) (ih hBefore) hBefore ?_ hCond hStep
    intro q t prog hProc hCall
    obtain ⟨m, p', payload, hJob⟩ := submitsAs_iff.mp hCall
    obtain ⟨r, job⟩ := t
    simp only at hJob
    subst hJob
    exact requested_reach hReach hProc

theorem named_reach (h : service.Reach C (initial seed) S) (hOne : ForOne S rid p mq)
    (hStored : ¬Unstored S rid) : rid ≠ "" := by
  induction h with
  | refl => exact absurd (fun _ hRow => by cases hRow) hStored
  | @tail S S' l hReach _ hStep ih =>
    have hS := held_of_reach hReach
    have hBefore := hOne.back (step_later hS hStep)
    by_cases hOld : Unstored S rid
    · obtain ⟨q, t, row, -, -, hWay, -⟩ := stored_by hS hBefore hStep hOld hStored
      obtain ⟨t', o, k, hProc, hCall⟩ := hWay.calling
      exact ((phased_reach hReach).calling hProc hCall).1
    · exact ih hBefore hOld

/-- What a call can be at once a row has its id. -/
inductive Resolved (S : SysState) (rid : String) (t : Task) : Coro Ret → Prop
  | probing (prog : Coro Ret) : InPhase rid .probing prog → Resolved S rid t prog
  | leaving (prog : Coro Ret) : InPhase rid .leaving prog → Resolved S rid t prog
  | stranded (o : Op) (k : Except Exn o.Res → Coro Ret) : S.shared.phase t.replica = .crashed →
      InPhase rid .working (.call o k) → Resolved S rid t (.call o k)
  | responded (resp : Response) : Resolved S rid t (.done (.ok (.response resp)))
  | cut (e : Exn) : e.isOutage = true → Resolved S rid t (.done (.error e))

theorem exec_crashed {w : World} {t : Task} {pid n : Nat} {o : Op} {d : Decision} {out : Answer o}
    (h : exec w t pid n o d = some out) (hCrashed : w.phase t.replica = .crashed) :
    out.result = .error .crashed := by
  simp only [exec, hCrashed, Option.some.injEq] at h
  rw [← h]

theorem Agreed.resolved (hPhased : Phased S rid) (h : Agreed S rid p mq)
    (hStored : ¬Unstored S rid) {t : Task} {prog : Coro Ret}
    (hq : S.procs[q]? = some ⟨t, prog⟩) (hCall : t.job.submitsAs rid = true) :
    (∃ r, prog = .done r) ∨ Resolved S rid t prog := by
  cases prog with
  | done r => exact .inl ⟨r, rfl⟩
  | call o k =>
    refine .inr ?_
    obtain ⟨-, s, hIn, hs⟩ := hPhased.calling hq hCall
    cases s with
    | probing => exact .probing _ hIn
    | leaving => exact .leaving _ hIn
    | returned resp => cases hIn.returned
    | failed e => cases hIn.failed
    | void => exact absurd rfl hs
    | working =>
      by_cases hCrashed : S.shared.phase t.replica = .crashed
      · exact .stranded o k hCrashed hIn
      · have hAt : atProbe (.call o k) = false := by
          cases hProbe : atProbe (.call o k) with
          | false => rfl
          | true =>
            obtain ⟨rfl, -⟩ := hPhased.probe hq hCall hProbe
            cases hIn.1
        have hWay : UnderWay S rid q :=
          ⟨_, hq, inFlight_iff.mpr ⟨hCall, live_call.mpr hCrashed, hAt⟩⟩
        exact .leaving _ ((h.first hStored q hWay).2 t _ hq)

theorem Resolved.step (hS : Held S) (hStored : ¬Unstored S rid) {t : Task} {prog prog' : Coro Ret}
    (h : Resolved S rid t prog) (hCond : probesAlone S l = true)
    (hStep : service.step S l = some S') (hq : S.procs[q]? = some ⟨t, prog⟩)
    (hq' : S'.procs[q]? = some ⟨t, prog'⟩) : Resolved S' rid t prog' := by
  obtain ⟨hOld, -⟩ | ⟨d, t₁, o, k, out, hl, hOld, hExec, hEq, -⟩ | ⟨hLen, -⟩ :=
    step_procs hS hStep hq'
  · rw [hq] at hOld
    cases hOld
    cases h with
    | probing _ hIn => exact .probing _ hIn
    | leaving _ hIn => exact .leaving _ hIn
    | stranded o k hCrashed hIn => exact .stranded o k (step_crashed hStep hCrashed) hIn
    | responded resp => exact .responded resp
    | cut e he => exact .cut e he
  · rw [hq] at hOld
    cases hOld
    obtain ⟨-, rfl⟩ := Proc.mk.inj hEq
    cases h with
    | probing _ hIn =>
      have hMove := hIn.move (by simp) hExec
      generalize k out.result = prog at hMove
      generalize hr : out.result = r at hMove
      cases hMove with
      | hit resp hDone => exact hDone ▸ .responded resp
      | unprobed e he hDone => exact hDone ▸ .cut e he
      | missed _ =>
        refine absurd (probesAlone_spec hCond ⟨d, t, k, hl, hq, ?_⟩).1 hStored
        obtain ⟨-, -, hOk⟩ | ⟨e, hErr, -⟩ := exec_cases hExec
        · cases hOk
          simpa [RedisCmd.run] using hr
        · rw [hErr] at hr
          cases hr
    | leaving _ hIn =>
      obtain hLeft | ⟨resp, -, hDone⟩ | ⟨e, he, hDone⟩ := leaving_step hS hq hIn hStep hq'
      · exact .leaving _ hLeft
      · exact hDone ▸ .responded resp
      · exact hDone ▸ .cut e he
    | stranded o k hCrashed hIn =>
      have hMove := hIn.move (by simp) hExec
      rw [exec_crashed hExec hCrashed] at hMove ⊢
      generalize k (.error .crashed) = prog at hMove
      generalize hr : (.error .crashed : Except Exn o.Res) = r at hMove
      cases hMove with
      | worked _ _ _ _ hNe => exact absurd hr.symm hNe
      | left _ _ _ _ hLeft => exact .leaving _ hLeft
  · have := (List.getElem?_eq_some_iff.mp hq).1
    omega

variable {S₀ : SysState}

theorem resolved_reach
    (h₀ : service.Reach (fun S l => probesAlone S l = true) (initial seed) S₀)
    (h : service.Reach (fun S l => probesAlone S l = true) S₀ S) (hOne : ForOne S rid p mq)
    (hStored : ¬Unstored S₀ rid) {t : Task} {prog : Coro Ret}
    (hq : S.procs[q]? = some ⟨t, prog⟩) (hCall : t.job.submitsAs rid = true) :
    (∃ r, S₀.procs[q]? = some ⟨t, .done r⟩) ∨ Resolved S rid t prog := by
  induction h generalizing t prog with
  | refl =>
    refine ((agreed_reach h₀ hOne).resolved (phased_reach h₀) hStored hq hCall).imp_left ?_
    rintro ⟨r, rfl⟩
    exact ⟨r, hq⟩
  | tail hReach hCond hStep ih =>
    have hAll := h₀.trans hReach
    have hS := held_of_reach hAll
    have hBefore := hOne.back (step_later hS hStep)
    have hStored' : ¬Unstored _ rid := fun hNone =>
      hStored fun row hRow => hNone row ((reach_later (held_of_reach h₀) hReach).submissions hRow)
    obtain ⟨⟨t₀, prog₀⟩, hOld, hTask⟩ | ⟨-, hBody, -⟩ := step_proc hS hStep hq
    · simp only at hTask
      subst hTask
      exact (ih hBefore hOld hCall).imp_right fun hRes =>
        hRes.step hS hStored' hCond hStep hOld hq
    · obtain ⟨m, p', payload, hJob⟩ := submitsAs_iff.mp hCall
      simp only [hJob] at hBody
      obtain ⟨-, hIn⟩ | ⟨hRid, -⟩ := launched_cases hBody
      · exact .inr (.probing _ hIn)
      · exact absurd hRid (named_reach hAll hBefore hStored')

theorem response_row (h : service.Reach C (initial seed) S) (hOne : ForOne S rid p mq) {t : Task}
    {resp : Response} (hq : S.procs[q]? = some ⟨t, .done (.ok (.response resp))⟩)
    (hCall : t.job.submitsAs rid = true) : ∃ row ∈ S.shared.db.submissions, ∃ rank,
      resp = .ofRow row rank ∧ row.matchQuestionId = mq ∧ row.participantId = p := by
  obtain ⟨m, p', payload, hJob⟩ := submitsAs_iff.mp hCall
  obtain ⟨row, hRow, rank, rfl, m', payload', hReq, hQuestion⟩ :=
    (held_of_reach h).post hq m p' payload rid resp hJob rfl
  obtain ⟨rfl, rfl⟩ := hOne m' row.participantId payload' hReq
  exact ⟨row, hRow, rank, rfl, hQuestion.symm, rfl⟩

/-- While a probe misses only if no row has its id and no other call with it is
under way: all responses to the calls for one answer are the same, and once its row
is stored, a call returns a response off that row unless an outage cuts it off. -/
theorem idempotent_retry
    (h₀ : service.Reach (fun S l => probesAlone S l = true) (initial seed) S₀)
    (h : service.Reach (fun S l => probesAlone S l = true) S₀ S) (hOne : ForOne S rid p mq) :
    (∀ (q q' : Nat) (t t' : Task) (resp resp' : Response),
      S.procs[q]? = some ⟨t, .done (.ok (.response resp))⟩ →
      S.procs[q']? = some ⟨t', .done (.ok (.response resp'))⟩ →
      t.job.submitsAs rid = true → t'.job.submitsAs rid = true → resp = resp') ∧
    ∀ row ∈ S₀.shared.db.submissions, row.requestId = rid →
      ∀ (q : Nat) (t : Task) (r : Except Exn Ret), S.procs[q]? = some ⟨t, .done r⟩ →
        t.job.submitsAs rid = true → (∀ r₀, S₀.procs[q]? ≠ some ⟨t, .done r₀⟩) →
        (∃ rank, r = .ok (.response (.ofRow row rank))) ∨
          ∃ e, e.isOutage = true ∧ r = .error e := by
  have hAll := h₀.trans h
  have hS := held_of_reach hAll
  have hKeys := hS.inv.keys
  constructor
  · intro q q' t t' resp resp' hq hq' hCall hCall'
    have hAgreed := agreed_reach hAll hOne
    have hResp : Responds S rid resp := .inr ⟨q, t, hq, hCall⟩
    have hResp' : Responds S rid resp' := .inr ⟨q', t', hq', hCall'⟩
    by_cases hUnstored : Unstored S rid
    · obtain ⟨row, hRow, hMq, hp, rfl⟩ := hAgreed.duplicate hUnstored resp hResp
      obtain ⟨row', hRow', hMq', hp', rfl⟩ := hAgreed.duplicate hUnstored resp' hResp'
      have hSame : row = row' :=
        hKeys.submission_eq hRow hRow' (.inr (.inr ⟨hMq.trans hMq'.symm, hp.trans hp'.symm⟩))
      rw [hSame]
    · exact hAgreed.same hUnstored resp resp' hResp hResp'
  · intro row hRow hRid q t r hq hCall hLate
    have hRow' := (reach_later (held_of_reach h₀) h).submissions hRow
    have hStored : ¬Unstored S₀ rid := fun hNone => hNone row hRow hRid
    obtain ⟨r₀, hDone⟩ | hRes := resolved_reach h₀ h hOne hStored hq hCall
    · exact absurd hDone (hLate r₀)
    · cases hRes with
      | probing _ hIn => exact absurd hIn id
      | leaving _ hIn => exact .inr hIn
      | cut e he => exact .inr ⟨e, he, rfl⟩
      | responded resp =>
        obtain ⟨row₁, hRow₁, rank, rfl, hMq, hp⟩ := response_row hAll hOne hq hCall
        obtain ⟨m, payload, hReq, hQuestion⟩ := hS.inv.answered row hRow'
        rw [hRid] at hReq
        obtain ⟨hp', hmq'⟩ := hOne m row.participantId payload hReq
        have hSame : row₁ = row := by
          refine hKeys.submission_eq hRow₁ hRow' (.inr (.inr ⟨?_, hp.trans hp'.symm⟩))
          exact hMq.trans (hmq'.symm.trans hQuestion)
        exact .inl ⟨rank, by rw [hSame]⟩

end

theorem idempotent_retry_ann : ∃ S₀ S : SysState,
    outcome S₀ 4 = some (⟨0, Demo.annJob⟩, .ok (.response Demo.annResponse)) ∧
    outcome S 5 = some (⟨0, Demo.annJob⟩, .ok (.response Demo.annResponse)) ∧
    ∀ row ∈ S₀.shared.db.submissions, row.requestId = "m1" →
      ∃ rank, Demo.annResponse = .ofRow row rank := by
  have hRun : (service.runWhile probesAlone (initial Demo.seed) Demo.annAnswers).any
      (fun S₀ => outcome S₀ 4 = some (⟨0, Demo.annJob⟩, .ok (.response Demo.annResponse)) ∧
        outcome S₀ 5 = none ∧ (service.runWhile probesAlone S₀
          ([.env (.request 0 Demo.annJob)] ++ Demo.calls 5 1 400)).any (fun S =>
            outcome S 5 = some (⟨0, Demo.annJob⟩, .ok (.response Demo.annResponse)) ∧
            S.shared.requests = [.startMatch 7 "AB", Demo.annJob, Demo.annJob]) = true) = true := by
    decide +kernel
  obtain ⟨S₀, hReach₀, hS₀⟩ := Machine.Reach.exists_of_runWhile hRun
  obtain ⟨hOut₀, hNone, hRun'⟩ := of_decide_eq_true hS₀
  obtain ⟨S, hReach, hS⟩ := Machine.Reach.exists_of_runWhile hRun'
  obtain ⟨hOut, hRequests⟩ := of_decide_eq_true hS
  refine ⟨S₀, S, hOut₀, hOut, fun row hRow hRid => ?_⟩
  have hOne : ForOne S "m1" 21 56 := by
    intro m p payload hReq
    rw [hRequests] at hReq
    simp only [Demo.annJob, List.mem_cons, List.not_mem_nil, or_false] at hReq
    obtain hReq | hReq | hReq := hReq <;> cases hReq <;> exact ⟨rfl, rfl⟩
  have hLate : ∀ r₀, S₀.procs[5]? ≠ some ⟨⟨0, Demo.annJob⟩, .done r₀⟩ := by
    intro r₀ hProc
    simp [outcome, hProc] at hNone
  obtain ⟨rank, hResp⟩ | ⟨e, -, hErr⟩ := (idempotent_retry hReach₀ hReach hOne).2 row hRow hRid 5
    ⟨0, Demo.annJob⟩ _ (outcome_spec hOut) rfl hLate
  · exact ⟨rank, by simpa using hResp⟩
  · cases hErr

/-- Ann's call has committed its row and has not yet stored its response. -/
def Demo.annCommits : List SysLabel := opening ++ [.env (.request 0 annJob)] ++ calls 4 13 300

/-- A retry that overtakes the original returns another rank; a retry after a crash
of the replica and the deadline is refused. -/
theorem retry_differs_or_fails :
    (∃ S, service.Reach (fun _ _ => True) (initial Demo.seed) S ∧
      S.procs[4]? = some ⟨⟨0, Demo.annJob⟩, .done (.ok (.response Demo.annResponse))⟩ ∧
      S.procs[5]? = some ⟨⟨0, Demo.annJob⟩,
        .done (.ok (.response { Demo.annResponse with leaderboardRank := none }))⟩) ∧
    ∃ S, service.Reach (fun _ _ => True) (initial Demo.seed) S ∧
      (∃ row ∈ S.shared.db.submissions, row.requestId = "m1" ∧ row.participantId = 21) ∧
      S.procs[6]? = some ⟨⟨1, Demo.annJob⟩,
        .done (.error (.auth "QUESTION_CLOSED" 409 "deadline passed" []))⟩ := by
  constructor
  · have hRun : (service.run (initial Demo.seed) (Demo.annCommits ++
        [.env (.request 0 Demo.annJob)] ++ Demo.calls 5 13 400 ++ Demo.calls 4 9 313)).any
        (fun S => outcome S 4 = some (⟨0, Demo.annJob⟩, .ok (.response Demo.annResponse)) ∧
          outcome S 5 = some (⟨0, Demo.annJob⟩,
            .ok (.response { Demo.annResponse with leaderboardRank := none }))) = true := by
      decide +kernel
    obtain ⟨S, hReach, hS⟩ := Machine.Reach.exists_of_run hRun
    obtain ⟨hFirst, hRetry⟩ := of_decide_eq_true hS
    exact ⟨S, hReach, outcome_spec hFirst, outcome_spec hRetry⟩
  · have hRun : (service.run (initial Demo.seed) (Demo.annCommits ++
        [.env (.crash 0), .env (.boot 1), .env (.tick 21000000), .env (.request 1 Demo.annJob)] ++
        Demo.calls 6 5 400)).any (fun S =>
          (∃ row ∈ S.shared.db.submissions, row.requestId = "m1" ∧ row.participantId = 21) ∧
          outcome S 6 = some (⟨1, Demo.annJob⟩,
            .error (.auth "QUESTION_CLOSED" 409 "deadline passed" []))) = true := by
      decide +kernel
    obtain ⟨S, hReach, hS⟩ := Machine.Reach.exists_of_run hRun
    obtain ⟨hRow, hRefused⟩ := of_decide_eq_true hS
    exact ⟨S, hReach, hRow, outcome_spec hRefused⟩

end LiveQuiz
