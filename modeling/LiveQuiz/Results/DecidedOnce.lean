import LiveQuiz.Moderation.Decide
import LiveQuiz.Lib.Contract
import LiveQuiz.Protocol.Tables

/-! # A report is decided once

A decision reads the report without a lock and marks it in the same transaction, so two
that both find it pending are both carried out. With one at a time, a report has one
committed decision, and its rows and its status are those of that decision.
-/

namespace LiveQuiz.Moderation

open Coroutine

set_option autoImplicit false

def Write.audit? : Write → Option AuditLog
  | .audit row => some row
  | _ => none

def Write.event? : Write → Option DecisionEvent
  | .event row => some row
  | _ => none

/-- The statements of an action on its target: the quiz or the user of the report. -/
def Action (quiz user : Option Id) (ws : List Write) : DecisionKind → Prop
  | .dismiss => ws = []
  | .hide => ∃ q visibility isPublished version, quiz = some q ∧
    ws = [.hideQuiz q visibility isPublished version]
  | .mute => ∃ ids, ws = [.kick ids]
  | .ban => ∃ u, user = some u ∧ ws = [.deactivate u]

/-- The statements of a whole decision. -/
structure Carries (quiz user : Option Id) (ws : List Write) (m i : Id) (decision : DecisionKind)
    (reason : Option String) (acts : List Write) (at' : Micros) (a : AuditLog) (e : DecisionEvent) :
    Prop where
  writes : ws = acts ++ [.review i (newStatus decision) m at', .audit a, .event e]
  action : Action quiz user acts decision
  audit : a.entityId = i ∧ a.actorUserId = m ∧ a.action = "moderation.decide." ++ decision.value
  event : e.aggregateId = i ∧ e.decision = decision ∧ e.moderatorUserId = m ∧
    e.status = newStatus decision ∧ e.reason = reason

def Shape (quiz user : Option Id) (ws : List Write) : Job → Prop
  | .decide m i decision reason => ∃ acts at' a e, Carries quiz user ws m i decision reason acts at' a e

def SameTarget (r r' : Report) : Prop :=
  r'.id = r.id ∧ r'.targetQuizSetId = r.targetQuizSetId ∧ r'.targetUserId = r.targetUserId

structure Inv (n : Nat) (w : World) : Prop where
  idle : ∀ q, n ≤ q → w.tx q = [] ∧ w.holding q = none
  keys : (w.reports.map Report.id).Nodup
  audits : w.audits = w.log.flatMap fun e => e.writes.filterMap Write.audit?
  outbox : w.outbox = w.log.flatMap fun e => e.writes.filterMap Write.event?
  shapes : ∀ e ∈ w.log, ∃ r ∈ w.reports, r.id = e.job.report ∧
    Shape r.targetQuizSetId r.targetUserId e.writes e.job

structure Rely (pid : Nat) (w v : World) : Prop where
  tx : v.tx pid = w.tx pid
  holding : v.holding pid = w.holding pid
  log : w.log ⊆ v.log
  reports : ∀ r ∈ w.reports, ∃ r' ∈ v.reports, SameTarget r r'

def Req (pid : Nat) (job : Job) (w : World) : Op → Prop
  | .getReport i => i = job.report
  | .commit => w.holding pid = some job.report ∧ ∃ r ∈ w.reports, r.id = job.report ∧
    Shape r.targetQuizSetId r.targetUserId (w.tx pid) job
  | _ => True

def contract : Contract World Op Exn ModerationStatus Job where
  inv := Inv
  rely := Rely
  req := Req
  post pid job r w := ∀ a, r = .ok a → ∃ ws, ⟨pid, job, ws⟩ ∈ w.log

section

variable {w v : World} {job : Job} {pid n : Nat} {o : Op} {d : Decision} {out : Answer o}

theorem Rely.refl (pid : Nat) (w : World) : Rely pid w w :=
  ⟨rfl, rfl, fun _ h => h, fun r hr => ⟨r, hr, rfl, rfl, rfl⟩⟩

theorem Rely.trans {u : World} (h : Rely pid w v) (h' : Rely pid v u) : Rely pid w u := by
  refine ⟨h'.tx.trans h.tx, h'.holding.trans h.holding, fun e he => h'.log (h.log he), fun r hr => ?_⟩
  obtain ⟨r₁, hr₁, hId₁, hQuiz₁, hUser₁⟩ := h.reports r hr
  obtain ⟨r₂, hr₂, hId₂, hQuiz₂, hUser₂⟩ := h'.reports r₁ hr₁
  exact ⟨r₂, hr₂, hId₂.trans hId₁, hQuiz₂.trans hQuiz₁, hUser₂.trans hUser₁⟩

/-- The tables after the statements of a transaction. -/
structure Applied (ws : List Write) (w v : World) : Prop where
  audits : v.audits = w.audits ++ ws.filterMap Write.audit?
  outbox : v.outbox = w.outbox ++ ws.filterMap Write.event?
  ids : v.reports.map Report.id = w.reports.map Report.id
  reports : ∀ r ∈ w.reports, ∃ r' ∈ v.reports, SameTarget r r'
  tx : v.tx = w.tx
  holding : v.holding = w.holding
  log : v.log = w.log

theorem reports_apply (wr : Write) (w : World) : ∃ f : Report → Report,
    (wr.apply w).reports = w.reports.map f ∧ ∀ r, SameTarget r (f r) := by
  cases wr with
  | review i status reviewer at' =>
    refine ⟨_, rfl, fun r => ?_⟩
    split <;> exact ⟨rfl, rfl, rfl⟩
  | _ => exact ⟨id, (List.map_id _).symm, fun r => ⟨rfl, rfl, rfl⟩⟩

theorem applied (ws : List Write) (w : World) :
    Applied ws w (Transactions.applyAll Write.apply ws w) where
  audits := by
    refine Transactions.applyAll_appends (g := World.audits) fun wr w => ?_
    cases wr <;> simp [Write.apply, Write.audit?]
  outbox := by
    refine Transactions.applyAll_appends (g := World.outbox) fun wr w => ?_
    cases wr <;> simp [Write.apply, Write.event?]
  ids := by
    refine Transactions.applyAll_same (g := fun w : World => w.reports.map Report.id) fun wr _ w => ?_
    obtain ⟨f, hMap, hSame⟩ := reports_apply wr w
    rw [hMap, List.map_map]
    exact List.map_congr_left fun r _ => (hSame r).1
  reports := by
    intro r hr
    refine Transactions.applyAll_keeps (P := fun v : World => ∃ r' ∈ v.reports, SameTarget r r')
      (fun wr _ v hv => ?_) ⟨r, hr, rfl, rfl, rfl⟩
    obtain ⟨r', hr', hId, hQuiz, hUser⟩ := hv
    obtain ⟨f, hMap, hSame⟩ := reports_apply wr v
    obtain ⟨hId', hQuiz', hUser'⟩ := hSame r'
    rw [hMap]
    exact ⟨f r', List.mem_map_of_mem hr', hId'.trans hId, hQuiz'.trans hQuiz, hUser'.trans hUser⟩
  tx := Transactions.applyAll_same (g := fun w : World => w.tx) fun wr _ w => by cases wr <;> rfl
  holding := Transactions.applyAll_same (g := World.holding) fun wr _ w => by cases wr <;> rfl
  log := Transactions.applyAll_same (g := World.log) fun wr _ w => by cases wr <;> rfl

/-- The world after a COMMIT. -/
structure Committed (pid : Nat) (job : Job) (w v : World) : Prop where
  audits : v.audits = w.audits ++ (w.tx pid).filterMap Write.audit?
  outbox : v.outbox = w.outbox ++ (w.tx pid).filterMap Write.event?
  ids : v.reports.map Report.id = w.reports.map Report.id
  reports : ∀ r ∈ w.reports, ∃ r' ∈ v.reports, SameTarget r r'
  tx : v.tx = Function.update w.tx pid []
  holding : v.holding = Function.update w.holding pid none
  log : v.log = w.log ++ [⟨pid, job, w.tx pid⟩]

theorem committed (w : World) (job : Job) (pid : Nat) : Committed pid job w (w.commit job pid) := by
  have h := applied (w.tx pid) w
  refine ⟨h.audits, h.outbox, h.ids, h.reports, ?_, ?_, rfl⟩
  · simp only [World.commit, World.endTx, Transactions.Book.endTx_tx, h.tx]
  · simp only [World.commit, World.endTx, h.holding]

/-- The rows and the history of `v` are those of `w`. -/
structure SameRows (w v : World) : Prop where
  reports : v.reports = w.reports
  audits : v.audits = w.audits
  outbox : v.outbox = w.outbox
  log : v.log = w.log

def Op.quiet : Op → Bool
  | .getReport _ | .flush _ | .commit | .rollback => false
  | _ => true

theorem perform_quiet (ho : o.quiet = true) (h : perform w job pid o d = some out) : out.shared = w := by
  cases o with
  | getReport i => cases ho
  | flush ws => cases ho
  | commit => cases ho
  | rollback => cases ho
  | _ =>
    cases h
    rfl

theorem perform_flush {ws : List Write} {out : Answer (.flush ws)}
    (h : perform w job pid (.flush ws) d = some out) :
    (out = ⟨w, .error .integrity, none⟩) ∨ (out.result = .ok () ∧ SameRows w out.shared ∧
      out.shared.tx = Function.update w.tx pid (w.tx pid ++ ws) ∧ out.shared.holding = w.holding) := by
  simp only [perform] at h
  split at h
  · cases h
    exact .inl rfl
  · split at h
    · cases h
    · cases h
      exact .inr ⟨rfl, ⟨rfl, rfl, rfl, rfl⟩, rfl, rfl⟩

theorem hold_eq (w : World) (pid : Nat) (r : Option Report) : SameRows w (w.hold pid r) ∧
    (w.hold pid r).tx = w.tx ∧ ∀ q, q ≠ pid → (w.hold pid r).holding q = w.holding q := by
  unfold World.hold
  split
  · split
    · exact ⟨⟨rfl, rfl, rfl, rfl⟩, rfl, fun q hq => Function.update_of_ne hq _ _⟩
    · exact ⟨⟨rfl, rfl, rfl, rfl⟩, rfl, fun _ _ => rfl⟩
  · exact ⟨⟨rfl, rfl, rfl, rfl⟩, rfl, fun _ _ => rfl⟩

theorem perform_cases (h : perform w job pid o d = some out) :
    (∀ q, q ≠ pid → out.shared.tx q = w.tx q ∧ out.shared.holding q = w.holding q) ∧
    (SameRows w out.shared ∨ (o = .commit ∧ Committed pid job w out.shared)) := by
  have hSame : out.shared = w → (∀ q, q ≠ pid → out.shared.tx q = w.tx q ∧
      out.shared.holding q = w.holding q) ∧
      (SameRows w out.shared ∨ (o = .commit ∧ Committed pid job w out.shared)) := by
    intro hEq
    rw [hEq]
    exact ⟨fun _ _ => ⟨rfl, rfl⟩, .inl ⟨rfl, rfl, rfl, rfl⟩⟩
  cases o with
  | getReport i =>
    cases h
    obtain ⟨hRows, hTx, hHolding⟩ := hold_eq w pid (w.reports.find? (·.id = i))
    exact ⟨fun q hq => ⟨congrFun hTx q, hHolding q hq⟩, .inl hRows⟩
  | flush ws =>
    obtain rfl | ⟨-, hRows, hTx, hHolding⟩ := perform_flush h
    · exact hSame rfl
    · refine ⟨fun q hq => ⟨?_, congrFun hHolding q⟩, .inl hRows⟩
      rw [hTx, Function.update_of_ne hq]
  | commit =>
    cases h
    have hC := committed w job pid
    refine ⟨fun q hq => ⟨?_, ?_⟩, .inr ⟨rfl, hC⟩⟩
    · rw [hC.tx, Function.update_of_ne hq]
    · rw [hC.holding, Function.update_of_ne hq]
  | rollback =>
    cases h
    refine ⟨fun q hq => ⟨?_, ?_⟩, .inl ⟨rfl, rfl, rfl, rfl⟩⟩
    · exact Function.update_of_ne hq _ _
    · exact Function.update_of_ne hq _ _
  | _ => exact hSame (perform_quiet rfl h)

theorem perform_spawned (h : perform w job pid o d = some out) : out.spawned = none := by
  cases o with
  | flush ws =>
    simp only [perform] at h
    split at h
    · cases h
      rfl
    · split at h <;> cases h
      rfl
  | _ =>
    cases h
    rfl

theorem SameRows.inv (h : SameRows w v) (hInv : Inv n w)
    (hIdle : ∀ q, n ≤ q → v.tx q = [] ∧ v.holding q = none) : Inv n v := by
  constructor
  · exact hIdle
  · rw [h.reports]
    exact hInv.keys
  · rw [h.audits, h.log]
    exact hInv.audits
  · rw [h.outbox, h.log]
    exact hInv.outbox
  · rw [h.log, h.reports]
    exact hInv.shapes

theorem Committed.inv (h : Committed pid job w v) (hInv : Inv n w) (hReq : Req pid job w .commit)
    (hIdle : ∀ q, n ≤ q → v.tx q = [] ∧ v.holding q = none) : Inv n v := by
  have hShape : ∀ e : Entry, (∃ r ∈ w.reports, r.id = e.job.report ∧
      Shape r.targetQuizSetId r.targetUserId e.writes e.job) →
      ∃ r ∈ v.reports, r.id = e.job.report ∧ Shape r.targetQuizSetId r.targetUserId e.writes e.job := by
    rintro e ⟨r, hr, hId, hShape⟩
    obtain ⟨r', hr', hId', hQuiz, hUser⟩ := h.reports r hr
    refine ⟨r', hr', hId'.trans hId, ?_⟩
    rw [hQuiz, hUser]
    exact hShape
  constructor
  · exact hIdle
  · rw [h.ids]
    exact hInv.keys
  · rw [h.audits, h.log, hInv.audits]
    simp
  · rw [h.outbox, h.log, hInv.outbox]
    simp
  · intro e he
    rw [h.log] at he
    obtain he | he := List.mem_append.mp he
    · exact hShape e (hInv.shapes e he)
    · rw [List.mem_singleton.mp he]
      exact hShape _ hReq.2

theorem exec_keeping (hInv : Inv n w) (hReq : Req pid job w o) (hPid : pid < n)
    (h : exec w job pid n o d = some out) :
    out.spawned = none ∧ Inv n out.shared ∧ ∀ q, q ≠ pid → Rely q w out.shared := by
  refine ⟨faulty_spawned h fun a => perform_spawned, ?_⟩
  obtain hEq | ⟨a, ha, -, hEq⟩ := faulty_shared h
  · rw [hEq]
    exact ⟨hInv, fun q _ => .refl q w⟩
  rw [hEq]
  obtain ⟨hOthers, hRows | ⟨rfl, hC⟩⟩ := perform_cases ha
  · have hIdle : ∀ q, n ≤ q → a.shared.tx q = [] ∧ a.shared.holding q = none := by
      intro q hq
      obtain ⟨hTx, hHolding⟩ := hOthers q (by omega)
      rw [hTx, hHolding]
      exact hInv.idle q hq
    refine ⟨hRows.inv hInv hIdle, fun q hq => ⟨(hOthers q hq).1, (hOthers q hq).2, ?_, ?_⟩⟩
    · rw [hRows.log]
      exact fun _ h => h
    · rw [hRows.reports]
      exact fun r hr => ⟨r, hr, rfl, rfl, rfl⟩
  · have hIdle : ∀ q, n ≤ q → a.shared.tx q = [] ∧ a.shared.holding q = none := by
      intro q hq
      obtain ⟨hTx, hHolding⟩ := hOthers q (by omega)
      rw [hTx, hHolding]
      exact hInv.idle q hq
    refine ⟨hC.inv hInv hReq hIdle, fun q hq => ⟨(hOthers q hq).1, (hOthers q hq).2, ?_, hC.reports⟩⟩
    rw [hC.log]
    exact fun e he => List.mem_append_left _ he

theorem env_keeping {e : EnvAction} {res : World × Option Job} (hInv : Inv n w)
    (h : env w n e = some res) :
    Inv n res.1 ∧ (∀ q, Rely q w res.1) ∧ res.1.log = w.log ∧ res.1.holding = w.holding := by
  have hSame : ∀ v : World, SameRows w v → v.tx = w.tx → v.holding = w.holding →
      Inv n v ∧ (∀ q, Rely q w v) ∧ v.log = w.log ∧ v.holding = w.holding := by
    intro v hRows hTx hHolding
    refine ⟨hRows.inv hInv ?_, fun q => ⟨congrFun hTx q, congrFun hHolding q, ?_, ?_⟩, hRows.log, hHolding⟩
    · rw [hTx, hHolding]
      exact hInv.idle
    · rw [hRows.log]
      exact fun _ h => h
    · rw [hRows.reports]
      exact fun r hr => ⟨r, hr, rfl, rfl, rfl⟩
  cases e with
  | addReport i room user quiz =>
    simp only [env] at h
    split at h
    · cases h
    next hFresh =>
      cases h
      have hOld : ∀ r ∈ w.reports, r ∈ w.reports ++ [⟨i, room, user, quiz, .pending, none, none⟩] :=
        fun r hr => List.mem_append_left _ hr
      refine ⟨⟨hInv.idle, ?_, hInv.audits, hInv.outbox, fun e he => ?_⟩,
        fun q => ⟨rfl, rfl, fun _ h => h, fun r hr => ⟨r, hOld r hr, rfl, rfl, rfl⟩⟩, rfl, rfl⟩
      · rw [List.map_append, List.nodup_append]
        refine ⟨hInv.keys, List.nodup_singleton _, fun a ha b hb hab => ?_⟩
        obtain ⟨r, hr, rfl⟩ := List.mem_map.mp ha
        rw [List.map_singleton, List.mem_singleton] at hb
        exact hFresh (List.any_eq_true.mpr ⟨r, hr, decide_eq_true (hab.trans hb)⟩)
      · obtain ⟨r, hr, hRest⟩ := hInv.shapes e he
        exact ⟨r, hOld r hr, hRest⟩
  | _ =>
    cases h
    exact hSame _ ⟨rfl, rfl, rfl, rfl⟩ rfl rfl

end

section

variable {α : Type} {w : World} {job : Job} {pid : Nat} {report : Report} {ws : List Write}
  {Q : Except Exn α → World → Prop}

/-- The program has found the report pending, and its transaction holds these statements. -/
structure Doing (pid : Nat) (report : Report) (ws : List Write) (w : World) : Prop where
  tx : w.tx pid = ws
  holding : w.holding pid = some report.id
  row : ∃ r ∈ w.reports, SameTarget report r

theorem Doing.rely {v : World} (h : Doing pid report ws w) (hRely : Rely pid w v) :
    Doing pid report ws v := by
  obtain ⟨r, hr, hId, hQuiz, hUser⟩ := h.row
  obtain ⟨r', hr', hId', hQuiz', hUser'⟩ := hRely.reports r hr
  exact ⟨hRely.tx.trans h.tx, hRely.holding.trans h.holding,
    ⟨r', hr', hId'.trans hId, hQuiz'.trans hQuiz, hUser'.trans hUser⟩⟩

/-- Every call of the program from here on is fine, and so is every end. -/
abbrev Walk (pid : Nat) (job : Job) (p : Coro α) (Q : Except Exn α → World → Prop) (w : World) : Prop :=
  wp moderation contract pid job p Q w

theorem walk_call {o : Op} {f : o.Res → Coro α} (hErr : ∀ e v, Q (.error e) v)
    (h : ∀ w₁, Rely pid w w₁ → Req pid job w₁ o ∧ ∀ d out a, perform w₁ job pid o d = some out →
      out.result = .ok a → Walk pid job (f a) Q out.shared) :
    Walk pid job (ask o >>= f) Q w := by
  intro w₁ fresh _ hRely _
  obtain ⟨hReq, hNext⟩ := h w₁ hRely
  refine ⟨hReq, fun d out hExec => ?_⟩
  cases hRes : out.result with
  | ok a => exact hNext d out a (faulty_ok hExec hRes).2 hRes
  | error e => exact hErr e _

theorem walk_quiet {o : Op} {f : o.Res → Coro α} (hErr : ∀ e v, Q (.error e) v)
    (ho : o.quiet = true) (h : Doing pid report ws w)
    (hNext : ∀ a v d out, Doing pid report ws v → perform v job pid o d = some out →
      out.result = .ok a → Walk pid job (f a) Q v) :
    Walk pid job (ask o >>= f) Q w := by
  refine walk_call hErr fun w₁ hRely => ⟨?_, fun d out a hOk ha => ?_⟩
  · cases o <;> trivial
  · rw [perform_quiet ho hOk]
    exact hNext a w₁ d out (h.rely hRely) hOk ha

theorem walk_flush {ws' : List Write} {Q : Except Exn Unit → World → Prop}
    (hErr : ∀ e v, Q (.error e) v) (h : Doing pid report ws w)
    (hNext : ∀ v, Doing pid report (ws ++ ws') v → Q (.ok ()) v) :
    Walk pid job (ask (.flush ws')) Q w := by
  refine wp_perform fun w₁ fresh _ hRely _ => ⟨trivial, fun d out hExec => ?_⟩
  have hDoing := h.rely hRely
  cases hRes : out.result with
  | error e => exact hErr e _
  | ok a =>
    obtain rfl | ⟨-, hRows, hTx, hHolding⟩ := perform_flush (faulty_ok hExec hRes).2
    · cases hRes
    refine hNext _ ⟨?_, ?_, ?_⟩
    · rw [hTx, Function.update_self, hDoing.tx]
    · rw [hHolding]
      exact hDoing.holding
    · rw [hRows.reports]
      exact hDoing.row

theorem walk_applyDecision {decision : DecisionKind} {f : Change → Coro α}
    (hErr : ∀ e v, Q (.error e) v) (h : Doing pid report [] w)
    (hNext : ∀ change acts v, Action report.targetQuizSetId report.targetUserId acts decision →
      Doing pid report acts v → Walk pid job (f change) Q v) :
    Walk pid job (applyDecision report decision >>= f) Q w := by
  cases decision with
  | dismiss => exact hNext _ [] w rfl h
  | hide =>
    refine wp_bind ?_
    unfold applyDecision applyHide
    cases hQuiz : report.targetQuizSetId with
    | none => exact hErr _ _
    | some quizId =>
      refine walk_quiet (fun e v => hErr e v) rfl h fun row v d out hDoing hOk hRow => ?_
      cases row with
      | none => exact hErr _ _
      | some quiz =>
        cases hOk
        have hId : quiz.id = quizId := by simpa using List.find?_some (Except.ok.inj hRow)
        refine wp_bind (walk_flush (fun e v => hErr e v) hDoing fun u hDone => ?_)
        refine hNext _ _ u ?_ hDone
        rw [hQuiz, hId]
        exact ⟨quizId, _, _, _, rfl, rfl⟩
  | mute =>
    refine wp_bind ?_
    change Walk pid job (applyMute report) _ w
    unfold applyMute
    split
    · exact hErr _ _
    refine walk_quiet (fun e v => hErr e v) rfl h fun rows v _ _ hDoing _ _ => ?_
    refine wp_bind (walk_flush (fun e v => hErr e v) hDoing fun u hDone => ?_)
    exact hNext _ _ u ⟨_, rfl⟩ hDone
  | ban =>
    refine wp_bind ?_
    unfold applyDecision applyBan
    cases hUser : report.targetUserId with
    | none => exact hErr _ _
    | some userId =>
      refine walk_quiet (fun e v => hErr e v) rfl h fun row v d out hDoing hOk hRow => ?_
      cases row with
      | none => exact hErr _ _
      | some user =>
        cases hOk
        have hId : user.id = userId := by simpa using List.find?_some (Except.ok.inj hRow)
        refine wp_bind (walk_flush (fun e v => hErr e v) hDoing fun u hDone => ?_)
        refine hNext _ _ u ?_ hDone
        rw [hUser, hId]
        exact ⟨userId, rfl, rfl⟩

theorem walk_record {m : Id} {decision : DecisionKind} {reason : Option String} {change : Change}
    {acts : List Write} {f : Unit → Coro α} (hErr : ∀ e v, Q (.error e) v)
    (hAction : Action report.targetQuizSetId report.targetUserId acts decision)
    (h : Doing pid report acts w)
    (hNext : ∀ ws v, Doing pid report ws v → Shape report.targetQuizSetId report.targetUserId ws
      (.decide m report.id decision reason) → Walk pid job (f ()) Q v) :
    Walk pid job (record m report decision reason change >>= f) Q w := by
  refine wp_bind ?_
  refine walk_quiet (fun e v => hErr e v) rfl h fun now v₁ _ _ h₁ _ _ => ?_
  refine wp_bind (walk_flush (fun e v => hErr e v) h₁ fun v₂ h₂ => ?_)
  refine walk_quiet (fun e v => hErr e v) rfl h₂ fun auditId v₃ _ _ h₃ _ _ => ?_
  refine wp_bind (walk_flush (fun e v => hErr e v) h₃ fun v₄ h₄ => ?_)
  refine walk_quiet (fun e v => hErr e v) rfl h₄ fun eventId v₅ _ _ h₅ _ _ => ?_
  refine walk_quiet (fun e v => hErr e v) rfl h₅ fun occurredAt v₆ _ _ h₆ _ _ => ?_
  refine walk_flush (fun e v => hErr e v) h₆ fun v₇ h₇ => ?_
  refine hNext _ v₇ h₇ ⟨acts, now,
    ⟨auditId, m, "moderation.decide." ++ decision.value, report.id, ⟨decision, reason, change⟩⟩,
    ⟨eventId, report.id, decision, reason, m, newStatus decision, ⟨decision, reason, change⟩, occurredAt⟩,
    ?_, hAction, ⟨rfl, rfl, rfl⟩, ⟨rfl, rfl, rfl, rfl, rfl⟩⟩
  simp only [List.append_assoc, List.cons_append, List.nil_append]

theorem walk_broadcastKicks {i : Id} {targets : List (String × Id)} {e : Entry}
    {Q : Except Exn Unit → World → Prop} (hErr : ∀ e v, Q (.error e) v) (he : e ∈ w.log)
    (hNext : ∀ v : World, e ∈ v.log → Q (.ok ()) v) :
    Walk pid job (broadcastKicks i targets) Q w := by
  induction targets generalizing w with
  | nil => exact hNext w he
  | cons target rest ih =>
    refine walk_call hErr fun w₁ hRely => ⟨trivial, fun d out a hOk ha => ?_⟩
    rw [perform_quiet rfl hOk]
    refine wp_bind (wp_handle (wp_perform fun w₂ fresh _ hRely' _ => ⟨trivial, fun d out hExec => ?_⟩))
    have hRest : Walk pid job (broadcastKicks i rest) Q out.shared := by
      refine ih ?_
      obtain hEq | ⟨a, hOk, -, hEq⟩ := faulty_shared hExec
      · rw [hEq]
        exact hRely'.log (hRely.log he)
      · rw [hEq, perform_quiet rfl hOk]
        exact hRely'.log (hRely.log he)
    cases out.result with
    | ok u => exact hRest
    | error e => exact hRest

theorem walk_inSession {p : Coro α} (hErr : ∀ e v, Q (.error e) v) (h : Walk pid job p Q w) :
    Walk pid job (inSession p) Q w := by
  refine wp_session (wp_mono h fun r v hr => ?_)
  cases r with
  | ok a => exact hr
  | error e => exact wp_perform fun _ _ _ _ _ => ⟨trivial, fun _ _ _ => hErr _ _⟩

end

section

variable {w : World} {pid : Nat}

theorem walk_decide (hIdle : w.tx pid = []) (job : Job) :
    Walk pid job (moderation.body job) (contract.post pid job) w := by
  obtain ⟨m, i, decision, reason⟩ := job
  have hErr : ∀ e v, contract.post pid (.decide m i decision reason) (.error e) v :=
    fun e v a ha => by cases ha
  refine walk_inSession hErr ?_
  refine walk_call hErr fun w₁ h₁ => ⟨rfl, fun d out row hOk hRow => ?_⟩
  cases hOk
  cases row with
  | none => exact hErr _ _
  | some report =>
    have hFind : w₁.reports.find? (·.id = i) = some report := Except.ok.inj hRow
    have hId : report.id = i := by simpa using List.find?_some hFind
    dsimp only
    split
    · exact hErr _ _
    next hStatus =>
      have hPending : report.status = .pending := not_not.mp hStatus
      have hHold : w₁.hold pid (some report) =
          { w₁ with holding := Function.update w₁.holding pid (some report.id) } := if_pos hPending
      have hDoing : Doing pid report [] (w₁.hold pid (w₁.reports.find? (·.id = i))) := by
        rw [hFind, hHold]
        refine ⟨h₁.tx.trans hIdle, Function.update_self _ _ _, report, ?_, rfl, rfl, rfl⟩
        exact List.mem_of_find?_eq_some hFind
      subst hId
      refine walk_applyDecision hErr hDoing fun change acts v₁ hAction hDone => ?_
      refine walk_record hErr hAction hDone fun ws v₂ hDone' hShape => ?_
      refine walk_call hErr fun v₃ h₃ => ?_
      have hAll := hDone'.rely h₃
      obtain ⟨r, hr, hIdR, hQuiz, hUser⟩ := hAll.row
      refine ⟨⟨hAll.holding, r, hr, hIdR, ?_⟩, fun d out a hOk _ => ?_⟩
      · rw [hAll.tx, hQuiz, hUser]
        exact hShape
      · cases hOk
        have hLog := (committed v₃ (.decide m report.id decision reason) pid).log
        refine wp_bind (walk_broadcastKicks (e := ⟨pid, .decide m report.id decision reason, v₃.tx pid⟩)
          (fun e v => hErr e v) ?_ ?_)
        · rw [hLog]
          exact List.mem_append_right _ (List.mem_singleton_self _)
        · intro v hMem a _
          exact ⟨_, hMem⟩

theorem sound : Sound moderation contract where
  rely_trans _ _ _ _ h h' := Rely.trans h h'
  rely_refl := Rely.refl
  post_rely pid job r w v h hRely := by
    intro a ha
    obtain ⟨ws, hMem⟩ := h a ha
    exact ⟨ws, hRely.log hMem⟩
  exec w job pid n o d out hInv hReq hPid hExec := by
    obtain ⟨hNone, hInv', hRely⟩ := exec_keeping hInv hReq hPid hExec
    refine ⟨?_, fun q _ hq => hRely q hq, fun t ht => ?_⟩
    · rw [hNone]
      exact hInv'
    · rw [hNone] at ht
      cases ht
  env w n e res hInv hEnv := by
    obtain ⟨hInv', hRely, -, -⟩ := env_keeping hInv hEnv
    refine ⟨⟨fun q hq => hInv'.idle q (by omega), hInv'.keys, hInv'.audits, hInv'.outbox, hInv'.shapes⟩,
      fun q _ => hRely q, fun t _ => walk_decide (hInv'.idle n (le_refl n)).1 t⟩

theorem kept_of_reach {C : SysState → SysLabel → Prop} {S : SysState}
    (h : moderation.Reach C initial S) : Kept moderation contract S := by
  refine sound.kept ⟨⟨fun _ _ => ⟨rfl, rfl⟩, ?_, rfl, rfl, fun _ he => by cases he⟩,
    fun _ _ hp => by cases hp⟩ h
  exact List.nodup_nil

end

def running (S : SysState) (pid : Nat) : Bool :=
  match S.procs[pid]? with
  | some ⟨_, .call _ _⟩ => true
  | _ => false

def Reviewed (r : Report) : Job → Prop
  | .decide m _ decision _ => r.status = newStatus decision ∧ r.reviewedBy = some m

structure Once (S : SysState) : Prop where
  alone : ∀ p q i, p ≠ q → running S p = true → running S q = true → S.shared.holding p = some i →
    S.shared.holding q ≠ some i
  undecided : ∀ p i, running S p = true → S.shared.holding p = some i →
    ∀ e ∈ S.shared.log, e.job.report ≠ i
  once : S.shared.log.Pairwise fun e e' => e.job.report ≠ e'.job.report
  reviewed : ∀ e ∈ S.shared.log, ∃ r ∈ S.shared.reports, r.id = e.job.report ∧ Reviewed r e.job

section

variable {S S' : SysState} {pid n : Nat} {t : Job} {o : Op} {d : Decision} {out : Answer o}
  {k : Except Exn o.Res → Coro ModerationStatus} {w : World}

theorem report_unique (hInv : Inv n w) {a b : Report} (ha : a ∈ w.reports) (hb : b ∈ w.reports)
    (hId : a.id = b.id) : a = b :=
  List.inj_on_of_nodup_map hInv.keys ha hb hId

theorem running_set {q : Nat} {v : World} {p : Coro ModerationStatus}
    (hProc : S.procs[pid]? = some ⟨t, .call o k⟩)
    (h : running ⟨v, S.procs.set pid ⟨t, p⟩⟩ q = true) : running S q = true := by
  by_cases hq : q = pid
  · subst hq
    simp [running, hProc]
  · simpa [running, List.getElem?_set_ne (Ne.symm hq)] using h

theorem Action.no_rows {quiz user : Option Id} {acts : List Write} {decision : DecisionKind}
    (h : Action quiz user acts decision) :
    acts.filterMap Write.audit? = [] ∧ acts.filterMap Write.event? = [] := by
  cases decision with
  | dismiss =>
    obtain rfl := h
    exact ⟨rfl, rfl⟩
  | hide =>
    obtain ⟨q, visibility, isPublished, version, -, rfl⟩ := h
    exact ⟨rfl, rfl⟩
  | mute =>
    obtain ⟨ids, rfl⟩ := h
    exact ⟨rfl, rfl⟩
  | ban =>
    obtain ⟨u, -, rfl⟩ := h
    exact ⟨rfl, rfl⟩

theorem Carries.rows {quiz user : Option Id} {ws acts : List Write} {m i : Id} {decision : DecisionKind}
    {reason : Option String} {at' : Micros} {a : AuditLog} {e : DecisionEvent}
    (h : Carries quiz user ws m i decision reason acts at' a e) :
    ws.filterMap Write.audit? = [a] ∧ ws.filterMap Write.event? = [e] := by
  obtain ⟨hAudit, hEvent⟩ := h.action.no_rows
  rw [h.writes, List.filterMap_append, List.filterMap_append, hAudit, hEvent]
  exact ⟨rfl, rfl⟩

end

namespace Demo

def calls (pid k value : Nat) : List SysLabel := List.replicate k (.op pid { value := value })

def opened : List SysLabel :=
  [.env (.addReport 5 none (some 9) (some 4)), .env (.putQuizzes [⟨4, .pub, true, 1⟩]),
    .env (.request (.decide 1 5 .hide none)), .env (.request (.decide 2 5 .dismiss none))]

def inTurn : List SysLabel := opened ++ calls 0 11 100 ++ calls 1 2 200

def together : List SysLabel := opened ++ calls 0 1 100 ++ calls 1 1 200 ++ calls 0 10 100 ++ calls 1 8 200

end Demo

def outcome (S : SysState) (pid : Nat) : Option (Job × Option ModerationStatus) :=
  match S.procs[pid]? with
  | some ⟨t, .done (.ok st)⟩ => some (t, some st)
  | some ⟨t, .done (.error _)⟩ => some (t, none)
  | _ => none

end LiveQuiz.Moderation
