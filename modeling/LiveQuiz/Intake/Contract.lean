import LiveQuiz.Intake.Service
import LiveQuiz.Lib.Triple

/-! # What a filing transaction writes

A request commits one report for everything it has to file, each with its event, and nothing
that it has not loaded.
-/

namespace LiveQuiz.Intake

open Coroutine

set_option autoImplicit false

/-- The event tells of the report. -/
structure Announces (r : ModerationReport) (e : OutboxEvent) : Prop where
  type : e.aggregateType = "moderation"
  aggregate : e.aggregateId = r.id
  payload : (∃ reporter p, r.content = reportContent reporter p ∧ e.payload = reportedPayload r.id reporter p) ∨
    ∃ room user quiz source f, r.content = findingContent room user quiz source f ∧
      e.payload = flaggedPayload r.id r.content source f

/-- The events of the queue are those of its reports, in their order. -/
def InStep (rs : List ModerationReport) (es : List OutboxEvent) : Prop :=
  List.Forall₂ Announces rs (es.filter OutboxEvent.files)

structure Publication where
  quizSetId : Id
  version : Nat
  ownerId : Id
  title : String
  deriving DecidableEq, Repr

def OutboxEvent.published? (e : OutboxEvent) : Option Publication :=
  match e.payload with
  | .quizPublished i v owner title => some ⟨i, v, owner, title⟩
  | _ => none

def Write.report? : Write → Option ModerationReport
  | .report row => some row
  | _ => none

def Write.event? : Write → Option OutboxEvent
  | .event row => some row
  | _ => none

/-- The reports that a committed request has to file. -/
def Entry.filed (T : Text) (policy : Policy) (e : Entry) : List Content :=
  match e.job, e.seen with
  | .createReport reporter _ p, _ => [reportContent reporter p]
  | .publish _ _, some z =>
    (flatFlags T policy (fieldsToScan z e.loaded.1 e.loaded.2)).map
      (findingContent none none (some z.id) "quiz.publish")
  | .publish _ _, none => []

def Entry.published (e : Entry) : List Publication :=
  match e.job, e.seen with
  | .publish owner _, some z => [⟨z.id, z.version + 1, owner, z.title⟩]
  | _, _ => []

/-- A report has one target; a published quiz is the caller's, and has no issues. -/
def Entry.Admitted (e : Entry) : Prop :=
  match e.job with
  | .createReport _ _ p => p.setCount = 1
  | .publish owner i => ∃ z, e.seen = some z ∧ z.id = i ∧ z.ownerId = owner ∧
      Authoring.validatePublish e.loaded.1 e.loaded.2 = []

/-- The rows that have been inserted. -/
structure Filed (cs : List Content) (ps : List Publication) (rs : List ModerationReport)
    (es : List OutboxEvent) : Prop where
  inStep : InStep rs es
  contents : rs.map (·.content) = cs
  published : es.filterMap OutboxEvent.published? = ps

/-- What only the program itself changes. -/
structure Own where
  tx : List Write
  seen : Option Authoring.Quiz
  loaded : List Question × List AnswerOption

def World.own (pid : Nat) (w : World) : Own := ⟨w.tx pid, w.seen pid, w.loaded pid⟩

def Own.entry (job : Job) (x : Own) : Entry := ⟨job, x.seen, x.loaded⟩

def FiledIn (cs : List Content) (ps : List Publication) (ws : List Write) : Prop :=
  Filed cs ps (ws.filterMap Write.report?) (ws.filterMap Write.event?)

section

variable (T : Text) (policy : Policy)

def Ready (job : Job) (x : Own) : Prop :=
  FiledIn ((x.entry job).filed T policy) (x.entry job).published x.tx ∧ (x.entry job).Admitted

structure Inv (n : Nat) (w : World) : Prop where
  unstarted : ∀ q, n ≤ q → w.own q = ⟨[], none, ([], [])⟩
  filed : Filed (w.log.flatMap (Entry.filed T policy)) (w.log.flatMap Entry.published) w.db.reports w.db.outbox
  admitted : ∀ e ∈ w.log, e.Admitted

def Req (pid : Nat) (job : Job) (w : World) : Op → Prop
  | .commit => Ready T policy job (w.own pid)
  | _ => True

def contract : Contract World Op Exn Nat Job where
  inv := Inv T policy
  rely pid w v := v.own pid = w.own pid
  req := Req T policy
  post _ _ _ _ := True

end

section

variable {T : Text} {policy : Policy} {cs cs' : List Content} {ps ps' : List Publication}
  {rs rs' : List ModerationReport} {es es' : List OutboxEvent} {ws ws' : List Write} {db : Db}

theorem Filed.nil : Filed [] [] [] [] := ⟨.nil, rfl, rfl⟩

theorem Filed.append (h : Filed cs ps rs es) (h' : Filed cs' ps' rs' es') :
    Filed (cs ++ cs') (ps ++ ps') (rs ++ rs') (es ++ es') := by
  refine ⟨?_, ?_, ?_⟩
  · unfold InStep
    rw [List.filter_append]
    exact List.rel_append h.inStep h'.inStep
  · rw [List.map_append, h.contents, h'.contents]
  · rw [List.filterMap_append, h.published, h'.published]

theorem FiledIn.append (h : FiledIn cs ps ws) (h' : FiledIn cs' ps' ws') :
    FiledIn (cs ++ cs') (ps ++ ps') (ws ++ ws') := by
  unfold FiledIn
  rw [List.filterMap_append, List.filterMap_append]
  exact Filed.append h h'

theorem filed_report {r : ModerationReport} {e : OutboxEvent} (h : Announces r e) :
    FiledIn [r.content] [] [.report r, .event e] := by
  have hFiles : e.files = true ∧ e.published? = none := by
    unfold OutboxEvent.files OutboxEvent.published?
    obtain ⟨reporter, p, -, hPayload⟩ | ⟨room, user, quiz, source, f, -, hPayload⟩ := h.payload
    · rw [hPayload]
      exact ⟨rfl, rfl⟩
    · rw [hPayload]
      exact ⟨rfl, rfl⟩
  refine ⟨?_, rfl, ?_⟩
  · simp only [InStep, Write.report?, Write.event?, List.filterMap_cons, List.filterMap_nil,
      List.filter_cons, hFiles.1, if_true, List.filter_nil]
    exact .cons h .nil
  · simp [Write.event?, hFiles.2]

theorem filed_publish (i eventId : Id) (patch : Authoring.QuizPatch) (p : Publication) (now : Micros) :
    FiledIn [] [p] [.updateQuiz i patch,
      .event ⟨eventId, "quiz_set", p.quizSetId, .quizPublished p.quizSetId p.version p.ownerId p.title, now⟩] :=
  ⟨.nil, rfl, rfl⟩

theorem reports_applyAll (ws : List Write) (db : Db) :
    (applyAll ws db).reports = db.reports ++ ws.filterMap Write.report? ∧
      (applyAll ws db).outbox = db.outbox ++ ws.filterMap Write.event? := by
  constructor
  · refine Transactions.applyAll_appends (g := Db.reports) fun wr db => ?_
    cases wr <;> simp [Write.apply, Write.report?]
  · refine Transactions.applyAll_appends (g := Db.outbox) fun wr db => ?_
    cases wr <;> simp [Write.apply, Write.event?]

theorem Filed.applyAll (h : Filed cs ps db.reports db.outbox) (h' : FiledIn cs' ps' ws) :
    Filed (cs ++ cs') (ps ++ ps') (applyAll ws db).reports (applyAll ws db).outbox := by
  obtain ⟨hReports, hOutbox⟩ := reports_applyAll ws db
  rw [hReports, hOutbox]
  exact Filed.append h h'

theorem Filed.decide (h : Filed cs ps rs es) (i : Id) (status : Moderation.ModerationStatus) :
    Filed cs ps (updateWhere ModerationReport.id i (fun r => { r with status := status }) rs) es := by
  refine ⟨?_, ?_, h.published⟩
  · unfold InStep updateWhere
    rw [List.forall₂_map_left_iff]
    refine List.Forall₂.imp (fun r e hr => ?_) h.inStep
    split
    · exact ⟨hr.type, hr.aggregate, hr.payload⟩
    · exact hr
  · rw [← h.contents]
    unfold updateWhere
    rw [List.map_map]
    refine List.map_congr_left fun r _ => ?_
    simp only [Function.comp_apply]
    split <;> rfl

end

end LiveQuiz.Intake
