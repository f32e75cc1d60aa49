import LiveQuiz.Lib.Transactions
import LiveQuiz.Model.Faults
import LiveQuiz.Model.Quiz
import Mathlib.Data.List.Sort

/-! # The authoring tables and the list cache

The requests of a quiz's owner, the moderator's hiding and the cached list, statement by
statement. Reads see the committed rows and the transaction's own writes, and take no
lock; a written row and a claimed unique key stay locked until the transaction ends.
-/

namespace LiveQuiz.Authoring

open Coroutine

set_option autoImplicit false

structure Quiz where
  id : Id
  ownerId : Id
  title : String
  description : Option String
  visibility : QuizVisibility
  isPublished : Bool
  version : Nat
  createdAt : Micros
  deriving DecidableEq, Repr

/-- A `QuizPublished` row. -/
structure PublishedEvent where
  id : Id
  aggregateId : Id
  version : Nat
  ownerId : Id
  title : String
  occurredAt : Micros
  deriving DecidableEq, Repr

/-- `tags` are the `quiz_set_tags` rows, by the unique name of the tag. -/
structure Db where
  quizzes : List Quiz
  questions : List Question
  options : List AnswerOption
  tags : List (Id × String)
  events : List PublishedEvent
  deriving DecidableEq, Repr

/-- The columns an UPDATE sets: those that differ from the loaded row. -/
structure QuizPatch where
  title : Option String := none
  description : Option String := none
  visibility : Option QuizVisibility := none
  isPublished : Option Bool := none
  version : Option Nat := none
  deriving DecidableEq, Repr

structure QuestionPatch where
  position : Option Int := none
  body : Option String := none
  type : Option QuestionType := none
  timeLimitSeconds : Option Int := none
  points : Option Int := none
  explanation : Option String := none
  deriving DecidableEq, Repr

def QuizPatch.patch (p : QuizPatch) (z : Quiz) : Quiz :=
  { z with
    title := p.title.getD z.title
    description := p.description <|> z.description
    visibility := p.visibility.getD z.visibility
    isPublished := p.isPublished.getD z.isPublished
    version := p.version.getD z.version }

def QuestionPatch.patch (p : QuestionPatch) (q : Question) : Question :=
  { q with
    position := p.position.getD q.position
    body := p.body.getD q.body
    type := p.type.getD q.type
    timeLimitSeconds := p.timeLimitSeconds.getD q.timeLimitSeconds
    points := p.points.getD q.points
    explanation := p.explanation <|> q.explanation }

inductive Write where
  | insertQuiz (row : Quiz)
  | updateQuiz (id : Id) (patch : QuizPatch)
  | insertTags (quizSetId : Id) (names : List String)
  | deleteTags (quizSetId : Id) (names : List String)
  | insertQuestion (row : Question)
  | updateQuestion (quizSetId id : Id) (patch : QuestionPatch)
  | setPositions (quizSetId : Id) (rows : List (Id × Int))
  | deleteQuestion (id : Id)
  | insertOptions (rows : List AnswerOption)
  | deleteOptions (questionId : Id) (ids : List Id)
  | insertEvent (row : PublishedEvent)
  deriving DecidableEq, Repr

def moved (quizSetId : Id) (rows : List (Id × Int)) (q : Question) : Question :=
  if q.quizSetId = quizSetId then { q with position := (rows.lookup q.id).getD q.position } else q

def Write.apply : Write → Db → Db
  | .insertQuiz row, db => { db with quizzes := db.quizzes ++ [row] }
  | .updateQuiz i p, db => { db with quizzes := updateWhere Quiz.id i p.patch db.quizzes }
  | .insertTags i names, db => { db with tags := db.tags ++ names.map fun n => (i, n) }
  | .deleteTags i names, db => { db with tags := db.tags.filter fun t => ¬(t.1 = i ∧ t.2 ∈ names) }
  | .insertQuestion row, db => { db with questions := db.questions ++ [row] }
  | .updateQuestion _ i p, db =>
    { db with questions := updateWhere Question.id i p.patch db.questions }
  | .setPositions s rows, db => { db with questions := db.questions.map (moved s rows) }
  | .deleteQuestion i, db => { db with questions := db.questions.filter (·.id ≠ i) }
  | .insertOptions rows, db => { db with options := db.options ++ rows }
  | .deleteOptions i ids, db =>
    { db with options := db.options.filter fun o => ¬(o.questionId = i ∧ o.id ∈ ids) }
  | .insertEvent row, db => { db with events := db.events ++ [row] }

def applyAll (ws : List Write) (db : Db) : Db := Transactions.applyAll Write.apply ws db

def Db.questionsOf (db : Db) (quizSetId : Id) : List Question :=
  (db.questions.filter (·.quizSetId = quizSetId)).insertionSort (·.position ≤ ·.position)

def Db.optionsOf (db : Db) (questionIds : List Id) : List AnswerOption :=
  (db.options.filter (·.questionId ∈ questionIds)).insertionSort (·.position ≤ ·.position)

/-- The primary keys and the unique constraints. -/
def Db.unique (db : Db) : Bool :=
  decide (db.quizzes.map (·.id)).Nodup && decide (db.questions.map (·.id)).Nodup &&
  positionsUnique db.questions && decide (db.options.map (·.id)).Nodup &&
  decide (db.options.map fun o => (o.questionId, o.position)).Nodup && decide db.tags.Nodup &&
  decide (db.events.map (·.id)).Nodup

/-- A foreign key that would point nowhere. -/
def Write.dangles (db : Db) : Write → Bool
  | .deleteQuestion i => db.options.any (·.questionId = i)
  | .insertOptions rows => rows.any fun o => db.questions.all (·.id ≠ o.questionId)
  | _ => false

/-- An UPDATE or DELETE of the session whose row is gone. -/
def Write.stale (db : Db) : Write → Bool
  | .updateQuiz i _ => db.quizzes.all (·.id ≠ i)
  | .updateQuestion _ i _ => db.questions.all (·.id ≠ i)
  | _ => false

inductive Row where
  | quiz (id : Id)
  | question (id : Id)
  | position (quizSetId : Id) (position : Int)
  | option (id : Id)
  | slot (questionId : Id) (position : Int)
  | tag (quizSetId : Id) (name : String)
  | event (id : Id)
  deriving DecidableEq, Repr

def Write.rows : Write → List Row
  | .insertQuiz row => [.quiz row.id]
  | .updateQuiz i _ => [.quiz i]
  | .insertTags i names | .deleteTags i names => names.map (.tag i)
  | .insertQuestion row => [.question row.id, .position row.quizSetId row.position]
  | .updateQuestion s i p => .question i :: p.position.toList.map (.position s)
  | .setPositions s rows => rows.flatMap fun r => [.question r.1, .position s r.2]
  | .deleteQuestion i => [.question i]
  | .insertOptions rows => rows.flatMap fun o => [.option o.id, .slot o.questionId o.position]
  | .deleteOptions _ ids => ids.map .option
  | .insertEvent row => [.event row.id]

/-- The WHERE clause of a bulk UPDATE of positions. -/
structure Span where
  quizSetId : Id
  low : Int
  high : Option Int := none
  other : Option Id := none
  deriving DecidableEq, Repr

def Span.holds (s : Span) (q : Question) : Bool :=
  q.quizSetId = s.quizSetId ∧ s.low ≤ q.position ∧ s.high.all (q.position < ·) ∧ s.other.all (q.id ≠ ·)

/-- pg_trgm: the operator `%` between a title and a search text, and `similarity`. -/
structure Trigram where
  similarTo : String → String → Bool
  similarity : String → String → ℚ

structure Filter where
  q : Option String := none
  ownerId : Option Id := none
  tag : Option String := none
  limit : Nat := 20
  offset : Nat := 0
  deriving DecidableEq, Repr

/-- The hashed payload of `quiz_list_cache_key`. -/
structure Key where
  viewer : Option Id
  q : String
  ownerId : Option Id
  tag : String
  limit : Nat
  offset : Nat
  deriving DecidableEq, Repr

def quizListCacheKey (viewer : Option Id) (f : Filter) : Key where
  viewer := viewer.filter (· ≠ 0)
  q := f.q.getD ""
  ownerId := f.ownerId.filter (· ≠ 0)
  tag := f.tag.getD ""
  limit := f.limit
  offset := f.offset

structure Summary where
  id : Id
  title : String
  isPublished : Bool
  version : Nat
  questionCount : Nat
  deriving DecidableEq, Repr

structure Body where
  items : List Summary
  limit : Nat
  offset : Nat
  deriving DecidableEq, Repr

def Db.countQuestions (db : Db) (quizSetId : Id) : Nat :=
  (db.questions.filter (·.quizSetId = quizSetId)).length

def summary (z : Quiz) (questionCount : Nat) : Summary :=
  ⟨z.id, z.title, z.isPublished, z.version, questionCount⟩

section

variable (G : Trigram)

def Db.visible (db : Db) (viewer : Option Id) (f : Filter) (z : Quiz) : Bool :=
  (z.visibility = .pub ∧ z.isPublished ∨ viewer = some z.ownerId) ∧
  (f.q.filter (· ≠ "")).all (G.similarTo z.title) ∧
  f.ownerId.all (z.ownerId = ·) ∧ (f.tag.filter (· ≠ "")).all fun t => (z.id, t) ∈ db.tags

def listedBefore (f : Filter) (z z' : Quiz) : Bool :=
  match f.q.filter (· ≠ "") with
  | none => z'.createdAt ≤ z.createdAt
  | some q => G.similarity z'.title q < G.similarity z.title q ∨
    G.similarity z.title q = G.similarity z'.title q ∧ z'.createdAt ≤ z.createdAt

def Db.listForViewer (db : Db) (viewer : Option Id) (f : Filter) : List Summary :=
  let rows := (db.quizzes.filter (db.visible G viewer f)).insertionSort (listedBefore G f · ·)
  ((rows.drop f.offset).take f.limit).map fun z => summary z (db.countQuestions z.id)

end

structure QuizSetCreate where
  title : String
  description : Option String := none
  visibility : QuizVisibility := .priv
  tags : List String := []
  deriving DecidableEq, Repr

/-- `scans` bounds the SCAN calls of the request's invalidation; a request that needs more
does not return. -/
inductive Job where
  | list (viewer : Option Id) (f : Filter)
  | create (owner : Id) (payload : QuizSetCreate) (scans : Nat)
  | patch (owner quizSetId : Id) (payload : QuizSetUpdate) (scans : Nat)
  | publish (owner quizSetId : Id) (scans : Nat)
  | addQuestion (owner quizSetId : Id) (payload : QuestionCreate) (scans : Nat)
  | patchQuestion (owner questionId : Id) (payload : QuestionUpdate) (scans : Nat)
  | deleteQuestion (owner questionId : Id) (scans : Nat)
  | hide (quizSetId : Id)
  deriving DecidableEq, Repr

/-- What an invalidation still has to remove: nothing, as none is due; every key; or the
keys its SCAN has yet to return and those it has returned. -/
inductive Sweep where
  | idle
  | due
  | under (owed returned : List Key)
  deriving DecidableEq, Repr

def Sweep.without (ks : List Key) : Sweep → Sweep
  | .under owed returned => .under (owed.filter (· ∉ ks)) (returned.filter (· ∉ ks))
  | s => s

def Sweep.owed : Sweep → List Key
  | .under owed _ => owed
  | _ => []

def Sweep.returned : Sweep → List Key
  | .under _ returned => returned
  | _ => []

/-- The question and the options a program has read first. -/
structure First where
  question : Option Question := none
  options : Option (List AnswerOption) := none
  deriving DecidableEq, Repr

def First.readQuestion (f : First) (q : Option Question) : First := { f with question := f.question <|> q }

def First.readOptions (f : First) (os : List AnswerOption) : First :=
  { f with options := f.options <|> some os }

/-- `seen`, `loaded` and `first` are history variables: the quiz row, and the questions and
options, that a program has read last, and what it has read first. `log` are the programs that
have committed, in that order; a cached body is kept with the length the log had when its rows
were read. -/
structure World extends Transactions.Book (List Write) Row where
  db : Db
  cache : List (Key × Body × Nat)
  sweep : Nat → Sweep
  now : Micros
  seen : Nat → Option Quiz
  loaded : Nat → List Question × List AnswerOption
  first : Nat → First
  log : List Nat

inductive Op where
  | getQuiz (id : Id)
  | questionsOf (quizSetId : Id)
  | optionsOf (questionIds : List Id)
  | getQuestion (id : Id)
  | maxQuestionPosition (quizSetId : Id)
  | countQuestions (quizSetId : Id)
  | tagsOf (quizSetId : Id)
  | upsertTag (name : String)
  | within (span : Span)
  | shift (ids : List Id) (span : Span) (delta : Int)
  | flush (ws : List Write)
  | flag (quizSetId : Id)
  | commit
  | rollback
  | utcnow
  | nextId
  | listRows (viewer : Option Id) (f : Filter)
  | getCached (key : Key)
  | setCached (key : Key) (body : Body) (asOf : Nat)
  | scan (cursor : Nat)
  | unlink (keys : List Key)
  | stall
  deriving DecidableEq, Repr

@[reducible] def Op.Res : Op → Type
  | .getQuiz _ => Option Quiz
  | .questionsOf _ => List Question
  | .optionsOf _ => List AnswerOption
  | .getQuestion _ => Option Question
  | .maxQuestionPosition _ => Int
  | .countQuestions _ => Nat
  | .tagsOf _ => List String
  | .within _ => List Id
  | .utcnow => Micros
  | .nextId => Id
  | .listRows _ _ => List Summary × Nat
  | .getCached _ => Option (Body × Nat)
  | .scan _ => Nat × List Key
  | .stall => Nat
  | _ => Unit

def Op.fallible : Op → Bool
  | .utcnow | .rollback | .stall => false
  | _ => true

/-- The scheduler's choices: `value` is what the id generator draws or the cursor SCAN
answers, `keys` the keys of that answer. -/
structure Decision where
  fault : Fault := .none
  value : Nat := 0
  keys : List Key := []
  deriving DecidableEq, Repr

namespace World

def view (w : World) (pid : Nat) : Db := applyAll (w.tx pid) w.db

def endTx (w : World) (pid : Nat) : World :=
  { w with toBook := w.toBook.endTx [] pid }

/-- A committed change leaves its invalidation due, except that hiding has none. -/
def commit (w : World) (job : Job) (pid : Nat) : World :=
  { w.endTx pid with
    db := w.view pid
    log := w.log ++ [pid]
    sweep := Function.update w.sweep pid (match job with | .hide _ => .idle | _ => .due) }

def write (w : World) (pid : Nat) (ws : List Write) : World :=
  { w with toBook := (w.take pid fun row => ws.any (row ∈ ·.rows)).append pid ws }

def keys (w : World) : List Key := w.cache.map (·.1)

/-- A key that is removed is owed to no SCAN any more. -/
def remove (w : World) (ks : List Key) : World :=
  { w with
    cache := w.cache.filter (·.1 ∉ ks)
    sweep := fun q => (w.sweep q).without ks }

end World

abbrev Answer (o : Op) := Outcome World Job (Except Exn o.Res)

/-- The writes of one statement. -/
def statement (w : World) (pid : Nat) (ws : List Write) : Option (World × Except Exn Unit) :=
  if ws.any fun wr => wr.rows.any (w.heldByOther pid) then none
  else if ws.any (·.stale (w.view pid)) then some (w, .error .fault)
  else if ws.any (·.dangles (w.view pid)) then some (w, .error .integrity)
  else if (applyAll ws (w.view pid)).unique then some (w.write pid ws, .ok ())
  else some (w, .error .integrity)

/-- SCAN answers keys that are there, and ends its iteration only when every key that was
there throughout has been answered. -/
def scanned (w : World) (pid cursor next : Nat) (batch : List Key) : Option World :=
  let owed := (if cursor = 0 then w.keys else (w.sweep pid).owed).filter (· ∉ batch)
  if batch.all (· ∈ w.keys) ∧ (next = 0 → owed = []) then
    some { w with sweep := Function.update w.sweep pid (.under owed ((w.sweep pid).returned ++ batch)) }
  else none

def perform (G : Trigram) (w : World) (job : Job) (pid : Nat) : (o : Op) → Decision → Option (Answer o)
  | .getQuiz i, _ =>
    let z := (w.view pid).quizzes.find? (·.id = i)
    some ⟨{ w with seen := Function.update w.seen pid z }, .ok z, none⟩
  | .questionsOf i, _ =>
    let qs := (w.view pid).questionsOf i
    some ⟨{ w with loaded := Function.update w.loaded pid (qs, []) }, .ok qs, none⟩
  | .optionsOf is, _ =>
    let os := (w.view pid).optionsOf is
    some ⟨{ w with
      loaded := Function.update w.loaded pid ((w.loaded pid).1, os)
      first := Function.update w.first pid ((w.first pid).readOptions os) }, .ok os, none⟩
  | .getQuestion i, _ =>
    let q := (w.view pid).questions.find? (·.id = i)
    some ⟨{ w with first := Function.update w.first pid ((w.first pid).readQuestion q) }, .ok q, none⟩
  | .maxQuestionPosition i, _ => some ⟨w, .ok (LiveQuiz.maxQuestionPosition i (w.view pid).questions), none⟩
  | .countQuestions i, _ => some ⟨w, .ok ((w.view pid).countQuestions i), none⟩
  | .tagsOf i, _ => some ⟨w, .ok (((w.view pid).tags.filter (·.1 = i)).map (·.2)), none⟩
  | .upsertTag _, _ => some ⟨w, .ok (), none⟩
  | .within s, _ => some ⟨w, .ok (((w.view pid).questions.filter s.holds).map (·.id)), none⟩
  | .shift ids s delta, _ =>
    let hit := (w.view pid).questions.filter fun q => q.id ∈ ids ∧ s.holds q
    if ids.any fun i => w.heldByOther pid (.question i) then none
    else (statement w pid [.setPositions s.quizSetId (hit.map fun q => (q.id, q.position + delta))]).map
      fun (w', r) => ⟨w', r, none⟩
  | .flush ws, _ => (statement w pid ws).map fun (w', r) => ⟨w', r, none⟩
  | .flag _, _ => some ⟨w, .ok (), none⟩
  | .commit, _ => some ⟨w.commit job pid, .ok (), none⟩
  | .rollback, _ => some ⟨w.endTx pid, .ok (), none⟩
  | .utcnow, _ => some ⟨w, .ok w.now, none⟩
  | .nextId, d => some ⟨w, .ok d.value, none⟩
  | .listRows v f, _ => some ⟨w, .ok ((w.view pid).listForViewer G v f, w.log.length), none⟩
  | .getCached k, _ => some ⟨w, .ok (w.cache.lookup k), none⟩
  | .setCached k body asOf, _ =>
    some ⟨{ w with cache := (k, body, asOf) :: w.cache.filter (·.1 ≠ k) }, .ok (), none⟩
  | .scan cursor, d => (scanned w pid cursor d.value d.keys).map fun w' => ⟨w', .ok (d.value, d.keys), none⟩
  | .unlink ks, _ => some ⟨w.remove ks, .ok (), none⟩
  | .stall, _ => none

def exec (G : Trigram) (w : World) (job : Job) (pid _fresh : Nat) (o : Op) (d : Decision) : Option (Answer o) :=
  faulty d.fault o.fallible w (perform G w job pid o d)

/-- A cached key expires, or is evicted, at any time. -/
inductive EnvAction where
  | tick (dt : Nat)
  | request (job : Job)
  | expire (key : Key)
  deriving DecidableEq, Repr

def env (w : World) (_fresh : Nat) : EnvAction → Option (World × Option Job)
  | .tick dt => some ({ w with now := w.now + dt }, none)
  | .request j => some (w, some j)
  | .expire k => some (w.remove [k], none)

end LiveQuiz.Authoring
