import LiveQuiz.Service.Analytics
import Mathlib.Algebra.Order.BigOperators.Group.List

/-! # The two bodies of the analytics

ClickHouse groups the answers, Postgres the questions of the match. On a question both
compute the same entry; the lists are the same when both group by the same questions.
-/

namespace LiveQuiz.Analytics

open LiveQuiz.Stream (AnswerEventsRow Outside percent truncate average timesRow)

set_option autoImplicit false

/-- The question that a submission answers. -/
def Tables.questionOf (t : Tables) (s : AnswerSubmission) : Id :=
  ((t.matchQuestions.find? (·.id = s.matchQuestionId)).map (·.questionId)).getD 0

def Tables.answersTo (t : Tables) (m : Id) (q : Int) : List AnswerSubmission :=
  t.submissions.filter fun s => s.matchId = m ∧ (t.questionOf s : Int) = q

/-- `answer_events` holds one row for each submission of the match, with the same
question, correctness and response time. -/
def Mirrored (t : Tables) (c : ClickHouse) (m : Id) : Prop :=
  ((c.answerEvents.filter (·.matchId = (m : Int))).map fun e =>
      (e.questionId, e.isCorrect, e.responseTimeMs)).Perm
    ((t.submissions.filter (·.matchId = m)).map fun s =>
      ((t.questionOf s : Int), if s.isCorrect then 1 else 0, s.responseTimeMs))

instance (t : Tables) (c : ClickHouse) (m : Id) : Decidable (Mirrored t c m) :=
  inferInstanceAs (Decidable (List.Perm _ _))

theorem mem_groupIds {ids : List Int} {q : Int} : q ∈ groupIds ids ↔ q ∈ ids := by
  rw [groupIds, List.mem_insertionSort, List.mem_dedup]

theorem groupIds_sorted (ids : List Int) : (groupIds ids).Pairwise (· ≤ ·) :=
  List.pairwise_insertionSort _ _

theorem groupIds_nodup (ids : List Int) : (groupIds ids).Nodup :=
  (List.perm_insertionSort _ _).nodup_iff.mpr (List.nodup_dedup ids)

theorem groupIds_eq_iff {ids ids' : List Int} :
    groupIds ids = groupIds ids' ↔ ∀ q, q ∈ ids ↔ q ∈ ids' := by
  constructor
  · intro h q
    rw [← mem_groupIds, h, mem_groupIds]
  · intro h
    have hPerm : (groupIds ids).Perm (groupIds ids') := by
      apply (List.perm_ext_iff_of_nodup (groupIds_nodup ids) (groupIds_nodup ids')).mpr
      intro q
      rw [mem_groupIds, mem_groupIds, h]
    exact hPerm.eq_of_pairwise (fun _ _ _ _ => le_antisymm) (groupIds_sorted ids)
      (groupIds_sorted ids')

section

variable {t : Tables} {c : ClickHouse} {m : Id}

theorem Tables.questionOf_eq {s : AnswerSubmission} {q : MatchQuestion}
    (hq : q ∈ t.matchQuestions) (hId : q.id = s.matchQuestionId) :
    t.questionOf s = q.questionId := by
  have hFind : t.matchQuestions.find? (·.id = s.matchQuestionId) = some q := by
    cases hFound : t.matchQuestions.find? (·.id = s.matchQuestionId) with
    | none =>
      have hNone := List.find?_eq_none.mp hFound q hq
      simp [hId] at hNone
    | some q' =>
      have hId' : q'.id = s.matchQuestionId := by simpa using List.find?_some hFound
      have hSame := List.inj_on_of_nodup_map t.questionKey (List.mem_of_find?_eq_some hFound) hq
        (hId'.trans hId.symm)
      rw [hSame]
  rw [Tables.questionOf, hFind]
  rfl

theorem joinedOn_group (q : MatchQuestion) (x : Int) :
    ((t.joinedOn q).filter fun r => (r.1 : Int) = x).filterMap (·.2) =
      if (q.questionId : Int) = x then t.submissions.filter (·.matchQuestionId = q.id) else [] := by
  unfold Tables.joinedOn
  by_cases hNil : t.submissions.filter (·.matchQuestionId = q.id) = []
  · simp only [hNil, if_true, ite_self]
    by_cases hx : (q.questionId : Int) = x <;> simp [hx]
  · simp only [hNil, if_false]
    by_cases hx : (q.questionId : Int) = x
    · rw [if_pos hx, List.filter_map, List.filterMap_map, List.filter_eq_self.mpr (by simp [hx])]
      exact List.filterMap_some
    · rw [if_neg hx, List.filter_map, List.filter_eq_nil_iff.mpr (by simp [hx])]
      rfl

theorem mem_answersTo {s : AnswerSubmission} (hs : s ∈ t.submissions) (x : Int) :
    s.matchQuestionId ∈ ((t.matchQuestions.filter (·.matchId = m)).filter
        fun q => (q.questionId : Int) = x).map (·.id) ↔
      s.matchId = m ∧ (t.questionOf s : Int) = x := by
  obtain ⟨q, hq, hId, hMatch⟩ := t.answered s hs
  rw [Tables.questionOf_eq hq hId, ← hMatch]
  constructor
  · intro h
    obtain ⟨q', hq', hId'⟩ := List.mem_map.mp h
    simp only [List.mem_filter, decide_eq_true_eq] at hq'
    obtain rfl := List.inj_on_of_nodup_map t.questionKey hq'.1.1 hq (hId'.trans hId.symm)
    exact ⟨hq'.1.2, hq'.2⟩
  · rintro ⟨hm, hx⟩
    apply List.mem_map.mpr
    exact ⟨q, by simp [hq, hm, hx], hId⟩

theorem joined_group (x : Int) (qs : List MatchQuestion) :
    ((qs.flatMap t.joinedOn).filter fun r => (r.1 : Int) = x).filterMap (·.2) =
      ((qs.filter fun q => (q.questionId : Int) = x).map (·.id)).flatMap
        fun i => t.submissions.filter (·.matchQuestionId = i) := by
  induction qs with
  | nil => rfl
  | cons q qs ih =>
    rw [List.flatMap_cons, List.filter_append, List.filterMap_append, joinedOn_group, ih]
    by_cases hx : (q.questionId : Int) = x
    · rw [if_pos hx, List.filter_cons_of_pos (by simpa using hx), List.map_cons, List.flatMap_cons]
    · rw [if_neg hx, List.filter_cons_of_neg (by simpa using hx), List.nil_append]

theorem group_perm (x : Int) :
    (((t.joined m).filter fun r => (r.1 : Int) = x).filterMap (·.2)).Perm (t.answersTo m x) := by
  have hKeys : (((t.matchQuestions.filter (·.matchId = m)).filter
      fun q => (q.questionId : Int) = x).map (·.id)).Nodup :=
    t.questionKey.sublist ((List.filter_sublist.trans List.filter_sublist).map _)
  rw [Tables.joined, joined_group]
  refine (Grouping.flatMap_groups AnswerSubmission.matchQuestionId hKeys t.submissions).trans ?_
  refine List.Perm.of_eq (List.filter_congr fun s hs => ?_)
  exact decide_eq_decide.mpr (mem_answersTo hs x)

theorem mem_joined {x : Int} :
    x ∈ (t.joined m).map (fun r => (r.1 : Int)) ↔
      ∃ q ∈ t.matchQuestions, q.matchId = m ∧ (q.questionId : Int) = x := by
  have hOn : ∀ q : MatchQuestion, ∀ r ∈ t.joinedOn q, r.1 = q.questionId := by
    intro q r hr
    dsimp only [Tables.joinedOn] at hr
    split at hr
    · rw [List.mem_singleton.mp hr]
    · obtain ⟨s, -, rfl⟩ := List.mem_map.mp hr
      rfl
  have hSome : ∀ q : MatchQuestion, ∃ r, r ∈ t.joinedOn q := by
    intro q
    apply List.exists_mem_of_ne_nil
    dsimp only [Tables.joinedOn]
    split
    · exact List.cons_ne_nil _ _
    next hOwn => exact fun hNil => hOwn (List.map_eq_nil_iff.mp hNil)
  constructor
  · intro h
    obtain ⟨r, hr, hx⟩ := List.mem_map.mp h
    obtain ⟨q, hq, hr⟩ := List.mem_flatMap.mp hr
    simp only [List.mem_filter, decide_eq_true_eq] at hq
    exact ⟨q, hq.1, hq.2, by rw [← hOn q r hr, hx]⟩
  · rintro ⟨q, hq, hm, hx⟩
    obtain ⟨r, hr⟩ := hSome q
    apply List.mem_map.mpr
    refine ⟨r, List.mem_flatMap.mpr ⟨q, by simp [hq, hm], hr⟩, ?_⟩
    rw [hOn q r hr, hx]

theorem mem_events {x : Int} :
    x ∈ (c.questionAccuracyMv.filter (·.matchId = (m : Int))).map (·.questionId) ↔
      eventsOn m x c.answerEvents ≠ [] := by
  have hRows : x ∈ (c.questionAccuracyMv.filter (·.matchId = (m : Int))).map (·.questionId) ↔
      rowsOn m x c.questionAccuracyMv ≠ [] := by
    constructor
    · intro h
      obtain ⟨r, hr, hx⟩ := List.mem_map.mp h
      simp only [List.mem_filter, decide_eq_true_eq] at hr
      have hOn : r ∈ rowsOn m x c.questionAccuracyMv := by simp [rowsOn, hr.1, hr.2, hx]
      exact List.ne_nil_of_mem hOn
    · intro h
      obtain ⟨r, hr⟩ := List.exists_mem_of_ne_nil _ h
      simp only [rowsOn, List.mem_filter, decide_eq_true_eq] at hr
      exact List.mem_map.mpr ⟨r, by simp [hr.1, hr.2.1], hr.2.2⟩
  have hTotal := c.total m x
  rw [hRows]
  constructor
  · intro hNe hNil
    have hPos : 0 < ((rowsOn m x c.questionAccuracyMv).map (·.totalAnswers)).sum := by
      apply List.sum_pos
      · intro n hn
        obtain ⟨r, hr, rfl⟩ := List.mem_map.mp hn
        exact c.counted r (List.mem_of_mem_filter hr)
      · simpa using hNe
    rw [hTotal, hNil] at hPos
    exact absurd hPos (by simp)
  · intro hNe hNil
    rw [hNil] at hTotal
    have hLength := List.length_pos_of_ne_nil hNe
    simp only [List.map_nil, List.sum_nil] at hTotal
    omega

theorem Mirrored.on (h : Mirrored t c m) (x : Int) :
    ((eventsOn m x c.answerEvents).map fun e => (e.isCorrect, e.responseTimeMs)).Perm
      ((t.answersTo m x).map fun s => (if s.isCorrect then 1 else 0, s.responseTimeMs)) := by
  have hOn := (h.filter fun k => k.1 = x).map (·.2)
  rw [List.filter_map, List.map_map, List.filter_filter, List.filter_map, List.map_map,
    List.filter_filter] at hOn
  simpa [eventsOn, Tables.answersTo, Function.comp_def, Bool.and_comm] using hOn

theorem Mirrored.length_eq (h : Mirrored t c m) (x : Int) :
    (eventsOn m x c.answerEvents).length = (t.answersTo m x).length := by
  simpa using (h.on x).length_eq

theorem Mirrored.correct_eq (h : Mirrored t c m) (x : Int) :
    correctOf (eventsOn m x c.answerEvents) =
      ((t.answersTo m x).map fun s => if s.isCorrect then (1 : Int) else 0).sum := by
  have hSum := ((h.on x).map fun k => (k.1 : Int)).sum_eq
  simpa [correctOf, Function.comp_def] using hSum

theorem Mirrored.times_eq (h : Mirrored t c m) (x : Int) :
    timesOf (eventsOn m x c.answerEvents) = ((t.answersTo m x).map (·.responseTimeMs)).sum := by
  have hSum := ((h.on x).map (·.2)).sum_eq
  simpa [timesOf, Function.comp_def] using hSum

/-- The entry of a question, of the number of its answers, of the correct ones and the
sum of their times. -/
def entry (x total correct times : Int) : QuestionAccuracy where
  questionId := x
  totalAnswers := total
  correctAnswers := correct
  accuracyPercent := percent correct total
  avgResponseMs := if total = 0 then 0 else truncate (times / total)

theorem clickhouse_entry (x : Int) :
    (accuracyRow c.questionAccuracyMv m x).accuracy =
      entry x (eventsOn m x c.answerEvents).length (correctOf (eventsOn m x c.answerEvents))
        (timesOf (eventsOn m x c.answerEvents)) := by
  rw [← c.total, ← c.correct, ← c.times]
  rfl

theorem postgres_entry (joined : List (Id × Option AnswerSubmission)) (x : Int)
    {answers : List AnswerSubmission}
    (hPerm : ((joined.filter fun r => (r.1 : Int) = x).filterMap (·.2)).Perm answers) :
    (questionRow joined x).accuracy =
      entry x answers.length (answers.map fun s => if s.isCorrect then (1 : Int) else 0).sum
        (answers.map (·.responseTimeMs)).sum := by
  rw [← hPerm.length_eq, ← (hPerm.map fun s => if s.isCorrect then (1 : Int) else 0).sum_eq,
    ← (hPerm.map (·.responseTimeMs)).sum_eq]
  unfold questionRow
  generalize (joined.filter fun r => (r.1 : Int) = x).filterMap (·.2) = own
  cases own with
  | nil => rfl
  | cons s own =>
    have hSome : ((s :: own).length : Int) ≠ 0 := by simp only [List.length_cons]; omega
    simp only [QuestionRow.accuracy, entry, if_neg hSome, if_neg (List.cons_ne_nil s own),
      Option.getD_some, average, List.length_map]
    rfl

/-- On a question the two entries are the same, whether or not it has answers. -/
theorem Mirrored.accuracy_eq (h : Mirrored t c m) (x : Int) :
    (accuracyRow c.questionAccuracyMv m x).accuracy = (questionRow (t.joined m) x).accuracy := by
  rw [clickhouse_entry, postgres_entry _ x (group_perm x), h.length_eq, h.correct_eq, h.times_eq]

theorem Mirrored.mem_events (h : Mirrored t c m) {x : Int} :
    x ∈ (c.questionAccuracyMv.filter (·.matchId = (m : Int))).map (·.questionId) ↔
      ∃ s ∈ t.submissions, s.matchId = m ∧ (t.questionOf s : Int) = x := by
  rw [Analytics.mem_events]
  have hLength := h.length_eq x
  constructor
  · intro hNe
    have hPos := List.length_pos_of_ne_nil hNe
    obtain ⟨s, hs⟩ := List.exists_mem_of_length_pos (hLength ▸ hPos)
    simp only [Tables.answersTo, List.mem_filter, decide_eq_true_eq] at hs
    exact ⟨s, hs.1, hs.2⟩
  · rintro ⟨s, hs, hOn⟩ hNil
    have hMem : s ∈ t.answersTo m x := by simp [Tables.answersTo, hs, hOn]
    rw [hNil] at hLength
    exact absurd (List.length_pos_of_mem hMem) (by simp [← hLength])

def questionsOf (body : Body) : List Int := body.questionAccuracy.map (·.questionId)

theorem questionsOf_postgres :
    questionsOf (queryPostgres t m) = groupIds ((t.joined m).map fun r => (r.1 : Int)) := by
  simp only [questionsOf, queryPostgres, questionRows, List.map_map]
  exact List.map_id _

/-- What ClickHouse returns, but for the response times. -/
structure FromEvents (c : ClickHouse) (m : Id) (body : Body) : Prop where
  accuracy : body.questionAccuracy = (accuracyRows c.questionAccuracyMv m).map AccuracyRow.accuracy
  missed : body.mostMissedQuestions = mostMissed body.questionAccuracy
  total : body.totalAnswers =
    if (body.questionAccuracy.map (·.totalAnswers)).sum = 0
    then ((c.answerEvents.filter (·.matchId = (m : Int))).length : Int)
    else (body.questionAccuracy.map (·.totalAnswers)).sum

theorem queryClickhouse_of_none (L : Outside)
    (h : c.answerEvents.filter (·.matchId = (m : Int)) = []) :
    queryClickhouse L c m = .error .valueError := by
  unfold queryClickhouse
  rw [h]
  rfl

theorem queryClickhouse_of_some (L : Outside)
    (h : c.answerEvents.filter (·.matchId = (m : Int)) ≠ []) :
    ∃ body, queryClickhouse L c m = .ok body ∧ FromEvents c m body := by
  unfold queryClickhouse timesRow
  dsimp only
  rw [if_neg (by simpa using h)]
  exact ⟨_, rfl, rfl, rfl, rfl⟩

theorem FromEvents.questions {body : Body} (h : FromEvents c m body) :
    questionsOf body =
      groupIds ((c.questionAccuracyMv.filter (·.matchId = (m : Int))).map (·.questionId)) := by
  rw [questionsOf, h.accuracy, accuracyRows, List.map_map, List.map_map]
  exact List.map_id _

/-- Each listed question has an answer, so the sum is not zero. -/
theorem FromEvents.total_eq {body : Body} (h : FromEvents c m body)
    (hSome : c.answerEvents.filter (·.matchId = (m : Int)) ≠ []) :
    body.totalAnswers = (body.questionAccuracy.map (·.totalAnswers)).sum := by
  obtain ⟨e, he⟩ := List.exists_mem_of_ne_nil _ hSome
  have hOn : eventsOn m e.questionId c.answerEvents ≠ [] := by
    simp only [List.mem_filter, decide_eq_true_eq] at he
    have hMem : e ∈ eventsOn m e.questionId c.answerEvents := by simp [eventsOn, he]
    exact List.ne_nil_of_mem hMem
  have hPos : 0 < (body.questionAccuracy.map (·.totalAnswers)).sum := by
    rw [h.accuracy, accuracyRows, List.map_map, List.map_map]
    apply List.sum_pos
    · intro n hn
      obtain ⟨x, hx, rfl⟩ := List.mem_map.mp hn
      have hEvents := List.length_pos_of_ne_nil (mem_events.mp (mem_groupIds.mp hx))
      have hTotal := c.total m x
      show 0 < ((rowsOn m x c.questionAccuracyMv).map (·.totalAnswers)).sum
      omega
    · intro hNil
      have hGroup := mem_groupIds.mpr (mem_events.mpr hOn)
      rw [List.map_eq_nil_iff.mp hNil] at hGroup
      exact absurd hGroup List.not_mem_nil
  rw [h.total, if_neg (by omega)]

theorem Mirrored.questions_eq_iff (h : Mirrored t c m) {body : Body} (hBody : FromEvents c m body) :
    questionsOf body = questionsOf (queryPostgres t m) ↔
      ∀ q ∈ t.matchQuestions, q.matchId = m →
        ∃ s ∈ t.submissions, s.matchId = m ∧ t.questionOf s = q.questionId := by
  rw [hBody.questions, questionsOf_postgres, groupIds_eq_iff]
  constructor
  · intro hSame q hq hm
    have hListed := (hSame q.questionId).mpr (mem_joined.mpr ⟨q, hq, hm, rfl⟩)
    obtain ⟨s, hs, hsm, hEq⟩ := h.mem_events.mp hListed
    exact ⟨s, hs, hsm, by exact_mod_cast hEq⟩
  · intro hAnswered x
    rw [h.mem_events, mem_joined]
    constructor
    · rintro ⟨s, hs, hsm, hx⟩
      obtain ⟨q, hq, hId, hMatch⟩ := t.answered s hs
      exact ⟨q, hq, hMatch.trans hsm, by rw [← hx, Tables.questionOf_eq hq hId]⟩
    · rintro ⟨q, hq, hm, hx⟩
      obtain ⟨s, hs, hsm, hEq⟩ := hAnswered q hq hm
      exact ⟨s, hs, hsm, by rw [hEq, hx]⟩

theorem Mirrored.accuracies_eq (h : Mirrored t c m) {body : Body} (hBody : FromEvents c m body)
    (hSame : questionsOf body = questionsOf (queryPostgres t m)) :
    body.questionAccuracy = (queryPostgres t m).questionAccuracy := by
  rw [hBody.questions, questionsOf_postgres] at hSame
  rw [hBody.accuracy, accuracyRows, hSame, List.map_map]
  simp only [queryPostgres, questionRows, List.map_map]
  exact List.map_congr_left fun x _ => h.accuracy_eq x

theorem Mirrored.some_iff (h : Mirrored t c m) :
    c.answerEvents.filter (·.matchId = (m : Int)) ≠ [] ↔ ∃ s ∈ t.submissions, s.matchId = m := by
  have hLength := List.Perm.length_eq h
  rw [List.length_map, List.length_map] at hLength
  rw [← List.length_pos_iff, hLength, List.length_pos_iff_exists_mem]
  simp [List.mem_filter]

end

/-- `_query_clickhouse` and `_query_postgres` return the same question accuracies, the same
most missed questions and the same total exactly when the match has an answer and each
of its questions has one. -/
theorem analytics_agree_iff (L : Outside) (t : Tables) (c : ClickHouse) (m : Id)
    (h : Mirrored t c m) :
    (∃ body, queryClickhouse L c m = .ok body ∧
        body.questionAccuracy = (queryPostgres t m).questionAccuracy ∧
        body.mostMissedQuestions = (queryPostgres t m).mostMissedQuestions ∧
        body.totalAnswers = (queryPostgres t m).totalAnswers) ↔
      (∃ s ∈ t.submissions, s.matchId = m) ∧
        ∀ q ∈ t.matchQuestions, q.matchId = m →
          ∃ s ∈ t.submissions, s.matchId = m ∧ t.questionOf s = q.questionId := by
  constructor
  · rintro ⟨body, hOk, hAccuracy, -, -⟩
    have hSome : c.answerEvents.filter (·.matchId = (m : Int)) ≠ [] := by
      intro hNone
      rw [queryClickhouse_of_none L hNone] at hOk
      cases hOk
    obtain ⟨body', hOk', hBody⟩ := queryClickhouse_of_some L hSome
    rw [hOk] at hOk'
    cases hOk'
    refine ⟨h.some_iff.mp hSome, (h.questions_eq_iff hBody).mp ?_⟩
    rw [questionsOf, hAccuracy, questionsOf]
  · rintro ⟨hAnswer, hAnswered⟩
    have hSome := h.some_iff.mpr hAnswer
    obtain ⟨body, hOk, hBody⟩ := queryClickhouse_of_some L hSome
    have hSame := h.accuracies_eq hBody ((h.questions_eq_iff hBody).mpr hAnswered)
    refine ⟨body, hOk, hSame, ?_, ?_⟩
    · rw [hBody.missed, hSame]
      rfl
    · rw [hBody.total_eq hSome, hSame]
      rfl

namespace Demo

def outside : Outside where
  parseEnvelope := fun _ => .error .invalid
  intOfStr := fun _ => none
  quantile := fun _ xs => average xs

/-- Two questions of match 1, of which a participant has answered the given ones. -/
def tables (first second : Bool) : Tables where
  matchQuestions := [⟨10, 1, 100, 1, none, none, none⟩, ⟨11, 1, 101, 2, none, none, none⟩]
  submissions :=
    (if first then [⟨20, 1, 10, 5, [], true, 800, 1500, "a"⟩] else []) ++
      if second then [⟨21, 1, 11, 5, [], false, 0, 2500, "b"⟩] else []
  questionKey := by decide
  answered := by revert first second; decide

def events (first second : Bool) : ClickHouse :=
  (ClickHouse.empty.insert (if first then [⟨30, 1, 3, 5, 100, 1, 800, 1500, 7⟩] else [])).insert
    (if second then [⟨31, 1, 3, 5, 101, 0, 0, 2500, 8⟩] else [])

end Demo

theorem analytics_agree_iff_all_answered :
    ∃ body, queryClickhouse Demo.outside (Demo.events true true) 1 = .ok body ∧
      body.questionAccuracy = (queryPostgres (Demo.tables true true) 1).questionAccuracy ∧
      body.mostMissedQuestions = (queryPostgres (Demo.tables true true) 1).mostMissedQuestions ∧
      body.totalAnswers = (queryPostgres (Demo.tables true true) 1).totalAnswers :=
  (analytics_agree_iff Demo.outside (Demo.tables true true) (Demo.events true true) 1
    (by decide)).mpr (by decide)

/-- The second question has no answer: only Postgres lists it, as the most missed. -/
theorem unanswered_question_listed_by_one :
    Mirrored (Demo.tables true false) (Demo.events true false) 1 ∧
      ∃ body, queryClickhouse Demo.outside (Demo.events true false) 1 = .ok body ∧
        questionsOf body = [100] ∧
        questionsOf (queryPostgres (Demo.tables true false) 1) = [100, 101] ∧
        body.mostMissedQuestions.map (·.questionId) = [100] ∧
        (queryPostgres (Demo.tables true false) 1).mostMissedQuestions.map (·.questionId) =
          [101, 100] := by
  refine ⟨by decide, _, rfl, ?_⟩
  decide +kernel

end LiveQuiz.Analytics
