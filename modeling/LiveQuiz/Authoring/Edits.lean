import LiveQuiz.Authoring.Contract
import Mathlib.Data.List.Induction

/-! # What an edit of questions does to the tables

Its draft tells: the options are what its statements on options make of them, a question is
one that was there, with the changes of the patch, or the one that was added, and a quiz
that no statement is about keeps its questions and their options.
-/

namespace LiveQuiz.Authoring

set_option autoImplicit false

variable {job : Job} {wr : Write} {ws : List Write} {db db' : Db} {i j : Id} {q q' : Question}

theorem applyAll_append (ws ws' : List Write) (db : Db) :
    applyAll (ws ++ ws') db = applyAll ws' (applyAll ws db) := List.foldl_append

theorem options_apply (wr : Write) (h : db.options = db'.options) :
    (wr.apply db).options = (wr.apply db').options := by
  cases wr <;> simp only [Write.apply, h]

theorem options_applyAll (ws : List Write) (db : Db) :
    (applyAll ws db).options = (applyAll (draft ws).options db).options := by
  induction ws using List.reverseRecOn with
  | nil => rfl
  | append_singleton ws wr ih =>
    rw [applyAll_append, draft_append]
    cases wr with
    | insertOptions rows =>
      rw [Draft.step, applyAll_append]
      exact options_apply (.insertOptions rows) ih
    | deleteOptions i ids =>
      rw [Draft.step, applyAll_append]
      exact options_apply (.deleteOptions i ids) ih
    | _ => exact ih

/-- A question with the type an edit of the question `i` leaves it. -/
def Edited (i : Id) (d : Draft) (q q' : Question) : Prop :=
  q'.id = q.id ∧ q'.quizSetId = q.quizSetId ∧
    q'.type = if q.id = i then d.patch.type.getD q.type else q.type

theorem moved_keeps (s : Id) (rows : List (Id × Int)) (q : Question) : (moved s rows q).id = q.id ∧
    (moved s rows q).quizSetId = q.quizSetId ∧ (moved s rows q).type = q.type := by
  unfold moved
  split
  · exact ⟨rfl, rfl, rfl⟩
  · exact ⟨rfl, rfl, rfl⟩

theorem question_of_edit (hJob : ∀ owner i payload scans, job ≠ .patchQuestion owner i payload scans)
    (h : ∀ wr ∈ ws, job.may wr) (hq' : q' ∈ (applyAll ws db).questions) :
    ∃ q ∈ db.questions ++ (draft ws).added, q'.id = q.id ∧ q'.quizSetId = q.quizSetId ∧
      q'.type = q.type := by
  induction ws using List.reverseRecOn generalizing q' with
  | nil => exact ⟨q', List.mem_append_left _ hq', rfl, rfl, rfl⟩
  | append_singleton ws wr ih =>
    have hMay := h wr (List.mem_append_right _ (List.mem_singleton_self _))
    have ih := fun q' => @ih q' fun wr' hwr' => h wr' (List.mem_append_left _ hwr')
    rw [applyAll_append] at hq'
    rw [draft_append]
    cases wr with
    | insertQuestion row =>
      obtain hOld | hNew := List.mem_append.mp hq'
      · obtain ⟨q, hq, hSame⟩ := ih _ hOld
        refine ⟨q, ?_, hSame⟩
        rw [Draft.step, ← List.append_assoc]
        exact List.mem_append_left _ hq
      · rw [List.mem_singleton.mp hNew]
        refine ⟨row, ?_, rfl, rfl, rfl⟩
        rw [Draft.step, ← List.append_assoc]
        exact List.mem_append_right _ (List.mem_singleton_self _)
    | updateQuestion s k p =>
      cases job with
      | patchQuestion owner k payload scans => exact absurd rfl (hJob owner k payload scans)
      | _ => cases hMay
    | setPositions s rows =>
      obtain ⟨q₁, hq₁, rfl⟩ := List.mem_map.mp hq'
      obtain ⟨hId, hSet, hType⟩ := moved_keeps s rows q₁
      obtain ⟨q, hq, hId', hSet', hType'⟩ := ih _ hq₁
      exact ⟨q, hq, hId.trans hId', hSet.trans hSet', hType.trans hType'⟩
    | deleteQuestion k => exact ih _ (List.mem_filter.mp hq').1
    | _ => exact ih _ hq'

theorem question_of_patch {owner : Id} {payload : QuestionUpdate} {scans : Nat}
    (h : ∀ wr ∈ ws, (Job.patchQuestion owner i payload scans).may wr)
    (hq' : q' ∈ (applyAll ws db).questions) : ∃ q ∈ db.questions, Edited i (draft ws) q q' := by
  induction ws using List.reverseRecOn generalizing q' with
  | nil =>
    refine ⟨q', hq', rfl, rfl, ?_⟩
    split <;> rfl
  | append_singleton ws wr ih =>
    have hMay := h wr (List.mem_append_right _ (List.mem_singleton_self _))
    have ih := fun q' => @ih q' fun wr' hwr' => h wr' (List.mem_append_left _ hwr')
    rw [applyAll_append] at hq'
    rw [draft_append]
    cases wr with
    | updateQuestion s k p =>
      obtain rfl : k = i := hMay
      obtain ⟨q₁, hq₁, rfl⟩ := List.mem_map.mp hq'
      obtain ⟨q, hq, hId, hSet, hType⟩ := ih _ hq₁
      refine ⟨q, hq, ?_⟩
      split
      next hk =>
        have hqk : q.id = k := hId.symm.trans hk
        refine ⟨hId, hSet, ?_⟩
        rw [if_pos hqk] at hType ⊢
        change p.type.getD q₁.type = (p.type <|> (draft ws).patch.type).getD q.type
        rw [hType]
        cases p.type <;> rfl
      next hk =>
        have hqk : q.id ≠ k := fun hEq => hk (hId.trans hEq)
        refine ⟨hId, hSet, ?_⟩
        rw [if_neg hqk] at hType ⊢
        exact hType
    | setPositions s rows =>
      obtain ⟨q₁, hq₁, rfl⟩ := List.mem_map.mp hq'
      obtain ⟨hId, hSet, hType⟩ := moved_keeps s rows q₁
      obtain ⟨q, hq, hId', hSet', hType'⟩ := ih _ hq₁
      exact ⟨q, hq, hId.trans hId', hSet.trans hSet', hType.trans hType'⟩
    | insertQuestion row => cases hMay
    | deleteQuestion k => cases hMay
    | _ => exact ih _ hq'

theorem question_deleted {owner : Id} {scans : Nat}
    (h : ∀ wr ∈ ws, (Job.deleteQuestion owner i scans).may wr) (hDeleted : i ∈ (draft ws).deleted)
    (hq' : q' ∈ (applyAll ws db).questions) : q'.id ≠ i := by
  induction ws using List.reverseRecOn generalizing q' with
  | nil => cases hDeleted
  | append_singleton ws wr ih =>
    have hMay := h wr (List.mem_append_right _ (List.mem_singleton_self _))
    have ih := fun q' => @ih q' fun wr' hwr' => h wr' (List.mem_append_left _ hwr')
    rw [applyAll_append] at hq'
    rw [draft_append] at hDeleted
    cases wr with
    | deleteQuestion k =>
      obtain rfl : k = i := hMay
      exact of_decide_eq_true (List.mem_filter.mp hq').2
    | setPositions s rows =>
      obtain ⟨q₁, hq₁, rfl⟩ := List.mem_map.mp hq'
      rw [(moved_keeps s rows q₁).1]
      exact ih _ hDeleted hq₁
    | insertQuestion row => cases hMay
    | updateQuestion s k p => cases hMay
    | _ => exact ih _ hDeleted hq'

theorem question_stays (hDelete : ∀ owner i scans, job = .deleteQuestion owner i scans → q.id ≠ i)
    (h : ∀ wr ∈ ws, job.may wr) (hq : q ∈ db.questions) :
    ∃ q' ∈ (applyAll ws db).questions, q'.quizSetId = q.quizSetId := by
  induction ws generalizing db q with
  | nil => exact ⟨q, hq, rfl⟩
  | cons wr ws ih =>
    have hMay := h wr List.mem_cons_self
    have hStep : ∃ q' ∈ (wr.apply db).questions, q'.id = q.id ∧ q'.quizSetId = q.quizSetId := by
      cases wr with
      | insertQuestion row => exact ⟨q, List.mem_append_left _ hq, rfl, rfl⟩
      | updateQuestion s i p =>
        refine ⟨_, List.mem_map_of_mem hq, ?_⟩
        split <;> exact ⟨rfl, rfl⟩
      | setPositions s rows =>
        obtain ⟨hId, hSet, -⟩ := moved_keeps s rows q
        exact ⟨_, List.mem_map_of_mem hq, hId, hSet⟩
      | deleteQuestion k =>
        cases job with
        | deleteQuestion owner i scans =>
          obtain rfl : k = i := hMay
          exact ⟨q, List.mem_filter.mpr ⟨hq, decide_eq_true (hDelete owner k scans rfl)⟩, rfl, rfl⟩
        | _ => cases hMay
      | _ => exact ⟨q, hq, rfl, rfl⟩
    obtain ⟨q', hq', hId, hSet⟩ := hStep
    have hDelete' : ∀ owner i scans, job = .deleteQuestion owner i scans → q'.id ≠ i :=
      fun owner i scans hEq => hId ▸ hDelete owner i scans hEq
    obtain ⟨q'', hq'', hSet'⟩ := ih hDelete' (fun wr' hwr' => h wr' (List.mem_cons_of_mem _ hwr')) hq'
    exact ⟨q'', hq'', hSet'.trans hSet⟩

def Draft.Holds (d : Draft) : Write → Prop
  | .insertQuestion row => row ∈ d.added
  | .insertOptions rows => .insertOptions rows ∈ d.options
  | .deleteOptions i ids => .deleteOptions i ids ∈ d.options
  | .setPositions i _ => i ∈ d.shifted
  | _ => True

theorem Draft.Holds.step {d : Draft} (h : d.Holds wr) (wr' : Write) : (d.step wr').Holds wr := by
  cases wr <;> cases wr' <;> first | exact h | exact List.mem_append_left _ h

theorem Draft.holds_step (d : Draft) (wr : Write) : (d.step wr).Holds wr := by
  cases wr <;> first | trivial | exact List.mem_append_right _ (List.mem_singleton_self _)

theorem draft_holds (h : wr ∈ ws) : (draft ws).Holds wr := by
  induction ws using List.reverseRecOn with
  | nil => cases h
  | append_singleton ws wr' ih =>
    rw [draft_append]
    obtain h | h := List.mem_append.mp h
    · exact (ih h).step wr'
    · rw [List.mem_singleton.mp h]
      exact Draft.holds_step _ _

/-- The statement is about the options of one question, if about any. -/
def Write.OptionsOf (i : Id) : Write → Prop
  | .insertOptions rows => ∀ o ∈ rows, o.questionId = i
  | .deleteOptions j _ => j = i
  | _ => True

theorem optionsIn_of_ne (h : ∀ wr ∈ ws, wr.OptionsOf i) (hi : q.id ≠ i) :
    optionsIn (applyAll ws db).options q = optionsIn db.options q := by
  induction ws generalizing db with
  | nil => rfl
  | cons wr ws ih =>
    rw [applyAll_cons, ih fun wr' hwr' => h wr' (List.mem_cons_of_mem _ hwr')]
    have hHead := h wr List.mem_cons_self
    cases wr with
    | insertOptions rows =>
      have hNone : rows.filter (·.questionId = q.id) = [] := by
        refine List.filter_eq_nil_iff.mpr fun o ho hMem => ?_
        exact hi ((of_decide_eq_true hMem).symm.trans (hHead o ho))
      change (db.options ++ rows).filter (·.questionId = q.id) = db.options.filter (·.questionId = q.id)
      rw [List.filter_append, hNone, List.append_nil]
    | deleteOptions j ids =>
      obtain rfl : j = i := hHead
      unfold optionsIn
      simp only [Write.apply]
      rw [List.filter_filter]
      refine List.filter_congr fun o _ => ?_
      by_cases ho : o.questionId = q.id
      · simp [ho, hi]
      · simp [ho]
    | _ => rfl

theorem Renders.questionId {options : List OptionCreate} {rows : List AnswerOption} {o : AnswerOption}
    (h : Renders i options rows) (ho : o ∈ rows) : o.questionId = i := by
  have hMem : (o.questionId, o.isCorrect) ∈ rows.map fun o => (o.questionId, o.isCorrect) :=
    List.mem_map_of_mem ho
  rw [h] at hMem
  obtain ⟨o', -, hEq⟩ := List.mem_map.mp hMem
  exact (Prod.mk.inj hEq).1.symm

theorem Renders.correct {options : List OptionCreate} {rows : List AnswerOption}
    (h : Renders i options rows) : rows.map (·.isCorrect) = options.map (·.isCorrect) := by
  have hSnd := congrArg (List.map Prod.snd) h
  rw [List.map_map, List.map_map] at hSnd
  exact hSnd

theorem AddDone.optionsOf {payload : QuestionCreate} {row : Question} {rows : List AnswerOption}
    (hRows : Renders row.id payload.options rows)
    (hOptions : (draft ws).options = rows.map fun o => .insertOptions [o])
    (hMay : ∀ wr ∈ ws, job.may wr) (hJob : ∀ j ids, ¬job.may (.deleteOptions j ids)) :
    ∀ wr ∈ ws, wr.OptionsOf row.id := by
  intro wr hwr
  cases wr with
  | insertOptions rows' =>
    have hMem : Write.insertOptions rows' ∈ (draft ws).options := draft_holds hwr
    rw [hOptions] at hMem
    obtain ⟨o, ho, hEq⟩ := List.mem_map.mp hMem
    cases hEq
    intro o' ho'
    rw [List.mem_singleton.mp ho']
    exact hRows.questionId ho
  | deleteOptions j ids => exact absurd (hMay _ hwr) (hJob j ids)
  | _ => trivial

theorem PatchDone.optionsOf {owner : Id} {payload : QuestionUpdate} {scans : Nat} {f : First}
    (h : PatchDone i payload f (draft ws))
    (hMay : ∀ wr ∈ ws, (Job.patchQuestion owner i payload scans).may wr) : ∀ wr ∈ ws, wr.OptionsOf i := by
  obtain ⟨-, -, -, -, -, -, -, hDone⟩ := h
  intro wr hwr
  cases wr with
  | insertOptions rows' =>
    have hMem : Write.insertOptions rows' ∈ (draft ws).options := draft_holds hwr
    cases hPayload : payload.options with
    | none =>
      rw [hPayload] at hDone
      rw [show (draft ws).options = [] from hDone] at hMem
      cases hMem
    | some os =>
      rw [hPayload] at hDone
      obtain ⟨old, rows, -, hRows, hEq⟩ := hDone
      rw [hEq] at hMem
      obtain rfl : rows' = rows := by simpa using hMem
      exact fun o ho => hRows.questionId ho
  | deleteOptions j ids => exact hMay _ hwr
  | _ => trivial

theorem optionsOf_delete {owner : Id} {scans : Nat}
    (hMay : ∀ wr ∈ ws, (Job.deleteQuestion owner i scans).may wr) : ∀ wr ∈ ws, wr.OptionsOf i := by
  intro wr hwr
  have h := hMay wr hwr
  cases wr with
  | insertOptions rows => exact h.elim
  | deleteOptions j ids => exact h
  | _ => trivial

theorem applyAll_insertOptions (rows : List AnswerOption) (db : Db) :
    (applyAll (rows.map fun o => .insertOptions [o]) db).options = db.options ++ rows := by
  induction rows generalizing db with
  | nil => simp [applyAll, Transactions.applyAll_nil]
  | cons o rows ih =>
    rw [List.map_cons, applyAll_cons, ih]
    simp [Write.apply]

theorem optionsIn_added {row : Question} {options : List OptionCreate} {rows : List AnswerOption}
    (hRows : Renders row.id options rows) (hOptions : (draft ws).options = rows.map fun o => .insertOptions [o])
    (hUnused : ∀ o ∈ db.options, o.questionId ≠ row.id) (hId : q.id = row.id) :
    optionsIn (applyAll ws db).options q = rows := by
  rw [options_applyAll, hOptions, applyAll_insertOptions]
  unfold optionsIn
  rw [List.filter_append, hId]
  have hNone : db.options.filter (·.questionId = row.id) = [] :=
    List.filter_eq_nil_iff.mpr fun o ho hMem => hUnused o ho (of_decide_eq_true hMem)
  have hAll : rows.filter (·.questionId = row.id) = rows :=
    List.filter_eq_self.mpr fun o ho => decide_eq_true (hRows.questionId ho)
  rw [hNone, hAll, List.nil_append]

theorem optionsIn_replaced {options : List OptionCreate} {rows : List AnswerOption}
    (hRows : Renders i options rows) (hOptions : (draft ws).options =
      [.deleteOptions i ((db.optionsOf [i]).map (·.id)), .insertOptions rows]) (hId : q.id = i) :
    optionsIn (applyAll ws db).options q = rows := by
  rw [options_applyAll, hOptions]
  simp only [applyAll, Transactions.applyAll_cons, Transactions.applyAll_nil, Write.apply, optionsIn]
  rw [List.filter_append, hId]
  have hNone : (db.options.filter fun o => ¬(o.questionId = i ∧ o.id ∈ (db.optionsOf [i]).map (·.id))).filter
      (·.questionId = i) = [] := by
    refine List.filter_eq_nil_iff.mpr fun o ho hMem => ?_
    obtain ⟨ho, hNot⟩ := List.mem_filter.mp ho
    have hQuestion : o.questionId = i := of_decide_eq_true hMem
    refine of_decide_eq_true hNot ⟨hQuestion, List.mem_map_of_mem ?_⟩
    unfold Db.optionsOf
    rw [List.mem_insertionSort, List.mem_filter]
    exact ⟨ho, by simpa using hQuestion⟩
  have hAll : rows.filter (·.questionId = i) = rows :=
    List.filter_eq_self.mpr fun o ho => decide_eq_true (hRows.questionId ho)
  rw [hNone, hAll, List.nil_append]

def unusedId (db : Db) (row : Question) : Bool :=
  db.questions.all (·.id ≠ row.id) && db.options.all (·.questionId ≠ row.id)

theorem mem_questionsOf : q ∈ db.questionsOf i ↔ q ∈ db.questions ∧ q.quizSetId = i := by
  unfold Db.questionsOf
  rw [List.mem_insertionSort, List.mem_filter, decide_eq_true_eq]

def Write.Avoids (i : Id) (db : Db) : Write → Prop
  | .insertQuestion row => row.quizSetId ≠ i
  | .updateQuestion _ j _ | .deleteQuestion j | .deleteOptions j _ => ∀ q ∈ db.questionsOf i, q.id ≠ j
  | .insertOptions rows => ∀ q ∈ db.questionsOf i, ∀ o ∈ rows, o.questionId ≠ q.id
  | .setPositions j _ => j ≠ i
  | _ => True

theorem Write.Avoids.congr (h : wr.Avoids i db) (hEq : db'.questionsOf i = db.questionsOf i) :
    wr.Avoids i db' := by
  unfold Write.Avoids
  rw [hEq]
  exact h

theorem questionsOf_map {f : Question → Question} (hSet : ∀ q, (f q).quizSetId = q.quizSetId)
    (hSame : ∀ q ∈ db.questionsOf i, f q = q) (h : db'.questions = db.questions.map f) :
    db'.questionsOf i = db.questionsOf i := by
  have hKeep : (db.questions.map f).filter (·.quizSetId = i) = db.questions.filter (·.quizSetId = i) := by
    rw [List.filter_map]
    have hSets : ((fun q : Question => decide (q.quizSetId = i)) ∘ f) = fun q => decide (q.quizSetId = i) := by
      funext q
      simp [hSet q]
    rw [hSets]
    refine (List.map_congr_left fun q hq => hSame q (mem_questionsOf.mpr ?_)).trans (List.map_id' _)
    simpa using List.mem_filter.mp hq
  unfold Db.questionsOf
  rw [h, hKeep]

theorem questionsOf_apply (h : wr.Avoids i db) : (wr.apply db).questionsOf i = db.questionsOf i := by
  cases wr with
  | insertQuestion row =>
    have hRow : row.quizSetId ≠ i := h
    unfold Db.questionsOf
    simp [Write.apply, List.filter_append, hRow]
  | updateQuestion s j p =>
    refine questionsOf_map (fun q => ?_) (fun q hq => ?_) rfl
    · split <;> rfl
    · exact if_neg (h q hq)
  | setPositions s rows =>
    refine questionsOf_map (fun q => (moved_keeps s rows q).2.1) (fun q hq => ?_) rfl
    refine if_neg fun hSet => ?_
    exact h (hSet.symm.trans (mem_questionsOf.mp hq).2)
  | deleteQuestion j =>
    unfold Db.questionsOf
    have hKeep : (db.questions.filter (·.id ≠ j)).filter (·.quizSetId = i) =
        db.questions.filter (·.quizSetId = i) := by
      rw [List.filter_filter]
      refine List.filter_congr fun q hq => ?_
      by_cases hSet : q.quizSetId = i
      · simp [hSet, h q (mem_questionsOf.mpr ⟨hq, hSet⟩)]
      · simp [hSet]
    rw [← hKeep]
    rfl
  | _ => rfl

theorem optionsOf_apply (h : wr.Avoids i db) : (wr.apply db).optionsOf ((db.questionsOf i).map (·.id)) =
    db.optionsOf ((db.questionsOf i).map (·.id)) := by
  cases wr with
  | insertOptions rows =>
    have hNone : rows.filter (·.questionId ∈ (db.questionsOf i).map (·.id)) = [] := by
      refine List.filter_eq_nil_iff.mpr fun o ho hMem => ?_
      obtain ⟨q, hq, hId⟩ := List.mem_map.mp (of_decide_eq_true hMem)
      exact h q hq o ho hId.symm
    unfold Db.optionsOf
    simp only [Write.apply]
    rw [List.filter_append, hNone, List.append_nil]
  | deleteOptions j ids =>
    have hKeep : (db.options.filter fun o => ¬(o.questionId = j ∧ o.id ∈ ids)).filter
        (·.questionId ∈ (db.questionsOf i).map (·.id)) =
          db.options.filter (·.questionId ∈ (db.questionsOf i).map (·.id)) := by
      rw [List.filter_filter]
      refine List.filter_congr fun o _ => ?_
      by_cases hMem : o.questionId ∈ (db.questionsOf i).map (·.id)
      · obtain ⟨q, hq, hId⟩ := List.mem_map.mp hMem
        have hNot : o.questionId ≠ j := hId ▸ h q hq
        simp [hNot]
      · simp [hMem]
    unfold Db.optionsOf
    rw [← hKeep]
    rfl
  | _ => rfl

theorem part_of_avoids (h : ∀ wr ∈ ws, wr.Avoids i db) : (applyAll ws db).questionsOf i = db.questionsOf i ∧
    (applyAll ws db).optionsOf ((db.questionsOf i).map (·.id)) =
      db.optionsOf ((db.questionsOf i).map (·.id)) := by
  induction ws generalizing db with
  | nil => exact ⟨rfl, rfl⟩
  | cons wr ws ih =>
    have hHead := h wr List.mem_cons_self
    have hQuestions := questionsOf_apply hHead
    have hTail : ∀ wr' ∈ ws, wr'.Avoids i (wr.apply db) :=
      fun wr' hwr' => (h wr' (List.mem_cons_of_mem _ hwr')).congr hQuestions
    obtain ⟨hQuestions', hOptions'⟩ := ih hTail
    rw [hQuestions] at hOptions' hQuestions'
    exact ⟨hQuestions', hOptions'.trans (optionsOf_apply hHead)⟩

theorem getD_changed {α : Type} [DecidableEq α] (o : Option α) (a : α) :
    (o.filter (· ≠ a)).getD a = o.getD a := by
  cases o with
  | none => rfl
  | some b =>
    by_cases h : b = a
    · simp [Option.filter, h]
    · simp [Option.filter, h]

theorem patch_over (p p' : QuestionPatch) (q : Question) : (p.over p').patch q = p.patch (p'.patch q) := by
  simp [QuestionPatch.patch, QuestionPatch.over, Option.or_assoc]

theorem avoids_added {owner s : Id} {payload : QuestionCreate} {scans : Nat}
    (hMay : ∀ wr ∈ ws, (Job.addQuestion owner s payload scans).may wr) (h : AddDone s payload (draft ws))
    (hUnused : (draft ws).added.all (unusedId db) = true) (hs : s ≠ i) : ∀ wr ∈ ws, wr.Avoids i db := by
  obtain ⟨hShifted, row, rows, hAdded, hSet, -, hRows, hOptions⟩ := h
  have hOptionsOf := AddDone.optionsOf hRows hOptions hMay fun _ _ h => h
  rw [hAdded, List.all_cons, List.all_nil, Bool.and_true] at hUnused
  have hNew := List.all_eq_true.mp (Bool.and_eq_true_iff.mp hUnused).1
  intro wr hwr
  have hHolds := draft_holds hwr
  have hWr := hMay wr hwr
  cases wr with
  | insertQuestion row' =>
    have hMem : row' ∈ (draft ws).added := hHolds
    rw [hAdded, List.mem_singleton] at hMem
    rw [hMem]
    exact fun hEq => hs (hSet.symm.trans hEq)
  | setPositions k rows' => exact fun hEq => hs ((hShifted k hHolds).symm.trans hEq)
  | insertOptions rows' =>
    intro q hq o ho hEq
    refine of_decide_eq_true (hNew q (mem_questionsOf.mp hq).1) ?_
    exact hEq.symm.trans (hOptionsOf _ hwr o ho)
  | updateQuestion k k' p => exact hWr.elim
  | deleteQuestion k => exact hWr.elim
  | deleteOptions k ids => exact hWr.elim
  | _ => trivial

/-- Neither the question that was read nor a stored one of its id is of the quiz. -/
def elsewhere (i : Id) (db : Db) (f : First) (questionId : Id) : Bool :=
  f.question.all (·.quizSetId ≠ i) && (db.questionsOf i).all (·.id ≠ questionId)

theorem avoids_of_elsewhere {f : First} (h : elsewhere i db f j = true) (hRead : f.question = some q)
    (hShifted : ∀ k ∈ (draft ws).shifted, k = q.quizSetId) (hOptionsOf : ∀ wr ∈ ws, wr.OptionsOf j)
    (hWrites : ∀ wr ∈ ws, ∀ k, wr = .deleteQuestion k ∨ (∃ s p, wr = .updateQuestion s k p) → k = j)
    (hAdded : (draft ws).added = []) : ∀ wr ∈ ws, wr.Avoids i db := by
  obtain ⟨hQuiz, hOthers⟩ := Bool.and_eq_true_iff.mp h
  rw [hRead] at hQuiz
  have hNe : ∀ q ∈ db.questionsOf i, q.id ≠ j := fun q hq => of_decide_eq_true (List.all_eq_true.mp hOthers q hq)
  intro wr hwr
  have hHolds := draft_holds hwr
  cases wr with
  | insertQuestion row =>
    have hMem : row ∈ (draft ws).added := hHolds
    rw [hAdded] at hMem
    cases hMem
  | setPositions k rows => exact fun hEq => of_decide_eq_true hQuiz ((hShifted k hHolds).symm.trans hEq)
  | insertOptions rows => exact fun q hq o ho hEq => hNe q hq (hEq.symm.trans (hOptionsOf _ hwr o ho))
  | deleteOptions k ids =>
    obtain rfl : k = j := hOptionsOf _ hwr
    exact hNe
  | updateQuestion s k p =>
    obtain rfl := hWrites _ hwr k (.inr ⟨s, p, rfl⟩)
    exact hNe
  | deleteQuestion k =>
    obtain rfl := hWrites _ hwr k (.inl rfl)
    exact hNe
  | _ => trivial

theorem questions_unmoved {owner : Id} {payload : QuestionUpdate} {scans : Nat}
    (h : ∀ wr ∈ ws, (Job.patchQuestion owner i payload scans).may wr) (hShifted : (draft ws).shifted = []) :
    (applyAll ws db).questions = db.questions.map fun q => if q.id = i then (draft ws).patch.patch q else q := by
  induction ws using List.reverseRecOn with
  | nil =>
    refine (List.map_id'' (fun q => ?_) _).symm
    split <;> rfl
  | append_singleton ws wr ih =>
    have hMay := h wr (List.mem_append_right _ (List.mem_singleton_self _))
    have ih := ih fun wr' hwr' => h wr' (List.mem_append_left _ hwr')
    rw [draft_append] at hShifted ⊢
    rw [applyAll_append]
    cases wr with
    | updateQuestion s k p =>
      obtain rfl : k = i := hMay
      change List.map _ (applyAll ws db).questions = _
      rw [ih hShifted, List.map_map]
      refine List.map_congr_left fun q _ => ?_
      by_cases hk : q.id = k
      · simp only [Function.comp_apply, hk, if_true]
        rw [if_pos (show ((draft ws).patch.patch q).id = k from hk)]
        exact (patch_over _ _ q).symm
      · simp [hk]
    | setPositions s rows => simp [Draft.step] at hShifted
    | insertQuestion row => cases hMay
    | deleteQuestion k => cases hMay
    | _ => exact ih hShifted

end LiveQuiz.Authoring
