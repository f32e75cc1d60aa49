import LiveQuiz.Results.QuestionMoves

/-! # Quiz edits as list edits

The questions of a quiz in position order are a list, and adding, moving and deleting a
question inserts into it, moves within it and erases from it.
-/

namespace LiveQuiz

set_option autoImplicit false

namespace PositionUpdates

def insertUpdates (quizSetId : Id) (position : Option Int) (last : Int) : List BulkUpdate :=
  match position with
  | none => []
  | some p =>
    if p ≤ last then [(insertShift quizSetId p).park, (insertShift quizSetId p).back] else []

/-- The UPDATEs of a position change; a question already in place is left alone. -/
def repositionUpdates (question : Question) (newPosition : Int) : List BulkUpdate :=
  if newPosition = question.position then []
  else moveUpdates question.quizSetId question newPosition

def deleteUpdates (question : Question) : List BulkUpdate :=
  [(deleteShift question.quizSetId question.position).park,
    (deleteShift question.quizSetId question.position).back]

/-- The new question as `add_question` builds it. -/
def newQuestion (questionId quizSetId : Id) (c : QuestionCreate) (position : Int) : Question where
  id := questionId
  quizSetId := quizSetId
  position := position
  body := c.body
  type := c.type
  timeLimitSeconds := c.timeLimitSeconds
  points := c.points
  explanation := c.explanation

def place (position : Int) : Nat := (position - 1).toNat

section

variable {qs l a b : List Question} {x row : Question} {quizSetId : Id} {k : Int}

theorem makeRoom_eq (quizSetId : Id) (position : Option Int) (last : Int) (qs : List Question) :
    makeRoom quizSetId position last qs = runAll (insertUpdates quizSetId position last) qs := by
  cases position with
  | none => rfl
  | some p =>
    simp only [makeRoom, insertUpdates]
    split
    · exact shiftQuestionPositions_eq quizSetId p qs
    · rfl

theorem insert_middle (a b : List Question) (x : Question) :
    (a ++ b).insertIdx a.length x = a ++ x :: b := by
  induction a with
  | nil => simp
  | cons y a ih => simp [List.insertIdx_succ_cons, ih]

theorem erase_middle (a b : List Question) (x : Question) :
    (a ++ x :: b).eraseIdx a.length = a ++ b := by
  induction a with
  | nil => rfl
  | cons y a ih => simp [ih]

theorem place_succ (n : Nat) : place (n + 1) = n := by
  unfold place
  omega

theorem foldl_max_placed (k : Int) (l : List Question) :
    (placed (k + 1) l).foldl (fun m q => max m q.position) k = k + l.length := by
  induction l generalizing k with
  | nil => simp [placed]
  | cons q l ih =>
    rw [placed, List.foldl_cons, max_eq_right (by omega : k ≤ k + 1), ih, List.length_cons]
    push_cast
    omega

theorem maxQuestionPosition_eq (h : Lists quizSetId qs l) :
    maxQuestionPosition quizSetId qs = l.length := by
  have hComm : RightCommutative fun (m : Int) (q : Question) => max m q.position :=
    ⟨fun m q q' => sup_right_comm m q.position q'.position⟩
  unfold maxQuestionPosition
  have hRows := foldl_max_placed 0 l
  rw [Int.zero_add, Int.zero_add] at hRows
  rw [List.Perm.foldl_eq h 0, hRows]

theorem apart_append (hApart : qs.Pairwise Apart) (hQuiz : row.quizSetId = quizSetId)
    (h : Lists quizSetId (qs ++ [row]) l) : (qs ++ [row]).Pairwise Apart := by
  have hPositions : (((qs ++ [row]).filter (·.quizSetId = quizSetId)).map (·.position)).Nodup := by
    rw [(h.map (·.position)).nodup_iff, placed_positions]
    exact (positionsFrom_pairwise 1 _).imp ne_of_lt
  have hRow : [row].filter (·.quizSetId = quizSetId) = [row] := by
    simp [hQuiz]
  rw [List.filter_append, hRow, List.map_append] at hPositions
  obtain ⟨-, -, hNew⟩ := List.nodup_append.mp hPositions
  apply List.pairwise_append.mpr
  refine ⟨hApart, List.pairwise_singleton _ _, ?_⟩
  intro q hq y hy hSame
  rw [List.mem_singleton.mp hy] at hSame ⊢
  have hMem : q ∈ qs.filter (·.quizSetId = quizSetId) :=
    List.mem_filter.mpr ⟨hq, decide_eq_true (hSame.trans hQuiz)⟩
  exact hNew _ (List.mem_map_of_mem hMem) _ (List.mem_map_of_mem List.mem_cons_self)

theorem split_at (hSelf : placed 1 l = l) (hx : x ∈ l) :
    ∃ a b, l = a ++ x :: b ∧ x.position = a.length + 1 := by
  obtain ⟨a, b, rfl⟩ := List.append_of_mem hx
  refine ⟨a, b, rfl, ?_⟩
  rw [placed_append, placed] at hSelf
  obtain ⟨-, hTail⟩ := List.append_inj hSelf (length_placed 1 a)
  have hHead := (List.cons.inj hTail).1
  rw [← hHead]
  exact Int.add_comm 1 _

theorem cut_at (l : List Question) {p : Int} (hLow : 1 ≤ p) (hHigh : p ≤ l.length + 1) :
    ∃ a b, l = a ++ b ∧ p = a.length + 1 := by
  refine ⟨l.take (place p), l.drop (place p), (List.take_append_drop _ l).symm, ?_⟩
  rw [List.length_take]
  unfold place
  omega

end

section

variable {qs l : List Question} {row : Question} {quizSetId : Id}

theorem append_row (hUnique : qs.Pairwise Apart) (h : Lists quizSetId qs l)
    (hQuiz : row.quizSetId = quizSetId) (hPosition : row.position = l.length + 1) :
    checkedPositions (qs ++ [row]) = some (qs ++ [row]) ∧
      Lists quizSetId (qs ++ [row]) (l ++ [row]) := by
  have hLists : Lists quizSetId (qs ++ [row]) (l ++ [row]) := by
    have hRow : [row].filter (·.quizSetId = quizSetId) = placed (1 + l.length) [row] := by
      rw [placed, placed, Int.add_comm, ← hPosition, List.filter_cons_of_pos (by simp [hQuiz]),
        List.filter_nil]
    rw [Lists, List.filter_append, placed_append, hRow]
    exact h.append_right _
  exact ⟨checkedPositions_of_apart (apart_append hUnique hQuiz hLists), hLists⟩

theorem add_updates {position : Option Int} (hIds : (qs.map (·.id)).Nodup)
    (hUnique : qs.Pairwise Apart) (h : Lists quizSetId qs l)
    (hPosition : ∀ p ∈ position, 1 ≤ p ∧ p ≤ l.length + 1)
    (hSmall : ∀ p ∈ position, p ≤ l.length → l.length < 1000000) (hQuiz : row.quizSetId = quizSetId)
    (hRow : row.position = position.getD (l.length + 1)) :
    AllRowSafe (insertUpdates quizSetId position l.length) qs ∧
      ∃ shifted, makeRoom quizSetId position l.length qs = some shifted ∧
        checkedPositions (shifted ++ [row]) = some (shifted ++ [row]) ∧
          Lists quizSetId (shifted ++ [row]) (l.insertIdx (place row.position) row) := by
  have hEnd : row.position = l.length + 1 →
      checkedPositions (qs ++ [row]) = some (qs ++ [row]) ∧
        Lists quizSetId (qs ++ [row]) (l.insertIdx (place row.position) row) := by
    intro hLast
    rw [hLast, place_succ, List.insertIdx_length_self]
    exact append_row hUnique h hQuiz hLast
  cases position with
  | none => exact ⟨trivial, qs, rfl, hEnd hRow⟩
  | some p =>
    obtain ⟨hLow, hHigh⟩ := hPosition p rfl
    obtain ⟨a, b, rfl, rfl⟩ := cut_at l hLow hHigh
    by_cases hLe : (a.length : Int) + 1 ≤ (a ++ b).length
    case pos =>
      have hFits := insert_fits h (hSmall _ rfl hLe)
      have hSafe := hFits.rowSafe hIds hUnique
      have hRoom : makeRoom quizSetId (some (a.length + 1)) (a ++ b).length qs =
          some (shiftPositions (insertShift quizSetId (a.length + 1)).moves (· + 1) qs) := by
        rw [makeRoom_eq, insertUpdates, if_pos hLe, hSafe.runAll]
        simp only [List.foldl_cons, List.foldl_nil, hFits.run]
        rfl
      have hLists := insert_lists h hQuiz
      have hSelf : ({ row with position := a.length + 1 } : Question) = row := by
        cases row
        simp_all
      rw [hSelf] at hLists
      rw [insertUpdates, if_pos hLe, hRow, Option.getD_some, place_succ, insert_middle]
      exact ⟨hSafe, _, hRoom, checkedPositions_of_apart
        (apart_append (hFits.apart hIds hUnique) hQuiz hLists), hLists⟩
    case neg =>
      have hLast : (a.length : Int) + 1 = (a ++ b).length + 1 := by omega
      rw [insertUpdates, makeRoom, if_neg hLe]
      exact ⟨trivial, qs, if_neg hLe, hEnd (hRow.trans hLast)⟩

end

section

variable {qs l : List Question} {x : Question} {target : Int}

theorem split_of_mem (h : Lists x.quizSetId qs l) (hSelf : placed 1 l = l) (hx : x ∈ qs) :
    ∃ a b, l = a ++ x :: b ∧ x.position = a.length + 1 := by
  have hMem : x ∈ placed 1 l := h.mem_iff.mp (List.mem_filter.mpr ⟨hx, decide_eq_true rfl⟩)
  rw [hSelf] at hMem
  exact split_at hSelf hMem

theorem move_updates (hIds : (qs.map (·.id)).Nodup) (hUnique : qs.Pairwise Apart)
    (h : Lists x.quizSetId qs l) (hSelf : placed 1 l = l) (hx : x ∈ qs)
    (hLow : 1 ≤ target) (hHigh : target ≤ l.length) (hSmall : l.length < 999999) :
    AllRowSafe (repositionUpdates x target) qs ∧
      ∃ qs', repositioned x (some target) qs = some qs' ∧
        Lists x.quizSetId qs' ((l.eraseIdx (place x.position)).insertIdx (place target) x) := by
  obtain ⟨p, r, rfl, hPosition⟩ := split_of_mem h hSelf hx
  rw [hPosition, place_succ, erase_middle]
  obtain hUp | hSame | hDown := lt_trichotomy target x.position
  case inl =>
    -- the target lies in the part before the question
    obtain ⟨a, b, rfl, rfl⟩ := cut_at p hLow (by omega)
    rw [List.append_assoc] at h hSmall
    rw [place_succ, List.append_assoc, insert_middle]
    simp only [repositionUpdates, repositioned, if_neg hUp.ne]
    rw [List.length_append] at hPosition
    push_cast at hPosition
    exact up_move hIds hUnique hx h hPosition hUp hSmall
  case inr.inl =>
    rw [hSame, hPosition, place_succ, insert_middle]
    simp only [repositionUpdates, repositioned, ← hPosition, if_true]
    exact ⟨trivial, qs, rfl, h⟩
  case inr.inr =>
    rw [List.length_append, List.length_cons] at hHigh
    push_cast at hHigh
    obtain ⟨b, c, rfl, hTarget⟩ := cut_at (p := target - p.length) r (by omega) (by omega)
    obtain rfl : target = p.length + b.length + 1 := by omega
    rw [show (p.length : Int) + b.length + 1 = (p ++ b).length + 1 by simp, place_succ,
      ← List.append_assoc p b c, insert_middle, List.append_assoc, List.length_append]
    push_cast
    simp only [repositionUpdates, repositioned, if_neg hDown.ne']
    exact down_move hIds hUnique hx h hPosition hSmall

theorem delete_updates (hIds : (qs.map (·.id)).Nodup) (hUnique : qs.Pairwise Apart)
    (h : Lists x.quizSetId qs l) (hSelf : placed 1 l = l) (hx : x ∈ qs)
    (hSmall : l.length < 1000000) :
    AllRowSafe (deleteUpdates x) (qs.filter (·.id ≠ x.id)) ∧
      ∃ qs', renumberAfterDelete x.quizSetId x.position (qs.filter (·.id ≠ x.id)) = some qs' ∧
        Lists x.quizSetId qs' (l.eraseIdx (place x.position)) := by
  obtain ⟨a, b, rfl, hPosition⟩ := split_of_mem h hSelf hx
  have hFits := delete_fits hIds h hSmall
  have hSafe := hFits.rowSafe (hIds.sublist (List.filter_sublist.map _))
    (hUnique.sublist List.filter_sublist)
  rw [renumberAfterDelete_eq, deleteUpdates, hPosition, place_succ, erase_middle, hSafe.runAll]
  simp only [List.foldl_cons, List.foldl_nil, hFits.run]
  exact ⟨hSafe, _, rfl, delete_lists hIds h⟩

end

/-- The operation is these UPDATEs, and they are safe row by row. -/
def RunsSafely (us : List BulkUpdate) (op : List Question → Option (List Question))
    (qs : List Question) : Prop :=
  op qs = runAll us qs ∧ AllRowSafe us qs

/-- The questions of the quiz in position order are this list, at positions 1 to n. -/
def Becomes (quizSetId : Id) (qs l : List Question) : Prop :=
  quizQuestions quizSetId qs = placed 1 l ∧ Contiguous quizSetId qs

section

variable {db : Db} {parent : QuizSet} {qs l questions shifted : List Question}
  {options : List AnswerOption} {quizSetId questionId : Id} {c : QuestionCreate} {ids : List Id}
  {x : Question}

theorem becomes_of_lists (h : Lists quizSetId qs l) : Becomes quizSetId qs l :=
  ⟨h.quizQuestions, h.contiguous⟩

theorem repositioned_eq (x : Question) (target : Int) (qs : List Question) :
    repositioned x (some target) qs = runAll (repositionUpdates x target) qs := by
  simp only [repositioned, repositionUpdates]
  split
  · rfl
  · exact moveQuestionTo_eq _ _ _ _

theorem find_question (hIds : (qs.map (·.id)).Nodup) (hx : x ∈ qs) :
    qs.find? (·.id = x.id) = some x := by
  cases hFind : qs.find? (·.id = x.id) with
  | none =>
    have hNone := List.find?_eq_none.mp hFind x hx
    exact absurd (decide_eq_true rfl) hNone
  | some y =>
    have hSel := List.find?_some hFind
    have hId : y.id = x.id := of_decide_eq_true hSel
    rw [List.inj_on_of_nodup_map hIds (List.mem_of_find?_eq_some hFind) hx hId]

theorem addQuestion_commits (hParent : db.quizSets.find? (·.id = quizSetId) = some parent)
    (hFresh : ∀ q ∈ db.questions, q.id ≠ questionId)
    (hRoom : makeRoom quizSetId c.position (maxQuestionPosition quizSetId db.questions)
      db.questions = some shifted)
    (hRow : checkedPositions (shifted ++ [newQuestion questionId quizSetId c
      (c.position.getD (maxQuestionPosition quizSetId db.questions + 1))]) = some questions)
    (hOptions : checkedOptions (db.options ++ optionRows questionId ids c.options) = some options) :
    addQuestion parent.ownerId quizSetId questionId c ids db =
      some { db with questions := questions, options := options } := by
  have hAll : db.questions.all (·.id ≠ questionId) = true :=
    List.all_eq_true.mpr fun q hq => decide_eq_true (hFresh q hq)
  simp only [newQuestion] at hRow
  simp only [addQuestion, hParent, hAll, hRoom, hRow, hOptions, guard_true, Option.bind_eq_bind,
    Option.bind_some, Option.pure_def]

theorem deleteQuestion_commits (hIds : (db.questions.map (·.id)).Nodup) (hx : x ∈ db.questions)
    (hParent : db.quizSets.find? (·.id = x.quizSetId) = some parent)
    (hUnused : usedInMatch x.id db = false)
    (hRenumber : renumberAfterDelete x.quizSetId x.position (db.questions.filter (·.id ≠ x.id)) =
      some questions) :
    deleteQuestion parent.ownerId x.id db = some { db with
      questions := questions, options := db.options.filter (·.questionId ≠ x.id) } := by
  simp only [deleteQuestion, find_question hIds hx, hParent, hUnused, hRenumber, guard_true,
    Option.bind_eq_bind, Option.bind_some, Option.pure_def]

theorem deleteQuestion_refused {ownerId : Id} (hUsed : usedInMatch questionId db = true) :
    deleteQuestion ownerId questionId db = none := by
  cases hDelete : deleteQuestion ownerId questionId db with
  | none => rfl
  | some db' =>
    simp only [deleteQuestion, hUsed, Option.bind_eq_bind, Option.bind_eq_some_iff,
      Option.guard_eq_some'] at hDelete
    obtain ⟨x, -, parent, -, -, -, -, hUnused, -⟩ := hDelete
    cases hUnused

end

/-- Every position update of a contiguous quiz is safe row by row, and its outcome is that
of the list operation it stands for. -/
theorem positionUpdates_refine_lists (db : Db) (s : Id) (parent : QuizSet)
    (hParent : db.quizSets.find? (·.id = s) = some parent)
    (hIds : (db.questions.map (·.id)).Nodup) (hUnique : positionsUnique db.questions = true)
    (hContiguous : Contiguous s db.questions)
    (hSmall : (quizQuestions s db.questions).length < 999998) :
    (∀ (i : Id) (c : QuestionCreate) (ids : List Id) (options : List AnswerOption),
      (∀ q ∈ db.questions, q.id ≠ i) →
      (∀ p : Int, p ∈ c.position → 1 ≤ p ∧ p ≤ (quizQuestions s db.questions).length + 1) →
      checkedOptions (db.options ++ optionRows i ids c.options) = some options →
        let last := maxQuestionPosition s db.questions
        let position := c.position.getD (last + 1)
        RunsSafely (insertUpdates s c.position last) (makeRoom s c.position last) db.questions ∧
          ∃ qs', addQuestion parent.ownerId s i c ids db =
              some { db with questions := qs', options := options } ∧
            Becomes s qs' ((quizQuestions s db.questions).insertIdx (place position)
              (newQuestion i s c position))) ∧
    (∀ x ∈ db.questions, x.quizSetId = s → ∀ target : Int, 1 ≤ target →
      target ≤ (quizQuestions s db.questions).length →
        RunsSafely (repositionUpdates x target) (repositioned x (some target)) db.questions ∧
          ∃ qs', repositioned x (some target) db.questions = some qs' ∧
            Becomes s qs' (((quizQuestions s db.questions).eraseIdx (place x.position)).insertIdx
              (place target) x)) ∧
    (∀ x ∈ db.questions, x.quizSetId = s →
      RunsSafely (deleteUpdates x) (renumberAfterDelete s x.position)
          (db.questions.filter (·.id ≠ x.id)) ∧
        (usedInMatch x.id db = true → deleteQuestion parent.ownerId x.id db = none) ∧
        (usedInMatch x.id db = false → ∃ db', deleteQuestion parent.ownerId x.id db = some db' ∧
          Becomes s db'.questions
            ((quizQuestions s db.questions).eraseIdx (place x.position)))) := by
  have hApart := positionsUnique_iff.mp hUnique
  have hLists := hContiguous.lists
  have hSelf := hContiguous.placed
  have hLast := maxQuestionPosition_eq hLists
  refine ⟨?_, ?_, ?_⟩
  · intro i c ids options hFresh hPosition hOptions
    have hRowPosition : (newQuestion i s c (c.position.getD (maxQuestionPosition s db.questions +
        1))).position = c.position.getD ((quizQuestions s db.questions).length + 1) := by
      rw [← hLast]
      rfl
    obtain ⟨hSafe, shifted, hRoom, hRow, hNew⟩ :=
      add_updates hIds hApart hLists hPosition (fun _ _ _ => by omega) rfl hRowPosition
    rw [← hLast] at hSafe hRoom
    exact ⟨⟨makeRoom_eq _ _ _ _, hSafe⟩, _,
      addQuestion_commits hParent hFresh hRoom hRow hOptions, becomes_of_lists hNew⟩
  · rintro x hx rfl target hLow hHigh
    obtain ⟨hSafe, qs', hMoved, hNew⟩ :=
      move_updates hIds hApart hLists hSelf hx hLow hHigh (by omega)
    exact ⟨⟨repositioned_eq _ _ _, hSafe⟩, qs', hMoved, becomes_of_lists hNew⟩
  · rintro x hx rfl
    obtain ⟨hSafe, qs', hRenumber, hNew⟩ :=
      delete_updates hIds hApart hLists hSelf hx (by omega)
    refine ⟨⟨renumberAfterDelete_eq _ _ _, hSafe⟩, deleteQuestion_refused, fun hUnused => ?_⟩
    exact ⟨_, deleteQuestion_commits hIds hx hParent hUnused hRenumber, becomes_of_lists hNew⟩

namespace Demo

/-- A quiz with two questions. -/
def quiz : QuizSet := ⟨1, 7, "sums", none, .pub, 1, []⟩

def first : Question := ⟨10, 1, 1, "1 + 1", .singleChoice, 20, 1000, none⟩

def second : Question := ⟨11, 1, 2, "1 + 2", .singleChoice, 20, 1000, none⟩

def db : Db := { emptyDb with quizSets := [quiz], questions := [first, second] }

end Demo

/-- Its second question moves to the top. -/
theorem positionUpdates_refine_lists_two : ∃ qs',
    repositioned Demo.second (some 1) Demo.db.questions = some qs' ∧
      Becomes 1 qs' [Demo.second, Demo.first] := by
  have hMoves := (positionUpdates_refine_lists Demo.db 1 Demo.quiz (by decide) (by decide)
    (by decide) (by unfold Contiguous; decide) (by decide)).2.1
  obtain ⟨-, qs', hMoved, hBecomes⟩ :=
    hMoves Demo.second (by decide) (by decide) 1 (by decide) (by decide)
  exact ⟨qs', hMoved, hBecomes⟩

end PositionUpdates

end LiveQuiz
