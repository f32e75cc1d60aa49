import LiveQuiz.Results.ListEdits
import Mathlib.Data.List.Pairwise

/-! # Contiguous positions

Over a run of edits the positions of a quiz stay 1 to n as long as every position asked
for lies within the list.
-/

namespace LiveQuiz

open PositionUpdates

set_option autoImplicit false

/-- A request to one of the question endpoints. -/
inductive QuestionEdit where
  | add (ownerId quizSetId questionId : Id) (payload : QuestionCreate) (ids : List Id)
  | update (ownerId questionId : Id) (payload : QuestionUpdate) (ids : List Id)
  | delete (ownerId questionId : Id)
  deriving DecidableEq, Repr

namespace QuestionEdit

/-- `ge=1` on the positions of both schemas. -/
def Admitted : QuestionEdit → Prop
  | add _ _ _ c _ => ∀ p : Int, p ∈ c.position → 1 ≤ p
  | update _ _ u _ => ∀ p : Int, p ∈ u.position → 1 ≤ p
  | delete _ _ => True

def apply : QuestionEdit → Db → Option Db
  | add o s i c ids => addQuestion o s i c ids
  | update o i u ids => updateQuestion o i u ids
  | delete o i => deleteQuestion o i

/-- A refused edit is rolled back. -/
def step (db : Db) (e : QuestionEdit) : Db := (e.apply db).getD db

def run (db : Db) (es : List QuestionEdit) : Db := es.foldl step db

end QuestionEdit

def questionCount (quizSetId : Id) (db : Db) : Nat :=
  (db.questions.filter (·.quizSetId = quizSetId)).length

def owns (ownerId quizSetId : Id) (db : Db) : Prop :=
  ∃ parent, db.quizSets.find? (·.id = quizSetId) = some parent ∧ parent.ownerId = ownerId

/-- The position asked for lies within the list, and no position to be shifted reaches
the sentinel. -/
def QuestionEdit.WithinList (quizSetId : Id) (db : Db) : QuestionEdit → Prop
  | add o s _ c _ => s = quizSetId → owns o s db → ∀ p : Int, p ∈ c.position →
      p ≤ questionCount s db + 1 ∧
        (p ≤ questionCount s db → (questionCount s db : Int) < shiftSentinel)
  | update o i u _ => ∀ q ∈ db.questions, q.id = i → q.quizSetId = quizSetId → owns o quizSetId db →
      ∀ p : Int, p ∈ u.position → p ≠ q.position →
        p ≤ questionCount quizSetId db ∧ (questionCount quizSetId db : Int) < shiftSentinel
  | delete o i => ∀ q ∈ db.questions, q.id = i → q.quizSetId = quizSetId → owns o quizSetId db →
      (questionCount quizSetId db : Int) < shiftSentinel

/-- Every edit of the run is within the list it finds. -/
def RunWithinList (quizSetId : Id) : Db → List QuestionEdit → Prop
  | _, [] => True
  | db, e :: es => e.WithinList quizSetId db ∧ RunWithinList quizSetId (e.step db) es

/-- What every edit keeps. -/
structure Ordered (quizSetId : Id) (qs : List Question) : Prop where
  ids : (qs.map (·.id)).Nodup
  apart : qs.Pairwise Apart
  contiguous : Contiguous quizSetId qs

section

variable {qs qs' : List Question} {us : List BulkUpdate} {quizSetId s : Id} {x : Question}
  {db db' : Db}

theorem runAll_cons {u : BulkUpdate} : runAll (u :: us) qs = some qs' ↔
    (u.run qs).Pairwise Apart ∧ runAll us (u.run qs) = some qs' := by
  rw [runAll, checkedPositions, ← positionsUnique_iff]
  split
  case isTrue hUnique => simp [hUnique]
  case isFalse hClash => simp [hClash]

theorem ids_runAll (h : runAll us qs = some qs') : qs'.map (·.id) = qs.map (·.id) := by
  induction us generalizing qs with
  | nil =>
    cases h
    rfl
  | cons u us ih =>
    obtain ⟨-, hRest⟩ := runAll_cons.mp h
    rw [ih hRest, BulkUpdate.run, shift_ids]

theorem apart_runAll (hApart : qs.Pairwise Apart) (h : runAll us qs = some qs') :
    qs'.Pairwise Apart := by
  induction us generalizing qs with
  | nil =>
    cases h
    exact hApart
  | cons u us ih =>
    obtain ⟨hChecked, hRest⟩ := runAll_cons.mp h
    exact ih hChecked hRest

theorem elsewhere_runAll
    (hOther : ∀ u ∈ us, ∀ q ∈ qs, q.quizSetId = quizSetId → u.sel q = false)
    (h : runAll us qs = some qs') :
    qs'.filter (·.quizSetId = quizSetId) = qs.filter (·.quizSetId = quizSetId) := by
  induction us generalizing qs with
  | nil =>
    cases h
    rfl
  | cons u us ih =>
    obtain ⟨-, hRest⟩ := runAll_cons.mp h
    have hSame : ∀ q ∈ qs, q.quizSetId = quizSetId → shifted u.sel u.value q = q :=
      fun q hq hQuiz => shifted_of_neg (hOther u List.mem_cons_self q hq hQuiz)
    have hFilter : (u.run qs).filter (·.quizSetId = quizSetId) =
        qs.filter (·.quizSetId = quizSetId) := by
      rw [BulkUpdate.run, filter_shift]
      apply shift_none
      intro q hq
      obtain ⟨hMem, hQuiz⟩ := List.mem_filter.mp hq
      exact hOther u List.mem_cons_self q hMem (of_decide_eq_true hQuiz)
    rw [← hFilter]
    apply ih _ hRest
    intro u' hu' q' hq' hQuiz
    obtain ⟨q, hq, rfl⟩ := List.mem_map.mp hq'
    change (shifted u.sel u.value q).quizSetId = quizSetId at hQuiz
    rw [shifted_quizSetId] at hQuiz
    change u'.sel (shifted u.sel u.value q) = false
    rw [hSame q hq hQuiz]
    exact hOther u' (List.mem_cons_of_mem _ hu') q hq hQuiz

theorem Contiguous.congr (h : Contiguous quizSetId qs)
    (hRows : (qs'.filter (·.quizSetId = quizSetId)).map (·.position) =
      (qs.filter (·.quizSetId = quizSetId)).map (·.position)) : Contiguous quizSetId qs' := by
  have hLength := congrArg List.length hRows
  rw [List.length_map, List.length_map] at hLength
  rw [Contiguous, hRows, hLength]
  exact h

theorem checkedPositions_some (h : checkedPositions qs = some qs') :
    qs' = qs ∧ qs.Pairwise Apart := by
  unfold checkedPositions at h
  split at h
  case isTrue hUnique =>
    cases h
    exact ⟨rfl, positionsUnique_iff.mp hUnique⟩
  case isFalse => cases h

theorem addQuestion_some {o i : Id} {c : QuestionCreate} {ids : List Id}
    (h : addQuestion o s i c ids db = some db') :
    owns o s db ∧ (∀ q ∈ db.questions, q.id ≠ i) ∧ ∃ shifted,
      makeRoom s c.position (maxQuestionPosition s db.questions) db.questions = some shifted ∧
      db'.questions = shifted ++ [newQuestion i s c
        (c.position.getD (maxQuestionPosition s db.questions + 1))] ∧
      db'.questions.Pairwise Apart := by
  simp only [addQuestion, Option.bind_eq_bind, Option.bind_eq_some_iff, Option.pure_def,
    Option.some.injEq, Option.guard_eq_some'] at h
  obtain ⟨parent, hParent, -, hOwner, -, hFresh, shifted, hRoom, questions, hChecked, options, -, rfl⟩ := h
  obtain ⟨rfl, hApart⟩ := checkedPositions_some hChecked
  refine ⟨⟨parent, hParent, hOwner⟩, ?_, shifted, hRoom, rfl, hApart⟩
  intro q hq
  exact of_decide_eq_true (List.all_eq_true.mp hFresh q hq)

theorem deleteQuestion_some {o i : Id} (h : deleteQuestion o i db = some db') :
    ∃ x ∈ db.questions, x.id = i ∧ owns o x.quizSetId db ∧
      renumberAfterDelete x.quizSetId x.position (db.questions.filter (·.id ≠ x.id)) =
        some db'.questions := by
  simp only [deleteQuestion, Option.bind_eq_bind, Option.bind_eq_some_iff, Option.pure_def,
    Option.some.injEq, Option.guard_eq_some'] at h
  obtain ⟨x, hFind, parent, hParent, -, hOwner, -, -, questions, hRenumber, rfl⟩ := h
  have hSel := List.find?_some hFind
  obtain rfl : x.id = i := of_decide_eq_true hSel
  exact ⟨x, List.mem_of_find?_eq_some hFind, rfl, ⟨parent, hParent, hOwner⟩, hRenumber⟩

theorem updateQuestion_some {o i : Id} {u : QuestionUpdate} {ids : List Id}
    (h : updateQuestion o i u ids db = some db') :
    ∃ x ∈ db.questions, x.id = i ∧ owns o x.quizSetId db ∧
      repositioned x u.position (updateWhere Question.id x.id u.patch db.questions) =
        some db'.questions := by
  simp only [updateQuestion, Option.bind_eq_bind, Option.bind_eq_some_iff, Option.pure_def,
    Option.some.injEq, Option.guard_eq_some'] at h
  obtain ⟨x, hFind, parent, hParent, -, hOwner, questions, hMoved, options, -, rfl⟩ := h
  have hSel := List.find?_some hFind
  obtain rfl : x.id = i := of_decide_eq_true hSel
  exact ⟨x, List.mem_of_find?_eq_some hFind, rfl, ⟨parent, hParent, hOwner⟩, hMoved⟩

theorem length_quizQuestions (quizSetId : Id) (db : Db) :
    (quizQuestions quizSetId db.questions).length = questionCount quizSetId db :=
  (quizQuestions_perm quizSetId db.questions).length_eq

theorem shift_other (sh : Shift) {u : BulkUpdate} (hu : u ∈ [sh.park, sh.back])
    (hQuiz : x.quizSetId ≠ sh.quizSetId) : u.sel x = false := by
  simp only [List.mem_cons, List.not_mem_nil, or_false] at hu
  obtain rfl | rfl := hu
  · simp [Shift.park, hQuiz]
  · simp [Shift.back, hQuiz]

theorem addQuestion_ids {o i : Id} {c : QuestionCreate} {ids : List Id}
    (hIds : (db.questions.map (·.id)).Nodup) (h : addQuestion o s i c ids db = some db') :
    (db'.questions.map (·.id)).Nodup := by
  obtain ⟨-, hFresh, shifted, hRoom, hQuestions, -⟩ := addQuestion_some h
  rw [makeRoom_eq] at hRoom
  rw [hQuestions, List.map_append, ids_runAll hRoom]
  apply List.nodup_append.mpr
  refine ⟨hIds, List.nodup_singleton _, ?_⟩
  intro j hj k hk
  obtain ⟨q, hq, rfl⟩ := List.mem_map.mp hj
  rw [List.map_singleton, List.mem_singleton] at hk
  rw [hk]
  exact hFresh q hq

theorem Ordered.add {o i : Id} {c : QuestionCreate} {ids : List Id}
    (h : Ordered quizSetId db.questions) (hSome : addQuestion o s i c ids db = some db')
    (hAdmitted : (QuestionEdit.add o s i c ids).Admitted)
    (hWithin : (QuestionEdit.add o s i c ids).WithinList quizSetId db) :
    Ordered quizSetId db'.questions := by
  obtain ⟨hOwns, -, shifted, hRoom, hQuestions, hApart⟩ := addQuestion_some hSome
  have hRun := hRoom
  rw [makeRoom_eq] at hRun
  constructor
  case ids => exact addQuestion_ids h.ids hSome
  case apart => exact hApart
  case contiguous =>
    by_cases hQuiz : s = quizSetId
    case pos =>
      subst hQuiz
      have hInside := hWithin rfl hOwns
      have hLists := h.contiguous.lists
      have hLast := maxQuestionPosition_eq hLists
      rw [← length_quizQuestions] at hInside
      have hRowPosition : (newQuestion i s c (c.position.getD (maxQuestionPosition s db.questions +
          1))).position = c.position.getD ((quizQuestions s db.questions).length + 1) := by
        rw [← hLast]
        rfl
      obtain ⟨-, shifted', hRoom', -, hNew⟩ := add_updates h.ids h.apart hLists
        (fun p hp => ⟨hAdmitted p hp, (hInside p hp).1⟩)
        (fun p hp hLe => by
          have hSmall := (hInside p hp).2 hLe
          unfold shiftSentinel at hSmall
          omega) rfl hRowPosition
      rw [← hLast, hRoom] at hRoom'
      cases hRoom'
      rw [hQuestions]
      exact hNew.contiguous
    case neg =>
      apply h.contiguous.congr
      have hOther : [newQuestion i s c (c.position.getD (maxQuestionPosition s db.questions +
          1))].filter (·.quizSetId = quizSetId) = [] := by
        simp [newQuestion, hQuiz]
      rw [hQuestions, List.filter_append, hOther, List.append_nil]
      congr 1
      apply elsewhere_runAll _ hRun
      intro u hu q _ hRow
      have hElse : q.quizSetId ≠ s := fun hEq => hQuiz (hEq.symm.trans hRow)
      unfold insertUpdates at hu
      split at hu
      · cases hu
      · split at hu
        · exact shift_other (insertShift s _) hu hElse
        · cases hu

theorem Ordered.delete {o i : Id} (h : Ordered quizSetId db.questions)
    (hSome : deleteQuestion o i db = some db')
    (hWithin : (QuestionEdit.delete o i).WithinList quizSetId db) :
    Ordered quizSetId db'.questions := by
  obtain ⟨x, hx, hId, hOwns, hRenumber⟩ := deleteQuestion_some hSome
  have hRun := hRenumber
  rw [renumberAfterDelete_eq] at hRun
  constructor
  case ids =>
    rw [ids_runAll hRun]
    exact h.ids.sublist (List.filter_sublist.map _)
  case apart => exact apart_runAll (h.apart.sublist List.filter_sublist) hRun
  case contiguous =>
    by_cases hQuiz : x.quizSetId = quizSetId
    case pos =>
      subst hQuiz
      have hSmall := hWithin x hx hId rfl hOwns
      rw [← length_quizQuestions] at hSmall
      unfold shiftSentinel at hSmall
      obtain ⟨-, qs', hRenumber', hNew⟩ :=
        delete_updates h.ids h.apart h.contiguous.lists h.contiguous.placed hx (by omega)
      rw [hRenumber] at hRenumber'
      cases hRenumber'
      exact hNew.contiguous
    case neg =>
      apply h.contiguous.congr
      have hRows : (db.questions.filter (·.id ≠ x.id)).filter (·.quizSetId = quizSetId) =
          db.questions.filter (·.quizSetId = quizSetId) := by
        rw [List.filter_filter]
        apply List.filter_congr
        intro q hq
        have hElse : q.quizSetId = quizSetId → q.id ≠ x.id := by
          intro hRow hSame
          rw [belongs_of_mem h.ids hx q hq hSame] at hRow
          exact hQuiz hRow
        simpa using hElse
      rw [← hRows]
      congr 1
      apply elsewhere_runAll _ hRun
      intro u hu q _ hRow
      exact shift_other (deleteShift x.quizSetId _) hu
        fun hEq => hQuiz (hEq.symm.trans hRow)

theorem exists_at (h : Contiguous quizSetId qs) {p : Int} (hLow : 1 ≤ p)
    (hHigh : p ≤ (quizQuestions quizSetId qs).length) :
    ∃ y ∈ qs, y.quizSetId = quizSetId ∧ y.position = p := by
  have hRows := (quizQuestions_perm quizSetId qs).length_eq
  have hMem : p ∈ positionsFrom 1 (qs.filter (·.quizSetId = quizSetId)).length := by
    apply List.mem_map.mpr
    refine ⟨place p, List.mem_range.mpr ?_, ?_⟩
    · unfold place
      omega
    · unfold place
      omega
  rw [← h.mem_iff] at hMem
  obtain ⟨y, hy, hPosition⟩ := List.mem_map.mp hMem
  obtain ⟨hIn, hQuiz⟩ := List.mem_filter.mp hy
  exact ⟨y, hIn, of_decide_eq_true hQuiz, hPosition⟩

theorem not_apart {a b : Question} (ha : a ∈ qs) (hb : b ∈ qs) (hId : a.id ≠ b.id)
    (hQuiz : a.quizSetId = b.quizSetId) (hPosition : a.position = b.position) :
    ¬ qs.Pairwise Apart := by
  intro hApart
  have hSymm : Std.Symm Apart := ⟨fun _ _ h => h.symm⟩
  have hNe : a ≠ b := fun hEq => hId (congrArg Question.id hEq)
  exact hApart.forall ha hb hNe hQuiz hPosition

theorem mem_run {u : BulkUpdate} (hx : x ∈ qs) : shifted u.sel u.value x ∈ u.run qs :=
  List.mem_map_of_mem hx

/-- With a question at the park position no other can be parked, and that one cannot make
room above itself. -/
theorem full_no_move {p : Int} (h : Ordered quizSetId qs) (hx : x ∈ qs)
    (hQuiz : x.quizSetId = quizSetId) (hFull : (quizQuestions quizSetId qs).length = 999999)
    (hLow : 1 ≤ p) (hHigh : p ≤ 999999) (hMoves : p ≠ x.position) :
    runAll (moveUpdates quizSetId x p) qs ≠ some qs' := by
  intro hRun
  obtain ⟨hParked, hRest⟩ := runAll_cons.mp hRun
  obtain ⟨-, hRest⟩ := runAll_cons.mp hRest
  obtain ⟨hBack, -⟩ := runAll_cons.mp hRest
  have hParkedX : shifted (moveRow x.id parkPosition).sel (moveRow x.id parkPosition).value x =
      { x with position := parkPosition } := shifted_of_pos (decide_eq_true rfl)
  by_cases hLast : x.position = 999999
  case pos =>
    obtain ⟨y, hy, hQuizY, hPosition⟩ := exists_at (p := 999998) h.contiguous (by decide)
      (by rw [hFull]; decide)
    have hId : y.id ≠ x.id := by
      intro hSame
      rw [List.inj_on_of_nodup_map h.ids hy hx hSame, hLast] at hPosition
      exact absurd hPosition (by decide)
    have hUp : p < x.position := by omega
    -- the sibling comes back to the place where the question is parked
    have hSibling : shifted (moveShift quizSetId x p).back.sel (moveShift quizSetId x p).back.value
        (shifted (moveShift quizSetId x p).park.sel (moveShift quizSetId x p).park.value
          (shifted (moveRow x.id parkPosition).sel (moveRow x.id parkPosition).value y)) =
        { y with position := 999999 } := by
      have hBelow : p ≤ 999998 := by omega
      have hOther : shifted (moveRow x.id parkPosition).sel (moveRow x.id parkPosition).value y = y :=
        shifted_of_neg (decide_eq_false hId)
      rw [hOther, moveShift_up hUp]
      simp [shifted, Shift.park, Shift.back, hQuizY, hPosition, hLast, hId, hBelow, shiftSentinel]
    have hStays : shifted (moveShift quizSetId x p).back.sel (moveShift quizSetId x p).back.value
        (shifted (moveShift quizSetId x p).park.sel (moveShift quizSetId x p).park.value
          (shifted (moveRow x.id parkPosition).sel (moveRow x.id parkPosition).value x)) =
        { x with position := parkPosition } := by
      rw [hParkedX, moveShift_up hUp]
      simp [shifted, Shift.park, Shift.back, parkPosition, shiftSentinel]
    have hMemY := mem_run (u := (moveShift quizSetId x p).back)
      (mem_run (u := (moveShift quizSetId x p).park) (mem_run (u := moveRow x.id parkPosition) hy))
    have hMemX := mem_run (u := (moveShift quizSetId x p).back)
      (mem_run (u := (moveShift quizSetId x p).park) (mem_run (u := moveRow x.id parkPosition) hx))
    rw [hSibling] at hMemY
    rw [hStays] at hMemX
    exact not_apart hMemY hMemX hId (hQuizY.trans hQuiz.symm) rfl hBack
  case neg =>
    obtain ⟨y, hy, hQuizY, hPosition⟩ := exists_at (p := 999999) h.contiguous (by decide)
      (by rw [hFull]; decide)
    have hId : y.id ≠ x.id := by
      intro hSame
      rw [List.inj_on_of_nodup_map h.ids hy hx hSame] at hPosition
      exact hLast hPosition
    have hMemY := mem_run (u := moveRow x.id parkPosition) hy
    have hMemX := mem_run (u := moveRow x.id parkPosition) hx
    rw [shifted_of_neg (decide_eq_false hId)] at hMemY
    rw [hParkedX] at hMemX
    exact not_apart hMemY hMemX hId (hQuizY.trans hQuiz.symm) hPosition hParked

theorem patch_ids (u : QuestionUpdate) (x : Question) (qs : List Question) :
    (updateWhere Question.id x.id u.patch qs).map (·.id) = qs.map (·.id) := by
  rw [updateWhere, List.map_map]
  apply List.map_congr_left
  intro q _
  simp only [Function.comp_apply]
  split <;> rfl

theorem updateQuestion_ids {o i : Id} {u : QuestionUpdate} {ids : List Id}
    (h : updateQuestion o i u ids db = some db') :
    db'.questions.map (·.id) = db.questions.map (·.id) := by
  obtain ⟨x, -, -, -, hMoved⟩ := updateQuestion_some h
  cases hPosition : u.position with
  | none =>
    rw [hPosition] at hMoved
    rw [← Option.some.inj hMoved, patch_ids]
  | some p =>
    rw [hPosition, repositioned_eq] at hMoved
    rw [ids_runAll hMoved, patch_ids]

theorem patch_places (u : QuestionUpdate) (x : Question) (qs : List Question) :
    (updateWhere Question.id x.id u.patch qs).map (fun q => (q.quizSetId, q.position)) =
      qs.map fun q => (q.quizSetId, q.position) := by
  rw [updateWhere, List.map_map]
  apply List.map_congr_left
  intro q _
  simp only [Function.comp_apply]
  split <;> rfl

theorem patch_positions (quizSetId : Id) (u : QuestionUpdate) (x : Question) (qs : List Question) :
    ((updateWhere Question.id x.id u.patch qs).filter (·.quizSetId = quizSetId)).map (·.position) =
      (qs.filter (·.quizSetId = quizSetId)).map (·.position) := by
  have hFiltered := congrArg (List.filter fun r : Id × Int => decide (r.1 = quizSetId))
    (patch_places u x qs)
  rw [List.filter_map, List.filter_map] at hFiltered
  have hPositions := congrArg (List.map Prod.snd) hFiltered
  rw [List.map_map, List.map_map] at hPositions
  exact hPositions

theorem Ordered.patch (h : Ordered quizSetId qs) (u : QuestionUpdate) :
    Ordered quizSetId (updateWhere Question.id x.id u.patch qs) := by
  constructor
  case ids =>
    rw [patch_ids]
    exact h.ids
  case apart =>
    have hUnique := positionsUnique_iff.mpr h.apart
    rw [positionsUnique, ← patch_places u x] at hUnique
    exact positionsUnique_iff.mp hUnique
  case contiguous => exact h.contiguous.congr (patch_positions quizSetId u x qs)

theorem Ordered.move {p : Int} (h : Ordered quizSetId qs) (hx : x ∈ qs)
    (hRun : runAll (moveUpdates x.quizSetId x p) qs = some qs') (hMoves : p ≠ x.position)
    (hInside : x.quizSetId = quizSetId → 1 ≤ p ∧ p ≤ (quizQuestions quizSetId qs).length ∧
      (quizQuestions quizSetId qs).length < 1000000) : Ordered quizSetId qs' := by
  constructor
  case ids =>
    rw [ids_runAll hRun]
    exact h.ids
  case apart => exact apart_runAll h.apart hRun
  case contiguous =>
    by_cases hQuiz : x.quizSetId = quizSetId
    case pos =>
      obtain ⟨hLow, hHigh, hSmall⟩ := hInside hQuiz
      subst hQuiz
      by_cases hFull : (quizQuestions x.quizSetId qs).length = 999999
      case pos =>
        rw [hFull] at hHigh
        exact absurd hRun (full_no_move h hx rfl hFull hLow hHigh hMoves)
      case neg =>
        obtain ⟨-, qs'', hMoved, hNew⟩ :=
          move_updates h.ids h.apart h.contiguous.lists h.contiguous.placed hx hLow hHigh (by omega)
        rw [repositioned_eq, repositionUpdates, if_neg hMoves, hRun] at hMoved
        cases hMoved
        exact hNew.contiguous
    case neg =>
      apply h.contiguous.congr
      congr 1
      apply elsewhere_runAll _ hRun
      intro u hu q hq hRow
      have hElse : q.quizSetId ≠ x.quizSetId := fun hEq => hQuiz (hEq.symm.trans hRow)
      have hOther : q.id ≠ x.id := fun hSame => hElse (belongs_of_mem h.ids hx q hq hSame)
      simp only [moveUpdates, List.mem_cons, List.not_mem_nil, or_false] at hu
      obtain rfl | rfl | rfl | rfl := hu
      · exact decide_eq_false hOther
      · exact shift_other (moveShift x.quizSetId x p) (by simp) hElse
      · exact shift_other (moveShift x.quizSetId x p) (by simp) hElse
      · exact decide_eq_false hOther

theorem Ordered.update {o i : Id} {u : QuestionUpdate} {ids : List Id}
    (h : Ordered quizSetId db.questions) (hSome : updateQuestion o i u ids db = some db')
    (hAdmitted : (QuestionEdit.update o i u ids).Admitted)
    (hWithin : (QuestionEdit.update o i u ids).WithinList quizSetId db) :
    Ordered quizSetId db'.questions := by
  obtain ⟨x, hx, hId, hOwns, hMoved⟩ := updateQuestion_some hSome
  have hPatched : Ordered quizSetId (updateWhere Question.id x.id u.patch db.questions) := h.patch u
  cases hPosition : u.position with
  | none =>
    rw [hPosition] at hMoved
    rw [← Option.some.inj hMoved]
    exact hPatched
  | some p =>
    rw [hPosition, repositioned_eq, repositionUpdates] at hMoved
    split at hMoved
    case isTrue hSame =>
      rw [← Option.some.inj hMoved]
      exact hPatched
    case isFalse hMoves =>
      have hMem : u.patch x ∈ updateWhere Question.id x.id u.patch db.questions :=
        List.mem_map.mpr ⟨x, hx, if_pos rfl⟩
      have hCount : (quizQuestions quizSetId
          (updateWhere Question.id x.id u.patch db.questions)).length =
          questionCount quizSetId db := by
        have hLength := congrArg List.length (patch_positions quizSetId u x db.questions)
        rw [List.length_map, List.length_map] at hLength
        rw [(quizQuestions_perm _ _).length_eq, hLength]
        rfl
      apply Ordered.move hPatched hMem hMoved hMoves
      intro hQuiz
      obtain ⟨hHigh, hSmall⟩ := hWithin x hx hId hQuiz (hQuiz ▸ hOwns) p hPosition hMoves
      unfold shiftSentinel at hSmall
      rw [hCount]
      exact ⟨hAdmitted p hPosition, hHigh, by omega⟩

theorem Ordered.step {e : QuestionEdit} (h : Ordered quizSetId db.questions)
    (hAdmitted : e.Admitted) (hWithin : e.WithinList quizSetId db) :
    Ordered quizSetId (e.step db).questions := by
  unfold QuestionEdit.step
  cases hSome : e.apply db with
  | none => exact h
  | some db' =>
    cases e with
    | add o s i c ids => exact h.add hSome hAdmitted hWithin
    | update o i u ids => exact h.update hSome hAdmitted hWithin
    | delete o i => exact h.delete hSome hWithin

theorem Ordered.run {es : List QuestionEdit} (h : Ordered quizSetId db.questions)
    (hAdmitted : ∀ e ∈ es, e.Admitted) (hWithin : RunWithinList quizSetId db es) :
    Ordered quizSetId (QuestionEdit.run db es).questions := by
  induction es generalizing db with
  | nil => exact h
  | cons e es ih =>
    obtain ⟨hHere, hRest⟩ := hWithin
    apply ih (h.step (hAdmitted e List.mem_cons_self) hHere)
    · exact fun e' he' => hAdmitted e' (List.mem_cons_of_mem _ he')
    · exact hRest

theorem runWithinList_take {es : List QuestionEdit} (h : RunWithinList quizSetId db es) (k : Nat) :
    RunWithinList quizSetId db (es.take k) := by
  induction es generalizing db k with
  | nil =>
    rw [List.take_nil]
    trivial
  | cons e es ih =>
    cases k with
    | zero => trivial
    | succ k => exact ⟨h.1, ih h.2 k⟩

end

/-- On a quiz that starts without questions, edits that ask for positions within the list
keep the positions 1 to n after each of them. -/
theorem positions_contiguous (s : Id) (db : Db) (es : List QuestionEdit)
    (hIds : (db.questions.map (·.id)).Nodup) (hUnique : positionsUnique db.questions = true)
    (hEmpty : ∀ q ∈ db.questions, q.quizSetId ≠ s) (hAdmitted : ∀ e ∈ es, e.Admitted)
    (hWithin : RunWithinList s db es) (k : Nat) :
    Contiguous s (QuestionEdit.run db (es.take k)).questions := by
  have hNone : db.questions.filter (·.quizSetId = s) = [] := by
    apply List.filter_eq_nil_iff.mpr
    intro q hq
    simp [hEmpty q hq]
  have hStart : Ordered s db.questions := by
    constructor
    case ids => exact hIds
    case apart => exact positionsUnique_iff.mp hUnique
    case contiguous =>
      rw [Contiguous, hNone]
      exact List.Perm.refl []
  have hTaken : ∀ e ∈ es.take k, e.Admitted := fun e he => hAdmitted e (List.mem_of_mem_take he)
  exact (hStart.run hTaken (runWithinList_take hWithin k)).contiguous

namespace QuestionEdit.Demo

def quiz : QuizSet := ⟨1, 7, "sums", none, .pub, 1, []⟩

/-- A quiz without questions. -/
def db : Db := { emptyDb with quizSets := [quiz] }

def question (position : Option Int) : QuestionCreate :=
  ⟨position, "1 + 1", .singleChoice, 20, 1000, none, [⟨1, "2", true⟩, ⟨2, "3", false⟩]⟩

/-- Two questions, the second above the first; then it goes below, and the first is deleted. -/
def inside : List QuestionEdit :=
  [add 7 1 10 (question none) [20, 21], add 7 1 11 (question (some 1)) [22, 23],
    update 7 11 { position := some 2 } [], delete 7 10]

/-- The first question, asked to be the fifth. -/
def beyond : QuestionEdit := add 7 1 10 (question (some 5)) [20, 21]

end QuestionEdit.Demo

theorem positions_contiguous_inside :
    Contiguous 1 (QuestionEdit.run QuestionEdit.Demo.db
      (QuestionEdit.Demo.inside.take 3)).questions := by
  apply positions_contiguous 1 QuestionEdit.Demo.db QuestionEdit.Demo.inside
  · decide
  · decide
  · decide
  · intro e he
    simp only [QuestionEdit.Demo.inside, List.mem_cons, List.not_mem_nil, or_false] at he
    obtain rfl | rfl | rfl | rfl := he
    · rintro p ⟨⟩
    · rintro p ⟨⟩
      decide
    · rintro p ⟨⟩
      decide
    · trivial
  · refine ⟨?_, ?_, ?_, ?_, trivial⟩
    · rintro - - p ⟨⟩
    · rintro - - p ⟨⟩
      exact ⟨by decide, fun _ => by decide⟩
    · rintro q - - - - p ⟨⟩ -
      exact ⟨by decide, by decide⟩
    · intro q _ _ _ _
      decide

theorem position_beyond_the_end : QuestionEdit.Demo.beyond.Admitted ∧
    ¬ Contiguous 1 (QuestionEdit.run QuestionEdit.Demo.db [QuestionEdit.Demo.beyond]).questions := by
  constructor
  · intro p hp
    cases hp
    decide
  · unfold Contiguous
    decide

end LiveQuiz
