import LiveQuiz.Results.PositionUpdates

/-! # Moving a question

The question is parked just below the sentinel while its siblings shift in two phases,
and is dropped at its target at the end. -/

namespace LiveQuiz

set_option autoImplicit false

namespace PositionUpdates

def moveRow (questionId : Id) (position : Int) : BulkUpdate where
  sel q := q.id = questionId
  value _ := position

def moveShift (quizSetId : Id) (question : Question) (newPosition : Int) : Shift where
  quizSetId := quizSetId
  affected q :=
    (if newPosition < question.position then newPosition ≤ q.position ∧ q.position < question.position
      else question.position < q.position ∧ q.position ≤ newPosition) ∧ q.id ≠ question.id
  keep q := q.id ≠ question.id
  delta := if newPosition < question.position then 1 else -1

def moveUpdates (quizSetId : Id) (question : Question) (newPosition : Int) : List BulkUpdate :=
  [moveRow question.id parkPosition, (moveShift quizSetId question newPosition).park,
    (moveShift quizSetId question newPosition).back, moveRow question.id newPosition]

section

variable {qs a b c before after inside l : List Question} {x y : Question} {quizSetId : Id}
  {v new k : Int} {sh : Shift}

theorem moveQuestionTo_eq (quizSetId : Id) (question : Question) (newPosition : Int)
    (qs : List Question) :
    moveQuestionTo quizSetId question newPosition qs =
      runAll (moveUpdates quizSetId question newPosition) qs := by
  simp only [moveQuestionTo, setPosition_eq, moveUpdates, runAll, BulkUpdate.run, Shift.park,
    Shift.back, moveShift, moveRow, and_assoc, decide_eq_true_eq]
  simp

def Belongs (questionId quizSetId : Id) (qs : List Question) : Prop :=
  ∀ q ∈ qs, q.id = questionId → q.quizSetId = quizSetId

theorem belongs_of_mem (hIds : (qs.map (·.id)).Nodup) (hx : x ∈ qs) :
    Belongs x.id x.quizSetId qs := by
  intro q hq hId
  rw [List.inj_on_of_nodup_map hIds hq hx hId]

theorem Belongs.shift {i : Id} (h : Belongs i quizSetId qs) (p : Question → Bool) (f : Int → Int) :
    Belongs i quizSetId (shiftPositions p f qs) := by
  intro q hq hId
  obtain ⟨q, hMem, rfl⟩ := List.mem_map.mp hq
  change (shifted p f q).id = i at hId
  change (shifted p f q).quizSetId = quizSetId
  rw [shifted_id] at hId
  rw [shifted_quizSetId]
  exact h q hMem hId

theorem rowSafe_moveRow {i : Id} (hIds : (qs.map (·.id)).Nodup) (hUnique : qs.Pairwise Apart)
    (hBelongs : Belongs i quizSetId qs)
    (hFree : ∀ q ∈ qs, q.quizSetId = quizSetId → q.position ≠ v) : RowSafe (moveRow i v) qs := by
  apply rowSafe_of_apart hIds hUnique
  · intro q hq q' hq' hSel hQuiz hEq
    have hQuizQ := hBelongs q hq (of_decide_eq_true hSel)
    exact hFree q' hq' (hQuiz ▸ hQuizQ) hEq.symm
  · intro q hq q' hq' hSel hSel' _ _
    have hId : q.id = q'.id :=
      (of_decide_eq_true hSel : q.id = i).trans (of_decide_eq_true hSel' : q'.id = i).symm
    rw [List.inj_on_of_nodup_map hIds hq hq' hId]

theorem shift_row (hBefore : ∀ q ∈ before, q.id ≠ y.id) (hAfter : ∀ q ∈ after, q.id ≠ y.id) :
    (moveRow y.id v).run (before ++ y :: after) = before ++ { y with position := v } :: after := by
  have hSame : ∀ l : List Question, (∀ q ∈ l, q.id ≠ y.id) →
      shiftPositions (moveRow y.id v).sel (moveRow y.id v).value l = l :=
    fun l hl => shift_none fun q hq => decide_eq_false (hl q hq)
  rw [BulkUpdate.run, ← List.singleton_append, shift_append, shift_append, hSame before hBefore,
    hSame after hAfter]
  simp [shiftPositions, moveRow]

/-- The table of a move before the question is dropped at its target. -/
def aside (question : Question) (newPosition : Int) (qs : List Question) : List Question :=
  shiftPositions (moveShift question.quizSetId question newPosition).moves
    (· + (moveShift question.quizSetId question newPosition).delta)
    ((moveRow question.id parkPosition).run qs)

theorem move_rowSafe (hIds : (qs.map (·.id)).Nodup) (hUnique : qs.Pairwise Apart) (hx : x ∈ qs)
    (hPark : ∀ q ∈ qs, q.quizSetId = x.quizSetId → q.position ≠ parkPosition)
    (hFits : (moveShift x.quizSetId x new).Fits ((moveRow x.id parkPosition).run qs))
    (hFree : ∀ q ∈ aside x new qs, q.quizSetId = x.quizSetId → q.position ≠ new) :
    AllRowSafe (moveUpdates x.quizSetId x new) qs := by
  have hBelongs := belongs_of_mem hIds hx
  have hParked := rowSafe_moveRow hIds hUnique hBelongs hPark
  have hParkedIds : (((moveRow x.id parkPosition).run qs).map (·.id)).Nodup := by
    rwa [BulkUpdate.run, shift_ids]
  have hAsideIds : ((aside x new qs).map (·.id)).Nodup := by
    rwa [aside, shift_ids]
  have hDropped : RowSafe (moveRow x.id new) (aside x new qs) :=
    rowSafe_moveRow hAsideIds (hFits.apart hParkedIds hParked.apart)
      ((hBelongs.shift _ _).shift _ _) hFree
  refine ⟨hParked, hFits.rowSafe_park hParkedIds hParked.apart,
    hFits.rowSafe_back hParkedIds hParked.apart, ?_, trivial⟩
  rw [hFits.run]
  exact hDropped

theorem move_runAll (hSafe : AllRowSafe (moveUpdates x.quizSetId x new) qs)
    (hFits : (moveShift x.quizSetId x new).Fits ((moveRow x.id parkPosition).run qs)) :
    moveQuestionTo x.quizSetId x new qs = some ((moveRow x.id new).run (aside x new qs)) := by
  rw [moveQuestionTo_eq, hSafe.runAll]
  simp only [moveUpdates, List.foldl_cons, List.foldl_nil, hFits.run, aside]

theorem parked_rows (hIds : (qs.map (·.id)).Nodup) (h : Lists quizSetId qs (a ++ x :: b)) :
    Rows quizSetId ((moveRow x.id parkPosition).run qs)
      (placed 1 a ++ { x with position := parkPosition } :: placed (a.length + 2) b) := by
  obtain ⟨hBefore, hAfter⟩ := id_elsewhere (rows_ids hIds h)
  have hRows : Rows quizSetId qs (placed 1 (a ++ x :: b)) := h
  have hParked := hRows.shift (moveRow x.id parkPosition).sel (moveRow x.id parkPosition).value
  have hRow := shift_row (y := { x with position := 1 + (a.length : Int) }) (v := parkPosition)
    (placed_id_ne (k := 1) hBefore) (placed_id_ne (k := a.length + 2) hAfter)
  rw [placed_append, placed, show (1 : Int) + a.length + 1 = a.length + 2 by omega] at hParked
  rw [Rows]
  refine hParked.trans ?_
  change ((moveRow x.id parkPosition).run _).Perm _
  rw [hRow]

theorem moveShift_up (hUp : new < x.position) :
    moveShift quizSetId x new =
      { quizSetId, affected q := (new ≤ q.position ∧ q.position < x.position) ∧ q.id ≠ x.id
        keep q := q.id ≠ x.id, delta := 1 } := by
  simp [moveShift, hUp]

theorem moveShift_down (hDown : ¬ new < x.position) :
    moveShift quizSetId x new =
      { quizSetId, affected q := (x.position < q.position ∧ q.position ≤ new) ∧ q.id ≠ x.id
        keep q := q.id ≠ x.id, delta := -1 } := by
  simp [moveShift, hDown]

theorem up_segments (hIds : (qs.map (·.id)).Nodup) (h : Lists quizSetId qs (a ++ (b ++ x :: c)))
    (hPosition : x.position = a.length + b.length + 1) (hUp : a.length + 1 < x.position) :
    Segments (moveShift quizSetId x (a.length + 1)) ((moveRow x.id parkPosition).run qs)
      (placed 1 a) (a.length + 1) b
      ({ x with position := parkPosition } :: placed (a.length + b.length + 2) c) := by
  rw [moveShift_up hUp]
  rw [← List.append_assoc] at h
  obtain ⟨hOther, -⟩ := id_elsewhere (rows_ids hIds h)
  rw [List.map_append, List.mem_append, not_or] at hOther
  have hRows := parked_rows hIds h
  rw [List.length_append, placed_append, List.append_assoc] at hRows
  constructor
  case rows =>
    rw [Int.add_comm (a.length : Int) 1]
    push_cast at hRows
    exact hRows
  case moving =>
    intro q hq
    have hRange := placed_range hq
    have hId := placed_id_ne hOther.2 q hq
    simp only [decide_eq_true_eq]
    exact ⟨by omega, hId⟩
  case staying =>
    intro q hq
    simp only [decide_eq_false_iff_not]
    rintro ⟨hBetween, hId⟩
    simp only [List.mem_append, List.mem_cons] at hq
    obtain hBefore | rfl | hAfter := hq
    · have hRange := placed_range hBefore
      omega
    · exact hId rfl
    · have hRange := placed_range hAfter
      omega

theorem down_segments (hIds : (qs.map (·.id)).Nodup) (h : Lists quizSetId qs (a ++ x :: (b ++ c)))
    (hPosition : x.position = a.length + 1) :
    Segments (moveShift quizSetId x (a.length + b.length + 1)) ((moveRow x.id parkPosition).run qs)
      (placed 1 a ++ [{ x with position := parkPosition }]) (a.length + 2) b
      (placed (a.length + b.length + 2) c) := by
  rw [moveShift_down (by omega)]
  obtain ⟨-, hOther⟩ := id_elsewhere (rows_ids hIds h)
  rw [List.map_append, List.mem_append, not_or] at hOther
  have hRows := parked_rows hIds h
  rw [placed_append, show (a.length : Int) + 2 + b.length = a.length + b.length + 2 by omega] at hRows
  constructor
  case rows =>
    rw [List.append_assoc]
    exact hRows
  case moving =>
    intro q hq
    have hRange := placed_range hq
    have hId := placed_id_ne hOther.1 q hq
    simp only [decide_eq_true_eq]
    exact ⟨by omega, hId⟩
  case staying =>
    intro q hq
    simp only [decide_eq_false_iff_not]
    rintro ⟨hBetween, hId⟩
    simp only [List.mem_append, List.mem_singleton] at hq
    obtain (hBefore | rfl) | hAfter := hq
    · have hRange := placed_range hBefore
      omega
    · exact hId rfl
    · have hRange := placed_range hAfter
      omega

theorem up_fits (hIds : (qs.map (·.id)).Nodup) (h : Lists quizSetId qs (a ++ (b ++ x :: c)))
    (hPosition : x.position = a.length + b.length + 1) (hUp : a.length + 1 < x.position)
    (hSmall : (a ++ (b ++ x :: c)).length < 999999) :
    (moveShift quizSetId x (a.length + 1)).Fits ((moveRow x.id parkPosition).run qs) := by
  have hSegments := up_segments hIds h hPosition hUp
  rw [moveShift_up hUp] at hSegments ⊢
  simp only [List.length_append, List.length_cons] at hSmall
  apply hSegments.fits
  · exact fun _ _ => rfl
  · intro q hAffected
    exact decide_eq_true (of_decide_eq_true hAffected).2
  · intro q hq
    unfold shiftSentinel
    simp only [List.mem_append, List.mem_cons] at hq
    obtain hBefore | hInside | rfl | hAfter := hq
    · have hRange := placed_range hBefore
      omega
    · have hRange := placed_range hInside
      omega
    · exact (by decide : 1 ≤ parkPosition ∧ parkPosition < 1000000)
    · have hRange := placed_range hAfter
      omega
  · intro q hq y hy hEq
    change q.position + 1 = y.position at hEq
    have hInside := placed_range hq
    simp only [List.mem_append, List.mem_cons] at hy
    obtain hBefore | rfl | hAfter := hy
    · have hRange := placed_range hBefore
      omega
    · change q.position + 1 = parkPosition at hEq
      unfold parkPosition shiftSentinel at hEq
      omega
    · have hRange := placed_range hAfter
      omega
  · exact le_rfl

theorem down_fits (hIds : (qs.map (·.id)).Nodup) (h : Lists quizSetId qs (a ++ x :: (b ++ c)))
    (hPosition : x.position = a.length + 1) (hSmall : (a ++ x :: (b ++ c)).length < 999999) :
    (moveShift quizSetId x (a.length + b.length + 1)).Fits ((moveRow x.id parkPosition).run qs) := by
  have hSegments := down_segments hIds h hPosition
  rw [moveShift_down (by omega)] at hSegments ⊢
  simp only [List.length_append, List.length_cons] at hSmall
  apply hSegments.fits
  · exact fun _ _ => rfl
  · intro q hAffected
    exact decide_eq_true (of_decide_eq_true hAffected).2
  · intro q hq
    unfold shiftSentinel
    simp only [List.mem_append, List.mem_singleton] at hq
    obtain (hBefore | rfl) | hInside | hAfter := hq
    · have hRange := placed_range hBefore
      omega
    · exact (by decide : 1 ≤ parkPosition ∧ parkPosition < 1000000)
    · have hRange := placed_range hInside
      omega
    · have hRange := placed_range hAfter
      omega
  · intro q hq y hy hEq
    change q.position + -1 = y.position at hEq
    have hInside := placed_range hq
    simp only [List.mem_append, List.mem_singleton] at hy
    obtain (hBefore | rfl) | hAfter := hy
    · have hRange := placed_range hBefore
      omega
    · change q.position + -1 = parkPosition at hEq
      unfold parkPosition shiftSentinel at hEq
      omega
    · have hRange := placed_range hAfter
      omega
  · exact (by decide : (-1 : Int) ≤ 1)

theorem up_aside (hIds : (qs.map (·.id)).Nodup) (h : Lists x.quizSetId qs (a ++ (b ++ x :: c)))
    (hPosition : x.position = a.length + b.length + 1) (hUp : a.length + 1 < x.position) :
    Rows x.quizSetId (aside x (a.length + 1) qs) (placed 1 a ++ (placed (a.length + 2) b ++
      { x with position := parkPosition } :: placed (a.length + b.length + 2) c)) := by
  have hRows := (up_segments hIds h hPosition hUp).shift
  have hDelta : (moveShift x.quizSetId x (a.length + 1)).delta = 1 := by
    rw [moveShift_up hUp]
  rw [hDelta, Int.add_assoc] at hRows
  rw [aside, hDelta]
  exact hRows

theorem down_aside (hIds : (qs.map (·.id)).Nodup) (h : Lists x.quizSetId qs (a ++ x :: (b ++ c)))
    (hPosition : x.position = a.length + 1) :
    Rows x.quizSetId (aside x (a.length + b.length + 1) qs) (placed 1 a ++
      { x with position := parkPosition } ::
        (placed (a.length + 1) b ++ placed (a.length + b.length + 2) c)) := by
  have hRows := (down_segments hIds h hPosition).shift
  have hDelta : (moveShift x.quizSetId x (a.length + b.length + 1)).delta = -1 := by
    rw [moveShift_down (by omega)]
  rw [hDelta, List.append_assoc, show (a.length : Int) + 2 + -1 = a.length + 1 by omega] at hRows
  rw [aside, hDelta]
  exact hRows

theorem park_free (h : Lists quizSetId qs l) (hSmall : l.length < 999999) :
    ∀ q ∈ qs, q.quizSetId = quizSetId → q.position ≠ parkPosition := by
  intro q hq hQuiz
  have hRange := h.range hq hQuiz
  unfold parkPosition shiftSentinel
  omega

theorem up_move (hIds : (qs.map (·.id)).Nodup) (hUnique : qs.Pairwise Apart) (hx : x ∈ qs)
    (h : Lists x.quizSetId qs (a ++ (b ++ x :: c)))
    (hPosition : x.position = a.length + b.length + 1) (hUp : a.length + 1 < x.position)
    (hSmall : (a ++ (b ++ x :: c)).length < 999999) :
    AllRowSafe (moveUpdates x.quizSetId x (a.length + 1)) qs ∧
      ∃ qs', moveQuestionTo x.quizSetId x (a.length + 1) qs = some qs' ∧
        Lists x.quizSetId qs' (a ++ x :: (b ++ c)) := by
  have hFits := up_fits hIds h hPosition hUp hSmall
  have hRows := up_aside hIds h hPosition hUp
  have hFree : ∀ q ∈ aside x (a.length + 1) qs, q.quizSetId = x.quizSetId →
      q.position ≠ a.length + 1 := by
    intro q hq hQuiz hEq
    have hMem := hRows.mem.mpr ⟨hq, hQuiz⟩
    simp only [List.length_append, List.length_cons] at hSmall
    simp only [List.mem_append, List.mem_cons] at hMem
    obtain hBefore | hInside | rfl | hAfter := hMem
    · have hRange := placed_range hBefore
      omega
    · have hRange := placed_range hInside
      omega
    · change parkPosition = _ at hEq
      unfold parkPosition shiftSentinel at hEq
      omega
    · have hRange := placed_range hAfter
      omega
  have hSafe := move_rowSafe hIds hUnique hx (park_free h hSmall) hFits hFree
  refine ⟨hSafe, _, move_runAll hSafe hFits, ?_⟩
  have hNodup := rows_ids hIds h
  rw [← List.append_assoc] at hNodup
  obtain ⟨hBefore, hAfter⟩ := id_elsewhere hNodup
  rw [List.map_append, List.mem_append, not_or] at hBefore
  have hOthers : ∀ q ∈ placed 1 a ++ placed (a.length + 2) b, q.id ≠ x.id := by
    intro q hq
    obtain hq | hq := List.mem_append.mp hq
    · exact placed_id_ne hBefore.1 q hq
    · exact placed_id_ne hBefore.2 q hq
  have hDrop := shift_row (y := { x with position := parkPosition }) (v := a.length + 1) hOthers
    (placed_id_ne (k := a.length + b.length + 2) hAfter)
  have hDropped := hRows.shift (moveRow x.id (a.length + 1)).sel (moveRow x.id (a.length + 1)).value
  rw [← List.append_assoc] at hDropped
  rw [BulkUpdate.run] at hDrop
  rw [hDrop] at hDropped
  rw [Lists]
  apply hDropped.trans
  rw [placed_append, placed, placed_append, List.append_assoc, Int.add_comm 1,
    show (a.length : Int) + 1 + 1 = a.length + 2 by omega,
    show (a.length : Int) + 2 + b.length = a.length + b.length + 2 by omega]
  exact List.Perm.append_left _ List.perm_middle

theorem down_move (hIds : (qs.map (·.id)).Nodup) (hUnique : qs.Pairwise Apart) (hx : x ∈ qs)
    (h : Lists x.quizSetId qs (a ++ x :: (b ++ c))) (hPosition : x.position = a.length + 1)
    (hSmall : (a ++ x :: (b ++ c)).length < 999999) :
    AllRowSafe (moveUpdates x.quizSetId x (a.length + b.length + 1)) qs ∧
      ∃ qs', moveQuestionTo x.quizSetId x (a.length + b.length + 1) qs = some qs' ∧
        Lists x.quizSetId qs' (a ++ (b ++ x :: c)) := by
  have hFits := down_fits hIds h hPosition hSmall
  have hRows := down_aside hIds h hPosition
  have hFree : ∀ q ∈ aside x (a.length + b.length + 1) qs, q.quizSetId = x.quizSetId →
      q.position ≠ a.length + b.length + 1 := by
    intro q hq hQuiz hEq
    have hMem := hRows.mem.mpr ⟨hq, hQuiz⟩
    simp only [List.length_append, List.length_cons] at hSmall
    simp only [List.mem_append, List.mem_cons] at hMem
    obtain hBefore | rfl | hInside | hAfter := hMem
    · have hRange := placed_range hBefore
      omega
    · change parkPosition = _ at hEq
      unfold parkPosition shiftSentinel at hEq
      omega
    · have hRange := placed_range hInside
      omega
    · have hRange := placed_range hAfter
      omega
  have hSafe := move_rowSafe hIds hUnique hx (park_free h hSmall) hFits hFree
  refine ⟨hSafe, _, move_runAll hSafe hFits, ?_⟩
  obtain ⟨hBefore, hAfter⟩ := id_elsewhere (rows_ids hIds h)
  rw [List.map_append, List.mem_append, not_or] at hAfter
  have hOthers : ∀ q ∈ placed (a.length + 1) b ++ placed (a.length + b.length + 2) c,
      q.id ≠ x.id := by
    intro q hq
    obtain hq | hq := List.mem_append.mp hq
    · exact placed_id_ne hAfter.1 q hq
    · exact placed_id_ne hAfter.2 q hq
  have hDrop := shift_row (y := { x with position := parkPosition })
    (v := a.length + b.length + 1) (placed_id_ne (k := 1) hBefore) hOthers
  have hDropped := hRows.shift (moveRow x.id (a.length + b.length + 1)).sel
    (moveRow x.id (a.length + b.length + 1)).value
  rw [BulkUpdate.run] at hDrop
  rw [hDrop] at hDropped
  rw [Lists]
  apply hDropped.trans
  rw [placed_append, placed_append, placed, Int.add_comm 1,
    show (a.length : Int) + 1 + b.length = a.length + b.length + 1 by omega,
    show (a.length : Int) + b.length + 1 + 1 = a.length + b.length + 2 by omega]
  exact List.Perm.append_left _ List.perm_middle.symm

end

end PositionUpdates

end LiveQuiz
