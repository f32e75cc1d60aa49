import LiveQuiz.Results.QuestionOrder

/-! # Positions near the sentinel

The two phases take every row at or above the sentinel for a parked one, and a moving
question waits just below it. Edits of a quiz whose other questions stay clear of both
places neither clash nor reorder what they do not touch.
-/

namespace LiveQuiz

open PositionUpdates

set_option autoImplicit false

namespace QuestionEdit

def subject : QuestionEdit → Id
  | add _ _ i _ _ => i
  | update _ i _ _ => i
  | delete _ i => i

/-- No statement of the edit fails on the unique constraint, in whatever order its rows are
updated. A request that is refused before has no statements. -/
def NoClash (db : Db) : QuestionEdit → Prop
  | add o s i c _ => owns o s db → (∀ q ∈ db.questions, q.id ≠ i) →
      AllRowSafe (insertUpdates s c.position (maxQuestionPosition s db.questions)) db.questions ∧
      ((insertUpdates s c.position (maxQuestionPosition s db.questions)).foldl (fun rows u => u.run rows)
        db.questions ++ [newQuestion i s c
          (c.position.getD (maxQuestionPosition s db.questions + 1))]).Pairwise Apart
  | update o i u _ => ∀ x ∈ db.questions, x.id = i → owns o x.quizSetId db → ∀ p : Int,
      p ∈ u.position → AllRowSafe (repositionUpdates x p) (updateWhere Question.id i u.patch db.questions)
  | delete o i => ∀ x ∈ db.questions, x.id = i → owns o x.quizSetId db →
      AllRowSafe (deleteUpdates x) (db.questions.filter (·.id ≠ i))

/-- An edit that shifts finds no other question of the quiz at or above the sentinel. One that
moves a question finds none at the park position either, and pushes none up to it. -/
def Clear (db : Db) : QuestionEdit → Prop
  | add o s _ c _ => owns o s db → ∀ p : Int, p ∈ c.position → p ≤ maxQuestionPosition s db.questions →
      ∀ q ∈ db.questions, q.quizSetId = s → q.position < shiftSentinel
  | update o i u _ => ∀ x ∈ db.questions, x.id = i → owns o x.quizSetId db → ∀ p : Int,
      p ∈ u.position → p ≠ x.position → ∀ q ∈ db.questions, q.quizSetId = x.quizSetId → q.id ≠ i →
        q.position < parkPosition ∧
          (p ≤ q.position → q.position < x.position → q.position + 1 ≠ parkPosition)
  | delete o i => ∀ x ∈ db.questions, x.id = i → owns o x.quizSetId db →
      ∀ q ∈ db.questions, q.quizSetId = x.quizSetId → q.id ≠ i → q.position < shiftSentinel

end QuestionEdit

/-- Every edit of the run is clear of the sentinel in the state it finds. -/
def RunClear : Db → List QuestionEdit → Prop
  | _, [] => True
  | db, e :: es => e.Clear db ∧ RunClear (e.step db) es

/-- The questions but `i` are all there, in the order they had. -/
def KeepsOrder (i : Id) (qs qs' : List Question) : Prop :=
  ∀ a ∈ qs, ∀ b ∈ qs, a.id ≠ i → b.id ≠ i → a.quizSetId = b.quizSetId → a.position < b.position →
    ∃ a' ∈ qs', ∃ b' ∈ qs', a'.id = a.id ∧ b'.id = b.id ∧ a'.position < b'.position

/-- What every edit keeps. -/
structure Placed (qs : List Question) : Prop where
  ids : (qs.map (·.id)).Nodup
  apart : qs.Pairwise Apart
  positive : ∀ q ∈ qs, 1 ≤ q.position

section

variable {qs qs' : List Question} {x : Question} {s i : Id} {p v : Int} {sh : Shift} {db : Db}

theorem Placed.ne (h : Placed qs) {a b : Question} (ha : a ∈ qs) (hb : b ∈ qs) (hId : a.id ≠ b.id)
    (hQuiz : a.quizSetId = b.quizSetId) : a.position ≠ b.position := fun hEq =>
  not_apart ha hb hId hQuiz hEq h.apart

theorem KeepsOrder.refl (i : Id) (qs : List Question) : KeepsOrder i qs qs :=
  fun a ha b hb _ _ _ hLt => ⟨a, ha, b, hb, rfl, rfl, hLt⟩

theorem KeepsOrder.of_places (g : Question → Int)
    (hPlace : ∀ a ∈ qs, a.id ≠ i → ∃ a' ∈ qs', a'.id = a.id ∧ a'.position = g a)
    (hMono : ∀ a ∈ qs, ∀ b ∈ qs, a.id ≠ i → b.id ≠ i → a.quizSetId = b.quizSetId →
      a.position < b.position → g a < g b) : KeepsOrder i qs qs' := by
  intro a ha b hb hA hB hQuiz hLt
  obtain ⟨a', ha', hIdA, hPosA⟩ := hPlace a ha hA
  obtain ⟨b', hb', hIdB, hPosB⟩ := hPlace b hb hB
  refine ⟨a', ha', b', hb', hIdA, hIdB, ?_⟩
  rw [hPosA, hPosB]
  exact hMono a ha b hb hA hB hQuiz hLt

def PositionUpdates.Shift.place (sh : Shift) (q : Question) : Int :=
  if sh.moves q then q.position + sh.delta else q.position

theorem shifted_place (sh : Shift) (q : Question) :
    (shifted sh.moves (· + sh.delta) q).position = sh.place q := by
  unfold shifted Shift.place
  split <;> rfl

theorem rowSafe_place (h : Placed qs) (hx : x ∈ qs)
    (hFree : ∀ q ∈ qs, q.quizSetId = x.quizSetId → q.id ≠ x.id → q.position ≠ v) :
    RowSafe (moveRow x.id v) qs := by
  intro order hOrder
  have hOnly : ∀ j ∈ order, j = x.id := by
    intro j hj
    obtain ⟨q, hq, rfl⟩ := List.mem_map.mp (hOrder.mem_iff.mp hj)
    exact of_decide_eq_true (List.mem_filter.mp hq).2
  have hNodup : order.Nodup := by
    rw [hOrder.nodup_iff]
    exact h.ids.sublist (List.filter_sublist.map _)
  constructor
  · intro k
    rw [foldl_updateRow _ (hNodup.sublist (List.take_sublist k order)), positionsUnique_iff,
      shiftPositions_eq, List.pairwise_map]
    have hIds : qs.Pairwise fun a b => a.id ≠ b.id := List.pairwise_map.mp h.ids
    apply (hIds.and h.apart).imp_of_mem
    rintro a b ha hb ⟨hNe, hApart⟩ hQuiz hEq
    rw [shifted_quizSetId, shifted_quizSetId] at hQuiz
    have hTaken : ∀ j, j ∈ order.take k → j = x.id := fun j hj => hOnly j (List.mem_of_mem_take hj)
    by_cases hA : a.id ∈ order.take k <;> by_cases hB : b.id ∈ order.take k
    · exact hNe ((hTaken _ hA).trans (hTaken _ hB).symm)
    · rw [shifted_of_pos (decide_eq_true hA), shifted_of_neg (decide_eq_false hB)] at hEq
      have hAx := List.inj_on_of_nodup_map h.ids ha hx (hTaken _ hA)
      exact hFree b hb (hAx ▸ hQuiz.symm) (fun hSame => hNe ((hTaken _ hA).trans hSame.symm)) hEq.symm
    · rw [shifted_of_neg (decide_eq_false hA), shifted_of_pos (decide_eq_true hB)] at hEq
      have hBx := List.inj_on_of_nodup_map h.ids hb hx (hTaken _ hB)
      exact hFree a ha (hBx ▸ hQuiz) (fun hSame => hNe (hSame.trans (hTaken _ hB).symm)) hEq
    · rw [shifted_of_neg (decide_eq_false hA), shifted_of_neg (decide_eq_false hB)] at hEq
      exact hApart hQuiz hEq
  · rw [foldl_updateRow _ hNodup]
    apply shiftPositions_congr
    intro q hq
    rw [Bool.eq_iff_iff, decide_eq_true_eq]
    constructor
    · exact fun hMem => decide_eq_true (hOnly _ hMem)
    · intro hSel
      exact hOrder.mem_iff.mpr (List.mem_map_of_mem (List.mem_filter.mpr ⟨hq, hSel⟩))

theorem clear_insert_fits (h : Placed qs) (p : Int)
    (hClear : ∀ q ∈ qs, q.quizSetId = s → q.position < shiftSentinel) :
    (insertShift s p).Fits qs := by
  constructor
  case stable => exact fun _ _ => rfl
  case kept => exact fun _ _ => rfl
  case range => exact fun q hq hQuiz => ⟨h.positive q hq, hClear q hq hQuiz⟩
  case free =>
    intro a _ b _ hMoves _ hStays
    have hUp : p ≤ a.position := of_decide_eq_true (Shift.moves_iff.mp hMoves).2
    have hDown : ¬ p ≤ b.position := of_decide_eq_false hStays
    change a.position + 1 ≠ b.position
    omega
  case small => exact le_rfl

theorem clear_delete_fits (h : Placed qs) (hx : x ∈ qs)
    (hClear : ∀ q ∈ qs, q.quizSetId = x.quizSetId → q.id ≠ x.id → q.position < shiftSentinel) :
    (deleteShift x.quizSetId x.position).Fits (qs.filter (·.id ≠ x.id)) := by
  constructor
  case stable => exact fun _ _ => rfl
  case kept => exact fun _ _ => rfl
  case range =>
    intro q hq hQuiz
    obtain ⟨hMem, hNe⟩ := List.mem_filter.mp hq
    exact ⟨h.positive q hMem, hClear q hMem hQuiz (of_decide_eq_true hNe)⟩
  case free =>
    intro a _ b hb hMoves hQuiz hStays
    obtain ⟨hMem, hNe⟩ := List.mem_filter.mp hb
    have hOther := h.ne hMem hx (of_decide_eq_true hNe) hQuiz
    have hAbove : x.position < a.position := of_decide_eq_true (Shift.moves_iff.mp hMoves).2
    have hBelow : ¬ x.position < b.position := of_decide_eq_false hStays
    change a.position + -1 ≠ b.position
    omega
  case small => exact (by decide : (-1 : Int) ≤ 1)

def ClearMove (x : Question) (p : Int) (qs : List Question) : Prop :=
  ∀ q ∈ qs, q.quizSetId = x.quizSetId → q.id ≠ x.id → q.position < parkPosition ∧
    (p ≤ q.position → q.position < x.position → q.position + 1 ≠ parkPosition)

theorem mem_parked {q : Question} (hq : q ∈ (moveRow x.id v).run qs) :
    (q.id = x.id ∧ q.position = v) ∨ (q ∈ qs ∧ q.id ≠ x.id) := by
  rw [BulkUpdate.run, shiftPositions_eq] at hq
  obtain ⟨q', hq', rfl⟩ := List.mem_map.mp hq
  by_cases hId : q'.id = x.id
  · rw [shifted_of_pos (decide_eq_true hId)]
    exact .inl ⟨hId, rfl⟩
  · rw [shifted_of_neg (decide_eq_false hId)]
    exact .inr ⟨hq', hId⟩

theorem clear_move_fits (h : Placed qs) (hx : x ∈ qs) (hClear : ClearMove x p qs) :
    (moveShift x.quizSetId x p).Fits ((moveRow x.id parkPosition).run qs) := by
  have hPark : parkPosition = 999999 := rfl
  have hSentinel : shiftSentinel = 1000000 := rfl
  constructor
  case stable => exact fun _ _ => rfl
  case kept =>
    intro q hMoves
    exact decide_eq_true (of_decide_eq_true hMoves).2
  case range =>
    intro q hq hQuiz
    obtain ⟨-, hPosition⟩ | ⟨hMem, hNe⟩ := mem_parked hq
    · omega
    · have hPositive := h.positive q hMem
      have hBelow := (hClear q hMem hQuiz hNe).1
      omega
  case free =>
    intro a ha b hb hMoves hQuizB hStays
    obtain ⟨hQuizA, hAffected⟩ := Shift.moves_iff.mp hMoves
    obtain ⟨hRange, hNeA⟩ := of_decide_eq_true hAffected
    obtain ⟨hIdA, -⟩ | ⟨hMemA, -⟩ := mem_parked ha
    · exact absurd hIdA hNeA
    have hClearA := hClear a hMemA hQuizA hNeA
    obtain ⟨-, hPosition⟩ | ⟨hMemB, hNeB⟩ := mem_parked hb
    · rw [hPosition]
      simp only [moveShift]
      split at hRange
      next hUp =>
        have hNext := hClearA.2 hRange.1 hRange.2
        rw [if_pos hUp]
        exact hNext
      next hDown =>
        rw [if_neg hDown]
        omega
    · have hOther := h.ne hMemB hx hNeB hQuizB
      have hOut : ¬ (if p < x.position then p ≤ b.position ∧ b.position < x.position
          else x.position < b.position ∧ b.position ≤ p) := fun hIn =>
        of_decide_eq_false hStays ⟨hIn, hNeB⟩
      simp only [moveShift]
      split at hRange
      next hUp =>
        rw [if_pos hUp] at hOut ⊢
        omega
      next hDown =>
        rw [if_neg hDown] at hOut ⊢
        omega
  case small =>
    simp only [moveShift]
    split <;> decide

theorem place_move (h : Placed qs) (hx : x ∈ qs) {q : Question} (hq : q ∈ qs)
    (hQuiz : q.quizSetId = x.quizSetId) (hNe : q.id ≠ x.id) :
    (moveShift x.quizSetId x p).place q =
      if p < x.position then
        if p ≤ q.position ∧ q.position < x.position then q.position + 1 else q.position
      else if x.position < q.position ∧ q.position ≤ p then q.position - 1 else q.position := by
  have hOther := h.ne hq hx hNe hQuiz
  by_cases hUp : p < x.position
  · by_cases hIn : p ≤ q.position ∧ q.position < x.position <;>
      simp [Shift.place, Shift.moves, moveShift, hUp, hIn, hQuiz, hNe]
  · by_cases hIn : x.position < q.position ∧ q.position ≤ p <;>
      simp [Shift.place, Shift.moves, moveShift, hUp, hIn, hQuiz, hNe]
    omega

theorem aside_free (h : Placed qs) (hx : x ∈ qs) {q : Question}
    (hq : q ∈ aside x p qs) (hQuiz : q.quizSetId = x.quizSetId) (hNe : q.id ≠ x.id) :
    q.position ≠ p := by
  rw [aside, shiftPositions_eq] at hq
  obtain ⟨q', hq', rfl⟩ := List.mem_map.mp hq
  rw [shifted_quizSetId] at hQuiz
  rw [shifted_id] at hNe
  obtain ⟨hId, -⟩ | ⟨hMem, -⟩ := mem_parked hq'
  · exact absurd hId hNe
  · have hOther := h.ne hMem hx hNe hQuiz
    rw [shifted_place, place_move h hx hMem hQuiz hNe]
    split
    · split <;> omega
    · split <;> omega

theorem Placed.shift {sel : Question → Bool} {f : Int → Int} (h : Placed qs)
    (hApart : (shiftPositions sel f qs).Pairwise Apart)
    (hPositive : ∀ q ∈ qs, sel q = true → 1 ≤ f q.position) : Placed (shiftPositions sel f qs) := by
  constructor
  case ids =>
    rw [shift_ids]
    exact h.ids
  case apart => exact hApart
  case positive =>
    intro q hq
    rw [shiftPositions_eq] at hq
    obtain ⟨q', hq', rfl⟩ := List.mem_map.mp hq
    cases hSel : sel q' with
    | true =>
      rw [shifted_of_pos hSel]
      exact hPositive q' hq' hSel
    | false =>
      rw [shifted_of_neg hSel]
      exact h.positive q' hq'

theorem mem_shift (sh : Shift) {q : Question} (hq : q ∈ qs) :
    ∃ q' ∈ shiftPositions sh.moves (· + sh.delta) qs, q'.id = q.id ∧ q'.position = sh.place q := by
  rw [shiftPositions_eq]
  exact ⟨_, List.mem_map_of_mem hq, shifted_id q, shifted_place sh q⟩

theorem Placed.move (h : Placed qs) (hx : x ∈ qs) (hLow : 1 ≤ p)
    (hClear : ClearMove x p qs) :
    AllRowSafe (moveUpdates x.quizSetId x p) qs ∧
    runAll (moveUpdates x.quizSetId x p) qs = some ((moveRow x.id p).run (aside x p qs)) ∧
    Placed ((moveRow x.id p).run (aside x p qs)) ∧
    KeepsOrder x.id qs ((moveRow x.id p).run (aside x p qs)) := by
  have hFits := clear_move_fits h hx hClear
  have hParkSafe : RowSafe (moveRow x.id parkPosition) qs := by
    apply rowSafe_place h hx
    intro q hq hQuiz hNe hEq
    have hBelow := (hClear q hq hQuiz hNe).1
    omega
  have hParked : Placed ((moveRow x.id parkPosition).run qs) :=
    h.shift hParkSafe.apart fun _ _ _ => (by decide : (1 : Int) ≤ parkPosition)
  have hBackApart := hFits.apart hParked.ids hParked.apart
  have hPositive : ∀ q ∈ (moveRow x.id parkPosition).run qs,
      (moveShift x.quizSetId x p).moves q = true →
        1 ≤ q.position + (moveShift x.quizSetId x p).delta := by
    intro q hq hMoving
    have hAt := hParked.positive q hq
    have hxAt := h.positive x hx
    obtain ⟨hRange, -⟩ := of_decide_eq_true (Shift.moves_iff.mp hMoving).2
    simp only [moveShift]
    split at hRange
    next hUp =>
      rw [if_pos hUp]
      omega
    next hDown =>
      rw [if_neg hDown]
      omega
  have hAside : Placed (aside x p qs) := hParked.shift hBackApart hPositive
  have hxParked : ({ x with position := parkPosition } : Question) ∈
      (moveRow x.id parkPosition).run qs := by
    have hMem := mem_run (u := moveRow x.id parkPosition) hx
    rwa [shifted_of_pos (decide_eq_true rfl)] at hMem
  have hxAside : ({ x with position := parkPosition } : Question) ∈ aside x p qs := by
    have hStays : (moveShift x.quizSetId x p).moves { x with position := parkPosition } = false := by
      simp [Shift.moves, moveShift]
    rw [aside, shiftPositions_eq]
    have hMem := List.mem_map_of_mem
      (f := shifted (moveShift x.quizSetId x p).moves (· + (moveShift x.quizSetId x p).delta)) hxParked
    rwa [shifted_of_neg hStays] at hMem
  have hDrop : RowSafe (moveRow x.id p) (aside x p qs) :=
    rowSafe_place (x := { x with position := parkPosition }) hAside hxAside
      fun q hq hQuiz hNe => aside_free h hx hq hQuiz hNe
  have hSafe : AllRowSafe (moveUpdates x.quizSetId x p) qs := by
    refine ⟨hParkSafe, hFits.rowSafe_park hParked.ids hParked.apart,
      hFits.rowSafe_back hParked.ids hParked.apart, ?_, trivial⟩
    rw [hFits.run]
    exact hDrop
  refine ⟨hSafe, ?_, ?_, ?_⟩
  · rw [← moveQuestionTo_eq]
    exact move_runAll hSafe hFits
  · exact hAside.shift hDrop.apart fun _ _ _ => hLow
  · apply KeepsOrder.of_places (moveShift x.quizSetId x p).place
    · intro a ha hNe
      have hParkedA : a ∈ (moveRow x.id parkPosition).run qs := by
        have hMem := mem_run (u := moveRow x.id parkPosition) ha
        rwa [shifted_of_neg (decide_eq_false hNe)] at hMem
      obtain ⟨a', ha', hId, hPlace⟩ := mem_shift (moveShift x.quizSetId x p) hParkedA
      refine ⟨a', ?_, hId, hPlace⟩
      have hMem := mem_run (u := moveRow x.id p) ha'
      rwa [shifted_of_neg (decide_eq_false (hId ▸ hNe))] at hMem
    · intro a ha b hb hA hB hQuiz hLt
      by_cases hOwn : a.quizSetId = x.quizSetId
      · have hOwnB := hQuiz.symm.trans hOwn
        have hOtherA := h.ne ha hx hA hOwn
        have hOtherB := h.ne hb hx hB hOwnB
        rw [place_move h hx ha hOwn hA, place_move h hx hb hOwnB hB]
        split
        · split <;> split <;> omega
        · split <;> split <;> omega
      · have hStay : ∀ q : Question, q.quizSetId ≠ x.quizSetId →
            (moveShift x.quizSetId x p).place q = q.position := fun q hq =>
          if_neg fun hMoving => hq (Shift.moves_iff.mp hMoving).1
        rw [hStay a hOwn, hStay b (hQuiz ▸ hOwn)]
        exact hLt

theorem KeepsOrder.append (h : KeepsOrder i qs qs') (l : List Question) :
    KeepsOrder i qs (qs' ++ l) := by
  intro a ha b hb hA hB hQuiz hLt
  obtain ⟨a', ha', b', hb', hRest⟩ := h a ha b hb hA hB hQuiz hLt
  exact ⟨a', List.mem_append_left _ ha', b', List.mem_append_left _ hb', hRest⟩

theorem le_foldl_max (l : List Question) (m : Int) :
    m ≤ l.foldl (fun m q => max m q.position) m ∧
      ∀ q ∈ l, q.position ≤ l.foldl (fun m q => max m q.position) m := by
  induction l generalizing m with
  | nil => exact ⟨le_rfl, fun _ h => by cases h⟩
  | cons y l ih =>
    obtain ⟨hBase, hRest⟩ := ih (max m y.position)
    refine ⟨(le_max_left _ _).trans hBase, fun q hq => ?_⟩
    obtain rfl | hq := List.mem_cons.mp hq
    · exact (le_max_right _ _).trans hBase
    · exact hRest q hq

theorem le_max_position (s : Id) (qs : List Question) : 0 ≤ maxQuestionPosition s qs :=
  (le_foldl_max _ 0).1

theorem le_maxQuestionPosition {q : Question} (hq : q ∈ qs) (hQuiz : q.quizSetId = s) :
    q.position ≤ maxQuestionPosition s qs :=
  (le_foldl_max _ 0).2 q (List.mem_filter.mpr ⟨hq, decide_eq_true hQuiz⟩)

theorem Placed.makeRoom (h : Placed qs) {position : Option Int} (hLow : ∀ p : Int, p ∈ position → 1 ≤ p)
    (hClear : ∀ p : Int, p ∈ position → p ≤ maxQuestionPosition s qs →
      ∀ q ∈ qs, q.quizSetId = s → q.position < shiftSentinel) :
    AllRowSafe (insertUpdates s position (maxQuestionPosition s qs)) qs ∧
    Placed ((insertUpdates s position (maxQuestionPosition s qs)).foldl (fun rows u => u.run rows) qs) ∧
    (∀ q ∈ (insertUpdates s position (maxQuestionPosition s qs)).foldl (fun rows u => u.run rows) qs,
      q.quizSetId = s → q.position ≠ position.getD (maxQuestionPosition s qs + 1)) ∧
    KeepsOrder i qs
      ((insertUpdates s position (maxQuestionPosition s qs)).foldl (fun rows u => u.run rows) qs) := by
  have hLast : ∀ q ∈ qs, q.quizSetId = s → q.position ≤ maxQuestionPosition s qs :=
    fun q hq hQuiz => le_maxQuestionPosition hq hQuiz
  cases position with
  | none =>
    refine ⟨trivial, h, fun q hq hQuiz => ?_, .refl i qs⟩
    have hBelow := hLast q hq hQuiz
    change q.position ≠ maxQuestionPosition s qs + 1
    omega
  | some p =>
    by_cases hShift : p ≤ maxQuestionPosition s qs
    · have hFits := clear_insert_fits h p (hClear p rfl hShift)
      have hTable : (insertUpdates s (some p) (maxQuestionPosition s qs)).foldl
          (fun rows u => u.run rows) qs =
          shiftPositions (insertShift s p).moves (· + (insertShift s p).delta) qs := by
        simp only [insertUpdates, if_pos hShift, List.foldl_cons, List.foldl_nil]
        exact hFits.run
      rw [hTable]
      refine ⟨?_, h.shift (hFits.apart h.ids h.apart) ?_, ?_, ?_⟩
      · simp only [insertUpdates, if_pos hShift]
        exact hFits.rowSafe h.ids h.apart
      · intro q hq _
        have hPositive := h.positive q hq
        change 1 ≤ q.position + 1
        omega
      · intro q hq hQuiz
        rw [shiftPositions_eq] at hq
        obtain ⟨q', hq', rfl⟩ := List.mem_map.mp hq
        rw [shifted_quizSetId] at hQuiz
        rw [shifted_place, Option.getD_some]
        by_cases hUp : p ≤ q'.position <;>
          simp [Shift.place, Shift.moves, insertShift, hQuiz, hUp] <;> omega
      · apply KeepsOrder.of_places (insertShift s p).place
        · exact fun a ha _ => mem_shift _ ha
        · intro a ha b hb _ _ hQuiz hLt
          by_cases hOwn : b.quizSetId = s
          · by_cases hA : p ≤ a.position <;> by_cases hB : p ≤ b.position <;>
              simp [Shift.place, Shift.moves, insertShift, hQuiz, hOwn, hA, hB] <;> omega
          · simp [Shift.place, Shift.moves, insertShift, hQuiz, hOwn, hLt]
    · have hTable : insertUpdates s (some p) (maxQuestionPosition s qs) = [] := by
        simp [insertUpdates, hShift]
      rw [hTable]
      refine ⟨trivial, h, fun q hq hQuiz => ?_, .refl i qs⟩
      have hBelow := hLast q hq hQuiz
      change q.position ≠ p
      omega

theorem apart_snoc {row : Question} (h : qs.Pairwise Apart)
    (hFree : ∀ q ∈ qs, q.quizSetId = row.quizSetId → q.position ≠ row.position) :
    (qs ++ [row]).Pairwise Apart := by
  refine List.pairwise_append.mpr ⟨h, List.pairwise_singleton _ _, fun q hq y hy hQuiz => ?_⟩
  rw [List.mem_singleton.mp hy] at hQuiz ⊢
  exact hFree q hq hQuiz

/-- What one edit does to the questions. -/
structure Careful (db : Db) (e : QuestionEdit) : Prop where
  noClash : e.NoClash db
  placed : Placed (e.step db).questions
  order : KeepsOrder e.subject db.questions (e.step db).questions

theorem Careful.of_some {e : QuestionEdit} (h : Placed db.questions) (hNoClash : e.NoClash db)
    (hSome : ∀ db', e.apply db = some db' →
      Placed db'.questions ∧ KeepsOrder e.subject db.questions db'.questions) : Careful db e := by
  cases hApply : e.apply db with
  | none =>
    have hSame : e.step db = db := by
      rw [QuestionEdit.step, hApply]
      rfl
    refine ⟨hNoClash, ?_, ?_⟩
    · rw [hSame]
      exact h
    · rw [hSame]
      exact .refl _ _
  | some db' =>
    have hStep : e.step db = db' := by
      rw [QuestionEdit.step, hApply]
      rfl
    obtain ⟨hPlaced, hOrder⟩ := hSome db' hApply
    rw [← hStep] at hPlaced hOrder
    exact ⟨hNoClash, hPlaced, hOrder⟩

theorem careful_add {o : Id} {c : QuestionCreate} {ids : List Id} (h : Placed db.questions)
    (hAdmitted : (QuestionEdit.add o s i c ids).Admitted)
    (hClear : (QuestionEdit.add o s i c ids).Clear db) : Careful db (.add o s i c ids) := by
  have hRoomy := fun hOwns : owns o s db => h.makeRoom (i := i) hAdmitted (hClear hOwns)
  apply Careful.of_some h
  · intro hOwns _
    obtain ⟨hSafe, hRoom, hFree, -⟩ := hRoomy hOwns
    exact ⟨hSafe, apart_snoc hRoom.apart hFree⟩
  · intro db' hSome
    obtain ⟨hOwns, hFresh, rows, hRows, hQuestions, hApart⟩ := addQuestion_some hSome
    obtain ⟨hSafe, hRoom, hFree, hOrder⟩ := hRoomy hOwns
    have hRun := hRows
    rw [makeRoom_eq] at hRun
    rw [makeRoom_eq, hSafe.runAll] at hRows
    cases hRows
    refine ⟨⟨?_, hApart, ?_⟩, ?_⟩
    · rw [hQuestions, List.map_append, ids_runAll hRun]
      refine List.nodup_append.mpr ⟨h.ids, List.nodup_singleton _, fun j hj k hk => ?_⟩
      obtain ⟨q, hq, rfl⟩ := List.mem_map.mp hj
      rw [List.mem_singleton.mp hk]
      exact hFresh q hq
    · intro q hq
      rw [hQuestions] at hq
      obtain hOld | hNew := List.mem_append.mp hq
      · exact hRoom.positive q hOld
      · rw [List.mem_singleton.mp hNew]
        change 1 ≤ c.position.getD (maxQuestionPosition s db.questions + 1)
        cases hPosition : c.position with
        | none =>
          have hZero : 0 ≤ maxQuestionPosition s db.questions := le_max_position s db.questions
          change 1 ≤ maxQuestionPosition s db.questions + 1
          omega
        | some p => exact hAdmitted p hPosition
    · rw [hQuestions]
      exact hOrder.append _

theorem careful_delete {o : Id} (h : Placed db.questions)
    (hClear : (QuestionEdit.delete o i).Clear db) : Careful db (.delete o i) := by
  have hRest : Placed (db.questions.filter (·.id ≠ i)) := by
    constructor
    case ids => exact h.ids.sublist (List.filter_sublist.map _)
    case apart => exact h.apart.sublist List.filter_sublist
    case positive => exact fun q hq => h.positive q (List.mem_filter.mp hq).1
  have hFitting : ∀ x ∈ db.questions, x.id = i → owns o x.quizSetId db →
      (deleteShift x.quizSetId x.position).Fits (db.questions.filter (·.id ≠ i)) := by
    rintro x hx rfl hOwns
    exact clear_delete_fits h hx (hClear x hx rfl hOwns)
  apply Careful.of_some h
  · intro x hx hId hOwns
    exact (hFitting x hx hId hOwns).rowSafe hRest.ids hRest.apart
  · intro db' hSome
    obtain ⟨x, hx, rfl, hOwns, hRun⟩ := deleteQuestion_some hSome
    have hFits := hFitting x hx rfl hOwns
    have hSafe : AllRowSafe (deleteUpdates x) (db.questions.filter (·.id ≠ x.id)) :=
      hFits.rowSafe hRest.ids hRest.apart
    rw [renumberAfterDelete_eq] at hRun
    have hQuestions := Option.some.inj (hSafe.runAll.symm.trans hRun)
    simp only [deleteUpdates, List.foldl_cons, List.foldl_nil, hFits.run] at hQuestions
    rw [← hQuestions]
    refine ⟨hRest.shift (hFits.apart hRest.ids hRest.apart) ?_, ?_⟩
    · intro q hq hMoves
      have hAbove : x.position < q.position := of_decide_eq_true (Shift.moves_iff.mp hMoves).2
      have hPositive := h.positive x hx
      change 1 ≤ q.position + -1
      omega
    · apply KeepsOrder.of_places (deleteShift x.quizSetId x.position).place
      · intro a ha hNe
        exact mem_shift _ (List.mem_filter.mpr ⟨ha, decide_eq_true hNe⟩)
      · intro a ha b hb hA hB hQuiz hLt
        by_cases hOwn : b.quizSetId = x.quizSetId
        · have hOtherA := h.ne ha hx hA (hQuiz.trans hOwn)
          by_cases hUpA : x.position < a.position <;> by_cases hUpB : x.position < b.position <;>
            simp [Shift.place, Shift.moves, deleteShift, hQuiz, hOwn, hUpA, hUpB] <;> omega
        · simp [Shift.place, Shift.moves, deleteShift, hQuiz, hOwn, hLt]

theorem mem_patch (u : QuestionUpdate) (i : Id) {q : Question}
    (hq : q ∈ updateWhere Question.id i u.patch qs) :
    ∃ q' ∈ qs, q'.id = q.id ∧ q'.quizSetId = q.quizSetId ∧ q'.position = q.position := by
  obtain ⟨q', hq', rfl⟩ := List.mem_map.mp hq
  refine ⟨q', hq', ?_⟩
  split <;> exact ⟨rfl, rfl, rfl⟩

theorem patch_mem (u : QuestionUpdate) (i : Id) {q : Question} (hq : q ∈ qs) :
    ∃ q' ∈ updateWhere Question.id i u.patch qs,
      q'.id = q.id ∧ q'.quizSetId = q.quizSetId ∧ q'.position = q.position := by
  refine ⟨_, List.mem_map_of_mem hq, ?_⟩
  split <;> exact ⟨rfl, rfl, rfl⟩

theorem Placed.patch (h : Placed qs) (u : QuestionUpdate) (x : Question) :
    Placed (updateWhere Question.id x.id u.patch qs) := by
  constructor
  case ids =>
    rw [patch_ids]
    exact h.ids
  case apart =>
    have hUnique := positionsUnique_iff.mpr h.apart
    rw [positionsUnique, ← patch_places u x] at hUnique
    exact positionsUnique_iff.mp hUnique
  case positive =>
    intro q hq
    obtain ⟨q', hq', -, -, hPosition⟩ := mem_patch u x.id hq
    rw [← hPosition]
    exact h.positive q' hq'

theorem KeepsOrder.patch {u : QuestionUpdate} {j : Id}
    (h : KeepsOrder i (updateWhere Question.id j u.patch qs) qs') : KeepsOrder i qs qs' := by
  intro a ha b hb hA hB hQuiz hLt
  obtain ⟨a₁, ha₁, hIdA, hQuizA, hPosA⟩ := patch_mem u j ha
  obtain ⟨b₁, hb₁, hIdB, hQuizB, hPosB⟩ := patch_mem u j hb
  obtain ⟨a', ha', b', hb', hIdA', hIdB', hLt'⟩ := h a₁ ha₁ b₁ hb₁ (hIdA ▸ hA) (hIdB ▸ hB)
    (by rw [hQuizA, hQuizB, hQuiz]) (by rw [hPosA, hPosB]; exact hLt)
  exact ⟨a', ha', b', hb', hIdA'.trans hIdA, hIdB'.trans hIdB, hLt'⟩

theorem careful_update {o : Id} {u : QuestionUpdate} {ids : List Id} (h : Placed db.questions)
    (hAdmitted : (QuestionEdit.update o i u ids).Admitted)
    (hClear : (QuestionEdit.update o i u ids).Clear db) : Careful db (.update o i u ids) := by
  have hMoving : ∀ x ∈ db.questions, x.id = i → owns o x.quizSetId db → ∀ p : Int, p ∈ u.position →
      p ≠ x.position →
      AllRowSafe (moveUpdates x.quizSetId x p) (updateWhere Question.id i u.patch db.questions) ∧
      runAll (moveUpdates x.quizSetId x p) (updateWhere Question.id i u.patch db.questions) =
        some ((moveRow x.id p).run (aside x p (updateWhere Question.id i u.patch db.questions))) ∧
      Placed ((moveRow x.id p).run (aside x p (updateWhere Question.id i u.patch db.questions))) ∧
      KeepsOrder x.id (updateWhere Question.id i u.patch db.questions)
        ((moveRow x.id p).run (aside x p (updateWhere Question.id i u.patch db.questions))) := by
    rintro x hx rfl hOwns p hp hNe
    have hMem : u.patch x ∈ updateWhere Question.id x.id u.patch db.questions :=
      List.mem_map.mpr ⟨x, hx, if_pos rfl⟩
    refine (h.patch u x).move (x := u.patch x) hMem (hAdmitted p hp) fun q hq hQuiz hOther => ?_
    obtain ⟨q', hq', hId, hSame, hPosition⟩ := mem_patch u x.id hq
    rw [← hPosition]
    exact hClear x hx rfl hOwns p hp hNe q' hq' (hSame.trans hQuiz) (hId ▸ hOther)
  apply Careful.of_some h
  · intro x hx hId hOwns p hp
    unfold repositionUpdates
    split
    · trivial
    next hNe => exact (hMoving x hx hId hOwns p hp hNe).1
  · intro db' hSome
    obtain ⟨x, hx, rfl, hOwns, hMoved⟩ := updateQuestion_some hSome
    have hPatched := h.patch u x
    cases hPosition : u.position with
    | none =>
      rw [hPosition] at hMoved
      rw [← Option.some.inj hMoved]
      exact ⟨hPatched, KeepsOrder.patch (.refl _ _)⟩
    | some p =>
      rw [hPosition, repositioned_eq, repositionUpdates] at hMoved
      split at hMoved
      case isTrue hSame =>
        rw [← Option.some.inj hMoved]
        exact ⟨hPatched, KeepsOrder.patch (.refl _ _)⟩
      case isFalse hNe =>
        obtain ⟨-, hRun, hPlaced, hOrder⟩ := hMoving x hx rfl hOwns p hPosition hNe
        rw [← Option.some.inj (hRun.symm.trans hMoved)]
        exact ⟨hPlaced, hOrder.patch⟩

theorem Placed.careful {e : QuestionEdit} (h : Placed db.questions) (hAdmitted : e.Admitted)
    (hClear : e.Clear db) : Careful db e := by
  cases e with
  | add o s i c ids => exact careful_add h hAdmitted hClear
  | update o i u ids => exact careful_update h hAdmitted hClear
  | delete o i => exact careful_delete h hClear

theorem Placed.careful_run {es : List QuestionEdit} (h : Placed db.questions)
    (hAdmitted : ∀ e ∈ es, e.Admitted) (hClear : RunClear db es) (k : Nat) {e : QuestionEdit}
    (hAt : es[k]? = some e) : Careful (QuestionEdit.run db (es.take k)) e := by
  induction es generalizing db k with
  | nil => cases hAt
  | cons e' es ih =>
    have hFirst := h.careful (hAdmitted e' List.mem_cons_self) hClear.1
    cases k with
    | zero =>
      cases hAt
      exact hFirst
    | succ k =>
      exact ih hFirst.placed (fun e he => hAdmitted e (List.mem_cons_of_mem _ he)) hClear.2 k hAt

end

/-- In a run of edits that are clear of the sentinel, none fails on the unique constraint and
each leaves the questions it is not about in their order. -/
theorem sentinel_safe (db : Db) (es : List QuestionEdit) (hIds : (db.questions.map (·.id)).Nodup)
    (hUnique : positionsUnique db.questions = true) (hPositive : ∀ q ∈ db.questions, 1 ≤ q.position)
    (hAdmitted : ∀ e ∈ es, e.Admitted) (hClear : RunClear db es) (k : Nat) (e : QuestionEdit)
    (hAt : es[k]? = some e) :
    e.NoClash (QuestionEdit.run db (es.take k)) ∧
      KeepsOrder e.subject (QuestionEdit.run db (es.take k)).questions
        (e.step (QuestionEdit.run db (es.take k))).questions := by
  have hPlaced : Placed db.questions := ⟨hIds, positionsUnique_iff.mp hUnique, hPositive⟩
  have hCareful := hPlaced.careful_run hAdmitted hClear k hAt
  exact ⟨hCareful.noClash, hCareful.order⟩

namespace QuestionEdit.Demo

/-- A gap of any size may stay between two positions below the sentinel. -/
def spread : List QuestionEdit :=
  [add 7 1 10 (question none) [20, 21], add 7 1 11 (question (some 999990)) [22, 23],
    update 7 11 { position := some 1 } [], delete 7 10]

/-- Positions 1, 5 and 1000003. -/
def tall : List QuestionEdit :=
  [add 7 1 10 (question none) [20, 21], add 7 1 11 (question (some 5)) [22, 23],
    add 7 1 12 (question (some 1000003)) [24, 25]]

/-- Positions 1 and 1000000. -/
def edge : List QuestionEdit :=
  [add 7 1 10 (question none) [20, 21], add 7 1 11 (question (some 1000000)) [22, 23]]

end QuestionEdit.Demo

theorem sentinel_safe_spread :
    (QuestionEdit.delete 7 10).NoClash
      (QuestionEdit.run QuestionEdit.Demo.db (QuestionEdit.Demo.spread.take 3)) ∧
    KeepsOrder 10 (QuestionEdit.run QuestionEdit.Demo.db (QuestionEdit.Demo.spread.take 3)).questions
      ((QuestionEdit.delete 7 10).step
        (QuestionEdit.run QuestionEdit.Demo.db (QuestionEdit.Demo.spread.take 3))).questions := by
  apply sentinel_safe QuestionEdit.Demo.db QuestionEdit.Demo.spread
  · decide
  · decide
  · decide
  · intro e he
    simp only [QuestionEdit.Demo.spread, List.mem_cons, List.not_mem_nil, or_false] at he
    obtain rfl | rfl | rfl | rfl := he
    · rintro p ⟨⟩
    · rintro p ⟨⟩
      decide
    · rintro p ⟨⟩
      decide
    · trivial
  · refine ⟨?_, ?_, ?_, ?_, trivial⟩
    · rintro - p ⟨⟩
    · rintro - p ⟨⟩
      decide
    · rintro x hx hId - p ⟨⟩ hNe
      revert x
      decide
    · rintro x hx hId -
      revert x
      decide
  · rfl

/-- A question at 1000003 comes down to 2 when the first of three is deleted, below the one
that was at 5. With one at 1000000, no question can be added in front of the first. -/
theorem position_at_the_sentinel :
    (∀ e ∈ QuestionEdit.Demo.tall ++ QuestionEdit.Demo.edge, e.Admitted) ∧
    ((QuestionEdit.delete 7 10).step
      (QuestionEdit.run QuestionEdit.Demo.db QuestionEdit.Demo.tall)).questions.map
        (fun q => (q.id, q.position)) = [(11, 4), (12, 2)] ∧
    ¬ KeepsOrder 10 (QuestionEdit.run QuestionEdit.Demo.db QuestionEdit.Demo.tall).questions
      ((QuestionEdit.delete 7 10).step
        (QuestionEdit.run QuestionEdit.Demo.db QuestionEdit.Demo.tall)).questions ∧
    (QuestionEdit.add 7 1 12 (QuestionEdit.Demo.question (some 1)) [24, 25]).apply
      (QuestionEdit.run QuestionEdit.Demo.db QuestionEdit.Demo.edge) = none ∧
    ¬ (QuestionEdit.add 7 1 12 (QuestionEdit.Demo.question (some 1)) [24, 25]).NoClash
      (QuestionEdit.run QuestionEdit.Demo.db QuestionEdit.Demo.edge) := by
  refine ⟨?_, by decide, fun hKeeps => ?_, by decide, fun hNoClash => ?_⟩
  · intro e he
    simp only [QuestionEdit.Demo.tall, QuestionEdit.Demo.edge, List.cons_append, List.nil_append,
      List.mem_cons, List.not_mem_nil, or_false] at he
    obtain rfl | rfl | rfl | rfl | rfl := he
    · rintro p ⟨⟩
    · rintro p ⟨⟩
      decide
    · rintro p ⟨⟩
      decide
    · rintro p ⟨⟩
    · rintro p ⟨⟩
      decide
  · revert hKeeps
    unfold KeepsOrder
    decide
  · have hApart := (hNoClash ⟨QuestionEdit.Demo.quiz, by decide, rfl⟩ (by decide)).2
    revert hApart
    rw [← positionsUnique_iff]
    decide

end LiveQuiz
