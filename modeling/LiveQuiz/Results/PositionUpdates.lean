import LiveQuiz.Results.Numbering
import Mathlib.Data.List.Induction
import Mathlib.Data.List.Perm.Basic
import Mathlib.Data.List.Nodup

/-! # Position updates as list operations

Every change of positions is a pair of bulk UPDATEs: the affected rows are parked above
the sentinel and brought back with a delta. An UPDATE is executed here one row at a
time, and the unique constraint is looked at after each row.
-/

namespace LiveQuiz

set_option autoImplicit false

namespace PositionUpdates

/-- `UPDATE questions SET position = value(position) WHERE sel`. -/
structure BulkUpdate where
  sel : Question → Bool
  value : Int → Int

def BulkUpdate.run (u : BulkUpdate) (qs : List Question) : List Question :=
  shiftPositions u.sel u.value qs

def BulkUpdate.updateRow (u : BulkUpdate) (qs : List Question) (i : Id) : List Question :=
  shiftPositions (·.id = i) u.value qs

/-- In whatever order the rows are updated, no two questions of a quiz ever share a
position, and the table is in the end that of the whole UPDATE. -/
def RowSafe (u : BulkUpdate) (qs : List Question) : Prop :=
  ∀ order : List Id, order.Perm ((qs.filter u.sel).map (·.id)) →
    (∀ k, positionsUnique ((order.take k).foldl u.updateRow qs) = true) ∧
      order.foldl u.updateRow qs = u.run qs

def AllRowSafe : List BulkUpdate → List Question → Prop
  | [], _ => True
  | u :: us, qs => RowSafe u qs ∧ AllRowSafe us (u.run qs)

def runAll : List BulkUpdate → List Question → Option (List Question)
  | [], qs => some qs
  | u :: us, qs => checkedPositions (u.run qs) >>= runAll us

section

variable {p p' : Question → Bool} {f : Int → Int} {qs qs' : List Question} {u : BulkUpdate}

def shifted (p : Question → Bool) (f : Int → Int) (q : Question) : Question :=
  if p q then { q with position := f q.position } else q

theorem shiftPositions_eq (p : Question → Bool) (f : Int → Int) (qs : List Question) :
    shiftPositions p f qs = qs.map (shifted p f) := rfl

@[simp] theorem shifted_id (q : Question) : (shifted p f q).id = q.id := by
  unfold shifted
  split <;> rfl

@[simp] theorem shifted_quizSetId (q : Question) : (shifted p f q).quizSetId = q.quizSetId := by
  unfold shifted
  split <;> rfl

theorem shifted_of_pos {q : Question} (hq : p q = true) :
    shifted p f q = { q with position := f q.position } := if_pos hq

theorem shifted_of_neg {q : Question} (hq : p q = false) : shifted p f q = q := by
  simp [shifted, hq]

theorem shiftPositions_congr (h : ∀ q ∈ qs, p q = p' q) :
    shiftPositions p f qs = shiftPositions p' f qs := by
  apply List.map_congr_left
  intro q hq
  rw [h q hq]

def Apart (a b : Question) : Prop := a.quizSetId = b.quizSetId → a.position ≠ b.position

theorem positionsUnique_iff : positionsUnique qs = true ↔ qs.Pairwise Apart := by
  rw [positionsUnique, decide_eq_true_eq, List.Nodup, List.pairwise_map]
  apply List.Pairwise.iff
  intro a b
  simp [Apart]

theorem Apart.symm {a b : Question} (h : Apart a b) : Apart b a :=
  fun hQuiz hPosition => h hQuiz.symm hPosition.symm

/-- Any part of an UPDATE keeps the positions apart, if the new values are apart and free
of old ones. -/
theorem shift_apart (hUnique : qs.Pairwise Apart)
    (hFree : ∀ a ∈ qs, ∀ b ∈ qs, p a = true → a.quizSetId = b.quizSetId →
      f a.position ≠ b.position)
    (hInj : ∀ a ∈ qs, ∀ b ∈ qs, p a = true → p b = true → a.quizSetId = b.quizSetId →
      f a.position = f b.position → a.position = b.position)
    (hPart : ∀ q ∈ qs, p' q = true → p q = true) : (shiftPositions p' f qs).Pairwise Apart := by
  rw [shiftPositions_eq, List.pairwise_map]
  apply hUnique.imp_of_mem
  intro a b ha hb hApart hQuiz hEq
  rw [shifted_quizSetId, shifted_quizSetId] at hQuiz
  cases hpa : p' a <;> cases hpb : p' b
  · rw [shifted_of_neg hpa, shifted_of_neg hpb] at hEq
    exact hApart hQuiz hEq
  · rw [shifted_of_neg hpa, shifted_of_pos hpb] at hEq
    exact hFree b hb a ha (hPart b hb hpb) hQuiz.symm hEq.symm
  · rw [shifted_of_pos hpa, shifted_of_neg hpb] at hEq
    exact hFree a ha b hb (hPart a ha hpa) hQuiz hEq
  · rw [shifted_of_pos hpa, shifted_of_pos hpb] at hEq
    exact hApart hQuiz (hInj a ha b hb (hPart a ha hpa) (hPart b hb hpb) hQuiz hEq)

theorem foldl_updateRow (done : List Id) (hDone : done.Nodup) :
    done.foldl u.updateRow qs = shiftPositions (·.id ∈ done) u.value qs := by
  induction done using List.reverseRecOn with
  | nil => simp [shiftPositions]
  | append_singleton done i ih =>
    obtain ⟨hBefore, -, hNew⟩ := List.nodup_append.mp hDone
    rw [List.foldl_append, List.foldl_cons, List.foldl_nil, ih hBefore, BulkUpdate.updateRow,
      shiftPositions_eq, shiftPositions_eq, shiftPositions_eq, List.map_map]
    apply List.map_congr_left
    intro q _
    have hOld : q.id = i → q.id ∉ done := fun hId hMem => hNew q.id hMem i (by simp) hId
    by_cases hi : q.id = i
    · simp [shifted, hi, hi ▸ hOld hi]
    · by_cases hMem : q.id ∈ done <;> simp [shifted, hi, hMem]

theorem rowSafe_of_apart (hIds : (qs.map (·.id)).Nodup) (hUnique : qs.Pairwise Apart)
    (hFree : ∀ a ∈ qs, ∀ b ∈ qs, u.sel a = true → a.quizSetId = b.quizSetId →
      u.value a.position ≠ b.position)
    (hInj : ∀ a ∈ qs, ∀ b ∈ qs, u.sel a = true → u.sel b = true → a.quizSetId = b.quizSetId →
      u.value a.position = u.value b.position → a.position = b.position) : RowSafe u qs := by
  intro order hOrder
  have hNodup : order.Nodup := by
    rw [hOrder.nodup_iff]
    exact hIds.sublist (List.filter_sublist.map _)
  have hSel : ∀ q ∈ qs, q.id ∈ order ↔ u.sel q = true := by
    intro q hq
    rw [hOrder.mem_iff, List.mem_map]
    constructor
    · rintro ⟨q', hq', hId⟩
      obtain ⟨hMem, hSel⟩ := List.mem_filter.mp hq'
      rwa [← List.inj_on_of_nodup_map hIds hMem hq hId]
    · intro hSel
      exact ⟨q, List.mem_filter.mpr ⟨hq, hSel⟩, rfl⟩
  constructor
  · intro k
    rw [foldl_updateRow _ (hNodup.sublist (List.take_sublist k order)), positionsUnique_iff]
    apply shift_apart hUnique hFree hInj
    intro q hq hTaken
    exact (hSel q hq).mp (List.mem_of_mem_take (of_decide_eq_true hTaken))
  · rw [foldl_updateRow _ hNodup]
    apply shiftPositions_congr
    intro q hq
    rw [Bool.eq_iff_iff, decide_eq_true_eq]
    exact hSel q hq

theorem shift_ids : (shiftPositions p f qs).map (·.id) = qs.map (·.id) := by
  rw [shiftPositions_eq, List.map_map]
  apply List.map_congr_left
  intro q _
  exact shifted_id q

theorem RowSafe.apart (h : RowSafe u qs) : (u.run qs).Pairwise Apart := by
  obtain ⟨hSteps, hRun⟩ := h _ (List.Perm.refl _)
  have hLast := hSteps ((qs.filter u.sel).map (·.id)).length
  rw [List.take_length, hRun] at hLast
  exact positionsUnique_iff.mp hLast

theorem checkedPositions_of_apart (h : qs.Pairwise Apart) : checkedPositions qs = some qs :=
  if_pos (positionsUnique_iff.mpr h)

theorem AllRowSafe.runAll {us : List BulkUpdate} (h : AllRowSafe us qs) :
    runAll us qs = some (us.foldl (fun rows u => u.run rows) qs) := by
  induction us generalizing qs with
  | nil => rfl
  | cons u us ih =>
    obtain ⟨hFirst, hRest⟩ := h
    rw [PositionUpdates.runAll, checkedPositions_of_apart hFirst.apart, Option.bind_eq_bind,
      Option.bind_some, ih hRest, List.foldl_cons]

end

/-- The affected questions of a quiz move by `delta`; `keep` is what the second phase
adds to its WHERE. -/
structure Shift where
  quizSetId : Id
  affected : Question → Bool
  keep : Question → Bool
  delta : Int

def Shift.park (sh : Shift) : BulkUpdate where
  sel q := q.quizSetId = sh.quizSetId ∧ sh.affected q ∧ q.position < shiftSentinel
  value x := x + shiftSentinel

def Shift.back (sh : Shift) : BulkUpdate where
  sel q := q.quizSetId = sh.quizSetId ∧ shiftSentinel ≤ q.position ∧ sh.keep q
  value x := x - shiftSentinel + sh.delta

def Shift.moves (sh : Shift) (q : Question) : Bool :=
  q.quizSetId = sh.quizSetId ∧ sh.affected q

/-- The questions lie below the sentinel, and the places they move to are free. -/
structure Shift.Fits (sh : Shift) (qs : List Question) : Prop where
  stable : ∀ q x, sh.keep { q with position := x } = sh.keep q
  kept : ∀ q, sh.affected q = true → sh.keep q = true
  range : ∀ q ∈ qs, q.quizSetId = sh.quizSetId → 1 ≤ q.position ∧ q.position < shiftSentinel
  free : ∀ a ∈ qs, ∀ b ∈ qs, sh.moves a = true → b.quizSetId = sh.quizSetId →
    sh.affected b = false → a.position + sh.delta ≠ b.position
  small : sh.delta ≤ 1

section

variable {sh : Shift} {qs : List Question}

theorem Shift.moves_iff {q : Question} :
    sh.moves q = true ↔ q.quizSetId = sh.quizSetId ∧ sh.affected q = true := by
  simp [Shift.moves]

theorem Shift.moves_of_stays {q : Question} (hStays : sh.affected q = false) :
    sh.moves q = false := by
  simp [Shift.moves, hStays]

theorem Shift.Fits.park_sel (h : sh.Fits qs) {q : Question} (hq : q ∈ qs) :
    sh.park.sel q = sh.moves q := by
  rw [Bool.eq_iff_iff, Shift.moves_iff]
  simp only [Shift.park, decide_eq_true_eq]
  constructor
  · rintro ⟨hQuiz, hAffected, -⟩
    exact ⟨hQuiz, hAffected⟩
  · rintro ⟨hQuiz, hAffected⟩
    exact ⟨hQuiz, hAffected, (h.range q hq hQuiz).2⟩

theorem Shift.Fits.parked (h : sh.Fits qs) {q : Question} (hq : q ∈ qs) :
    shifted sh.park.sel sh.park.value q =
      if sh.moves q then { q with position := q.position + shiftSentinel } else q := by
  rw [shifted, h.park_sel hq]
  rfl

theorem Shift.Fits.back_sel (h : sh.Fits qs) {q : Question} (hq : q ∈ qs) :
    sh.back.sel (shifted sh.park.sel sh.park.value q) = sh.moves q := by
  rw [h.parked hq, Bool.eq_iff_iff]
  simp only [Shift.back, decide_eq_true_eq]
  split
  case isTrue hMoves =>
    obtain ⟨hQuiz, hAffected⟩ := Shift.moves_iff.mp hMoves
    have hRange := h.range q hq hQuiz
    constructor
    · exact fun _ => hMoves
    · intro _
      refine ⟨hQuiz, ?_, ?_⟩
      · change shiftSentinel ≤ q.position + shiftSentinel
        omega
      · rw [h.stable]
        exact h.kept q hAffected
  case isFalse hMoves =>
    constructor
    · rintro ⟨hQuiz, hHigh, -⟩
      have hRange := h.range q hq hQuiz
      omega
    · exact fun hMoves' => absurd hMoves' hMoves

theorem Shift.Fits.run (h : sh.Fits qs) :
    sh.back.run (sh.park.run qs) = shiftPositions sh.moves (· + sh.delta) qs := by
  rw [BulkUpdate.run, BulkUpdate.run, shiftPositions_eq, shiftPositions_eq, shiftPositions_eq,
    List.map_map]
  apply List.map_congr_left
  intro q hq
  rw [Function.comp_apply, shifted, h.back_sel hq, h.parked hq, shifted]
  split
  case isTrue hMoves =>
    simp only [Shift.back, Question.mk.injEq, true_and, and_true]
    omega
  case isFalse hMoves => rfl

theorem Shift.Fits.rowSafe_park (h : sh.Fits qs) (hIds : (qs.map (·.id)).Nodup)
    (hUnique : qs.Pairwise Apart) : RowSafe sh.park qs := by
  apply rowSafe_of_apart hIds hUnique
  · intro a ha b hb hSel hQuiz hEq
    rw [h.park_sel ha, Shift.moves_iff] at hSel
    have hRangeA := h.range a ha hSel.1
    have hRangeB := h.range b hb (hQuiz ▸ hSel.1)
    change a.position + shiftSentinel = b.position at hEq
    omega
  · intro a _ b _ _ _ _ hEq
    change a.position + shiftSentinel = b.position + shiftSentinel at hEq
    omega

theorem Shift.Fits.rowSafe_back (h : sh.Fits qs) (hIds : (qs.map (·.id)).Nodup)
    (hUnique : qs.Pairwise Apart) : RowSafe sh.back (sh.park.run qs) := by
  have hParkedIds : ((sh.park.run qs).map (·.id)).Nodup := by
    rwa [BulkUpdate.run, shift_ids]
  apply rowSafe_of_apart hParkedIds (h.rowSafe_park hIds hUnique).apart
  · intro a' ha' b' hb' hSel hQuiz hEq
    obtain ⟨a, ha, rfl⟩ := List.mem_map.mp ha'
    obtain ⟨b, hb, rfl⟩ := List.mem_map.mp hb'
    change sh.back.sel (shifted sh.park.sel sh.park.value a) = true at hSel
    rw [h.back_sel ha] at hSel
    change (shifted sh.park.sel sh.park.value a).quizSetId =
      (shifted sh.park.sel sh.park.value b).quizSetId at hQuiz
    change (shifted sh.park.sel sh.park.value a).position - shiftSentinel + sh.delta =
      (shifted sh.park.sel sh.park.value b).position at hEq
    rw [shifted_quizSetId, shifted_quizSetId] at hQuiz
    rw [h.parked ha, if_pos hSel, h.parked hb] at hEq
    obtain ⟨hQuizA, hAffected⟩ := Shift.moves_iff.mp hSel
    have hQuizB : b.quizSetId = sh.quizSetId := hQuiz ▸ hQuizA
    have hRangeA := h.range a ha hQuizA
    have hRangeB := h.range b hb hQuizB
    have hSmall := h.small
    cases hMoves : sh.moves b with
    | true =>
      rw [hMoves] at hEq
      change a.position + shiftSentinel - shiftSentinel + sh.delta =
        b.position + shiftSentinel at hEq
      omega
    | false =>
      have hStays : sh.affected b = false := by
        cases hAffectedB : sh.affected b with
        | false => rfl
        | true => rw [Shift.moves_iff.mpr ⟨hQuizB, hAffectedB⟩] at hMoves; exact hMoves
      have hFree := h.free a ha b hb hSel hQuizB hStays
      rw [hMoves] at hEq
      change a.position + shiftSentinel - shiftSentinel + sh.delta = b.position at hEq
      omega
  · intro a _ b _ _ _ _ hEq
    change a.position - shiftSentinel + sh.delta = b.position - shiftSentinel + sh.delta at hEq
    omega

theorem Shift.Fits.rowSafe (h : sh.Fits qs) (hIds : (qs.map (·.id)).Nodup)
    (hUnique : qs.Pairwise Apart) : AllRowSafe [sh.park, sh.back] qs :=
  ⟨h.rowSafe_park hIds hUnique, h.rowSafe_back hIds hUnique, trivial⟩

theorem Shift.Fits.apart (h : sh.Fits qs) (hIds : (qs.map (·.id)).Nodup)
    (hUnique : qs.Pairwise Apart) : (shiftPositions sh.moves (· + sh.delta) qs).Pairwise Apart := by
  rw [← h.run]
  exact (h.rowSafe_back hIds hUnique).apart

end

def Rows (quizSetId : Id) (qs rows : List Question) : Prop :=
  (qs.filter (·.quizSetId = quizSetId)).Perm rows

section

variable {p : Question → Bool} {f : Int → Int} {qs rows l : List Question} {k d v : Int}
  {quizSetId i : Id} {sh : Shift}

theorem filter_shift (p : Question → Bool) (f : Int → Int) (qs : List Question) :
    (shiftPositions p f qs).filter (·.quizSetId = quizSetId) =
      shiftPositions p f (qs.filter (·.quizSetId = quizSetId)) := by
  rw [shiftPositions_eq, shiftPositions_eq, List.filter_map]
  congr 1
  apply List.filter_congr
  intro q _
  simp

theorem Rows.shift (h : Rows quizSetId qs rows) (p : Question → Bool) (f : Int → Int) :
    Rows quizSetId (shiftPositions p f qs) (shiftPositions p f rows) := by
  rw [Rows, filter_shift]
  exact h.map _

theorem shift_append (p : Question → Bool) (f : Int → Int) (l l' : List Question) :
    shiftPositions p f (l ++ l') = shiftPositions p f l ++ shiftPositions p f l' :=
  List.map_append

theorem shift_none (h : ∀ q ∈ rows, p q = false) : shiftPositions p f rows = rows := by
  have hSame : rows.map (shifted p f) = rows.map id :=
    List.map_congr_left fun q hq => shifted_of_neg (h q hq)
  rw [shiftPositions_eq, hSame, List.map_id]

theorem shift_all (h : ∀ q ∈ placed k l, p q = true) :
    shiftPositions p (· + d) (placed k l) = placed (k + d) l := by
  induction l generalizing k with
  | nil => rfl
  | cons q l ih =>
    have hRest := ih fun x hx => h x (List.mem_cons_of_mem _ hx)
    have hHead := shifted_of_pos (f := (· + d)) (h _ List.mem_cons_self)
    rw [shiftPositions_eq] at hRest ⊢
    rw [placed, List.map_cons, hRest, hHead, placed, Int.add_right_comm]

theorem setPosition_eq (i : Id) (v : Int) (qs : List Question) :
    setPosition i v qs = checkedPositions (shiftPositions (·.id = i) (fun _ => v) qs) := by
  unfold setPosition updateWhere shiftPositions
  simp

theorem rows_ids (hIds : (qs.map (·.id)).Nodup) (h : Lists quizSetId qs l) :
    (l.map (·.id)).Nodup := by
  rw [← placed_ids 1 l, ← (h.map (·.id)).nodup_iff]
  exact hIds.sublist (List.filter_sublist.map _)

end

/-- The rows of the quiz fall into those that move, with consecutive positions, and two
parts that stay. -/
structure Segments (sh : Shift) (qs before : List Question) (k : Int) (inside after : List Question) :
    Prop where
  rows : Rows sh.quizSetId qs (before ++ (placed k inside ++ after))
  moving : ∀ q ∈ placed k inside, sh.affected q = true
  staying : ∀ q ∈ before ++ after, sh.affected q = false

section

variable {sh : Shift} {qs before inside after : List Question} {k : Int} {quizSetId i : Id}
  {a b l : List Question} {x : Question}

theorem Rows.mem {rows : List Question} (h : Rows quizSetId qs rows) {q : Question} :
    q ∈ rows ↔ q ∈ qs ∧ q.quizSetId = quizSetId := by
  rw [← h.mem_iff, List.mem_filter, decide_eq_true_eq]

theorem Segments.shift (h : Segments sh qs before k inside after) :
    Rows sh.quizSetId (shiftPositions sh.moves (· + sh.delta) qs)
      (before ++ (placed (k + sh.delta) inside ++ after)) := by
  have hRows := h.rows.shift sh.moves (· + sh.delta)
  have hBefore : ∀ q ∈ before, sh.moves q = false := fun q hq =>
    Shift.moves_of_stays (h.staying q (List.mem_append_left _ hq))
  have hAfter : ∀ q ∈ after, sh.moves q = false := fun q hq =>
    Shift.moves_of_stays (h.staying q (List.mem_append_right _ hq))
  have hInside : ∀ q ∈ placed k inside, sh.moves q = true := by
    intro q hq
    have hMem : q ∈ before ++ (placed k inside ++ after) :=
      List.mem_append_right _ (List.mem_append_left _ hq)
    exact Shift.moves_iff.mpr ⟨(h.rows.mem.mp hMem).2, h.moving q hq⟩
  rwa [shift_append, shift_append, shift_none hBefore, shift_none hAfter, shift_all hInside] at hRows

theorem Segments.fits (h : Segments sh qs before k inside after)
    (hStable : ∀ q x, sh.keep { q with position := x } = sh.keep q)
    (hKept : ∀ q, sh.affected q = true → sh.keep q = true)
    (hRange : ∀ q ∈ before ++ (placed k inside ++ after),
      1 ≤ q.position ∧ q.position < shiftSentinel)
    (hFree : ∀ q ∈ placed k inside, ∀ y ∈ before ++ after, q.position + sh.delta ≠ y.position)
    (hSmall : sh.delta ≤ 1) : sh.Fits qs := by
  have hCases : ∀ q ∈ qs, q.quizSetId = sh.quizSetId →
      q ∈ placed k inside ∨ q ∈ before ++ after := by
    intro q hq hQuiz
    have hMem := h.rows.mem.mpr ⟨hq, hQuiz⟩
    simp only [List.mem_append] at hMem ⊢
    obtain hBefore | hInside | hAfter := hMem
    · exact .inr (.inl hBefore)
    · exact .inl hInside
    · exact .inr (.inr hAfter)
  constructor
  case stable => exact hStable
  case kept => exact hKept
  case range => exact fun q hq hQuiz => hRange q (h.rows.mem.mpr ⟨hq, hQuiz⟩)
  case free =>
    intro q hq y hy hMoves hQuiz hStays
    obtain ⟨hQuizQ, hAffected⟩ := Shift.moves_iff.mp hMoves
    have hInside : q ∈ placed k inside := by
      apply (hCases q hq hQuizQ).resolve_right
      intro hStaying
      rw [h.staying q hStaying] at hAffected
      exact Bool.false_ne_true hAffected
    have hOutside : y ∈ before ++ after := by
      apply (hCases y hy hQuiz).resolve_left
      intro hMoving
      rw [h.moving y hMoving] at hStays
      exact Bool.false_ne_true hStays.symm
    exact hFree q hInside y hOutside
  case small => exact hSmall

theorem placed_id_ne (hNew : i ∉ l.map (·.id)) : ∀ q ∈ placed k l, q.id ≠ i := by
  rintro q hq rfl
  apply hNew
  rw [← placed_ids k l]
  exact List.mem_map_of_mem hq

theorem id_elsewhere (hNodup : ((a ++ x :: b).map (·.id)).Nodup) :
    x.id ∉ a.map (·.id) ∧ x.id ∉ b.map (·.id) := by
  rw [List.map_append, List.map_cons] at hNodup
  obtain ⟨-, hTail, hApart⟩ := List.nodup_append.mp hNodup
  constructor
  · exact fun hMem => hApart _ hMem _ List.mem_cons_self rfl
  · exact (List.nodup_cons.mp hTail).1

end

def insertShift (quizSetId : Id) (fromPosition : Int) : Shift where
  quizSetId := quizSetId
  affected q := fromPosition ≤ q.position
  keep _ := true
  delta := 1

section

variable {qs a b : List Question} {quizSetId : Id}

theorem shiftQuestionPositions_eq (quizSetId : Id) (fromPosition : Int) (qs : List Question) :
    shiftQuestionPositions quizSetId fromPosition 1 qs =
      runAll [(insertShift quizSetId fromPosition).park, (insertShift quizSetId fromPosition).back]
        qs := by
  simp [shiftQuestionPositions, runAll, BulkUpdate.run, Shift.park, Shift.back, insertShift]

theorem insert_segments (h : Lists quizSetId qs (a ++ b)) :
    Segments (insertShift quizSetId (a.length + 1)) qs (placed 1 a) (a.length + 1) b [] := by
  constructor
  case rows =>
    have hRows : Rows quizSetId qs (placed 1 (a ++ b)) := h
    rwa [placed_append, Int.add_comm 1, ← List.append_nil (placed _ b)] at hRows
  case moving =>
    intro q hq
    exact decide_eq_true (placed_range hq).1
  case staying =>
    intro q hq
    rw [List.append_nil] at hq
    have hRange := placed_range hq
    exact decide_eq_false (by omega)

theorem insert_fits (h : Lists quizSetId qs (a ++ b)) (hSmall : (a ++ b).length < 1000000) :
    (insertShift quizSetId (a.length + 1)).Fits qs := by
  rw [List.length_append] at hSmall
  apply (insert_segments h).fits
  · exact fun _ _ => rfl
  · exact fun _ _ => rfl
  · intro q hq
    unfold shiftSentinel
    rw [List.append_nil] at hq
    obtain hBefore | hAfter := List.mem_append.mp hq
    · have hRange := placed_range hBefore
      omega
    · have hRange := placed_range hAfter
      omega
  · intro q hq y hy
    rw [List.append_nil] at hy
    have hAbove := placed_range hq
    have hBelow := placed_range hy
    change q.position + 1 ≠ y.position
    omega
  · exact le_rfl

theorem insert_lists (h : Lists quizSetId qs (a ++ b)) {row : Question}
    (hQuiz : row.quizSetId = quizSetId) :
    Lists quizSetId (shiftPositions (insertShift quizSetId (a.length + 1)).moves (· + 1) qs ++
      [{ row with position := a.length + 1 }]) (a ++ row :: b) := by
  have hRows : Rows quizSetId
      (shiftPositions (insertShift quizSetId (a.length + 1)).moves (· + 1) qs)
      (placed 1 a ++ (placed (a.length + 1 + 1) b ++ [])) := (insert_segments h).shift
  have hNew : [({ row with position := a.length + 1 } : Question)].filter
      (·.quizSetId = quizSetId) = [{ row with position := a.length + 1 }] := by
    simp [hQuiz]
  rw [Lists, List.filter_append, hNew, placed_append, placed, Int.add_comm 1]
  apply (hRows.append_right [({ row with position := a.length + 1 } : Question)]).trans
  rw [List.append_nil, List.append_assoc]
  exact List.Perm.append_left _ List.perm_append_comm

end

def deleteShift (quizSetId : Id) (deletedPosition : Int) : Shift where
  quizSetId := quizSetId
  affected q := deletedPosition < q.position
  keep _ := true
  delta := -1

section

variable {qs a b : List Question} {x : Question} {quizSetId : Id}

theorem renumberAfterDelete_eq (quizSetId : Id) (deletedPosition : Int) (qs : List Question) :
    renumberAfterDelete quizSetId deletedPosition qs =
      runAll [(deleteShift quizSetId deletedPosition).park,
        (deleteShift quizSetId deletedPosition).back] qs := by
  have hBack : (fun x : Int => x - shiftSentinel - 1) = fun x => x - shiftSentinel + -1 := rfl
  unfold renumberAfterDelete
  rw [hBack]
  simp [runAll, BulkUpdate.run, Shift.park, Shift.back, deleteShift]

theorem delete_segments (hIds : (qs.map (·.id)).Nodup) (h : Lists quizSetId qs (a ++ x :: b)) :
    Segments (deleteShift quizSetId (a.length + 1)) (qs.filter (·.id ≠ x.id)) (placed 1 a)
      (a.length + 2) b [] := by
  constructor
  case rows =>
    obtain ⟨hBefore, hAfter⟩ := id_elsewhere (rows_ids hIds h)
    have hRows := List.Perm.filter (fun q => decide (q.id ≠ x.id)) h
    have hComm : (qs.filter (·.id ≠ x.id)).filter (·.quizSetId = quizSetId) =
        (qs.filter (·.quizSetId = quizSetId)).filter (·.id ≠ x.id) := by
      rw [List.filter_filter, List.filter_filter]
      apply List.filter_congr
      intro q _
      exact Bool.and_comm _ _
    have hKeepA : (placed 1 a).filter (·.id ≠ x.id) = placed 1 a :=
      List.filter_eq_self.mpr fun q hq => decide_eq_true (placed_id_ne hBefore q hq)
    have hKeepB : (placed (1 + a.length + 1) b).filter (·.id ≠ x.id) =
        placed (1 + a.length + 1) b :=
      List.filter_eq_self.mpr fun q hq => decide_eq_true (placed_id_ne hAfter q hq)
    rw [placed_append, placed, List.filter_append, List.filter_cons_of_neg (by simp), hKeepA,
      hKeepB, show (1 : Int) + a.length + 1 = a.length + 2 by omega] at hRows
    rw [Rows, List.append_nil]
    change ((qs.filter (·.id ≠ x.id)).filter (·.quizSetId = quizSetId)).Perm _
    rw [hComm]
    exact hRows
  case moving =>
    intro q hq
    have hRange := placed_range hq
    exact decide_eq_true (by omega)
  case staying =>
    intro q hq
    rw [List.append_nil] at hq
    have hRange := placed_range hq
    exact decide_eq_false (by omega)

theorem delete_fits (hIds : (qs.map (·.id)).Nodup) (h : Lists quizSetId qs (a ++ x :: b))
    (hSmall : (a ++ x :: b).length < 1000000) :
    (deleteShift quizSetId (a.length + 1)).Fits (qs.filter (·.id ≠ x.id)) := by
  rw [List.length_append, List.length_cons] at hSmall
  apply (delete_segments hIds h).fits
  · exact fun _ _ => rfl
  · exact fun _ _ => rfl
  · intro q hq
    unfold shiftSentinel
    rw [List.append_nil] at hq
    obtain hBefore | hAfter := List.mem_append.mp hq
    · have hRange := placed_range hBefore
      omega
    · have hRange := placed_range hAfter
      omega
  · intro q hq y hy
    rw [List.append_nil] at hy
    have hAbove := placed_range hq
    have hBelow := placed_range hy
    change q.position + -1 ≠ y.position
    omega
  · exact (by decide : (-1 : Int) ≤ 1)

theorem delete_lists (hIds : (qs.map (·.id)).Nodup) (h : Lists quizSetId qs (a ++ x :: b)) :
    Lists quizSetId (shiftPositions (deleteShift quizSetId (a.length + 1)).moves (· + -1)
      (qs.filter (·.id ≠ x.id))) (a ++ b) := by
  have hRows : Rows quizSetId _ (placed 1 a ++ (placed (a.length + 2 + -1) b ++ [])) :=
    (delete_segments hIds h).shift
  rw [List.append_nil, show (a.length : Int) + 2 + -1 = 1 + a.length by omega,
    ← placed_append] at hRows
  exact hRows

end

end PositionUpdates

end LiveQuiz
