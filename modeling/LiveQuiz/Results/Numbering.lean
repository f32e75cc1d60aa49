import LiveQuiz.Model.Quiz
import Mathlib.Data.List.Nodup

/-! # The questions of a quiz as a list

A quiz whose positions are 1 to n is a list of questions: the rows are the list's
elements, each with its place as the position.
-/

namespace LiveQuiz

set_option autoImplicit false

/-- The list with positions counted from `k`. -/
def placed (k : Int) : List Question → List Question
  | [] => []
  | q :: l => { q with position := k } :: placed (k + 1) l

def positionsFrom (k : Int) (n : Nat) : List Int := (List.range n).map fun i : Nat => k + (i : Int)

/-- The questions of a quiz in position order. -/
def quizQuestions (quizSetId : Id) (qs : List Question) : List Question :=
  sortBy (·.position) (qs.filter (·.quizSetId = quizSetId))

/-- The positions of the quiz's n questions are exactly 1 to n. -/
def Contiguous (quizSetId : Id) (qs : List Question) : Prop :=
  ((qs.filter (·.quizSetId = quizSetId)).map (·.position)).Perm
    (positionsFrom 1 (qs.filter (·.quizSetId = quizSetId)).length)

def Lists (quizSetId : Id) (qs l : List Question) : Prop :=
  (qs.filter (·.quizSetId = quizSetId)).Perm (placed 1 l)

section

variable {k k' : Int} {l l' qs : List Question} {q : Question} {quizSetId : Id}

theorem positionsFrom_succ (k : Int) (n : Nat) :
    positionsFrom k (n + 1) = k :: positionsFrom (k + 1) n := by
  unfold positionsFrom
  rw [List.range_succ_eq_map, List.map_cons, List.map_map]
  congr 1
  · simp
  · apply List.map_congr_left
    intro i _
    simp only [Function.comp_apply]
    omega

@[simp] theorem length_placed (k : Int) (l : List Question) : (placed k l).length = l.length := by
  induction l generalizing k with
  | nil => rfl
  | cons q l ih => simp [placed, ih]

theorem placed_append (k : Int) (l l' : List Question) :
    placed k (l ++ l') = placed k l ++ placed (k + l.length) l' := by
  induction l generalizing k with
  | nil => simp [placed]
  | cons q l ih =>
    have hNext : k + ((q :: l).length : Int) = k + 1 + l.length := by
      rw [List.length_cons]
      omega
    rw [List.cons_append, placed, ih, placed, List.cons_append, hNext]

theorem placed_positions (k : Int) (l : List Question) :
    (placed k l).map (·.position) = positionsFrom k l.length := by
  induction l generalizing k with
  | nil => rfl
  | cons q l ih => rw [placed, List.map_cons, ih, List.length_cons, positionsFrom_succ]

theorem placed_ids (k : Int) (l : List Question) : (placed k l).map (·.id) = l.map (·.id) := by
  induction l generalizing k with
  | nil => rfl
  | cons q l ih => rw [placed, List.map_cons, List.map_cons, ih]

theorem mem_positionsFrom {n : Nat} {x : Int} (hx : x ∈ positionsFrom k n) :
    k ≤ x ∧ x < k + n := by
  obtain ⟨i, hi, rfl⟩ := List.mem_map.mp hx
  have hLt := List.mem_range.mp hi
  omega

theorem placed_range (hq : q ∈ placed k l) : k ≤ q.position ∧ q.position < k + l.length := by
  apply mem_positionsFrom
  rw [← placed_positions]
  exact List.mem_map_of_mem hq

theorem positionsFrom_pairwise (k : Int) (n : Nat) : (positionsFrom k n).Pairwise (· < ·) := by
  rw [positionsFrom, List.pairwise_map]
  apply List.pairwise_lt_range.imp
  intro i j hLt
  omega

theorem placed_pairwise (k : Int) (l : List Question) :
    (placed k l).Pairwise fun a b => a.position < b.position := by
  have hPositions := positionsFrom_pairwise k l.length
  rwa [← placed_positions, List.pairwise_map] at hPositions

theorem placed_self (hPositions : l.map (·.position) = positionsFrom k l.length) :
    placed k l = l := by
  induction l generalizing k with
  | nil => rfl
  | cons q l ih =>
    rw [List.map_cons, List.length_cons, positionsFrom_succ] at hPositions
    obtain ⟨hHead, hTail⟩ := List.cons.inj hPositions
    rw [placed, ih hTail, ← hHead]

/-- A list in position order is the only one with its elements. -/
theorem eq_placed (hPerm : l.Perm (placed k l')) (hSorted : l.Pairwise (·.position ≤ ·.position)) :
    l = placed k l' := by
  have hNodup : ((placed k l').map (·.position)).Nodup := by
    rw [placed_positions]
    exact (positionsFrom_pairwise k _).imp ne_of_lt
  apply hPerm.eq_of_pairwise _ hSorted ((placed_pairwise k l').imp le_of_lt)
  intro a b ha hb hle hge
  exact List.inj_on_of_nodup_map hNodup (hPerm.mem_iff.mp ha) hb (le_antisymm hle hge)

theorem sortBy_pairwise (l : List Question) :
    (sortBy (·.position) l).Pairwise (·.position ≤ ·.position) := by
  have hTotal : Std.Total fun a b : Question => a.position ≤ b.position :=
    ⟨fun a b => le_total a.position b.position⟩
  have hTrans : IsTrans Question fun a b => a.position ≤ b.position :=
    ⟨fun _ _ _ hab hbc => le_trans hab hbc⟩
  exact List.pairwise_insertionSort _ _

theorem quizQuestions_perm (quizSetId : Id) (qs : List Question) :
    (quizQuestions quizSetId qs).Perm (qs.filter (·.quizSetId = quizSetId)) :=
  List.perm_insertionSort _ _

theorem Lists.quizQuestions (h : Lists quizSetId qs l) :
    quizQuestions quizSetId qs = placed 1 l :=
  eq_placed ((quizQuestions_perm quizSetId qs).trans h) (sortBy_pairwise _)

theorem Lists.contiguous (h : Lists quizSetId qs l) : Contiguous quizSetId qs := by
  have hPositions := h.map (·.position)
  rw [placed_positions] at hPositions
  rw [Contiguous, h.length_eq, length_placed]
  exact hPositions

theorem Contiguous.placed (h : Contiguous quizSetId qs) :
    LiveQuiz.placed 1 (quizQuestions quizSetId qs) = quizQuestions quizSetId qs := by
  have hPerm := quizQuestions_perm quizSetId qs
  have hSorted : ((quizQuestions quizSetId qs).map (·.position)).Pairwise (· ≤ ·) := by
    rw [List.pairwise_map]
    exact sortBy_pairwise _
  apply placed_self
  rw [hPerm.length_eq]
  apply ((hPerm.map _).trans h).eq_of_pairwise _ hSorted
    ((positionsFrom_pairwise _ _).imp le_of_lt)
  exact fun a b _ _ hle hge => le_antisymm hle hge

theorem Contiguous.lists (h : Contiguous quizSetId qs) :
    Lists quizSetId qs (LiveQuiz.quizQuestions quizSetId qs) := by
  rw [Lists, h.placed]
  exact (quizQuestions_perm quizSetId qs).symm

theorem Lists.range (h : Lists quizSetId qs l) (hq : q ∈ qs) (hQuiz : q.quizSetId = quizSetId) :
    1 ≤ q.position ∧ q.position ≤ l.length := by
  have hMem : q ∈ placed 1 l := h.mem_iff.mp (List.mem_filter.mpr ⟨hq, decide_eq_true hQuiz⟩)
  have hRange := placed_range hMem
  omega

end

end LiveQuiz
