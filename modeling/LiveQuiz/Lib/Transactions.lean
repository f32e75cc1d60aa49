import Mathlib.Logic.Function.Basic

/-! # Transactions

The statements that a transaction has flushed, and the locks that transactions hold on rows.
A transaction goes by the number of its program.
-/

namespace Transactions

set_option autoImplicit false

section

variable {ω σ β : Type} {apply : ω → σ → σ} {ws vs : List ω} {s : σ} {P Q : σ → Prop}

/-- The statements of a transaction in their order. -/
def applyAll (apply : ω → σ → σ) (ws : List ω) (s : σ) : σ := ws.foldl (fun s w => apply w s) s

@[simp] theorem applyAll_nil : applyAll apply [] s = s := rfl

@[simp] theorem applyAll_cons {w : ω} : applyAll apply (w :: ws) s = applyAll apply ws (apply w s) := rfl

theorem applyAll_append : applyAll apply (ws ++ vs) s = applyAll apply vs (applyAll apply ws s) :=
  List.foldl_append ..

/-- What each statement keeps, they all keep. -/
theorem applyAll_keeps (h : ∀ w ∈ ws, ∀ s, P s → P (apply w s)) (hs : P s) :
    P (applyAll apply ws s) := by
  induction ws generalizing s with
  | nil => exact hs
  | cons w ws ih =>
    obtain ⟨hFirst, hRest⟩ := List.forall_mem_cons.mp h
    exact ih hRest (hFirst s hs)

/-- One statement brings `P` about where `Q` holds; the others keep both. -/
theorem applyAll_gains {w : ω} (hMem : w ∈ ws) (hGain : ∀ s, Q s → P (apply w s))
    (hKeepsQ : ∀ w ∈ ws, ∀ s, Q s → Q (apply w s)) (hKeepsP : ∀ w ∈ ws, ∀ s, P s → P (apply w s))
    (hs : Q s) : P (applyAll apply ws s) := by
  induction ws generalizing s with
  | nil => cases hMem
  | cons v ws ih =>
    obtain ⟨hFirst, hRest⟩ := List.forall_mem_cons.mp hKeepsQ
    have hLast := (List.forall_mem_cons.mp hKeepsP).2
    rw [applyAll_cons]
    obtain rfl | hIn := List.mem_cons.mp hMem
    · exact applyAll_keeps hLast (hGain s hs)
    · exact ih hIn hRest hLast (hFirst s hs)

theorem applyAll_same {g : σ → β} (h : ∀ w ∈ ws, ∀ s, g (apply w s) = g s) :
    g (applyAll apply ws s) = g s :=
  applyAll_keeps (P := fun t => g t = g s) (fun w hw t ht => (h w hw t).trans ht) rfl

/-- A table to which each statement adds at most one row. -/
theorem applyAll_appends {g : σ → List β} {f : ω → Option β}
    (h : ∀ w s, g (apply w s) = g s ++ (f w).toList) :
    g (applyAll apply ws s) = g s ++ ws.filterMap f := by
  induction ws generalizing s with
  | nil => rw [applyAll_nil, List.filterMap_nil, List.append_nil]
  | cons w ws ih =>
    rw [applyAll_cons, ih, h, List.append_assoc, List.filterMap_cons]
    cases f w <;> rfl

end

/-- The open transactions: what each has flushed, and which one has locked a row. -/
structure Book (τ ρ : Type) where
  tx : Nat → τ
  lock : ρ → Option Nat

namespace Book

variable {τ ρ ω : Type} {b : Book τ ρ} {t : τ} {pid q : Nat} {row : ρ} {rows : ρ → Bool}

def heldByOther (b : Book τ ρ) (pid : Nat) (row : ρ) : Bool := (b.lock row).any (· ≠ pid)

@[simp] theorem heldByOther_iff : b.heldByOther pid row = true ↔ ∃ q, b.lock row = some q ∧ q ≠ pid := by
  unfold heldByOther
  cases b.lock row <;> simp

@[simp] theorem heldByOther_eq_false :
    b.heldByOther pid row = false ↔ ∀ q, b.lock row = some q → q = pid := by
  unfold heldByOther
  cases b.lock row <;> simp

/-- A transaction locks some rows. -/
def take (b : Book τ ρ) (pid : Nat) (rows : ρ → Bool) : Book τ ρ :=
  { b with lock := fun row => if rows row then some pid else b.lock row }

@[simp] theorem take_tx : (b.take pid rows).tx = b.tx := rfl

@[simp] theorem take_lock : (b.take pid rows).lock row = if rows row then some pid else b.lock row := rfl

/-- A transaction flushes statements. -/
def append (b : Book (List ω) ρ) (pid : Nat) (ws : List ω) : Book (List ω) ρ :=
  { b with tx := Function.update b.tx pid (b.tx pid ++ ws) }

@[simp] theorem append_tx {b : Book (List ω) ρ} {ws : List ω} :
    (b.append pid ws).tx = Function.update b.tx pid (b.tx pid ++ ws) := rfl

/-- The end of a transaction: its locks are free, and it is back at `t`. -/
def endTx (b : Book τ ρ) (t : τ) (pid : Nat) : Book τ ρ where
  tx := Function.update b.tx pid t
  lock row := if b.lock row = some pid then none else b.lock row

@[simp] theorem endTx_tx : (b.endTx t pid).tx = Function.update b.tx pid t := rfl

@[simp] theorem endTx_lock : (b.endTx t pid).lock row = some q ↔ b.lock row = some q ∧ q ≠ pid := by
  unfold endTx
  dsimp only
  split
  next hMine => simp [hMine, eq_comm]
  next hNot =>
    refine ⟨fun h => ⟨h, ?_⟩, And.left⟩
    rintro rfl
    exact hNot h

end Book

end Transactions
