import LiveQuiz.Results.RateLimit
import Mathlib

/-! # Replicas with different clocks

Each call stores its own `now_ms`, also when it lies before the stored one, so a
clock that goes back and forth credits the same interval again. What the bucket
can grant is the sum of the forward steps, whatever span they cover.
-/

namespace LiveQuiz

set_option autoImplicit false

namespace RateLimit

/-- The forward steps between consecutive clock readings. -/
def rises : List Int → Int
  | a :: b :: nows => max 0 (b - a) + rises (b :: nows)
  | _ => 0

/-- From the earliest clock reading to the latest. -/
def spread (nows : List Int) : Int :=
  nows.max?.getD 0 - nows.min?.getD 0

theorem rises_nonneg (nows : List Int) : 0 ≤ rises nows := by
  induction nows using rises.induct with
  | case1 a b nows ih =>
    rw [rises]
    omega
  | case2 nows hShort => rw [rises.eq_def]; split <;> simp_all

theorem grantedTotal_cons (r : Reply) (rs : List Reply) :
    grantedTotal (r :: rs) = r.granted + grantedTotal rs := by
  simp [grantedTotal]

theorem grantedTotal_le_rises {l : Limit} (calls : List Call) {b : Bucket} (hFits : b.Fits l) :
    grantedTotal (lastingReplies l (some b) calls) ≤
      b.tokens + l.refillPerSec * rises (b.tsMs :: calls.map (·.nowMs)) / 1000 := by
  induction calls generalizing b with
  | nil => simpa [lastingReplies, grantedTotal, rises] using hFits.nonneg
  | cons c calls ih =>
    have hStep := granted_add_tokens_le_clamped l b c
    have hNext := ih (rateLimitLua_fits (c := c) hFits.some)
    rw [rateLimitLua_tsMs] at hNext
    rw [lastingReplies, grantedTotal_cons, List.map_cons, rises]
    push_cast at hStep ⊢
    linarith

theorem grantedTotal_le (l : Limit) (calls : List Call) :
    grantedTotal (lastingReplies l none calls) ≤
      l.capacity + l.refillPerSec * rises (calls.map (·.nowMs)) / 1000 := by
  cases calls with
  | nil =>
    have hCapacity : (0 : ℚ) ≤ l.capacity := by exact_mod_cast l.capacity_nonneg
    simpa [lastingReplies, grantedTotal, rises] using hCapacity
  | cons c calls =>
    have hNext := grantedTotal_le_rises calls (rateLimitLua_fits (c := c) (no_data_fits l))
    have hFull := refilled_le_capacity l none c.nowMs
    have hTokens := rateLimitLua_tokens l none c
    rw [rateLimitLua_tsMs] at hNext
    rw [lastingReplies, grantedTotal_cons, List.map_cons]
    push_cast
    linarith

theorem step_cost_pos (a b : Int) : 1 ≤ max 1 (b - a) := le_max_left ..

def greedy (a : Int) : List Int → List Call
  | [] => []
  | b :: nows => ⟨b, max 1 (b - a), step_cost_pos a b⟩ :: greedy b nows

/-- One token a millisecond, and room for the steps of every reading. -/
def roomy (nows : List Int) : Limit where
  capacity := 1 + rises nows
  refillPerSec := 1000
  capacity_nonneg := by
    have hNonneg := rises_nonneg nows
    omega
  refill_pos := by norm_num

theorem greedy_nows (a : Int) (nows : List Int) : (greedy a nows).map (·.nowMs) = nows := by
  induction nows generalizing a with
  | nil => rfl
  | cons b nows ih => simp [greedy, ih]

theorem greedy_step {l : Limit} (hRate : l.refillPerSec = 1000) {a b : Int}
    (hRoom : max 0 (b - a) ≤ l.capacity) (c : Call) (hNow : c.nowMs = b)
    (hCost : c.cost = max 1 (b - a)) :
    (rateLimitLua l (some ⟨0, a⟩) c).granted = max 0 (b - a) ∧
      (rateLimitLua l (some ⟨0, a⟩) c).bucket = ⟨0, b⟩ := by
  have hCapacity : ((max 0 (b - a) : Int) : ℚ) ≤ l.capacity := by exact_mod_cast hRoom
  have hRefilled : refilled l (some ⟨0, a⟩) c.nowMs = (max 0 (b - a) : Int) := by
    rw [refilled, hNow, hRate, zero_add, mul_div_cancel_right₀ _ (by norm_num)]
    exact min_eq_right hCapacity
  have hAllowed : c.cost ≤ refilled l (some ⟨0, a⟩) c.nowMs ↔ a < b := by
    rw [hRefilled, Int.cast_le, hCost]
    omega
  simp only [rateLimitLua, Reply.granted]
  split
  case isTrue hle =>
    have hForward := hAllowed.mp hle
    rw [hRefilled, hNow, hCost, max_eq_right (by omega : 1 ≤ b - a),
      max_eq_right (by omega : 0 ≤ b - a)]
    simp
  case isFalse hgt =>
    have hNot : ¬ a < b := fun hForward => hgt (hAllowed.mpr hForward)
    have hBack : max 0 (b - a) = 0 := max_eq_left (by omega)
    rw [hRefilled, hNow, hBack]
    simp

theorem greedy_granted {l : Limit} (hRate : l.refillPerSec = 1000) (nows : List Int) {a : Int}
    (hRoom : rises (a :: nows) ≤ l.capacity) :
    grantedTotal (lastingReplies l (some ⟨0, a⟩) (greedy a nows)) = rises (a :: nows) := by
  induction nows generalizing a with
  | nil => rfl
  | cons b nows ih =>
    have hRest := rises_nonneg (b :: nows)
    rw [rises] at hRoom ⊢
    obtain ⟨hGranted, hEmpty⟩ := greedy_step (a := a) (b := b) hRate (by omega)
      ⟨b, max 1 (b - a), by omega⟩ rfl rfl
    rw [greedy, lastingReplies, grantedTotal_cons, hGranted, hEmpty, ih (by omega)]

def drain : List Int → List Call
  | [] => []
  | a :: nows =>
    ⟨a, 1 + rises (a :: nows), by have := rises_nonneg (a :: nows); omega⟩ :: greedy a nows

theorem drain_nows (nows : List Int) : (drain nows).map (·.nowMs) = nows := by
  cases nows with
  | nil => rfl
  | cons a nows => simp [drain, greedy_nows]

theorem drain_granted (a : Int) (nows : List Int) :
    grantedTotal (lastingReplies (roomy (a :: nows)) none (drain (a :: nows))) =
      (roomy (a :: nows)).capacity + rises (a :: nows) := by
  have hRest := greedy_granted (l := roomy (a :: nows)) rfl nows (a := a) (by simp [roomy])
  rw [drain, lastingReplies, grantedTotal_cons]
  simpa [rateLimitLua, refilled, roomy, Reply.granted] using hRest

theorem granted_within_spread_iff (nows : List Int) :
    (∀ (l : Limit) (calls : List Call), calls.map (·.nowMs) = nows →
      grantedTotal (lastingReplies l none calls) ≤
        l.capacity + l.refillPerSec * spread nows / 1000) ↔
      rises nows ≤ spread nows := by
  constructor
  · intro hBound
    cases nows with
    | nil => decide
    | cons a nows =>
      have hDrained := hBound (roomy (a :: nows)) (drain (a :: nows)) (drain_nows _)
      have hRate : (roomy (a :: nows)).refillPerSec = 1000 := rfl
      rw [drain_granted, hRate, mul_div_cancel_left₀ _ (by norm_num)] at hDrained
      push_cast at hDrained
      exact_mod_cast le_of_add_le_add_left hDrained
  · rintro hRises l calls rfl
    have hRises' : (rises (calls.map (·.nowMs)) : ℚ) ≤ spread (calls.map (·.nowMs)) := by
      exact_mod_cast hRises
    have hRefill := l.refill_pos.le
    calc (grantedTotal (lastingReplies l none calls) : ℚ) ≤
          l.capacity + l.refillPerSec * rises (calls.map (·.nowMs)) / 1000 :=
            grantedTotal_le l calls
      _ ≤ l.capacity + l.refillPerSec * spread (calls.map (·.nowMs)) / 1000 := by gcongr

/-- Two clocks a second apart, calling in turn: three tokens in one second, where
a bucket of one and a token a second allow two. -/
theorem interval_credited_twice :
    ¬ ∀ (l : Limit) (calls : List Call), grantedTotal (lastingReplies l none calls) ≤
      l.capacity + l.refillPerSec * spread (calls.map (·.nowMs)) / 1000 := by
  intro hBound
  have hThree := hBound Demo.single [Demo.poll 0, Demo.poll 1000, Demo.poll 0, Demo.poll 1000]
  exact absurd hThree (by decide +kernel)

end RateLimit

end LiveQuiz
