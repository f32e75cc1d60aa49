import LiveQuiz.Service.RateLimit
import Mathlib.Tactic.FieldSimp
import Mathlib.Tactic.Ring

/-! # Bounds of the token bucket on one clock

The tokens in the bucket are a potential: what a call is granted leaves it, and
between two calls it grows by at most the elapsed time at the refill rate.
-/

namespace LiveQuiz

set_option autoImplicit false

namespace RateLimit

/-- The clock never goes back between calls. -/
def InOrder (calls : List Call) : Prop :=
  calls.Pairwise fun c d => c.nowMs ≤ d.nowMs

section

variable {l : Limit}

theorem grantedIn_cons (s t : Int) (r : Reply) (rs : List Reply) :
    grantedIn s t (r :: rs) =
      (if s ≤ r.call.nowMs ∧ r.call.nowMs ≤ t then r.granted else 0) + grantedIn s t rs := by
  unfold grantedIn
  split <;> simp_all

theorem grantedIn_late {s t : Int} (calls : List Call) (data : Option Bucket)
    (hLate : ∀ c ∈ calls, t < c.nowMs) : grantedIn s t (lastingReplies l data calls) = 0 := by
  induction calls generalizing data with
  | nil => rfl
  | cons c calls ih =>
    have hNow := hLate c List.mem_cons_self
    rw [lastingReplies, grantedIn_cons, if_neg (by simp; omega),
      ih _ fun d hd => hLate d (List.mem_cons_of_mem _ hd), zero_add]

theorem lastingReplies_fits (calls : List Call) {data : Option Bucket}
    (hData : ∀ b ∈ data, b.Fits l) : ∀ r ∈ lastingReplies l data calls, r.bucket.Fits l := by
  induction calls generalizing data with
  | nil => simp [lastingReplies]
  | cons c calls ih =>
    have hFits := rateLimitLua_fits (c := c) hData
    rw [lastingReplies]
    rintro r (_ | ⟨_, hMem⟩)
    · exact hFits
    · exact ih hFits.some r hMem

theorem refill_nonneg (l : Limit) {s t : Int} (hle : s ≤ t) :
    0 ≤ l.refillPerSec * (t - s) / 1000 := by
  have hSpan : (0 : ℚ) ≤ t - s := sub_nonneg.mpr (by exact_mod_cast hle)
  exact div_nonneg (mul_nonneg l.refill_pos.le hSpan) (by norm_num)

theorem granted_add_tokens_le_clamped (l : Limit) (b : Bucket) (c : Call) :
    (rateLimitLua l (some b) c).granted + (rateLimitLua l (some b) c).bucket.tokens ≤
      b.tokens + l.refillPerSec * (max 0 (c.nowMs - b.tsMs) : Int) / 1000 := by
  have hRefilled : refilled l (some b) c.nowMs ≤
      b.tokens + (max 0 (c.nowMs - b.tsMs) : Int) * l.refillPerSec / 1000 := min_le_right _ _
  rw [rateLimitLua_tokens]
  linarith

theorem granted_add_tokens_le (b : Bucket) {c : Call} (hLater : b.tsMs ≤ c.nowMs) :
    (rateLimitLua l (some b) c).granted + (rateLimitLua l (some b) c).bucket.tokens ≤
      b.tokens + l.refillPerSec * (c.nowMs - b.tsMs) / 1000 := by
  have hClamped := granted_add_tokens_le_clamped l b c
  rw [max_eq_right (by omega : 0 ≤ c.nowMs - b.tsMs)] at hClamped
  exact_mod_cast hClamped

theorem window_le_granted (s t : Int) (r : Reply) :
    (if s ≤ r.call.nowMs ∧ r.call.nowMs ≤ t then r.granted else 0) ≤ r.granted := by
  have hNonneg := r.granted_nonneg
  split <;> omega

/-- From a bucket on, a window cannot grant more than its tokens and the refill
up to the window's end. -/
theorem grantedIn_le_tokens {s t : Int} (calls : List Call) {b : Bucket} (hFits : b.Fits l)
    (hOrder : InOrder calls) (hLater : ∀ c ∈ calls, b.tsMs ≤ c.nowMs) (hEnd : b.tsMs ≤ t) :
    grantedIn s t (lastingReplies l (some b) calls) ≤
      b.tokens + l.refillPerSec * (t - b.tsMs) / 1000 := by
  induction calls generalizing b with
  | nil =>
    have hGain := refill_nonneg l hEnd
    have hTokens := hFits.nonneg
    simp only [lastingReplies, grantedIn, List.filter_nil, List.map_nil, List.sum_nil]
    push_cast
    linarith
  | cons c calls ih =>
    obtain ⟨hFirst, hRest⟩ := List.pairwise_cons.mp hOrder
    have hNow := hLater c List.mem_cons_self
    obtain hIn | hLate := le_or_gt c.nowMs t
    · have hStep := granted_add_tokens_le (l := l) b hNow
      have hNext := ih (rateLimitLua_fits (c := c) hFits.some) hRest
        (by simpa using hFirst) (by simpa using hIn)
      have hHere : ((if s ≤ (rateLimitLua l (some b) c).call.nowMs ∧
          (rateLimitLua l (some b) c).call.nowMs ≤ t then
            (rateLimitLua l (some b) c).granted else 0 : Int) : ℚ) ≤
          (rateLimitLua l (some b) c).granted := by
        exact_mod_cast window_le_granted s t _
      rw [rateLimitLua_tsMs] at hNext
      rw [lastingReplies, grantedIn_cons, Int.cast_add]
      calc _ ≤ ((rateLimitLua l (some b) c).granted : ℚ) +
            ((rateLimitLua l (some b) c).bucket.tokens +
              l.refillPerSec * (t - c.nowMs) / 1000) := add_le_add hHere hNext
        _ ≤ b.tokens + l.refillPerSec * (c.nowMs - b.tsMs) / 1000 +
              l.refillPerSec * (t - c.nowMs) / 1000 := by linarith
        _ = b.tokens + l.refillPerSec * (t - b.tsMs) / 1000 := by ring
    · have hNone : grantedIn s t (lastingReplies l (some b) (c :: calls)) = 0 := by
        apply grantedIn_late
        rintro d (_ | ⟨_, hMem⟩)
        · exact hLate
        · exact hLate.trans_le (hFirst d hMem)
      have hGain := refill_nonneg l hEnd
      have hTokens := hFits.nonneg
      rw [hNone]
      push_cast
      linarith

theorem grantedIn_le_window {s t : Int} (hWindow : s ≤ t) (calls : List Call)
    {data : Option Bucket} (hData : ∀ b ∈ data, b.Fits l) (hOrder : InOrder calls) :
    grantedIn s t (lastingReplies l data calls) ≤
      l.capacity + l.refillPerSec * (t - s) / 1000 := by
  have hGain := refill_nonneg l hWindow
  have hCapacity : (0 : ℚ) ≤ l.capacity := by exact_mod_cast l.capacity_nonneg
  induction calls generalizing data with
  | nil =>
    simp only [lastingReplies, grantedIn, List.filter_nil, List.map_nil, List.sum_nil]
    push_cast
    linarith
  | cons c calls ih =>
    obtain ⟨hFirst, hRest⟩ := List.pairwise_cons.mp hOrder
    have hFits := rateLimitLua_fits (c := c) hData
    rw [lastingReplies, grantedIn_cons, rateLimitLua_call]
    obtain hBefore | hFrom := lt_or_ge c.nowMs s
    · rw [if_neg (by omega), zero_add]
      exact ih hFits.some hRest
    obtain hIn | hLate := le_or_gt c.nowMs t
    · have hNext := grantedIn_le_tokens (s := s) (t := t) calls hFits hRest
        (by simpa using hFirst) (by simpa using hIn)
      have hTokens := rateLimitLua_tokens l data c
      have hFull := refilled_le_capacity l data c.nowMs
      have hShorter : l.refillPerSec * (t - c.nowMs) / 1000 ≤
          l.refillPerSec * (t - s) / 1000 := by
        have hFrom' : (s : ℚ) ≤ c.nowMs := by exact_mod_cast hFrom
        have hRefill := l.refill_pos.le
        gcongr
      rw [if_pos ⟨hFrom, hIn⟩, Int.cast_add]
      rw [rateLimitLua_tsMs] at hNext
      linarith
    · have hNone := grantedIn_late (l := l) (s := s) (t := t) calls
        (some (rateLimitLua l data c).bucket) fun d hd => hLate.trans_le (hFirst d hd)
      rw [if_neg (by omega), hNone]
      push_cast
      linarith

end

theorem no_data_fits (l : Limit) : ∀ b ∈ (none : Option Bucket), b.Fits l := by
  rintro b ⟨⟩

theorem bucket_bound (l : Limit) (calls : List Call) (hOrder : InOrder calls) :
    (∀ r ∈ replies l none calls, 0 ≤ r.bucket.tokens ∧ r.bucket.tokens ≤ l.capacity) ∧
      (∀ s t : Int, s ≤ t → grantedIn s t (replies l none calls) ≤
        l.capacity + l.refillPerSec * (t - s) / 1000) ∧
      replies l none calls = lastingReplies l none calls := by
  have hLasting : replies l none calls = lastingReplies l none calls :=
    replies_eq_lasting calls (keyAfter_kept l [])
  rw [hLasting]
  constructor
  · intro r hMem
    have hFits := lastingReplies_fits calls (no_data_fits l) r hMem
    exact ⟨hFits.nonneg, hFits.le_capacity⟩
  constructor
  · intro s t hWindow
    exact grantedIn_le_window hWindow calls (no_data_fits l) hOrder
  · rfl

namespace Demo

/-- One token a second, at most one kept. -/
def single : Limit := ⟨1, 1, by decide, by decide⟩

def poll (nowMs : Int) : Call := ⟨nowMs, 1, by decide⟩

end Demo

/-- The window of one second grants two of the three calls, as many as it may. -/
theorem bucket_bound_single :
    grantedIn 0 1000 (replies Demo.single none [Demo.poll 0, Demo.poll 500, Demo.poll 1000]) = 2 ∧
      ((2 : Int) : ℚ) ≤ Demo.single.capacity + Demo.single.refillPerSec * (1000 - 0) / 1000 := by
  have hGranted : grantedIn 0 1000 (replies Demo.single none
      [Demo.poll 0, Demo.poll 500, Demo.poll 1000]) = 2 := by decide +kernel
  have hBound := (bucket_bound Demo.single [Demo.poll 0, Demo.poll 500, Demo.poll 1000]
    (by simp [InOrder, Demo.poll])).2.1 0 1000 (by decide)
  rw [hGranted] at hBound
  exact ⟨hGranted, by simpa using hBound⟩

/-- The instant at which an untouched bucket holds `cost` tokens. A denied call
re-bases the bucket and leaves this instant where it is. -/
def dueAt (l : Limit) (cost : Int) (b : Bucket) : ℚ :=
  b.tsMs + (cost - b.tokens) * 1000 / l.refillPerSec

section

variable {l : Limit} {b : Bucket} {cost nowMs : Int}

theorem le_gain_iff :
    cost ≤ b.tokens + (nowMs - b.tsMs) * l.refillPerSec / 1000 ↔ dueAt l cost b ≤ nowMs := by
  have hRefill := l.refill_pos
  have hDue : dueAt l cost b ≤ nowMs ↔
      (cost - b.tokens) * 1000 / l.refillPerSec ≤ nowMs - b.tsMs := by
    unfold dueAt
    constructor <;> intro h <;> linarith
  rw [hDue, div_le_iff₀ hRefill]
  constructor <;> intro h <;> linarith

theorem refilled_later (hLater : b.tsMs ≤ nowMs) :
    refilled l (some b) nowMs =
      min (l.capacity : ℚ) (b.tokens + (nowMs - b.tsMs) * l.refillPerSec / 1000) := by
  have hDelta : max 0 (nowMs - b.tsMs) = nowMs - b.tsMs := max_eq_right (by omega)
  rw [refilled, hDelta]
  push_cast
  rfl

theorem le_refilled_iff (hCost : cost ≤ l.capacity) (hLater : b.tsMs ≤ nowMs) :
    cost ≤ refilled l (some b) nowMs ↔ dueAt l cost b ≤ nowMs := by
  have hCapacity : (cost : ℚ) ≤ l.capacity := by exact_mod_cast hCost
  rw [refilled_later hLater, le_min_iff, le_gain_iff]
  exact and_iff_right hCapacity

theorem dueAt_rebased (hCost : cost ≤ l.capacity) (hLater : b.tsMs ≤ nowMs)
    (hEarly : refilled l (some b) nowMs < cost) :
    dueAt l cost ⟨refilled l (some b) nowMs, nowMs⟩ = dueAt l cost b := by
  have hCapacity : (cost : ℚ) ≤ l.capacity := by exact_mod_cast hCost
  have hRefill := l.refill_pos.ne'
  have hGain : refilled l (some b) nowMs =
      b.tokens + (nowMs - b.tsMs) * l.refillPerSec / 1000 := by
    rw [refilled_later hLater] at hEarly ⊢
    exact min_eq_right (((min_lt_iff.mp hEarly).resolve_left hCapacity.not_gt).le.trans hCapacity)
  rw [dueAt, dueAt, hGain]
  field_simp
  ring

end

theorem polls_until {l : Limit} {cost : Int} (hCost : cost ≤ l.capacity) (polls : List Call)
    {b : Bucket} (hSame : ∀ p ∈ polls, p.cost = cost) (hOrder : InOrder polls)
    (hLater : ∀ p ∈ polls, b.tsMs ≤ p.nowMs) :
    (∀ r ∈ lastingReplies l (some b) polls,
      (r.call.nowMs : ℚ) < dueAt l cost b → r.allowed = false) ∧
      ∀ r ∈ (lastingReplies l (some b) polls).find? (fun r => dueAt l cost b ≤ r.call.nowMs),
        r.allowed = true := by
  induction polls generalizing b with
  | nil => simp [lastingReplies]
  | cons p polls ih =>
    obtain ⟨hFirst, hRest⟩ := List.pairwise_cons.mp hOrder
    have hNow := hLater p List.mem_cons_self
    have hSameCost : p.cost = cost := hSame p List.mem_cons_self
    have hAllowed : (rateLimitLua l (some b) p).allowed = true ↔ dueAt l cost b ≤ p.nowMs := by
      rw [rateLimitLua_allowed, hSameCost]
      exact le_refilled_iff hCost hNow
    rw [lastingReplies]
    obtain hDue | hEarly := le_or_gt (dueAt l cost b) p.nowMs
    · constructor
      · rintro r (_ | ⟨_, hMem⟩) hBefore
        · rw [rateLimitLua_call] at hBefore
          exact absurd hDue hBefore.not_ge
        · have hLate : (p.nowMs : ℚ) ≤ r.call.nowMs := by
            exact_mod_cast hFirst _ (mem_lastingReplies hMem)
          exact absurd (hDue.trans hLate) hBefore.not_ge
      · rw [List.find?_cons_of_pos (by simpa using hDue)]
        rintro r ⟨⟩
        exact hAllowed.mpr hDue
    · -- A denied poll leaves the due instant, so the rest polls against the same one.
      have hShort : refilled l (some b) p.nowMs < cost :=
        lt_of_not_ge fun hle => hEarly.not_ge ((le_refilled_iff hCost hNow).mp hle)
      have hReply : rateLimitLua l (some b) p = _ :=
        rateLimitLua_denied (by rw [hSameCost]; exact hShort)
      have hDueAt := dueAt_rebased hCost hNow hShort
      have hBucket : (rateLimitLua l (some b) p).bucket =
          ⟨refilled l (some b) p.nowMs, p.nowMs⟩ := by rw [hReply]
      obtain ⟨hDenied, hGranted⟩ := ih (b := (rateLimitLua l (some b) p).bucket)
        (fun q hq => hSame q (List.mem_cons_of_mem _ hq)) hRest (by rw [hBucket]; exact hFirst)
      rw [hBucket, hDueAt] at hDenied hGranted
      rw [hBucket]
      constructor
      · rintro r (_ | ⟨_, hMem⟩) hBefore
        · rw [hReply]
        · exact hDenied r hMem hBefore
      · rw [List.find?_cons_of_neg (by simpa using hEarly)]
        exact hGranted

theorem retry_due {l : Limit} {data : Option Bucket} {c : Call}
    (hDenied : (rateLimitLua l data c).allowed = false) :
    c.nowMs + (rateLimitLua l data c).retryAfterMs =
      ⌈dueAt l c.cost (rateLimitLua l data c).bucket⌉ := by
  have hShort : refilled l data c.nowMs < c.cost := by
    apply lt_of_not_ge
    intro hle
    rw [(rateLimitLua_allowed l data c).mpr hle] at hDenied
    exact absurd hDenied (by decide)
  rw [rateLimitLua_denied hShort, dueAt, Int.ceil_intCast_add]

theorem retry_exact (l : Limit) (earlier polls : List Call) (c : Call) (reply : Reply)
    (key : Entry) (hOrder : InOrder (earlier ++ c :: polls)) (hCost : c.cost ≤ l.capacity)
    (hSame : ∀ p ∈ polls, p.cost = c.cost)
    (hCall : acquire l (keyAfter l earlier) c = (reply, key)) (hDenied : reply.allowed = false) :
    (∀ r ∈ replies l (some key) polls,
      r.call.nowMs < c.nowMs + reply.retryAfterMs → r.allowed = false) ∧
      ∀ r ∈ (replies l (some key) polls).find? (fun r =>
          c.nowMs + reply.retryAfterMs ≤ r.call.nowMs), r.allowed = true := by
  obtain ⟨hFirst, hRest⟩ := List.pairwise_cons.mp (List.pairwise_append.mp hOrder).2.1
  have hKept : key.Kept l := by
    have hNext := acquire_kept (keyAfter_kept l earlier) c
    rwa [hCall] at hNext
  obtain ⟨rfl, rfl⟩ := Prod.mk.inj hCall.symm
  have hLasting := replies_eq_lasting polls hKept.some
  obtain ⟨hEarly, hDue⟩ := polls_until (l := l) hCost polls hSame hRest
    (b := (rateLimitLua l (Entry.read (keyAfter l earlier) c.nowMs) c).bucket)
    (by simpa using hFirst)
  rw [hLasting, retry_due hDenied]
  constructor
  · intro r hMem hBefore
    exact hEarly r hMem (Int.lt_ceil.mp hBefore)
  · simp only [Int.ceil_le]
    exact hDue

/-- The call at 500 ms is told to wait for the half token that is missing. -/
def Demo.denied : Reply × Entry :=
  acquire Demo.single (keyAfter Demo.single [Demo.poll 0]) (Demo.poll 500)

theorem retry_exact_single :
    Demo.denied.1.retryAfterMs = 500 ∧
      (∀ r ∈ replies Demo.single (some Demo.denied.2) [Demo.poll 999, Demo.poll 1000],
        r.call.nowMs < 500 + 500 → r.allowed = false) ∧
      ∀ r ∈ (replies Demo.single (some Demo.denied.2) [Demo.poll 999, Demo.poll 1000]).find?
        (fun r => 500 + 500 ≤ r.call.nowMs), r.allowed = true := by
  have hRetry : Demo.denied.1.retryAfterMs = 500 := by decide +kernel
  have hExact := retry_exact Demo.single [Demo.poll 0] [Demo.poll 999, Demo.poll 1000]
    (Demo.poll 500) Demo.denied.1 Demo.denied.2 (by simp [InOrder, Demo.poll]) (by decide)
    (by simp [Demo.poll]) rfl (by decide +kernel)
  rw [hRetry] at hExact
  exact ⟨hRetry, hExact⟩

end RateLimit

end LiveQuiz
