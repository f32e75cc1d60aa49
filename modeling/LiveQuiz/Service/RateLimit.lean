import Mathlib.Data.Rat.Floor
import Mathlib.Tactic.Linarith
import Mathlib.Tactic.Positivity

/-! # The token bucket

`RATE_LIMIT_LUA` and `acquire` on one key. Numbers are exact rationals where Lua
and Python compute in floats.
-/

namespace LiveQuiz

set_option autoImplicit false

namespace RateLimit

/-- What every caller on a key passes alike. -/
structure Limit where
  capacity : Int
  refillPerSec : ℚ
  capacity_nonneg : 0 ≤ capacity
  refill_pos : 0 < refillPerSec

structure Call where
  nowMs : Int
  cost : Int
  cost_pos : 0 < cost

/-- The hash at the key. -/
structure Bucket where
  tokens : ℚ
  tsMs : Int

/-- The reply of the script, with the call and the hash it leaves. -/
structure Reply where
  call : Call
  allowed : Bool
  remaining : Int
  retryAfterMs : Int
  bucket : Bucket

/-- The tokens after the refill, before the cost is taken. -/
def refilled (l : Limit) (data : Option Bucket) (nowMs : Int) : ℚ :=
  match data with
  | none => l.capacity
  | some b => min l.capacity (b.tokens + max 0 (nowMs - b.tsMs : Int) * l.refillPerSec / 1000)

def rateLimitLua (l : Limit) (data : Option Bucket) (c : Call) : Reply :=
  let tokens := refilled l data c.nowMs
  if c.cost ≤ tokens then
    ⟨c, true, ⌊tokens - c.cost⌋, 0, ⟨tokens - c.cost, c.nowMs⟩⟩
  else
    ⟨c, false, ⌊tokens⌋, ⌈(c.cost - tokens) * 1000 / l.refillPerSec⌉, ⟨tokens, c.nowMs⟩⟩

/-- The argument of PEXPIRE. -/
def ttlMs (l : Limit) : Int :=
  ⌈l.capacity / l.refillPerSec⌉ * 1000 + 1000

/-- The key with its expiry time. -/
structure Entry where
  bucket : Bucket
  expiresAt : Int

/-- What HMGET finds at `nowMs`. -/
def Entry.read (key : Option Entry) (nowMs : Int) : Option Bucket :=
  (key.filter fun e => nowMs < e.expiresAt).map (·.bucket)

def acquire (l : Limit) (key : Option Entry) (c : Call) : Reply × Entry :=
  let reply := rateLimitLua l (Entry.read key c.nowMs) c
  (reply, ⟨reply.bucket, c.nowMs + ttlMs l⟩)

/-- The replies to a sequence of calls on one key. -/
def replies (l : Limit) : Option Entry → List Call → List Reply
  | _, [] => []
  | key, c :: calls =>
    let (reply, entry) := acquire l key c
    reply :: replies l (some entry) calls

/-- The key after a sequence of calls, the first of which created it. -/
def keyAfter (l : Limit) (calls : List Call) : Option Entry :=
  calls.foldl (fun key c => some (acquire l key c).2) none

/-- The same calls on a key that never expires. -/
def lastingReplies (l : Limit) : Option Bucket → List Call → List Reply
  | _, [] => []
  | data, c :: calls =>
    let reply := rateLimitLua l data c
    reply :: lastingReplies l (some reply.bucket) calls

def Reply.granted (r : Reply) : Int :=
  if r.allowed then r.call.cost else 0

/-- The cost granted by the calls of a time window. -/
def grantedIn (s t : Int) (rs : List Reply) : Int :=
  ((rs.filter fun r => s ≤ r.call.nowMs ∧ r.call.nowMs ≤ t).map Reply.granted).sum

def grantedTotal (rs : List Reply) : Int :=
  (rs.map Reply.granted).sum

/-- The hash holds between no tokens and a full bucket. -/
structure Bucket.Fits (l : Limit) (b : Bucket) : Prop where
  nonneg : 0 ≤ b.tokens
  le_capacity : b.tokens ≤ l.capacity

section

variable {l : Limit} {data : Option Bucket} {c : Call}

theorem Bucket.Fits.some {b : Bucket} (hFits : b.Fits l) : ∀ x ∈ Option.some b, x.Fits l := by
  rintro _ ⟨⟩
  exact hFits

theorem refilled_le_capacity (l : Limit) (data : Option Bucket) (nowMs : Int) :
    refilled l data nowMs ≤ l.capacity := by
  cases data with
  | none => exact le_rfl
  | some b => exact min_le_left _ _

theorem gain_nonneg (l : Limit) (ms : Int) : 0 ≤ (max 0 ms : Int) * l.refillPerSec / 1000 := by
  have hMs : (0 : ℚ) ≤ (max 0 ms : Int) := by exact_mod_cast le_max_left 0 ms
  have hRefill := l.refill_pos.le
  positivity

theorem refilled_nonneg (hData : ∀ b ∈ data, b.Fits l) (nowMs : Int) :
    0 ≤ refilled l data nowMs := by
  have hCapacity : (0 : ℚ) ≤ l.capacity := by exact_mod_cast l.capacity_nonneg
  cases data with
  | none => exact hCapacity
  | some b =>
    apply le_min hCapacity
    exact add_nonneg (hData b rfl).nonneg (gain_nonneg l _)

@[simp] theorem rateLimitLua_call (l : Limit) (data : Option Bucket) (c : Call) :
    (rateLimitLua l data c).call = c := by
  simp only [rateLimitLua]
  split <;> rfl

@[simp] theorem rateLimitLua_tsMs (l : Limit) (data : Option Bucket) (c : Call) :
    (rateLimitLua l data c).bucket.tsMs = c.nowMs := by
  simp only [rateLimitLua]
  split <;> rfl

theorem rateLimitLua_tokens (l : Limit) (data : Option Bucket) (c : Call) :
    (rateLimitLua l data c).bucket.tokens =
      refilled l data c.nowMs - (rateLimitLua l data c).granted := by
  by_cases hCost : c.cost ≤ refilled l data c.nowMs <;> simp [rateLimitLua, hCost, Reply.granted]

theorem rateLimitLua_allowed (l : Limit) (data : Option Bucket) (c : Call) :
    (rateLimitLua l data c).allowed = true ↔ c.cost ≤ refilled l data c.nowMs := by
  by_cases hCost : c.cost ≤ refilled l data c.nowMs <;> simp [rateLimitLua, hCost]

theorem rateLimitLua_denied (hCost : refilled l data c.nowMs < c.cost) :
    rateLimitLua l data c = ⟨c, false, ⌊refilled l data c.nowMs⌋,
      ⌈(c.cost - refilled l data c.nowMs) * 1000 / l.refillPerSec⌉,
      ⟨refilled l data c.nowMs, c.nowMs⟩⟩ := by
  simp [rateLimitLua, hCost.not_ge]

theorem Reply.granted_nonneg (r : Reply) : 0 ≤ r.granted := by
  have hPos := r.call.cost_pos
  unfold granted
  split <;> omega

theorem rateLimitLua_fits (hData : ∀ b ∈ data, b.Fits l) :
    (rateLimitLua l data c).bucket.Fits l := by
  have hCapacity := refilled_le_capacity l data c.nowMs
  have hNonneg := refilled_nonneg hData c.nowMs
  constructor
  · simp only [rateLimitLua]
    split
    · exact sub_nonneg.mpr ‹_›
    · exact hNonneg
  · have hGranted : (0 : ℚ) ≤ (rateLimitLua l data c).granted := by
      exact_mod_cast Reply.granted_nonneg _
    rw [rateLimitLua_tokens]
    linarith

end

theorem capacity_le_of_ttl (l : Limit) : (l.capacity : ℚ) ≤ ttlMs l * l.refillPerSec / 1000 := by
  have hCeil := Int.le_ceil (l.capacity / l.refillPerSec)
  have hRefill := l.refill_pos
  rw [div_le_iff₀ hRefill] at hCeil
  unfold ttlMs
  push_cast
  nlinarith

theorem refilled_expired {l : Limit} {b : Bucket} (hFits : b.Fits l) {nowMs : Int}
    (hExpired : b.tsMs + ttlMs l ≤ nowMs) : refilled l (some b) nowMs = l.capacity := by
  have hTtl : (ttlMs l : ℚ) ≤ (max 0 (nowMs - b.tsMs) : Int) := by
    have hLater : ttlMs l ≤ max 0 (nowMs - b.tsMs) := le_max_of_le_right (by omega)
    exact_mod_cast hLater
  have hGain := mul_le_mul_of_nonneg_right hTtl l.refill_pos.le
  have hFull := capacity_le_of_ttl l
  have hTokens := hFits.nonneg
  apply min_eq_left
  linarith

/-- The key as the calls leave it. -/
structure Entry.Kept (l : Limit) (e : Entry) : Prop where
  fits : e.bucket.Fits l
  expiresAt : e.expiresAt = e.bucket.tsMs + ttlMs l

theorem Entry.Kept.some {l : Limit} {e : Entry} (hKept : e.Kept l) :
    ∀ x ∈ Option.some e, x.Kept l := by
  rintro _ ⟨⟩
  exact hKept

/-- The script reads the hash only through the refilled tokens. -/
theorem rateLimitLua_congr {l : Limit} {data data' : Option Bucket} {c : Call}
    (h : refilled l data c.nowMs = refilled l data' c.nowMs) :
    rateLimitLua l data c = rateLimitLua l data' c := by
  simp only [rateLimitLua, h]

theorem refilled_read {l : Limit} {key : Option Entry} (hKey : ∀ e ∈ key, e.Kept l)
    (nowMs : Int) :
    refilled l (Entry.read key nowMs) nowMs = refilled l (key.map (·.bucket)) nowMs := by
  cases key with
  | none => rfl
  | some e =>
    obtain hLive | hExpired := lt_or_ge nowMs e.expiresAt
    · simp [Entry.read, Option.filter, hLive]
    · have hFull := refilled_expired (hKey e rfl).fits ((hKey e rfl).expiresAt ▸ hExpired)
      simpa [Entry.read, Option.filter, hExpired.not_gt, refilled] using hFull.symm

theorem acquire_kept {l : Limit} {key : Option Entry} (hKey : ∀ e ∈ key, e.Kept l) (c : Call) :
    (acquire l key c).2.Kept l := by
  constructor
  · apply rateLimitLua_fits
    intro b hRead
    simp only [Entry.read, Option.mem_def, Option.map_eq_some_iff, Option.filter_eq_some_iff] at hRead
    obtain ⟨e, ⟨hMem, _⟩, rfl⟩ := hRead
    exact (hKey e hMem).fits
  · simp [acquire]

theorem keyAfter_kept (l : Limit) (calls : List Call) : ∀ e ∈ keyAfter l calls, e.Kept l := by
  induction calls using List.reverseRecOn with
  | nil => rintro e ⟨⟩
  | append_singleton calls c ih =>
    rw [keyAfter, List.foldl_append]
    exact (acquire_kept ih c).some

theorem replies_eq_lasting {l : Limit} (calls : List Call) {key : Option Entry}
    (hKey : ∀ e ∈ key, e.Kept l) :
    replies l key calls = lastingReplies l (key.map (·.bucket)) calls := by
  induction calls generalizing key with
  | nil => rfl
  | cons c calls ih =>
    have hReply : (acquire l key c).1 = rateLimitLua l (key.map (·.bucket)) c :=
      rateLimitLua_congr (refilled_read hKey c.nowMs)
    rw [replies, lastingReplies, ← hReply]
    exact congrArg _ (ih (acquire_kept hKey c).some)

theorem lastingReplies_calls (l : Limit) (calls : List Call) (data : Option Bucket) :
    (lastingReplies l data calls).map (·.call) = calls := by
  induction calls generalizing data with
  | nil => rfl
  | cons c calls ih => simp [lastingReplies, ih]

theorem mem_lastingReplies {l : Limit} {calls : List Call} {data : Option Bucket} {r : Reply}
    (hMem : r ∈ lastingReplies l data calls) : r.call ∈ calls := by
  have hCalls := List.mem_map_of_mem (f := (·.call)) hMem
  rwa [lastingReplies_calls] at hCalls

end RateLimit

end LiveQuiz
