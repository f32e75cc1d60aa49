import LiveQuiz.Service.AnswerAttempts

/-! # How often a question can be attempted

A counter admits five attempts while it lives. A question has one counter for REST and one
for each text of its id, and a counter that was started earlier may expire in between.
-/

namespace LiveQuiz.Attempts

set_option autoImplicit false

section

variable {intOfStr : String → Option Int} {p : Id} {cs : Counters} {key key' : String} {now : Micros}
  {s : Submission} {subs : List (Micros × Submission)} {q : Int}

theorem incr_fst (cs : Counters) (key : String) (now : Micros) :
    (incr cs key now).1 = Function.update cs key
      (some ⟨(incr cs key now).2, (read cs key now).bind (·.expiresAt)⟩) := by
  unfold incr
  cases read cs key now <;> rfl

theorem countAttempt_other (h : key' ≠ key) : (countAttempt cs key now).1 key' = cs key' := by
  have hIncr : (incr cs key now).1 key' = cs key' := by
    rw [incr_fst, Function.update_of_ne h]
  simp only [countAttempt]
  split
  · rw [expire, Function.update_of_ne h, hIncr]
  · exact hIncr

/-- The value an attempt at `now` would find. -/
def valueAt (cs : Counters) (key : String) (now : Micros) : Nat :=
  ((read cs key now).map (·.value)).getD 0

theorem countAttempt_value (cs : Counters) (key : String) (now : Micros) :
    (countAttempt cs key now).2 = valueAt cs key now + 1 := by
  simp only [countAttempt, incr, valueAt]
  cases read cs key now <;> rfl

theorem read_live {c : Counter} (h : read cs key now = some c) :
    cs key = some c ∧ c.live now = true := by
  obtain ⟨hAt, hLive⟩ := Option.filter_eq_some_iff.mp h
  exact ⟨hAt, hLive⟩

theorem countAttempt_self (cs : Counters) (key : String) (now : Micros) :
    ∃ e, (countAttempt cs key now).1 key = some ⟨valueAt cs key now + 1, e⟩ ∧
      (e = some (now + answerRateTtl) ∨ e = (read cs key now).bind (·.expiresAt)) := by
  have hIncr : (incr cs key now).1 key =
      some ⟨valueAt cs key now + 1, (read cs key now).bind (·.expiresAt)⟩ := by
    rw [incr_fst, Function.update_self, ← countAttempt_value]
    rfl
  have hLive : Counter.live ⟨valueAt cs key now + 1, (read cs key now).bind (·.expiresAt)⟩ now = true := by
    cases hRead : read cs key now with
    | none => rfl
    | some c => exact (read_live hRead).2
  simp only [countAttempt]
  split
  · refine ⟨_, ?_, .inl rfl⟩
    rw [expire, Function.update_self, read, hIncr, Option.filter_some, if_pos hLive]
    rfl
  · exact ⟨_, hIncr, .inr rfl⟩

theorem submit_fst (intOfStr : String → Option Int) (cs : Counters) (now : Micros) (s : Submission) :
    (submit intOfStr p cs now s).1 = (countAttempt cs (s.key p) now).1 := by
  cases s <;> rfl

theorem submit_call {call : Invocation} (h : (submit intOfStr p cs now s).2 = some call) :
    s.question intOfStr = some call.matchQuestionId ∧ valueAt cs (s.key p) now < 5 := by
  cases s with
  | rest m q selected =>
    simp only [submit, countAttempt_value] at h
    split at h
    · cases h
    next hLimit =>
      cases h
      refine ⟨rfl, ?_⟩
      change valueAt cs (restKey p q) now < 5
      omega
  | ws payload =>
    simp only [submit, countAttempt_value, answerRateLimit] at h
    split at h
    next hLimit =>
      simp only [wsSubmitAnswer, Option.bind_eq_bind, Option.bind_eq_some_iff, Option.pure_def,
        Option.some.injEq] at h
      obtain ⟨m, -, q, hQuestion, selected, -, rfl⟩ := h
      refine ⟨hQuestion, ?_⟩
      change valueAt cs (wsKey p payload.matchQuestionId) now < 5
      omega
    · cases h

/-- The counter does not expire within the ten minutes after `t`. -/
def Steady (cs : Counters) (key : String) (t : Micros) : Prop :=
  ∀ c, cs key = some c → ∀ e, c.expiresAt = some e → e ≤ t ∨ t + answerRateTtl ≤ e

def Within (t now : Micros) : Prop := t ≤ now ∧ now < t + answerRateTtl

variable {t : Micros}

theorem Steady.live_iff (h : Steady cs key t) {c : Counter} (hc : cs key = some c)
    (hNow : Within t now) : c.live now = c.live t := by
  obtain ⟨hLow, hHigh⟩ := hNow
  cases hExpires : c.expiresAt with
  | none => simp [Counter.live, hExpires]
  | some e =>
    simp only [Counter.live, hExpires, Option.all_some, decide_eq_decide]
    have hOut := h c hc e hExpires
    unfold Micros at *
    omega

theorem Steady.valueAt (h : Steady cs key t) (hNow : Within t now) :
    valueAt cs key now = valueAt cs key t := by
  unfold Attempts.valueAt read
  cases hc : cs key with
  | none => rfl
  | some c => simp only [Option.filter, h.live_iff hc hNow]

theorem Steady.countAttempt (h : Steady cs key t) (hNow : Within t now) :
    Steady (countAttempt cs key now).1 key t ∧
      Attempts.valueAt (Attempts.countAttempt cs key now).1 key t = Attempts.valueAt cs key t + 1 := by
  obtain ⟨e, hAt, hExpires⟩ := countAttempt_self cs key now
  rw [h.valueAt hNow] at hAt
  have hOut : ∀ e', e = some e' → t + answerRateTtl ≤ e' ∨ ∃ c, cs key = some c ∧
      c.live now = true ∧ c.expiresAt = some e' := by
    rintro e' rfl
    obtain hNew | hOld := hExpires
    · left
      rw [Option.some.inj hNew]
      have hLow := hNow.1
      unfold Micros at *
      omega
    · right
      obtain ⟨c, hRead, hTtl⟩ := Option.bind_eq_some_iff.mp hOld.symm
      obtain ⟨hc, hLive⟩ := read_live hRead
      exact ⟨c, hc, hLive, hTtl⟩
  have hSteady : Steady (Attempts.countAttempt cs key now).1 key t := by
    intro c hc e' he'
    rw [hAt] at hc
    cases hc
    obtain hNew | ⟨c, hc, -, hTtl⟩ := hOut e' he'
    · exact .inr hNew
    · exact h c hc e' hTtl
  refine ⟨hSteady, ?_⟩
  have hLive : Counter.live ⟨Attempts.valueAt cs key t + 1, e⟩ t = true := by
    cases he : e with
    | none => rfl
    | some e' =>
      apply decide_eq_true
      obtain hNew | ⟨c, hc, hLive, hTtl⟩ := hOut e' he
      · have hTtl : (0 : Int) < answerRateTtl := by decide
        unfold Micros at *
        omega
      · rw [h.live_iff hc hNow, Counter.live, hTtl] at hLive
        exact of_decide_eq_true hLive
  rw [Attempts.valueAt, read, hAt, Option.filter_some, if_pos hLive]
  rfl

/-- The calls for the question. -/
def callsFor (q : Int) (calls : List Invocation) : Nat := calls.countP (·.matchQuestionId = q)

theorem callsFor_cons (cs : Counters) (now : Micros) (s : Submission)
    (subs : List (Micros × Submission)) :
    callsFor q (invocations intOfStr p cs ((now, s) :: subs)) =
      callsFor q (submit intOfStr p cs now s).2.toList +
        callsFor q (invocations intOfStr p (submit intOfStr p cs now s).1 subs) := by
  rw [callsFor, invocations, List.countP_append]
  rfl

theorem callsFor_submit (intOfStr : String → Option Int) (p : Id) (q : Int) (cs : Counters)
    (now : Micros) (s : Submission) :
    callsFor q (submit intOfStr p cs now s).2.toList = 0 ∨
      (callsFor q (submit intOfStr p cs now s).2.toList = 1 ∧ s.question intOfStr = some q ∧
        valueAt cs (s.key p) now < 5) := by
  cases hCall : (submit intOfStr p cs now s).2 with
  | none => exact .inl rfl
  | some call =>
    obtain ⟨hQuestion, hBelow⟩ := submit_call hCall
    by_cases hq : call.matchQuestionId = q
    · refine .inr ⟨by simp [callsFor, hq], hq ▸ hQuestion, hBelow⟩
    · exact .inl (by simp [callsFor, hq])

theorem callsFor_one_key (hWithin : ∀ s ∈ subs, Within t s.1)
    (hKey : ∀ s ∈ subs, s.2.question intOfStr = some q → s.2.key p = key) (h : Steady cs key t) :
    callsFor q (invocations intOfStr p cs subs) + min 5 (valueAt cs key t) ≤ 5 := by
  induction subs generalizing cs with
  | nil =>
    change 0 + min 5 (valueAt cs key t) ≤ 5
    omega
  | cons entry subs ih =>
    obtain ⟨now, s⟩ := entry
    have hNow : Within t now := hWithin (now, s) List.mem_cons_self
    have hRest : Steady (submit intOfStr p cs now s).1 key t →
        callsFor q (invocations intOfStr p (submit intOfStr p cs now s).1 subs) +
          min 5 (valueAt (submit intOfStr p cs now s).1 key t) ≤ 5 :=
      ih (fun s' hs' => hWithin s' (List.mem_cons_of_mem _ hs'))
        fun s' hs' => hKey s' (List.mem_cons_of_mem _ hs')
    rw [callsFor_cons]
    by_cases hOwn : s.key p = key
    · obtain ⟨hSteady, hValue⟩ := h.countAttempt hNow
      rw [← hOwn, ← submit_fst intOfStr] at hSteady hValue
      have hBound := hRest (hOwn ▸ hSteady)
      rw [← hOwn, hValue] at hBound
      rw [← hOwn]
      obtain hNone | ⟨hOne, -, hBelow⟩ := callsFor_submit intOfStr p q cs now s
      · omega
      · rw [hOwn, h.valueAt hNow, ← hOwn] at hBelow
        omega
    · have hSame : (submit intOfStr p cs now s).1 key = cs key := by
        rw [submit_fst]
        exact countAttempt_other (Ne.symm hOwn)
      have hBound := hRest (by rw [Steady, hSame]; exact h)
      have hValue : valueAt (submit intOfStr p cs now s).1 key t = valueAt cs key t := by
        rw [valueAt, read, hSame]
        rfl
      rw [hValue] at hBound
      obtain hNone | ⟨-, hQuestion, -⟩ := callsFor_submit intOfStr p q cs now s
      · omega
      · exact absurd (hKey (now, s) List.mem_cons_self hQuestion) hOwn

theorem callsFor_le (cs : Counters) (subs : List (Micros × Submission)) :
    callsFor q (invocations intOfStr p cs subs) ≤
      subs.countP (·.2.question intOfStr = some q) := by
  induction subs generalizing cs with
  | nil => exact le_rfl
  | cons entry subs ih =>
    obtain ⟨now, s⟩ := entry
    rw [callsFor_cons, List.countP_cons]
    have hRest := ih (submit intOfStr p cs now s).1
    obtain hNone | ⟨hOne, hQuestion, -⟩ := callsFor_submit intOfStr p q cs now s
    · omega
    · have hNamed : decide ((now, s).2.question intOfStr = some q) = true := decide_eq_true hQuestion
      rw [if_pos hNamed]
      omega

end

/-- The attempts at the question count under one key, whose counter does not expire in the
window, or there are at most five of them. -/
def OneCounter (intOfStr : String → Option Int) (p : Id) (cs : Counters) (t : Micros) (q : Int)
    (subs : List (Micros × Submission)) : Prop :=
  (∃ key, Steady cs key t ∧ ∀ s ∈ subs, s.2.question intOfStr = some q → s.2.key p = key) ∨
    subs.countP (·.2.question intOfStr = some q) ≤ 5

/-- Within ten minutes the service is called at most five times for a question whose attempts
have one counter. -/
theorem five_attempts (intOfStr : String → Option Int) (p : Id) (cs : Counters) (t : Micros)
    (subs : List (Micros × Submission)) (hWithin : ∀ s ∈ subs, Within t s.1) (q : Int)
    (hOne : OneCounter intOfStr p cs t q subs) :
    callsFor q (invocations intOfStr p cs subs) ≤ 5 := by
  obtain ⟨key, hSteady, hKey⟩ | hFew := hOne
  · have hBound := callsFor_one_key hWithin hKey hSteady
    omega
  · exact (callsFor_le cs subs).trans hFew

namespace Demo

/-- `int` on a text of ASCII digits. -/
def intOfDigits (s : String) : Option Int :=
  if s.toList ≠ [] ∧ s.toList.all Char.isDigit then
    some (s.toList.foldl (fun n c => 10 * n + (c.toNat - 48 : Nat)) 0)
  else none

def message (matchQuestionId : String) : Submission := .ws ⟨"1", matchQuestionId, ["70"]⟩

end Demo

/-- Seven messages with one text. -/
theorem five_attempts_ws :
    callsFor 7 (invocations Demo.intOfDigits 3 (fun _ => none)
      (List.replicate 7 (0, Demo.message "7"))) ≤ 5 := by
  apply five_attempts Demo.intOfDigits 3 (fun _ => none) 0
  · intro s hs
    rw [List.eq_of_mem_replicate hs]
    exact ⟨Int.le_refl 0, by decide⟩
  · refine .inl ⟨wsKey 3 "7", ?_, ?_⟩
    · intro c hc
      cases hc
    · intro s hs _
      rw [List.eq_of_mem_replicate hs]
      rfl

/-- Five requests, and five messages with each of two texts of the same id, in one second. -/
theorem fifteen_attempts :
    callsFor 7 (invocations Demo.intOfDigits 3 (fun _ => none)
      (List.replicate 5 (0, .rest 1 7 [70]) ++ List.replicate 5 (0, Demo.message "7") ++
        List.replicate 5 (1000000, Demo.message "007"))) = 15 := by
  decide +kernel

end LiveQuiz.Attempts
