import LiveQuiz.Publisher.Run
import LiveQuiz.Lib.Layer
import LiveQuiz.Lib.Guard
import Mathlib.Algebra.Order.Ring.Rat
import Mathlib.Data.List.Induction

/-! # Delays and sleeps

A refused send leaves its row a delay in the dict of the process, and the loop sleeps as a
whole. `rest` is how long a process has slept since its last refused send of an event.
The runs here are those in which each sleep, or its omission, suits every row that has
failed since the sleep before.
-/

namespace LiveQuiz.Publisher

open Coroutine

set_option autoImplicit false

def restStep (i : Id) (s : ℚ) : Event → ℚ
  | .slept t => s + t
  | .refused _ e => if e.eventId = i then 0 else s
  | .acked _ _ => s

def failedStep (ids : List Id) : Event → List Id
  | .slept _ => []
  | .refused _ e => ids ++ [e.eventId]
  | .acked _ _ => ids

namespace World

def ownLog (w : World) (r : Nat) : List Event :=
  w.log.filterMap fun entry => if entry.1 = r then some entry.2 else none

/-- The seconds the replica has slept since its last refused send of the event. -/
def rest (w : World) (r : Nat) (i : Id) : ℚ := (w.ownLog r).foldl (restStep i) 0

/-- The events whose sends were refused since the replica last slept. -/
def failed (w : World) (r : Nat) : List Id := (w.ownLog r).foldl failedStep []

def delaysWithin (w : World) (r : Nat) (s : ℚ) : Bool :=
  (w.failed r).all fun i => (w.backoff r i).all fun b => b ≤ s

def publishes (w : World) (pid : Nat) : Bool :=
  (w.writes pid).any fun
    | .markPublished _ _ => true
    | .incrementAttempts _ => false

def idleDelay (w : World) (r : Nat) : ℚ :=
  match w.smallestBackoff r with
  | none => idleSleepS
  | some b => max idleSleepS b

end World

/-- Where a round goes on with the rows that have failed since the last sleep: a batch that
has published a row is committed only when none of them is delayed, a batch has failed or
published nothing only when the sleep to come is as long as each of their delays. A process
that stops sends no more. -/
def patient (w : World) (r pid : Nat) (o : Op) (d : Decision) : Bool :=
  w.stopping r ||
    match o with
    | .commit => d.fault ≠ .none || !w.publishes pid || (w.failed r).all fun i => w.backoff r i = none
    | .sleep _ => w.delaysWithin r (backoffBaseS * 4)
    | .backoffs => w.delaysWithin r (w.idleDelay r)
    | _ => true

/-- Whoever is about to send a delayed row has slept for its delay since the send that
left it. -/
def BackoffHonoured (S : PublisherState) : Prop :=
  ∀ pid r topic e k, S.procs[pid]? = some ⟨r, .call (.sendAndWait topic e) k⟩ →
    S.shared.process r = some pid →
      ∀ b, S.shared.backoff r e.eventId = some b → b ≤ S.shared.rest r e.eventId

def Rested (w : World) (r : Nat) : Prop := ∀ i b, w.backoff r i = some b → b ≤ w.rest r i

def Ready (w : World) (r : Nat) : Prop := w.stopping r = true ∨ Rested w r

/-- Every delay is over but those of the rows that have failed since the last sleep. -/
def Cooling (w : World) (r : Nat) : Prop :=
  ∀ i b, w.backoff r i = some b → i ∈ w.failed r ∨ b ≤ w.rest r i

section

variable {w w' : World} {r q n pid : Nat} {i : Id} {row : OutboxRow} {rows : List OutboxRow}

@[simp] theorem ownLog_note (w : World) (r : Nat) (e : Event) :
    (w.note r e).ownLog r = w.ownLog r ++ [e] := by
  simp [World.ownLog, World.note]

theorem ownLog_note_of_ne {u : Nat} (hu : u ≠ r) (w : World) (e : Event) :
    (w.note r e).ownLog u = w.ownLog u := by
  simp [World.ownLog, World.note, hu.symm]

@[simp] theorem rest_note (w : World) (r : Nat) (e : Event) (i : Id) :
    (w.note r e).rest r i = restStep i (w.rest r i) e := by
  simp [World.rest]

@[simp] theorem failed_note (w : World) (r : Nat) (e : Event) :
    (w.note r e).failed r = failedStep (w.failed r) e := by
  simp [World.failed]

theorem foldl_rest_of_failed {log : List Event} (h : i ∈ log.foldl failedStep []) :
    log.foldl (restStep i) 0 = 0 := by
  induction log using List.reverseRecOn with
  | nil => cases h
  | append_singleton log e ih =>
    rw [List.foldl_append] at h ⊢
    cases e with
    | acked topic e => exact ih h
    | slept s => cases h
    | refused topic e =>
      change (if e.eventId = i then 0 else _) = (0 : ℚ)
      split
      case isTrue => rfl
      case isFalse hOther =>
        obtain hOld | hLast := List.mem_append.mp h
        · exact ih hOld
        · exact absurd (List.mem_singleton.mp hLast).symm hOther

/-- A row that has failed since the last sleep has not rested at all. -/
theorem rest_of_failed (h : i ∈ w.failed r) : w.rest r i = 0 := foldl_rest_of_failed h

/-- What the process keeps while another program runs, or through a call that neither
sends nor sleeps. -/
structure Stays (r : Nat) (w w' : World) : Prop where
  backoff : w'.backoff r = w.backoff r
  log : w'.ownLog r = w.ownLog r
  stopping : w.stopping r = true → w'.stopping r = true

theorem Stays.refl (r : Nat) (w : World) : Stays r w w := ⟨rfl, rfl, id⟩

theorem Stays.trans {w'' : World} (h : Stays r w w') (h' : Stays r w' w'') : Stays r w w'' :=
  ⟨h'.backoff.trans h.backoff, h'.log.trans h.log, fun hStop => h'.stopping (h.stopping hStop)⟩

theorem Stays.rest (h : Stays r w w') (i : Id) : w'.rest r i = w.rest r i := by
  rw [World.rest, World.rest, h.log]

theorem Stays.failed (h : Stays r w w') : w'.failed r = w.failed r := by
  rw [World.failed, World.failed, h.log]

theorem Rested.stays (h : Rested w r) (hStays : Stays r w w') : Rested w' r := by
  intro i b hb
  rw [hStays.backoff] at hb
  rw [hStays.rest]
  exact h i b hb

theorem Ready.stays (h : Ready w r) (hStays : Stays r w w') : Ready w' r :=
  h.imp hStays.stopping fun hRested => hRested.stays hStays

theorem Cooling.stays (h : Cooling w r) (hStays : Stays r w w') : Cooling w' r := by
  intro i b hb
  rw [hStays.backoff] at hb
  rw [hStays.rest, hStays.failed]
  exact h i b hb

theorem Rested.cooling (h : Rested w r) : Cooling w r := fun i b hb => .inr (h i b hb)

theorem Cooling.slept {s : ℚ} (h : Cooling w r) (hs : 0 ≤ s) (hWithin : w.delaysWithin r s = true) :
    Rested (w.note r (.slept s)) r := by
  intro i b hb
  change w.backoff r i = some b at hb
  rw [rest_note]
  change b ≤ w.rest r i + s
  obtain hFailed | hOver := h i b hb
  · have hDelay := List.all_eq_true.mp hWithin i hFailed
    rw [hb] at hDelay
    have hLe : b ≤ s := of_decide_eq_true hDelay
    rw [rest_of_failed hFailed, zero_add]
    exact hLe
  · exact hOver.trans (le_add_of_nonneg_right hs)

theorem Cooling.committed (h : Cooling w r)
    (hNone : ((w.failed r).all fun i => w.backoff r i = none) = true) : Rested w r := by
  intro i b hb
  obtain hFailed | hOver := h i b hb
  · have hNo := of_decide_eq_true (List.all_eq_true.mp hNone i hFailed)
    rw [hb] at hNo
    cases hNo
  · exact hOver

/-- The calls that neither send, sleep, touch the dict nor end the round. -/
def Op.idle : Op → Bool
  | .sendAndWait _ _ | .popBackoff _ | .doubleBackoff _ | .sleep _ | .waitStop _ | .loop | .exit =>
    false
  | _ => true

theorem update_stays {wr : Write} (h : update w pid wr = some w') : Stays r w w' := by
  obtain ⟨-, rfl⟩ := update_eq h
  exact ⟨rfl, rfl, id⟩

theorem perform_idle {o : Op} {d : Decision} {out : Answer o} (ho : o.idle = true)
    (h : perform w r pid n o d = some out) : Stays r w out.shared := by
  cases o with
  | incrementAttempts i | markPublished ids =>
    obtain ⟨w₁, hUpdate, rfl⟩ := Option.map_eq_some_iff.mp h
    exact update_stays hUpdate
  | sendAndWait | popBackoff | doubleBackoff | sleep | waitStop | loop | exit => cases ho
  | _ =>
    cases h
    exact ⟨rfl, rfl, id⟩

theorem exec_idle {o : Op} {d : Decision} {out : Answer o} (ho : o.idle = true)
    (h : exec w r pid n o d = some out) : Stays r w out.shared := by
  obtain ⟨-, ⟨-, hOk⟩ | ⟨e, -, rfl⟩ | ⟨e, a, -, -, ha, rfl⟩⟩ := exec_cases h
  · exact perform_idle ho hOk
  · cases o <;> first | exact ⟨rfl, rfl, id⟩ | cases ho
  · have hStays : Stays r w a.shared := perform_idle ho ha
    exact hStays

/-- What a call of replica `r` leaves to the programs of all replicas. -/
structure Apart (r n : Nat) (w w' : World) : Prop where
  process : w'.process r = w.process r ∨ w'.process r = some n ∨ w'.process r = none
  others : ∀ u, u ≠ r → w'.process u = w.process u ∧ w'.backoff u = w.backoff u ∧
    w'.ownLog u = w.ownLog u
  stopping : w'.stopping = w.stopping

theorem apart_note (w : World) (r n : Nat) (e : Event) : Apart r n w (w.note r e) where
  process := .inl rfl
  others _ hu := ⟨rfl, rfl, ownLog_note_of_ne hu w e⟩
  stopping := rfl

theorem apart_setBackoff (w : World) (r n : Nat) (i : Id) (b : Option ℚ) :
    Apart r n w (w.setBackoff r i b) where
  process := .inl rfl
  others _ hu := ⟨rfl, Function.update_of_ne hu _ _, rfl⟩
  stopping := rfl

theorem apart_process (w : World) (r n : Nat) {p : Option Nat} (hp : p = some n ∨ p = none) :
    Apart r n w { w with process := Function.update w.process r p } where
  process := by
    refine .inr (hp.imp ?_ ?_) <;> exact (Function.update_self r p w.process).trans
  others _ hu := ⟨Function.update_of_ne hu _ _, rfl, rfl⟩
  stopping := rfl

theorem perform_apart {o : Op} {d : Decision} {out : Answer o}
    (h : perform w r pid n o d = some out) : Apart r n w out.shared := by
  cases o with
  | incrementAttempts i | markPublished ids =>
    obtain ⟨w₁, hUpdate, rfl⟩ := Option.map_eq_some_iff.mp h
    obtain ⟨-, rfl⟩ := update_eq hUpdate
    exact ⟨.inl rfl, fun _ _ => ⟨rfl, rfl, rfl⟩, rfl⟩
  | sendAndWait topic e =>
    cases h
    exact apart_note w r n _
  | popBackoff i | doubleBackoff i =>
    cases h
    exact apart_setBackoff w r n i _
  | sleep s =>
    cases h
    exact apart_note w r n _
  | waitStop s =>
    simp only [perform] at h
    split at h <;> cases h
    · exact ⟨.inl rfl, fun _ _ => ⟨rfl, rfl, rfl⟩, rfl⟩
    · exact apart_note w r n _
  | loop =>
    cases h
    exact apart_process w r n (.inl rfl)
  | exit =>
    cases h
    exact apart_process w r n (.inr rfl)
  | _ =>
    cases h
    exact ⟨.inl rfl, fun _ _ => ⟨rfl, rfl, rfl⟩, rfl⟩

theorem raised_apart (w : World) (r pid n : Nat) (o : Op) : Apart r n w (w.raised r pid o) := by
  cases o with
  | sendAndWait topic e => exact apart_note w r n _
  | _ => exact ⟨.inl rfl, fun _ _ => ⟨rfl, rfl, rfl⟩, rfl⟩

theorem exec_apart {o : Op} {d : Decision} {out : Answer o} (h : exec w r pid n o d = some out) :
    Apart r n w out.shared := by
  obtain ⟨-, ⟨-, hOk⟩ | ⟨e, -, rfl⟩ | ⟨e, a, -, -, ha, rfl⟩⟩ := exec_cases h
  · exact perform_apart hOk
  · exact raised_apart w r pid n o
  · have hApart : Apart r n w a.shared := perform_apart ha
    exact hApart

def Own (q u : Nat) (w w' : World) : Prop :=
  w'.process u = some q → w.process u = some q ∧ Stays u w w'

theorem Apart.own {u : Nat} (h : Apart r n w w') (hRun : w.process r = some pid) (hq : q < n)
    (hne : q ≠ pid) : Own q u w w' := by
  intro hAfter
  by_cases hu : u = r
  · subst hu
    obtain hSame | hNew | hGone := h.process
    · rw [hSame, hRun] at hAfter
      exact absurd (Option.some.inj hAfter).symm hne
    · rw [hNew] at hAfter
      exact absurd (Option.some.inj hAfter).symm hq.ne
    · rw [hGone] at hAfter
      cases hAfter
  · obtain ⟨hProcess, hBackoff, hLog⟩ := h.others u hu
    refine ⟨hProcess ▸ hAfter, hBackoff, hLog, fun hStop => ?_⟩
    rw [h.stopping]
    exact hStop

theorem env_own {a : EnvAction} {out : World × Option Nat} {u : Nat} (h : env w n a = some out)
    (hq : q < n) : Own q u w out.1 := by
  intro hAfter
  cases a with
  | insert row | reap p =>
    simp only [env] at h
    split at h <;> cases h
    exact ⟨hAfter, rfl, rfl, id⟩
  | tick dt =>
    cases h
    exact ⟨hAfter, rfl, rfl, id⟩
  | sigterm r =>
    cases h
    refine ⟨hAfter, rfl, rfl, fun hStop => ?_⟩
    change Function.update w.stopping r true u = true
    rw [Function.update_apply]
    split
    · rfl
    · exact hStop
  | crash r =>
    cases h
    change Function.update w.process r none u = some q at hAfter
    rw [Function.update_apply] at hAfter
    split at hAfter
    · cases hAfter
    · exact ⟨hAfter, rfl, rfl, id⟩
  | boot r =>
    simp only [env] at h
    split at h <;> cases h
    change Function.update w.process r (some n) u = some q at hAfter
    rw [Function.update_apply] at hAfter
    split at hAfter
    · exact absurd (Option.some.inj hAfter).symm hq.ne
    case isFalse hu =>
      refine ⟨hAfter, Function.update_of_ne hu _ _, rfl, fun hStop => ?_⟩
      change Function.update w.stopping r false u = true
      rw [Function.update_of_ne hu]
      exact hStop

end

end LiveQuiz.Publisher
