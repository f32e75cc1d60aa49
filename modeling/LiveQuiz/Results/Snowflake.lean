import LiveQuiz.Ids.Snowflake
import Mathlib

/-! # Snowflake ids are increasing and apart

The state of a generator is read as one number, its last millisecond over its last
sequence number. Every returned id raises it, and the id lies at the worker's place in
the block of that number. Whatever the integer, decoding it loses nothing.
-/

namespace LiveQuiz.Ids

set_option autoImplicit false

namespace SnowflakeGenerator

section

variable {g g' : SnowflakeGenerator} {clock rest : List Int} {id : Int}

theorem layout_eq {epochMs timestampMs workerId sequence : Int}
    (hWorker : 0 ≤ workerId ∧ workerId ≤ maxWorkerId) (hSequence : 0 ≤ sequence ∧ sequence ≤ sequenceMask) :
    layout epochMs timestampMs workerId sequence =
      (timestampMs - epochMs) * 2 ^ 22 + workerId * 2 ^ 12 + sequence := by
  have hMaxWorker : maxWorkerId = 1023 := by decide
  have hMask : sequenceMask = 4095 := by decide
  rw [hMaxWorker] at hWorker
  rw [hMask] at hSequence
  have hShifted : workerId <<< workerIdShift = workerId * 2 ^ 12 := Int.shiftLeft_eq _ _
  have hFits : workerId * 2 ^ 12 < 2 ^ timestampShift := by
    rw [show timestampShift = 22 from rfl]
    omega
  have hUpper : Int.lor ((timestampMs - epochMs) <<< timestampShift) (workerId <<< workerIdShift) =
      ((timestampMs - epochMs) * 2 ^ 10 + workerId) <<< sequenceBits := by
    rw [hShifted, BitFields.lor_shiftLeft _ _ _ (by omega) hFits, Int.shiftLeft_eq,
      show timestampShift = 22 from rfl, show sequenceBits = 12 from rfl]
    ring
  have hLow : sequence < 2 ^ sequenceBits := by
    rw [show sequenceBits = 12 from rfl]
    omega
  rw [layout, hUpper, BitFields.lor_shiftLeft _ _ _ hSequence.1 hLow,
    show sequenceBits = 12 from rfl]
  ring

theorem encode_eq (g : SnowflakeGenerator) :
    g.encode = (g.lastMs - g.epochMs) * 2 ^ 22 + g.workerId * 2 ^ 12 + g.sequence :=
  layout_eq g.worker_range g.sequence_range

theorem waitUntilNextMs_gt {lastMs now : Int} (h : waitUntilNextMs lastMs clock = some (now, rest)) :
    lastMs < now := by
  induction clock with
  | nil => cases h
  | cons reading readings ih =>
    simp only [waitUntilNextMs] at h
    split at h
    · exact ih h
    next hLate =>
      cases h
      omega

theorem nextId_error {e : ClockMovedBackwardsError} (h : g.nextId clock = some (.error e, g', rest)) :
    g' = g := by
  cases clock with
  | nil => cases h
  | cons now readings =>
    simp only [nextId] at h
    split at h
    · cases h
      rfl
    · split at h
      · split at h
        · obtain ⟨⟨later, rest'⟩, -, hCall⟩ := Option.map_eq_some_iff.mp h
          cases hCall
        · cases h
      · cases h

/-- The generator after a call that returns: the same worker, later in time. -/
structure Advances (g g' : SnowflakeGenerator) : Prop where
  workerId : g'.workerId = g.workerId
  epochMs : g'.epochMs = g.epochMs
  later : g.lastMs < g'.lastMs ∨ g'.lastMs = g.lastMs ∧ g.sequence < g'.sequence

theorem nextId_ok (h : g.nextId clock = some (.ok id, g', rest)) : id = g'.encode ∧ Advances g g' := by
  cases clock with
  | nil => cases h
  | cons now readings =>
    simp only [nextId] at h
    split at h
    · cases h
    next hForward =>
      split at h
      next hSame =>
        split at h
        · obtain ⟨⟨later, rest'⟩, hWait, hCall⟩ := Option.map_eq_some_iff.mp h
          cases hCall
          exact ⟨rfl, rfl, rfl, .inl (waitUntilNextMs_gt hWait)⟩
        next hRoom =>
          cases h
          refine ⟨rfl, rfl, rfl, .inr ⟨rfl, ?_⟩⟩
          have hRange := g.sequence_range
          have hMask : sequenceMask = 2 ^ 12 - 1 := by decide
          have hNext : g.advanced.sequence = (g.sequence + 1) % 2 ^ 12 := by
            rw [← BitFields.land_mask, ← hMask]
            rfl
          rw [hNext] at hRoom ⊢
          rw [hMask] at hRange
          omega
      next hNe =>
        cases h
        exact ⟨rfl, rfl, rfl, .inl (by dsimp only; omega)⟩

theorem Advances.encode_lt (h : Advances g g') : g.encode < g'.encode := by
  have hRange := g.sequence_range
  have hRange' := g'.sequence_range
  have hMask : sequenceMask = 4095 := by decide
  have hWorker := h.workerId
  have hEpoch := h.epochMs
  rw [hMask] at hRange hRange'
  rw [encode_eq, encode_eq]
  obtain hMs | ⟨hMs, hSeq⟩ := h.later <;> omega

theorem returned_calls (n : Nat) (g : SnowflakeGenerator) (clock : List Int) :
    (returned (calls n g clock)).Pairwise (· < ·) ∧
      ∀ id ∈ returned (calls n g clock), g.encode < id ∧
        ∃ g' : SnowflakeGenerator, g'.workerId = g.workerId ∧ g'.epochMs = g.epochMs ∧
          id = g'.encode := by
  induction n generalizing g clock with
  | zero => exact ⟨.nil, fun id hId => by cases hId⟩
  | succ n ih =>
    simp only [calls]
    cases hCall : g.nextId clock with
    | none => exact ⟨.nil, fun id hId => by cases hId⟩
    | some call =>
      obtain ⟨r, g', rest⟩ := call
      obtain ⟨hSorted, hFrom⟩ := ih g' rest
      cases r with
      | error e =>
        rw [nextId_error hCall] at hSorted hFrom ⊢
        exact ⟨hSorted, hFrom⟩
      | ok id =>
        obtain ⟨rfl, hAdv⟩ := nextId_ok hCall
        have hLt := hAdv.encode_lt
        change (g'.encode :: returned (calls n g' rest)).Pairwise (· < ·) ∧
          ∀ i ∈ g'.encode :: returned (calls n g' rest), _
        constructor
        · exact List.pairwise_cons.mpr ⟨fun i hi => (hFrom i hi).1, hSorted⟩
        · rintro i (_ | ⟨_, hi⟩)
          · exact ⟨hLt, g', hAdv.workerId, hAdv.epochMs, rfl⟩
          · obtain ⟨hGt, g'', hWorker, hEpoch, hEq⟩ := hFrom i hi
            exact ⟨hLt.trans hGt, g'', hWorker.trans hAdv.workerId, hEpoch.trans hAdv.epochMs, hEq⟩

theorem workerId_eq_of_encode_eq (h : g.encode = g'.encode) (hEpoch : g.epochMs = g'.epochMs) :
    g.workerId = g'.workerId := by
  have hWorker := g.worker_range
  have hWorker' := g'.worker_range
  have hRange := g.sequence_range
  have hRange' := g'.sequence_range
  have hMaxWorker : maxWorkerId = 1023 := by decide
  have hMask : sequenceMask = 4095 := by decide
  rw [hMaxWorker] at hWorker hWorker'
  rw [hMask] at hRange hRange'
  rw [encode_eq, encode_eq] at h
  omega

/-- On any clocks: the ids of the calls that return increase strictly, a call that
raises leaves the generator as it was, and two workers never return the same id. -/
theorem snowflake_ids (g g' : SnowflakeGenerator) (hEpoch : g.epochMs = g'.epochMs)
    (hWorker : g.workerId ≠ g'.workerId) :
    (∀ n clock, (returned (calls n g clock)).Pairwise (· < ·)) ∧
    (∀ (h h' : SnowflakeGenerator) clock e rest, h.nextId clock = some (.error e, h', rest) →
      h'.lastMs = h.lastMs ∧ h'.sequence = h.sequence) ∧
    ∀ n n' clock clock', ∀ id ∈ returned (calls n g clock),
      id ∉ returned (calls n' g' clock') := by
  refine ⟨fun n clock => (returned_calls n g clock).1, ?_, ?_⟩
  · intro h h' clock e rest hCall
    rw [nextId_error hCall]
    exact ⟨rfl, rfl⟩
  · intro n n' clock clock' id hId hId'
    obtain ⟨-, a, hWorkerA, hEpochA, rfl⟩ := (returned_calls n g clock).2 id hId
    obtain ⟨-, b, hWorkerB, hEpochB, hEq⟩ := (returned_calls n' g' clock').2 _ hId'
    have hSame : a.workerId = b.workerId := by
      apply workerId_eq_of_encode_eq hEq
      rw [hEpochA, hEpochB, hEpoch]
    apply hWorker
    rw [← hWorkerA, hSame, hWorkerB]

def firstWorker : SnowflakeGenerator := ⟨1, 3, -1, 0, by decide, initial_sequence_range⟩

def secondWorker : SnowflakeGenerator := ⟨2, 3, -1, 0, by decide, initial_sequence_range⟩

/-- A clock that stalls, rolls back and jumps, on two workers. -/
theorem snowflake_ids_rollback :
    new 1 3 = .ok firstWorker ∧ new 2 3 = .ok secondWorker ∧
    calls 4 firstWorker [5, 5, 2, 6] =
      [.ok 8392704, .ok 8392705, .error ⟨3⟩, .ok 12587008] ∧
    returned (calls 2 secondWorker [5, 5]) = [8396800, 8396801] ∧
    ∀ id ∈ returned (calls 4 firstWorker [5, 5, 2, 6]),
      id ∉ returned (calls 2 secondWorker [5, 5]) :=
  ⟨rfl, rfl, by decide, by decide,
    (snowflake_ids firstWorker secondWorker rfl (by decide)).2.2 4 2 _ _⟩

theorem decode_eq (g : SnowflakeGenerator) (x : Int) :
    g.decode x = (x / 2 ^ 22 + g.epochMs, x / 2 ^ 12 % 2 ^ 10, x % 2 ^ 12) := by
  have hMaxWorker : maxWorkerId = 2 ^ 10 - 1 := by decide
  have hMask : sequenceMask = 2 ^ 12 - 1 := by decide
  rw [decode, hMaxWorker, hMask, BitFields.land_mask, BitFields.land_mask,
    BitFields.shiftRight_eq_ediv, BitFields.shiftRight_eq_ediv]
  rfl

theorem decode_range (g : SnowflakeGenerator) (x : Int) :
    (0 ≤ (g.decode x).2.1 ∧ (g.decode x).2.1 ≤ maxWorkerId) ∧
      0 ≤ (g.decode x).2.2 ∧ (g.decode x).2.2 ≤ sequenceMask := by
  have hMaxWorker : maxWorkerId = 1023 := by decide
  have hMask : sequenceMask = 4095 := by decide
  rw [hMaxWorker, hMask, decode_eq]
  dsimp only
  omega

theorem decode_layout (g : SnowflakeGenerator) {timestampMs workerId sequence : Int}
    (hWorker : 0 ≤ workerId ∧ workerId ≤ maxWorkerId)
    (hSequence : 0 ≤ sequence ∧ sequence ≤ sequenceMask) :
    g.decode (layout g.epochMs timestampMs workerId sequence) = (timestampMs, workerId, sequence) := by
  rw [layout_eq hWorker hSequence, decode_eq]
  have hMaxWorker : maxWorkerId = 1023 := by decide
  have hMask : sequenceMask = 4095 := by decide
  rw [hMaxWorker] at hWorker
  rw [hMask] at hSequence
  ext
  · dsimp only
    omega
  · dsimp only
    omega
  · dsimp only
    omega

theorem layout_decode (g : SnowflakeGenerator) (x : Int) :
    layout g.epochMs (g.decode x).1 (g.decode x).2.1 (g.decode x).2.2 = x := by
  obtain ⟨hWorker, hSequence⟩ := g.decode_range x
  rw [layout_eq hWorker hSequence, decode_eq]
  dsimp only
  omega

theorem waitUntilNextMs_reads {lastMs now : Int} (h : waitUntilNextMs lastMs clock = some (now, rest)) :
    ∃ polled, clock = polled ++ now :: rest := by
  induction clock with
  | nil => cases h
  | cons reading readings ih =>
    simp only [waitUntilNextMs] at h
    split at h
    · obtain ⟨polled, rfl⟩ := ih h
      exact ⟨reading :: polled, rfl⟩
    · cases h
      exact ⟨[], rfl⟩

theorem nextId_reads (h : g.nextId clock = some (.ok id, g', rest)) :
    ∃ polled, clock = polled ++ g'.lastMs :: rest := by
  cases clock with
  | nil => cases h
  | cons now readings =>
    simp only [nextId] at h
    split at h
    · cases h
    · split at h
      next hSame =>
        split at h
        · obtain ⟨⟨later, rest'⟩, hWait, hCall⟩ := Option.map_eq_some_iff.mp h
          cases hCall
          obtain ⟨polled, rfl⟩ := waitUntilNextMs_reads hWait
          exact ⟨now :: polled, rfl⟩
        · cases h
          exact ⟨[], by rw [hSame]; rfl⟩
      · cases h
        exact ⟨[], rfl⟩

/-- The id of a call decodes to what it was made of, decoding loses nothing of any
integer, and ids of 41 bits of milliseconds are nonnegative and below `2 ^ 63`. -/
theorem snowflake_layout (g : SnowflakeGenerator) :
    (∀ clock id g' rest, g.nextId clock = some (.ok id, g', rest) →
      (∃ polled, clock = polled ++ g'.lastMs :: rest) ∧
      g.decode id = (g'.lastMs, g.workerId, g'.sequence) ∧
      (0 ≤ g'.lastMs - g.epochMs ∧ g'.lastMs - g.epochMs < 2 ^ 41 → 0 ≤ id ∧ id < 2 ^ 63)) ∧
    (∀ x, layout g.epochMs (g.decode x).1 (g.decode x).2.1 (g.decode x).2.2 = x) ∧
    ∀ ms worker sequence ms' worker' sequence',
      (0 ≤ worker ∧ worker ≤ maxWorkerId) → (0 ≤ sequence ∧ sequence ≤ sequenceMask) →
      (0 ≤ worker' ∧ worker' ≤ maxWorkerId) → (0 ≤ sequence' ∧ sequence' ≤ sequenceMask) →
      (ms, worker, sequence) ≠ (ms', worker', sequence') →
      layout g.epochMs ms worker sequence ≠ layout g.epochMs ms' worker' sequence' := by
  refine ⟨?_, g.layout_decode, ?_⟩
  · intro clock id g' rest hCall
    obtain ⟨rfl, hAdv⟩ := nextId_ok hCall
    have hEpoch := hAdv.epochMs
    have hWorker := hAdv.workerId
    refine ⟨nextId_reads hCall, ?_, ?_⟩
    · change g.decode (layout g'.epochMs g'.lastMs g'.workerId g'.sequence) = _
      rw [hEpoch, g.decode_layout g'.worker_range g'.sequence_range, hWorker]
    · rintro ⟨hLow, hHigh⟩
      have hWorkers := g'.worker_range
      have hSequences := g'.sequence_range
      have hMaxWorker : maxWorkerId = 1023 := by decide
      have hMask : sequenceMask = 4095 := by decide
      rw [hMaxWorker] at hWorkers
      rw [hMask] at hSequences
      rw [encode_eq]
      omega
  · intro ms worker sequence ms' worker' sequence' hWorker hSequence hWorker' hSequence' hNe hEq
    apply hNe
    rw [← g.decode_layout hWorker hSequence, hEq, g.decode_layout hWorker' hSequence']

/-- An id from before the epoch, and the one of a call that waits out its millisecond. -/
theorem snowflake_layout_full :
    firstWorker.decode (-1) = (2, 1023, 4095) ∧ layout 3 2 1023 4095 = -1 ∧
    ∃ g', nextId ⟨1, 3, 5, 4095, by decide, by decide⟩ [5, 5, 6] = some (.ok 12587008, g', []) ∧
      decode ⟨1, 3, 5, 4095, by decide, by decide⟩ 12587008 = (g'.lastMs, 1, g'.sequence) ∧
      (0 : Int) ≤ 12587008 ∧ (12587008 : Int) < 2 ^ 63 := by
  have hBefore : firstWorker.decode (-1) = (2, 1023, 4095) := by
    rw [decode_eq]
    rfl
  have hBack := (snowflake_layout firstWorker).2.1 (-1)
  rw [hBefore] at hBack
  refine ⟨hBefore, hBack, _, rfl, ?_⟩
  obtain ⟨-, hDecode, hFits⟩ :=
    (snowflake_layout ⟨1, 3, 5, 4095, by decide, by decide⟩).1 [5, 5, 6] 12587008 _ [] rfl
  exact ⟨hDecode, hFits (by decide)⟩

end

end SnowflakeGenerator

end LiveQuiz.Ids
