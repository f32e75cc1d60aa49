import LiveQuiz.Lib.BitFields

/-! # The Snowflake generator

The clock is the list of the readings it will give; a call takes as many of them as
it makes. A call is `none` where the readings end before it does: it still spins, and
holds the lock.
-/

namespace LiveQuiz.Ids

set_option autoImplicit false

def workerIdBits : Nat := 10

def sequenceBits : Nat := 12

def workerIdShift : Nat := sequenceBits

def timestampShift : Nat := sequenceBits + workerIdBits

def maxWorkerId : Int := (1 : Int) <<< workerIdBits - 1

def sequenceMask : Int := (1 : Int) <<< sequenceBits - 1

/-- The fields of an id in their places. -/
def layout (epochMs timestampMs workerId sequence : Int) : Int :=
  Int.lor (Int.lor ((timestampMs - epochMs) <<< timestampShift) (workerId <<< workerIdShift)) sequence

structure ClockMovedBackwardsError where
  deltaMs : Int
  deriving DecidableEq, Repr

structure ValueError where
  workerId : Int
  deriving DecidableEq, Repr

structure SnowflakeGenerator where
  workerId : Int
  epochMs : Int
  lastMs : Int
  sequence : Int
  worker_range : 0 ≤ workerId ∧ workerId ≤ maxWorkerId
  sequence_range : 0 ≤ sequence ∧ sequence ≤ sequenceMask

theorem initial_sequence_range : (0 : Int) ≤ 0 ∧ (0 : Int) ≤ sequenceMask := by decide

def SnowflakeGenerator.new (workerId epochMs : Int) : Except ValueError SnowflakeGenerator :=
  if h : 0 ≤ workerId ∧ workerId ≤ maxWorkerId then
    .ok ⟨workerId, epochMs, -1, 0, h, initial_sequence_range⟩
  else .error ⟨workerId⟩

namespace SnowflakeGenerator

theorem masked_range (x : Int) :
    0 ≤ Int.land x sequenceMask ∧ Int.land x sequenceMask ≤ sequenceMask := by
  have hMask : sequenceMask = 2 ^ 12 - 1 := by decide
  rw [hMask, BitFields.land_mask]
  omega

def waitUntilNextMs (lastMs : Int) : List Int → Option (Int × List Int)
  | [] => none
  | now :: rest => if now ≤ lastMs then waitUntilNextMs lastMs rest else some (now, rest)

/-- The id of the generator's last millisecond and sequence number. -/
def encode (g : SnowflakeGenerator) : Int :=
  Int.lor (Int.lor ((g.lastMs - g.epochMs) <<< timestampShift) (g.workerId <<< workerIdShift))
    g.sequence

/-- The result of a call, the generator after it and the readings left. -/
abbrev Call := Except ClockMovedBackwardsError Int × SnowflakeGenerator × List Int

def stamped (g : SnowflakeGenerator) (rest : List Int) : Call := (.ok g.encode, g, rest)

/-- The next sequence number, around the 12 bits. -/
def advanced (g : SnowflakeGenerator) : SnowflakeGenerator :=
  { g with
    sequence := Int.land (g.sequence + 1) sequenceMask
    sequence_range := masked_range (g.sequence + 1) }

def nextId (g : SnowflakeGenerator) : List Int → Option Call
  | [] => none
  | now :: rest =>
    if now < g.lastMs then
      some (.error ⟨g.lastMs - now⟩, g, rest)
    else if now = g.lastMs then
      if g.advanced.sequence = 0 then
        (waitUntilNextMs g.lastMs rest).map fun (now, rest) =>
          stamped { g.advanced with lastMs := now } rest
      else
        some (g.advanced.stamped rest)
    else
      some (stamped { g with lastMs := now, sequence := 0, sequence_range := by decide } rest)

/-- The millisecond, the worker and the sequence number of an id. -/
def decode (g : SnowflakeGenerator) (snowflakeId : Int) : Int × Int × Int :=
  let sequence := Int.land snowflakeId sequenceMask
  let workerId := Int.land (snowflakeId >>> workerIdShift) maxWorkerId
  let timestampMs := (snowflakeId >>> timestampShift) + g.epochMs
  (timestampMs, workerId, sequence)

/-- The results of up to `n` calls one after the other; the lock orders them. -/
def calls : Nat → SnowflakeGenerator → List Int → List (Except ClockMovedBackwardsError Int)
  | 0, _, _ => []
  | n + 1, g, clock =>
    match g.nextId clock with
    | none => []
    | some (r, g', rest) => r :: calls n g' rest

/-- The ids among the results. -/
def returned (rs : List (Except ClockMovedBackwardsError Int)) : List Int :=
  rs.filterMap Except.toOption

end SnowflakeGenerator

end LiveQuiz.Ids
