import LiveQuiz.Stream.Types
import Mathlib.Data.List.Nodup

/-! # The buffered ClickHouse client

Rows wait in one buffer for each table. Each function here is what one method does
under its lock: it takes the rows out of the buffers and hands them to the insert
that follows, so a row on its way to ClickHouse is in no buffer.
-/

namespace LiveQuiz.Stream

set_option autoImplicit false

/-- An entry of `_buffers` with its `_last_flush`. -/
structure Buffer (ρ : Type) where
  table : String
  rows : List ρ
  columns : List String
  lastFlush : Int
  deriving DecidableEq, Repr

/-- What is handed to `_do_insert`. -/
structure Batch (ρ : Type) where
  table : String
  rows : List ρ
  columns : List String
  deriving DecidableEq, Repr

/-- `buffers` is in insertion order; times are in microseconds. -/
structure Client (ρ : Type) where
  batchRows : Nat := 100
  flushInterval : Int := 500000
  buffers : List (Buffer ρ) := []
  deriving DecidableEq, Repr

section

variable {ρ : Type}

def Buffer.batch (b : Buffer ρ) : Batch ρ := ⟨b.table, b.rows, b.columns⟩

def Buffer.emptied (b : Buffer ρ) (now : Int) : Buffer ρ := { b with rows := [], lastFlush := now }

/-- `_buffers.setdefault(table, ...)`. -/
def Client.known (c : Client ρ) (table : String) (columns : List String) (now : Int) :
    List (Buffer ρ) :=
  if c.buffers.any (·.table = table) then c.buffers
  else c.buffers ++ [⟨table, [], columns, now⟩]

def Buffer.extended (table : String) (rows : List ρ) (b : Buffer ρ) : Buffer ρ :=
  if b.table = table then { b with rows := b.rows ++ rows } else b

/-- The entries that are due are emptied and their rows handed out. -/
def drain (due : Buffer ρ → Bool) (now : Int) (buffers : List (Buffer ρ)) :
    List (Buffer ρ) × List (Batch ρ) :=
  (buffers.map fun b => if due b then b.emptied now else b, (buffers.filter due).map Buffer.batch)

/-- `insert_many`: a buffer that reaches the batch size is drained at once. -/
def Client.insertMany (c : Client ρ) (table : String) (rows : List ρ) (columns : List String)
    (now : Int) : Client ρ × List (Batch ρ) :=
  let extended := (c.known table columns now).map (Buffer.extended table rows)
  let out := drain (fun b => b.table = table ∧ c.batchRows ≤ b.rows.length) now extended
  ({ c with buffers := out.1 }, out.2)

def Client.maybeFlush (c : Client ρ) (now : Int) : Client ρ × List (Batch ρ) :=
  let out := drain (fun b => b.rows ≠ [] ∧ c.flushInterval ≤ now - b.lastFlush) now c.buffers
  ({ c with buffers := out.1 }, out.2)

def Client.flushAll (c : Client ρ) (now : Int) : Client ρ × List (Batch ρ) :=
  let out := drain (fun b => b.rows ≠ []) now c.buffers
  ({ c with buffers := out.1 }, out.2)

def Batch.tagged (b : Batch ρ) : List (String × ρ) := b.rows.map fun r => (b.table, r)

def pending (buffers : List (Buffer ρ)) : List (String × ρ) :=
  buffers.flatMap fun b => b.batch.tagged

def handedOut (batches : List (Batch ρ)) : List (String × ρ) := batches.flatMap Batch.tagged

theorem mem_tagged {b : Batch ρ} {x : String × ρ} :
    x ∈ b.tagged ↔ x.1 = b.table ∧ x.2 ∈ b.rows := by
  obtain ⟨table, r⟩ := x
  constructor
  · intro h
    obtain ⟨r', hr', hEq⟩ := List.mem_map.mp h
    cases hEq
    exact ⟨rfl, hr'⟩
  · rintro ⟨rfl, hr⟩
    exact List.mem_map.mpr ⟨r, hr, rfl⟩

theorem mem_pending {buffers : List (Buffer ρ)} {x : String × ρ} :
    x ∈ pending buffers ↔ ∃ b ∈ buffers, x.1 = b.table ∧ x.2 ∈ b.rows := by
  simp only [pending, List.mem_flatMap, mem_tagged]
  rfl

theorem mem_drain {due : Buffer ρ → Bool} {now : Int} {buffers : List (Buffer ρ)}
    {x : String × ρ} (h : x ∈ pending buffers) :
    x ∈ pending (drain due now buffers).1 ∨ x ∈ handedOut (drain due now buffers).2 := by
  obtain ⟨b, hb, hx⟩ := mem_pending.mp h
  cases hDue : due b with
  | false =>
    refine .inl (mem_pending.mpr ⟨b, List.mem_map.mpr ⟨b, hb, ?_⟩, hx⟩)
    simp [hDue]
  | true =>
    refine .inr (List.mem_flatMap.mpr ⟨b.batch, List.mem_map.mpr ⟨b, ?_, rfl⟩, mem_tagged.mpr hx⟩)
    exact List.mem_filter.mpr ⟨hb, hDue⟩

theorem drain_all {now : Int} {buffers : List (Buffer ρ)} {due : Buffer ρ → Bool}
    (hDue : ∀ b, due b = false → b.rows = []) : pending (drain due now buffers).1 = [] := by
  refine List.eq_nil_iff_forall_not_mem.mpr fun x hx => ?_
  obtain ⟨b, hb, -, hr⟩ := mem_pending.mp hx
  obtain ⟨b', -, rfl⟩ := List.mem_map.mp hb
  cases h : due b' with
  | true => simp [h, Buffer.emptied] at hr
  | false => simp [h, hDue b' h] at hr

theorem Client.mem_insertMany {c : Client ρ} {table : String} {rows : List ρ}
    {columns : List String} {now : Int} {x : String × ρ}
    (h : x ∈ pending c.buffers ∨ (x.1 = table ∧ x.2 ∈ rows)) :
    x ∈ pending (c.insertMany table rows columns now).1.buffers ∨
      x ∈ handedOut (c.insertMany table rows columns now).2 := by
  refine mem_drain (mem_pending.mpr ?_)
  have hKnown : ∃ b ∈ c.known table columns now, b.table = table := by
    unfold Client.known
    split
    next hAny =>
      obtain ⟨b, hb, hTable⟩ := List.any_eq_true.mp hAny
      exact ⟨b, hb, of_decide_eq_true hTable⟩
    · exact ⟨_, List.mem_append_right _ (List.mem_singleton_self _), rfl⟩
  have hOld : ∀ b ∈ c.buffers, b ∈ c.known table columns now := by
    intro b hb
    unfold Client.known
    split
    · exact hb
    · exact List.mem_append_left _ hb
  obtain hx | ⟨hTable, hr⟩ := h
  · obtain ⟨b, hb, hTable, hr⟩ := mem_pending.mp hx
    refine ⟨b.extended table rows, List.mem_map.mpr ⟨b, hOld b hb, rfl⟩, ?_⟩
    unfold Buffer.extended
    split
    · exact ⟨hTable, List.mem_append_left _ hr⟩
    · exact ⟨hTable, hr⟩
  · obtain ⟨b, hb, rfl⟩ := hKnown
    refine ⟨b.extended b.table rows, List.mem_map.mpr ⟨b, hb, rfl⟩, ?_⟩
    simp only [Buffer.extended, if_true]
    exact ⟨hTable, List.mem_append_right _ hr⟩

theorem Client.pending_flushAll (c : Client ρ) (now : Int) :
    pending (c.flushAll now).1.buffers = [] :=
  drain_all fun b h => by simpa using h

theorem drain_perm (due : Buffer ρ → Bool) (now : Int) (buffers : List (Buffer ρ)) :
    (pending (drain due now buffers).1 ++ handedOut (drain due now buffers).2).Perm
      (pending buffers) := by
  induction buffers with
  | nil => exact .nil
  | cons b bs ih =>
    cases hDue : due b with
    | false =>
      have hKept : pending (drain due now (b :: bs)).1 ++ handedOut (drain due now (b :: bs)).2 =
          b.batch.tagged ++ (pending (drain due now bs).1 ++ handedOut (drain due now bs).2) := by
        simp [pending, handedOut, drain, hDue]
      rw [hKept]
      exact ih.append_left _
    | true =>
      have hMoved : pending (drain due now (b :: bs)).1 ++ handedOut (drain due now (b :: bs)).2 =
          pending (drain due now bs).1 ++ (b.batch.tagged ++ handedOut (drain due now bs).2) := by
        simp [pending, handedOut, drain, hDue, Buffer.emptied, Buffer.batch, Batch.tagged]
      rw [hMoved]
      refine (List.perm_append_comm_assoc _ _ _).trans ?_
      exact ih.append_left _

theorem mem_of_drain {due : Buffer ρ → Bool} (now : Int) {buffers : List (Buffer ρ)}
    {x : String × ρ}
    (h : x ∈ pending (drain due now buffers).1 ∨ x ∈ handedOut (drain due now buffers).2) :
    x ∈ pending buffers :=
  (drain_perm due now buffers).mem_iff.mp (List.mem_append.mpr h)

theorem Client.mem_of_insertMany {c : Client ρ} {table : String} {rows : List ρ}
    {columns : List String} {now : Int} {x : String × ρ}
    (h : x ∈ pending (c.insertMany table rows columns now).1.buffers ∨
      x ∈ handedOut (c.insertMany table rows columns now).2) :
    x ∈ pending c.buffers ∨ (x.1 = table ∧ x.2 ∈ rows) := by
  obtain ⟨b, hb, hTable, hr⟩ := mem_pending.mp (mem_of_drain now h)
  obtain ⟨b', hb', rfl⟩ := List.mem_map.mp hb
  have hKnown : ∀ r ∈ b'.rows, (b'.table, r) ∈ pending c.buffers := by
    intro r hr
    unfold Client.known at hb'
    split at hb'
    · exact mem_pending.mpr ⟨b', hb', rfl, hr⟩
    · obtain hb' | hb' := List.mem_append.mp hb'
      · exact mem_pending.mpr ⟨b', hb', rfl, hr⟩
      · obtain rfl := List.mem_singleton.mp hb'
        cases hr
  obtain ⟨table', r⟩ := x
  unfold Buffer.extended at hTable hr
  split at hr
  next hOwn =>
    rw [if_pos hOwn] at hTable
    obtain rfl : table' = b'.table := hTable
    obtain hr | hr := List.mem_append.mp hr
    · exact .inl (hKnown r hr)
    · exact .inr ⟨hOwn, hr⟩
  next hOther =>
    rw [if_neg hOther] at hTable
    obtain rfl : table' = b'.table := hTable
    exact .inl (hKnown r hr)

theorem drain_tables (due : Buffer ρ → Bool) (now : Int) (buffers : List (Buffer ρ)) :
    (drain due now buffers).1.map Buffer.table = buffers.map Buffer.table := by
  rw [drain, List.map_map]
  refine List.map_congr_left fun b _ => ?_
  simp only [Function.comp_apply]
  split <;> rfl

theorem extended_tables (table : String) (rows : List ρ) (buffers : List (Buffer ρ)) :
    (buffers.map (Buffer.extended table rows)).map Buffer.table = buffers.map Buffer.table := by
  rw [List.map_map]
  refine List.map_congr_left fun b _ => ?_
  simp only [Function.comp_apply, Buffer.extended]
  split <;> rfl

theorem pending_extended {table : String} {rows : List ρ} {buffers : List (Buffer ρ)}
    (hNodup : (buffers.map Buffer.table).Nodup) (hIn : table ∈ buffers.map Buffer.table) :
    (pending (buffers.map (Buffer.extended table rows))).Perm
      (pending buffers ++ rows.map fun r => (table, r)) := by
  induction buffers with
  | nil => cases hIn
  | cons b bs ih =>
    obtain ⟨hFirst, hRest⟩ := List.nodup_cons.mp hNodup
    by_cases hb : b.table = table
    · have hOthers : bs.map (Buffer.extended table rows) = bs := by
        refine (List.map_congr_left fun b' hb' => ?_).trans (List.map_id bs)
        refine if_neg fun hEq => hFirst ?_
        rw [hb, ← hEq]
        exact List.mem_map_of_mem hb'
      have hHead : (b.extended table rows).batch.tagged =
          b.batch.tagged ++ rows.map fun r => (table, r) := by
        simp [Buffer.extended, hb, Buffer.batch, Batch.tagged]
      change ((b.extended table rows).batch.tagged ++ pending (bs.map _)).Perm
        ((b.batch.tagged ++ pending bs) ++ _)
      rw [hOthers, hHead, List.append_assoc, List.append_assoc]
      exact List.perm_append_comm.append_left _
    · have hHead : b.extended table rows = b := if_neg hb
      have hIn' : table ∈ bs.map Buffer.table := by
        obtain hEq | hMem := List.mem_cons.mp hIn
        · exact absurd hEq.symm hb
        · exact hMem
      change ((b.extended table rows).batch.tagged ++ pending (bs.map _)).Perm
        ((b.batch.tagged ++ pending bs) ++ _)
      rw [hHead, List.append_assoc]
      exact (ih hRest hIn').append_left _

theorem known_tables {c : Client ρ} (table : String) (columns : List String) (now : Int)
    (h : (c.buffers.map Buffer.table).Nodup) :
    ((c.known table columns now).map Buffer.table).Nodup ∧
      table ∈ (c.known table columns now).map Buffer.table ∧
      pending (c.known table columns now) = pending c.buffers := by
  unfold Client.known
  split
  next hAny =>
    obtain ⟨b, hb, hTable⟩ := List.any_eq_true.mp hAny
    refine ⟨h, List.mem_map.mpr ⟨b, hb, of_decide_eq_true hTable⟩, rfl⟩
  next hNone =>
    refine ⟨?_, by simp, by simp [pending, Buffer.batch, Batch.tagged]⟩
    rw [List.map_append, List.map_singleton, List.nodup_append_comm]
    refine List.nodup_cons.mpr ⟨fun hIn => hNone ?_, h⟩
    obtain ⟨b, hb, hTable⟩ := List.mem_map.mp hIn
    exact List.any_eq_true.mpr ⟨b, hb, decide_eq_true hTable⟩

theorem Client.insertMany_perm {c : Client ρ} (table : String) (rows : List ρ)
    (columns : List String) (now : Int) (h : (c.buffers.map Buffer.table).Nodup) :
    (pending (c.insertMany table rows columns now).1.buffers ++
      handedOut (c.insertMany table rows columns now).2).Perm
      (pending c.buffers ++ rows.map fun r => (table, r)) := by
  obtain ⟨hNodup, hIn, hPending⟩ := known_tables table columns now h
  refine (drain_perm _ _ _).trans ?_
  rw [← hPending]
  exact pending_extended hNodup hIn

theorem Client.insertMany_tables {c : Client ρ} (table : String) (rows : List ρ)
    (columns : List String) (now : Int) (h : (c.buffers.map Buffer.table).Nodup) :
    ((c.insertMany table rows columns now).1.buffers.map Buffer.table).Nodup := by
  have hTables : (c.insertMany table rows columns now).1.buffers.map Buffer.table =
      (c.known table columns now).map Buffer.table :=
    (drain_tables _ _ _).trans (extended_tables table rows _)
  rw [hTables]
  exact (known_tables table columns now h).1

end

end LiveQuiz.Stream
