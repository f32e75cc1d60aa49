import LiveQuiz.Stream.World

/-! # Where the rows given to the buffered client are

A call drains the buffers it flushes under the lock and inserts what it took outside,
table after table. The first insert that raises ends the call, and the rows it still
held are nowhere.
-/

namespace LiveQuiz.Stream

set_option autoImplicit false

variable {ρ : Type}

inductive Method (ρ : Type) where
  | insertMany (table : String) (rows : List ρ) (columns : List String)
  | maybeFlush
  | flushAll

/-- A call of a method; `fault i` is what happens to its `i`th insert. -/
structure Call (ρ : Type) where
  method : Method ρ
  now : Int
  fault : Nat → Fault

def Call.drains (call : Call ρ) (c : Client ρ) : Client ρ × List (Batch ρ) :=
  match call.method with
  | .insertMany table rows columns => c.insertMany table rows columns call.now
  | .maybeFlush => c.maybeFlush call.now
  | .flushAll => c.flushAll call.now

/-- `_do_insert` does nothing for no rows. -/
def Call.batches (call : Call ρ) (c : Client ρ) : List (Batch ρ) :=
  (call.drains c).2.filter (·.rows ≠ [])

def Call.accepts (call : Call ρ) : List (String × ρ) :=
  match call.method with
  | .insertMany table rows _ => rows.map fun r => (table, r)
  | _ => []

def landed : List (Batch ρ) → (Nat → Fault) → List (String × ρ)
  | [], _ => []
  | b :: bs, fault =>
    match fault 0 with
    | .none => b.tagged ++ landed bs fun i => fault (i + 1)
    | .fail => []
    | .lost => b.tagged

/-- The client with all rows it ever accepted and all rows ClickHouse ever took. -/
structure Books (ρ : Type) where
  client : Client ρ
  accepted : List (String × ρ) := []
  inserted : List (String × ρ) := []

def Books.step (s : Books ρ) (call : Call ρ) : Books ρ where
  client := (call.drains s.client).1
  accepted := s.accepted ++ call.accepts
  inserted := s.inserted ++ landed (call.batches s.client) call.fault

def Books.run (s : Books ρ) (calls : List (Call ρ)) : Books ρ := calls.foldl Books.step s

/-- `__init__`. -/
def Books.new (batchRows : Nat) (flushInterval : Int) : Books ρ where
  client := { batchRows := batchRows, flushInterval := flushInterval }

/-- Every accepted row is inserted once or in a buffer once; a buffer holds rows in the
order in which they came. -/
structure Books.Conserved (s : Books ρ) : Prop where
  once : (s.inserted ++ pending s.client.buffers).Perm s.accepted
  order : ∀ b ∈ s.client.buffers, b.batch.tagged.Sublist s.accepted

/-- No insert of the call raises, save the last one when its rows are there all the same. -/
def Call.Spared (call : Call ρ) (c : Client ρ) : Prop :=
  ∀ i < (call.batches c).length,
    call.fault i = .none ∨ call.fault i = .lost ∧ i + 1 = (call.batches c).length

theorem length_tagged_pos {b : Batch ρ} (h : b.rows ≠ []) : 0 < b.tagged.length := by
  rw [Batch.tagged, List.length_map]
  exact List.length_pos_iff.mpr h

theorem handedOut_cons (b : Batch ρ) (bs : List (Batch ρ)) :
    handedOut (b :: bs) = b.tagged ++ handedOut bs := rfl

theorem handedOut_length_zero {bs : List (Batch ρ)} (hRows : ∀ b ∈ bs, b.rows ≠ [])
    (h : (handedOut bs).length = 0) : bs = [] := by
  cases bs with
  | nil => rfl
  | cons b bs =>
    have hPos := length_tagged_pos (hRows b List.mem_cons_self)
    rw [handedOut_cons, List.length_append] at h
    omega

theorem landed_of_spared {bs : List (Batch ρ)} {fault : Nat → Fault}
    (h : ∀ i < bs.length, fault i = .none ∨ fault i = .lost ∧ i + 1 = bs.length) :
    landed bs fault = handedOut bs := by
  induction bs generalizing fault with
  | nil => rfl
  | cons b bs ih =>
    obtain h0 | ⟨h0, hLast⟩ := h 0 (Nat.succ_pos _)
    · simp only [landed, h0, handedOut_cons]
      rw [ih]
      intro i hi
      refine (h (i + 1) (Nat.succ_lt_succ hi)).imp_right fun hLost => ⟨hLost.1, ?_⟩
      exact Nat.succ.inj hLost.2
    · have hNil : bs = [] := List.length_eq_zero_iff.mp (Nat.succ.inj hLast).symm
      simp [landed, h0, hNil, handedOut]

theorem spared_of_landed {bs : List (Batch ρ)} {fault : Nat → Fault}
    (hRows : ∀ b ∈ bs, b.rows ≠ [])
    (h : (landed bs fault).length = (handedOut bs).length) :
    ∀ i < bs.length, fault i = .none ∨ fault i = .lost ∧ i + 1 = bs.length := by
  induction bs generalizing fault with
  | nil =>
    intro i hi
    cases hi
  | cons b bs ih =>
    have hPos := length_tagged_pos (hRows b List.mem_cons_self)
    have hRest : ∀ b ∈ bs, b.rows ≠ [] := fun b' hb' => hRows b' (List.mem_cons_of_mem b hb')
    rw [handedOut_cons, List.length_append] at h
    cases h0 : fault 0 with
    | none =>
      simp only [landed, h0, List.length_append] at h
      have hSpared := ih hRest (Nat.add_left_cancel h)
      rintro (_ | i) hi
      · exact .inl h0
      · refine (hSpared i (Nat.lt_of_succ_lt_succ hi)).imp_right fun hLost => ⟨hLost.1, ?_⟩
        rw [List.length_cons, hLost.2]
    | fail =>
      simp only [landed, h0, List.length_nil] at h
      omega
    | lost =>
      simp only [landed, h0] at h
      have hNil : bs = [] := handedOut_length_zero hRest (by omega)
      subst hNil
      rintro (_ | i) hi
      · exact .inr ⟨h0, rfl⟩
      · exact absurd (Nat.lt_of_succ_lt_succ hi) (Nat.not_lt_zero i)

theorem handedOut_filter (bs : List (Batch ρ)) :
    handedOut (bs.filter (·.rows ≠ [])) = handedOut bs := by
  induction bs with
  | nil => rfl
  | cons b bs ih =>
    by_cases h : b.rows = []
    · rw [List.filter_cons_of_neg (by simpa using h), ih, handedOut_cons, Batch.tagged, h]
      rfl
    · rw [List.filter_cons_of_pos (by simpa using h), handedOut_cons, handedOut_cons, ih]

/-- What holds after any call, whatever its inserts do. -/
structure Books.Kept (s : Books ρ) : Prop where
  tables : (s.client.buffers.map Buffer.table).Nodup
  order : ∀ b ∈ s.client.buffers, b.batch.tagged.Sublist s.accepted

theorem drains_perm (call : Call ρ) {c : Client ρ} (h : (c.buffers.map Buffer.table).Nodup) :
    (pending (call.drains c).1.buffers ++ handedOut (call.batches c)).Perm
      (pending c.buffers ++ call.accepts) := by
  rw [Call.batches, handedOut_filter]
  unfold Call.drains Call.accepts
  cases call.method with
  | insertMany table rows columns => exact Client.insertMany_perm table rows columns call.now h
  | maybeFlush =>
    rw [List.append_nil]
    exact drain_perm _ _ _
  | flushAll =>
    rw [List.append_nil]
    exact drain_perm _ _ _

theorem drains_tables (call : Call ρ) {c : Client ρ} (h : (c.buffers.map Buffer.table).Nodup) :
    ((call.drains c).1.buffers.map Buffer.table).Nodup := by
  unfold Call.drains
  cases call.method with
  | insertMany table rows columns => exact Client.insertMany_tables table rows columns call.now h
  | maybeFlush => exact (drain_tables _ _ _).symm ▸ h
  | flushAll => exact (drain_tables _ _ _).symm ▸ h

theorem drain_order {due : Buffer ρ → Bool} {now : Int} {buffers : List (Buffer ρ)}
    {rows : List (String × ρ)} (h : ∀ b ∈ buffers, b.batch.tagged.Sublist rows) :
    ∀ b ∈ (drain due now buffers).1, b.batch.tagged.Sublist rows := by
  intro b hb
  obtain ⟨b', hb', rfl⟩ := List.mem_map.mp hb
  split
  · exact List.nil_sublist rows
  · exact h b' hb'

theorem extended_order {c : Client ρ} {table : String} {rows : List ρ} {columns : List String}
    {now : Int} {seen : List (String × ρ)} (h : ∀ b ∈ c.buffers, b.batch.tagged.Sublist seen) :
    ∀ b ∈ (c.known table columns now).map (Buffer.extended table rows),
      b.batch.tagged.Sublist (seen ++ rows.map fun r => (table, r)) := by
  have hKnown : ∀ b ∈ c.known table columns now, b.batch.tagged.Sublist seen := by
    intro b hb
    unfold Client.known at hb
    split at hb
    · exact h b hb
    · obtain hOld | hNew := List.mem_append.mp hb
      · exact h b hOld
      · obtain rfl := List.mem_singleton.mp hNew
        exact List.nil_sublist seen
  intro b hb
  obtain ⟨b', hb', rfl⟩ := List.mem_map.mp hb
  unfold Buffer.extended
  split
  next hTable =>
    have hRows : (Buffer.batch { b' with rows := b'.rows ++ rows }).tagged =
        b'.batch.tagged ++ rows.map fun r => (table, r) := by
      simp [Buffer.batch, Batch.tagged, hTable]
    rw [hRows]
    exact (hKnown b' hb').append_right _
  · exact (hKnown b' hb').trans (List.sublist_append_left seen _)

theorem Books.Kept.step {s : Books ρ} (h : s.Kept) (call : Call ρ) : (s.step call).Kept where
  tables := drains_tables call h.tables
  order := by
    simp only [Books.step]
    unfold Call.drains Call.accepts
    cases call.method with
    | insertMany table rows columns => exact drain_order (extended_order h.order)
    | maybeFlush =>
      rw [List.append_nil]
      exact drain_order h.order
    | flushAll =>
      rw [List.append_nil]
      exact drain_order h.order

theorem Books.Kept.conserved_iff {s : Books ρ} (h : s.Kept) :
    s.Conserved ↔ (s.inserted ++ pending s.client.buffers).Perm s.accepted :=
  ⟨Books.Conserved.once, fun hOnce => ⟨hOnce, h.order⟩⟩

theorem Books.Conserved.step_iff {s : Books ρ} (hKept : s.Kept) (h : s.Conserved) (call : Call ρ) :
    (s.step call).Conserved ↔ call.Spared s.client := by
  have hMoved := drains_perm call hKept.tables
  rw [(hKept.step call).conserved_iff]
  constructor
  · intro hOnce
    refine spared_of_landed (fun b hb => of_decide_eq_true (List.mem_filter.mp hb).2) ?_
    have hLength := hOnce.length_eq
    have hBefore := h.once.length_eq
    have hDrained := hMoved.length_eq
    simp only [Books.step, List.length_append] at hLength hBefore hDrained
    omega
  · intro hSpared
    simp only [Books.step]
    rw [landed_of_spared hSpared, List.append_assoc]
    calc
      (s.inserted ++ (handedOut (call.batches s.client) ++ pending (call.drains s.client).1.buffers)).Perm
          (s.inserted ++ (pending s.client.buffers ++ call.accepts)) :=
        (List.perm_append_comm.trans hMoved).append_left _
      _ = s.inserted ++ pending s.client.buffers ++ call.accepts := (List.append_assoc _ _ _).symm
      _ |>.Perm (s.accepted ++ call.accepts) := h.once.append_right _

theorem Books.run_snoc (s : Books ρ) (calls : List (Call ρ)) (call : Call ρ) :
    s.run (calls ++ [call]) = (s.run calls).step call := List.foldl_append

theorem Books.kept_run {s : Books ρ} (h : s.Kept) (calls : List (Call ρ)) : (s.run calls).Kept := by
  induction calls generalizing s with
  | nil => exact h
  | cons call calls ih => exact ih (h.step call)

theorem Books.kept_new (batchRows : Nat) (flushInterval : Int) :
    (Books.new batchRows flushInterval : Books ρ).Kept where
  tables := List.nodup_nil
  order b hb := by cases hb

theorem Books.conserved_new (batchRows : Nat) (flushInterval : Int) :
    (Books.new batchRows flushInterval : Books ρ).Conserved where
  once := .nil
  order b hb := by cases hb

theorem take_succ_of_getElem? {calls : List (Call ρ)} {k : Nat} {call : Call ρ}
    (h : calls[k]? = some call) : calls.take (k + 1) = calls.take k ++ [call] := by
  rw [List.take_add_one, h]
  rfl

/-- After each call every accepted row is in one place, for exactly the runs in which the
inserts of every call are spared. -/
theorem conserved_iff_spared (batchRows : Nat) (flushInterval : Int) (calls : List (Call ρ)) :
    (∀ k, ((Books.new batchRows flushInterval).run (calls.take k)).Conserved) ↔
      ∀ (k : Nat) (call : Call ρ), calls[k]? = some call →
        call.Spared ((Books.new batchRows flushInterval).run (calls.take k)).client := by
  have hKept := fun k => Books.kept_run (Books.kept_new batchRows flushInterval) (calls.take k)
  constructor
  · intro h k call hCall
    refine ((h k).step_iff (hKept k) call).mp ?_
    rw [← Books.run_snoc, ← take_succ_of_getElem? hCall]
    exact h (k + 1)
  · intro h k
    induction k with
    | zero => exact Books.conserved_new batchRows flushInterval
    | succ k ih =>
      cases hCall : calls[k]? with
      | none =>
        rw [List.take_add_one, hCall, Option.toList_none, List.append_nil]
        exact ih
      | some call =>
        rw [take_succ_of_getElem? hCall, Books.run_snoc]
        exact (ih.step_iff (hKept k) call).mpr (h k call hCall)

/-- Rows 1 and 2 wait for two tables; the flush fails at the first, and both are gone. -/
def lossyCalls : List (Call Nat) :=
  [⟨.insertMany "answer_events" [1] ["id"], 0, fun _ => .none⟩,
    ⟨.insertMany "events_raw" [2] ["id"], 0, fun _ => .none⟩,
    ⟨.flushAll, 1, fun _ => .fail⟩]

theorem failed_flush_loses_rows :
    let s := (Books.new 100 500000).run lossyCalls
    s.accepted = [("answer_events", 1), ("events_raw", 2)] ∧
      s.inserted = [] ∧ pending s.client.buffers = [] ∧ ¬ s.Conserved := by
  refine ⟨by decide, by decide, by decide, fun h => ?_⟩
  have hLength := h.once.length_eq
  revert hLength
  decide

end LiveQuiz.Stream
