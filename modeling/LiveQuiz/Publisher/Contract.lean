import LiveQuiz.Publisher.Service
import LiveQuiz.Lib.Contract

/-! # The contract of the publisher

What holds of the table, the open transactions and the broker's acknowledgements in
every state, and what a program relies on while its process lives.
-/

namespace LiveQuiz.Publisher

open Coroutine

set_option autoImplicit false

def Write.applyRow : Write → OutboxRow → OutboxRow
  | .markPublished ids at', r => if ids.contains r.id then r.mark at' else r
  | .incrementAttempts i, r => if r.id = i then r.increment else r

def Write.incremented : Write → Option Id
  | .incrementAttempts i => some i
  | .markPublished _ _ => none

def applyRows (ws : List Write) (r : OutboxRow) : OutboxRow := ws.foldl (fun r w => w.applyRow r) r

theorem applyAll_eq_map (ws : List Write) (table : List OutboxRow) :
    applyAll ws table = table.map (applyRows ws) := by
  induction ws generalizing table with
  | nil => exact (List.map_id table).symm
  | cons w ws ih =>
    have hApply : w.apply table = table.map w.applyRow := by
      cases w <;> simp [Write.apply, updated, Write.applyRow]
    change applyAll ws (w.apply table) = _
    rw [ih, hApply, List.map_map]
    rfl

/-- What the updates of a transaction do to one row. -/
structure RowEffect (ws : List Write) (r r' : OutboxRow) : Prop where
  envelope : buildEnvelope r' = buildEnvelope r
  attempts : r'.publishAttempts = r.publishAttempts + (ws.filterMap Write.incremented).count r.id
  published : r'.publishedAt = r.publishedAt ∨ ∃ ids at', .markPublished ids at' ∈ ws ∧ r.id ∈ ids

theorem buildEnvelope_id {r r' : OutboxRow} (h : buildEnvelope r' = buildEnvelope r) :
    r'.id = r.id := congrArg Envelope.eventId h

theorem rowEffect (ws : List Write) (r : OutboxRow) : RowEffect ws r (applyRows ws r) := by
  induction ws generalizing r with
  | nil => exact ⟨rfl, rfl, .inl rfl⟩
  | cons w ws ih =>
    have hRest := ih (w.applyRow r)
    have hId : (w.applyRow r).id = r.id := by
      cases w <;> simp only [Write.applyRow] <;> split <;> rfl
    change RowEffect (w :: ws) r (applyRows ws (w.applyRow r))
    generalize applyRows ws (w.applyRow r) = r' at hRest
    obtain ⟨hEnvelope, hAttempts, hPublished⟩ := hRest
    rw [hId] at hAttempts hPublished
    cases w with
    | markPublished ids at' =>
      refine ⟨hEnvelope.trans ?_, ?_, ?_⟩
      · simp only [Write.applyRow]
        split <;> rfl
      · rw [hAttempts]
        simp only [Write.applyRow]
        split <;> rfl
      · obtain hSame | ⟨ids', a, hMem, hIn⟩ := hPublished
        · simp only [Write.applyRow] at hSame
          split at hSame
          next hHit => exact .inr ⟨ids, at', List.mem_cons_self, by simpa using hHit⟩
          · exact .inl hSame
        · exact .inr ⟨ids', a, List.mem_cons_of_mem _ hMem, hIn⟩
    | incrementAttempts i =>
      refine ⟨hEnvelope.trans ?_, ?_, ?_⟩
      · simp only [Write.applyRow]
        split <;> rfl
      · have hIncremented : (Write.incrementAttempts i :: ws).filterMap Write.incremented =
            i :: ws.filterMap Write.incremented := rfl
        rw [hAttempts, hIncremented, List.count_cons]
        simp only [Write.applyRow]
        split
        next hEq =>
          subst hEq
          simp only [OutboxRow.increment, beq_self_eq_true, if_true]
          omega
        next hNe =>
          have hNe' : (i == r.id) = false := by simpa using fun h => hNe h.symm
          simp [hNe']
      · obtain hSame | ⟨ids', a, hMem, hIn⟩ := hPublished
        · left
          rw [hSame]
          simp only [Write.applyRow]
          split <;> rfl
        · exact .inr ⟨ids', a, List.mem_cons_of_mem _ hMem, hIn⟩

theorem applyRows_of_not_mem {ws : List Write} {r : OutboxRow}
    (h : ∀ w ∈ ws, r.id ∉ w.ids) : applyRows ws r = r := by
  induction ws with
  | nil => rfl
  | cons w ws ih =>
    have hOne : w.applyRow r = r := by
      have hw := h w List.mem_cons_self
      cases w with
      | markPublished ids at' =>
        have hOut : ids.contains r.id ≠ true := by simpa [Write.ids] using hw
        exact if_neg hOut
      | incrementAttempts i =>
        have hNe : r.id ≠ i := by simpa [Write.ids] using hw
        exact if_neg hNe
    change applyRows ws (w.applyRow r) = r
    rw [hOne]
    exact ih fun w' hw' => h w' (List.mem_cons_of_mem _ hw')

/-- The broker has acknowledged the row's envelope, on its topic or the dead-letter one. -/
def Acked (w : World) (r : OutboxRow) : Prop :=
  ∃ replica topic, (replica, .acked topic (buildEnvelope r)) ∈ w.log ∧
    (topic = topicFor r.eventType ∨ topic = topicDeadLetter)

def AckedId (w : World) (i : Id) : Prop := ∃ r ∈ w.table, r.id = i ∧ Acked w r

def Retriable (w : World) (i : Id) : Prop :=
  ∃ r ∈ w.table, r.id = i ∧ r.publishAttempts < maxPublishAttempts

structure TxOk (w : World) (pid : Nat) (tx : Tx) : Prop where
  selected : ∀ i ∈ tx.selected, w.lock i = some pid
  locked : ∀ wr ∈ tx.writes, ∀ i ∈ wr.ids, w.lock i = some pid
  marked : ∀ ids at', .markPublished ids at' ∈ tx.writes → ∀ i ∈ ids, AckedId w i
  counted : ∀ i, .incrementAttempts i ∈ tx.writes → Retriable w i
  once : (tx.writes.filterMap Write.incremented).Nodup

structure Inv (n : Nat) (w : World) : Prop where
  ids : (w.table.map OutboxRow.id).Nodup
  attempts : ∀ r ∈ w.table, r.publishAttempts ≤ maxPublishAttempts
  published : ∀ r ∈ w.table, r.publishedAt.isSome → Acked w r
  tx : ∀ pid tx, w.tx pid = some tx → TxOk w pid tx
  idle : ∀ pid, n ≤ pid → w.tx pid = none
  running : ∀ r pid, w.process r = some pid → pid < n ∧ pid ∉ w.dead
  owner : ∀ r r' pid, w.process r = some pid → w.process r' = some pid → r = r'
  dead : ∀ pid ∈ w.dead, pid < n

/-- What the others leave alone between two calls of `pid`. -/
structure Leaves (pid : Nat) (w w' : World) : Prop where
  tx : w'.tx pid = w.tx pid
  lock : ∀ i, w.lock i = some pid → w'.lock i = some pid
  rows : ∀ r ∈ w.table, w.lock r.id = some pid → r ∈ w'.table
  later : ∀ r ∈ w.table, ∃ r' ∈ w'.table, buildEnvelope r' = buildEnvelope r
  log : w.log ⊆ w'.log

/-- The same while the process lives. -/
structure Rely (pid : Nat) (w w' : World) : Prop where
  dead : pid ∈ w.dead → pid ∈ w'.dead
  leaves : pid ∉ w'.dead → Leaves pid w w'

def Needs (w : World) (pid : Nat) : Op → Prop
  | .incrementAttempts i => Retriable w i ∧ i ∉ (w.writes pid).filterMap Write.incremented
  | .markPublished ids => ∀ i ∈ ids, AckedId w i
  | _ => True

def contract : Contract World Op Exn Unit Nat where
  inv := Inv
  rely := Rely
  req pid r w o := w.process r = some pid → Needs w pid o
  post _ _ _ _ := True

section

variable {w w' w'' : World} {pid q r n : Nat} {i : Id} {row : OutboxRow}

theorem Leaves.refl (pid : Nat) (w : World) : Leaves pid w w :=
  ⟨rfl, fun _ h => h, fun _ h _ => h, fun r hr => ⟨r, hr, rfl⟩, fun _ h => h⟩

theorem Leaves.trans (h : Leaves pid w w') (h' : Leaves pid w' w'') : Leaves pid w w'' where
  tx := h'.tx.trans h.tx
  lock i hi := h'.lock i (h.lock i hi)
  rows r hr hLock := h'.rows r (h.rows r hr hLock) (h.lock r.id hLock)
  later r hr := by
    obtain ⟨r', hr', hSame⟩ := h.later r hr
    obtain ⟨r'', hr'', hSame'⟩ := h'.later r' hr'
    exact ⟨r'', hr'', hSame'.trans hSame⟩
  log _ he := h'.log (h.log he)

theorem Rely.refl (pid : Nat) (w : World) : Rely pid w w := ⟨fun h => h, fun _ => .refl pid w⟩

theorem Rely.trans (h : Rely pid w w') (h' : Rely pid w' w'') : Rely pid w w'' where
  dead hDead := h'.dead (h.dead hDead)
  leaves hLive := (h.leaves fun hDead => hLive (h'.dead hDead)).trans (h'.leaves hLive)

theorem Acked.mono (h : Acked w row) (hLog : w.log ⊆ w'.log) : Acked w' row := by
  obtain ⟨replica, topic, hMem, hTopic⟩ := h
  exact ⟨replica, topic, hLog hMem, hTopic⟩

theorem Acked.congr {row' : OutboxRow} (h : Acked w row)
    (hSame : buildEnvelope row' = buildEnvelope row) : Acked w row' := by
  obtain ⟨replica, topic, hMem, hTopic⟩ := h
  have hType : row'.eventType = row.eventType := congrArg Envelope.eventType hSame
  refine ⟨replica, topic, ?_, ?_⟩
  · rw [hSame]
    exact hMem
  · rw [hType]
    exact hTopic

theorem AckedId.mono (h : AckedId w i)
    (hLater : ∀ r ∈ w.table, ∃ r' ∈ w'.table, buildEnvelope r' = buildEnvelope r)
    (hLog : w.log ⊆ w'.log) : AckedId w' i := by
  obtain ⟨row, hRow, rfl, hAcked⟩ := h
  obtain ⟨row', hRow', hSame⟩ := hLater row hRow
  exact ⟨row', hRow', buildEnvelope_id hSame, (hAcked.mono hLog).congr hSame⟩

theorem TxOk.mono {tx : Tx} (h : TxOk w pid tx) (hLock : ∀ i, w.lock i = some pid → w'.lock i = some pid)
    (hRows : ∀ r ∈ w.table, w.lock r.id = some pid → r ∈ w'.table)
    (hLater : ∀ r ∈ w.table, ∃ r' ∈ w'.table, buildEnvelope r' = buildEnvelope r)
    (hLog : w.log ⊆ w'.log) : TxOk w' pid tx where
  selected i hi := hLock i (h.selected i hi)
  locked wr hwr i hi := hLock i (h.locked wr hwr i hi)
  marked ids at' hMem i hi := (h.marked ids at' hMem i hi).mono hLater hLog
  counted i hMem := by
    obtain ⟨row, hRow, rfl, hLt⟩ := h.counted i hMem
    have hLocked := h.locked _ hMem row.id (by simp [Write.ids])
    exact ⟨row, hRows row hRow hLocked, rfl, hLt⟩
  once := h.once

theorem TxOk.leaves {tx : Tx} (h : TxOk w pid tx) (hLeaves : Leaves pid w w') : TxOk w' pid tx :=
  h.mono hLeaves.lock hLeaves.rows hLeaves.later hLeaves.log

/-- The table, the locks, the transactions and the processes are the same. -/
structure SameCore (w w' : World) : Prop where
  table : w'.table = w.table
  lock : w'.lock = w.lock
  tx : w'.tx = w.tx
  process : w'.process = w.process
  dead : w'.dead = w.dead
  log : w.log ⊆ w'.log

theorem SameCore.leaves (h : SameCore w w') (q : Nat) : Leaves q w w' where
  tx := by rw [h.tx]
  lock i hi := by rw [h.lock, hi]
  rows row hRow _ := by rwa [h.table]
  later row hRow := ⟨row, by rwa [h.table], rfl⟩
  log := h.log

theorem SameCore.inv (h : SameCore w w') (hInv : Inv n w) : Inv n w' where
  ids := by
    rw [h.table]
    exact hInv.ids
  attempts row hRow := by
    rw [h.table] at hRow
    exact hInv.attempts row hRow
  published row hRow hSome := by
    rw [h.table] at hRow
    exact (hInv.published row hRow hSome).mono h.log
  tx q tx hTx := by
    rw [h.tx] at hTx
    exact (hInv.tx q tx hTx).leaves (h.leaves q)
  idle q hq := by
    rw [h.tx]
    exact hInv.idle q hq
  running r q hq := by
    rw [h.process] at hq
    rw [h.dead]
    exact hInv.running r q hq
  owner r r' q hq hq' := by
    rw [h.process] at hq hq'
    exact hInv.owner r r' q hq hq'
  dead := by
    rw [h.dead]
    exact hInv.dead

theorem endTx_tx_of_ne (hq : q ≠ pid) : (w.endTx pid).tx q = w.tx q := Function.update_of_ne hq _ _

theorem endTx_leaves (w : World) (hq : q ≠ pid) : Leaves q w (w.endTx pid) where
  tx := endTx_tx_of_ne hq
  lock _ h := Transactions.Book.endTx_lock.mpr ⟨h, hq⟩
  rows _ hRow _ := hRow
  later row hRow := ⟨row, hRow, rfl⟩
  log _ he := he

theorem endTx_inv (hInv : Inv n w) (pid : Nat) : Inv n (w.endTx pid) where
  ids := hInv.ids
  attempts := hInv.attempts
  published := hInv.published
  tx q tx hTx := by
    have hq : q ≠ pid := by
      rintro rfl
      simp [World.endTx] at hTx
    rw [endTx_tx_of_ne hq] at hTx
    exact (hInv.tx q tx hTx).leaves (endTx_leaves w hq)
  idle q hq := by
    change Function.update w.tx pid none q = none
    rw [Function.update_apply]
    split
    · rfl
    · exact hInv.idle q hq
  running := hInv.running
  owner := hInv.owner
  dead := hInv.dead

theorem writes_ok (hInv : Inv n w) (pid : Nat) :
    (∀ wr ∈ w.writes pid, ∀ i ∈ wr.ids, w.lock i = some pid) ∧
    (∀ ids at', .markPublished ids at' ∈ w.writes pid → ∀ i ∈ ids, AckedId w i) ∧
    (∀ i, .incrementAttempts i ∈ w.writes pid → Retriable w i) ∧
    ((w.writes pid).filterMap Write.incremented).Nodup := by
  cases hTx : w.tx pid with
  | none => simp [World.writes, hTx]
  | some tx =>
    have h := hInv.tx pid tx hTx
    simp only [World.writes, hTx, Option.map_some, Option.getD_some]
    exact ⟨h.locked, h.marked, h.counted, h.once⟩

theorem row_unique (hInv : Inv n w) {a b : OutboxRow} (ha : a ∈ w.table) (hb : b ∈ w.table)
    (h : a.id = b.id) : a = b := List.inj_on_of_nodup_map hInv.ids ha hb h

theorem commit_leaves (hInv : Inv n w) (hq : q ≠ pid) : Leaves q w (w.commit pid) where
  tx := endTx_tx_of_ne hq
  lock _ h := Transactions.Book.endTx_lock.mpr ⟨h, hq⟩
  rows row hRow hLock := by
    change row ∈ applyAll (w.writes pid) w.table
    rw [applyAll_eq_map]
    refine List.mem_map.mpr ⟨row, hRow, applyRows_of_not_mem fun wr hwr hIn => hq ?_⟩
    have hMine := (writes_ok hInv pid).1 wr hwr row.id hIn
    rw [hLock] at hMine
    exact Option.some.inj hMine
  later row hRow := by
    refine ⟨applyRows (w.writes pid) row, ?_, (rowEffect _ row).envelope⟩
    change _ ∈ applyAll (w.writes pid) w.table
    rw [applyAll_eq_map]
    exact List.mem_map_of_mem hRow
  log _ he := he

theorem commit_inv (hInv : Inv n w) (pid : Nat) : Inv n (w.commit pid) := by
  obtain ⟨-, hMarked, hCounted, hOnce⟩ := writes_ok hInv pid
  have hTable : (w.commit pid).table = w.table.map (applyRows (w.writes pid)) :=
    applyAll_eq_map _ _
  have hEnd := endTx_inv hInv pid
  constructor
  case ids =>
    rw [hTable, List.map_map]
    have hId : OutboxRow.id ∘ applyRows (w.writes pid) = OutboxRow.id :=
      funext fun row => buildEnvelope_id (rowEffect _ row).envelope
    rw [hId]
    exact hInv.ids
  case attempts =>
    intro row' hRow'
    rw [hTable] at hRow'
    obtain ⟨row, hRow, rfl⟩ := List.mem_map.mp hRow'
    have hOld := hInv.attempts row hRow
    rw [(rowEffect _ row).attempts]
    by_cases hIn : row.id ∈ (w.writes pid).filterMap Write.incremented
    · obtain ⟨wr, hwr, hInc⟩ := List.mem_filterMap.mp hIn
      cases wr with
      | markPublished ids at' => cases hInc
      | incrementAttempts i =>
        cases hInc
        obtain ⟨row₀, hRow₀, hId, hLt⟩ := hCounted _ hwr
        rw [row_unique hInv hRow₀ hRow hId] at hLt
        rw [List.count_eq_one_of_mem hOnce hIn]
        exact hLt
    · rw [List.count_eq_zero_of_not_mem hIn]
      exact hOld
  case published =>
    intro row' hRow' hSome
    rw [hTable] at hRow'
    obtain ⟨row, hRow, rfl⟩ := List.mem_map.mp hRow'
    have hEffect := rowEffect (w.writes pid) row
    suffices hAcked : Acked w row from hAcked.congr hEffect.envelope
    obtain hSame | ⟨ids, at', hwr, hIn⟩ := hEffect.published
    · rw [hSame] at hSome
      exact hInv.published row hRow hSome
    · obtain ⟨row₀, hRow₀, hId, hAcked⟩ := hMarked ids at' hwr row.id hIn
      rwa [row_unique hInv hRow₀ hRow hId] at hAcked
  case tx =>
    intro q tx hTx
    have hq : q ≠ pid := by
      rintro rfl
      simp [World.commit, World.endTx] at hTx
    exact (hInv.tx q tx (endTx_tx_of_ne hq ▸ hTx)).leaves (commit_leaves hInv hq)
  case idle => exact hEnd.idle
  case running => exact hInv.running
  case owner => exact hInv.owner
  case dead => exact hInv.dead

/-- The transaction of `pid` has locked further rows and has become `f` of what it was. -/
def World.claimed (w : World) (pid : Nat) (ids : List Id) (f : Tx → Tx) : World :=
  (w.lockAll pid ids).modifyTx pid f

section

variable {ids : List Id} {f : Tx → Tx}

theorem claimed_mine (h : i ∈ ids) : (w.claimed pid ids f).lock i = some pid :=
  if_pos (decide_eq_true h)

theorem claimed_lock (h : w.lock i = some q) (hFree : ∀ i ∈ ids, w.free pid i = true) :
    (w.claimed pid ids f).lock i = some q := by
  change (w.take pid (· ∈ ids)).lock i = some q
  rw [Transactions.Book.take_lock]
  split
  next hIn =>
    have hMine : q = pid := by simpa [World.free, h] using hFree i (of_decide_eq_true hIn)
    rw [hMine]
  · exact h

theorem claimed_leaves (hFree : ∀ i ∈ ids, w.free pid i = true) (hq : q ≠ pid) :
    Leaves q w (w.claimed pid ids f) where
  tx := Function.update_of_ne hq _ _
  lock _ h := claimed_lock h hFree
  rows _ hRow _ := hRow
  later row hRow := ⟨row, hRow, rfl⟩
  log _ he := he

theorem claimed_inv (hInv : Inv n w) (hFree : ∀ i ∈ ids, w.free pid i = true)
    (hMine : ∀ tx, w.tx pid = some tx → TxOk (w.claimed pid ids f) pid tx →
      TxOk (w.claimed pid ids f) pid (f tx)) : Inv n (w.claimed pid ids f) where
  ids := hInv.ids
  attempts := hInv.attempts
  published := hInv.published
  tx q tx hTx := by
    by_cases hq : q = pid
    · subst hq
      have hTx' : (w.tx q).map f = some tx := by
        simpa [World.claimed, World.modifyTx, World.lockAll] using hTx
      obtain ⟨tx₀, hTx₀, rfl⟩ := Option.map_eq_some_iff.mp hTx'
      refine hMine tx₀ hTx₀ ((hInv.tx q tx₀ hTx₀).mono ?_ ?_ ?_ ?_)
      · exact fun i hi => claimed_lock hi hFree
      · exact fun _ hRow _ => hRow
      · exact fun row hRow => ⟨row, hRow, rfl⟩
      · exact fun _ he => he
    · have hOld : w.tx q = some tx := by
        rw [← hTx]
        exact (Function.update_of_ne hq _ _).symm
      exact (hInv.tx q tx hOld).leaves (claimed_leaves hFree hq)
  idle q hq := by
    change Function.update w.tx pid ((w.tx pid).map f) q = none
    rw [Function.update_apply]
    split
    next hEq =>
      subst hEq
      rw [hInv.idle q hq, Option.map_none]
    · exact hInv.idle q hq
  running := hInv.running
  owner := hInv.owner
  dead := hInv.dead

end

theorem mem_batch {limit : Nat} {order : List Id} (h : row ∈ w.batch limit order) :
    row ∈ w.table ∧ w.lock row.id = none := by
  have hSorted := List.mem_of_mem_take h
  rw [List.mem_insertionSort, World.available, List.mem_filter, decide_eq_true_eq] at hSorted
  exact ⟨hSorted.1, hSorted.2.2⟩

theorem batch_free {limit : Nat} {order : List Id} :
    ∀ i ∈ (w.batch limit order).map OutboxRow.id, w.free pid i = true := by
  intro i hi
  obtain ⟨row, hRow, rfl⟩ := List.mem_map.mp hi
  simp [World.free, (mem_batch hRow).2]

theorem select_inv (hInv : Inv n w) (pid limit : Nat) (order : List Id) :
    Inv n (w.claimed pid ((w.batch limit order).map OutboxRow.id)
      fun tx => { tx with selected := (w.batch limit order).map OutboxRow.id }) := by
  refine claimed_inv hInv batch_free fun tx _ hTx => ⟨?_, hTx.locked, hTx.marked, hTx.counted, hTx.once⟩
  exact fun i hi => claimed_mine hi

theorem update_eq {wr : Write} (h : update w pid wr = some w') :
    (∀ i ∈ wr.ids, w.free pid i = true) ∧
      w' = w.claimed pid wr.ids fun tx => { tx with writes := tx.writes ++ [wr] } := by
  simp only [update] at h
  split at h
  next hFree =>
    cases h
    exact ⟨List.all_eq_true.mp hFree, rfl⟩
  · cases h

theorem TxOk.append {tx : Tx} {wr : Write} (h : TxOk w pid tx)
    (hLocked : ∀ i ∈ wr.ids, w.lock i = some pid)
    (hMarked : ∀ ids at', wr = .markPublished ids at' → ∀ i ∈ ids, AckedId w i)
    (hCounted : ∀ i, wr = .incrementAttempts i →
      Retriable w i ∧ i ∉ tx.writes.filterMap Write.incremented) :
    TxOk w pid { tx with writes := tx.writes ++ [wr] } := by
  constructor
  case selected => exact h.selected
  case locked =>
    intro wr' hwr j hj
    obtain hOld | hLast := List.mem_append.mp hwr
    · exact h.locked wr' hOld j hj
    · cases List.mem_singleton.mp hLast
      exact hLocked j hj
  case marked =>
    intro ids at' hwr
    obtain hOld | hLast := List.mem_append.mp hwr
    · exact h.marked ids at' hOld
    · exact hMarked ids at' (List.mem_singleton.mp hLast).symm
  case counted =>
    intro j hwr
    obtain hOld | hLast := List.mem_append.mp hwr
    · exact h.counted j hOld
    · exact (hCounted j (List.mem_singleton.mp hLast).symm).1
  case once =>
    rw [List.filterMap_append]
    cases wr with
    | markPublished ids at' =>
      have hNone : [Write.markPublished ids at'].filterMap Write.incremented = [] := rfl
      rw [hNone, List.append_nil]
      exact h.once
    | incrementAttempts i =>
      have hOne : [Write.incrementAttempts i].filterMap Write.incremented = [i] := rfl
      rw [hOne, List.nodup_append_comm]
      exact List.nodup_cons.mpr ⟨(hCounted i rfl).2, h.once⟩

theorem update_inv {wr : Write} (hInv : Inv n w)
    (hMarked : ∀ ids at', wr = .markPublished ids at' → ∀ i ∈ ids, AckedId w i)
    (hCounted : ∀ i, wr = .incrementAttempts i →
      Retriable w i ∧ i ∉ (w.writes pid).filterMap Write.incremented)
    (h : update w pid wr = some w') : Inv n w' := by
  obtain ⟨hFree, rfl⟩ := update_eq h
  refine claimed_inv hInv hFree fun tx hOpen hTx => ?_
  have hWrites : w.writes pid = tx.writes := by simp [World.writes, hOpen]
  rw [hWrites] at hCounted
  exact hTx.append (fun i hi => claimed_mine hi) hMarked hCounted

theorem begin_inv (hInv : Inv n w) (hPid : pid < n) (at' : Micros) :
    Inv n { w with tx := Function.update w.tx pid (some { begunAt := at' }) } where
  ids := hInv.ids
  attempts := hInv.attempts
  published := hInv.published
  tx q tx hTx := by
    dsimp only at hTx
    by_cases hq : q = pid
    · subst hq
      rw [Function.update_self] at hTx
      cases hTx
      constructor <;> simp
    · rw [Function.update_of_ne hq] at hTx
      exact (hInv.tx q tx hTx).mono (fun _ h => h) (fun _ h _ => h) (fun row h => ⟨row, h, rfl⟩)
        fun _ h => h
  idle q hq := by
    dsimp only
    rw [Function.update_of_ne (by omega)]
    exact hInv.idle q hq
  running := hInv.running
  owner := hInv.owner
  dead := hInv.dead

theorem spawn_inv (hInv : Inv n w) (hTable : w'.table = w.table) (hLock : w'.lock = w.lock)
    (hTx : w'.tx = w.tx) (hDead : w'.dead = w.dead) (hLog : w'.log = w.log)
    (hProcess : w'.process = Function.update w.process r (some n)) : Inv (n + 1) w' := by
  have hSame : SameCore w { w' with process := w.process } :=
    ⟨hTable, hLock, hTx, rfl, hDead, by rw [hLog]; exact fun _ h => h⟩
  have hOld := hSame.inv hInv
  constructor
  case ids => exact hOld.ids
  case attempts => exact hOld.attempts
  case published => exact hOld.published
  case tx =>
    intro q tx hq
    obtain ⟨hSelected, hLocked, hMarked, hCounted, hOnce⟩ := hOld.tx q tx hq
    exact ⟨hSelected, hLocked, hMarked, hCounted, hOnce⟩
  case idle => exact fun q hq => hOld.idle q (by omega)
  case running =>
    intro r' q hq
    rw [hProcess, Function.update_apply] at hq
    rw [hDead]
    split at hq
    · cases hq
      refine ⟨by omega, fun hIn => ?_⟩
      have := hInv.dead n hIn
      omega
    · obtain ⟨hLt, hLive⟩ := hInv.running r' q hq
      exact ⟨by omega, hLive⟩
  case owner =>
    intro a b q ha hb
    rw [hProcess, Function.update_apply] at ha hb
    split at ha <;> split at hb
    next hA hB => rw [hA, hB]
    · cases ha
      have := (hInv.running b n hb).1
      omega
    · cases hb
      have := (hInv.running a n ha).1
      omega
    · exact hInv.owner a b q ha hb
  case dead =>
    intro q hq
    rw [hDead] at hq
    have := hInv.dead q hq
    omega

theorem stop_inv {gone : List Nat} (hInv : Inv n w) (hGone : ∀ q ∈ gone, w.process r = some q) :
    Inv n { w with process := Function.update w.process r none, dead := gone ++ w.dead } where
  ids := hInv.ids
  attempts := hInv.attempts
  published := hInv.published
  tx q tx hTx := (hInv.tx q tx hTx).mono (fun _ h => h) (fun _ h _ => h) (fun row h => ⟨row, h, rfl⟩)
    fun _ h => h
  idle := hInv.idle
  running r' q hq := by
    dsimp only at hq ⊢
    rw [Function.update_apply] at hq
    split at hq
    · cases hq
    next hNe =>
      obtain ⟨hLt, hLive⟩ := hInv.running r' q hq
      refine ⟨hLt, fun hIn => ?_⟩
      obtain hNew | hOld := List.mem_append.mp hIn
      · exact hNe (hInv.owner r' r q hq (hGone q hNew))
      · exact hLive hOld
  owner a b q ha hb := by
    dsimp only at ha hb
    rw [Function.update_apply] at ha hb
    split at ha
    · cases ha
    · split at hb
      · cases hb
      · exact hInv.owner a b q ha hb
  dead q hq := by
    obtain hNew | hOld := List.mem_append.mp hq
    · exact (hInv.running r q (hGone q hNew)).1
    · exact hInv.dead q hOld

end

end LiveQuiz.Publisher
