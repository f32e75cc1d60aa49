import LiveQuiz.Protocol.Contract

/-! # One call keeps the contract

For each effect a call can have on the world: the invariant is kept, and what
another coroutine relies on is left alone.
-/

namespace LiveQuiz

open Coroutine

set_option autoImplicit false

section

variable {n pid q : Nat} {w w' : World} {job : Job} {ws : List Write}

/-- The two worlds have the same tables, transactions, locks and keys. -/
structure SameCore (w w' : World) : Prop where
  db : w'.db = w.db
  redis : w'.redis = w.redis
  tx : w'.tx = w.tx
  lock : w'.lock = w.lock
  wal : w'.wal = w.wal
  requests : w.requests ⊆ w'.requests

theorem SameCore.later (h : SameCore w w') : Later w w' := by
  refine ⟨?_, ?_, ?_, ?_, h.requests, ?_⟩
  · rw [h.db]
    exact fun q hq => ⟨q, hq, .refl q⟩
  · rw [h.db]
    exact fun m hm => ⟨m, hm, rfl, rfl⟩
  · rw [h.db]
    exact fun _ _ q hq _ => ⟨q, hq, .refl q⟩
  · rw [h.db]
    exact fun _ hr => hr
  · rw [h.wal]
    exact fun _ hr => hr

theorem SameCore.inv (h : SameCore w w') (hInv : Inv n w) : Inv n w' := by
  have hLater := h.later
  obtain ⟨hdb, hredis, htx, hlock, hwal, -⟩ := h
  constructor
  · exact hdb ▸ hInv.keys
  · exact htx ▸ hInv.idle
  · exact fun p hp ws hws => hInv.silent p hp ws (hwal ▸ hws)
  · rw [htx, hlock]
    exact hInv.locked
  · rw [htx, hlock, hdb]
    exact hInv.roomLocked
  · rw [htx, hdb]
    exact hInv.uncollided
  · exact htx ▸ hInv.apart
  · exact htx ▸ hInv.disjoint
  · exact hdb ▸ hInv.matchOf
  · exact hdb ▸ hInv.positive
  · rw [hredis]
    exact fun m rec p hrec hp => (hInv.paused m rec p hrec hp).later hLater
  · rw [hdb]
    exact fun row hRow => (hInv.answered row hRow).later hLater
  · rw [hdb, hredis]
    intro r resp hr
    obtain ⟨row, hRow, rank, hResp, hAns⟩ := hInv.cached r resp hr
    exact ⟨row, hRow, rank, hResp, hAns.later hLater⟩
  · rw [hdb, hredis]
    exact hInv.applied
  · unfold Wrote
    rw [hwal, hdb]
    exact hInv.wrote
  · unfold Wrote
    rw [hwal]
    exact hInv.author

theorem SameCore.rely (h : SameCore w w')
    (hReg : ∀ r m, Registered w r m q → Registered w' r m q)
    (hCancel : w.cancelling q = true → w'.cancelling q = true) : Rely q w w' := by
  have hLater := h.later
  obtain ⟨hdb, hredis, htx, hlock, hwal, -⟩ := h
  refine ⟨⟨hLater, ?_, ?_, ?_, ?_, ?_, ?_, hReg, hCancel⟩, by rw [htx]⟩
  · rw [hlock]
    exact fun _ hr => hr
  · rw [hdb]
    exact fun _ hr _ => hr
  · rw [hdb]
    exact fun _ hr _ => hr
  · rw [hdb]
    exact fun _ hr _ => hr
  · rw [hwal]
    exact fun _ hr => hr
  · rw [hredis]
    exact fun _ _ hr => hr

/-- Setting a scheduler entry and cancelling its old task keeps every other
task registered. -/
theorem registered_requestCancel {r : Nat} {m : Id} {new : Option Nat} (r' : Nat) (m' : Id)
    (h : Registered w r' m' q) :
    Registered (({ w with
      active := Function.update w.active r (Function.update (w.active r) m new) }).requestCancel
        (w.active r m)) r' m' q := by
  unfold Registered at *
  cases hOld : w.active r m with
  | none =>
    refine h.imp (fun ha => ?_) id
    by_cases hr : r' = r
    · subst hr
      by_cases hm : m' = m
      · rw [hm, hOld] at ha
        cases ha
      · simpa [World.requestCancel, hm] using ha
    · simpa [World.requestCancel, hr] using ha
  | some old =>
    by_cases hq : q = old
    · exact .inr (by simp [World.requestCancel, hq])
    · refine h.imp (fun ha => ?_) (fun hc => ?_)
      · by_cases hr : r' = r
        · subst hr
          by_cases hm : m' = m
          · rw [hm, hOld] at ha
            exact absurd (Option.some.inj ha).symm hq
          · simpa [World.requestCancel, hm] using ha
        · simpa [World.requestCancel, hr] using ha
      · simpa [World.requestCancel, hq] using hc

theorem sameCore_schedule (w : World) (active : Nat → Id → Option Nat) (o : Option Nat) :
    SameCore w ({ w with active := active }.requestCancel o) := by
  cases o with
  | none => exact ⟨rfl, rfl, rfl, rfl, rfl, fun _ h => h⟩
  | some p => exact ⟨rfl, rfl, rfl, rfl, rfl, fun _ h => h⟩

theorem cancelling_requestCancel (w : World) (o : Option Nat) (h : w.cancelling q = true) :
    (w.requestCancel o).cancelling q = true := by
  cases o with
  | none => exact h
  | some p =>
    by_cases hp : q = p
    · simp [World.requestCancel, hp]
    · simpa [World.requestCancel, hp] using h

theorem sameCore_delivered : SameCore w (w.delivered pid) :=
  ⟨rfl, rfl, rfl, rfl, rfl, fun _ h => h⟩

theorem registered_delivered (hq : q ≠ pid) (r : Nat) (m : Id) (h : Registered w r m q) :
    Registered (w.delivered pid) r m q := by
  unfold Registered World.delivered at *
  simpa [hq] using h

theorem rely_acquire {r : RowRef} (hFree : w.free r pid) : Rely q w (w.acquire r pid) := by
  refine { Rely.refl q w with later := ⟨?_, ?_, ?_, ?_, ?_, ?_⟩, lock := fun r' hr' => ?_ }
  · exact (Later.refl w).matchQuestions
  · exact (Later.refl w).matches'
  · exact (Later.refl w).questionsOf
  · exact fun _ h => h
  · exact fun _ h => h
  · exact fun _ h => h
  · by_cases h : r' = r
    · subst h
      have hPid : q = pid := by
        unfold World.free at hFree
        simp [hr'] at hFree
        exact hFree
      simp [World.acquire, hPid]
    · simpa [World.acquire, h] using hr'

theorem lock_acquire (w : World) (r : RowRef) (pid : Nat) : (w.acquire r pid).lock r = some pid := by
  simp [World.acquire]

theorem inv_acquire {r : RowRef} (hInv : Inv n w) (hFree : w.free r pid) :
    Inv n (w.acquire r pid) := by
  have hLock : ∀ p r', w.lock r' = some p → (w.acquire r pid).lock r' = some p :=
    fun p => (rely_acquire hFree).lock
  refine { hInv with locked := fun p wr hwr r' hr' => ?_, roomLocked := fun p i st ea hwr => ?_ }
  · exact hLock p r' (hInv.locked p wr hwr r' hr')
  · obtain ⟨m, hm, hi, hl⟩ := hInv.roomLocked p i st ea hwr
    exact ⟨m, hm, hi, hLock p _ hl⟩

theorem rely_endTx (hq : q ≠ pid) : Rely q w (w.endTx pid) := by
  refine { Rely.refl q w with
    later := { Later.refl w with }, lock := fun r hr => ?_, tx := ?_ }
  · simp [World.endTx, hr, hq]
  · simp [World.endTx, hq]

theorem inv_endTx (hInv : Inv n w) : Inv n (w.endTx pid) := by
  have hWrites : ∀ p, ∀ wr ∈ ((w.endTx pid).tx p).writes, p ≠ pid ∧ wr ∈ (w.tx p).writes := by
    intro p wr hwr
    by_cases hp : p = pid
    · subst hp
      simp [World.endTx] at hwr
    · exact ⟨hp, by simpa [World.endTx, hp] using hwr⟩
  refine { hInv with
    idle := fun p hp => ?_, locked := fun p wr hwr r hr => ?_
    roomLocked := fun p i st ea hwr => ?_, uncollided := fun p wr hwr => ?_
    apart := fun p => ?_, disjoint := fun p p' hne a ha b hb => ?_ }
  · by_cases h : p = pid
    · simp [World.endTx, h]
    · simpa [World.endTx, h] using hInv.idle p hp
  · obtain ⟨hp, hwr⟩ := hWrites p wr hwr
    exact (rely_endTx hp).lock r (hInv.locked p wr hwr r hr)
  · obtain ⟨hp, hwr⟩ := hWrites p _ hwr
    obtain ⟨m, hm, hi, hl⟩ := hInv.roomLocked p i st ea hwr
    exact ⟨m, hm, hi, (rely_endTx hp).lock _ hl⟩
  · exact hInv.uncollided p wr (hWrites p wr hwr).2
  · by_cases h : p = pid
    · simp [World.endTx, h]
    · simpa [World.endTx, h] using hInv.apart p
  · exact hInv.disjoint p p' hne a (hWrites p a ha).2 b (hWrites p' b hb).2

theorem noteRead_cases (w : World) (pid : Nat) (query : Query) :
    w.noteRead pid query = w ∨ ∃ a, w.noteRead pid query =
      { w with tx := Function.update w.tx pid { w.tx pid with aggregated := some a } } := by
  cases query with
  | submissionsOfMatch m => exact .inr ⟨_, rfl⟩
  | _ => exact .inl rfl

theorem rely_noteRead (hq : q ≠ pid) (query : Query) : Rely q w (w.noteRead pid query) := by
  obtain h | ⟨a, h⟩ := noteRead_cases w pid query
  · rw [h]
    exact .refl q w
  · rw [h]
    exact { Rely.refl q w with later := { Later.refl w with }, tx := by simp [hq] }

theorem inv_noteRead (hInv : Inv n w) (hPid : pid < n) (query : Query) :
    Inv n (w.noteRead pid query) := by
  obtain h | ⟨a, h⟩ := noteRead_cases w pid query
  · rw [h]
    exact hInv
  · rw [h]
    have hWrites : ∀ p, ((Function.update w.tx pid { w.tx pid with aggregated := some a }) p).writes =
        (w.tx p).writes := by
      intro p
      by_cases hp : p = pid <;> simp [hp]
    refine { hInv with
      idle := fun p hp => ?_, locked := fun p => ?_, roomLocked := fun p => ?_
      uncollided := fun p => ?_, apart := fun p => ?_, disjoint := fun p p' => ?_ }
    · have hne : p ≠ pid := by omega
      simpa [hne] using hInv.idle p hp
    · rw [hWrites]
      exact hInv.locked p
    · rw [hWrites]
      exact hInv.roomLocked p
    · rw [hWrites]
      exact hInv.uncollided p
    · rw [hWrites]
      exact hInv.apart p
    · rw [hWrites, hWrites]
      exact hInv.disjoint p p'

theorem violates_false {db : Db} (h : violates ws db = false) :
    (∀ wr ∈ ws, wr.collides db = false) ∧ ws.Pairwise fun a b => a.collidesWith b = false := by
  induction ws generalizing db with
  | nil => simp
  | cons wr ws ih =>
    simp only [violates, Bool.or_eq_false_iff] at h
    obtain ⟨hDb, hApart⟩ := ih h.2
    have hSplit : ∀ a ∈ ws, a.collides db = false ∧ a.collidesWith wr = false := by
      intro a ha
      have hCol := hDb a ha
      rw [collides_apply, Bool.or_eq_false_iff] at hCol
      exact hCol
    refine ⟨List.forall_mem_cons.mpr ⟨h.1, fun a ha => (hSplit a ha).1⟩, ?_⟩
    refine List.pairwise_cons.mpr ⟨fun a ha => ?_, hApart⟩
    rw [collidesWith_comm]
    exact (hSplit a ha).2

theorem blocked_false {fresh : Nat} (h : w.blocked pid fresh ws = false) {wr : Write} (hwr : wr ∈ ws) :
    (∀ r, wr.target = some r → w.free r pid) ∧
      ∀ p, p < fresh → p ≠ pid → ∀ b ∈ (w.tx p).writes, wr.collidesWith b = false := by
  have hWr := List.any_eq_false.mp h wr hwr
  simp only [Bool.or_eq_true, not_or, Bool.not_eq_true] at hWr
  refine ⟨fun r hr => ?_, fun p hp hne b hb => ?_⟩
  · simpa [hr] using hWr.1
  · have hOpen := List.any_eq_false.mp hWr.2 p (List.mem_range.mpr hp)
    simp only [ne_eq, hne, not_false_eq_true, decide_true, Bool.true_and] at hOpen
    simpa using List.any_eq_false.mp (Bool.not_eq_true _ ▸ hOpen) b hb

theorem acquireAll_spec (hFree : ∀ wr ∈ ws, ∀ r, wr.target = some r → w.free r pid) :
    (∃ l, w.acquireAll pid ws = { w with lock := l }) ∧
    (∀ p r, w.lock r = some p → (w.acquireAll pid ws).lock r = some p) ∧
    ∀ wr ∈ ws, ∀ r, wr.target = some r → (w.acquireAll pid ws).lock r = some pid := by
  have hRows : ∀ r ∈ ws.filterMap Write.target, w.free r pid := by
    intro r hr
    obtain ⟨wr, hwr, hTarget⟩ := List.mem_filterMap.mp hr
    exact hFree wr hwr r hTarget
  have hKey : ∀ rs : List RowRef, ∀ v : World, (∀ r ∈ rs, v.free r pid) →
      (∃ l, rs.foldl (fun w r => w.acquire r pid) v = { v with lock := l }) ∧
      (∀ p r, v.lock r = some p → (rs.foldl (fun w r => w.acquire r pid) v).lock r = some p) ∧
      ∀ r ∈ rs, (rs.foldl (fun w r => w.acquire r pid) v).lock r = some pid := by
    intro rs
    induction rs with
    | nil => exact fun v _ => ⟨⟨v.lock, rfl⟩, fun _ _ h => h, by simp⟩
    | cons r rs ih =>
      intro v hv
      obtain ⟨hr, hrs⟩ := List.forall_mem_cons.mp hv
      have hv' : ∀ r' ∈ rs, (v.acquire r pid).free r' pid := by
        intro r' hr'
        by_cases h : r' = r
        · simp [World.free, World.acquire, h]
        · simpa [World.free, World.acquire, h] using hrs r' hr'
      obtain ⟨⟨l, hl⟩, hKeep, hGet⟩ := ih (v.acquire r pid) hv'
      refine ⟨⟨l, by rw [List.foldl_cons, hl]; rfl⟩, fun p r' h => ?_, ?_⟩
      · exact hKeep p r' ((rely_acquire hr).lock r' h)
      · exact List.forall_mem_cons.mpr ⟨hKeep pid r (lock_acquire v r pid), hGet⟩
  obtain ⟨hForm, hKeep, hGet⟩ := hKey _ w hRows
  exact ⟨hForm, hKeep, fun wr hwr r hr => hGet r (List.mem_filterMap.mpr ⟨wr, hwr, hr⟩)⟩

/-- A flush that neither collides nor waits. -/
structure Flushable (w : World) (pid fresh : Nat) (ws : List Write) : Prop where
  unviolated : violates ws (w.view pid) = false
  unblocked : w.blocked pid fresh ws = false

theorem rely_flush (hOk : Flushable w pid n ws) (hq : q ≠ pid) :
    Rely q w ((w.acquireAll pid ws).addWrites pid ws) := by
  obtain ⟨⟨l, hl⟩, hKeep, -⟩ := acquireAll_spec fun wr hwr => (blocked_false hOk.unblocked hwr).1
  rw [hl] at hKeep ⊢
  exact { Rely.refl q w with
    later := { Later.refl w with }
    tx := by simp [World.addWrites, hq]
    lock := hKeep q }

theorem inv_flush (hInv : Inv n w) (hPid : pid < n) (hOk : Flushable w pid n ws)
    (hRoom : ∀ i st ea, .updateMatch i st ea ∈ ws →
      ∃ m ∈ w.db.matches', m.id = i ∧ w.lock (.room m.roomId) = some pid) :
    Inv n ((w.acquireAll pid ws).addWrites pid ws) := by
  obtain ⟨⟨l, hl⟩, hKeep, hGet⟩ := acquireAll_spec fun wr hwr => (blocked_false hOk.unblocked hwr).1
  rw [hl] at hKeep hGet ⊢
  obtain ⟨hView, hApart⟩ := violates_false hOk.unviolated
  have hNew : ∀ wr ∈ ws, wr.collides w.db = false ∧
      ∀ b ∈ (w.tx pid).writes, wr.collidesWith b = false := by
    intro wr hwr
    have hCol := hView wr hwr
    rw [World.view, collides_applyAll, Bool.or_eq_false_iff] at hCol
    exact ⟨hCol.1, fun b hb => by simpa using List.any_eq_false.mp hCol.2 b hb⟩
  have hOther : ∀ wr ∈ ws, ∀ p, p ≠ pid → ∀ b ∈ (w.tx p).writes, wr.collidesWith b = false := by
    intro wr hwr p hp b hb
    by_cases hlt : p < n
    · exact (blocked_false hOk.unblocked hwr).2 p hlt hp b hb
    · rw [hInv.idle p (by omega)] at hb
      cases hb
  have hSelf : (({ w with lock := l }.addWrites pid ws).tx pid).writes = (w.tx pid).writes ++ ws := by
    simp [World.addWrites]
  have hElse : ∀ p, p ≠ pid → ({ w with lock := l }.addWrites pid ws).tx p = w.tx p := by
    intro p hp
    simp [World.addWrites, hp]
  have hWrites : ∀ p, ∀ wr ∈ (({ w with lock := l }.addWrites pid ws).tx p).writes,
      wr ∈ (w.tx p).writes ∨ (p = pid ∧ wr ∈ ws) := by
    intro p wr hwr
    by_cases hp : p = pid
    · subst hp
      rw [hSelf, List.mem_append] at hwr
      exact hwr.imp_right fun h => ⟨rfl, h⟩
    · rw [hElse p hp] at hwr
      exact .inl hwr
  refine { hInv with
    idle := fun p hp => ?_, locked := fun p wr hwr r hr => ?_
    roomLocked := fun p i st ea hwr => ?_, uncollided := fun p wr hwr => ?_
    apart := fun p => ?_, disjoint := fun p p' hne a ha b hb => ?_ }
  · rw [hElse p (by omega)]
    exact hInv.idle p hp
  · obtain hOld | ⟨rfl, hIn⟩ := hWrites p wr hwr
    · exact hKeep p r (hInv.locked p wr hOld r hr)
    · exact hGet wr hIn r hr
  · obtain hOld | ⟨rfl, hIn⟩ := hWrites p _ hwr
    · obtain ⟨m, hm, hi, hLock⟩ := hInv.roomLocked p i st ea hOld
      exact ⟨m, hm, hi, hKeep p _ hLock⟩
    · obtain ⟨m, hm, hi, hLock⟩ := hRoom i st ea hIn
      exact ⟨m, hm, hi, hKeep p _ hLock⟩
  · obtain hOld | ⟨rfl, hIn⟩ := hWrites p wr hwr
    · exact hInv.uncollided p wr hOld
    · exact (hNew wr hIn).1
  · by_cases hp : p = pid
    · subst hp
      rw [hSelf, List.pairwise_append]
      refine ⟨hInv.apart p, hApart, fun a ha b hb => ?_⟩
      rw [collidesWith_comm]
      exact (hNew b hb).2 a ha
    · rw [hElse p hp]
      exact hInv.apart p
  · obtain ha' | ⟨rfl, ha'⟩ := hWrites p a ha
    · obtain hb' | ⟨rfl, hb'⟩ := hWrites p' b hb
      · exact hInv.disjoint p p' hne a ha' b hb'
      · rw [collidesWith_comm]
        exact hOther b hb' p hne a ha'
    · obtain hb' | ⟨rfl, -⟩ := hWrites p' b hb
      · exact hOther a ha' p' (Ne.symm hne) b hb'
      · exact absurd rfl hne

end

end LiveQuiz
