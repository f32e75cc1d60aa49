import LiveQuiz.Publisher.Contract

/-! # The publisher keeps its contract

Each call and each environment action keeps the invariant and leaves the other programs
what they rely on; each round of the loop makes only calls that meet their needs.
-/

namespace LiveQuiz.Publisher

open Coroutine

set_option autoImplicit false

section

variable {w w' : World} {pid q r n : Nat} {o : Op} {d : Decision} {out : Answer o}

theorem SameCore.rely (h : SameCore w w') (q : Nat) : Rely q w w' where
  dead hDead := by rwa [h.dead]
  leaves _ := h.leaves q

theorem sameCore_note (w : World) (r : Nat) (e : Event) : SameCore w (w.note r e) :=
  ⟨rfl, rfl, rfl, rfl, rfl, List.subset_append_left _ _⟩

theorem sameCore_setBackoff (w : World) (r : Nat) (i : Id) (b : Option ℚ) :
    SameCore w (w.setBackoff r i b) := ⟨rfl, rfl, rfl, rfl, rfl, fun _ h => h⟩

theorem SameCore.refl (w : World) : SameCore w w := ⟨rfl, rfl, rfl, rfl, rfl, fun _ h => h⟩

/-- A call keeps the invariant and what the other programs rely on. -/
abbrev Keeping (n pid : Nat) (w : World) (out : Answer o) : Prop :=
  Inv (n + out.spawned.toList.length) out.shared ∧ ∀ q, q < n → q ≠ pid → Rely q w out.shared

theorem SameCore.keeping (h : SameCore w w') (hInv : Inv n w) {res : Except Exn o.Res} :
    Keeping n pid w (⟨w', res, none⟩ : Answer o) :=
  ⟨h.inv hInv, fun q _ _ => h.rely q⟩

theorem keeping_of_leaves {res : Except Exn o.Res} (hInv : Inv n w') (hDead : w'.dead = w.dead)
    (hLeaves : ∀ q, q ≠ pid → Leaves q w w') : Keeping n pid w (⟨w', res, none⟩ : Answer o) := by
  refine ⟨hInv, fun q _ hq => ⟨fun h => ?_, fun _ => hLeaves q hq⟩⟩
  rwa [hDead]

theorem perform_keeping (hInv : Inv n w) (hRun : w.process r = some pid) (hNeeds : Needs w pid o)
    (h : perform w r pid n o d = some out) : Keeping n pid w out := by
  have hPid := (hInv.running r pid hRun).1
  cases o with
  | stopRequested =>
    cases h
    exact (SameCore.refl w).keeping hInv
  | begin' =>
    cases h
    refine keeping_of_leaves (begin_inv hInv hPid w.now) rfl fun q hq => ?_
    exact ⟨Function.update_of_ne hq _ _, fun _ h => h, fun _ h _ => h, fun row h => ⟨row, h, rfl⟩,
      fun _ h => h⟩
  | selectBatch limit =>
    cases h
    exact keeping_of_leaves (select_inv hInv pid limit d.order) rfl
      fun q hq => claimed_leaves batch_free hq
  | sendAndWait topic envelope =>
    cases h
    exact (sameCore_note w r _).keeping hInv
  | incrementAttempts i =>
    obtain ⟨w₁, hUpdate, rfl⟩ := Option.map_eq_some_iff.mp h
    obtain ⟨hFree, hEq⟩ := update_eq hUpdate
    refine keeping_of_leaves (update_inv hInv ?_ ?_ hUpdate) (by rw [hEq]; rfl) fun q hq => ?_
    · exact fun _ _ h => by cases h
    · rintro j ⟨⟩
      exact hNeeds
    · rw [hEq]
      exact claimed_leaves hFree hq
  | markPublished ids =>
    obtain ⟨w₁, hUpdate, rfl⟩ := Option.map_eq_some_iff.mp h
    obtain ⟨hFree, hEq⟩ := update_eq hUpdate
    refine keeping_of_leaves (update_inv hInv ?_ ?_ hUpdate) (by rw [hEq]; rfl) fun q hq => ?_
    · rintro ids' a ⟨⟩
      exact hNeeds
    · exact fun _ h => by cases h
    · rw [hEq]
      exact claimed_leaves hFree hq
  | commit =>
    cases h
    exact keeping_of_leaves (commit_inv hInv pid) rfl fun q hq => commit_leaves hInv hq
  | rollback =>
    cases h
    exact keeping_of_leaves (endTx_inv hInv pid) rfl fun q hq => endTx_leaves w hq
  | popBackoff i =>
    cases h
    exact (sameCore_setBackoff w r i _).keeping hInv
  | doubleBackoff i =>
    cases h
    exact (sameCore_setBackoff w r i _).keeping hInv
  | backoffs =>
    cases h
    exact (SameCore.refl w).keeping hInv
  | sleep s =>
    cases h
    exact (sameCore_note w r _).keeping hInv
  | waitStop s =>
    simp only [perform] at h
    split at h
    · cases h
      exact (SameCore.refl w).keeping hInv
    · cases h
      exact (sameCore_note w r _).keeping hInv
  | loop =>
    cases h
    refine ⟨spawn_inv hInv rfl rfl rfl rfl rfl rfl, fun q _ _ => ⟨fun h => h, fun _ => ?_⟩⟩
    exact ⟨rfl, fun _ h => h, fun _ h _ => h, fun row h => ⟨row, h, rfl⟩, fun _ h => h⟩
  | exit =>
    cases h
    have hStopped : Inv n { w with process := Function.update w.process r none } :=
      @stop_inv w r n [] hInv fun _ h => by cases h
    refine keeping_of_leaves hStopped rfl fun q _ => ?_
    exact ⟨rfl, fun _ h => h, fun _ h _ => h, fun row h => ⟨row, h, rfl⟩, fun _ h => h⟩

theorem exec_cases (h : exec w r pid n o d = some out) : w.process r = some pid ∧
    ((d.fault = .none ∧ perform w r pid n o d = some out) ∨
      (∃ e, o.raises e = true ∧ out = ⟨w.raised r pid o, .error e, none⟩) ∨
      ∃ e a, o.raises e = true ∧ o.lossy = true ∧ perform w r pid n o d = some a ∧
        out = ⟨a.shared, .error e, a.spawned⟩) := by
  simp only [exec] at h
  split at h
  · cases h
  next hRun =>
    refine ⟨not_not.mp hRun, ?_⟩
    cases hFault : d.fault with
    | none =>
      rw [hFault] at h
      exact .inl ⟨rfl, h⟩
    | fail e =>
      rw [hFault] at h
      dsimp only at h
      split at h
      next hRaises =>
        cases h
        exact .inr (.inl ⟨e, hRaises, rfl⟩)
      · cases h
    | lost e =>
      rw [hFault] at h
      dsimp only at h
      split at h
      next hRaises =>
        obtain ⟨a, ha, rfl⟩ := Option.map_eq_some_iff.mp h
        exact .inr (.inr ⟨e, a, hRaises.1, hRaises.2, ha, rfl⟩)
      · cases h

theorem raised_keeping (hInv : Inv n w) (e : Exn) :
    Keeping n pid w (⟨w.raised r pid o, .error e, none⟩ : Answer o) := by
  cases o with
  | commit => exact keeping_of_leaves (endTx_inv hInv pid) rfl fun q hq => endTx_leaves w hq
  | rollback => exact keeping_of_leaves (endTx_inv hInv pid) rfl fun q hq => endTx_leaves w hq
  | sendAndWait topic envelope => exact (sameCore_note w r _).keeping hInv
  | _ => exact (SameCore.refl w).keeping hInv

theorem exec_keeping (hInv : Inv n w) (hNeeds : w.process r = some pid → Needs w pid o)
    (h : exec w r pid n o d = some out) : Keeping n pid w out := by
  obtain ⟨hRun, ⟨-, hOk⟩ | ⟨e, -, rfl⟩ | ⟨e, a, -, -, ha, rfl⟩⟩ := exec_cases h
  · exact perform_keeping hInv hRun (hNeeds hRun) hOk
  · exact raised_keeping hInv e
  · have hKeeping : Keeping n pid w a := perform_keeping hInv hRun (hNeeds hRun) ha
    exact hKeeping

theorem insert_inv {row : OutboxRow} (hInv : Inv n w) (hNew : row.publishedAt = none)
    (hZero : row.publishAttempts = 0) (hFresh : w.table.all (·.id ≠ row.id)) :
    Inv n { w with table := w.table ++ [row] } where
  ids := by
    rw [List.map_append, List.map_singleton, List.nodup_append_comm]
    refine List.nodup_cons.mpr ⟨fun hIn => ?_, hInv.ids⟩
    obtain ⟨r, hr, hEq⟩ := List.mem_map.mp hIn
    have := List.all_eq_true.mp hFresh r hr
    exact of_decide_eq_true this hEq
  attempts r hr := by
    obtain hOld | hLast := List.mem_append.mp hr
    · exact hInv.attempts r hOld
    · rw [List.mem_singleton.mp hLast, hZero]
      exact Nat.zero_le _
  published r hr hSome := by
    obtain hOld | hLast := List.mem_append.mp hr
    · exact hInv.published r hOld hSome
    · rw [List.mem_singleton.mp hLast, hNew] at hSome
      cases hSome
  tx q tx hTx := (hInv.tx q tx hTx).mono (fun _ h => h) (fun _ h _ => List.mem_append_left _ h)
    (fun r h => ⟨r, List.mem_append_left _ h, rfl⟩) fun _ h => h
  idle := hInv.idle
  running := hInv.running
  owner := hInv.owner
  dead := hInv.dead

theorem env_keeping {e : EnvAction} {out : World × Option Nat} (hInv : Inv n w)
    (h : env w n e = some out) :
    Inv (n + out.2.toList.length) out.1 ∧ ∀ q, q < n → Rely q w out.1 := by
  have hSame : ∀ {w'}, SameCore w w' → Inv n w' ∧ ∀ q, q < n → Rely q w w' :=
    fun h => ⟨h.inv hInv, fun q _ => h.rely q⟩
  cases e with
  | insert row =>
    simp only [env] at h
    split at h
    next hOk =>
      cases h
      refine ⟨insert_inv hInv hOk.1 hOk.2.1 hOk.2.2, fun q _ => ⟨fun h => h, fun _ => ?_⟩⟩
      exact ⟨rfl, fun _ h => h, fun _ h _ => List.mem_append_left _ h,
        fun r h => ⟨r, List.mem_append_left _ h, rfl⟩, fun _ h => h⟩
    · cases h
  | boot r =>
    simp only [env] at h
    split at h
    · cases h
      refine ⟨spawn_inv hInv rfl rfl rfl rfl rfl rfl, fun q _ => ⟨fun h => h, fun _ => ?_⟩⟩
      exact ⟨rfl, fun _ h => h, fun _ h _ => h, fun row h => ⟨row, h, rfl⟩, fun _ h => h⟩
    · cases h
  | crash r =>
    cases h
    refine ⟨stop_inv hInv fun q hq => by simpa using hq, fun q _ => ⟨fun h => ?_, fun _ => ?_⟩⟩
    · exact List.mem_append_right _ h
    · exact ⟨rfl, fun _ h => h, fun _ h _ => h, fun row h => ⟨row, h, rfl⟩, fun _ h => h⟩
  | reap pid =>
    simp only [env] at h
    split at h
    next hDead =>
      cases h
      refine ⟨endTx_inv hInv pid, fun q _ => ⟨fun h => h, fun hLive => ?_⟩⟩
      exact endTx_leaves w fun hEq => hLive (hEq ▸ hDead)
    · cases h
  | sigterm r =>
    cases h
    exact hSame ⟨rfl, rfl, rfl, rfl, rfl, fun _ h => h⟩
  | tick dt =>
    cases h
    exact hSame ⟨rfl, rfl, rfl, rfl, rfl, fun _ h => h⟩

end

/-- From `w`, every call of `p` meets its needs and every normal end meets `Q`. -/
def Runs {α : Type} (pid r : Nat) (p : Coro α) (Q : α → World → Prop) (w : World) : Prop :=
  wp publisher contract pid r p (fun res w' => ∀ a, res = .ok a → Q a w') w

section

variable {w : World} {pid r : Nat} {α β : Type}

namespace Runs

theorem pure {a : α} {Q : α → World → Prop} (h : Q a w) : Runs pid r (pure a) Q w := by
  intro a' ha
  cases ha
  exact h

theorem throw {e : Exn} {Q : α → World → Prop} : Runs pid r (throw e) Q w := by
  intro a ha
  cases ha

theorem mono {p : Coro α} {Q Q' : α → World → Prop} (h : Runs pid r p Q w)
    (hQ : ∀ a w, Q a w → Q' a w) : Runs pid r p Q' w :=
  wp_mono h fun _ _ hr a ha => hQ a _ (hr a ha)

theorem bind {p : Coro α} {f : α → Coro β} {Q : β → World → Prop}
    (h : Runs pid r p (fun a w => Runs pid r (f a) Q w) w) : Runs pid r (p >>= f) Q w := by
  refine wp_bind (wp_mono h fun res s hr => ?_)
  cases res with
  | ok a => exact hr a rfl
  | error e => exact fun _ ha => by cases ha

theorem map {p : Coro α} {f : α → β} {Q : β → World → Prop}
    (h : Runs pid r p (fun a w => Q (f a) w) w) : Runs pid r (f <$> p) Q w :=
  bind (h.mono fun _ _ => pure)

theorem handle {p : Coro α} {f : Exn → Coro α} {Q : α → World → Prop} (h : Runs pid r p Q w)
    (hHandler : ∀ e w, Runs pid r (f e) Q w) : Runs pid r (p.handle f) Q w := by
  refine wp_handle (wp_mono h fun res s hr => ?_)
  cases res with
  | ok a => exact hr
  | error e => exact hHandler e s

theorem call {o : Op} {Q : Except Exn o.Res → World → Prop}
    (h : ∀ w₁ n, Leaves pid w w₁ → Inv n w₁ → Needs w₁ pid o ∧
      ∀ d out, exec w₁ r pid n o d = some out → Q out.result out.shared) :
    wp publisher contract pid r (ask o) Q w := by
  intro w₁ n _ hRely hInv
  have hLive : w₁.process r = some pid → Needs w₁ pid o ∧
      ∀ d out, exec w₁ r pid n o d = some out → Q out.result out.shared := by
    intro hRun
    exact h w₁ n (hRely.leaves (hInv.running r pid hRun).2) hInv
  refine ⟨fun hRun => (hLive hRun).1, fun d out hExec => ?_⟩
  exact (hLive (exec_cases hExec).1).2 d out hExec

theorem ask {o : Op} {Q : o.Res → World → Prop}
    (h : ∀ w₁ n, Leaves pid w w₁ → Inv n w₁ → Needs w₁ pid o ∧
      ∀ d out a, perform w₁ r pid n o d = some out → out.result = .ok a → Q a out.shared) :
    Runs pid r (ask o) Q w := by
  refine call fun w₁ n hLeaves hInv => ⟨(h w₁ n hLeaves hInv).1, fun d out hExec a ha => ?_⟩
  obtain ⟨-, ⟨-, hOk⟩ | ⟨e, -, rfl⟩ | ⟨e, b, -, -, -, rfl⟩⟩ := exec_cases hExec
  · exact (h w₁ n hLeaves hInv).2 d out a hOk ha
  · cases ha
  · cases ha

theorem any {o : Op} (h : ∀ w₁, Needs w₁ pid o) : Runs pid r (LiveQuiz.Publisher.ask o) (fun _ _ => True) w :=
  ask fun w₁ _ _ _ => ⟨h w₁, fun _ _ _ _ _ => trivial⟩

theorem skip {o : Op} {f : o.Res → Coro β} {Q : β → World → Prop} (h : ∀ w₁, Needs w₁ pid o)
    (hNext : ∀ a w', Runs pid r (f a) Q w') : Runs pid r (LiveQuiz.Publisher.ask o >>= f) Q w :=
  bind ((any h).mono fun a w' _ => hNext a w')

theorem quiet {o : Op} {Q : o.Res → World → Prop} (hNeeds : ∀ w₁, Needs w₁ pid o)
    (hSame : ∀ w₁ n d (out : Answer o), perform w₁ r pid n o d = some out → SameCore w₁ out.shared)
    (h : ∀ w' a, Leaves pid w w' → Q a w') : Runs pid r (LiveQuiz.Publisher.ask o) Q w := by
  refine ask fun w₁ n hLeaves _ => ⟨hNeeds w₁, fun d out a hOk _ => ?_⟩
  exact h out.shared a (hLeaves.trans ((hSame w₁ n d out hOk).leaves pid))

end Runs

theorem runs_sent {topic : String} {envelope : Envelope} {Q : Bool → World → Prop}
    (h : ∀ w' b, Leaves pid w w' →
      (b = true → ∃ replica, (replica, .acked topic envelope) ∈ w'.log) → Q b w') :
    Runs pid r (sent topic envelope) Q w := by
  refine wp_handle (wp_bind (Runs.call fun w₁ n hLeaves _ => ⟨trivial, fun d out hExec => ?_⟩))
  obtain ⟨-, ⟨-, hOk⟩ | ⟨e, -, rfl⟩ | ⟨e, b, -, hLossy, -, rfl⟩⟩ := exec_cases hExec
  · cases hOk
    rintro _ ⟨⟩
    refine h _ true (hLeaves.trans ((sameCore_note w₁ r _).leaves pid)) fun _ => ⟨r, ?_⟩
    exact List.mem_append_right _ (List.mem_singleton_self _)
  · have hFalse : Q false (w₁.note r (.refused topic envelope)) :=
      h _ false (hLeaves.trans ((sameCore_note w₁ r _).leaves pid)) fun h => by cases h
    cases e with
    | kafka => exact Runs.pure hFalse
    | fault => exact Runs.throw
    | cancelled => exact Runs.throw
  · cases hLossy

/-- The rows still to process and the ids published so far, inside the batch. -/
structure Working (w : World) (pid : Nat) (rows : List OutboxRow) (ids : List Id) : Prop where
  held : ∀ row ∈ rows, row ∈ w.table ∧ w.lock row.id = some pid
  apart : (rows.map OutboxRow.id).Nodup
  uncounted : ∀ row ∈ rows, row.id ∉ (w.writes pid).filterMap Write.incremented
  acked : ∀ i ∈ ids, AckedId w i

variable {rows : List OutboxRow} {row : OutboxRow} {ids : List Id} {w' : World}

theorem Leaves.writes (h : Leaves pid w w') : w'.writes pid = w.writes pid := by
  rw [World.writes, World.writes, h.tx]

theorem Working.leaves (h : Working w pid rows ids) (hLeaves : Leaves pid w w') :
    Working w' pid rows ids where
  held row hRow := by
    obtain ⟨hMem, hLock⟩ := h.held row hRow
    exact ⟨hLeaves.rows row hMem hLock, hLeaves.lock row.id hLock⟩
  apart := h.apart
  uncounted row hRow := by
    rw [hLeaves.writes]
    exact h.uncounted row hRow
  acked i hi := (h.acked i hi).mono hLeaves.later hLeaves.log

theorem Working.tail (h : Working w pid (row :: rows) ids) : Working w pid rows ids where
  held row' hRow := h.held row' (List.mem_cons_of_mem _ hRow)
  apart := (List.nodup_cons.mp h.apart).2
  uncounted row' hRow := h.uncounted row' (List.mem_cons_of_mem _ hRow)
  acked := h.acked

theorem Working.publish {topic : String} (h : Working w pid (row :: rows) ids)
    (hTopic : topic = topicFor row.eventType ∨ topic = topicDeadLetter)
    (hSent : ∃ replica, (replica, .acked topic (buildEnvelope row)) ∈ w.log) :
    Working w pid rows (ids ++ [row.id]) where
  held := h.tail.held
  apart := h.tail.apart
  uncounted := h.tail.uncounted
  acked i hi := by
    obtain hOld | hLast := List.mem_append.mp hi
    · exact h.acked i hOld
    · obtain ⟨replica, hMem⟩ := hSent
      rw [List.mem_singleton.mp hLast]
      exact ⟨row, (h.held row List.mem_cons_self).1, rfl, replica, topic, hMem, hTopic⟩

theorem Working.increment (h : Working w pid (row :: rows) ids)
    (hUpdate : update w pid (.incrementAttempts row.id) = some w') : Working w' pid rows ids := by
  obtain ⟨hFree, rfl⟩ := update_eq hUpdate
  obtain ⟨hNot, hApart⟩ := List.nodup_cons.mp h.apart
  constructor
  case held =>
    intro row' hRow
    obtain ⟨hMem, hLock⟩ := h.tail.held row' hRow
    exact ⟨hMem, claimed_lock hLock hFree⟩
  case apart => exact hApart
  case uncounted =>
    intro row' hRow hIn
    have hOld := h.tail.uncounted row' hRow
    cases hTx : w.tx pid with
    | none => simp [World.writes, World.claimed, World.modifyTx, World.lockAll, hTx] at hIn
    | some tx =>
      have hWrites : w.writes pid = tx.writes := by simp [World.writes, hTx]
      have hNew : (w.claimed pid (Write.incrementAttempts row.id).ids fun tx =>
          { tx with writes := tx.writes ++ [.incrementAttempts row.id] }).writes pid =
          tx.writes ++ [.incrementAttempts row.id] := by
        simp [World.writes, World.claimed, World.modifyTx, World.lockAll, hTx]
      rw [hWrites] at hOld
      rw [hNew, List.filterMap_append] at hIn
      obtain hBefore | hLast := List.mem_append.mp hIn
      · exact hOld hBefore
      · have hEq : row'.id = row.id := List.mem_singleton.mp hLast
        exact hNot (hEq ▸ List.mem_map_of_mem hRow)
  case acked => exact h.acked

theorem runs_processRow (h : Working w pid (row :: rows) ids) :
    Runs pid r (processRow row)
      (fun b w' => Working w' pid rows (if b then ids ++ [row.id] else ids)) w := by
  have hPop : ∀ {w₁ : World} {topic : String}, Leaves pid w w₁ →
      (topic = topicFor row.eventType ∨ topic = topicDeadLetter) →
      (∃ replica, (replica, .acked topic (buildEnvelope row)) ∈ w₁.log) →
      Runs pid r (do ask (.popBackoff row.id); return true)
        (fun b w' => Working w' pid rows (if b then ids ++ [row.id] else ids)) w₁ := by
    intro w₁ topic hLeaves hTopic hSent
    refine Runs.bind (Runs.quiet (fun _ => trivial) ?_ fun w₂ _ hLeaves' => Runs.pure ?_)
    · intro w₂ n d out hOk
      cases hOk
      exact sameCore_setBackoff _ _ _ _
    · exact ((h.leaves hLeaves).publish hTopic hSent).leaves hLeaves'
  unfold processRow
  dsimp only
  split
  · refine Runs.bind (runs_sent fun w₁ b hLeaves hSent => ?_)
    cases b with
    | true => exact hPop hLeaves (.inr rfl) (hSent rfl)
    | false => exact Runs.pure (h.leaves hLeaves).tail
  next hFew =>
    refine Runs.bind (runs_sent fun w₁ b hLeaves hSent => ?_)
    cases b with
    | true => exact hPop hLeaves (.inl rfl) (hSent rfl)
    | false =>
      refine Runs.bind (Runs.ask fun w₂ n hLeaves' _ => ?_)
      have h₂ := (h.leaves hLeaves).leaves hLeaves'
      refine ⟨⟨⟨row, (h₂.held row List.mem_cons_self).1, rfl, by omega⟩,
        h₂.uncounted row List.mem_cons_self⟩, fun d out _ hOk _ => ?_⟩
      obtain ⟨w₃, hUpdate, rfl⟩ := Option.map_eq_some_iff.mp hOk
      have h₃ := h₂.increment hUpdate
      refine Runs.bind (Runs.quiet (fun _ => trivial) ?_ fun w₄ _ hLeaves'' => Runs.pure ?_)
      · intro w₄ n d out hOk
        cases hOk
        exact sameCore_setBackoff _ _ _ _
      · exact h₃.leaves hLeaves''

theorem runs_processRows (h : Working w pid rows ids) :
    Runs pid r (processRows rows ids) (fun ids' w' => ∀ i ∈ ids', AckedId w' i) w := by
  induction rows generalizing ids w with
  | nil => exact Runs.pure h.acked
  | cons row rows ih =>
    refine Runs.bind ((runs_processRow h).mono fun b w' hRest => ?_)
    cases b with
    | true => exact ih hRest
    | false => exact ih hRest

theorem batch_nodup {n : Nat} (hInv : Inv n w) (limit : Nat) (order : List Id) :
    ((w.batch limit order).map OutboxRow.id).Nodup := by
  have hAvailable : (w.available.map OutboxRow.id).Nodup :=
    (List.Sublist.map _ List.filter_sublist).nodup hInv.ids
  have hSorted : ((w.available.insertionSort fun a b => before order a b).map OutboxRow.id).Nodup :=
    ((List.perm_insertionSort _ _).map _).nodup_iff.mpr hAvailable
  exact (List.Sublist.map _ (List.take_sublist _ _)).nodup hSorted

theorem runs_inTransaction {p : Coro α}
    (h : ∀ w₁, w₁.writes pid = [] → Runs pid r p (fun _ _ => True) w₁) :
    Runs pid r (inTransaction p) (fun _ _ => True) w := by
  refine Runs.bind (Runs.ask fun w₁ _ _ _ => ⟨trivial, fun d out _ hOk _ => ?_⟩)
  cases hOk
  have hEmpty : (World.writes { w₁ with tx := Function.update w₁.tx pid (some { begunAt := w₁.now }) }
      pid) = [] := by simp [World.writes]
  refine Runs.bind (Runs.mono (Q := fun _ _ => True) (Runs.handle (h _ hEmpty) ?_) ?_)
  · exact fun e w' => Runs.skip (fun _ => trivial) fun _ _ => Runs.throw
  · exact fun a w' _ => Runs.skip (fun _ => trivial) fun _ _ => Runs.pure trivial

theorem runs_processBatch : Runs pid r processBatch (fun _ _ => True) w := by
  refine runs_inTransaction fun w₁ hEmpty => ?_
  refine Runs.bind (Runs.ask fun w₂ n hLeaves hInv => ⟨trivial, fun d out rows hOk hRows => ?_⟩)
  cases hOk
  cases hRows
  have hWorking : Working ((w₂.lockAll pid ((w₂.batch pollBatch d.order).map (·.id))).modifyTx pid
      fun tx => { tx with selected := (w₂.batch pollBatch d.order).map (·.id) }) pid
      (w₂.batch pollBatch d.order) [] := by
    refine ⟨?_, batch_nodup hInv _ _, ?_, fun _ h => by cases h⟩
    · exact fun row hRow => ⟨(mem_batch hRow).1, claimed_mine (List.mem_map_of_mem hRow)⟩
    · have hNone := hLeaves.writes.trans hEmpty
      intro row _ hIn
      cases hTx : w₂.tx pid with
      | none => simp [World.writes, World.modifyTx, World.lockAll, hTx] at hIn
      | some tx =>
        simp only [World.writes, hTx, Option.map_some, Option.getD_some] at hNone
        simp [World.writes, World.modifyTx, World.lockAll, hTx, hNone] at hIn
  refine Runs.bind ((runs_processRows hWorking).mono fun ids w₃ hAcked => ?_)
  split
  · refine Runs.bind (Runs.ask fun w₄ _ hLeaves' _ => ⟨?_, fun _ _ _ _ _ => Runs.pure trivial⟩)
    exact fun i hi => (hAcked i hi).mono hLeaves'.later hLeaves'.log
  · exact Runs.pure trivial

theorem runs_pollOnce : Runs pid r pollOnce (fun _ _ => True) w := by
  refine Runs.bind (Runs.mono (Q := fun _ _ => True) ?_ ?_)
  · refine Runs.handle (Runs.map runs_processBatch) fun e w' => ?_
    cases e <;> first | exact Runs.throw | exact Runs.pure trivial
  · rintro (_ | published) w' -
    · exact Runs.any fun _ => trivial
    · dsimp only
      split
      · exact Runs.skip (fun _ => trivial) fun _ _ => Runs.any fun _ => trivial
      · exact Runs.pure trivial

theorem runs_round : Runs pid r round (fun _ _ => True) w := by
  refine Runs.skip (fun _ => trivial) fun stop w' => ?_
  split
  · exact Runs.any fun _ => trivial
  · refine Runs.handle ?_ fun e w'' => Runs.any fun _ => trivial
    exact Runs.bind (runs_pollOnce.mono fun _ _ _ => Runs.any fun _ => trivial)

end

theorem sound : Sound publisher contract where
  rely_trans _ _ _ _ h h' := Rely.trans h h'
  rely_refl := Rely.refl
  post_rely _ _ _ _ _ _ _ := trivial
  exec w r pid n o d out hInv hReq _ hExec := by
    obtain ⟨hInv', hRely⟩ := exec_keeping hInv hReq hExec
    exact ⟨hInv', hRely, fun t _ => wp_mono runs_round fun _ _ _ => trivial⟩
  env w n e out hInv hEnv := by
    obtain ⟨hInv', hRely⟩ := env_keeping hInv hEnv
    exact ⟨hInv', hRely, fun t _ => wp_mono runs_round fun _ _ _ => trivial⟩

theorem kept_blank : Kept publisher contract blank := by
  refine ⟨?_, fun _ _ h => by cases h⟩
  constructor <;> simp [blank]

theorem kept_of_reach {C : PublisherState → PublisherLabel → Prop} {S : PublisherState}
    (h : publisher.Reach C blank S) : Kept publisher contract S :=
  sound.kept kept_blank h

end LiveQuiz.Publisher
