import LiveQuiz.Publisher.Run
import LiveQuiz.Lib.Layer

/-! # Counting the refused sends

The attempts of a row are counted in its transaction only after a send to its own topic
has raised, so a row at the limit has that many refused sends behind it. The runs here
are those in which every inserted row has a topic of its own.
-/

namespace LiveQuiz.Publisher

open Coroutine

set_option autoImplicit false

def Event.isSend (topic : String) (e : Envelope) (event : Event) : Prop :=
  event = .acked topic e ∨ event = .refused topic e

def refusals (log : List (Nat × Event)) (e : Envelope) : Nat :=
  log.countP fun entry => entry.2 = .refused (topicFor e.eventType) e

/-- Every send to the dead-letter topic has the refused sends it needs before it. -/
def OnlyExhausted (log : List (Nat × Event)) : Prop :=
  ∀ k replica event e, log[k]? = some (replica, event) → event.isSend topicDeadLetter e →
    maxPublishAttempts ≤ refusals (log.take k) e

def routedEnv (_ : World) : EnvAction → Bool
  | .insert row => topicFor row.eventType ≠ topicDeadLetter
  | _ => true

def routed : Machine World Op Op.Res Exn Unit Nat Decision EnvAction :=
  publisher.restrict (fun _ _ _ => true) routedEnv

def Refused (w : World) (i : Id) : Prop :=
  ∀ row ∈ w.table, row.id = i → row.publishAttempts < refusals w.log (buildEnvelope row)

structure Tallied (w : World) : Prop where
  routed : ∀ row ∈ w.table, topicFor row.eventType ≠ topicDeadLetter
  attempts : ∀ row ∈ w.table, row.publishAttempts ≤ refusals w.log (buildEnvelope row)
  pending : ∀ q i, .incrementAttempts i ∈ w.writes q → Refused w i
  exhausted : OnlyExhausted w.log

def Justified (w : World) : Op → Prop
  | .sendAndWait topic e => topic = topicDeadLetter → maxPublishAttempts ≤ refusals w.log e
  | .incrementAttempts i => Refused w i
  | _ => True

def refusalLayer : Layer World Op Nat where
  inv := Tallied
  rely _ _ _ w w' := w.log <+: w'.log
  req pid r w o := w.process r = some pid → Justified w o

section

variable {w w' : World} {pid q r n : Nat} {row : OutboxRow} {i : Id} {e : Envelope}
  {log log' : List (Nat × Event)}

theorem steady_refusals : refusalLayer.Steady where
  refl _ _ _ w := List.prefix_refl w.log
  trans _ _ _ _ _ _ h h' := h.trans h'

theorem refusals_mono (h : log <+: log') (e : Envelope) : refusals log e ≤ refusals log' e :=
  h.sublist.countP_le

theorem refusals_refused (log : List (Nat × Event)) (r : Nat) (e : Envelope) :
    refusals (log ++ [(r, .refused (topicFor e.eventType) e)]) e = refusals log e + 1 := by
  simp [refusals, List.countP_append]

theorem OnlyExhausted.snoc {event : Event} (h : OnlyExhausted log)
    (hLast : ∀ e, event.isSend topicDeadLetter e → maxPublishAttempts ≤ refusals log e) :
    OnlyExhausted (log ++ [(r, event)]) := by
  intro k replica event' e hAt hSend
  obtain hOld | hEnd := lt_or_ge k log.length
  · rw [List.getElem?_append_left hOld] at hAt
    rw [List.take_append_of_le_length hOld.le]
    exact h k replica event' e hAt hSend
  · rw [List.getElem?_append_right hEnd] at hAt
    obtain ⟨hIndex, hEq⟩ := List.getElem?_eq_some_iff.mp hAt
    simp only [List.length_singleton, Nat.lt_one_iff] at hIndex
    obtain rfl : k = log.length := by omega
    simp only [Nat.sub_self, List.getElem_cons_zero, Prod.mk.injEq] at hEq
    rw [List.take_left]
    exact hLast e (hEq.2 ▸ hSend)

/-- What a call other than a commit does: at most one event, and no new count that is not
justified. -/
structure Quiet (w w' : World) : Prop where
  table : w'.table = w.table
  log : w'.log = w.log ∨ ∃ r event, w'.log = w.log ++ [(r, event)] ∧
    ∀ e, event.isSend topicDeadLetter e → maxPublishAttempts ≤ refusals w.log e
  writes : ∀ q i, .incrementAttempts i ∈ w'.writes q →
    .incrementAttempts i ∈ w.writes q ∨ Refused w i

theorem Quiet.grows (h : Quiet w w') : w.log <+: w'.log := by
  obtain hSame | ⟨r, event, hLog, -⟩ := h.log
  · simp [hSame]
  · rw [hLog]
    exact List.prefix_append _ _

theorem Refused.mono (h : Refused w i) (hTable : w'.table = w.table) (hLog : w.log <+: w'.log) :
    Refused w' i := by
  intro row hRow hId
  rw [hTable] at hRow
  exact (h row hRow hId).trans_le (refusals_mono hLog _)

theorem Tallied.quiet (h : Tallied w) (hQuiet : Quiet w w') : Tallied w' := by
  have hGrows := hQuiet.grows
  constructor
  case routed =>
    rw [hQuiet.table]
    exact h.routed
  case attempts =>
    rw [hQuiet.table]
    exact fun row hRow => (h.attempts row hRow).trans (refusals_mono hGrows _)
  case pending =>
    intro q i hWrite
    obtain hOld | hNew := hQuiet.writes q i hWrite
    · exact (h.pending q i hOld).mono hQuiet.table hGrows
    · exact hNew.mono hQuiet.table hGrows
  case exhausted =>
    obtain hSame | ⟨r, event, hLog, hLast⟩ := hQuiet.log
    · rw [hSame]
      exact h.exhausted
    · rw [hLog]
      exact h.exhausted.snoc hLast

theorem Quiet.refl (w : World) : Quiet w w := ⟨rfl, .inl rfl, fun _ _ h => .inl h⟩

theorem endTx_writes (w : World) (pid q : Nat) :
    (w.endTx pid).writes q = if q = pid then [] else w.writes q := by
  by_cases hq : q = pid
  · subst hq
    simp [World.writes, World.endTx]
  · simp [World.writes, World.endTx, hq]

theorem quiet_endTx (w : World) (pid : Nat) : Quiet w (w.endTx pid) := by
  refine ⟨rfl, .inl rfl, fun q i hWrite => .inl ?_⟩
  rw [endTx_writes] at hWrite
  split at hWrite
  · cases hWrite
  · exact hWrite

theorem quiet_note (w : World) (r : Nat) (event : Event)
    (hSend : ∀ e, event.isSend topicDeadLetter e → maxPublishAttempts ≤ refusals w.log e) :
    Quiet w (w.note r event) :=
  ⟨rfl, .inr ⟨r, event, rfl, hSend⟩, fun _ _ h => .inl h⟩

theorem quiet_slept (w : World) (r : Nat) (s : ℚ) : Quiet w (w.note r (.slept s)) := by
  apply quiet_note
  rintro e (h | h) <;> cases h

theorem quiet_send {topic : String} {event : Event} (hJustified : Justified w (.sendAndWait topic e))
    (hEvent : event = .acked topic e ∨ event = .refused topic e) :
    Quiet w (w.note r event) := by
  apply quiet_note
  intro e' hSend
  obtain rfl | rfl := hEvent
  · obtain hEq | hEq := hSend
    · cases hEq
      exact hJustified rfl
    · cases hEq
  · obtain hEq | hEq := hSend
    · cases hEq
    · cases hEq
      exact hJustified rfl

theorem claimed_writes (w : World) (pid : Nat) (ids : List Id) (f : Tx → Tx) (q : Nat) :
    (w.claimed pid ids f).writes q =
      if q = pid then ((w.tx pid).map fun tx => (f tx).writes).getD [] else w.writes q := by
  by_cases hq : q = pid
  · subst hq
    cases hTx : w.tx q <;>
      simp [World.writes, World.claimed, World.modifyTx, World.lockAll, hTx]
  · simp [World.writes, World.claimed, World.modifyTx, World.lockAll, hq]

theorem quiet_update {wr : Write} (hWrite : ∀ i, wr = .incrementAttempts i → Refused w i)
    (h : update w pid wr = some w') : Quiet w w' := by
  obtain ⟨-, rfl⟩ := update_eq h
  refine ⟨rfl, .inl rfl, fun q i hIn => ?_⟩
  rw [claimed_writes] at hIn
  split at hIn
  case isTrue hq =>
    subst hq
    cases hTx : w.tx q with
    | none => simp [hTx] at hIn
    | some tx =>
      simp only [hTx, Option.map_some, Option.getD_some, List.mem_append,
        List.mem_singleton] at hIn
      obtain hOld | hNew := hIn
      · left
        simpa [World.writes, hTx] using hOld
      · exact .inr (hWrite i hNew.symm)
  case isFalse => exact .inl hIn

theorem quiet_select (w : World) (pid : Nat) (ids selected : List Id) :
    Quiet w (w.claimed pid ids fun tx => { tx with selected := selected }) := by
  refine ⟨rfl, .inl rfl, fun q i hIn => .inl ?_⟩
  rw [claimed_writes] at hIn
  split at hIn
  case isTrue hq =>
    subst hq
    exact hIn
  case isFalse => exact hIn

theorem quiet_begin (w : World) (pid : Nat) (at' : Micros) :
    Quiet w { w with tx := Function.update w.tx pid (some { begunAt := at' }) } := by
  refine ⟨rfl, .inl rfl, fun q i hIn => .inl ?_⟩
  by_cases hq : q = pid
  · subst hq
    simp [World.writes] at hIn
  · simpa [World.writes, hq] using hIn

theorem Tallied.commit (h : Tallied w) (hInv : Inv n w) (pid : Nat) : Tallied (w.commit pid) := by
  obtain ⟨hLocked, -, -, hOnce⟩ := writes_ok hInv pid
  have hTable : (w.commit pid).table = w.table.map (applyRows (w.writes pid)) :=
    applyAll_eq_map _ _
  have hEnvelope : ∀ row, buildEnvelope (applyRows (w.writes pid) row) = buildEnvelope row :=
    fun row => (rowEffect _ row).envelope
  constructor
  case routed =>
    intro row' hRow'
    rw [hTable] at hRow'
    obtain ⟨row, hRow, rfl⟩ := List.mem_map.mp hRow'
    have hType : (applyRows (w.writes pid) row).eventType = row.eventType :=
      congrArg Envelope.eventType (hEnvelope row)
    rw [hType]
    exact h.routed row hRow
  case attempts =>
    intro row' hRow'
    rw [hTable] at hRow'
    obtain ⟨row, hRow, rfl⟩ := List.mem_map.mp hRow'
    rw [hEnvelope, (rowEffect _ row).attempts]
    change _ ≤ refusals w.log (buildEnvelope row)
    by_cases hIn : row.id ∈ (w.writes pid).filterMap Write.incremented
    · obtain ⟨wr, hwr, hInc⟩ := List.mem_filterMap.mp hIn
      cases wr with
      | markPublished ids at' => cases hInc
      | incrementAttempts i =>
        cases hInc
        rw [List.count_eq_one_of_mem hOnce hIn]
        exact h.pending pid row.id hwr row hRow rfl
    · rw [List.count_eq_zero_of_not_mem hIn]
      exact h.attempts row hRow
  case pending =>
    intro q i hWrite row' hRow' hId
    have hOld : .incrementAttempts i ∈ w.writes q ∧ q ≠ pid := by
      change .incrementAttempts i ∈ (w.endTx pid).writes q at hWrite
      rw [endTx_writes] at hWrite
      split at hWrite
      · cases hWrite
      case isFalse hq => exact ⟨hWrite, hq⟩
    rw [hTable] at hRow'
    obtain ⟨row, hRow, rfl⟩ := List.mem_map.mp hRow'
    have hRowId : row.id = i := by rw [← hId, buildEnvelope_id (hEnvelope row)]
    -- the row is locked by the other transaction, so this commit leaves it alone
    have hLock := (writes_ok hInv q).1 _ hOld.1 i (List.mem_singleton.mpr rfl)
    have hSame : applyRows (w.writes pid) row = row := by
      apply applyRows_of_not_mem
      intro wr hwr hNamed
      have hMine := hLocked wr hwr row.id hNamed
      rw [hRowId, hLock] at hMine
      exact hOld.2 (Option.some.inj hMine)
    rw [hSame]
    exact h.pending q i hOld.1 row hRow hRowId
  case exhausted => exact h.exhausted

theorem perform_quiet {o : Op} {d : Decision} {out : Answer o} (ho : o ≠ .commit)
    (hJustified : Justified w o) (h : perform w r pid n o d = some out) : Quiet w out.shared := by
  cases o with
  | commit => exact absurd rfl ho
  | begin' =>
    cases h
    exact quiet_begin w pid w.now
  | selectBatch limit =>
    cases h
    exact quiet_select w pid _ _
  | sendAndWait topic e =>
    cases h
    exact quiet_send hJustified (.inl rfl)
  | incrementAttempts i =>
    obtain ⟨w₁, hUpdate, rfl⟩ := Option.map_eq_some_iff.mp h
    refine quiet_update ?_ hUpdate
    rintro j ⟨⟩
    exact hJustified
  | markPublished ids =>
    obtain ⟨w₁, hUpdate, rfl⟩ := Option.map_eq_some_iff.mp h
    refine quiet_update ?_ hUpdate
    rintro j ⟨⟩
  | rollback =>
    cases h
    exact quiet_endTx w pid
  | sleep s =>
    cases h
    exact quiet_slept w r s
  | waitStop s =>
    simp only [perform] at h
    split at h <;> cases h
    · exact Quiet.refl w
    · exact quiet_slept w r s
  | _ =>
    cases h
    exact ⟨rfl, .inl rfl, fun _ _ h => .inl h⟩

theorem raised_quiet {o : Op} (hJustified : Justified w o) : Quiet w (w.raised r pid o) := by
  cases o with
  | commit | rollback => exact quiet_endTx w pid
  | sendAndWait topic e => exact quiet_send hJustified (.inr rfl)
  | _ => exact Quiet.refl w

theorem exec_tallied {o : Op} {d : Decision} {out : Answer o} (h : Tallied w) (hInv : Inv n w)
    (hJustified : w.process r = some pid → Justified w o)
    (hOut : exec w r pid n o d = some out) : Tallied out.shared ∧ w.log <+: out.shared.log := by
  have hPerform : ∀ a : Answer o, w.process r = some pid → perform w r pid n o d = some a →
      Tallied a.shared ∧ w.log <+: a.shared.log := by
    intro a hRun ha
    by_cases ho : o = .commit
    · subst ho
      cases ha
      exact ⟨h.commit hInv pid, List.prefix_refl _⟩
    · have hQuiet := perform_quiet ho (hJustified hRun) ha
      exact ⟨h.quiet hQuiet, hQuiet.grows⟩
  obtain ⟨hRun, ⟨-, hOk⟩ | ⟨e, -, rfl⟩ | ⟨e, a, -, -, ha, rfl⟩⟩ := exec_cases hOut
  · exact hPerform out hRun hOk
  · have hQuiet : Quiet w (w.raised r pid o) := raised_quiet (hJustified hRun)
    exact ⟨h.quiet hQuiet, hQuiet.grows⟩
  · exact hPerform a hRun ha

theorem env_tallied {a : EnvAction} {out : World × Option Nat} (h : Tallied w) (hInv : Inv n w)
    (hOk : routedEnv w a = true) (hOut : env w n a = some out) :
    Tallied out.1 ∧ w.log <+: out.1.log := by
  have hQuiet : ∀ {w'}, Quiet w w' → Tallied w' ∧ w.log <+: w'.log :=
    fun hQuiet => ⟨h.quiet hQuiet, hQuiet.grows⟩
  cases a with
  | insert row =>
    simp only [env] at hOut
    split at hOut
    case isTrue hNew =>
      cases hOut
      refine ⟨?_, List.prefix_refl _⟩
      constructor
      case routed =>
        intro row' hRow'
        obtain hOld | hLast := List.mem_append.mp hRow'
        · exact h.routed row' hOld
        · rw [List.mem_singleton.mp hLast]
          exact of_decide_eq_true hOk
      case attempts =>
        intro row' hRow'
        obtain hOld | hLast := List.mem_append.mp hRow'
        · exact h.attempts row' hOld
        · rw [List.mem_singleton.mp hLast, hNew.2.1]
          exact Nat.zero_le _
      case pending =>
        intro q i hWrite row' hRow' hId
        obtain hOld | hLast := List.mem_append.mp hRow'
        · exact h.pending q i hWrite row' hOld hId
        · obtain ⟨known, hKnown, hKnownId, -⟩ := (writes_ok hInv q).2.2.1 i hWrite
          have hFresh := List.all_eq_true.mp hNew.2.2 known hKnown
          rw [List.mem_singleton.mp hLast] at hId
          exact absurd (hKnownId.trans hId.symm) (of_decide_eq_true hFresh)
      case exhausted => exact h.exhausted
    case isFalse => cases hOut
  | boot r =>
    simp only [env] at hOut
    split at hOut <;> cases hOut
    exact hQuiet ⟨rfl, .inl rfl, fun _ _ h => .inl h⟩
  | reap q =>
    simp only [env] at hOut
    split at hOut <;> cases hOut
    exact hQuiet (quiet_endTx w q)
  | crash r | sigterm r | tick dt =>
    cases hOut
    exact hQuiet ⟨rfl, .inl rfl, fun _ _ h => .inl h⟩

end

/-- From `w`, every call of `p` is justified, and every end meets `Q`. -/
abbrev Tallies {α : Type} (pid r : Nat) (p : Coro α) (Q : Except Exn α → World → Prop) (w : World) :
    Prop :=
  refusalLayer.wp routed contract pid r p Q w

section

variable {w w' : World} {pid r n : Nat} {α β : Type} {row : OutboxRow} {rows : List OutboxRow}

def Holding (w : World) (pid : Nat) (rows : List OutboxRow) : Prop :=
  ∀ row ∈ rows, row ∈ w.table ∧ w.lock row.id = some pid

theorem Holding.leaves (h : Holding w pid rows) (hLeaves : Leaves pid w w') :
    Holding w' pid rows := by
  intro row hRow
  obtain ⟨hIn, hLock⟩ := h row hRow
  exact ⟨hLeaves.rows row hIn hLock, hLeaves.lock row.id hLock⟩

namespace Tallies

theorem ask {o : Op} {Q : Except Exn o.Res → World → Prop}
    (h : ∀ w₁ n, Leaves pid w w₁ → w.log <+: w₁.log → Inv n w₁ → Tallied w₁ → Justified w₁ o ∧
      ∀ d out, exec w₁ r pid n o d = some out → Q out.result out.shared) :
    Tallies pid r (Publisher.ask o) Q w := by
  intro w₁ n _ hRely hGrows hInv hTallied _
  have hLive : w₁.process r = some pid → Justified w₁ o ∧
      ∀ d out, exec w₁ r pid n o d = some out → Q out.result out.shared := fun hRun =>
    h w₁ n (hRely.leaves (hInv.running r pid hRun).2) hGrows hInv hTallied
  refine ⟨fun hRun => (hLive hRun).1, fun d out hOut => ?_⟩
  obtain ⟨-, hExec⟩ := restrict_exec hOut
  exact (hLive (exec_cases hExec).1).2 d out hExec

theorem bind {p : Coro α} {f : α → Coro β} {Q : Except Exn β → World → Prop}
    {P : Except Exn α → World → Prop} (h : Tallies pid r p P w)
    (hOk : ∀ a w', P (.ok a) w' → Tallies pid r (f a) Q w')
    (hError : ∀ e w', P (.error e) w' → Q (.error e) w') : Tallies pid r (p >>= f) Q w :=
  Layer.wp_seq h hOk hError

theorem handle {p : Coro α} {f : Exn → Coro α} {Q P : Except Exn α → World → Prop}
    (h : Tallies pid r p P w) (hOk : ∀ a w', P (.ok a) w' → Q (.ok a) w')
    (hError : ∀ e w', P (.error e) w' → Tallies pid r (f e) Q w') :
    Tallies pid r (p.handle f) Q w :=
  Layer.wp_catch h hOk hError

theorem free {o : Op} (hFree : ∀ w₁, Justified w₁ o) :
    Tallies pid r (Publisher.ask o) (fun _ _ => True) w :=
  ask fun w₁ _ _ _ _ _ => ⟨hFree w₁, fun _ _ _ => trivial⟩

theorem skip {o : Op} {f : o.Res → Coro β} (hFree : ∀ w₁, Justified w₁ o)
    (hNext : ∀ a w', Tallies pid r (f a) (fun _ _ => True) w') :
    Tallies pid r (Publisher.ask o >>= f) (fun _ _ => True) w :=
  bind (free hFree) (fun a w' _ => hNext a w') fun _ _ _ => trivial

theorem holding {o : Op} {f : o.Res → Coro β} {Q : Except Exn β → World → Prop}
    (h : Holding w pid rows) (hFree : ∀ w₁, Justified w₁ o)
    (hKeeps : ∀ w₁ n d (out : Answer o), perform w₁ r pid n o d = some out →
      out.shared.table = w₁.table ∧ out.shared.lock = w₁.lock)
    (hNext : ∀ a w', Holding w' pid rows → Tallies pid r (f a) Q w')
    (hError : ∀ e w', Q (.error e) w') : Tallies pid r (Publisher.ask o >>= f) Q w := by
  apply bind (P := fun res w' => ∀ a, res = .ok a → Holding w' pid rows)
  · apply ask
    intro w₁ n hLeaves _ _ _
    refine ⟨hFree w₁, fun d out hExec a ha => ?_⟩
    obtain ⟨-, ⟨-, hOk⟩ | ⟨e, -, rfl⟩ | ⟨e, b, -, -, -, rfl⟩⟩ := exec_cases hExec
    · obtain ⟨hTable, hLock⟩ := hKeeps w₁ n d out hOk
      intro row hRow
      rw [hTable, hLock]
      exact h.leaves hLeaves row hRow
    · cases ha
    · cases ha
  · exact fun a w' hHeld => hNext a w' (hHeld a rfl)
  · exact fun e w' _ => hError e w'

end Tallies

theorem tallies_sent {topic : String} (h : Holding w pid (row :: rows))
    (hJustified : ∀ w₁, Tallied w₁ → row ∈ w₁.table →
      Justified w₁ (.sendAndWait topic (buildEnvelope row))) :
    Tallies pid r (sent topic (buildEnvelope row)) (fun res w' => ∀ b, res = .ok b →
      Holding w' pid (row :: rows) ∧ (b = false → topic = topicFor row.eventType →
        row.publishAttempts < refusals w'.log (buildEnvelope row))) w := by
  apply Layer.wp_handle
  apply Layer.wp_bind
  apply Tallies.ask
  intro w₁ n hLeaves _ _ hTallied
  have h₁ := h.leaves hLeaves
  have hIn := (h₁ row List.mem_cons_self).1
  refine ⟨hJustified w₁ hTallied hIn, fun d out hExec => ?_⟩
  obtain ⟨-, ⟨-, hOk⟩ | ⟨e, -, rfl⟩ | ⟨e, b, -, hLossy, -, -⟩⟩ := exec_cases hExec
  · cases hOk
    rintro b ⟨⟩
    exact ⟨h₁, fun hb => by cases hb⟩
  · cases e with
    | fault | cancelled =>
      intro b hb
      cases hb
    | kafka =>
      rintro b ⟨⟩
      refine ⟨h₁, fun _ hOwn => ?_⟩
      have hAttempts := hTallied.attempts row hIn
      have hMore : refusals (w₁.note r (.refused topic (buildEnvelope row))).log
          (buildEnvelope row) = refusals w₁.log (buildEnvelope row) + 1 := by
        rw [hOwn]
        exact refusals_refused w₁.log r (buildEnvelope row)
      change row.publishAttempts < refusals (w₁.note r (.refused topic (buildEnvelope row))).log _
      rw [hMore]
      exact Nat.lt_succ_of_le hAttempts
  · cases hLossy

theorem tallies_processRow (h : Holding w pid (row :: rows)) :
    Tallies pid r (processRow row) (fun res w' => ∀ b, res = .ok b → Holding w' pid rows) w := by
  have hTail : ∀ {w₁}, Holding w₁ pid (row :: rows) → Holding w₁ pid rows :=
    fun h₁ later hLater => h₁ later (List.mem_cons_of_mem _ hLater)
  have hPop : ∀ w₁, Holding w₁ pid (row :: rows) →
      Tallies pid r (do Publisher.ask (.popBackoff row.id); return true)
        (fun res w' => ∀ b, res = .ok b → Holding w' pid rows) w₁ := by
    intro w₁ h₁
    apply Tallies.holding (hTail h₁)
    · exact fun _ => trivial
    · rintro w₂ n d out ⟨⟩
      exact ⟨rfl, rfl⟩
    · exact fun a w' hHeld b _ => hHeld
    · exact fun e w' b hb => by cases hb
  unfold processRow
  dsimp only
  split
  case isTrue hMany =>
    apply Tallies.bind (tallies_sent h ?_)
    · intro b w₁ hSent
      obtain ⟨h₁, -⟩ := hSent b rfl
      cases b with
      | true => exact hPop w₁ h₁
      | false => exact fun _ _ => hTail h₁
    · exact fun e w' _ b hb => by cases hb
    · exact fun w₁ hTallied hIn _ => hMany.trans (hTallied.attempts row hIn)
  case isFalse hFew =>
    apply Tallies.bind (tallies_sent h ?_)
    · intro b w₁ hSent
      obtain ⟨h₁, hRefused⟩ := hSent b rfl
      cases b with
      | true => exact hPop w₁ h₁
      | false =>
        have hMore := hRefused rfl rfl
        apply Tallies.bind (P := fun res w' => ∀ a, res = .ok a → Holding w' pid rows)
        · apply Tallies.ask
          intro w₂ n hLeaves hGrows hInv _
          have h₂ := h₁.leaves hLeaves
          refine ⟨fun row' hRow' hId => ?_, fun d out hExec a ha => ?_⟩
          · rw [row_unique hInv hRow' (h₂ row List.mem_cons_self).1 hId]
            exact hMore.trans_le (refusals_mono hGrows _)
          · obtain ⟨-, ⟨-, hOk⟩ | ⟨e, -, rfl⟩ | ⟨e, b, -, -, -, rfl⟩⟩ := exec_cases hExec
            · obtain ⟨w₃, hUpdate, rfl⟩ := Option.map_eq_some_iff.mp hOk
              obtain ⟨hFree, rfl⟩ := update_eq hUpdate
              intro later hLater
              obtain ⟨hIn, hLock⟩ := hTail h₂ later hLater
              exact ⟨hIn, claimed_lock hLock hFree⟩
            · cases ha
            · cases ha
        · intro a w₂ hHeld
          apply Tallies.holding (hHeld a rfl)
          · exact fun _ => trivial
          · rintro w₃ n d out ⟨⟩
            exact ⟨rfl, rfl⟩
          · exact fun a w' hHeld b _ => hHeld
          · exact fun e w' b hb => by cases hb
        · exact fun e w' _ b hb => by cases hb
    · exact fun e w' _ b hb => by cases hb
    · intro w₁ hTallied hIn hDead
      exact absurd hDead (hTallied.routed row hIn)

theorem tallies_processRows {ids : List Id} (h : Holding w pid rows) :
    Tallies pid r (processRows rows ids) (fun _ _ => True) w := by
  induction rows generalizing ids w with
  | nil => trivial
  | cons row rows ih =>
    apply Tallies.bind (tallies_processRow h)
    · intro b w₁ hNext
      cases b with
      | true => exact ih (hNext true rfl)
      | false => exact ih (hNext false rfl)
    · exact fun _ _ _ => trivial

theorem tallies_inTransaction {p : Coro α}
    (h : ∀ w₁, Tallies pid r p (fun _ _ => True) w₁) :
    Tallies pid r (inTransaction p) (fun _ _ => True) w := by
  refine Tallies.skip (fun _ => trivial) fun _ w₁ => ?_
  apply Tallies.bind (P := fun _ _ => True)
  · apply Tallies.handle (h w₁)
    · exact fun _ _ _ => trivial
    · intro e w₂ _
      exact Tallies.skip (fun _ => trivial) fun _ _ => trivial
  · intro a w₂ _
    exact Tallies.skip (fun _ => trivial) fun _ _ => trivial
  · exact fun _ _ _ => trivial

theorem tallies_processBatch : Tallies pid r processBatch (fun _ _ => True) w := by
  apply tallies_inTransaction
  intro w₁
  apply Tallies.bind (P := fun res w' => ∀ rows, res = .ok rows → Holding w' pid rows)
  · apply Tallies.ask
    intro w₂ n _ _ _ _
    refine ⟨trivial, fun d out hExec rows hRows => ?_⟩
    obtain ⟨-, ⟨-, hOk⟩ | ⟨e, -, rfl⟩ | ⟨e, b, -, -, -, rfl⟩⟩ := exec_cases hExec
    · cases hOk
      cases hRows
      exact fun row hRow => ⟨(mem_batch hRow).1, claimed_mine (List.mem_map_of_mem hRow)⟩
    · cases hRows
    · cases hRows
  · intro rows w₂ hHeld
    apply Tallies.bind (tallies_processRows (hHeld rows rfl))
    · intro ids w₃ _
      split
      · exact Tallies.skip (fun _ => trivial) fun _ _ => trivial
      · trivial
    · exact fun _ _ _ => trivial
  · exact fun _ _ _ => trivial

theorem tallies_pollOnce : Tallies pid r pollOnce (fun _ _ => True) w := by
  apply Tallies.bind (P := fun _ _ => True)
  · apply Tallies.handle (P := fun _ _ => True)
    · exact Tallies.bind tallies_processBatch (fun _ _ _ => trivial) fun _ _ _ => trivial
    · exact fun _ _ _ => trivial
    · intro e w₁ _
      cases e <;> trivial
  · intro res w₁ _
    cases res with
    | none => exact Tallies.free fun _ => trivial
    | some published =>
      dsimp only
      split
      · refine Tallies.skip (fun _ => trivial) fun _ _ => ?_
        exact Tallies.free fun _ => trivial
      · trivial
  · exact fun _ _ _ => trivial

theorem tallies_round : Tallies pid r round (fun _ _ => True) w := by
  refine Tallies.skip (fun _ => trivial) fun stop w₁ => ?_
  split
  · exact Tallies.free fun _ => trivial
  · apply Tallies.handle (P := fun _ _ => True)
    · apply Tallies.bind tallies_pollOnce
      · exact fun _ _ _ => Tallies.free fun _ => trivial
      · exact fun _ _ _ => trivial
    · exact fun _ _ _ => trivial
    · exact fun _ _ _ => Tallies.free fun _ => trivial

end

theorem refusals_fit : refusalLayer.Fits routed contract where
  steady := steady_refusals
  exec w r pid n o d out hInv hTallied _ hJustified hOut := by
    obtain ⟨-, hExec⟩ := restrict_exec hOut
    obtain ⟨hAfter, hGrows⟩ := exec_tallied hTallied hInv hJustified hExec
    exact ⟨hAfter, fun _ _ _ _ _ => hGrows, fun _ _ => tallies_round⟩
  env w n a out hInv hTallied hOut := by
    obtain ⟨hOk, hEnv⟩ := restrict_env hOut
    obtain ⟨hAfter, hGrows⟩ := env_tallied hTallied hInv hOk hEnv
    exact ⟨hAfter, fun _ _ _ _ => hGrows, fun _ _ => tallies_round⟩

theorem tallied_of_reach {S : PublisherState}
    (h : publisher.Reach (fun S l => Machine.admits (fun _ _ _ => true) routedEnv S l = true)
      blank S) : Tallied S.shared := by
  have hBlank : refusalLayer.Carried routed contract blank := by
    refine ⟨kept_blank.restrict, ?_, fun pid p hp => by cases hp⟩
    constructor <;> simp [blank, World.writes, OnlyExhausted]
  exact (hBlank.reach refusals_fit sound.restrict h.restrict).inv

end LiveQuiz.Publisher
