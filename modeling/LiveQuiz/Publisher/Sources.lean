import LiveQuiz.Publisher.Run
import LiveQuiz.Lib.Layer

/-! # Where a message comes from

A row's envelope does not change while the row is in the table, and a program sends only
the envelopes of rows it has selected, each to the row's topic or to the dead-letter one.
-/

namespace LiveQuiz.Publisher

open Coroutine

set_option autoImplicit false

def From (w : World) (e : Envelope) : Prop := ∃ row ∈ w.table, buildEnvelope row = e

def Later (w w' : World) : Prop := ∀ e, From w e → From w' e

def Sourced (w : World) (topic : String) (e : Envelope) : Prop :=
  From w e ∧ (topic = topicFor e.eventType ∨ topic = topicDeadLetter)

def AllSourced (w : World) : Prop :=
  ∀ r topic e, (r, .acked topic e) ∈ w.log → Sourced w topic e

def SendsSourced (w : World) : Op → Prop
  | .sendAndWait topic e => Sourced w topic e
  | _ => True

def sourceLayer : Layer World Op Nat where
  inv := AllSourced
  rely _ _ _ w w' := Later w w'
  req _ _ w o := SendsSourced w o

section

variable {w w' w'' : World} {pid r n : Nat} {o : Op} {d : Decision} {out : Answer o} {α β : Type}
  {row : OutboxRow} {rows : List OutboxRow}

theorem Later.refl (w : World) : Later w w := fun _ h => h

theorem Later.trans (h : Later w w') (h' : Later w' w'') : Later w w'' := fun e he => h' e (h e he)

theorem later_of_table (h : w'.table = w.table) : Later w w' := by
  intro e he
  rwa [From, h]

theorem Sourced.later {topic : String} {e : Envelope} (h : Sourced w topic e) (hLater : Later w w') :
    Sourced w' topic e := ⟨hLater e h.1, h.2⟩

theorem commit_later (w : World) (pid : Nat) : Later w (w.commit pid) := by
  rintro e ⟨row, hRow, rfl⟩
  refine ⟨applyRows (w.writes pid) row, ?_, (rowEffect _ row).envelope⟩
  rw [World.commit, applyAll_eq_map]
  exact List.mem_map_of_mem hRow

/-- The messages that are new after a step are sourced. -/
structure Draws (w w' : World) : Prop where
  later : Later w w'
  log : ∀ r topic e, (r, .acked topic e) ∈ w'.log → (r, .acked topic e) ∈ w.log ∨ Sourced w topic e

theorem Draws.inv (h : Draws w w') (hInv : AllSourced w) : AllSourced w' := by
  intro r topic e he
  obtain hOld | hNew := h.log r topic e he
  · exact (hInv r topic e hOld).later h.later
  · exact hNew.later h.later

theorem draws_same (hTable : w'.table = w.table) (hLog : w'.log = w.log) : Draws w w' where
  later := later_of_table hTable
  log _ _ _ he := .inl (hLog ▸ he)

theorem draws_note {event : Event} (w : World) (r : Nat)
    (h : ∀ topic e, event = .acked topic e → Sourced w topic e) : Draws w (w.note r event) where
  later := later_of_table rfl
  log r' topic e he := by
    obtain hOld | hNew := List.mem_append.mp he
    · exact .inl hOld
    · cases List.mem_singleton.mp hNew
      exact .inr (h topic e rfl)

theorem draws_update {wr : Write} (h : update w pid wr = some w') : Draws w w' := by
  obtain ⟨-, rfl⟩ := update_eq h
  exact draws_same rfl rfl

theorem perform_draws (hSends : SendsSourced w o) (h : perform w r pid n o d = some out) :
    Draws w out.shared := by
  cases o with
  | sendAndWait topic e =>
    cases h
    refine draws_note w r fun topic' e' hEq => ?_
    cases hEq
    exact hSends
  | sleep s =>
    cases h
    exact draws_note w r fun _ _ hEq => by cases hEq
  | waitStop s =>
    simp only [perform] at h
    split at h <;> cases h
    · exact draws_same rfl rfl
    · exact draws_note w r fun _ _ hEq => by cases hEq
  | incrementAttempts i =>
    obtain ⟨w', hUpdate, rfl⟩ := Option.map_eq_some_iff.mp h
    exact draws_update hUpdate
  | markPublished ids =>
    obtain ⟨w', hUpdate, rfl⟩ := Option.map_eq_some_iff.mp h
    exact draws_update hUpdate
  | commit =>
    cases h
    exact ⟨commit_later w pid, fun r topic e he => .inl he⟩
  | _ =>
    cases h
    exact draws_same rfl rfl

theorem raised_draws (w : World) (r pid : Nat) (o : Op) : Draws w (w.raised r pid o) := by
  cases o with
  | sendAndWait topic e => exact draws_note w r fun _ _ hEq => by cases hEq
  | _ => exact draws_same rfl rfl

theorem exec_draws (hSends : SendsSourced w o) (h : exec w r pid n o d = some out) :
    Draws w out.shared := by
  obtain ⟨-, ⟨-, hOk⟩ | ⟨e, -, rfl⟩ | ⟨e, a, -, -, hLost, rfl⟩⟩ := exec_cases h
  · exact perform_draws hSends hOk
  · exact raised_draws w r pid o
  · have hDraws : Draws w a.shared := perform_draws hSends hLost
    exact hDraws

theorem env_draws {a : EnvAction} {out : World × Option Nat} (h : env w n a = some out) :
    Draws w out.1 := by
  cases a with
  | insert row =>
    simp only [env] at h
    split at h <;> cases h
    refine ⟨?_, fun r topic e he => .inl he⟩
    rintro e ⟨old, hOld, rfl⟩
    exact ⟨old, List.mem_append_left _ hOld, rfl⟩
  | boot r | reap q =>
    simp only [env] at h
    split at h <;> cases h
    exact draws_same rfl rfl
  | crash r | sigterm r | tick dt =>
    cases h
    exact draws_same rfl rfl

/-- From `w`, every send of `p` is sourced, and every end meets `Q`. -/
abbrev Sends (pid r : Nat) (p : Coro α) (Q : Except Exn α → World → Prop) (w : World) : Prop :=
  sourceLayer.wp publisher contract pid r p Q w

/-- The same, where nothing more is said of the ends than that the rows are still there. -/
abbrev SendsOn (pid r : Nat) (p : Coro α) (w : World) : Prop := Sends pid r p (fun _ => Later w) w

namespace Sends

theorem ask (hSends : ∀ w₁, Later w w₁ → SendsSourced w₁ o) : SendsOn pid r (Publisher.ask o) w := by
  intro w₁ n _ _ hLater _ _ _
  exact ⟨hSends w₁ hLater, fun d out hOut => hLater.trans (exec_draws (hSends w₁ hLater) hOut).later⟩

theorem bind {p : Coro α} {f : α → Coro β} (h : SendsOn pid r p w)
    (hNext : ∀ a w₁, Later w w₁ → SendsOn pid r (f a) w₁) : SendsOn pid r (p >>= f) w := by
  refine Layer.wp_seq h (fun a w₁ hLater => ?_) fun _ _ hLater => hLater
  exact Layer.wp_mono (hNext a w₁ hLater) fun _ _ hNext => hLater.trans hNext

theorem handle {p : Coro α} {f : Exn → Coro α} (h : SendsOn pid r p w)
    (hCatch : ∀ e w₁, Later w w₁ → SendsOn pid r (f e) w₁) : SendsOn pid r (p.handle f) w := by
  refine Layer.wp_catch h (fun _ _ hLater => hLater) fun e w₁ hLater => ?_
  exact Layer.wp_mono (hCatch e w₁ hLater) fun _ _ hNext => hLater.trans hNext

theorem done {res : Except Exn α} : SendsOn pid r (.done res) w := Later.refl w

theorem skip {o : Op} {f : o.Res → Coro β} (hSends : ∀ w₁, SendsSourced w₁ o)
    (hNext : ∀ a w₁, Later w w₁ → SendsOn pid r (f a) w₁) : SendsOn pid r (Publisher.ask o >>= f) w :=
  bind (ask fun w₁ _ => hSends w₁) hNext

end Sends

theorem sends_sent {topic : String} (h : From w (buildEnvelope row))
    (hTopic : topic = topicFor row.eventType ∨ topic = topicDeadLetter) :
    SendsOn pid r (sent topic (buildEnvelope row)) w := by
  apply Sends.handle
  · refine Sends.bind (Sends.ask fun w₁ hLater => ⟨hLater _ h, hTopic⟩) fun _ _ _ => Sends.done
  · intro e w₁ _
    cases e <;> exact Sends.done

theorem sends_processRow (h : From w (buildEnvelope row)) : SendsOn pid r (processRow row) w := by
  have hPop : ∀ w₁, SendsOn pid r (do Publisher.ask (.popBackoff row.id); return true) w₁ :=
    fun w₁ => Sends.skip (fun _ => trivial) fun _ _ _ => Sends.done
  unfold processRow
  dsimp only
  split
  case isTrue =>
    refine Sends.bind (sends_sent h (.inr rfl)) fun b w₁ _ => ?_
    cases b
    · exact Sends.done
    · exact hPop w₁
  case isFalse =>
    refine Sends.bind (sends_sent h (.inl rfl)) fun b w₁ _ => ?_
    cases b
    · refine Sends.skip (fun _ => trivial) fun _ w₂ _ => ?_
      exact Sends.skip (fun _ => trivial) fun _ _ _ => Sends.done
    · exact hPop w₁

theorem sends_processRows {ids : List Id} (h : ∀ row ∈ rows, From w (buildEnvelope row)) :
    SendsOn pid r (processRows rows ids) w := by
  induction rows generalizing ids w with
  | nil => exact Sends.done
  | cons row rows ih =>
    refine Sends.bind (sends_processRow (h row List.mem_cons_self)) fun b w₁ hLater => ?_
    have hTail : ∀ row' ∈ rows, From w₁ (buildEnvelope row') := fun row' hRow =>
      hLater _ (h row' (List.mem_cons_of_mem row hRow))
    cases b
    · exact ih hTail
    · exact ih hTail

theorem sends_inTransaction {p : Coro α} (h : ∀ w₁, SendsOn pid r p w₁) :
    SendsOn pid r (inTransaction p) w := by
  refine Sends.skip (fun _ => trivial) fun _ w₁ _ => ?_
  refine Sends.bind (Sends.handle (h w₁) fun e w₂ _ => ?_) fun a w₂ _ => ?_
  · exact Sends.skip (fun _ => trivial) fun _ _ _ => Sends.done
  · exact Sends.skip (fun _ => trivial) fun _ _ _ => Sends.done

theorem sends_selectBatch {f : List OutboxRow → Coro β}
    (hNext : ∀ rows w₁, Later w w₁ → (∀ row ∈ rows, From w₁ (buildEnvelope row)) →
      SendsOn pid r (f rows) w₁) : SendsOn pid r (Publisher.ask (.selectBatch pollBatch) >>= f) w := by
  apply Layer.wp_seq (P := fun res w₁ => Later w w₁ ∧ ∀ rows, res = .ok rows →
    ∀ row ∈ rows, From w₁ (buildEnvelope row))
  · intro w₁ n _ _ hLater _ _ _
    have hSends : SendsSourced w₁ (.selectBatch pollBatch) := trivial
    refine ⟨hSends, fun d out hOut => ⟨hLater.trans (exec_draws hSends hOut).later, fun rows hRows => ?_⟩⟩
    obtain ⟨-, ⟨-, hOk⟩ | ⟨e, -, rfl⟩ | ⟨e, a, -, -, -, rfl⟩⟩ := exec_cases hOut
    · cases hOk
      cases hRows
      exact fun row hRow => ⟨row, (mem_batch hRow).1, rfl⟩
    · cases hRows
    · cases hRows
  · intro rows w₁ ⟨hLater, hRows⟩
    exact Layer.wp_mono (hNext rows w₁ hLater (hRows rows rfl)) fun _ _ hNext => hLater.trans hNext
  · exact fun _ _ h => h.1

theorem sends_processBatch : SendsOn pid r processBatch w := by
  apply sends_inTransaction
  intro w₁
  refine sends_selectBatch fun rows w₂ _ hRows => ?_
  refine Sends.bind (sends_processRows hRows) fun ids w₃ _ => ?_
  split
  · exact Sends.skip (fun _ => trivial) fun _ _ _ => Sends.done
  · exact Sends.done

theorem sends_pollOnce : SendsOn pid r pollOnce w := by
  refine Sends.bind (p := caught processBatch) (Sends.handle ?_ fun e w₁ _ => ?_) fun res w₁ _ => ?_
  · exact Sends.bind sends_processBatch fun _ _ _ => Sends.done
  · cases e <;> exact Sends.done
  · cases res with
    | none => exact Sends.ask fun _ _ => trivial
    | some published =>
      dsimp only
      split
      · exact Sends.skip (fun _ => trivial) fun _ _ _ => Sends.ask fun _ _ => trivial
      · exact Sends.done

theorem sends_round : SendsOn pid r round w := by
  refine Sends.skip (fun _ => trivial) fun stop w₁ _ => ?_
  split
  · exact Sends.ask fun _ _ => trivial
  · refine Sends.handle (Sends.bind sends_pollOnce fun _ w₂ _ => ?_) fun e w₂ _ => ?_
    · exact Sends.ask fun _ _ => trivial
    · exact Sends.ask fun _ _ => trivial

end

theorem steady_sources : sourceLayer.Steady where
  refl _ _ _ w := Later.refl w
  trans _ _ _ _ _ _ h h' := h.trans h'

theorem sources_fit : sourceLayer.Fits publisher contract where
  steady := steady_sources
  exec w r pid n o d out _ hSourced _ hSends hOut := by
    have hDraws := exec_draws hSends hOut
    exact ⟨hDraws.inv hSourced, fun _ _ _ _ _ => hDraws.later, fun _ _ =>
      Layer.wp_mono sends_round fun _ _ _ => trivial⟩
  env w n a out _ hSourced hOut := by
    have hDraws := env_draws hOut
    exact ⟨hDraws.inv hSourced, fun _ _ _ _ => hDraws.later, fun _ _ =>
      Layer.wp_mono sends_round fun _ _ _ => trivial⟩

theorem sourced_of_reach {S : PublisherState} (h : publisher.Reach (fun _ _ => True) blank S) :
    AllSourced S.shared := by
  have hBlank : sourceLayer.Carried publisher contract blank := by
    refine ⟨kept_blank, ?_, fun pid p hp => by cases hp⟩
    intro r topic e he
    cases he
  exact (hBlank.reach sources_fit sound h).inv

end LiveQuiz.Publisher
