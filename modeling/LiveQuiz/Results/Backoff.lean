import LiveQuiz.Publisher.Rests

/-! # The publisher's backoff

One sleep serves all rows, so the delay of a row is kept where the loop sleeps for at least
that long after the batch in which the row failed.
-/

namespace LiveQuiz.Publisher

open Coroutine

set_option autoImplicit false

def patientPublisher : Machine World Op Op.Res Exn Unit Nat Decision EnvAction :=
  publisher.guarded patient

def Mindful (w : World) (r : Nat) : Op → Prop
  | .sendAndWait _ e => ∀ b, w.backoff r e.eventId = some b → b ≤ w.rest r e.eventId
  | .loop => Ready w r
  | _ => True

def restLayer : Layer World Op Nat where
  inv _ := True
  rely pid r _ w w' := Own pid r w w'
  req pid r w o := w.process r = some pid → Mindful w r o

theorem steady_rests : restLayer.Steady where
  refl _ r _ w hRun := ⟨hRun, .refl r w⟩
  trans _ _ _ _ _ _ h h' hRun := by
    obtain ⟨hMid, hStays'⟩ := h' hRun
    obtain ⟨hStart, hStays⟩ := h hMid
    exact ⟨hStart, hStays.trans hStays'⟩

/-- From `w`, every call of `p` is mindful of the delays, and every end meets `Q`. -/
abbrev Rests {α : Type} (pid r : Nat) (p : Coro α) (Q : Except Exn α → World → Prop) (w : World) :
    Prop :=
  restLayer.wp patientPublisher contract pid r p Q w

def Op.closes : Op → Bool
  | .commit | .rollback => true
  | _ => false

/-- Inside a batch with `rows` still to come: their delays are over. -/
structure Amid (pid r : Nat) (w : World) (rows : List OutboxRow) : Prop where
  begun : (w.tx pid).isSome = true
  cooling : Cooling w r
  next : ∀ row ∈ rows, ∀ b, w.backoff r row.id = some b → b ≤ w.rest r row.id
  apart : (rows.map OutboxRow.id).Nodup

section

variable {w w' : World} {pid r n : Nat} {row : OutboxRow} {rows : List OutboxRow} {α β : Type}

theorem Amid.stays (h : Amid pid r w rows) (hStays : Stays r w w')
    (hBegun : (w'.tx pid).isSome = true) : Amid pid r w' rows := by
  constructor
  case begun => exact hBegun
  case cooling => exact h.cooling.stays hStays
  case next =>
    intro row hRow b hb
    rw [hStays.backoff] at hb
    rw [hStays.rest]
    exact h.next row hRow b hb
  case apart => exact h.apart

theorem Amid.tail (h : Amid pid r w (row :: rows)) : Amid pid r w rows where
  begun := h.begun
  cooling := h.cooling
  next row' hRow := h.next row' (List.mem_cons_of_mem _ hRow)
  apart := (List.nodup_cons.mp h.apart).2

theorem Amid.acked {topic : String} {e : Envelope} (h : Amid pid r w rows) :
    Amid pid r (w.note r (.acked topic e)) rows := by
  constructor
  case begun => exact h.begun
  case cooling =>
    intro i b hb
    rw [failed_note, rest_note]
    exact h.cooling i b hb
  case next =>
    intro row hRow b hb
    rw [rest_note]
    exact h.next row hRow b hb
  case apart => exact h.apart

theorem Amid.refused {topic : String} (h : Amid pid r w (row :: rows)) :
    Amid pid r (w.note r (.refused topic (buildEnvelope row))) rows := by
  constructor
  case begun => exact h.begun
  case cooling =>
    intro i b hb
    rw [failed_note, rest_note]
    change i ∈ w.failed r ++ [row.id] ∨ b ≤ if row.id = i then 0 else w.rest r i
    by_cases hi : row.id = i
    · subst hi
      exact .inl (List.mem_append_right _ (List.mem_singleton_self _))
    · rw [if_neg hi]
      exact (h.cooling i b hb).imp_left (List.mem_append_left _)
  case next =>
    intro row' hRow b hb
    rw [rest_note]
    change b ≤ if row.id = row'.id then 0 else w.rest r row'.id
    have hNe : row.id ≠ row'.id := fun hEq =>
      (List.nodup_cons.mp h.apart).1 (hEq ▸ List.mem_map_of_mem hRow)
    rw [if_neg hNe]
    exact h.tail.next row' hRow b hb
  case apart => exact h.tail.apart

theorem Amid.setBackoff {b : Option ℚ} (h : Amid pid r w rows) (hNot : row.id ∉ rows.map OutboxRow.id)
    (hb : b = none ∨ row.id ∈ w.failed r) : Amid pid r (w.setBackoff r row.id b) rows := by
  have hOther : ∀ i, i ≠ row.id → (w.setBackoff r row.id b).backoff r i = w.backoff r i := by
    intro i hi
    simp [World.setBackoff, hi]
  constructor
  case begun => exact h.begun
  case cooling =>
    intro i c hc
    by_cases hi : i = row.id
    · subst hi
      obtain rfl | hFailed := hb
      · simp [World.setBackoff] at hc
      · exact .inl hFailed
    · rw [hOther i hi] at hc
      exact h.cooling i c hc
  case next =>
    intro row' hRow c hc
    have hNe : row'.id ≠ row.id := fun hEq => hNot (hEq ▸ List.mem_map_of_mem hRow)
    rw [hOther _ hNe] at hc
    exact h.next row' hRow c hc
  case apart => exact h.apart

theorem perform_begun {o : Op} {d : Decision} {out : Answer o} (ho : o.closes = false)
    (h : perform w r pid n o d = some out) (hBegun : (w.tx pid).isSome = true) :
    (out.shared.tx pid).isSome = true := by
  cases o with
  | commit | rollback => cases ho
  | begin' =>
    cases h
    simp
  | selectBatch limit =>
    cases h
    simpa [World.modifyTx, World.lockAll] using hBegun
  | incrementAttempts i | markPublished ids =>
    obtain ⟨w₁, hUpdate, rfl⟩ := Option.map_eq_some_iff.mp h
    obtain ⟨-, rfl⟩ := update_eq hUpdate
    simpa [World.claimed, World.modifyTx, World.lockAll] using hBegun
  | waitStop s =>
    simp only [perform] at h
    split at h <;> cases h <;> exact hBegun
  | _ =>
    cases h
    exact hBegun

theorem exec_begun {o : Op} {d : Decision} {out : Answer o} (ho : o.closes = false)
    (h : exec w r pid n o d = some out) (hBegun : (w.tx pid).isSome = true) :
    (out.shared.tx pid).isSome = true := by
  obtain ⟨-, ⟨-, hOk⟩ | ⟨e, -, rfl⟩ | ⟨e, a, -, -, ha, rfl⟩⟩ := exec_cases h
  · exact perform_begun ho hOk hBegun
  · cases o with
    | commit | rollback => cases ho
    | _ => exact hBegun
  · have hAfter : (a.shared.tx pid).isSome = true := perform_begun ho ha hBegun
    exact hAfter

namespace Rests

theorem ask {o : Op} {Q : Except Exn o.Res → World → Prop}
    (h : ∀ w₁ n, Leaves pid w w₁ → Stays r w w₁ → Inv n w₁ → Mindful w₁ r o ∧
      ∀ d out, exec w₁ r pid n o d = some out → patient w₁ r pid o d = true →
        Q out.result out.shared) :
    Rests pid r (Publisher.ask o) Q w := by
  intro w₁ n _ hRely hOwn hInv _ _
  have hLive : w₁.process r = some pid → Mindful w₁ r o ∧
      ∀ d out, exec w₁ r pid n o d = some out → patient w₁ r pid o d = true →
        Q out.result out.shared := fun hRun =>
    h w₁ n (hRely.leaves (hInv.running r pid hRun).2) (hOwn hRun).2 hInv
  refine ⟨fun hRun => (hLive hRun).1, fun d out hOut => ?_⟩
  obtain ⟨hOk, hExec⟩ := guarded_exec hOut
  exact (hLive (exec_cases hExec).1).2 d out hExec hOk

theorem bind {p : Coro α} {f : α → Coro β} {Q : Except Exn β → World → Prop}
    {P : Except Exn α → World → Prop} (h : Rests pid r p P w)
    (hOk : ∀ a w', P (.ok a) w' → Rests pid r (f a) Q w')
    (hError : ∀ e w', P (.error e) w' → Q (.error e) w') : Rests pid r (p >>= f) Q w :=
  Layer.wp_seq h hOk hError

theorem idle {o : Op} (ho : o.idle = true) :
    Rests pid r (Publisher.ask o) (fun _ w' => Stays r w w') w := by
  apply ask
  intro w₁ n _ hStays _
  constructor
  · cases o <;> trivial
  · exact fun d out hExec _ => hStays.trans (exec_idle ho hExec)

theorem amid {o : Op} (h : Amid pid r w rows) (ho : o.idle = true) (hOpen : o.closes = false) :
    Rests pid r (Publisher.ask o) (fun _ w' => Amid pid r w' rows ∧ Stays r w w') w := by
  apply ask
  intro w₁ n hLeaves hStays _
  constructor
  · cases o <;> trivial
  · intro d out hExec _
    have hBegun : (w₁.tx pid).isSome = true := by
      rw [hLeaves.tx]
      exact h.begun
    have hAll := hStays.trans (exec_idle ho hExec)
    exact ⟨h.stays hAll (exec_begun hOpen hExec hBegun), hAll⟩

end Rests

theorem Amid.leaves (h : Amid pid r w rows) (hLeaves : Leaves pid w w') (hStays : Stays r w w') :
    Amid pid r w' rows := by
  apply h.stays hStays
  rw [hLeaves.tx]
  exact h.begun

theorem rests_sent {topic : String} (h : Amid pid r w (row :: rows)) :
    Rests pid r (sent topic (buildEnvelope row)) (fun res w' => Amid pid r w' rows ∧
      (res = .ok false → row.id ∈ w'.failed r)) w := by
  apply Layer.wp_catch (P := fun res w' => Amid pid r w' rows ∧
    (res = .ok true ∨ ∃ e, res = .error e ∧ row.id ∈ w'.failed r))
  · apply Layer.wp_bind
    apply Rests.ask
    intro w₁ n hLeaves hStays _
    have h₁ := h.leaves hLeaves hStays
    refine ⟨h₁.next row List.mem_cons_self, fun d out hExec _ => ?_⟩
    obtain ⟨-, ⟨-, hOk⟩ | ⟨e, -, rfl⟩ | ⟨e, b, -, hLossy, -, -⟩⟩ := exec_cases hExec
    · cases hOk
      exact ⟨h₁.tail.acked, .inl rfl⟩
    · refine ⟨h₁.refused, .inr ⟨e, rfl, ?_⟩⟩
      change row.id ∈ (w₁.note r (.refused topic (buildEnvelope row))).failed r
      rw [failed_note]
      exact List.mem_append_right _ (List.mem_singleton_self _)
    · cases hLossy
  · rintro b w₁ ⟨hAmid, hTrue | ⟨e, hError, -⟩⟩
    · cases hTrue
      exact ⟨hAmid, fun hFalse => by cases hFalse⟩
    · cases hError
  · rintro e w₁ ⟨hAmid, hTrue | ⟨e', -, hFailed⟩⟩
    · cases hTrue
    · cases e with
      | kafka => exact ⟨hAmid, fun _ => hFailed⟩
      | fault | cancelled => exact ⟨hAmid, fun hFalse => by cases hFalse⟩

theorem rests_pop (h : Amid pid r w rows) (hNot : row.id ∉ rows.map OutboxRow.id) :
    Rests pid r (do Publisher.ask (.popBackoff row.id); return true)
      (fun _ w' => Amid pid r w' rows) w := by
  apply Layer.wp_bind
  apply Rests.ask
  intro w₁ n hLeaves hStays _
  refine ⟨trivial, fun d out hExec _ => ?_⟩
  obtain ⟨-, ⟨-, hOk⟩ | ⟨e, hRaises, -⟩ | ⟨e, b, hRaises, -, -, -⟩⟩ := exec_cases hExec
  · cases hOk
    exact (h.leaves hLeaves hStays).setBackoff hNot (.inl rfl)
  · cases hRaises
  · cases hRaises

theorem rests_double (h : Amid pid r w rows) (hNot : row.id ∉ rows.map OutboxRow.id)
    (hFailed : row.id ∈ w.failed r) :
    Rests pid r (do Publisher.ask (.doubleBackoff row.id); return false)
      (fun _ w' => Amid pid r w' rows) w := by
  apply Layer.wp_bind
  apply Rests.ask
  intro w₁ n hLeaves hStays _
  refine ⟨trivial, fun d out hExec _ => ?_⟩
  obtain ⟨-, ⟨-, hOk⟩ | ⟨e, hRaises, -⟩ | ⟨e, b, hRaises, -, -, -⟩⟩ := exec_cases hExec
  · cases hOk
    apply (h.leaves hLeaves hStays).setBackoff hNot
    rw [hStays.failed]
    exact .inr hFailed
  · cases hRaises
  · cases hRaises

theorem rests_processRow (h : Amid pid r w (row :: rows)) :
    Rests pid r (processRow row) (fun _ w' => Amid pid r w' rows) w := by
  have hNot := (List.nodup_cons.mp h.apart).1
  unfold processRow
  dsimp only
  split
  · apply Rests.bind (rests_sent h)
    · rintro b w₁ ⟨hAmid, -⟩
      cases b with
      | true => exact rests_pop hAmid hNot
      | false => exact hAmid
    · exact fun e w₁ hEnd => hEnd.1
  · apply Rests.bind (rests_sent h)
    · rintro b w₁ ⟨hAmid, hFailed⟩
      cases b with
      | true => exact rests_pop hAmid hNot
      | false =>
        apply Rests.bind (Rests.amid hAmid rfl rfl)
        · rintro a w₂ ⟨hAmid', hStays⟩
          apply rests_double hAmid' hNot
          rw [hStays.failed]
          exact hFailed rfl
        · exact fun e w₂ hEnd => hEnd.1
    · exact fun e w₁ hEnd => hEnd.1

theorem rests_processRows {ids : List Id} (h : Amid pid r w rows) :
    Rests pid r (processRows rows ids) (fun _ w' => (w'.tx pid).isSome = true ∧ Cooling w' r) w := by
  induction rows generalizing ids w with
  | nil => exact ⟨h.begun, h.cooling⟩
  | cons row rows ih =>
    apply Rests.bind (rests_processRow h)
    · intro b w₁ hAmid
      cases b with
      | true => exact ih hAmid
      | false => exact ih hAmid
    · exact fun e w₁ hAmid => ⟨hAmid.begun, hAmid.cooling⟩

/-- After a batch, and after the part of it inside the transaction. -/
def Ended (r : Nat) (res : Except Exn Nat) (w : World) : Prop :=
  Cooling w r ∧ ∀ k, res = .ok k → k ≠ 0 → Ready w r

def Drafted (pid r : Nat) (res : Except Exn Nat) (w : World) : Prop :=
  Cooling w r ∧ ∀ k, res = .ok k → k ≠ 0 → w.publishes pid = true

theorem rests_markPublished {ids : List Id} (hBegun : (w.tx pid).isSome = true)
    (hCooling : Cooling w r) :
    Rests pid r (do Publisher.ask (.markPublished ids); return ids.length) (Drafted pid r) w := by
  apply Rests.bind (P := fun res w' => Cooling w' r ∧ (res = .ok () → w'.publishes pid = true))
  · apply Rests.ask
    intro w₁ n hLeaves hStays _
    refine ⟨trivial, fun d out hExec _ => ⟨?_, fun hReturned => ?_⟩⟩
    · exact hCooling.stays (hStays.trans (exec_idle rfl hExec))
    · obtain ⟨-, ⟨-, hOk⟩ | ⟨e, -, rfl⟩ | ⟨e, a, -, -, -, rfl⟩⟩ := exec_cases hExec
      · obtain ⟨w₂, hUpdate, rfl⟩ := Option.map_eq_some_iff.mp hOk
        obtain ⟨-, rfl⟩ := update_eq hUpdate
        rw [← hLeaves.tx] at hBegun
        obtain ⟨tx, hTx⟩ := Option.isSome_iff_exists.mp hBegun
        simp [World.publishes, World.writes, World.claimed, World.modifyTx, World.lockAll, hTx]
      · cases hReturned
      · cases hReturned
  · exact fun _ w₁ hEnd => ⟨hEnd.1, fun _ _ _ => hEnd.2 rfl⟩
  · exact fun e w₁ hEnd => ⟨hEnd.1, fun k hk => by cases hk⟩

theorem rests_commit {k : Nat} (h : Drafted pid r (.ok k) w) :
    Rests pid r (do Publisher.ask .commit; return k) (Ended r) w := by
  apply Rests.bind (P := fun res w' => Cooling w' r ∧ (res = .ok () → k ≠ 0 → Ready w' r))
  · apply Rests.ask
    intro w₁ n hLeaves hStays _
    have hCooling := h.1.stays hStays
    refine ⟨trivial, fun d out hExec hPatient => ⟨?_, fun hReturned hk => ?_⟩⟩
    · exact hCooling.stays (exec_idle rfl hExec)
    · have hPublishes : w₁.publishes pid = true := by
        have hOld := h.2 k rfl hk
        rwa [World.publishes, World.writes, ← hLeaves.tx] at hOld
      obtain ⟨-, ⟨hFault, hOk⟩ | ⟨e, -, rfl⟩ | ⟨e, a, -, -, -, rfl⟩⟩ := exec_cases hExec
      · have hAfter : Stays r w₁ out.shared := perform_idle rfl hOk
        simp only [patient, hFault, hPublishes, Bool.or_eq_true] at hPatient
        refine Ready.stays ?_ hAfter
        exact hPatient.imp_right fun hNone => hCooling.committed (by simpa using hNone)
      · cases hReturned
      · cases hReturned
  · exact fun _ w₁ hEnd => ⟨hEnd.1, fun j hj => by cases hj; exact hEnd.2 rfl⟩
  · exact fun e w₁ hEnd => ⟨hEnd.1, fun j hj => by cases hj⟩

theorem rests_inTransaction {p : Coro Nat} (hRested : Rested w r)
    (h : ∀ w₁, (w₁.tx pid).isSome = true → Rested w₁ r → Rests pid r p (Drafted pid r) w₁) :
    Rests pid r (inTransaction p) (Ended r) w := by
  apply Rests.bind (P := fun res w' => Rested w' r ∧ (res = .ok () → (w'.tx pid).isSome = true))
  · apply Rests.ask
    intro w₁ n _ hStays _
    refine ⟨trivial, fun d out hExec _ => ⟨?_, fun hReturned => ?_⟩⟩
    · exact hRested.stays (hStays.trans (exec_idle rfl hExec))
    · obtain ⟨-, ⟨-, hOk⟩ | ⟨e, -, rfl⟩ | ⟨e, a, -, -, -, rfl⟩⟩ := exec_cases hExec
      · cases hOk
        simp
      · cases hReturned
      · cases hReturned
  · rintro ⟨⟩ w₁ ⟨hRested', hBegun⟩
    apply Rests.bind (P := Drafted pid r)
    · apply Layer.wp_catch (h w₁ (hBegun rfl) hRested')
      · exact fun _ _ hDrafted => hDrafted
      · rintro e w₂ ⟨hCooling, -⟩
        apply Rests.bind (Rests.idle rfl)
        · exact fun _ w₃ hStays => ⟨hCooling.stays hStays, fun k hk => by cases hk⟩
        · exact fun _ w₃ hStays => ⟨hCooling.stays hStays, fun k hk => by cases hk⟩
    · exact fun k w₂ hDrafted => rests_commit hDrafted
    · exact fun e w₂ hDrafted => ⟨hDrafted.1, fun k hk => by cases hk⟩
  · exact fun e w₁ hEnd => ⟨hEnd.1.cooling, fun k hk => by cases hk⟩

theorem rests_processBatch (hRested : Rested w r) :
    Rests pid r processBatch (Ended r) w := by
  apply rests_inTransaction hRested
  intro w₁ hBegun hRested₁
  apply Rests.bind (P := fun res w' => Cooling w' r ∧ ∀ rows, res = .ok rows → Amid pid r w' rows)
  · apply Rests.ask
    intro w₂ n hLeaves hStays hInv
    have hRested₂ := hRested₁.stays hStays
    refine ⟨trivial, fun d out hExec _ => ⟨?_, fun rows hRows => ?_⟩⟩
    · exact (hRested₂.stays (exec_idle rfl hExec)).cooling
    · have hAfter := hRested₂.stays (exec_idle rfl hExec)
      rw [← hLeaves.tx] at hBegun
      have hBegun' := exec_begun rfl hExec hBegun
      obtain ⟨-, ⟨-, hOk⟩ | ⟨e, -, rfl⟩ | ⟨e, a, -, -, -, rfl⟩⟩ := exec_cases hExec
      · cases hOk
        cases hRows
        exact ⟨hBegun', hAfter.cooling, fun row _ b hb => hAfter row.id b hb,
          batch_nodup hInv pollBatch d.order⟩
      · cases hRows
      · cases hRows
  · rintro rows w₂ ⟨-, hAmid⟩
    apply Rests.bind (rests_processRows (hAmid rows rfl))
    · rintro ids w₃ ⟨hBegun₃, hCooling⟩
      split
      · exact rests_markPublished hBegun₃ hCooling
      case isFalse hNone =>
        refine ⟨hCooling, fun k hk hSome => absurd ?_ hSome⟩
        cases hk
        rw [not_not.mp hNone]
        rfl
    · exact fun e w₃ hEnd => ⟨hEnd.2, fun k hk => by cases hk⟩
  · exact fun e w₂ hEnd => ⟨hEnd.1, fun k hk => by cases hk⟩

theorem idleSleepS_nonneg : 0 ≤ idleSleepS := by decide +kernel

theorem idleDelay_nonneg (w : World) (r : Nat) : 0 ≤ w.idleDelay r := by
  rw [World.idleDelay]
  split
  · exact idleSleepS_nonneg
  · exact le_max_of_le_left idleSleepS_nonneg

/-- A sleep that the process has checked, or that it does not need. -/
theorem rests_sleep {s : ℚ} (hs : 0 ≤ s) (hCooling : Cooling w r)
    (hWithin : w.stopping r = true ∨ w.delaysWithin r s = true) :
    Rests pid r (Publisher.ask (.waitStop s)) (fun res w' => res = .ok () → Ready w' r) w := by
  apply Rests.ask
  intro w₁ n _ hStays _
  refine ⟨trivial, fun d out hExec _ hReturned => ?_⟩
  obtain ⟨-, ⟨-, hOk⟩ | ⟨e, -, rfl⟩ | ⟨e, a, -, -, -, rfl⟩⟩ := exec_cases hExec
  · simp only [perform] at hOk
    split at hOk
    case isTrue hStop =>
      cases hOk
      exact .inl hStop
    case isFalse hOn =>
      cases hOk
      obtain hStop | hLe := hWithin
      · exact absurd (hStays.stopping hStop) hOn
      · refine .inr ((hCooling.stays hStays).slept hs ?_)
        rwa [World.delaysWithin, hStays.failed, hStays.backoff]
  · cases hReturned
  · cases hReturned

theorem rests_pollOnce (hRested : Rested w r) :
    Rests pid r pollOnce (fun res w' => res = .ok () → Ready w' r) w := by
  apply Rests.bind (P := fun res w' => Cooling w' r ∧ ∀ k, res = .ok (some k) → k ≠ 0 → Ready w' r)
  · apply Layer.wp_catch (P := fun res w' => Cooling w' r ∧
      ∀ k, res = .ok (some k) → k ≠ 0 → Ready w' r)
    · apply Rests.bind (rests_processBatch hRested)
      · exact fun k w₁ hEnd => ⟨hEnd.1, fun j hj => by cases hj; exact hEnd.2 k rfl⟩
      · exact fun e w₁ hEnd => ⟨hEnd.1, fun j hj => by cases hj⟩
    · exact fun _ _ hEnd => hEnd
    · intro e w₁ hEnd
      cases e <;> exact ⟨hEnd.1, fun j hj => by cases hj⟩
  · rintro (_ | published) w₁ ⟨hCooling, hReady⟩
    · apply Rests.ask
      intro w₂ n _ hStays _
      refine ⟨trivial, fun d out hExec hPatient hReturned => ?_⟩
      obtain ⟨-, ⟨-, hOk⟩ | ⟨e, -, rfl⟩ | ⟨e, a, -, -, -, rfl⟩⟩ := exec_cases hExec
      · cases hOk
        obtain hStop | hLe := Bool.or_eq_true_iff.mp hPatient
        · exact .inl hStop
        · exact .inr ((hCooling.stays hStays).slept (by decide +kernel) hLe)
      · cases hReturned
      · cases hReturned
    · dsimp only
      split
      case isTrue hZero =>
        apply Rests.bind (P := fun res w' => Cooling w' r ∧ ∀ b, res = .ok b →
          (w'.stopping r = true ∨ w'.delaysWithin r (w'.idleDelay r) = true) ∧
            b = w'.smallestBackoff r)
        · apply Rests.ask
          intro w₂ n _ hStays _
          refine ⟨trivial, fun d out hExec hPatient => ⟨?_, fun b hReturned => ?_⟩⟩
          · exact hCooling.stays (hStays.trans (exec_idle rfl hExec))
          · obtain ⟨-, ⟨-, hOk⟩ | ⟨e, -, rfl⟩ | ⟨e, a, -, -, -, rfl⟩⟩ := exec_cases hExec
            · cases hOk
              cases hReturned
              exact ⟨Bool.or_eq_true_iff.mp hPatient, rfl⟩
            · cases hReturned
            · cases hReturned
        · rintro b w₂ ⟨hCooling', hChecked⟩
          obtain ⟨hWithin, rfl⟩ := hChecked b rfl
          exact rests_sleep (idleDelay_nonneg w₂ r) hCooling' hWithin
        · exact fun e w₂ hEnd hReturned => by cases hReturned
      case isFalse hSome => exact fun _ => hReady published rfl hSome
  · exact fun e w₁ hEnd hReturned => by cases hReturned

theorem rests_round (h : Ready w r) : Rests pid r round (fun _ _ => True) w := by
  apply Rests.bind (P := fun res w' => ∀ stop, res = .ok stop → stop = true ∨ Rested w' r)
  · apply Rests.ask
    intro w₁ n _ hStays _
    refine ⟨trivial, fun d out hExec _ stop hStop => ?_⟩
    obtain ⟨-, ⟨-, hOk⟩ | ⟨e, hRaises, -⟩ | ⟨e, a, hRaises, -, -, -⟩⟩ := exec_cases hExec
    · cases hOk
      cases hStop
      exact h.stays hStays
    · cases hRaises
    · cases hRaises
  · intro stop w₁ hStop
    have hExit : ∀ w₂, Rests pid r (Publisher.ask .exit) (fun _ _ => True) w₂ := fun w₂ =>
      Rests.ask fun _ _ _ _ _ => ⟨trivial, fun _ _ _ _ => trivial⟩
    split
    · exact hExit w₁
    case isFalse hGo =>
      apply Layer.wp_catch (P := fun _ _ => True)
      · apply Rests.bind (rests_pollOnce ((hStop stop rfl).resolve_left hGo))
        · intro _ w₂ hReady
          apply Rests.ask
          intro w₃ n _ hStays _
          exact ⟨(hReady rfl).stays hStays, fun _ _ _ _ => trivial⟩
        · exact fun _ _ _ => trivial
      · exact fun _ _ _ => trivial
      · exact fun _ w₂ _ => hExit w₂
  · exact fun _ _ _ => trivial

end

section

variable {w : World} {r pid n : Nat}

theorem loop_ready {o : Op} {d : Decision} {out : Answer o} {t : Nat}
    (hMindful : w.process r = some pid → Mindful w r o) (h : exec w r pid n o d = some out)
    (hNew : out.spawned = some t) : Ready out.shared t := by
  obtain ⟨hRun, ⟨-, hOk⟩ | ⟨e, -, rfl⟩ | ⟨e, a, -, hLossy, ha, rfl⟩⟩ := exec_cases h
  · cases o with
    | loop =>
      cases hOk
      cases hNew
      exact (hMindful hRun).stays ⟨rfl, rfl, id⟩
    | incrementAttempts i | markPublished ids =>
      obtain ⟨w₁, -, rfl⟩ := Option.map_eq_some_iff.mp hOk
      cases hNew
    | waitStop s =>
      simp only [perform] at hOk
      split at hOk <;> cases hOk <;> cases hNew
    | _ =>
      cases hOk
      cases hNew
  · cases hNew
  · cases o with
    | incrementAttempts i | markPublished ids =>
      obtain ⟨w₁, -, rfl⟩ := Option.map_eq_some_iff.mp ha
      cases hNew
    | selectBatch limit | commit =>
      cases ha
      cases hNew
    | _ => cases hLossy

theorem boot_ready {a : EnvAction} {out : World × Option Nat} {t : Nat} (h : env w n a = some out)
    (hNew : out.2 = some t) : Ready out.1 t := by
  cases a with
  | boot r =>
    simp only [env] at h
    split at h <;> cases h
    cases hNew
    right
    intro i b hb
    simp at hb
  | insert row | reap p =>
    simp only [env] at h
    split at h <;> cases h
    cases hNew
  | crash r | sigterm r | tick dt =>
    cases h
    cases hNew

end

theorem rests_fit : restLayer.Fits patientPublisher contract where
  steady := steady_rests
  exec w r pid n o d out hInv _ _ hMindful hOut := by
    obtain ⟨-, hExec⟩ := guarded_exec hOut
    refine ⟨trivial, fun q u o' hq hne => ?_, fun t hNew => ?_⟩
    · exact (exec_apart hExec).own (exec_cases hExec).1 hq hne
    · exact rests_round (loop_ready hMindful hExec hNew)
  env w n a out hInv _ hEnv :=
    ⟨trivial, fun _ _ _ hq => env_own hEnv hq, fun _ hNew => rests_round (boot_ready hEnv hNew)⟩

/-- In every run of publishers in which each sleep suits the rows that failed before it. -/
theorem backoff_honoured {S : PublisherState}
    (h : publisher.Reach (fun S l => Machine.allows patient S l = true) blank S) :
    BackoffHonoured S := by
  have hBlank : restLayer.Carried patientPublisher contract blank :=
    ⟨kept_blank.guarded, trivial, fun _ _ hp => by cases hp⟩
  have hCarried := hBlank.reach rests_fit sound.guarded h.guarded
  intro pid r topic e k hProc hRun
  exact hCarried.req rests_fit sound.guarded hProc hRun

namespace Delays

def row (i : Id) (at' : Micros) : OutboxRow :=
  ⟨i, "room", 54, "RoomCreated", "\x7b\x7d", at', none, 0⟩

/-- The program of the replica is about to send the event. -/
def sending (pid r : Nat) (i : Id) (S : PublisherState) : Bool :=
  S.shared.process r = some pid &&
    match S.procs[pid]? with
    | some ⟨u, .call (.sendAndWait _ e) _⟩ => u = r && e.eventId = i
    | _ => false

def calls (pid k : Nat) : List PublisherLabel := List.replicate k (.op pid {})

def refusal (pid : Nat) : PublisherLabel := .op pid { fault := .fail .kafka }

/-- One row, whose send is refused; the next round is about to send it again. -/
def alone : List PublisherLabel :=
  [.env (.insert (row 1 0)), .env (.boot 0)] ++ calls 0 3 ++ [refusal 0] ++ calls 0 6 ++ calls 1 3

/-- Two rows: the send of the first is refused, the second is published. -/
def mixed : List PublisherLabel :=
  [.env (.insert (row 1 0)), .env (.insert (row 2 1)), .env (.boot 0)] ++ calls 0 3 ++ [refusal 0] ++
    calls 0 7 ++ calls 1 3

end Delays

theorem BackoffHonoured.of_sending {S : PublisherState} {pid r : Nat} {i : Id} {b : ℚ}
    (h : BackoffHonoured S) (hSending : Delays.sending pid r i S = true)
    (hDelay : S.shared.backoff r i = some b) : b ≤ S.shared.rest r i := by
  obtain ⟨hRun, hCall⟩ := Bool.and_eq_true_iff.mp hSending
  split at hCall
  case h_1 u topic e k hProc =>
    obtain ⟨hReplica, hId⟩ := Bool.and_eq_true_iff.mp hCall
    obtain rfl := of_decide_eq_true hReplica
    obtain rfl := of_decide_eq_true hId
    exact h pid u topic e k hProc (of_decide_eq_true hRun) b hDelay
  case h_2 => cases hCall

theorem backoff_honoured_alone : ∃ S : PublisherState, BackoffHonoured S ∧
    Delays.sending 1 0 1 S = true ∧ S.shared.backoff 0 1 = some (1 / 2) := by
  have hRun : (publisher.runWhile (Machine.allows patient) blank Delays.alone).any
      (fun S => Delays.sending 1 0 1 S && S.shared.backoff 0 1 = some (1 / 2)) = true := by
    decide +kernel
  obtain ⟨S, hReach, hS⟩ := Machine.Reach.exists_of_runWhile hRun
  obtain ⟨hSending, hDelay⟩ := Bool.and_eq_true_iff.mp hS
  exact ⟨S, backoff_honoured hReach, hSending, of_decide_eq_true hDelay⟩

/-- A batch that has published another row goes on to the next without a sleep. -/
theorem refused_row_sent_again : ∃ S, publisher.Reach (fun _ _ => True) blank S ∧
    ¬ BackoffHonoured S := by
  have hRun : (publisher.run blank Delays.mixed).any
      (fun S => Delays.sending 1 0 1 S && S.shared.backoff 0 1 = some (1 / 2) &&
        S.shared.rest 0 1 = 0) = true := by
    decide +kernel
  obtain ⟨S, hReach, hS⟩ := Machine.Reach.exists_of_run hRun
  refine ⟨S, hReach, fun hHonoured => ?_⟩
  simp only [Bool.and_eq_true, decide_eq_true_eq] at hS
  obtain ⟨⟨hSending, hDelay⟩, hRest⟩ := hS
  have hLe := hHonoured.of_sending hSending hDelay
  rw [hRest] at hLe
  exact absurd hLe (by decide +kernel)

end LiveQuiz.Publisher
