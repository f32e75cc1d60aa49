import LiveQuiz.Stream.Rounds

/-! # Rows and claims

A claim allows one row of its event in each table. The rows that ClickHouse took, those
in the buffers, and those a program is still going to hand over, stay within what the
claims allow.
-/

namespace LiveQuiz.Stream

open Coroutine

set_option autoImplicit false

def Row.eventId : Row → Int
  | .raw row => row.eventId
  | .answer row => row.eventId

/-- How many of the rows are rows of the event in the table. -/
def tally (table : String) (i : Int) (rows : List (String × Row)) : Nat :=
  rows.countP fun x => x.1 = table ∧ x.2.eventId = i

namespace Once

/-- What the claims allow covers all rows there are and `extra` more. -/
def Within (extra : String → Int → Nat) (w : World) : Prop :=
  ∀ table i, tally table i w.inserted + tally table i (pending w.client.buffers) + extra table i ≤
    if i ∈ w.seen then 1 else 0

structure Inv (w : World) : Prop where
  within : Within (fun _ _ => 0) w
  tables : (w.client.buffers.map Buffer.table).Nodup

/-- The process is still the one it was, and so are the rows and the claims. -/
structure Same (pid : Nat) (w w' : World) : Prop where
  process : w.process = some pid
  client : w'.client = w.client
  inserted : w'.inserted = w.inserted
  seen : w'.seen = w.seen

def Req (w : World) : Op → Prop
  | .insert b => Within (fun table i => tally table i b.tagged) w
  | .insertMany table rows _ =>
    Within (fun table' i => tally table' i (rows.map fun r => (table, r))) w
  | _ => True

def contract : Contract World Op Exn Unit Unit where
  inv _ := Inv
  rely pid w w' := w'.process = some pid → Same pid w w'
  req pid _ w o := w.process = some pid → Req w o
  post _ _ _ _ := True

def keepsClaims (_ : World) : EnvAction → Bool
  | .expire _ => false
  | _ => true

def persistent (L : Outside) : Machine World Op Op.Res Exn Unit Unit Decision EnvAction :=
  (worker L).restrict (fun _ _ _ => true) keepsClaims

abbrev Runs (L : Outside) (pid : Nat) {α : Type} (p : Coro α) (Q : Except Exn α → World → Prop)
    (w : World) : Prop :=
  wp (persistent L) contract pid () p Q w

section

variable {L : Outside} {w w' : World} {pid n : Nat} {extra extra' : String → Int → Nat}

theorem tally_append (table : String) (i : Int) (xs ys : List (String × Row)) :
    tally table i (xs ++ ys) = tally table i xs + tally table i ys := List.countP_append

theorem tally_perm {xs ys : List (String × Row)} (h : xs.Perm ys) (table : String) (i : Int) :
    tally table i xs = tally table i ys := h.countP_eq _

theorem tally_singleton (table : String) (i : Int) (x : String × Row) :
    tally table i [x] = if x.1 = table ∧ x.2.eventId = i then 1 else 0 := by
  simp only [tally, List.countP_cons, List.countP_nil, decide_eq_true_eq, Nat.zero_add]

theorem Within.mono (h : Within extra w) (hLe : ∀ table i, extra' table i ≤ extra table i) :
    Within extra' w := by
  intro table i
  have hOld := h table i
  have := hLe table i
  omega

theorem Within.same (h : Within extra w) (hClient : w'.client = w.client)
    (hInserted : w'.inserted = w.inserted) (hSeen : w'.seen = w.seen) : Within extra w' := by
  intro table i
  rw [hClient, hInserted, hSeen]
  exact h table i

theorem Within.insert {b : Batch Row}
    (h : Within (fun table i => tally table i b.tagged + extra table i) w) :
    Within extra (w.insert b) := by
  intro table i
  have hOld := h table i
  have hNew : tally table i (w.insert b).inserted =
      tally table i w.inserted + tally table i b.tagged := tally_append _ _ _ _
  rw [hNew]
  change _ + tally table i (pending w.client.buffers) + _ ≤ if i ∈ w.seen then 1 else 0
  dsimp only at hOld
  omega

theorem Within.moved {client : Client Row} {rows out : List (String × Row)}
    (h : Within (fun table i => tally table i rows + extra table i) w)
    (hPerm : (pending client.buffers ++ out).Perm (pending w.client.buffers ++ rows)) :
    Within (fun table i => tally table i out + extra table i) { w with client := client } := by
  intro table i
  have hOld := h table i
  have hCount := tally_perm hPerm table i
  rw [tally_append, tally_append] at hCount
  dsimp only at hOld ⊢
  omega

/-- Nothing has been stored of an event that was not claimed. -/
theorem Within.claimed {i : Int} (h : Within (fun _ _ => 0) w) (hNew : i ∉ w.seen) :
    Within (fun _ j => if j = i then 1 else 0) { w with seen := i :: w.seen } := by
  intro table j
  have hOld := h table j
  dsimp only
  by_cases hj : j = i
  · subst hj
    rw [if_neg hNew] at hOld
    rw [if_pos rfl, if_pos List.mem_cons_self]
    omega
  · have hSeen : (j ∈ i :: w.seen) = (j ∈ w.seen) := by simp [hj]
    rw [if_neg hj]
    simp only [hSeen]
    exact hOld

theorem Runs.ask {o : Op} {Q : Except Exn o.Res → World → Prop}
    (h : ∀ w₁, Same pid w w₁ → Inv w₁ → Req w₁ o ∧
      ∀ n d out, exec L w₁ () pid n o d = some out → Q out.result out.shared) :
    Runs L pid (Stream.ask o) Q w := by
  refine wp_perform fun w₁ n _ hRely hInv => ?_
  refine ⟨fun hProcess => (h w₁ (hRely hProcess) hInv).1, fun d out hExec => ?_⟩
  have hExec' : exec L w₁ () pid n o d = some out := hExec
  exact (h w₁ (hRely (exec_cases hExec').1) hInv).2 n d out hExec'

theorem Runs.any {o : Op} (h : ∀ w₁, Req w₁ o) :
    Runs L pid (Stream.ask o) (fun _ _ => True) w :=
  Runs.ask fun w₁ _ _ => ⟨h w₁, fun _ _ _ _ => trivial⟩

theorem runs_bind {α β : Type} {p : Coro α} {f : α → Coro β} {P : Except Exn α → World → Prop}
    (h : Runs L pid p P w) (hNext : ∀ a w', P (.ok a) w' → Runs L pid (f a) (fun _ _ => True) w') :
    Runs L pid (p >>= f) (fun _ _ => True) w := by
  refine wp_bind (wp_mono h fun r s hr => ?_)
  cases r with
  | ok a => exact hNext a s hr
  | error e => trivial

theorem runs_caught {α : Type} {p : Coro α} (h : Runs L pid p (fun _ _ => True) w) :
    Runs L pid (caught p) (fun _ _ => True) w := by
  refine wp_handle (wp_bind (wp_mono h fun r s _ => ?_))
  cases r <;> trivial

theorem runs_python {α β : Type} {r : Except Exn α} {f : α → Coro β}
    (h : ∀ a, r = .ok a → Runs L pid (f a) (fun _ _ => True) w) :
    Runs L pid (python r >>= f) (fun _ _ => True) w := by
  cases r with
  | ok a => exact h a rfl
  | error e => trivial

theorem exec_insert {b : Batch Row} {d : Decision} {out : Answer (.insert b)}
    (h : exec L w () pid n (.insert b) d = some out) : out.shared = w ∨ out.shared = w.insert b := by
  obtain ⟨-, ⟨-, hOk⟩ | ⟨-, -, -, ⟨-, hEq⟩ | ⟨-, a, ha, hEq⟩⟩⟩ := exec_cases h
  · cases hOk
    exact .inr rfl
  · exact .inl hEq
  · cases ha
    exact .inr hEq

theorem runs_doInserts {bs : List (Batch Row)}
    (h : Within (fun table i => tally table i (handedOut bs) + extra table i) w) :
    Runs L pid (doInserts bs) (fun _ w' => Within extra w') w := by
  induction bs generalizing w with
  | nil => exact h.mono fun table i => Nat.le_add_left _ _
  | cons b bs ih =>
    have hSplit : Within (fun table i => tally table i b.tagged +
        (tally table i (handedOut bs) + extra table i)) w := by
      intro table i
      have hAll := h table i
      have hCons : tally table i (handedOut (b :: bs)) =
          tally table i b.tagged + tally table i (handedOut bs) := tally_append _ _ _ _
      dsimp only at hAll ⊢
      rw [hCons] at hAll
      omega
    have hRest : Within (fun table i => tally table i (handedOut bs) + extra table i) w :=
      hSplit.mono fun table i => Nat.le_add_left _ _
    refine wp_bind ?_
    unfold doInsert
    split
    · exact ih hRest
    · refine Runs.ask fun w₁ hSame _ => ?_
      have hSplit₁ := hSplit.same hSame.client hSame.inserted hSame.seen
      refine ⟨hSplit₁.mono fun table i => Nat.le_add_right _ _, fun n d out hExec => ?_⟩
      have hKept : Within (fun table i => tally table i (handedOut bs) + extra table i) out.shared := by
        obtain hEq | hEq := exec_insert hExec
        · rw [hEq]
          exact hSplit₁.mono fun table i => Nat.le_add_left _ _
        · rw [hEq]
          exact hSplit₁.insert
      split
      · exact ih hKept
      · exact hKept.mono fun table i => Nat.le_add_left _ _

/-- What a method of the client does to its buffers, and the inserts that follow. -/
structure Method (L : Outside) (o : Op) (f : o.Res → Coro Unit)
    (step : World → Client Row × List (Batch Row)) : Prop where
  exec : ∀ {w pid n d} {out : Answer o}, exec L w () pid n o d = some out →
    out.shared = { w with client := (step w).1 } ∧
      ∃ a, out.result = .ok a ∧ f a = doInserts (step w).2

theorem runs_method {o : Op} {f : o.Res → Coro Unit} {step : World → Client Row × List (Batch Row)}
    {rows : List (String × Row)} (hMethod : Method L o f step)
    (h : ∀ w₁, Same pid w w₁ → Inv w₁ →
      Within (fun table i => tally table i rows + extra table i) w₁)
    (hReq : ∀ w₁, Within (fun table i => tally table i rows + extra table i) w₁ → Req w₁ o)
    (hPerm : ∀ w₁, (w₁.client.buffers.map Buffer.table).Nodup →
      (pending (step w₁).1.buffers ++ handedOut (step w₁).2).Perm
        (pending w₁.client.buffers ++ rows)) :
    Runs L pid (Stream.ask o >>= f) (fun _ w' => Within extra w') w := by
  refine wp_bind (Runs.ask fun w₁ hSame hInv => ?_)
  have h₁ := h w₁ hSame hInv
  refine ⟨hReq w₁ h₁, fun n d out hOut => ?_⟩
  obtain ⟨hShared, a, ha, hNext⟩ := hMethod.exec hOut
  rw [ha, hShared]
  change Runs L pid (f a) _ _
  rw [hNext]
  exact runs_doInserts (h₁.moved (hPerm w₁ hInv.tables))

theorem runs_insertMany {table : String} {row : Row} {columns : List String}
    (h : Within (fun table' i => tally table' i [(table, row)] + extra table' i) w) :
    Runs L pid (insertMany table [row] columns) (fun _ w' => Within extra w') w := by
  have hMethod : Method L (.insertMany table [row] columns) doInserts
      fun w₁ => w₁.client.insertMany table [row] columns w₁.now := by
    constructor
    intro w₁ pid n d out hOut
    obtain ⟨-, ⟨-, hOk⟩ | ⟨hFallible, -⟩⟩ := exec_cases hOut
    · cases hOk
      exact ⟨rfl, _, rfl, rfl⟩
    · cases hFallible
  refine runs_method hMethod (fun w₁ hSame _ => h.same hSame.client hSame.inserted hSame.seen) ?_ ?_
  · exact fun w₁ h₁ => h₁.mono fun table' i => Nat.le_add_right _ _
  · exact fun w₁ hTables => Client.insertMany_perm table [row] columns w₁.now hTables

theorem runs_flush {o : Op} {f : o.Res → Coro Unit} {step : World → Client Row × List (Batch Row)}
    (hMethod : Method L o f step) (hReq : ∀ w₁, Req w₁ o)
    (hPerm : ∀ w₁, (pending (step w₁).1.buffers ++ handedOut (step w₁).2).Perm
      (pending w₁.client.buffers)) :
    Runs L pid (Stream.ask o >>= f) (fun _ _ => True) w := by
  have hNone : ∀ w₁, Same pid w w₁ → Inv w₁ →
      Within (fun table i => tally table i [] + (fun _ _ => 0) table i) w₁ :=
    fun w₁ _ hInv => hInv.within
  refine wp_mono (runs_method hMethod hNone (fun w₁ _ => hReq w₁) fun w₁ _ => ?_) fun _ _ _ => trivial
  rw [List.append_nil]
  exact hPerm w₁

theorem runs_flushAll : Runs L pid flushAll (fun _ _ => True) w := by
  have hMethod : Method L .flushAll doInserts fun w₁ => w₁.client.flushAll w₁.now := by
    constructor
    intro w₁ pid n d out hOut
    obtain ⟨-, ⟨-, hOk⟩ | ⟨hFallible, -⟩⟩ := exec_cases hOut
    · cases hOk
      exact ⟨rfl, _, rfl, rfl⟩
    · cases hFallible
  exact runs_flush hMethod (fun _ => trivial) fun w₁ => drain_perm _ _ _

theorem runs_maybeFlush : Runs L pid maybeFlush (fun _ _ => True) w := by
  have hMethod : Method L .maybeFlush doInserts fun w₁ => w₁.client.maybeFlush w₁.now := by
    constructor
    intro w₁ pid n d out hOut
    obtain ⟨-, ⟨-, hOk⟩ | ⟨hFallible, -⟩⟩ := exec_cases hOut
    · cases hOk
      exact ⟨rfl, _, rfl, rfl⟩
    · cases hFallible
  exact runs_flush hMethod (fun _ => trivial) fun w₁ => drain_perm _ _ _

abbrev Fresh (i : Int) (w : World) : Prop := Within (fun _ j => if j = i then 1 else 0) w

theorem raw_eventId {env : Envelope} {row : EventsRawRow} (h : envelopeToRawRow L env = .ok row) :
    row.eventId = env.eventId := by
  unfold envelopeToRawRow at h
  simp only [bind, Except.bind, pure, Except.pure] at h
  repeat' split at h
  all_goals cases h
  rfl

theorem answer_eventId {env : Envelope} {m r p q : Int} {row : AnswerEventsRow}
    (h : answerEventsRow L env m r p q = .ok row) : row.eventId = env.eventId := by
  unfold answerEventsRow at h
  simp only [bind, Except.bind, pure, Except.pure] at h
  repeat' split at h
  all_goals cases h
  all_goals rfl

theorem Within.first {i : Int} {table : String} {row : Row} (h : Fresh i w) (hRow : row.eventId = i) :
    Within (fun table' j => tally table' j [(table, row)] +
      if j = i ∧ table' ≠ table then 1 else 0) w := by
  refine h.mono fun table' j => ?_
  rw [tally_singleton]
  dsimp only
  by_cases hj : j = i
  · by_cases hTable : table' = table
    · simp [hj, hTable, hRow]
    · simp [hj, hTable, Ne.symm hTable]
  · simp [hj, hRow, Ne.symm hj]

theorem runs_insertRaw {env : Envelope} {row : EventsRawRow} (h : Fresh env.eventId w)
    (hRow : envelopeToRawRow L env = .ok row) :
    Runs L pid (insertMany eventsRawTable [.raw row] eventsRawColumns)
      (fun _ w' => Within (fun table j => if j = env.eventId ∧ table ≠ eventsRawTable then 1 else 0) w')
      w :=
  runs_insertMany (h.first (raw_eventId hRow))

theorem runs_handleRoom {env : Envelope} (h : Fresh env.eventId w) :
    Runs L pid (handleRoom L env) (fun _ _ => True) w := by
  refine runs_python fun row hRow => ?_
  exact wp_mono (runs_insertRaw h hRow) fun _ _ _ => trivial

theorem runs_handleAnswer {env : Envelope} (h : Fresh env.eventId w) :
    Runs L pid (handleAnswer L env) (fun _ _ => True) w := by
  refine runs_python fun matchId _ => runs_python fun roomId _ => runs_python fun participantId _ =>
    runs_python fun questionId _ => runs_python fun raw hRaw => ?_
  refine runs_bind (runs_insertRaw h hRaw) fun _ w₁ h₁ => ?_
  split
  next m r p q _ =>
    refine runs_python fun row hRow => ?_
    have hSecond : Within (fun table j => tally table j [(answerEventsTable, .answer row)] + 0) w₁ := by
      refine h₁.mono fun table j => ?_
      rw [tally_singleton]
      dsimp only
      split
      next hEq =>
        obtain ⟨rfl, rfl⟩ := hEq
        rw [if_pos ⟨answer_eventId hRow, by decide⟩]
      · exact Nat.zero_le _
    exact wp_mono (runs_insertMany hSecond) fun _ _ _ => trivial
  · trivial

theorem runs_computeSnapshot {matchId : Int} :
    Runs L pid (computeSnapshot matchId) (fun _ _ => True) w := by
  refine runs_bind runs_flushAll fun _ w₁ _ => ?_
  refine runs_bind (Runs.any fun _ => trivial) fun rows w₂ _ => ?_
  refine runs_bind (Runs.any fun _ => trivial) fun times w₃ _ => ?_
  cases times <;> trivial

theorem runs_handleMatch {env : Envelope} (h : Fresh env.eventId w) :
    Runs L pid (handleMatch L env) (fun _ _ => True) w := by
  refine runs_python fun row hRow => ?_
  refine runs_bind (runs_insertRaw h hRow) fun _ w₁ h₁ => ?_
  split
  · trivial
  · refine runs_python fun found _ => ?_
    refine runs_bind (runs_caught runs_computeSnapshot) fun snapshot w₂ _ => ?_
    cases snapshot with
    | none => trivial
    | some snapshot =>
      exact runs_bind (runs_caught (Runs.any fun _ => trivial)) fun _ _ _ => trivial

theorem runs_dispatch {env : Envelope} (h : Fresh env.eventId w) :
    Runs L pid (dispatch L env) (fun _ _ => True) w := by
  unfold dispatch
  split
  · exact runs_handleRoom h
  · split
    · exact runs_handleMatch h
    · split
      · exact runs_handleAnswer h
      · split <;> exact runs_handleRoom h

theorem exec_claim_true {i : Int} {d : Decision} {out : Answer (.claim i)}
    (h : exec L w () pid n (.claim i) d = some out) (hTrue : out.result = .ok true) :
    i ∉ w.seen ∧ out.shared = { w with seen := i :: w.seen } := by
  obtain ⟨-, ⟨-, hOk⟩ | ⟨-, hErr, -⟩⟩ := exec_cases h
  · simp only [perform] at hOk
    split at hOk
    · cases hOk
      cases hTrue
    next hNew =>
      cases hOk
      exact ⟨hNew, rfl⟩
  · rw [hErr] at hTrue
    cases hTrue

theorem runs_claim {i : Int} :
    Runs L pid (caught (ask (.claim i))) (fun r w' => r = .ok (some true) → Fresh i w') w := by
  refine wp_handle (wp_bind (Runs.ask fun w₁ _ hInv => ⟨trivial, fun n d out hExec => ?_⟩))
  cases hResult : out.result with
  | error e =>
    intro hEq
    cases hEq
  | ok b =>
    intro hEq
    cases hEq
    obtain ⟨hNew, hShared⟩ := exec_claim_true hExec hResult
    rw [hShared]
    exact hInv.within.claimed hNew

theorem runs_handleMessage {msg : ConsumerRecord} :
    Runs L pid (handleMessage L msg) (fun _ _ => True) w := by
  unfold handleMessage
  split
  · trivial
  · trivial
  next env _ =>
    split
    · trivial
    · refine runs_bind runs_claim fun claimed w₁ h₁ => ?_
      cases claimed with
      | none => trivial
      | some firstTime =>
        cases firstTime with
        | false => trivial
        | true =>
          refine runs_bind (runs_caught (runs_dispatch (h₁ rfl))) fun _ _ _ => trivial

theorem runs_handlePartition {tp : TopicPartition} {msgs : List ConsumerRecord}
    {safe : List (TopicPartition × Nat)} :
    Runs L pid (handlePartition L tp msgs safe) (fun _ _ => True) w := by
  induction msgs generalizing safe w with
  | nil => trivial
  | cons msg msgs ih =>
    refine runs_bind runs_handleMessage fun ok w₁ _ => ?_
    cases ok with
    | true => exact ih
    | false => trivial

theorem runs_handleRecords {records : List (TopicPartition × List ConsumerRecord)}
    {safe : List (TopicPartition × Nat)} :
    Runs L pid (handleRecords L records safe) (fun _ _ => True) w := by
  induction records generalizing safe w with
  | nil => trivial
  | cons record records ih =>
    refine runs_bind runs_handlePartition fun out w₁ _ => ?_
    dsimp only
    split
    · trivial
    · exact ih

theorem runs_pollCycle : Runs L pid (pollCycle L) (fun _ _ => True) w := by
  refine runs_bind (runs_caught (Runs.any fun _ => trivial)) fun polled w₁ _ => ?_
  cases polled with
  | none => exact Runs.any fun _ => trivial
  | some records =>
    dsimp only
    split
    · exact runs_maybeFlush
    · refine runs_bind runs_handleRecords fun out w₂ _ => ?_
      refine runs_bind (runs_caught runs_flushAll) fun flushed w₃ _ => ?_
      cases flushed with
      | none => exact Runs.any fun _ => trivial
      | some _ =>
        dsimp only
        split
        · refine runs_bind (runs_caught (Runs.any fun _ => trivial)) fun _ w₄ _ => ?_
          split
          · exact Runs.any fun _ => trivial
          · trivial
        · split
          · exact Runs.any fun _ => trivial
          · trivial

theorem runs_shutdown : Runs L pid shutdown (fun _ _ => True) w :=
  runs_bind (runs_caught runs_flushAll) fun _ _ _ => Runs.any fun _ => trivial

theorem runs_round : Runs L pid (round L) (fun _ _ => True) w := by
  refine runs_bind (Runs.any fun _ => trivial) fun stop w₁ _ => ?_
  split
  · exact runs_shutdown
  · refine runs_bind (runs_caught runs_pollCycle) fun done w₂ _ => ?_
    cases done with
    | none => exact runs_shutdown
    | some _ => exact Runs.any fun _ => trivial

theorem Inv.same (h : Inv w) (hClient : w'.client = w.client) (hInserted : w'.inserted = w.inserted)
    (hSeen : w'.seen = w.seen) : Inv w' :=
  ⟨h.within.same hClient hInserted hSeen, hClient ▸ h.tables⟩

theorem Inv.drained (h : Inv w) (due : Buffer Row → Bool) (now : Int) :
    Inv { w with client := { w.client with buffers := (drain due now w.client.buffers).1 } } := by
  have hNone : Within (fun table i => tally table i [] + (fun _ _ => 0) table i) w := h.within
  have hPerm := drain_perm due now w.client.buffers
  rw [← List.append_nil (pending w.client.buffers)] at hPerm
  constructor
  · exact (hNone.moved hPerm).mono fun _ _ => Nat.zero_le _
  · dsimp only
    rw [drain_tables]
    exact h.tables

theorem perform_inv {o : Op} {d : Decision} {a : Answer o} (hInv : Inv w) (hReq : Req w o)
    (h : perform L w n o d = some a) : Inv a.shared := by
  cases o with
  | getmany =>
    simp only [perform] at h
    split at h <;> cases h
    exact hInv.same rfl rfl rfl
  | claim i =>
    simp only [perform] at h
    split at h
    · cases h
      exact hInv
    next hNew =>
      cases h
      exact ⟨(hInv.within.claimed hNew).mono fun _ _ => Nat.zero_le _, hInv.tables⟩
  | insert b =>
    cases h
    have hInserted : Within (fun table i => tally table i b.tagged + (fun _ _ => 0) table i) w := hReq
    exact ⟨hInserted.insert, hInv.tables⟩
  | insertMany table rows columns =>
    cases h
    have hRows : Within (fun table' i => tally table' i (rows.map fun r => (table, r)) +
        (fun _ _ => 0) table' i) w := hReq
    refine ⟨(hRows.moved (Client.insertMany_perm table rows columns w.now hInv.tables)).mono ?_, ?_⟩
    · exact fun _ _ => Nat.zero_le _
    · exact Client.insertMany_tables table rows columns w.now hInv.tables
  | maybeFlush =>
    cases h
    exact hInv.drained _ _
  | flushAll =>
    cases h
    exact hInv.drained _ _
  | _ =>
    cases h
    exact hInv.same rfl rfl rfl

theorem raised_inv (h : Inv w) (o : Op) : Inv (w.raised o) := by
  cases o <;> exact h.same rfl rfl rfl

theorem exec_inv {o : Op} {d : Decision} {out : Answer o} (hInv : Inv w)
    (hReq : w.process = some pid → Req w o) (h : exec L w () pid n o d = some out) :
    Inv out.shared := by
  obtain ⟨hProcess, ⟨-, hOk⟩ | ⟨-, -, -, ⟨-, hEq⟩ | ⟨-, a, ha, hEq⟩⟩⟩ := exec_cases h
  · exact perform_inv hInv (hReq hProcess) hOk
  · exact hEq ▸ raised_inv hInv o
  · exact hEq ▸ raised_inv (perform_inv hInv (hReq hProcess) ha) o

theorem restart_inv (h : Inv w) (hClient : w'.client = {}) (hInserted : w'.inserted = w.inserted)
    (hSeen : w'.seen = w.seen) : Inv w' := by
  constructor
  · intro table i
    have hOld := h.within table i
    rw [hClient, hInserted, hSeen]
    have hEmpty : tally table i (pending ({} : Client Row).buffers) = 0 := rfl
    rw [hEmpty]
    omega
  · rw [hClient]
    exact List.nodup_nil

theorem env_inv {e : EnvAction} {out : World × Option Unit} (hInv : Inv w)
    (hKept : keepsClaims w e = true) (h : env w n e = some out) :
    Inv out.1 ∧ ∀ q, q < n → out.1.process = some q → Same q w out.1 := by
  have hSame : ∀ w' : World, w'.process = w.process → w'.client = w.client →
      w'.inserted = w.inserted → w'.seen = w.seen →
      Inv w' ∧ ∀ q, q < n → w'.process = some q → Same q w w' := by
    intro w' hProcess hClient hInserted hSeen
    refine ⟨hInv.same hClient hInserted hSeen, fun q _ hq => ⟨?_, hClient, hInserted, hSeen⟩⟩
    rw [← hProcess, hq]
  cases e with
  | expire i => cases hKept
  | restart =>
    cases h
    refine ⟨restart_inv hInv rfl rfl rfl, fun q hq hProcess => ?_⟩
    cases hProcess
    omega
  | merge i =>
    simp only [env] at h
    split at h <;> cases h
    exact hSame _ rfl rfl rfl rfl
  | _ =>
    cases h
    exact hSame _ rfl rfl rfl rfl

end

theorem sound (L : Outside) : Sound (persistent L) contract where
  rely_trans pid w₁ w₂ w₃ h h' hProcess := by
    have h₂₃ := h' hProcess
    have h₁₂ := h h₂₃.process
    exact ⟨h₁₂.process, h₂₃.client.trans h₁₂.client, h₂₃.inserted.trans h₁₂.inserted,
      h₂₃.seen.trans h₁₂.seen⟩
  rely_refl pid w hProcess := ⟨hProcess, rfl, rfl, rfl⟩
  post_rely _ _ _ _ _ _ _ := trivial
  exec w t pid n o d out hInv hReq _ hExec := by
    have hExec' : exec L w () pid n o d = some out := hExec
    refine ⟨exec_inv hInv hReq hExec', fun q hq hNe hProcess => ?_, fun t' _ => runs_round⟩
    exact absurd hProcess (exec_process hExec' hq hNe)
  env w n e out hInv hEnv := by
    change (if keepsClaims w e then env w n e else none) = some out at hEnv
    split at hEnv
    next hKept =>
      obtain ⟨hInv', hSame⟩ := env_inv hInv hKept hEnv
      exact ⟨hInv', hSame, fun t' _ => runs_round⟩
    · cases hEnv

theorem kept_blank (L : Outside) : Kept (persistent L) contract blank := by
  refine ⟨⟨?_, List.nodup_nil⟩, fun _ _ h => by cases h⟩
  intro table i
  exact Nat.zero_le _

end Once

end LiveQuiz.Stream
