import LiveQuiz.Stream.Worker
import LiveQuiz.Lib.Contract

/-! # Runs in which nothing is dropped

The worker claims an event before it stores the event's rows, and never goes back to
an earlier position. So a message is safe as long as every claimed event gets its
rows through: `careful` admits the runs in which it does, and the contract carries
the rows through one round of the loop, in the buffers or on their way.
-/

namespace LiveQuiz.Stream

open Coroutine

set_option autoImplicit false

def storable (L : Outside) (value : Bytes) : Option Envelope :=
  match L.parseEnvelope value with
  | .ok env => if env.schemaVersion = currentSchemaVersion then some env else none
  | .error _ => none

/-- The rows of an event: its `events_raw` row, and the `answer_events` row of an
AnswerSubmitted with all four ids. -/
def rowsOf (L : Outside) (env : Envelope) : Except Exn (List (String × Row)) := do
  let raw ← envelopeToRawRow L env
  if env.eventType ∈ answerEventTypes then
    let (some m, some r, some p, some q) :=
      (raw.matchId, raw.roomId, raw.participantId, raw.questionId)
      | return [(eventsRawTable, .raw raw)]
    let row ← answerEventsRow L env m r p q
    return [(eventsRawTable, .raw raw), (answerEventsTable, .answer row)]
  else return [(eventsRawTable, .raw raw)]

def written (L : Outside) (w : World) (env : Envelope) : Bool :=
  match rowsOf L env with
  | .ok rows => rows.all (· ∈ w.inserted)
  | .error _ => false

/-- No insert raises, no claim takes effect and raises, and after a claim that
raised the process does not poll again. -/
def carefulOp (w : World) : Op → Decision → Bool
  | .insert _, d => d.fault = .none
  | .claim _, d => d.fault ≠ .lost
  | .getmany, _ => !w.claimFailed
  | _, _ => true

/-- A restart finds the rows of all claimed events written. A message can be made
into rows, and has the envelope of the earlier messages with its event id. -/
def carefulEnv (L : Outside) (w : World) : EnvAction → Bool
  | .restart => w.log.all fun m => (storable L m.2).all fun env =>
    env.eventId ∉ w.seen ∨ written L w env
  | .produce _ value => (storable L value).all fun env => (rowsOf L env).isOk &&
    w.log.all fun m => (storable L m.2).all fun env' => env'.eventId ≠ env.eventId ∨ env' = env
  | _ => true

def careful (L : Outside) : Machine World Op Op.Res Exn Unit Unit Decision EnvAction :=
  (worker L).restrict carefulOp (carefulEnv L)

section

variable {L : Outside} {w w' : World} {pid n : Nat}

def Written (L : Outside) (w : World) (env : Envelope) : Prop :=
  ∃ rows, rowsOf L env = .ok rows ∧ ∀ x ∈ rows, x ∈ w.inserted

/-- Each row of the event has been inserted, waits in a buffer, or is in `hand`. -/
def Stored (L : Outside) (hand : List (String × Row)) (w : World) (env : Envelope) : Prop :=
  ∃ rows, rowsOf L env = .ok rows ∧
    ∀ x ∈ rows, x ∈ w.inserted ∨ x ∈ pending w.client.buffers ∨ x ∈ hand

theorem written_iff {env : Envelope} : written L w env = true ↔ Written L w env := by
  unfold written Written
  cases rowsOf L env with
  | ok rows => simp
  | error e => simp

theorem Stored.mono {hand hand' : List (String × Row)} {env : Envelope}
    (h : Stored L hand w env)
    (hRow : ∀ x, (x ∈ w.inserted ∨ x ∈ pending w.client.buffers ∨ x ∈ hand) →
      x ∈ w'.inserted ∨ x ∈ pending w'.client.buffers ∨ x ∈ hand') : Stored L hand' w' env := by
  obtain ⟨rows, hRows, hIn⟩ := h
  exact ⟨rows, hRows, fun x hx => hRow x (hIn x hx)⟩

theorem Stored.written {env : Envelope} (h : Stored L [] w env)
    (hEmpty : pending w.client.buffers = []) : Written L w env := by
  obtain ⟨rows, hRows, hIn⟩ := h
  refine ⟨rows, hRows, fun x hx => ?_⟩
  obtain hx | hx | hx := hIn x hx
  · exact hx
  · rw [hEmpty] at hx
    cases hx
  · cases hx

/-- Every message below `upto` that has to be stored satisfies `P`. -/
def Upto (L : Outside) (w : World) (upto : TopicPartition → Nat) (P : Envelope → Prop) : Prop :=
  ∀ tp, upto tp ≤ (w.messages tp).length ∧ ∀ i value env, i < upto tp →
    (w.messages tp)[i]? = some value → storable L value = some env → P env

section

variable {log log' : List (TopicPartition × Bytes)}

theorem messagesOf_mono (h : log <+: log') (tp : TopicPartition) :
    messagesOf log tp <+: messagesOf log' tp :=
  (h.filter _).map _

theorem messagesOf_getElem? (h : log <+: log') {tp : TopicPartition} {i : Nat}
    (hi : i < (messagesOf log tp).length) :
    (messagesOf log' tp)[i]? = (messagesOf log tp)[i]? := by
  obtain ⟨rest, hRest⟩ := messagesOf_mono h tp
  rw [← hRest, List.getElem?_append_left hi]

theorem mem_log {tp : TopicPartition} {i : Nat} {value : Bytes}
    (h : (messagesOf log tp)[i]? = some value) : (tp, value) ∈ log := by
  obtain ⟨⟨tp', value'⟩, hm, rfl⟩ := List.mem_map.mp (List.mem_of_getElem? h)
  obtain ⟨hMem, hTp⟩ := List.mem_filter.mp hm
  obtain rfl : tp' = tp := of_decide_eq_true hTp
  exact hMem

end

theorem Upto.mono {upto : TopicPartition → Nat} {P P' : Envelope → Prop} (h : Upto L w upto P)
    (hLog : w.log <+: w'.log) (hP : ∀ env, P env → P' env) : Upto L w' upto P' := by
  intro tp
  obtain ⟨hLen, hAll⟩ := h tp
  refine ⟨hLen.trans (messagesOf_mono hLog tp).length_le, fun i value env hi hValue hEnv => ?_⟩
  rw [World.messages, messagesOf_getElem? hLog (hi.trans_le hLen)] at hValue
  exact hP env (hAll i value env hi hValue hEnv)

def OnLog (L : Outside) (w : World) (i : Int) : Prop :=
  ∃ m ∈ w.log, ∃ env, storable L m.2 = some env ∧ env.eventId = i

def Genuine (L : Outside) (w : World) (x : String × Row) : Prop :=
  ∃ m ∈ w.log, ∃ env rows, storable L m.2 = some env ∧ rowsOf L env = .ok rows ∧ x ∈ rows

theorem Genuine.mono {x : String × Row} (h : Genuine L w x) (hLog : w.log <+: w'.log) :
    Genuine L w' x := by
  obtain ⟨m, hm, hEnv⟩ := h
  exact ⟨m, hLog.subset hm, hEnv⟩

structure Inv (L : Outside) (w : World) : Prop where
  oneEnvelope : ∀ m ∈ w.log, ∀ m' ∈ w.log, ∀ env env', storable L m.2 = some env →
    storable L m'.2 = some env' → env.eventId = env'.eventId → env = env'
  convertible : ∀ m ∈ w.log, ∀ env, storable L m.2 = some env → ∃ rows, rowsOf L env = .ok rows
  committed : Upto L w w.committed (Written L w)
  claimed : ∀ i ∈ w.seen, OnLog L w i
  genuine : ∀ x, x ∈ w.inserted ∨ x ∈ pending w.client.buffers → Genuine L w x
  merged : w.tables.Sublist w.inserted

/-- The process is still the one it was, and its memory is as it was. -/
structure SameProcess (pid : Nat) (w w' : World) : Prop where
  process : w.process = some pid
  process' : w'.process = some pid
  position : w'.position = w.position
  client : w'.client = w.client
  inserted : w'.inserted = w.inserted
  claimFailed : w'.claimFailed = w.claimFailed
  log : w.log <+: w'.log
  seen : w'.seen ⊆ w.seen
  tables : w'.tables.Sublist w.tables

/-- Every claimed event is on its way, with the rest of its rows in `hand`. -/
def Settled (L : Outside) (hand : List (String × Row)) (w : World) : Prop :=
  ∀ i ∈ w.seen, ∃ m ∈ w.log, ∃ env, storable L m.2 = some env ∧ env.eventId = i ∧ Stored L hand w env

/-- At the head of the loop, all messages below the position are on their way,
unless the process has lost some to a failed claim. -/
structure AtRound (L : Outside) (w : World) : Prop where
  settled : Settled L [] w
  reached : ∃ upto, Upto L w upto (Stored L [] w) ∧ (w.claimFailed = false → upto = w.position)

def finishedMatch (L : Outside) (env : Envelope) : Option Int :=
  match optInt L (env.payload.get "match_id") with
  | .ok found =>
    if env.eventType = "MatchFinished" then
      some (if found.getD 0 = 0 then env.aggregateId else found.getD 0)
    else none
  | .error _ => none

/-- The end of the match is on the log. -/
def Finished (L : Outside) (w : World) (m : Int) : Prop :=
  ∃ x ∈ w.log, ∃ env, storable L x.2 = some env ∧ finishedMatch L env = some m

/-- The snapshot counts the answers of the match in the table, as it was before some
merges. -/
def Counted (w : World) (m : Int) (s : Snapshot) : Prop :=
  ∃ tables, w.tables.Sublist tables ∧ tables.Sublist w.inserted ∧
    s.totalAnswers = ({ w with tables := tables }.answersOf m).length

/-- What is known where a snapshot is stored. -/
structure Warm (L : Outside) (w : World) (m : Int) (s : Snapshot) : Prop where
  settled : Settled L [] w
  flushed : pending w.client.buffers = []
  finished : Finished L w m
  counted : Counted w m s

def Req (L : Outside) (w : World) : Op → Prop
  | .commit offsets =>
    Upto L w (fun tp => (offsets.lookup tp).getD (w.committed tp)) (Written L w)
  | .loop => AtRound L w
  | .claim i => OnLog L w i
  | .insert batch => ∀ x ∈ batch.tagged, Genuine L w x
  | .insertMany table rows _ => ∀ r ∈ rows, Genuine L w (table, r)
  | .setCache m s => Warm L w m s
  | _ => True

def contract (L : Outside) : Contract World Op Exn Unit Unit where
  inv _ := Inv L
  rely pid w w' := w'.process = some pid → SameProcess pid w w'
  req pid _ w o := w.process = some pid → Req L w o
  post _ _ _ _ := True

abbrev Runs (L : Outside) (pid : Nat) {α : Type} (p : Coro α) (Q : Except Exn α → World → Prop)
    (w : World) : Prop :=
  wp (careful L) (contract L) pid () p Q w

theorem exec_cases {o : Op} {d : Decision} {out : Answer o}
    (h : exec L w () pid n o d = some out) : w.process = some pid ∧
      ((d.fault = .none ∧ perform L w n o d = some out) ∨
      (o.fallible = true ∧ out.result = .error .fault ∧ out.spawned = none ∧
        ((d.fault = .fail ∧ out.shared = w.raised o) ∨
        (d.fault = .lost ∧ ∃ a, perform L w n o d = some a ∧ out.shared = a.shared.raised o)))) := by
  unfold exec at h
  split at h
  · cases h
  next hProcess =>
    refine ⟨not_not.mp hProcess, ?_⟩
    cases hFault : d.fault with
    | none =>
      simp only [hFault] at h
      exact .inl ⟨rfl, h⟩
    | fail =>
      simp only [hFault] at h
      split at h
      next hFallible =>
        cases h
        exact .inr ⟨hFallible, rfl, rfl, .inl ⟨rfl, rfl⟩⟩
      · cases h
    | lost =>
      simp only [hFault] at h
      split at h
      next hFallible =>
        obtain ⟨a, ha, rfl⟩ := Option.map_eq_some_iff.mp h
        exact .inr ⟨hFallible.1, rfl, rfl, .inr ⟨rfl, a, ha, rfl⟩⟩
      · cases h

theorem Runs.ask {o : Op} {Q : Except Exn o.Res → World → Prop}
    (hReq : ∀ w₁, SameProcess pid w w₁ → Inv L w₁ → Req L w₁ o)
    (h : ∀ w₁ n d out, SameProcess pid w w₁ → Inv L w₁ → carefulOp w₁ o d = true →
      exec L w₁ () pid n o d = some out → Q out.result out.shared) :
    Runs L pid (Stream.ask o) Q w := by
  refine wp_perform fun w₁ n _ hRely hInv => ⟨fun hProcess => hReq w₁ (hRely hProcess) hInv, ?_⟩
  intro d out hExec
  change (if carefulOp w₁ o d then exec L w₁ () pid n o d else none) = some out at hExec
  split at hExec
  next hOk => exact h w₁ n d out (hRely (exec_cases hExec).1) hInv hOk hExec
  · cases hExec

/-- What stays so during a round: the messages `log` are there, the position is
`position`, and if `failed`, a claim has failed. -/
structure Scene where
  pid : Nat
  log : List (TopicPartition × Bytes)
  position : TopicPartition → Nat
  failed : Bool

structure Tidy (L : Outside) (c : Scene) (upto : TopicPartition → Nat)
    (hand : List (String × Row)) (w : World) : Prop where
  process : w.process = some c.pid
  log : c.log <+: w.log
  position : w.position = c.position
  failed : c.failed = true → w.claimFailed = true
  settled : Settled L hand w
  reached : Upto L w upto (Stored L hand w)
  genuine : ∀ x ∈ hand, Genuine L w x

variable {c : Scene} {upto : TopicPartition → Nat} {hand : List (String × Row)}

/-- Calls that touch neither the memory of the process nor Redis' claims. -/
structure Quiet (w w' : World) : Prop where
  process : w'.process = w.process
  position : w'.position = w.position
  client : w'.client = w.client
  inserted : w'.inserted = w.inserted
  claimFailed : w'.claimFailed = w.claimFailed
  log : w.log <+: w'.log
  seen : w'.seen ⊆ w.seen
  tables : w'.tables.Sublist w.tables

theorem SameProcess.quiet (h : SameProcess pid w w') : Quiet w w' :=
  ⟨h.process'.trans h.process.symm, h.position, h.client, h.inserted, h.claimFailed, h.log, h.seen,
    h.tables⟩

theorem Stored.quiet {env : Envelope} (h : Stored L hand w env) (hQuiet : Quiet w w') :
    Stored L hand w' env := by
  refine h.mono fun x hx => ?_
  rwa [hQuiet.inserted, hQuiet.client]

theorem Settled.mono {hand' : List (String × Row)} (h : Settled L hand w) (hSeen : w'.seen ⊆ w.seen)
    (hLog : w.log <+: w'.log) (hStored : ∀ env, Stored L hand w env → Stored L hand' w' env) :
    Settled L hand' w' := by
  intro i hi
  obtain ⟨m, hm, env, hEnv, hId, hSt⟩ := h i (hSeen hi)
  exact ⟨m, hLog.subset hm, env, hEnv, hId, hStored env hSt⟩

theorem Tidy.quiet (h : Tidy L c upto hand w) (hQuiet : Quiet w w') : Tidy L c upto hand w' where
  process := hQuiet.process.trans h.process
  log := h.log.trans hQuiet.log
  position := hQuiet.position.trans h.position
  failed hf := hQuiet.claimFailed.trans (h.failed hf)
  settled := h.settled.mono hQuiet.seen hQuiet.log fun _ hSt => hSt.quiet hQuiet
  reached := h.reached.mono hQuiet.log fun _ hSt => hSt.quiet hQuiet
  genuine x hx := (h.genuine x hx).mono hQuiet.log

theorem Tidy.moved {hand' : List (String × Row)} (h : Tidy L c upto hand w)
    (hProcess : w'.process = w.process) (hPosition : w'.position = w.position)
    (hFailed : w'.claimFailed = w.claimFailed) (hLog : w'.log = w.log) (hSeen : w'.seen = w.seen)
    (hGenuine : ∀ x ∈ hand', Genuine L w x)
    (hRow : ∀ x, (x ∈ w.inserted ∨ x ∈ pending w.client.buffers ∨ x ∈ hand) →
      x ∈ w'.inserted ∨ x ∈ pending w'.client.buffers ∨ x ∈ hand') : Tidy L c upto hand' w' where
  process := hProcess.trans h.process
  log := hLog ▸ h.log
  position := hPosition.trans h.position
  failed hf := hFailed.trans (h.failed hf)
  settled := h.settled.mono (by rw [hSeen]; exact List.Subset.refl _)
    (by simp [hLog])
    fun _ hSt => hSt.mono hRow
  reached := h.reached.mono (by simp [hLog]) fun _ hSt => hSt.mono hRow
  genuine x hx := (hGenuine x hx).mono (by simp [hLog])

theorem Tidy.bump (h : Tidy L c upto hand w) {tp : TopicPartition} {value : Bytes}
    (hValue : (w.messages tp)[upto tp]? = some value)
    (hStored : ∀ env, storable L value = some env → Stored L hand w env) :
    Tidy L c (Function.update upto tp (upto tp + 1)) hand w := by
  refine { h with reached := fun tp' => ?_ }
  by_cases hTp : tp' = tp
  · subst hTp
    rw [Function.update_self]
    refine ⟨(List.getElem?_eq_some_iff.mp hValue).1, fun i value' env hi hValue' hEnv => ?_⟩
    obtain hi | rfl := Nat.lt_succ_iff_lt_or_eq.mp hi
    · exact (h.reached tp').2 i value' env hi hValue' hEnv
    · rw [hValue] at hValue'
      cases hValue'
      exact hStored env hEnv
  · rw [Function.update_of_ne hTp]
    exact h.reached tp'

theorem Tidy.message (h : Tidy L c upto hand w) {tp : TopicPartition} {i : Nat} {value : Bytes}
    (hValue : (messagesOf c.log tp)[i]? = some value) : (w.messages tp)[i]? = some value := by
  rw [World.messages, messagesOf_getElem? h.log (List.getElem?_eq_some_iff.mp hValue).1, hValue]

theorem Tidy.ask {o : Op} {Q : Except Exn o.Res → World → Prop} (h : Tidy L c upto hand w)
    (hReq : ∀ w₁, Tidy L c upto hand w₁ → Quiet w w₁ → Inv L w₁ → Req L w₁ o)
    (hNext : ∀ w₁ n d out, Tidy L c upto hand w₁ → Quiet w w₁ → Inv L w₁ →
      carefulOp w₁ o d = true → exec L w₁ () c.pid n o d = some out → Q out.result out.shared) :
    Runs L c.pid (Stream.ask o) Q w := by
  refine Runs.ask (fun w₁ hSame hInv => ?_) fun w₁ n d out hSame hInv hOk hExec => ?_
  · exact hReq w₁ (h.quiet hSame.quiet) hSame.quiet hInv
  · exact hNext w₁ n d out (h.quiet hSame.quiet) hSame.quiet hInv hOk hExec

/-- The calls that only look, or write where no row of an event is. -/
def Op.idle : Op → Bool
  | .stopRequested | .sleep | .queryAccuracy _ | .queryTimes _ | .setCache _ _ | .commit _ => true
  | _ => false

theorem exec_idle {o : Op} {d : Decision} {out : Answer o} (ho : o.idle = true)
    (h : exec L w () pid n o d = some out) : Quiet w out.shared := by
  have hRaised : ∀ v : World, v.raised o = v := by
    intro v
    cases o <;> first | rfl | cases ho
  have hPerform : ∀ a, perform L w n o d = some a → Quiet w a.shared := by
    intro a ha
    cases o with
    | stopRequested | sleep | queryAccuracy | queryTimes | setCache | commit =>
      cases ha
      exact ⟨rfl, rfl, rfl, rfl, rfl, List.prefix_rfl, List.Subset.refl _, List.Sublist.refl _⟩
    | _ => cases ho
  obtain ⟨-, ⟨-, hOk⟩ | ⟨-, -, -, ⟨-, hEq⟩ | ⟨-, a, ha, hEq⟩⟩⟩ := exec_cases h
  · exact hPerform out hOk
  · rw [hEq, hRaised]
    exact ⟨rfl, rfl, rfl, rfl, rfl, List.prefix_rfl, List.Subset.refl _, List.Sublist.refl _⟩
  · rw [hEq, hRaised]
    exact hPerform a ha

theorem Tidy.idle {o : Op} {Q : Except Exn o.Res → World → Prop} (h : Tidy L c upto hand w)
    (ho : o.idle = true)
    (hReq : ∀ w₁, Tidy L c upto hand w₁ → Quiet w w₁ → Inv L w₁ → Req L w₁ o)
    (hNext : ∀ r w₁, Tidy L c upto hand w₁ → Q r w₁) : Runs L c.pid (Stream.ask o) Q w :=
  h.ask hReq fun _ _ _ _ hTidy _ _ _ hExec => hNext _ _ (hTidy.quiet (exec_idle ho hExec))

theorem runs_doInserts {bs : List (Batch Row)} {Q : Except Exn Unit → World → Prop}
    (h : Tidy L c upto (handedOut bs ++ hand) w)
    (hNext : ∀ w₁, Tidy L c upto hand w₁ → w₁.client = w.client → Q (.ok ()) w₁) :
    Runs L c.pid (doInserts bs) Q w := by
  induction bs generalizing w with
  | nil => exact hNext w h rfl
  | cons b bs ih =>
    have hSplit : handedOut (b :: bs) ++ hand = b.tagged ++ (handedOut bs ++ hand) := by
      simp [handedOut]
    rw [hSplit] at h
    refine wp_bind ?_
    unfold doInsert
    split
    next hNone =>
      have hTagged : b.tagged = [] := by simp [Batch.tagged, hNone]
      rw [hTagged] at h
      exact ih h hNext
    · refine h.ask (fun w₁ h₁ _ _ x hx => h₁.genuine x (List.mem_append_left _ hx))
        fun w₁ n d out hTidy hQuiet _ hOk hExec => ?_
      obtain ⟨-, ⟨-, hPerform⟩ | ⟨-, -, -, ⟨hFault, -⟩ | ⟨hFault, -⟩⟩⟩ := exec_cases hExec
      · cases hPerform
        have hRest : ∀ x ∈ handedOut bs ++ hand, Genuine L w₁ x :=
          fun x hx => hTidy.genuine x (List.mem_append_right _ hx)
        refine ih (hTidy.moved rfl rfl rfl rfl rfl hRest fun x hx => ?_) fun w₂ hTidy₂ hClient₂ =>
          hNext w₂ hTidy₂ (hClient₂.trans hQuiet.client)
        obtain hx | hx | hx := hx
        · exact .inl (List.mem_append_left _ hx)
        · exact .inr (.inl hx)
        · obtain hx | hx := List.mem_append.mp hx
          · exact .inl (List.mem_append_right _ hx)
          · exact .inr (.inr hx)
      · simp [carefulOp, hFault] at hOk
      · simp [carefulOp, hFault] at hOk

theorem runs_insertMany {table : String} {row : Row} {columns : List String}
    {Q : Except Exn Unit → World → Prop} (h : Tidy L c upto ((table, row) :: hand) w)
    (hNext : ∀ w₁, Tidy L c upto hand w₁ → Q (.ok ()) w₁) :
    Runs L c.pid (insertMany table [row] columns) Q w := by
  refine wp_bind (h.ask (fun w₁ h₁ _ _ r hr => ?_) fun w₁ n d out hTidy _ hInv _ hExec => ?_)
  · obtain rfl := List.mem_singleton.mp hr
    exact h₁.genuine _ List.mem_cons_self
  obtain ⟨-, ⟨-, hPerform⟩ | ⟨hFallible, -⟩⟩ := exec_cases hExec
  · cases hPerform
    have hGenuine : ∀ x ∈ handedOut (w₁.client.insertMany table [row] columns w₁.now).2 ++ hand,
        Genuine L w₁ x := by
      intro x hx
      obtain hx | hx := List.mem_append.mp hx
      · obtain hx | ⟨hTable, hRow⟩ := Client.mem_of_insertMany (.inr hx)
        · exact hInv.genuine x (.inr hx)
        · obtain ⟨table', row'⟩ := x
          obtain rfl : table' = table := hTable
          obtain rfl := List.mem_singleton.mp hRow
          exact hTidy.genuine _ List.mem_cons_self
      · exact hTidy.genuine x (List.mem_cons_of_mem _ hx)
    refine runs_doInserts (hTidy.moved rfl rfl rfl rfl rfl hGenuine fun x hx => ?_)
      fun w₂ hTidy₂ _ => hNext w₂ hTidy₂
    have hNew : ∀ y : String × Row, y ∈ pending w₁.client.buffers ∨ (y.1 = table ∧ y.2 ∈ [row]) →
        y ∈ pending (w₁.client.insertMany table [row] columns w₁.now).1.buffers ∨
          y ∈ handedOut (w₁.client.insertMany table [row] columns w₁.now).2 ++ hand :=
      fun y hy => (Client.mem_insertMany hy).imp_right (List.mem_append_left _)
    obtain hx | hx | hx := hx
    · exact .inl hx
    · exact .inr (hNew x (.inl hx))
    · obtain rfl | hx := List.mem_cons.mp hx
      · exact .inr (hNew _ (.inr ⟨rfl, List.mem_singleton_self _⟩))
      · exact .inr (.inr (List.mem_append_right _ hx))
  · cases hFallible

theorem Inv.handOut (h : Inv L w) {due : Buffer Row → Bool} (now : Int) :
    ∀ x ∈ handedOut (drain due now w.client.buffers).2, Genuine L w x :=
  fun x hx => h.genuine x (.inr (mem_of_drain now (.inr hx)))

theorem Tidy.handOut (h : Tidy L c upto hand w) (hInv : Inv L w) {due : Buffer Row → Bool}
    (now : Int) : ∀ x ∈ handedOut (drain due now w.client.buffers).2 ++ hand, Genuine L w x := by
  intro x hx
  obtain hx | hx := List.mem_append.mp hx
  · exact hInv.handOut now x hx
  · exact h.genuine x hx

theorem runs_maybeFlush {Q : Except Exn Unit → World → Prop} (h : Tidy L c upto hand w)
    (hNext : ∀ w₁, Tidy L c upto hand w₁ → Q (.ok ()) w₁) : Runs L c.pid maybeFlush Q w := by
  refine wp_bind (h.ask (fun _ _ _ _ => trivial) fun w₁ n d out hTidy _ hInv _ hExec => ?_)
  obtain ⟨-, ⟨-, hPerform⟩ | ⟨hFallible, -⟩⟩ := exec_cases hExec
  · cases hPerform
    refine runs_doInserts (hTidy.moved rfl rfl rfl rfl rfl (hTidy.handOut hInv w₁.now) fun x hx => ?_)
      fun w₂ hTidy₂ _ => hNext w₂ hTidy₂
    obtain hx | hx | hx := hx
    · exact .inl hx
    · exact .inr ((mem_drain hx).imp_right (List.mem_append_left _))
    · exact .inr (.inr (List.mem_append_right _ hx))
  · cases hFallible

theorem runs_flushAll {Q : Except Exn Unit → World → Prop} (h : Tidy L c upto hand w)
    (hNext : ∀ w₁, Tidy L c upto hand w₁ → pending w₁.client.buffers = [] → Q (.ok ()) w₁) :
    Runs L c.pid flushAll Q w := by
  refine wp_bind (h.ask (fun _ _ _ _ => trivial) fun w₁ n d out hTidy _ hInv _ hExec => ?_)
  obtain ⟨-, ⟨-, hPerform⟩ | ⟨hFallible, -⟩⟩ := exec_cases hExec
  · cases hPerform
    refine runs_doInserts (hTidy.moved rfl rfl rfl rfl rfl (hTidy.handOut hInv w₁.now) fun x hx => ?_)
      fun w₂ hTidy₂ hClient => hNext w₂ hTidy₂ ?_
    · obtain hx | hx | hx := hx
      · exact .inl hx
      · exact .inr ((mem_drain hx).imp_right (List.mem_append_left _))
      · exact .inr (.inr (List.mem_append_right _ hx))
    · rw [hClient]
      exact Client.pending_flushAll _ _
  · cases hFallible

end

end LiveQuiz.Stream
