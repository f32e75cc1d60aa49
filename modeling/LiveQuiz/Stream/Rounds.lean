import LiveQuiz.Lib.Grouping
import LiveQuiz.Stream.Careful

/-! # One round of the loop, and every run

The walks through the handlers and the loop body. Each hands the rows of a claimed
event on until none is left in hand; the jump back to the head of the loop and the
commit then find what they need.
-/

namespace LiveQuiz.Stream

open Coroutine

set_option autoImplicit false

section

variable {L : Outside} {w w' : World} {pid n : Nat} {c : Scene} {upto : TopicPartition → Nat}
  {hand : List (String × Row)}

/-- A handler that raises is one whose caller looks at the exception only. -/
theorem runs_caught {α : Type} {p : Coro α} {Q : Except Exn (Option α) → World → Prop}
    (h : Runs L pid p (fun r w => match r with
      | .ok a => Q (.ok (some a)) w
      | .error _ => Q (.ok none) w) w) : Runs L pid (caught p) Q w := by
  refine wp_handle (wp_bind (wp_mono h fun r w hr => ?_))
  cases r <;> exact hr

@[simp] theorem python_ok {α β : Type} (a : α) (f : α → Coro β) : (python (.ok a) >>= f) = f a := rfl

theorem rowsOf_raw {env : Envelope} {rows : List (String × Row)} (h : rowsOf L env = .ok rows) :
    ∃ raw rest, envelopeToRawRow L env = .ok raw ∧ rows = (eventsRawTable, .raw raw) :: rest ∧
      (env.eventType ∉ answerEventTypes → rest = []) := by
  unfold rowsOf at h
  cases hRaw : envelopeToRawRow L env with
  | error e => simp [hRaw, bind, Except.bind] at h
  | ok raw =>
    refine ⟨raw, ?_⟩
    simp only [hRaw, bind, Except.bind] at h
    split at h
    next hType =>
      split at h
      next m r p q _ =>
        cases hRow : answerEventsRow L env m r p q with
        | error e => simp [hRow] at h
        | ok row =>
          simp only [hRow, pure, Except.pure, Except.ok.injEq] at h
          exact ⟨_, rfl, h.symm, fun hNot => absurd hType hNot⟩
      · simp only [pure, Except.pure, Except.ok.injEq] at h
        exact ⟨[], rfl, h.symm, fun _ => rfl⟩
    · simp only [pure, Except.pure, Except.ok.injEq] at h
      exact ⟨[], rfl, h.symm, fun _ => rfl⟩

theorem runs_handleRoom {env : Envelope} {rows : List (String × Row)}
    {Q : Except Exn Unit → World → Prop} (hRows : rowsOf L env = .ok rows)
    (hType : env.eventType ∉ answerEventTypes) (h : Tidy L c upto rows w)
    (hNext : ∀ w₁, Tidy L c upto [] w₁ → Q (.ok ()) w₁) : Runs L c.pid (handleRoom L env) Q w := by
  obtain ⟨raw, rest, hRaw, rfl, hRest⟩ := rowsOf_raw hRows
  rw [hRest hType] at h
  unfold handleRoom
  rw [hRaw]
  exact runs_insertMany h hNext

theorem envelopeToRawRow_ids {env : Envelope} {raw : EventsRawRow}
    (h : envelopeToRawRow L env = .ok raw) :
    optInt L (env.payload.get "match_id") = .ok raw.matchId ∧
    optInt L (env.payload.get "room_id") = .ok raw.roomId ∧
    optInt L (env.payload.get "participant_id") = .ok raw.participantId ∧
    optInt L (env.payload.get "question_id") = .ok raw.questionId := by
  unfold envelopeToRawRow at h
  simp only [bind, Except.bind, pure, Except.pure] at h
  split at h
  · cases h
  next hRoom =>
    split at h
    · cases h
    next hMatch =>
      split at h
      · cases h
      next hPart =>
        split at h
        · cases h
        next hQuestion =>
          split at h
          · cases h
          · cases h
            exact ⟨hMatch, hRoom, hPart, hQuestion⟩

theorem rowsOf_answer {env : Envelope} {rows : List (String × Row)} {raw : EventsRawRow}
    (h : rowsOf L env = .ok rows) (hRaw : envelopeToRawRow L env = .ok raw)
    (hType : env.eventType ∈ answerEventTypes) :
    (∃ m r p q row, (raw.matchId, raw.roomId, raw.participantId, raw.questionId) =
        (some m, some r, some p, some q) ∧ answerEventsRow L env m r p q = .ok row ∧
        rows = [(eventsRawTable, .raw raw), (answerEventsTable, .answer row)]) ∨
      ((∀ m r p q, (raw.matchId, raw.roomId, raw.participantId, raw.questionId) ≠
        (some m, some r, some p, some q)) ∧ rows = [(eventsRawTable, .raw raw)]) := by
  unfold rowsOf at h
  simp only [hRaw, bind, Except.bind, hType, if_true] at h
  split at h
  next m r p q hIds =>
    cases hRow : answerEventsRow L env m r p q with
    | error e => simp [hRow] at h
    | ok row =>
      simp only [hRow, pure, Except.pure, Except.ok.injEq] at h
      exact .inl ⟨m, r, p, q, row, hIds, hRow, h.symm⟩
  next hIds =>
    simp only [pure, Except.pure, Except.ok.injEq] at h
    exact .inr ⟨hIds, h.symm⟩

theorem runs_handleAnswer {env : Envelope} {rows : List (String × Row)}
    {Q : Except Exn Unit → World → Prop} (hRows : rowsOf L env = .ok rows)
    (hType : env.eventType ∈ answerEventTypes) (h : Tidy L c upto rows w)
    (hNext : ∀ w₁, Tidy L c upto [] w₁ → Q (.ok ()) w₁) : Runs L c.pid (handleAnswer L env) Q w := by
  obtain ⟨raw, -, hRaw, -⟩ := rowsOf_raw hRows
  obtain ⟨hMatch, hRoom, hPart, hQuestion⟩ := envelopeToRawRow_ids hRaw
  have hAnswer := rowsOf_answer hRows hRaw hType
  clear hRows
  unfold handleAnswer
  simp only [hMatch, hRoom, hPart, hQuestion, hRaw, python_ok]
  obtain ⟨m, r, p, q, row, hIds, hRow, rfl⟩ | ⟨hIds, rfl⟩ := hAnswer
  · refine wp_bind (runs_insertMany h fun w₁ hTidy => ?_)
    simp only [hIds, hRow, python_ok]
    exact runs_insertMany hTidy hNext
  · refine wp_bind (runs_insertMany h fun w₁ hTidy => ?_)
    dsimp only
    split
    next m r p q hAll => exact absurd hAll (hIds m r p q)
    · exact hNext w₁ hTidy

theorem accuracyRows_total (rows : List AnswerEventsRow) :
    ((accuracyRows L rows).map (·.total)).sum = (rows.length : Int) := by
  have hKeys : ((rows.map AnswerEventsRow.questionId).dedup.insertionSort (· ≤ ·)).Nodup :=
    (List.perm_insertionSort _ _).nodup_iff.mpr (List.nodup_dedup _)
  have hSum := Grouping.sum_groups AnswerEventsRow.questionId (fun _ => (1 : Int)) hKeys rows
  have hAll : rows.filter (fun r => r.questionId ∈
      (rows.map AnswerEventsRow.questionId).dedup.insertionSort (· ≤ ·)) = rows := by
    refine List.filter_eq_self.mpr fun r hr => decide_eq_true ?_
    rw [List.mem_insertionSort, List.mem_dedup]
    exact List.mem_map_of_mem hr
  rw [hAll] at hSum
  rw [accuracyRows, List.map_map]
  simpa [accuracyOf, Function.comp_def] using hSum

theorem Counted.quiet {m : Int} {s : Snapshot} (h : Counted w m s) (hQuiet : Quiet w w') :
    Counted w' m s := by
  obtain ⟨tables, hLess, hMore, hTotal⟩ := h
  refine ⟨tables, hQuiet.tables.trans hLess, ?_, hTotal⟩
  rw [hQuiet.inserted]
  exact hMore

theorem exec_queryAccuracy {m : Int} {d : Decision} {out : Answer (.queryAccuracy m)}
    {rows : List AccuracyRow} (h : exec L w () pid n (.queryAccuracy m) d = some out)
    (hRows : out.result = .ok rows) : rows = accuracyRows L (w.answersOf m) := by
  obtain ⟨-, ⟨-, hOk⟩ | ⟨-, hErr, -⟩⟩ := exec_cases h
  · cases hOk
    cases hRows
    rfl
  · rw [hErr] at hRows
    cases hRows

theorem runs_computeSnapshot {matchId : Int} {Q : Except Exn Snapshot → World → Prop}
    (h : Tidy L c upto hand w)
    (hNext : ∀ r w₁, Tidy L c upto hand w₁ → pending w₁.client.buffers = [] →
      (∀ s, r = .ok s → Counted w₁ matchId s) → Q r w₁) :
    Runs L c.pid (computeSnapshot matchId) Q w := by
  refine wp_bind (runs_flushAll h fun w₁ h₁ hEmpty => ?_)
  refine wp_bind (h₁.ask (fun _ _ _ _ => trivial) fun w₂ n d out h₂ hBefore hInv _ hExec => ?_)
  have hQuiet := exec_idle rfl hExec
  have h₃ := h₂.quiet hQuiet
  have hEmpty₃ : pending out.shared.client.buffers = [] := by
    rw [hQuiet.client, hBefore.client, hEmpty]
  cases hRows : out.result with
  | error e => exact hNext _ _ h₃ hEmpty₃ fun s hs => by cases hs
  | ok rows =>
    have hCount : ∀ s : Snapshot,
        s.totalAnswers = ((rows.map AccuracyRow.accuracy).map (·.totalAnswers)).sum →
        Counted out.shared matchId s := by
      intro s hTotal
      have hNow : Counted w₂ matchId s := by
        refine ⟨w₂.tables, List.Sublist.refl _, hInv.merged, ?_⟩
        rw [hTotal, List.map_map, exec_queryAccuracy hExec hRows]
        exact accuracyRows_total _
      exact hNow.quiet hQuiet
    refine wp_bind (h₃.ask (fun _ _ _ _ => trivial) fun w₃ n d out' h₄ hBefore' _ _ hExec' => ?_)
    have hQuiet' := exec_idle rfl hExec'
    have h₅ := h₄.quiet hQuiet'
    have hEmpty₅ : pending out'.shared.client.buffers = [] := by
      rw [hQuiet'.client, hBefore'.client, hEmpty₃]
    cases out'.result with
    | error e => exact hNext _ _ h₅ hEmpty₅ fun s hs => by cases hs
    | ok times =>
      cases times with
      | none => exact hNext _ _ h₅ hEmpty₅ fun s hs => by cases hs
      | some times =>
        refine hNext _ _ h₅ hEmpty₅ fun s hs => ?_
        cases hs
        exact ((hCount _ rfl).quiet hBefore').quiet hQuiet'

theorem finishedMatch_eq {env : Envelope} {raw : EventsRawRow}
    (hRaw : envelopeToRawRow L env = .ok raw) (hType : env.eventType = "MatchFinished") :
    finishedMatch L env =
      some (if raw.matchId.getD 0 = 0 then env.aggregateId else raw.matchId.getD 0) := by
  rw [finishedMatch, (envelopeToRawRow_ids hRaw).1]
  exact if_pos hType

theorem runs_handleMatch {env : Envelope} {rows : List (String × Row)} {x : TopicPartition × Bytes}
    {Q : Except Exn Unit → World → Prop} (hx : x ∈ c.log) (hEnv : storable L x.2 = some env)
    (hRows : rowsOf L env = .ok rows)
    (hType : env.eventType ∉ answerEventTypes) (h : Tidy L c upto rows w)
    (hNext : ∀ w₁, Tidy L c upto [] w₁ → Q (.ok ()) w₁) : Runs L c.pid (handleMatch L env) Q w := by
  obtain ⟨raw, rest, hRaw, rfl, hRest⟩ := rowsOf_raw hRows
  rw [hRest hType] at h
  unfold handleMatch
  simp only [hRaw, (envelopeToRawRow_ids hRaw).1, python_ok]
  refine wp_bind (runs_insertMany h fun w₁ h₁ => ?_)
  dsimp only
  split
  · exact hNext w₁ h₁
  next hFinished =>
    refine wp_bind (runs_caught (runs_computeSnapshot h₁ fun r w₂ h₂ hEmpty hCounted => ?_))
    cases r with
    | error e => exact hNext w₂ h₂
    | ok snapshot =>
      refine wp_bind (runs_caught (h₂.ask (fun w₃ h₃ hQuiet _ => ?_)
        fun w₃ n d out h₃ _ _ _ hExec => ?_))
      · have hEnd := finishedMatch_eq hRaw (not_not.mp hFinished)
        refine ⟨h₃.settled, ?_, ⟨x, h₃.log.subset hx, env, hEnv, hEnd⟩, ?_⟩
        · rw [hQuiet.client, hEmpty]
        · exact (hCounted snapshot rfl).quiet hQuiet
      · have h₄ := h₃.quiet (exec_idle rfl hExec)
        cases out.result <;> exact hNext _ h₄

theorem runs_dispatch {env : Envelope} {rows : List (String × Row)} {x : TopicPartition × Bytes}
    {Q : Except Exn Unit → World → Prop} (hx : x ∈ c.log) (hEnv : storable L x.2 = some env)
    (hRows : rowsOf L env = .ok rows)
    (h : Tidy L c upto rows w) (hNext : ∀ w₁, Tidy L c upto [] w₁ → Q (.ok ()) w₁) :
    Runs L c.pid (dispatch L env) Q w := by
  by_cases hType : env.eventType ∈ answerEventTypes
  · have hName : env.eventType = "AnswerSubmitted" := by simpa [answerEventTypes] using hType
    have hDispatch : dispatch L env = handleAnswer L env := by
      unfold dispatch
      rw [if_neg (by rw [hName]; decide), if_neg (by rw [hName]; decide), if_pos hType]
    rw [hDispatch]
    exact runs_handleAnswer hRows hType h hNext
  · unfold dispatch
    split
    · exact runs_handleRoom hRows hType h hNext
    · split
      · exact runs_handleMatch hx hEnv hRows hType h hNext
      · split <;> exact runs_handleRoom hRows hType h hNext

theorem exec_claim {i : Int} {d : Decision} {out : Answer (.claim i)}
    (hOk : carefulOp w (.claim i) d = true) (h : exec L w () pid n (.claim i) d = some out) :
    (out.result = .ok true ∧ out.shared = { w with seen := i :: w.seen }) ∨
    (out.result = .ok false ∧ i ∈ w.seen ∧ out.shared = w) ∨
    (out.result = .error .fault ∧ out.shared = { w with claimFailed := true }) := by
  obtain ⟨-, ⟨-, hPerform⟩ | ⟨-, hErr, -, ⟨-, hEq⟩ | ⟨hFault, -⟩⟩⟩ := exec_cases h
  · simp only [perform] at hPerform
    split at hPerform
    next hSeen =>
      cases hPerform
      exact .inr (.inl ⟨rfl, hSeen, rfl⟩)
    · cases hPerform
      exact .inl ⟨rfl, rfl⟩
  · exact .inr (.inr ⟨hErr, hEq⟩)
  · simp [carefulOp, hFault] at hOk

theorem Settled.stored (h : Settled L hand w) (hInv : Inv L w) {tp : TopicPartition} {value : Bytes}
    {env : Envelope} (hMem : (tp, value) ∈ w.log) (hEnv : storable L value = some env)
    (hSeen : env.eventId ∈ w.seen) : Stored L hand w env := by
  obtain ⟨m, hm, env', hEnv', hId, hSt⟩ := h _ hSeen
  obtain rfl := hInv.oneEnvelope m hm (tp, value) hMem env' env hEnv' hEnv hId
  exact hSt

theorem Tidy.claimed (h : Tidy L c upto [] w) {tp : TopicPartition} {value : Bytes}
    {env : Envelope} {rows : List (String × Row)} (hMem : (tp, value) ∈ w.log)
    (hEnv : storable L value = some env) (hRows : rowsOf L env = .ok rows) :
    Tidy L c upto rows { w with seen := env.eventId :: w.seen } := by
  have hMono : ∀ env', Stored L [] w env' →
      Stored L rows { w with seen := env.eventId :: w.seen } env' :=
    fun env' hSt => hSt.mono fun x hx => hx.imp_right (Or.imp_right fun hNil => by cases hNil)
  refine ⟨h.process, h.log, h.position, h.failed, fun i hi => ?_,
    h.reached.mono List.prefix_rfl hMono, fun x hx => ⟨_, hMem, env, rows, hEnv, hRows, hx⟩⟩
  obtain rfl | hi := List.mem_cons.mp hi
  · exact ⟨_, hMem, env, hEnv, rfl, rows, hRows, fun x hx => .inr (.inr hx)⟩
  · obtain ⟨m, hm, env', hEnv', hId, hSt⟩ := h.settled i hi
    exact ⟨m, hm, env', hEnv', hId, hMono env' hSt⟩

/-- A message that is safe to commit is on its way; another one has failed its
claim. -/
theorem runs_handleMessage {tp : TopicPartition} {msg : ConsumerRecord}
    {Q : Except Exn Bool → World → Prop} (h : Tidy L c upto [] w)
    (hMsg : (messagesOf c.log tp)[upto tp]? = some msg.value)
    (hTrue : ∀ w₁, Tidy L c (Function.update upto tp (upto tp + 1)) [] w₁ → Q (.ok true) w₁)
    (hFalse : ∀ w₁, Tidy L { c with failed := true } upto [] w₁ → Q (.ok false) w₁)
    (hError : ∀ e w₁, Q (.error e) w₁) : Runs L c.pid (handleMessage L msg) Q w := by
  unfold handleMessage
  have hSkip : storable L msg.value = none → Q (.ok true) w := fun hNone =>
    hTrue w (h.bump (h.message hMsg) fun env hEnv => by rw [hNone] at hEnv; cases hEnv)
  cases hParse : L.parseEnvelope msg.value with
  | error e =>
    cases e with
    | invalid => exact hSkip (by simp [storable, hParse])
    | uncaught => exact hError _ _
  | ok env =>
    dsimp only
    split
    next hVersion => exact hSkip (by simp [storable, hParse, hVersion])
    next hVersion =>
      have hEnv : storable L msg.value = some env := by
        simp only [storable, hParse]
        exact if_pos (not_not.mp hVersion)
      refine wp_bind (runs_caught (h.ask (fun w₁ h₁ _ _ => ?_)
        fun w₁ n d out h₁ _ hInv hOk hExec => ?_))
      · exact ⟨_, mem_log (h₁.message hMsg), env, hEnv, rfl⟩
      have hMsg₁ := h₁.message hMsg
      have hMem := mem_log hMsg₁
      obtain ⟨hRes, hSh⟩ | ⟨hRes, hSeen, hSh⟩ | ⟨hRes, hSh⟩ := exec_claim hOk hExec
      · rw [hRes, hSh]
        obtain ⟨rows, hRows⟩ := hInv.convertible _ hMem env hEnv
        have h₂ := h₁.claimed hMem hEnv hRows
        have h₃ := h₂.bump hMsg₁ fun env' hEnv' => by
          rw [hEnv] at hEnv'
          cases hEnv'
          exact ⟨rows, hRows, fun x hx => .inr (.inr hx)⟩
        refine wp_bind (runs_caught (runs_dispatch (mem_log hMsg) hEnv hRows h₃ fun w₂ h₄ => ?_))
        exact hTrue w₂ h₄
      · rw [hRes, hSh]
        refine hTrue w₁ (h₁.bump hMsg₁ fun env' hEnv' => ?_)
        rw [hEnv] at hEnv'
        cases hEnv'
        exact h₁.settled.stored hInv hMem hEnv hSeen
      · rw [hRes, hSh]
        exact hFalse _
          ⟨h₁.process, h₁.log, h₁.position, fun _ => rfl, h₁.settled, h₁.reached, h₁.genuine⟩

/-- No offset that is safe to commit lies beyond `upto`. -/
def Below (safe : List (TopicPartition × Nat)) (upto : TopicPartition → Nat) : Prop :=
  ∀ s ∈ safe, s.2 ≤ upto s.1

/-- The messages follow one another from `upto` on. -/
def Consecutive (c : Scene) (tp : TopicPartition) (start : Nat) (msgs : List ConsumerRecord) :
    Prop :=
  ∀ k msg, msgs[k]? = some msg → msg.offset = start + k ∧
    (messagesOf c.log tp)[start + k]? = some msg.value

theorem Below.setOffset {safe : List (TopicPartition × Nat)} (h : Below safe upto)
    (tp : TopicPartition) :
    Below (setOffset tp (upto tp + 1) safe) (Function.update upto tp (upto tp + 1)) := by
  have hOld : ∀ s ∈ safe, s.2 ≤ Function.update upto tp (upto tp + 1) s.1 := by
    intro s hs
    have := h s hs
    by_cases hTp : s.1 = tp
    · rw [hTp, Function.update_self]
      rw [hTp] at this
      omega
    · rwa [Function.update_of_ne hTp]
  have hNew : upto tp + 1 ≤ Function.update upto tp (upto tp + 1) tp := by
    rw [Function.update_self]
  intro s hs
  unfold Stream.setOffset at hs
  split at hs
  · obtain ⟨s', hs', rfl⟩ := List.mem_map.mp hs
    split
    · exact hNew
    · exact hOld s' hs'
  · obtain hs | hs := List.mem_append.mp hs
    · exact hOld s hs
    · obtain rfl := List.mem_singleton.mp hs
      exact hNew

theorem runs_handlePartition {tp : TopicPartition} {msgs : List ConsumerRecord}
    {safe : List (TopicPartition × Nat)} {Q : Except Exn (List (TopicPartition × Nat) × Bool) → World → Prop}
    (h : Tidy L c upto [] w) (hMsgs : Consecutive c tp (upto tp) msgs) (hSafe : Below safe upto)
    (hDone : ∀ safe' w₁, Tidy L c (Function.update upto tp (upto tp + msgs.length)) [] w₁ →
      Below safe' (Function.update upto tp (upto tp + msgs.length)) → Q (.ok (safe', false)) w₁)
    (hFail : ∀ upto' safe' w₁, Tidy L { c with failed := true } upto' [] w₁ → Below safe' upto' →
      Q (.ok (safe', true)) w₁)
    (hError : ∀ e w₁, Q (.error e) w₁) : Runs L c.pid (handlePartition L tp msgs safe) Q w := by
  induction msgs generalizing upto safe w with
  | nil =>
    have hSelf : Function.update upto tp (upto tp + 0) = upto := Function.update_eq_self tp upto
    refine hDone safe w ?_ ?_
    · rwa [List.length_nil, hSelf]
    · rwa [List.length_nil, hSelf]
  | cons msg msgs ih =>
    obtain ⟨hOffset, hValue⟩ := hMsgs 0 msg rfl
    refine wp_bind (runs_handleMessage h hValue (fun w₁ h₁ => ?_) (fun w₁ h₁ => ?_) hError)
    · have hUpto : ∀ len, Function.update (Function.update upto tp (upto tp + 1)) tp
          (Function.update upto tp (upto tp + 1) tp + len) =
            Function.update upto tp (upto tp + (len + 1)) := by
        intro len
        rw [Function.update_self, Function.update_idem]
        congr 1
        omega
      have hSafe' : Below (setOffset tp (msg.offset + 1) safe)
          (Function.update upto tp (upto tp + 1)) := by
        rw [hOffset]
        exact hSafe.setOffset tp
      refine ih h₁ (fun k msg' hk => ?_) hSafe' (fun safe' w₂ h₂ hBelow => ?_)
      · have hNext := hMsgs (k + 1) msg' hk
        rw [Function.update_self]
        rwa [← Nat.add_assoc, Nat.add_right_comm] at hNext
      · rw [hUpto] at h₂ hBelow
        exact hDone safe' w₂ h₂ hBelow
    · exact hFail upto safe w₁ h₁ hSafe

def taken (records : List (TopicPartition × List ConsumerRecord)) (tp : TopicPartition) : Nat :=
  ((records.lookup tp).map List.length).getD 0

theorem runs_handleRecords {records : List (TopicPartition × List ConsumerRecord)}
    {safe : List (TopicPartition × Nat)} {Q : Except Exn (List (TopicPartition × Nat) × Bool) → World → Prop}
    (h : Tidy L c upto [] w) (hNodup : (records.map (·.1)).Nodup)
    (hRecords : ∀ r ∈ records, Consecutive c r.1 (upto r.1) r.2) (hSafe : Below safe upto)
    (hDone : ∀ safe' w₁, Tidy L c (fun tp => upto tp + taken records tp) [] w₁ →
      Below safe' (fun tp => upto tp + taken records tp) → Q (.ok (safe', false)) w₁)
    (hFail : ∀ upto' safe' w₁, Tidy L { c with failed := true } upto' [] w₁ → Below safe' upto' →
      Q (.ok (safe', true)) w₁)
    (hError : ∀ e w₁, Q (.error e) w₁) : Runs L c.pid (handleRecords L records safe) Q w := by
  induction records generalizing upto safe w with
  | nil => exact hDone safe w h hSafe
  | cons r records ih =>
    obtain ⟨tp, msgs⟩ := r
    obtain ⟨hNot, hNodup⟩ := List.nodup_cons.mp hNodup
    have hNone : records.lookup tp = none :=
      List.lookup_eq_none_iff.mpr fun p hp =>
        bne_iff_ne.mpr fun hEq => hNot (List.mem_map.mpr ⟨p, hp, hEq.symm⟩)
    have hUpto : (fun tp' => Function.update upto tp (upto tp + msgs.length) tp' + taken records tp') =
        fun tp' => upto tp' + taken ((tp, msgs) :: records) tp' := by
      funext tp'
      by_cases hTp : tp' = tp
      · subst hTp
        simp [taken, hNone]
      · have hBeq : (tp' == tp) = false := by simpa using hTp
        simp [taken, List.lookup_cons, hBeq, Function.update_of_ne hTp]
    refine wp_bind (runs_handlePartition h (hRecords _ (List.mem_cons_self ..)) hSafe
      (fun safe' w₁ h₁ hBelow => ?_) (fun upto' safe' w₁ h₁ hBelow => ?_) hError)
    · refine ih h₁ hNodup (fun r hr => ?_) hBelow (fun safe'' w₂ h₂ hBelow₂ => ?_)
      · have hNe : r.1 ≠ tp := fun hEq => hNot (List.mem_map.mpr ⟨r, hr, hEq⟩)
        rw [Function.update_of_ne hNe]
        exact hRecords r (List.mem_cons_of_mem _ hr)
      · rw [hUpto] at h₂ hBelow₂
        exact hDone safe'' w₂ h₂ hBelow₂
    · exact hFail upto' safe' w₁ h₁ hBelow

theorem AtRound.quiet (h : AtRound L w) (hQuiet : Quiet w w') : AtRound L w' := by
  obtain ⟨upto, hUpto, hPosition⟩ := h.reached
  refine ⟨h.settled.mono hQuiet.seen hQuiet.log fun _ hSt => hSt.quiet hQuiet, upto,
    hUpto.mono hQuiet.log fun _ hSt => hSt.quiet hQuiet, fun hf => ?_⟩
  rw [hQuiet.position]
  exact hPosition (hQuiet.claimFailed ▸ hf)

theorem Tidy.atRound (h : Tidy L c upto [] w) (hPosition : c.failed = false → upto = c.position) :
    AtRound L w := by
  refine ⟨h.settled, upto, h.reached, fun hf => ?_⟩
  rw [h.position]
  refine hPosition ?_
  cases hFailed : c.failed with
  | false => rfl
  | true =>
    rw [h.failed hFailed] at hf
    cases hf

theorem Tidy.commit {safe : List (TopicPartition × Nat)} (h : Tidy L c upto [] w) (hInv : Inv L w)
    (hEmpty : pending w.client.buffers = []) (hSafe : Below safe upto) :
    Req L w (.commit safe) := by
  intro tp
  dsimp only
  cases hLookup : safe.lookup tp with
  | none => exact hInv.committed tp
  | some offset =>
    obtain ⟨front, back, rfl, -⟩ := List.lookup_eq_some_iff.mp hLookup
    have hLe : offset ≤ upto tp := hSafe (tp, offset) (by simp)
    obtain ⟨hLen, hAll⟩ := h.reached tp
    refine ⟨hLe.trans hLen, fun i value env hi hValue hEnv => ?_⟩
    exact (hAll i value env (Nat.lt_of_lt_of_le hi hLe) hValue hEnv).written hEmpty

theorem runs_afterBatch {safe : List (TopicPartition × Nat)} {failed : Bool}
    {Q : Except Exn Unit → World → Prop} (h : Tidy L c upto [] w) (hSafe : Below safe upto)
    (hNext : ∀ r w₁, Tidy L c upto [] w₁ → Q r w₁) : Runs L c.pid (do
      let some _ ← caught flushAll | Stream.ask .sleep
      if safe ≠ [] then
        let _ ← caught (Stream.ask (.commit safe))
      if failed then
        Stream.ask .sleep) Q w := by
  refine wp_bind (runs_caught (runs_flushAll h fun w₁ h₁ hEmpty => ?_))
  have hLast : ∀ w₂, Tidy L c upto [] w₂ → Runs L c.pid (if failed then Stream.ask .sleep else pure ()) Q w₂ := by
    intro w₂ h₂
    split
    · exact h₂.idle rfl (fun _ _ _ _ => trivial) hNext
    · exact hNext _ _ h₂
  dsimp only
  split
  · refine wp_bind (runs_caught (h₁.idle rfl (fun w₂ h₂ hQuiet hInv => ?_) fun r w₂ h₂ => ?_))
    · exact h₂.commit hInv (hQuiet.client ▸ hEmpty) hSafe
    · cases r <;> exact hLast w₂ h₂
  · exact hLast w₁ h₁

theorem World.records_consecutive {tp : TopicPartition} {k : Nat} {msg : ConsumerRecord} {len : Nat}
    (h : (w.records tp len)[k]? = some msg) : msg.offset = w.position tp + k ∧
      (w.messages tp)[w.position tp + k]? = some msg.value := by
  simp only [World.records, List.getElem?_map, Option.map_eq_some_iff, List.getElem?_zipIdx] at h
  obtain ⟨⟨value, i⟩, ⟨value', hValue, hEq⟩, rfl⟩ := h
  cases hEq
  rw [List.getElem?_take] at hValue
  split at hValue
  · rw [List.getElem?_drop] at hValue
    exact ⟨rfl, hValue⟩
  · cases hValue

theorem World.records_length {tp : TopicPartition} {len : Nat}
    (h : w.position tp + len ≤ (w.messages tp).length) : (w.records tp len).length = len := by
  simp only [World.records, List.length_map, List.length_zipIdx, List.length_take, List.length_drop]
  omega

theorem exec_getmany {d : Decision} {out : Answer .getmany}
    (h : exec L w () pid n .getmany d = some out) :
    (out.result = .error .fault ∧ out.shared = w) ∨
    (w.offers d.batch = true ∧ out.result = .ok (d.batch.map fun b => (b.1, w.records b.1 b.2)) ∧
      out.shared = { w with position := advanced w.position d.batch }) := by
  obtain ⟨-, ⟨-, hPerform⟩ | ⟨-, hErr, -, ⟨-, hEq⟩ | ⟨hFault, a, ha, hEq⟩⟩⟩ := exec_cases h
  · simp only [perform] at hPerform
    split at hPerform
    next hOffers =>
      cases hPerform
      exact .inr ⟨hOffers, rfl, rfl⟩
    · cases hPerform
  · exact .inl ⟨hErr, hEq⟩
  · simp [exec, hFault] at h

theorem World.offers_iff {batch : List (TopicPartition × Nat)} (h : w.offers batch = true) :
    (batch.map (·.1)).Nodup ∧
      ∀ b ∈ batch, w.position b.1 + b.2 ≤ (w.messages b.1).length := by
  obtain ⟨hNodup, -, hAll⟩ := of_decide_eq_true h
  exact ⟨hNodup, fun b hb => (hAll b hb).2⟩

theorem taken_records {batch : List (TopicPartition × Nat)} {tp : TopicPartition}
    (h : ∀ b ∈ batch, w.position b.1 + b.2 ≤ (w.messages b.1).length) :
    taken (batch.map fun b => (b.1, w.records b.1 b.2)) tp = (batch.lookup tp).getD 0 := by
  induction batch with
  | nil => rfl
  | cons b batch ih =>
    obtain ⟨tp', len⟩ := b
    have hLen := World.records_length (h (tp', len) (List.mem_cons_self ..))
    have hTail := ih fun b hb => h b (List.mem_cons_of_mem _ hb)
    simp only [taken, List.map_cons, List.lookup_cons] at hTail ⊢
    cases hBeq : tp == tp' with
    | true => simpa using hLen
    | false => exact hTail

theorem runs_pollCycle (h : AtRound L w)
    {Q : Except Exn Unit → World → Prop} (hNext : ∀ w₁, AtRound L w₁ → Q (.ok ()) w₁)
    (hError : ∀ e w₁, Q (.error e) w₁) : Runs L pid (pollCycle L) Q w := by
  refine wp_bind (runs_caught (Runs.ask (fun _ _ _ => trivial) fun w₁ n d out hSame _ hOk hExec => ?_))
  have h₁ := h.quiet hSame.quiet
  obtain ⟨upto, hUpto, hPosition⟩ := h₁.reached
  obtain rfl := hPosition (by simpa [carefulOp] using hOk)
  obtain ⟨hRes, hSh⟩ | ⟨hOffers, hRes, hSh⟩ := exec_getmany hExec
  · rw [hRes, hSh]
    have hTidy : Tidy L ⟨pid, w₁.log, w₁.position, false⟩ w₁.position [] w₁ :=
      ⟨hSame.process', List.prefix_rfl, rfl, (fun hf => by cases hf), h₁.settled, hUpto,
        fun x hx => by cases hx⟩
    refine hTidy.idle rfl (fun _ _ _ _ => trivial) fun r w₂ h₂ => ?_
    cases r with
    | ok _ => exact hNext w₂ (h₂.atRound fun _ => rfl)
    | error e => exact hError e w₂
  · rw [hRes, hSh]
    obtain ⟨hNodup, hThere⟩ := World.offers_iff hOffers
    have hTidy : Tidy L ⟨pid, w₁.log, advanced w₁.position d.batch, false⟩ w₁.position []
        { w₁ with position := advanced w₁.position d.batch } :=
      ⟨hSame.process', List.prefix_rfl, rfl, (fun hf => by cases hf), h₁.settled, hUpto,
        fun x hx => by cases hx⟩
    have hAll : (fun tp => w₁.position tp +
        taken (d.batch.map fun b => (b.1, w₁.records b.1 b.2)) tp) =
          advanced w₁.position d.batch := by
      funext tp
      rw [taken_records hThere, advanced]
    dsimp only
    split
    next hNone =>
      refine runs_maybeFlush hTidy fun w₂ h₂ => hNext w₂ (h₂.atRound fun _ => ?_)
      rw [← hAll, hNone]
      rfl
    · refine wp_bind (runs_handleRecords hTidy ?_ ?_ (fun s hs => by cases hs)
        (fun safe w₂ h₂ hBelow => ?_) (fun upto safe w₂ h₂ hBelow => ?_) hError)
      · rwa [List.map_map]
      · intro r hr
        obtain ⟨b, -, rfl⟩ := List.mem_map.mp hr
        exact fun k msg hk => World.records_consecutive hk
      · rw [hAll] at h₂ hBelow
        refine runs_afterBatch h₂ hBelow fun r w₃ h₃ => ?_
        cases r with
        | ok _ => exact hNext w₃ (h₃.atRound fun _ => rfl)
        | error e => exact hError e w₃
      · refine runs_afterBatch h₂ hBelow fun r w₃ h₃ => ?_
        cases r with
        | ok _ => exact hNext w₃ (h₃.atRound fun hf => by cases hf)
        | error e => exact hError e w₃

theorem exec_insert_log {b : Batch Row} {d : Decision} {out : Answer (.insert b)}
    (h : exec L w () pid n (.insert b) d = some out) : out.shared.log = w.log := by
  obtain ⟨-, ⟨-, hOk⟩ | ⟨-, -, -, ⟨-, hEq⟩ | ⟨-, a, ha, hEq⟩⟩⟩ := exec_cases h
  · cases hOk
    rfl
  · rw [hEq]
    rfl
  · cases ha
    rw [hEq]
    rfl

theorem runs_lastInserts {bs : List (Batch Row)} {Q : Except Exn Unit → World → Prop}
    (hBatches : ∀ x ∈ handedOut bs, Genuine L w x) (hQ : ∀ r w₁, Q r w₁) :
    Runs L pid (doInserts bs) Q w := by
  induction bs generalizing w with
  | nil => exact hQ _ _
  | cons b bs ih =>
    have hFirst : ∀ x ∈ b.tagged, Genuine L w x := fun x hx => hBatches x (by
      rw [handedOut, List.flatMap_cons]
      exact List.mem_append_left _ hx)
    have hRest : ∀ x ∈ handedOut bs, Genuine L w x := fun x hx => hBatches x (by
      rw [handedOut, List.flatMap_cons]
      exact List.mem_append_right _ hx)
    refine wp_bind ?_
    unfold doInsert
    split
    · exact ih hRest
    · refine Runs.ask (fun w₁ hSame _ x hx => (hFirst x hx).mono hSame.log)
        fun w₁ n d out hSame _ _ hExec => ?_
      have hLog : out.shared.log = w₁.log := exec_insert_log hExec
      cases out.result with
      | ok _ => exact ih fun x hx => (hRest x hx).mono (hLog ▸ hSame.log)
      | error e => exact hQ _ _

theorem runs_shutdown : Runs L pid shutdown (fun _ _ => True) w := by
  have hExit : ∀ w : World, Runs L pid (Stream.ask .exit) (fun _ _ => True) w :=
    fun w => Runs.ask (fun _ _ _ => trivial) fun _ _ _ _ _ _ _ _ => trivial
  refine wp_bind (runs_caught (wp_bind (Runs.ask (fun _ _ _ => trivial)
    fun w₁ n d out _ hInv _ hExec => ?_)))
  obtain ⟨-, ⟨-, hPerform⟩ | ⟨hFallible, -⟩⟩ := exec_cases hExec
  · cases hPerform
    refine runs_lastInserts (hInv.handOut w₁.now) fun r w₂ => ?_
    cases r <;> exact hExit w₂
  · cases hFallible

theorem runs_round (h : AtRound L w) : Runs L pid (round L) (fun _ _ => True) w := by
  refine wp_bind (Runs.ask (fun _ _ _ => trivial) fun w₁ n d out hSame _ _ hExec => ?_)
  have h₁ := h.quiet hSame.quiet
  have h₂ := h₁.quiet (exec_idle rfl hExec)
  cases out.result with
  | error e => trivial
  | ok stop =>
    cases stop with
    | true => exact runs_shutdown
    | false =>
      refine wp_bind (runs_caught (runs_pollCycle h₂ (fun w₃ h₃ => ?_) fun e w₃ => ?_))
      · exact Runs.ask (fun w₄ hSame' _ => h₃.quiet hSame'.quiet) fun _ _ _ _ _ _ _ _ => trivial
      · exact runs_shutdown

end

section

variable {L : Outside} {w : World} {pid n : Nat}

theorem perform_process {o : Op} {d : Decision} {a : Answer o} (h : perform L w n o d = some a) :
    a.shared.process = w.process ∨ a.shared.process = some n ∨ a.shared.process = none := by
  cases o with
  | getmany =>
    simp only [perform] at h
    split at h <;> cases h
    exact .inl rfl
  | claim i =>
    simp only [perform] at h
    split at h <;> cases h <;> exact .inl rfl
  | loop => cases h; exact .inr (.inl rfl)
  | exit => cases h; exact .inr (.inr rfl)
  | _ => cases h; exact .inl rfl

theorem World.raised_process (o : Op) : (w.raised o).process = w.process := by
  cases o <;> rfl

theorem exec_process {o : Op} {d : Decision} {out : Answer o}
    (h : exec L w () pid n o d = some out) {q : Nat} (hq : q < n) (hNe : q ≠ pid) :
    out.shared.process ≠ some q := by
  obtain ⟨hProcess, hCases⟩ := exec_cases h
  have hPerform : ∀ a, perform L w n o d = some a → a.shared.process ≠ some q := by
    intro a ha hEq
    obtain hSame | hNew | hNone := perform_process ha
    · rw [hSame, hProcess] at hEq
      cases hEq
      exact hNe rfl
    · rw [hNew] at hEq
      cases hEq
      omega
    · rw [hNone] at hEq
      cases hEq
  obtain ⟨-, hOk⟩ | ⟨-, -, -, ⟨-, hEq⟩ | ⟨-, a, ha, hEq⟩⟩ := hCases
  · exact hPerform out hOk
  · rw [hEq, World.raised_process, hProcess]
    simpa using hNe.symm
  · rw [hEq, World.raised_process]
    exact hPerform a ha

theorem Inv.more {w' : World} (h : Inv L w) (hLog : w'.log = w.log)
    (hCommitted : w'.committed = w.committed) (hInserted : w.inserted ⊆ w'.inserted)
    (hSeen : ∀ i ∈ w'.seen, OnLog L w i)
    (hGenuine : ∀ x, x ∈ w'.inserted ∨ x ∈ pending w'.client.buffers → Genuine L w x)
    (hMerged : w'.tables.Sublist w'.inserted) : Inv L w' := by
  have hWritten : ∀ env, Written L w env → Written L w' env := by
    rintro env ⟨rows, hRows, hIn⟩
    exact ⟨rows, hRows, fun x hx => hInserted (hIn x hx)⟩
  refine ⟨hLog ▸ h.oneEnvelope, hLog ▸ h.convertible, ?_, fun i hi => ?_, fun x hx => ?_, hMerged⟩
  · rw [hCommitted]
    exact h.committed.mono (by simp [hLog]) hWritten
  · unfold OnLog
    rw [hLog]
    exact hSeen i hi
  · exact (hGenuine x hx).mono (by simp [hLog])

theorem Inv.still {w' : World} (h : Inv L w) (hLog : w'.log = w.log)
    (hCommitted : w'.committed = w.committed) (hInserted : w'.inserted = w.inserted)
    (hSeen : ∀ i ∈ w'.seen, OnLog L w i)
    (hPending : ∀ x ∈ pending w'.client.buffers, x ∈ pending w.client.buffers)
    (hTables : w'.tables.Sublist w.tables) : Inv L w' := by
  refine h.more hLog hCommitted (by rw [hInserted]; exact List.Subset.refl _) hSeen (fun x hx => ?_)
    (by rw [hInserted]; exact hTables.trans h.merged)
  rw [hInserted] at hx
  exact h.genuine x (hx.imp_right (hPending x))

theorem perform_inv {o : Op} {d : Decision} {a : Answer o} (hInv : Inv L w) (hReq : Req L w o)
    (h : perform L w n o d = some a) : Inv L a.shared := by
  have hSame : ∀ x ∈ pending w.client.buffers, x ∈ pending w.client.buffers := fun _ hx => hx
  have hRefl := List.Sublist.refl w.tables
  cases o with
  | getmany =>
    simp only [perform] at h
    split at h <;> cases h
    exact hInv.still rfl rfl rfl hInv.claimed hSame hRefl
  | claim i =>
    simp only [perform] at h
    split at h <;> cases h
    · exact hInv
    · refine hInv.still rfl rfl rfl (fun j hj => ?_) hSame hRefl
      obtain rfl | hj := List.mem_cons.mp hj
      · exact hReq
      · exact hInv.claimed j hj
  | insert b =>
    cases h
    refine hInv.more rfl rfl (List.subset_append_left _ _) hInv.claimed (fun x hx => ?_)
      (hInv.merged.append (List.Sublist.refl _))
    obtain hx | hx := hx
    · exact (List.mem_append.mp hx).elim (fun hx => hInv.genuine x (.inl hx)) (hReq x)
    · exact hInv.genuine x (.inr hx)
  | insertMany table rows columns =>
    cases h
    refine hInv.more rfl rfl (List.Subset.refl _) hInv.claimed (fun x hx => ?_) hInv.merged
    obtain hx | hx := hx
    · exact hInv.genuine x (.inl hx)
    · obtain hx | ⟨hTable, hRow⟩ := Client.mem_of_insertMany (.inl hx)
      · exact hInv.genuine x (.inr hx)
      · obtain ⟨table', row⟩ := x
        obtain rfl : table' = table := hTable
        exact hReq row hRow
  | maybeFlush | flushAll =>
    cases h
    refine hInv.still rfl rfl rfl hInv.claimed (fun x hx => ?_) hRefl
    exact mem_of_drain w.now (.inl hx)
  | commit offsets =>
    cases h
    exact ⟨hInv.oneEnvelope, hInv.convertible, hReq, hInv.claimed, hInv.genuine, hInv.merged⟩
  | _ =>
    cases h
    exact hInv.still rfl rfl rfl hInv.claimed hSame hRefl

theorem World.raised_inv (h : Inv L w) (o : Op) : Inv L (w.raised o) := by
  cases o with
  | claim i => exact h.still rfl rfl rfl h.claimed (fun _ hx => hx) (List.Sublist.refl _)
  | _ => exact h

theorem exec_inv {o : Op} {d : Decision} {out : Answer o} (hInv : Inv L w)
    (hReq : w.process = some pid → Req L w o) (h : exec L w () pid n o d = some out) :
    Inv L out.shared := by
  obtain ⟨hProcess, ⟨-, hOk⟩ | ⟨-, -, -, ⟨-, hEq⟩ | ⟨-, a, ha, hEq⟩⟩⟩ := exec_cases h
  · exact perform_inv hInv (hReq hProcess) hOk
  · exact hEq ▸ World.raised_inv hInv o
  · exact hEq ▸ World.raised_inv (perform_inv hInv (hReq hProcess) ha) o

theorem exec_spawned {o : Op} {d : Decision} {out : Answer o}
    (h : exec L w () pid n o d = some out) {t : Unit} (hSpawned : out.spawned = some t) :
    o = .loop ∧ out.shared = { w with process := some n } := by
  obtain ⟨-, ⟨-, hOk⟩ | ⟨-, -, hNone, -⟩⟩ := exec_cases h
  · cases o with
    | loop => cases hOk; exact ⟨rfl, rfl⟩
    | getmany =>
      simp only [perform] at hOk
      split at hOk <;> cases hOk
      cases hSpawned
    | claim i =>
      simp only [perform] at hOk
      split at hOk <;> cases hOk <;> cases hSpawned
    | _ => cases hOk; cases hSpawned
  · rw [hNone] at hSpawned
    cases hSpawned

theorem SameProcess.trans {w₁ w₂ w₃ : World} (h : SameProcess pid w₁ w₂)
    (h' : SameProcess pid w₂ w₃) : SameProcess pid w₁ w₃ where
  process := h.process
  process' := h'.process'
  position := h'.position.trans h.position
  client := h'.client.trans h.client
  inserted := h'.inserted.trans h.inserted
  claimFailed := h'.claimFailed.trans h.claimFailed
  log := h.log.trans h'.log
  seen := List.Subset.trans h'.seen h.seen
  tables := h'.tables.trans h.tables

theorem produce_inv {tp : TopicPartition} {value : Bytes} (hInv : Inv L w)
    (hOk : carefulEnv L w (.produce tp value) = true) :
    Inv L { w with log := w.log ++ [(tp, value)] } := by
  have hNew : ∀ env, storable L value = some env → (∃ rows, rowsOf L env = .ok rows) ∧
      ∀ m ∈ w.log, ∀ env', storable L m.2 = some env' → env'.eventId = env.eventId → env' = env := by
    intro env hEnv
    simp only [carefulEnv, hEnv, Option.all_some, Bool.and_eq_true, List.all_eq_true] at hOk
    refine ⟨?_, fun m hm env' hEnv' hId => ?_⟩
    · cases hRows : rowsOf L env with
      | ok rows => exact ⟨rows, rfl⟩
      | error e => simp [hRows, Except.isOk, Except.toBool] at hOk
    · have := hOk.2 m hm
      simp only [hEnv', Option.all_some, decide_eq_true_eq] at this
      exact this.resolve_left (not_not.mpr hId)
  refine ⟨fun m hm m' hm' env env' hEnv hEnv' hId => ?_, fun m hm env hEnv => ?_, ?_, fun i hi => ?_,
    fun x hx => (hInv.genuine x hx).mono (List.prefix_append _ _), hInv.merged⟩
  · obtain hm | hm := List.mem_append.mp hm
    · obtain hm' | hm' := List.mem_append.mp hm'
      · exact hInv.oneEnvelope m hm m' hm' env env' hEnv hEnv' hId
      · obtain rfl := List.mem_singleton.mp hm'
        exact (hNew env' hEnv').2 m hm env hEnv hId
    · obtain rfl := List.mem_singleton.mp hm
      obtain hm' | hm' := List.mem_append.mp hm'
      · exact ((hNew env hEnv).2 m' hm' env' hEnv' hId.symm).symm
      · obtain rfl := List.mem_singleton.mp hm'
        rw [hEnv] at hEnv'
        exact Option.some.inj hEnv'
  · obtain hm | hm := List.mem_append.mp hm
    · exact hInv.convertible m hm env hEnv
    · obtain rfl := List.mem_singleton.mp hm
      exact (hNew env hEnv).1
  · exact hInv.committed.mono (List.prefix_append _ _) fun _ h => h
  · obtain ⟨m, hm, hEnv⟩ := hInv.claimed i hi
    exact ⟨m, List.mem_append_left _ hm, hEnv⟩

theorem restart_atRound (hInv : Inv L w) (hOk : carefulEnv L w .restart = true) : AtRound L { w with
      process := some n, stopping := false, position := w.committed, client := {}
      claimFailed := false } := by
  have hStored : ∀ env, Written L w env → Stored L [] { w with
      process := some n, stopping := false, position := w.committed, client := {}
      claimFailed := false } env := by
    rintro env ⟨rows, hRows, hIn⟩
    exact ⟨rows, hRows, fun x hx => .inl (hIn x hx)⟩
  refine ⟨fun i hi => ?_, w.committed, hInv.committed.mono List.prefix_rfl hStored, fun _ => rfl⟩
  obtain ⟨m, hm, env, hEnv, hId⟩ := hInv.claimed i hi
  simp only [carefulEnv, List.all_eq_true] at hOk
  have hWritten := hOk m hm
  simp only [hEnv, Option.all_some, decide_eq_true_eq] at hWritten
  refine ⟨m, hm, env, hEnv, hId, hStored env (written_iff.mp (hWritten.resolve_left ?_))⟩
  rw [hId]
  exact not_not.mpr hi

end

theorem sound (L : Outside) : Sound (careful L) (contract L) where
  rely_trans pid s₁ s₂ s₃ h h' hProcess :=
    (h (h' hProcess).process).trans (h' hProcess)
  rely_refl pid s hProcess :=
    ⟨hProcess, hProcess, rfl, rfl, rfl, rfl, List.prefix_rfl, List.Subset.refl _, List.Sublist.refl _⟩
  post_rely _ _ _ _ _ _ _ := trivial
  exec s t pid fresh o d out hInv hReq hPid hExec := by
    change (if carefulOp s o d then exec L s () pid fresh o d else none) = some out at hExec
    split at hExec
    next =>
      refine ⟨exec_inv hInv hReq hExec, fun q hq hNe hProcess => ?_, fun t' hSpawned => ?_⟩
      · exact absurd hProcess (exec_process hExec hq hNe)
      · obtain ⟨rfl, hShared⟩ := exec_spawned hExec hSpawned
        rw [hShared]
        have hRound : AtRound L s := hReq (exec_cases hExec).1
        exact runs_round ⟨hRound.settled, hRound.reached⟩
    · cases hExec
  env s fresh e out hInv hEnv := by
    change (if carefulEnv L s e then env s fresh e else none) = some out at hEnv
    split at hEnv
    next hOk =>
      have hKept : ∀ s' : World, s'.process = s.process → s'.position = s.position →
          s'.client = s.client → s'.inserted = s.inserted → s'.claimFailed = s.claimFailed →
          s.log <+: s'.log → s'.seen ⊆ s.seen → s'.tables.Sublist s.tables →
          ∀ q, q < fresh → (contract L).rely q s s' :=
        fun s' h₁ h₂ h₃ h₄ h₅ h₆ h₇ h₈ q _ hProcess =>
          ⟨h₁ ▸ hProcess, hProcess, h₂, h₃, h₄, h₅, h₆, h₇, h₈⟩
      have hRefl := List.Sublist.refl s.tables
      cases e with
      | produce tp value =>
        cases hEnv
        exact ⟨produce_inv hInv hOk, hKept _ rfl rfl rfl rfl rfl (List.prefix_append _ _)
          (List.Subset.refl _) hRefl, fun _ h => by cases h⟩
      | restart =>
        cases hEnv
        refine ⟨hInv.still rfl rfl rfl hInv.claimed (fun x hx => by cases hx) hRefl,
          fun q hq hProcess => ?_, fun _ _ => runs_round (restart_atRound hInv hOk)⟩
        cases hProcess
        omega
      | sigterm =>
        cases hEnv
        exact ⟨hInv.still rfl rfl rfl hInv.claimed (fun _ hx => hx) hRefl,
          hKept _ rfl rfl rfl rfl rfl List.prefix_rfl (List.Subset.refl _) hRefl,
          fun _ h => by cases h⟩
      | expire i =>
        cases hEnv
        refine ⟨hInv.still rfl rfl rfl (fun j hj => ?_) (fun _ hx => hx) hRefl,
          hKept _ rfl rfl rfl rfl rfl List.prefix_rfl (List.filter_subset_self _) hRefl,
          fun _ h => by cases h⟩
        exact hInv.claimed j (List.mem_of_mem_filter hj)
      | merge i =>
        simp only [env] at hEnv
        split at hEnv <;> cases hEnv
        exact ⟨hInv.still rfl rfl rfl hInv.claimed (fun _ hx => hx) (List.eraseIdx_sublist _ _),
          hKept _ rfl rfl rfl rfl rfl List.prefix_rfl (List.Subset.refl _) (List.eraseIdx_sublist _ _),
          fun _ h => by cases h⟩
      | tick dt =>
        cases hEnv
        exact ⟨hInv.still rfl rfl rfl hInv.claimed (fun _ hx => hx) hRefl,
          hKept _ rfl rfl rfl rfl rfl List.prefix_rfl (List.Subset.refl _) hRefl,
          fun _ h => by cases h⟩
    · cases hEnv

theorem kept_blank (L : Outside) : Kept (careful L) (contract L) blank := by
  refine ⟨⟨?_, ?_, ?_, ?_, ?_, List.Sublist.refl _⟩, fun _ _ h => by cases h⟩
  · exact fun m hm => by cases hm
  · exact fun m hm => by cases hm
  · exact fun tp => ⟨Nat.zero_le _, fun i value env hi => absurd hi (Nat.not_lt_zero i)⟩
  · exact fun i hi => by cases hi
  · rintro x (hx | hx) <;> cases hx

end LiveQuiz.Stream
