import LiveQuiz.Dialogue.Contract
import LiveQuiz.Lib.Triple

/-! # The loops keep their contract -/

namespace LiveQuiz.Dialogue

open Coroutine
open LiveQuiz.Attempts (AnswerSubmitPayload)

set_option autoImplicit false

section

variable {O : Outside} {pid n : Nat} {c : Conn} {w v : World} {pending pending' : Option Pending}
  {raw messageId : String} {asked : Option Nat} {o : Op} {d : Decision}

/-- A call that touches nothing of the sockets but the log and the inbox of its own. -/
structure Touches (O : Outside) (c : Conn) (pending : Option Pending) (w v : World) : Prop where
  turn : v.turn = w.turn
  conns : v.conns = w.conns
  service : Later w.service v.service
  others : ∀ i, i ≠ c.id → v.log i = w.log i
  logged : Logged O v c pending
  arrived : (∀ i, heardIn (w.log i) ++ w.inbox i = w.arrived i) →
    ∀ i, heardIn (v.log i) ++ v.inbox i = v.arrived i

theorem Touches.at' (h : Touches O c pending' w v) (hAt : At O pid c pending w) : At O pid c pending' v where
  named := by
    refine ⟨?_, fun i hi => ?_⟩
    · rw [h.conns]
      exact hAt.named.conn
    · rw [h.turn] at hi
      exact hAt.named.only i hi
  turn := by
    rw [h.turn]
    exact hAt.turn
  logged := h.logged

theorem Touches.rely (h : Touches O c pending' w v) (hAt : At O pid c pending w) {q : Nat} (hq : q ≠ pid) :
    Rely q w v where
  own i hi := by
    rw [h.turn]
    refine ⟨hi, h.others i ?_⟩
    rintro rfl
    exact hq (Option.some.inj (hi.symm.trans hAt.turn))
  back i hi := by
    rw [h.turn] at hi
    exact hi
  conns i c' hc := by
    rw [h.conns]
    exact hc
  service := h.service

theorem Touches.inv (h : Touches O c pending' w v) (hAt : At O pid c pending w) (hInv : Inv O n w) :
    Inv O n v where
  fresh i hi := by
    obtain ⟨hConn, hTurn, hLog⟩ := hInv.fresh i hi
    rw [h.conns, h.turn, h.others i]
    · exact ⟨hConn, hTurn, hLog⟩
    · rintro rfl
      rw [hAt.named.conn] at hConn
      cases hConn
  turns i k hk := by
    rw [h.turn] at hk
    exact hInv.turns i k hk
  open' i c' hc := by
    rw [h.conns] at hc
    obtain ⟨rfl, hTurn, p, hLogged⟩ := hInv.open' i c' hc
    rw [h.turn]
    refine ⟨rfl, hTurn, ?_⟩
    by_cases hSame : c'.id = c.id
    · rw [hSame, hAt.named.conn] at hc
      cases hc
      exact ⟨pending', h.logged⟩
    · exact ⟨p, hLogged.later (h.others _ hSame) h.service⟩
  arrived := h.arrived hInv.arrived

theorem touches_same (hAt : At O pid c pending w) (hTurn : v.turn = w.turn)
    (hConns : v.conns = w.conns) (hService : Later w.service v.service) (hLog : v.log = w.log)
    (hInbox : v.inbox = w.inbox) (hArrived : v.arrived = w.arrived) : Touches O c pending w v where
  turn := hTurn
  conns := hConns
  service := hService
  others i _ := congrFun hLog i
  logged := hAt.logged.later (congrFun hLog c.id) hService
  arrived h i := by
    rw [hLog, hInbox, hArrived]
    exact h i

theorem touches_heard {rest : List String} (hAt : At O pid c none w)
    (hInbox : w.inbox c.id = raw :: rest) :
    Touches O c (some (raw, none)) w
      (({ w with inbox := Function.update w.inbox c.id rest }).note c.id (.heard raw)) where
  turn := rfl
  conns := rfl
  service := Later.refl _
  others i hi := Function.update_of_ne hi _ _
  logged := by
    obtain ⟨xs, hLog, hAnswers⟩ := hAt.logged
    refine ⟨xs, ?_, hAnswers⟩
    rw [← transcript_heard, ← hLog]
    exact Function.update_self _ _ _
  arrived h i := by
    by_cases hi : i = c.id
    · subst hi
      simp only [World.note, Function.update_self, heardIn_snoc]
      rw [← h c.id, hInbox, List.append_assoc]
      rfl
    · simp only [World.note, Function.update_of_ne hi]
      exact h i

theorem arrived_note {e : Entry} (hSilent : heardIn [e] = []) (hInbox : v.inbox = w.inbox)
    (hArrived : v.arrived = w.arrived) (hLog : v.log = w.log)
    (h : ∀ i, heardIn (w.log i) ++ w.inbox i = w.arrived i) (i : Nat) :
    heardIn ((v.note c.id e).log i) ++ (v.note c.id e).inbox i = (v.note c.id e).arrived i := by
  change heardIn (Function.update v.log c.id (v.log c.id ++ [e]) i) ++ v.inbox i = v.arrived i
  rw [hLog, hInbox, hArrived]
  by_cases hi : i = c.id
  · subst hi
    rw [Function.update_self, heardIn_snoc, hSilent, List.append_nil]
    exact h c.id
  · rw [Function.update_of_ne hi]
    exact h i

theorem touches_said {r : Reply} (delivered : Bool) (hAt : At O pid c (some (raw, asked)) w)
    (hAnswer : Answers O w.service c raw asked r) : Touches O c none w (w.note c.id (.said r delivered)) where
  turn := rfl
  conns := rfl
  service := Later.refl _
  others i hi := Function.update_of_ne hi _ _
  logged := by
    obtain ⟨xs, hLog, hAnswers⟩ := hAt.logged
    refine ⟨xs ++ [⟨raw, asked, r, delivered⟩], ?_, ?_⟩
    · rw [← transcript_said, ← hLog]
      exact Function.update_self _ _ _
    · intro x hx
      obtain hOld | hNew := List.mem_append.mp hx
      · exact hAnswers x hOld
      · cases List.mem_singleton.mp hNew
        exact hAnswer
  arrived := arrived_note rfl rfl rfl rfl

theorem touches_asked {S : SysState} (k : Nat) (hAt : At O pid c (some (raw, none)) w)
    (hService : Later w.service S) :
    Touches O c (some (raw, some k)) w (({ w with service := S }).note c.id (.asked k)) where
  turn := rfl
  conns := rfl
  service := hService
  others i hi := Function.update_of_ne hi _ _
  logged := by
    obtain ⟨xs, hLog, hAnswers⟩ := hAt.logged
    refine ⟨xs, ?_, fun x hx => (hAnswers x hx).later hService⟩
    rw [← transcript_asked, ← hLog]
    exact Function.update_self _ _ _
  arrived := arrived_note rfl rfl rfl rfl

/-- The calls that note nothing on the socket and stay in the round. -/
def Op.inner : Op → Bool
  | .receiveText | .send _ | .submitAnswer _ _ _ | .loop => false
  | _ => true

theorem exec_inner {out : Answer o} (ho : o.inner = true) (hAt : At O pid c pending w)
    (h : exec w c pid n o d = some out) : out.spawned = none ∧ Touches O c pending w out.shared := by
  have hFaulty : ∀ {ρ : Type} {a : Outcome World Conn (Except Exn ρ)} {out : Outcome World Conn (Except Exn ρ)},
      a.spawned = none → Touches O c pending w a.shared → faulty d.fault true w (some a) = some out →
      out.spawned = none ∧ Touches O c pending w out.shared := by
    intro ρ a out hNone hTouches hOut
    refine ⟨faulty_spawned hOut fun b hb => ?_, ?_⟩
    · cases hb
      exact hNone
    · obtain hSame | ⟨b, hb, -, hShared⟩ := faulty_shared hOut
      · rw [hSame]
        exact touches_same hAt rfl rfl (Later.refl _) rfl rfl rfl
      · cases hb
        rw [hShared]
        exact hTouches
  have hSame : ∀ v : World, v.turn = w.turn → v.conns = w.conns → v.service = w.service → v.log = w.log →
      v.inbox = w.inbox → v.arrived = w.arrived → Touches O c pending w v := by
    intro v hTurn hConns hService hLog hInbox hArrived
    exact touches_same hAt hTurn hConns (hService ▸ Later.refl _) hLog hInbox hArrived
  cases o with
  | receiveText => cases ho
  | send r => cases ho
  | submitAnswer m payload rid => cases ho
  | loop => cases ho
  | wsRateCheck => exact hFaulty rfl (hSame _ rfl rfl rfl rfl rfl rfl) h
  | hostRateCheck => exact hFaulty rfl (hSame _ rfl rfl rfl rfl rfl rfl) h
  | incr key => exact hFaulty rfl (hSame _ rfl rfl rfl rfl rfl rfl) h
  | expire key => exact hFaulty rfl (hSame _ rfl rfl rfl rfl rfl rfl) h
  | serverNow =>
    cases h
    exact ⟨rfl, hSame _ rfl rfl rfl rfl rfl rfl⟩
  | result k =>
    simp only [exec] at h
    split at h <;> cases h <;> exact ⟨rfl, hSame _ rfl rfl rfl rfl rfl rfl⟩

/-- The start of a round. -/
structure Starts (O : Outside) (n : Nat) (c : Conn) (w v : World) : Prop where
  inv : Inv O (n + 1) v
  rely : ∀ q, q < n → w.turn c.id ≠ some q → Rely q w v
  at' : At O n c none v

theorem turn_update {turn : Id → Option Nat} {i j : Id} {k : Nat}
    (h : Function.update turn j (some n) i = some k) : i = j ∧ k = n ∨ i ≠ j ∧ turn i = some k := by
  by_cases hi : i = j
  · subst hi
    rw [Function.update_self] at h
    exact .inl ⟨rfl, (Option.some.inj h).symm⟩
  · rw [Function.update_of_ne hi] at h
    exact .inr ⟨hi, h⟩

theorem Inv.turns_update (hInv : Inv O n w) {i j : Id} {k : Nat}
    (h : Function.update w.turn j (some n) i = some k) : k < n + 1 := by
  obtain ⟨-, rfl⟩ | ⟨-, hOld⟩ := turn_update h
  · omega
  · have hLt := hInv.turns i k hOld
    omega

theorem Inv.eq_of_turn_update (hInv : Inv O n w) {i j : Id}
    (h : Function.update w.turn j (some n) i = some n) : i = j := by
  obtain ⟨hSame, -⟩ | ⟨-, hOld⟩ := turn_update h
  · exact hSame
  · have hLt := hInv.turns i n hOld
    omega

theorem starts_loop (hAt : At O pid c none w) (hInv : Inv O n w) :
    Starts O n c w { w with turn := Function.update w.turn c.id (some n) } := by
  have hOther : ∀ i, i ≠ c.id → Function.update w.turn c.id (some n) i = w.turn i := fun i hi =>
    Function.update_of_ne hi _ _
  have hSelf : Function.update w.turn c.id (some n) c.id = some n := Function.update_self _ _ _
  refine ⟨⟨?fresh, fun i k => hInv.turns_update, ?opened, hInv.arrived⟩, ?rely, ?started⟩
  case fresh =>
    intro i hi
    obtain ⟨hConn, hTurn, hLog⟩ := hInv.fresh i (by omega)
    refine ⟨hConn, (hOther i ?_).trans hTurn, hLog⟩
    rintro rfl
    rw [hAt.named.conn] at hConn
    cases hConn
  case opened =>
    intro i c' hc
    obtain ⟨hId, ⟨k, hk⟩, hLogged⟩ := hInv.open' i c' hc
    refine ⟨hId, ?_, hLogged⟩
    by_cases hi : i = c.id
    · subst hi
      exact ⟨n, hSelf⟩
    · exact ⟨k, (hOther i hi).trans hk⟩
  case rely =>
    intro q hq hNot
    refine ⟨fun i hi => ⟨?_, rfl⟩, fun i hi => ?_, fun _ _ => id, Later.refl _⟩
    · refine (hOther i ?_).trans hi
      rintro rfl
      exact hNot hi
    · obtain ⟨-, rfl⟩ | ⟨-, hOld⟩ := turn_update hi
      · omega
      · exact hOld
  case started => exact ⟨⟨hAt.named.conn, fun i => hInv.eq_of_turn_update⟩, hSelf, hAt.logged⟩

theorem starts_connect {replica : Nat} {participantId : Id} {isHost : Bool} (hInv : Inv O n w) :
    Starts O n ⟨n, replica, participantId, isHost⟩ w
      { w with
        turn := Function.update w.turn n (some n)
        conns := Function.update w.conns n (some ⟨n, replica, participantId, isHost⟩) } := by
  obtain ⟨hConn, hTurn, hLog⟩ := hInv.fresh n (le_refl n)
  have hOther : ∀ i, i ≠ n → Function.update w.turn n (some n) i = w.turn i := fun i hi =>
    Function.update_of_ne hi _ _
  have hSelf : Function.update w.turn n (some n) n = some n := Function.update_self _ _ _
  have hLogged : ∀ v : World, v.log = w.log → Logged O v ⟨n, replica, participantId, isHost⟩ none := by
    intro v hv
    refine ⟨[], ?_, fun x hx => by cases hx⟩
    rw [hv]
    exact hLog
  refine ⟨⟨?fresh, fun i k => hInv.turns_update, ?opened, hInv.arrived⟩, ?rely, ?started⟩
  case fresh =>
    intro i hi
    obtain ⟨hConn', hTurn', hLog'⟩ := hInv.fresh i (by omega)
    refine ⟨?_, (hOther i (by omega)).trans hTurn', hLog'⟩
    exact (Function.update_of_ne (by omega) _ _).trans hConn'
  case opened =>
    intro i c' hc
    by_cases hi : i = n
    · subst hi
      cases (Function.update_self _ _ _).symm.trans hc
      exact ⟨rfl, ⟨_, hSelf⟩, none, hLogged _ rfl⟩
    · obtain ⟨hId, ⟨k, hk⟩, hOpen⟩ := hInv.open' i c' ((Function.update_of_ne hi _ _).symm.trans hc)
      exact ⟨hId, ⟨k, (hOther i hi).trans hk⟩, hOpen⟩
  case rely =>
    intro q hq _
    refine ⟨fun i hi => ⟨?_, rfl⟩, fun i hi => ?_, fun i c' hc => ?_, Later.refl _⟩
    · refine (hOther i ?_).trans hi
      rintro rfl
      rw [hTurn] at hi
      cases hi
    · obtain ⟨-, rfl⟩ | ⟨-, hOld⟩ := turn_update hi
      · omega
      · exact hOld
    · refine (Function.update_of_ne ?_ _ _).trans hc
      rintro rfl
      rw [hConn] at hc
      cases hc
  case started =>
    exact ⟨⟨Function.update_self _ _ _, fun i => hInv.eq_of_turn_update⟩, hSelf, hLogged _ rfl⟩

theorem triple_inner (ho : o.inner = true) :
    Triple (sockets O) (contract O) id pid c (At O pid c (some (raw, none))) (ask o)
      (fun _ => At O pid c (some (raw, none))) (Named pid c) := by
  refine Triple.call (fun _ _ hRely hAt => hAt.rely hRely) fun w hAt => ⟨?_, fun n d out hOut => ?_⟩
  · cases o with
    | receiveText => cases ho
    | send r => cases ho
    | submitAnswer m payload rid => cases ho
    | loop => cases ho
    | _ => exact ⟨_, hAt⟩
  · have hAt' := (exec_inner ho hAt hOut).2.at' hAt
    cases hRes : out.result with
    | ok a => exact hAt'
    | error e => exact hAt'.named

theorem triple_say {r : Reply} :
    Triple (sockets O) (contract O) id pid c
      (fun w => At O pid c (some (raw, asked)) w ∧ Answers O w.service c raw asked r) (say r)
      (fun _ => At O pid c none) (Named pid c) := by
  refine Triple.bind (Q := fun _ => At O pid c none) (Triple.call ?_ fun w hw => ⟨⟨raw, asked, hw⟩, ?_⟩)
    fun _ => Triple.pure fun _ h => h
  · exact fun _ _ hRely hw => ⟨hw.1.rely hRely, hw.2.later hRely.service⟩
  · intro n d out hOut
    cases hOut
    exact (touches_said _ hw.1 hw.2).at' hw.1

theorem triple_answer {r : Reply} (h : ∀ S, Answers O S c raw none r) :
    Triple (sockets O) (contract O) id pid c (At O pid c (some (raw, none))) (say r)
      (fun _ => At O pid c none) (Named pid c) :=
  triple_say.weaken (fun w hw => ⟨hw, h w.service⟩) (fun _ _ => id) fun _ => id

theorem triple_answerRateCheck {q : String} :
    Triple (sockets O) (contract O) id pid c (At O pid c (some (raw, none))) (answerRateCheck c q)
      (fun _ => At O pid c (some (raw, none))) (Named pid c) := by
  refine Triple.bind (triple_inner rfl) fun val => ?_
  by_cases hFirst : val = 1
  · simp only [hFirst, if_true]
    exact Triple.bind (triple_inner rfl) fun _ => Triple.pure fun _ h => h
  · simp only [hFirst, if_false]
    exact Triple.pure fun _ h => h

/-- Program `k` of the service has ended so. -/
def Concludes (S : SysState) (c : Conn) (messageId : String) (call : Id × AnswerSubmitRequest) (k : Nat) :
    Except Exn Response → Prop
  | .ok result => Submits S c messageId call k (.done (.ok (.response result)))
  | .error e => Submits S c messageId call k (.done (.error e))

theorem submits_request {S S' : SysState} {m : Id} {request : AnswerSubmitRequest}
    (h : LiveQuiz.service.step S (c.request m request messageId) = some S') :
    ∃ p, Submits S' c messageId (m, request) S.procs.length p := by
  obtain ⟨out, hEnv, rfl⟩ := Option.map_eq_some_iff.mp h
  simp only [LiveQuiz.service, LiveQuiz.env] at hEnv
  split at hEnv <;> cases hEnv
  refine ⟨LiveQuiz.service.body ⟨c.replica, .submitAnswer m c.participantId request messageId⟩, ?_⟩
  simp [Submits, Machine.start]

theorem wp_submitAnswer {m : Id} {request : AnswerSubmitRequest} (hAt : At O pid c (some (raw, none)) w) :
    wp (sockets O) (contract O) pid c (submitAnswer m request messageId) (fun r v => ∃ k,
      At O pid c (some (raw, some k)) v ∧ Concludes v.service c messageId (m, request) k r) w := by
  intro w₁ n hLt hRely hInv
  have hAt₁ := hAt.rely hRely
  refine ⟨⟨raw, hAt₁⟩, fun d out hOut => ?_⟩
  obtain ⟨S, hStep, rfl⟩ := Option.map_eq_some_iff.mp hOut
  have hAt₂ := (touches_asked w₁.service.procs.length hAt₁ (later_step hStep)).at' hAt₁
  obtain ⟨p, hSubmits⟩ := submits_request hStep
  intro w₂ n₂ _ hRely₂ _
  have hAt₃ := hAt₂.rely hRely₂
  obtain ⟨⟨t, prog⟩, hProc, hTask, -⟩ := hRely₂.service _ _ hSubmits
  refine ⟨⟨_, hAt₃⟩, fun d' out' hOut' => ?_⟩
  change exec w₂ c pid n₂ (.result w₁.service.procs.length) d' = some out' at hOut'
  have hAt₄ := (exec_inner rfl hAt₃ hOut').2.at' hAt₃
  subst hTask
  change w₂.service.procs[w₁.service.procs.length]? = _ at hProc
  simp only [exec, hProc] at hOut'
  split at hOut'
  next hEq =>
    cases hOut'
    cases hEq
    exact ⟨_, hAt₄, hProc⟩
  next hEq =>
    cases hOut'
    cases hEq
    exact ⟨_, hAt₄, hProc⟩
  · cases hOut'

theorem triple_wsSubmitAnswer {payload : AnswerSubmitPayload}
    (hRaw : O.validateJson raw = some (.answerSubmit messageId payload)) :
    Triple (sockets O) (contract O) id pid c (At O pid c (some (raw, none)))
      (wsSubmitAnswer O messageId payload) (fun _ => At O pid c none) (Named pid c) := by
  unfold wsSubmitAnswer
  cases hIds : O.request payload with
  | none => exact triple_answer fun S => .badIds messageId payload hRaw hIds
  | some call =>
    intro w hAt
    refine wp_bind (wp_handle (wp_bind (wp_mono (wp_submitAnswer hAt) fun r v hr => ?_)))
    obtain ⟨k, hAt', hDone⟩ := hr
    cases r with
    | ok result => exact triple_say v ⟨hAt', .accepted messageId payload call k result hRaw hIds hDone⟩
    | error e =>
      cases e with
      | auth code status message details =>
        have hAnswer := Answers.refused messageId payload call k code status message details hRaw hIds hDone
        refine wp_bind (wp_mono (triple_say v ⟨hAt', hAnswer⟩) fun r u hr => ?_)
        cases r with
        | ok _ => exact hr
        | error _ => exact hr
      | _ => exact hAt'.named

theorem triple_hostMessage (hRaw : ∃ id position reason,
      O.validateJson raw = some (.hostQuestionNext id position) ∨
        O.validateJson raw = some (.hostMatchPause id reason)) :
    Triple (sockets O) (contract O) id pid c (At O pid c (some (raw, none))) (hostMessage c)
      (fun _ => At O pid c none) (Named pid c) := by
  unfold hostMessage
  cases hHost : c.isHost with
  | false => exact triple_answer fun S => .forbidden hRaw hHost
  | true =>
    refine Triple.bind (triple_inner rfl) fun verdict => ?_
    obtain ⟨allowed, retryAfterMs⟩ := verdict
    cases allowed with
    | false => exact triple_answer fun S => .hostFlooded retryAfterMs hRaw hHost
    | true => exact triple_answer fun S => .advised hRaw hHost

theorem triple_dispatch {message : ClientMessage} (hRaw : O.validateJson raw = some message) :
    Triple (sockets O) (contract O) id pid c (At O pid c (some (raw, none))) (dispatch O c message)
      (fun _ => At O pid c none) (Named pid c) := by
  cases message with
  | heartbeat messageId lastSeenEventId =>
    refine Triple.bind (triple_inner rfl) fun now => ?_
    exact triple_answer fun S => .heartbeat messageId lastSeenEventId now hRaw
  | answerSubmit messageId payload =>
    refine Triple.bind triple_answerRateCheck fun ok => ?_
    cases ok with
    | false => exact triple_answer fun S => .exceeded messageId payload hRaw
    | true => exact triple_wsSubmitAnswer hRaw
  | hostQuestionNext id position => exact triple_hostMessage ⟨id, position, none, .inl hRaw⟩
  | hostMatchPause id reason => exact triple_hostMessage ⟨id, 0, reason, .inr hRaw⟩

theorem triple_handleText :
    Triple (sockets O) (contract O) id pid c (At O pid c (some (raw, none))) (handleText O c raw)
      (fun _ => At O pid c none) (Named pid c) := by
  refine Triple.bind (triple_inner rfl) fun verdict => ?_
  obtain ⟨allowed, retryAfterMs⟩ := verdict
  cases allowed with
  | false => exact triple_answer fun S => .flooded retryAfterMs
  | true =>
    cases hRaw : O.validateJson raw with
    | none =>
      exact triple_answer fun S => .invalid hRaw
    | some message =>
      exact triple_dispatch hRaw

theorem wp_loop (hAt : At O pid c none w) :
    wp (sockets O) (contract O) pid c (ask .loop) (Post O pid c) w := by
  intro w₁ n hLt hRely hInv
  have hAt₁ := hAt.rely hRely
  refine ⟨hAt₁, fun d out hOut => ?_⟩
  cases hOut
  have hSelf : Function.update w₁.turn c.id (some n) c.id = some n := Function.update_self _ _ _
  refine ⟨⟨hAt₁.named.conn, fun i hi => ?_⟩, fun _ _ hTurn => ?_⟩
  · obtain ⟨hId, -⟩ | ⟨-, hOld⟩ := turn_update hi
    · exact hId
    · exact hAt₁.named.only i hOld
  · cases hSelf.symm.trans hTurn
    omega

theorem wp_receiveLoop (hAt : At O pid c none w) :
    wp (sockets O) (contract O) pid c (receiveLoop O c) (Post O pid c) w := by
  intro w₁ n hLt hRely hInv
  have hAt₁ := hAt.rely hRely
  refine ⟨hAt₁, fun d out hOut => ?_⟩
  change exec w₁ c pid n .receiveText d = some out at hOut
  simp only [exec] at hOut
  split at hOut
  next raw rest hInbox hNone =>
    cases hOut
    have hAt₂ := (touches_heard hAt₁ hInbox).at' hAt₁
    change wp (sockets O) (contract O) pid c (Prog.bind (handleText O c raw) fun _ => ask .loop) _ _
    refine wp_bind (wp_mono (triple_handleText _ hAt₂) fun r v hr => ?_)
    cases r with
    | ok _ => exact wp_loop hr
    | error e => exact ⟨hr, fun _ h => by cases h⟩
  · split at hOut <;> cases hOut
    exact ⟨hAt₁.named, fun _ _ _ => hAt₁.logged⟩

theorem sound (O : Outside) : Sound (sockets O) (contract O) where
  rely_trans _ _ _ _ := Rely.trans
  rely_refl := Rely.refl
  post_rely _ _ _ _ _ := Post.rely
  exec w c pid n o d out hInv hReq hLt hExec := by
    have hTouch : ∀ {pending pending' : Option Pending}, At O pid c pending w → out.spawned = none →
        Touches O c pending' w out.shared → Inv O (n + out.spawned.toList.length) out.shared ∧
          (∀ q, q < n → q ≠ pid → Rely q w out.shared) ∧
          ∀ t, out.spawned = some t →
            wp (sockets O) (contract O) n t ((sockets O).body t) (Post O n t) out.shared := by
      intro pending pending' hAt hNone hTouches
      rw [hNone]
      refine ⟨hTouches.inv hAt hInv, fun q _ hq => hTouches.rely hAt hq, fun t ht => by cases ht⟩
    change exec w c pid n o d = some out at hExec
    cases o with
    | receiveText =>
      have hAt : At O pid c none w := hReq
      simp only [exec] at hExec
      split at hExec
      next raw rest hInbox hNone =>
        cases hExec
        exact hTouch hAt rfl (touches_heard hAt hInbox)
      · split at hExec <;> cases hExec
        exact hTouch hAt rfl (touches_same hAt rfl rfl (Later.refl _) rfl rfl rfl)
    | send r =>
      obtain ⟨raw, asked, hAt, hAnswer⟩ := hReq
      cases hExec
      exact hTouch hAt rfl (touches_said _ hAt hAnswer)
    | submitAnswer m payload rid =>
      obtain ⟨raw, hAt⟩ := hReq
      obtain ⟨S, hStep, rfl⟩ := Option.map_eq_some_iff.mp hExec
      exact hTouch hAt rfl (touches_asked _ hAt (later_step hStep))
    | loop =>
      have hAt : At O pid c none w := hReq
      cases hExec
      obtain ⟨hInv', hRely, hNext⟩ := starts_loop hAt hInv
      refine ⟨hInv', fun q hq hNe => hRely q hq fun hTurn => ?_, fun t ht => ?_⟩
      · exact hNe (Option.some.inj (hTurn.symm.trans hAt.turn))
      · cases ht
        exact wp_receiveLoop hNext
    | _ =>
      obtain ⟨raw, hAt⟩ := hReq
      obtain ⟨hNone, hTouches⟩ := exec_inner rfl hAt hExec
      exact hTouch hAt hNone hTouches
  env w n e out hInv hEnv := by
    change env w n e = some out at hEnv
    cases e with
    | service l =>
      obtain ⟨S, hStep, rfl⟩ := Option.map_eq_some_iff.mp hEnv
      have hLater := later_step hStep
      refine ⟨⟨hInv.fresh, hInv.turns, fun i c hc => ?_, hInv.arrived⟩, fun q _ => ?_, fun t ht => by cases ht⟩
      · obtain ⟨hId, hTurn, pending, hLogged⟩ := hInv.open' i c hc
        exact ⟨hId, hTurn, pending, hLogged.later rfl hLater⟩
      · exact ⟨fun _ h => ⟨h, rfl⟩, fun _ => id, fun _ _ => id, hLater⟩
    | connect replica participantId isHost =>
      cases hEnv
      have hStarts : Starts O n ⟨n, replica, participantId, isHost⟩ w _ := starts_connect hInv
      obtain ⟨hInv', hRely, hNext⟩ := hStarts
      refine ⟨hInv', fun q hq => hRely q hq ?_, fun t ht => ?_⟩
      · rw [(hInv.fresh n (le_refl n)).2.1]
        simp
      · cases ht
        exact wp_receiveLoop hNext
    | arrive i raw =>
      simp only [env] at hEnv
      split at hEnv <;> cases hEnv
      refine ⟨⟨hInv.fresh, hInv.turns, hInv.open', fun j => ?_⟩, fun q _ => ?_, fun t ht => by cases ht⟩
      · by_cases hj : j = i
        · subst hj
          simp only [Function.update_self]
          rw [← hInv.arrived j, List.append_assoc]
        · simp only [Function.update_of_ne hj]
          exact hInv.arrived j
      · exact ⟨fun _ h => ⟨h, rfl⟩, fun _ => id, fun _ _ => id, Later.refl _⟩
    | hangUp i =>
      cases hEnv
      refine ⟨⟨hInv.fresh, hInv.turns, hInv.open', hInv.arrived⟩, fun q _ => ?_, fun t ht => by cases ht⟩
      exact ⟨fun _ h => ⟨h, rfl⟩, fun _ => id, fun _ _ => id, Later.refl _⟩

theorem kept_of_reach {seed : Seed} {C : DialogueState → DialogueLabel → Prop} {S : DialogueState}
    (h : (sockets O).Reach C (start seed) S) : Kept (sockets O) (contract O) S := by
  refine (sound O).kept ⟨⟨?_, ?_, ?_, ?_⟩, fun _ _ hp => by cases hp⟩ h
  · exact fun _ _ => ⟨rfl, rfl, rfl⟩
  · exact fun _ _ hk => by cases hk
  · exact fun _ _ hc => by cases hc
  · exact fun _ => rfl

end

end LiveQuiz.Dialogue
