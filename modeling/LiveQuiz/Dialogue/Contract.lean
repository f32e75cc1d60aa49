import LiveQuiz.Dialogue.Service
import LiveQuiz.Lib.Contract

/-! # One reply for every frame

What a loop may say to a frame, and the contract that keeps frames and replies in step.
-/

namespace LiveQuiz.Dialogue

open Coroutine
open LiveQuiz.Attempts (AnswerSubmitPayload)

set_option autoImplicit false

/-- A frame with the program of the service it has started, what was said to it, and whether
that was written. -/
structure Exchange where
  raw : String
  asked : Option Nat
  reply : Reply
  delivered : Bool
  deriving DecidableEq, Repr

/-- A frame that is not answered yet, with the program it has started. -/
abbrev Pending := String × Option Nat

def Pending.entries (p : Pending) : List Entry := .heard p.1 :: p.2.toList.map .asked

def Exchange.entries (x : Exchange) : List Entry :=
  Pending.entries (x.raw, x.asked) ++ [.said x.reply x.delivered]

/-- The log of a loop that has answered the exchanges and works on the frame `pending`. -/
def transcript (xs : List Exchange) (pending : Option Pending) : List Entry :=
  xs.flatMap Exchange.entries ++ pending.toList.flatMap Pending.entries

/-- The exchanges of a log, read off from its front. -/
def exchanges : List Entry → List Exchange
  | .heard raw :: .said r delivered :: rest => ⟨raw, none, r, delivered⟩ :: exchanges rest
  | .heard raw :: .asked k :: .said r delivered :: rest => ⟨raw, some k, r, delivered⟩ :: exchanges rest
  | _ => []

def heardIn (log : List Entry) : List String :=
  log.filterMap fun
    | .heard raw => some raw
    | _ => none

/-- Program `k` of the service is the answer `messageId` of this participant. -/
def Submits (S : SysState) (c : Conn) (messageId : String) (call : Id × AnswerSubmitRequest) (k : Nat)
    (p : LiveQuiz.Coro Ret) : Prop :=
  S.procs[k]? = some ⟨⟨c.replica, .submitAnswer call.1 c.participantId call.2 messageId⟩, p⟩

/-- The replies to a frame: one that has started a program is told how that program ended. -/
inductive Answers (O : Outside) (S : SysState) (c : Conn) (raw : String) : Option Nat → Reply → Prop
  | flooded (retryAfterMs : Int) :
      Answers O S c raw none (.error none "RATE_LIMITED" "ws message rate exceeded" (some retryAfterMs))
  | invalid (h : O.validateJson raw = none) :
      Answers O S c raw none (.error none "VALIDATION_ERROR" "invalid message" none)
  | heartbeat (messageId lastSeenEventId : Option String) (now : Micros)
      (h : O.validateJson raw = some (.heartbeat messageId lastSeenEventId)) :
      Answers O S c raw none (.heartbeatAck messageId now lastSeenEventId)
  | exceeded (messageId : String) (payload : AnswerSubmitPayload)
      (h : O.validateJson raw = some (.answerSubmit messageId payload)) :
      Answers O S c raw none (.error none "RATE_LIMITED" "answer attempts exceeded" none)
  | badIds (messageId : String) (payload : AnswerSubmitPayload)
      (h : O.validateJson raw = some (.answerSubmit messageId payload)) (hIds : O.request payload = none) :
      Answers O S c raw none (.error (some messageId) "VALIDATION_ERROR" "invalid id in payload" none)
  | refused (messageId : String) (payload : AnswerSubmitPayload) (call : Id × AnswerSubmitRequest) (k : Nat)
      (code : String) (status : Nat) (message : String) (details : List (String × String))
      (h : O.validateJson raw = some (.answerSubmit messageId payload)) (hIds : O.request payload = some call)
      (hDone : Submits S c messageId call k (.done (.error (.auth code status message details)))) :
      Answers O S c raw (some k) (.error (some messageId) code message none)
  | accepted (messageId : String) (payload : AnswerSubmitPayload) (call : Id × AnswerSubmitRequest) (k : Nat)
      (result : Response)
      (h : O.validateJson raw = some (.answerSubmit messageId payload)) (hIds : O.request payload = some call)
      (hDone : Submits S c messageId call k (.done (.ok (.response result)))) :
      Answers O S c raw (some k) (.answerAccepted messageId result.submissionId result.accepted result.scoreAwarded
        result.responseTimeMs)
  | forbidden (h : ∃ id position reason, O.validateJson raw = some (.hostQuestionNext id position) ∨
        O.validateJson raw = some (.hostMatchPause id reason)) (hHost : c.isHost = false) :
      Answers O S c raw none (.error none "FORBIDDEN" "host-only message" none)
  | hostFlooded (retryAfterMs : Int)
      (h : ∃ id position reason, O.validateJson raw = some (.hostQuestionNext id position) ∨
        O.validateJson raw = some (.hostMatchPause id reason)) (hHost : c.isHost = true) :
      Answers O S c raw none (.error none "RATE_LIMITED" "host message rate exceeded" (some retryAfterMs))
  | advised (h : ∃ id position reason, O.validateJson raw = some (.hostQuestionNext id position) ∨
        O.validateJson raw = some (.hostMatchPause id reason)) (hHost : c.isHost = true) :
      Answers O S c raw none (.error none "NOT_IMPLEMENTED" "use REST host-control endpoints" none)

/-- Programs of the service go on as what they are, and what has ended stays as it is. -/
def Later (S S' : SysState) : Prop :=
  ∀ (k : Nat) (pr : Proc LiveQuiz.Op LiveQuiz.Op.Res LiveQuiz.Exn Ret Task), S.procs[k]? = some pr →
    ∃ pr', S'.procs[k]? = some pr' ∧ pr'.task = pr.task ∧ ∀ r, pr.prog = .done r → pr' = pr

/-- The log of connection `i` with the frame `pending` not answered. -/
def Logged (O : Outside) (w : World) (c : Conn) (pending : Option Pending) : Prop :=
  ∃ xs, w.log c.id = transcript xs pending ∧ ∀ x ∈ xs, Answers O w.service c x.raw x.asked x.reply

structure Inv (O : Outside) (n : Nat) (w : World) : Prop where
  fresh : ∀ i, n ≤ i → w.conns i = none ∧ w.turn i = none ∧ w.log i = []
  turns : ∀ i k, w.turn i = some k → k < n
  open' : ∀ i c, w.conns i = some c → c.id = i ∧ (∃ k, w.turn i = some k) ∧ ∃ pending, Logged O w c pending
  arrived : ∀ i, heardIn (w.log i) ++ w.inbox i = w.arrived i

structure Rely (pid : Nat) (w v : World) : Prop where
  own : ∀ i, w.turn i = some pid → v.turn i = some pid ∧ v.log i = w.log i
  back : ∀ i, v.turn i = some pid → w.turn i = some pid
  conns : ∀ i c, w.conns i = some c → v.conns i = some c
  service : Later w.service v.service

/-- The program is a round of an open connection's loop and of no other. -/
structure Named (pid : Nat) (c : Conn) (w : World) : Prop where
  conn : w.conns c.id = some c
  only : ∀ i, w.turn i = some pid → i = c.id

/-- The program is the current round of its loop, with the frame `pending` not answered. -/
structure At (O : Outside) (pid : Nat) (c : Conn) (pending : Option Pending) (w : World) : Prop where
  named : Named pid c w
  turn : w.turn c.id = some pid
  logged : Logged O w c pending

/-- Between two rounds a loop takes a frame, or goes on; everywhere else a frame waits for
its reply. A frame starts one program at most. -/
def Req (O : Outside) (pid : Nat) (c : Conn) (w : World) : Op → Prop
  | .receiveText | .loop => At O pid c none w
  | .send r => ∃ raw asked, At O pid c (some (raw, asked)) w ∧ Answers O w.service c raw asked r
  | .submitAnswer _ _ _ => ∃ raw, At O pid c (some (raw, none)) w
  | _ => ∃ p, At O pid c (some p) w

def Post (O : Outside) (pid : Nat) (c : Conn) (r : Except Exn Unit) (w : World) : Prop :=
  Named pid c w ∧ ∀ a, r = .ok a → w.turn c.id = some pid → Logged O w c none

def contract (O : Outside) : Contract World Op Exn Unit Conn where
  inv := Inv O
  rely := Rely
  req := Req O
  post := Post O

section

variable {O : Outside} {pid n : Nat} {c : Conn} {w v u : World} {S S' S'' : SysState}
  {pending : Option Pending} {raw : String} {asked : Option Nat}

theorem exchanges_transcript (xs : List Exchange) (pending : Option Pending) :
    exchanges (transcript xs pending) = xs := by
  induction xs with
  | nil =>
    rcases pending with _ | ⟨raw, _ | k⟩ <;> rfl
  | cons x xs ih =>
    obtain ⟨raw, _ | k, r, delivered⟩ := x
    · exact congrArg (Exchange.mk raw none r delivered :: ·) ih
    · exact congrArg (Exchange.mk raw (some k) r delivered :: ·) ih

theorem transcript_heard (xs : List Exchange) (raw : String) :
    transcript xs none ++ [.heard raw] = transcript xs (some (raw, none)) := by
  simp [transcript, Pending.entries]

theorem transcript_asked (xs : List Exchange) (raw : String) (k : Nat) :
    transcript xs (some (raw, none)) ++ [.asked k] = transcript xs (some (raw, some k)) := by
  simp [transcript, Pending.entries]

theorem transcript_said (xs : List Exchange) (raw : String) (asked : Option Nat) (r : Reply)
    (delivered : Bool) : transcript xs (some (raw, asked)) ++ [.said r delivered] =
      transcript (xs ++ [⟨raw, asked, r, delivered⟩]) none := by
  simp [transcript, Exchange.entries]

theorem heardIn_snoc (log : List Entry) (e : Entry) :
    heardIn (log ++ [e]) = heardIn log ++ heardIn [e] := List.filterMap_append

theorem heardIn_entries (raw : String) (asked : Option Nat) : heardIn (Pending.entries (raw, asked)) = [raw] := by
  cases asked <;> rfl

theorem heardIn_transcript (xs : List Exchange) (pending : Option Pending) :
    heardIn (transcript xs pending) = xs.map (·.raw) ++ pending.toList.map (·.1) := by
  induction xs with
  | nil =>
    obtain _ | ⟨raw, asked⟩ := pending
    · rfl
    · simpa [transcript] using heardIn_entries raw asked
  | cons x xs ih =>
    have hSplit : transcript (x :: xs) pending = x.entries ++ transcript xs pending := by
      simp [transcript]
    have hHead : heardIn x.entries = [x.raw] := by
      rw [Exchange.entries, heardIn_snoc, heardIn_entries]
      rfl
    rw [hSplit, heardIn, List.filterMap_append]
    change heardIn x.entries ++ heardIn (transcript xs pending) = _
    rw [hHead, ih]
    rfl

theorem pending_of_transcript {xs ys : List Exchange} (h : transcript xs pending = transcript ys none) :
    pending = none := by
  have hSame : xs = ys := by
    rw [← exchanges_transcript xs pending, h, exchanges_transcript]
  subst hSame
  have hHeard := congrArg heardIn h
  rw [heardIn_transcript, heardIn_transcript] at hHeard
  cases pending with
  | none => rfl
  | some raw => simp at hHeard

theorem Later.refl (S : SysState) : Later S S := fun _ pr hpr => ⟨pr, hpr, rfl, fun _ _ => rfl⟩

theorem Later.trans (h : Later S S') (h' : Later S' S'') : Later S S'' := by
  intro k pr hpr
  obtain ⟨pr', hpr', hTask, hDone⟩ := h k pr hpr
  obtain ⟨pr'', hpr'', hTask', hDone'⟩ := h' k pr' hpr'
  refine ⟨pr'', hpr'', hTask'.trans hTask, fun r hr => ?_⟩
  have hSame := hDone r hr
  exact (hDone' r (hSame ▸ hr)).trans hSame

theorem later_step {l : SysLabel} (h : LiveQuiz.service.step S l = some S') : Later S S' := by
  intro k pr hpr
  have hLt := (List.getElem?_eq_some_iff.mp hpr).1
  obtain ⟨q, d, t, o, f, out, -, hProc, -, rfl⟩ | ⟨e, out, -, -, rfl⟩ := Machine.step_cases h
  · by_cases hq : q = k
    · subst hq
      rw [hProc] at hpr
      cases hpr
      refine ⟨⟨t, f out.result⟩, ?_, rfl, fun r hr => by cases hr⟩
      rw [List.getElem?_append_left (by simpa using hLt), List.getElem?_set_self hLt]
    · refine ⟨pr, ?_, rfl, fun _ _ => rfl⟩
      rw [List.getElem?_append_left (by simpa using hLt), List.getElem?_set_ne hq, hpr]
  · refine ⟨pr, ?_, rfl, fun _ _ => rfl⟩
    rw [List.getElem?_append_left hLt, hpr]

theorem Submits.later {messageId : String} {call : Id × AnswerSubmitRequest} {k : Nat}
    {r : Except Exn Ret} (h : Submits S c messageId call k (.done r)) (hLater : Later S S') :
    Submits S' c messageId call k (.done r) := by
  obtain ⟨pr, hpr, -, hDone⟩ := hLater k _ h
  rw [hDone r rfl] at hpr
  exact hpr

theorem Answers.later {r : Reply} (h : Answers O S c raw asked r) (hLater : Later S S') :
    Answers O S' c raw asked r := by
  cases h with
  | flooded retry => exact .flooded retry
  | invalid h => exact .invalid h
  | heartbeat id last now h => exact .heartbeat id last now h
  | exceeded id payload h => exact .exceeded id payload h
  | badIds id payload h hIds => exact .badIds id payload h hIds
  | refused id payload call k code status message details h hIds hDone =>
    exact .refused id payload call k code status message details h hIds (hDone.later hLater)
  | accepted id payload call k result h hIds hDone =>
    exact .accepted id payload call k result h hIds (hDone.later hLater)
  | forbidden h hHost => exact .forbidden h hHost
  | hostFlooded retry h hHost => exact .hostFlooded retry h hHost
  | advised h hHost => exact .advised h hHost

theorem Logged.later (h : Logged O w c pending) (hLog : v.log c.id = w.log c.id)
    (hLater : Later w.service v.service) : Logged O v c pending := by
  obtain ⟨xs, hTranscript, hAnswers⟩ := h
  exact ⟨xs, hLog.trans hTranscript, fun x hx => (hAnswers x hx).later hLater⟩

theorem Rely.refl (pid : Nat) (w : World) : Rely pid w w :=
  ⟨fun _ h => ⟨h, rfl⟩, fun _ h => h, fun _ _ h => h, Later.refl _⟩

theorem Rely.trans (h : Rely pid w v) (h' : Rely pid v u) : Rely pid w u where
  own i hi := by
    obtain ⟨hTurn, hLog⟩ := h.own i hi
    obtain ⟨hTurn', hLog'⟩ := h'.own i hTurn
    exact ⟨hTurn', hLog'.trans hLog⟩
  back i hi := h.back i (h'.back i hi)
  conns i c hc := h'.conns i c (h.conns i c hc)
  service := h.service.trans h'.service

theorem Named.rely (h : Named pid c w) (hRely : Rely pid w v) : Named pid c v where
  conn := hRely.conns c.id c h.conn
  only i hi := h.only i (hRely.back i hi)

theorem At.rely (h : At O pid c pending w) (hRely : Rely pid w v) : At O pid c pending v where
  named := h.named.rely hRely
  turn := (hRely.own c.id h.turn).1
  logged := h.logged.later (hRely.own c.id h.turn).2 hRely.service

theorem named_of_req {o : Op} (h : Req O pid c w o) : Named pid c w := by
  cases o with
  | receiveText => exact At.named h
  | loop => exact At.named h
  | send r =>
    obtain ⟨raw, asked, hAt, -⟩ := h
    exact hAt.named
  | _ =>
    obtain ⟨raw, hAt⟩ := h
    exact hAt.named

theorem Post.rely {r : Except Exn Unit} (h : Post O pid c r w) (hRely : Rely pid w v) : Post O pid c r v := by
  refine ⟨h.1.rely hRely, fun a ha hTurn => ?_⟩
  have hTurn' := hRely.back c.id hTurn
  exact (h.2 a ha hTurn').later (hRely.own c.id hTurn').2 hRely.service

end

end LiveQuiz.Dialogue
