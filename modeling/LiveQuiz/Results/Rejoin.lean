import LiveQuiz.Handshake.Contract
import LiveQuiz.Lib.Confined

/-! # The open question of a reconnecting client

No snapshot of the service has a question in it, and the store keeps the one it has. So a
client shows the last question whose start a replica handed to one of its sockets; when it
connects plays no part.
-/

namespace LiveQuiz.Handshake

open Coroutine

set_option autoImplicit false

def ServerMessage.starts : ServerMessage → Option (Option Id)
  | .ofMatch (.matchStarted _ _ _) => some none
  | .ofMatch (.questionStarted p) => some (some p.matchQuestionId)
  | _ => none

def lastStart (q : Option Id) (ms : List ServerMessage) : Option Id :=
  ms.foldl (fun q m => m.starts.getD q) q

/-- What the client with these sockets has received. -/
def delivered (w : World) (mine : Nat → Bool) : List ServerMessage :=
  (w.received.filter fun e => mine e.1).map (·.2.2)

/-- The start that a broadcast on the replica hands to a socket of the client. -/
def World.startOn (w : World) (mine : Nat → Bool) (r : Nat) (code : String) (m : ServerMessage) :
    Option (Option Id) :=
  if (w.listeners r code).any mine then m.starts else none

/-- The start that a step hands to a socket of the client. -/
def startHandedOver (mine : Nat → Bool) (S : SysState) : SysLabel → Option (Option Id)
  | .env (.broadcast r code m _) => S.shared.startOn mine r code (.ofMatch m)
  | .env (.deliver r) => (S.shared.inbox r).head?.bind fun x => S.shared.startOn mine r x.1 x.2
  | _ => none

def Op.startless : Op → Bool
  | .send m | .broadcast _ m => m.starts.isNone
  | _ => true

section

variable {O : Outside} {R : Rooms.Outside} {w v : World} {t : Job} {pid n : Nat} {o : Op}
  {d : Rooms.Decision} {mine : Nat → Bool} {q : Option Id} {α β : Type}

@[simp] theorem lastStart_cons (m : ServerMessage) (ms : List ServerMessage) :
    lastStart q (m :: ms) = lastStart (m.starts.getD q) ms := rfl

theorem lastStart_append (ms ms' : List ServerMessage) :
    lastStart q (ms ++ ms') = lastStart (lastStart q ms) ms' :=
  List.foldl_append

theorem lastStart_const {m : ServerMessage} {ms : List ServerMessage} (h : ∀ x ∈ ms, x = m) :
    lastStart q ms = if ms = [] then q else m.starts.getD q := by
  induction ms generalizing q with
  | nil => rfl
  | cons x ms ih =>
    have hx := h x List.mem_cons_self
    subst hx
    rw [lastStart_cons, ih fun y hy => h y (List.mem_cons_of_mem _ hy)]
    cases x.starts <;> simp

theorem lastStart_none {ms : List ServerMessage} (h : ∀ m ∈ ms, m.starts = none) :
    lastStart q ms = q := by
  induction ms with
  | nil => rfl
  | cons m ms ih =>
    rw [lastStart_cons, h m List.mem_cons_self]
    exact ih fun m' hm' => h m' (List.mem_cons_of_mem _ hm')

theorem dispatch_question (now : Int) (s : Client.LiveMatchState) (m : ServerMessage) :
    (dispatch now s m).currentQuestion.map (·.matchQuestionId) =
      m.starts.getD (s.currentQuestion.map (·.matchQuestionId)) := by
  cases m with
  | roomSnapshot snapshot =>
    change (((payload snapshot).matchBlock.bind (·.currentQuestion)).or s.currentQuestion).map _ = _
    cases hMatch : snapshot.matchBlock <;> simp [payload, hMatch, ServerMessage.starts]
  | ofMatch m =>
    cases m with
    | leaderboardUpdated version top =>
      change (s.applyLeaderboardUpdated version top).currentQuestion.map _ = _
      unfold Client.LiveMatchState.applyLeaderboardUpdated
      split <;> rfl
    | _ => rfl
  | error c message =>
    change (s.setError ⟨c, some message, none⟩).currentQuestion.map _ = _
    unfold Client.LiveMatchState.setError
    split
    · split <;> rfl
    · rfl
  | _ => rfl

theorem listen_question (s : Client.LiveMatchState) (heard : List (Int × ServerMessage)) :
    (listen s heard).currentQuestion.map (·.matchQuestionId) =
      lastStart (s.currentQuestion.map (·.matchQuestionId)) (heard.map (·.2)) := by
  induction heard generalizing s with
  | nil => rfl
  | cons m heard ih =>
    rw [List.map_cons, lastStart_cons, ← dispatch_question m.1 s m.2]
    exact ih (dispatch m.1 s m.2)

theorem delivered_append (ms : List (Nat × Micros × ServerMessage)) (h : v.received = w.received ++ ms) :
    delivered v mine = delivered w mine ++ (ms.filter fun e => mine e.1).map (·.2.2) := by
  unfold delivered
  rw [h, List.filter_append, List.map_append]

theorem broadcastLocal_received (w : World) (r : Nat) (code : String) (m : ServerMessage) :
    (w.broadcastLocal r code m).received =
      w.received ++ (w.listeners r code).map (·, w.room.now, m) := by
  unfold World.broadcastLocal World.closeKicked
  split <;> rfl

theorem lastStart_broadcast {r : Nat} {code : String} {m : ServerMessage}
    (h : v.received = w.received ++ (w.listeners r code).map (·, w.room.now, m)) :
    lastStart q (delivered v mine) = (w.startOn mine r code m).getD (lastStart q (delivered w mine)) := by
  rw [delivered_append _ h, lastStart_append, lastStart_const (m := m)]
  · unfold World.startOn
    split
    next hNil =>
      have hNone : (w.listeners r code).any mine = false := by
        rw [List.any_eq_false]
        intro c hc hMine
        have hIn : (c, w.room.now, m) ∈ ((w.listeners r code).map (·, w.room.now, m)).filter fun e => mine e.1 := by
          rw [List.mem_filter]
          exact ⟨List.mem_map_of_mem hc, hMine⟩
        rw [List.map_eq_nil_iff.mp hNil] at hIn
        cases hIn
      rw [hNone]
      rfl
    next hSome =>
      have hAny : (w.listeners r code).any mine = true := by
        by_contra hNot
        apply hSome
        rw [List.map_eq_nil_iff, List.filter_eq_nil_iff]
        intro e he hMine
        obtain ⟨c, hc, rfl⟩ := List.mem_map.mp he
        exact hNot (List.any_eq_true.mpr ⟨c, hc, hMine⟩)
      rw [if_pos hAny]
  · intro x hx
    obtain ⟨e, he, rfl⟩ := List.mem_map.mp hx
    obtain ⟨c, -, rfl⟩ := List.mem_map.mp (List.mem_filter.mp he).1
    rfl

def Unstarted (w v : World) : Prop :=
  ∃ ms, v.received = w.received ++ ms ∧ ∀ e ∈ ms, e.2.2.starts = none

theorem Unstarted.of_eq (h : v.received = w.received) : Unstarted w v :=
  ⟨[], by rw [h, List.append_nil], fun _ he => by cases he⟩

theorem Unstarted.one {e : Nat × Micros × ServerMessage} (h : v.received = w.received ++ [e])
    (he : e.2.2.starts = none) : Unstarted w v := by
  refine ⟨[e], h, fun e' he' => ?_⟩
  rw [List.mem_singleton.mp he']
  exact he

theorem Unstarted.lastStart (h : Unstarted w v) :
    lastStart q (delivered v mine) = lastStart q (delivered w mine) := by
  obtain ⟨ms, hMs, hNone⟩ := h
  rw [delivered_append _ hMs, lastStart_append, lastStart_none]
  intro m hm
  obtain ⟨e, he, rfl⟩ := List.mem_map.mp hm
  exact hNone e (List.mem_filter.mp he).1

theorem noteFailure_received (w : World) (pid : Nat) : (w.noteFailure pid).received = w.received := by
  unfold World.noteFailure
  split <;> rfl

theorem broadcastAll_received (w : World) (r : Nat) (code : String) (m : ServerMessage) (fail : Bool) :
    (w.broadcastAll r code m fail).received =
      w.received ++ (w.listeners r code).map (·, w.room.now, m) := by
  unfold World.broadcastAll
  rw [broadcastLocal_received]
  split <;> rfl

theorem perform_unstarted {out : Answer o} (ho : o.startless = true)
    (h : perform R w t pid n o d = some out) : Unstarted w out.shared := by
  cases o with
  | room o =>
    obtain ⟨a, -, rfl⟩ := Option.map_eq_some_iff.mp h
    exact .of_eq rfl
  | send m =>
    simp only [perform] at h
    split at h <;> cases h
    · exact .of_eq (noteFailure_received w pid)
    · exact .one rfl (Option.isNone_iff_eq_none.mp ho)
  | broadcast c m =>
    cases h
    refine ⟨_, broadcastAll_received w t.replica c m (d.fault ≠ .none), fun e he => ?_⟩
    obtain ⟨_, -, rfl⟩ := List.mem_map.mp he
    exact Option.isNone_iff_eq_none.mp ho
  | receive =>
    simp only [perform] at h
    split at h <;> cases h
    exact .of_eq rfl
  | _ =>
    cases h
    exact .of_eq rfl

theorem exec_unstarted {out : Answer o} (ho : o.startless = true)
    (h : exec R w t pid n o d = some out) : Unstarted w out.shared := by
  unfold exec at h
  split at h
  case isFalse => exact perform_unstarted ho h
  case isTrue =>
  split at h
  case h_1 => exact perform_unstarted ho h
  case h_2 =>
    cases h
    exact .of_eq (noteFailure_received w pid)
  case h_3 =>
    obtain ⟨a, hA, rfl⟩ := Option.map_eq_some_iff.mp h
    obtain ⟨ms, hMs, hNone⟩ := perform_unstarted ho hA
    exact ⟨ms, (noteFailure_received a.shared pid).trans hMs, hNone⟩

abbrev Startless (p : Coro α) : Prop := Confined (fun o => Op.startless o = true) (fun _ => True) p

theorem Startless.call {f : o.Res → Coro α} (ho : o.startless = true) (hf : ∀ v, Startless (f v)) :
    Startless (ask o >>= f) :=
  Confined.call ho hf

theorem Startless.last (ho : o.startless = true) : Startless (ask o) :=
  Confined.ask ho

theorem raise_startless {code message : String} {status : Nat} :
    Startless (raise code status message : Coro α) :=
  Confined.throw trivial

theorem Startless.refused {c : Prop} [Decidable c] {code : String} {status : Nat} {message : String}
    {f : β → Coro α} {p : Coro α} (h : Startless p) :
    Startless (if c then raise code status message >>= f else p) := by
  split
  · exact fun _ _ => trivial
  · exact h

theorem lift_startless (p : Rooms.Coro α) : Startless (lift p) := by
  induction p with
  | done r => exact fun _ _ => trivial
  | call o k ih => exact ⟨rfl, fun v => ih (.ok v), fun e _ => ih (.error e)⟩

theorem Startless.exceptAuth {p : Coro α} {f : String → String → Coro α} (h : Startless p)
    (hf : ∀ c m, Startless (f c m)) : Startless (exceptAuth p f) := by
  apply Confined.handle h
  intro e _
  cases e with
  | auth c _ m _ => exact hf c m
  | _ => exact Confined.throw trivial

theorem refuse_startless {reason : String} : Startless (refuse reason : Coro (Option α)) :=
  Startless.call rfl fun _ => Confined.pure _

theorem decodeToken_startless {token type : String} : Startless (decodeToken O token type) := by
  apply Startless.call rfl
  intro now
  split
  case h_2 => exact raise_startless
  case h_1 claims _ =>
  apply Startless.refused
  exact Startless.refused (Confined.pure _)

theorem authenticate_startless {code token : String} : Startless (authenticate O code token) := by
  unfold authenticate
  split
  · exact refuse_startless
  apply Confined.bind
  · apply Startless.exceptAuth
    · exact Confined.map some decodeToken_startless
    · exact fun _ _ => refuse_startless
  intro found
  split
  case h_2 => exact Confined.pure _
  case h_1 claims =>
  split
  · exact refuse_startless
  split
  case h_2 => exact refuse_startless
  case h_1 participantId _ =>
  apply Startless.call rfl
  intro found
  split
  case h_2 => exact refuse_startless
  case h_1 room => exact Confined.pure _

theorem attend_startless {code nickname : String} {p : Id} {isHost : Bool} {k : Nat} :
    Startless (attend code p nickname isHost k) := by
  have hLeave : Startless (leave code p nickname k) :=
    Startless.call rfl fun _ => Startless.last rfl
  apply Startless.call rfl
  intro _
  apply Confined.bind
  · apply Confined.handle
    · exact Startless.call rfl fun _ => Startless.last rfl
    · exact fun e _ => Confined.bind hLeave fun _ => Confined.throw trivial
  · exact fun _ => hLeave

theorem jobBody_startless (job : Job) : Startless (jobBody O job) := by
  cases job with
  | fetchRoom code => exact Confined.bind (lift_startless _) fun _ => Startless.last rfl
  | connect r code token =>
    apply Confined.bind authenticate_startless
    intro found
    split
    case h_2 => exact Confined.pure _
    case h_1 participantId nickname isHost =>
    apply Startless.call rfl
    intro _
    apply Confined.bind
    · apply Startless.exceptAuth (Confined.map some (lift_startless _))
      exact fun _ _ => Startless.call rfl fun _ => Startless.call rfl fun _ => Confined.pure _
    intro found
    split
    case h_2 => exact Confined.pure _
    case h_1 snapshot => exact Startless.call rfl fun _ => attend_startless

theorem startless_reach {C : SysState → SysLabel → Prop} {S : SysState}
    (h : (endpoint O R).Reach C initial S) : ∀ pr ∈ S.procs, Startless pr.prog :=
  Confined.of_reach jobBody_startless (fun _ hpr => by cases hpr) h

theorem lastStart_step {S S' : SysState} {l : SysLabel} (hS : ∀ pr ∈ S.procs, Startless pr.prog)
    (h : (endpoint O R).step S l = some S') :
    lastStart q (delivered S'.shared mine) =
      (startHandedOver mine S l).getD (lastStart q (delivered S.shared mine)) := by
  obtain ⟨pid, d, t, o, k, out, rfl, hProc, hExec, rfl⟩ | ⟨e, out, rfl, hEnv, rfl⟩ :=
    Machine.step_cases h
  · exact (exec_unstarted (hS _ (List.mem_of_getElem? hProc)).1 hExec).lastStart
  · change LiveQuiz.Handshake.env S.shared S.procs.length e = some out at hEnv
    cases e with
    | broadcast r c m fail =>
      cases hEnv
      exact lastStart_broadcast (broadcastAll_received S.shared r c (.ofMatch m) fail)
    | deliver r =>
      simp only [LiveQuiz.Handshake.env] at hEnv
      split at hEnv <;> cases hEnv
      next c m rest hInbox =>
      simp only [startHandedOver, hInbox, List.head?_cons, Option.bind_some]
      exact lastStart_broadcast
        (broadcastLocal_received { S.shared with inbox := Function.update S.shared.inbox r rest } r c m)
    | createRoom r =>
      simp only [LiveQuiz.Handshake.env] at hEnv
      split at hEnv <;> cases hEnv
      rfl
    | join row =>
      simp only [LiveQuiz.Handshake.env] at hEnv
      split at hEnv <;> cases hEnv
      rfl
    | reply conn i accepted score rt =>
      simp only [LiveQuiz.Handshake.env] at hEnv
      split at hEnv <;> cases hEnv
      exact (Unstarted.one rfl rfl).lastStart
    | _ =>
      cases hEnv
      rfl

/-- The client shows the question exactly when its start was handed to one of the client's
sockets, in the registry at that moment, and no other start after it. -/
theorem question_recovered_iff {S : SysState} {s : Client.LiveMatchState}
    {heard : List (Int × ServerMessage)} {matchQuestionId : Id}
    (h : (endpoint O R).Reach (fun _ _ => True) initial S) (hStart : s.currentQuestion = none)
    (hHeard : heard.map (·.2) = delivered S.shared mine) :
    (listen s heard).currentQuestion.map (·.matchQuestionId) = some matchQuestionId ↔
      ∃ S₁ l S₂, (endpoint O R).Reach (fun _ _ => True) initial S₁ ∧
        startHandedOver mine S₁ l = some (some matchQuestionId) ∧ (endpoint O R).step S₁ l = some S₂ ∧
        (endpoint O R).Reach (fun S l => startHandedOver mine S l = none) S₂ S := by
  rw [listen_question, hStart, Option.map_none, hHeard]
  constructor
  · intro hQuestion
    clear hHeard
    induction h with
    | refl => cases hQuestion
    | @tail S₁ S₂ l hReach _ hStep ih =>
      rw [lastStart_step (startless_reach hReach) hStep] at hQuestion
      cases hOver : startHandedOver mine S₁ l with
      | none =>
        rw [hOver] at hQuestion
        obtain ⟨S₀, l₀, S₀', h₀, hOver₀, hStep₀, hQuiet⟩ := ih hQuestion
        exact ⟨S₀, l₀, S₀', h₀, hOver₀, hStep₀, hQuiet.tail hOver hStep⟩
      | some x =>
        rw [hOver] at hQuestion
        rw [show x = some matchQuestionId from hQuestion] at hOver
        exact ⟨S₁, l, S₂, hReach, hOver, hStep, .refl⟩
  · rintro ⟨S₁, l, S₂, h₁, hOver, hStep, hQuiet⟩
    have h₂ := h₁.tail trivial hStep
    clear hHeard h
    induction hQuiet with
    | refl => rw [lastStart_step (startless_reach h₁) hStep, hOver, Option.getD_some]
    | tail hReach hNone hStep' ih =>
      have hBefore := h₂.trans (hReach.mono fun _ _ _ => trivial)
      rw [lastStart_step (startless_reach hBefore) hStep', hNone]
      exact ih

end

def Demo.question : LiveQuiz.Message := .questionStarted ⟨7, 1, "", .singleChoice, [], 0, 10, 0⟩

/-- The first question starts while Ann's socket is in the room. -/
theorem question_recovered_ann : ∃ (S : SysState) (heard : List (Int × ServerMessage)),
    (endpoint Demo.outside Demo.policy).Reach (fun _ _ => True) initial S ∧
    heard.map (·.2) = delivered S.shared (· == 0) ∧
    (listen Client.emptyState heard).currentQuestion.map (·.matchQuestionId) = some 7 := by
  have hRun : ((endpoint Demo.outside Demo.policy).run initial Demo.annOpens).any
      (fun S₁ => startHandedOver (· == 0) S₁ (.env (.broadcast 0 "AB" Demo.question false)) == some (some 7) &&
        ((endpoint Demo.outside Demo.policy).step S₁
          (.env (.broadcast 0 "AB" Demo.question false))).isSome) = true := by
    decide +kernel
  obtain ⟨S₁, h₁, hS₁⟩ := Machine.Reach.exists_of_run hRun
  rw [Bool.and_eq_true, beq_iff_eq] at hS₁
  obtain ⟨S, hStep⟩ := Option.isSome_iff_exists.mp hS₁.2
  have hHeard : ((delivered S.shared (· == 0)).map ((0 : Int), ·)).map (·.2) =
      delivered S.shared (· == 0) := by simp
  refine ⟨S, _, h₁.tail trivial hStep, hHeard, ?_⟩
  apply (question_recovered_iff (h₁.tail trivial hStep) rfl hHeard).mpr
  exact ⟨S₁, _, S, h₁, hS₁.1, hStep, .refl⟩

def Demo.annIsLate : List SysLabel :=
  room ++ [.env (.setStatus 1 .running), .env (.ask "AB" 7),
    .env (.broadcast 0 "AB" Demo.question false), .env (.deliver 1),
    .env (.request (.connect 1 "AB" "ann"))] ++ calls 0 11

/-- The question is open, every replica has handed over what there is for it, Ann has had
her snapshot and is in the room, and her client has no question. -/
theorem question_not_recovered : ∃ (S : SysState) (heard : List (Int × ServerMessage)),
    (endpoint Demo.outside Demo.policy).Reach (fun _ _ => True) initial S ∧
    ("AB", 7) ∈ S.shared.asked ∧ S.shared.inbox 1 = [] ∧
    (∃ x ∈ S.shared.members, x.conn = 0 ∧ x.room = "AB" ∧ x.participantId = 21) ∧
    (∃ m ∈ heard, ∃ snapshot, m.2 = .roomSnapshot snapshot) ∧
    heard.map (·.2) = delivered S.shared (· == 0) ∧
    (listen Client.emptyState heard).currentQuestion = none := by
  have hRun : ((endpoint Demo.outside Demo.policy).run initial Demo.annIsLate).any
      (fun S => decide (("AB", 7) ∈ S.shared.asked ∧ S.shared.inbox 1 = [] ∧
        (∃ x ∈ S.shared.members, x.conn = 0 ∧ x.room = "AB" ∧ x.participantId = 21)) &&
        (delivered S.shared (· == 0)).any (fun m => match m with
          | .roomSnapshot _ => true
          | _ => false) &&
        decide ((listen Client.emptyState ((delivered S.shared (· == 0)).map (0, ·))).currentQuestion =
          none)) = true := by
    decide +kernel
  obtain ⟨S, hReach, hS⟩ := Machine.Reach.exists_of_run hRun
  simp only [Bool.and_eq_true, decide_eq_true_eq] at hS
  obtain ⟨⟨⟨hAsked, hInbox, hIn⟩, hSnapshot⟩, hQuestion⟩ := hS
  refine ⟨S, _, hReach, hAsked, hInbox, hIn, ?_, by simp, hQuestion⟩
  obtain ⟨m, hm, hIs⟩ := List.any_eq_true.mp hSnapshot
  refine ⟨(0, m), List.mem_map_of_mem hm, ?_⟩
  cases m with
  | roomSnapshot snapshot => exact ⟨snapshot, rfl⟩
  | _ => cases hIs

end LiveQuiz.Handshake
