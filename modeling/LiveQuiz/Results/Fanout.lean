import LiveQuiz.Ws.Run

/-! # A broadcast reaches each connection of its room once

A message takes two routes, the sends on its own replica and the listeners of the
others. Over every run: a connection that is there from the sending to the end of the
delivery receives it once, and nobody outside the room does.
-/

namespace LiveQuiz.Ws

open Coroutine

set_option autoImplicit false

section

variable {L : Stream.Outside} {ids : Nat → String} {S S' : FanoutState} {l : FanoutLabel}

/-- The room and message of a `broadcast_all` that is about to publish. -/
def publishing (S : FanoutState) (pid : Nat) : Option (String × Message) :=
  match S.procs[pid]? with
  | some ⟨.broadcastAll _ room m, .call (.publish _ _) _⟩ => some (room, m)
  | _ => none

/-- The step sends `m` to the room: it is the PUBLISH of a `broadcast_all`, or one by
another client, without an origin. -/
def Sends (S : FanoutState) (room : String) (m : Message) (src : Source) : FanoutLabel → Prop
  | .op pid _ => src = .broadcast pid ∧ publishing S pid = some (room, m)
  | .env act => src = .direct S.shared.sent.length ∧ act = .publish (wsRoom room) (some m) ∧
    m.lookup originField = none

/-- Publishes go through, and so do the writes to the socket of `c`. -/
def Smooth (c : Conn) (S : FanoutState) (l : FanoutLabel) : Prop :=
  Machine.admits (smooth c) (fun _ _ => true) S l = true

/-- The replica has been handed the message, and the programs that took it have ended. -/
def Settled (S : FanoutState) (r : Nat) (src : Source) : Prop :=
  (∀ e ∈ S.shared.inbox r, e.source ≠ src) ∧ ∀ pid < S.procs.length,
    ∀ x ∈ S.shared.handling pid, x.1 = r ∧ x.2.source = src → S.procs[pid]?.any Proc.ended = true

instance (S : FanoutState) (r : Nat) (src : Source) : Decidable (Settled S r src) :=
  inferInstanceAs (Decidable (_ ∧ _))

theorem publishing_proc {pid : Nat} {room : String} {m : Message}
    (h : publishing S pid = some (room, m)) : ∃ r channel wire k,
      S.procs[pid]? = some ⟨.broadcastAll r room m, .call (.publish channel wire) k⟩ := by
  unfold publishing at h
  split at h
  next r room' m' channel wire k hProc =>
    cases h
    exact ⟨r, channel, wire, k, hProc⟩
  · cases h

theorem ended_proc {pid : Nat} (h : S.procs[pid]?.any Proc.ended = true) :
    ∃ t res, S.procs[pid]? = some ⟨t, .done res⟩ := by
  obtain ⟨⟨t, prog⟩, hProc, hEnded⟩ := (Option.any_eq_true _ _).mp h
  obtain ⟨res, rfl⟩ := Proc.ended_iff.mp hEnded
  exact ⟨t, res, hProc⟩

variable {c : Conn}

theorem kept_reach (hIds : Function.Injective ids) {C : FanoutState → FanoutLabel → Prop}
    (hC : ∀ S l, C S l → Smooth c S l) (hS : Kept (reliable L ids c) (contract ids c) S)
    (h : (fanout L ids).Reach C S S') : Kept (reliable L ids c) (contract ids c) S' :=
  (sound hIds).kept hS (h.mono hC).restrict

/-- The messages sent and the connections known only become more. -/
theorem step_grows (hIds : Function.Injective ids) (hSmooth : Smooth c S l)
    (hS : Kept (reliable L ids c) (contract ids c) S) (h : (fanout L ids).step S l = some S') :
    S.shared.sent ⊆ S'.shared.sent ∧ S.shared.known ⊆ S'.shared.known := by
  obtain ⟨pid, d, t, o, k, out, rfl, hProc, hExec, rfl⟩ | ⟨act, out, rfl, hEnv, rfl⟩ :=
    Machine.step_cases h
  · have hOk : smooth c S.shared o d = true := by simpa [Smooth, Machine.admits, hProc] using hSmooth
    have hLt := (List.getElem?_eq_some_iff.mp hProc).1
    have hRely := (exec_kept hIds hExec hOk hS.inv (hS.req (sound hIds) hProc) hLt).2 (pid + 1)
      (by omega)
    exact ⟨hRely.sent, hRely.known⟩
  · have hRely := (env_kept hEnv hS.inv).2 0
    exact ⟨hRely.sent, hRely.known⟩

theorem reach_grows (hIds : Function.Injective ids) {C : FanoutState → FanoutLabel → Prop}
    (hC : ∀ S l, C S l → Smooth c S l) (hS : Kept (reliable L ids c) (contract ids c) S)
    (h : (fanout L ids).Reach C S S') :
    S.shared.sent ⊆ S'.shared.sent ∧ S.shared.known ⊆ S'.shared.known := by
  induction h with
  | refl => exact ⟨fun _ hb => hb, fun _ hm => hm⟩
  | tail hReach hCl hStep ih =>
    obtain ⟨hSent, hKnown⟩ := step_grows hIds (hC _ _ hCl) (kept_reach hIds hC hS hReach) hStep
    exact ⟨fun b hb => hSent (ih.1 hb), fun m hm => hKnown (ih.2 hm)⟩

theorem sends_record (hIds : Function.Injective ids) {room : String} {m : Message} {src : Source}
    (hSmooth : Smooth c S l) (hS : Kept (reliable L ids c) (contract ids c) S)
    (hSends : Sends S room m src l) (h : (fanout L ids).step S l = some S') :
    ∃ d, d.clean = m.clean ∧ Eligible ⟨src, wsRoom room, some d⟩ ∧
      ⟨⟨src, wsRoom room, some d⟩, S.shared.audience⟩ ∈ S'.shared.sent := by
  obtain ⟨pid, d, t, o, k, out, rfl, hProc, hExec, rfl⟩ | ⟨act, out, rfl, hEnv, rfl⟩ :=
    Machine.step_cases h
  · obtain ⟨rfl, hPublishing⟩ := hSends
    obtain ⟨r, channel, wire, k', hProc'⟩ := publishing_proc hPublishing
    rw [hProc] at hProc'
    cases hProc'
    have hLt := (List.getElem?_eq_some_iff.mp hProc).1
    have hOk : d.fail = false := by simpa [Smooth, Machine.admits, hProc, smooth] using hSmooth
    obtain ⟨hNone, r', room', m', hTask, rfl, rfl⟩ := hS.req (sound hIds) hProc
    cases hTask
    refine ⟨stamp ids r m, Message.clean_insert m _, ⟨_, rfl, .inl ⟨pid, rfl⟩⟩, ?_⟩
    have hExec' : exec S.shared (.broadcastAll r room m) pid S.procs.length
      (.publish (wsRoom room) (stamp ids r m)) d = some out := hExec
    simp only [exec, hOk, Bool.false_eq_true, if_false] at hExec'
    cases hExec'
    exact (posted_broadcast hIds hS.inv hNone hLt rfl).mem_last
  · obtain ⟨rfl, rfl, hOrigin⟩ := hSends
    refine ⟨m, rfl, ⟨m, rfl, .inr hOrigin⟩, ?_⟩
    cases hEnv
    exact (posted_direct hS.inv rfl).mem_last

/-- For every number of replicas, every room and connection, and every order of the calls
and of the deliveries by Redis. A connection that is registered when the message is sent
and when the delivery has ended was registered all the while: it is registered once. -/
theorem fanout_exactly_once {S₀ S₁ : FanoutState} {c : Member} {m : Message} {src : Source}
    {room : String} (hIds : Function.Injective ids) (hRoom : room ≠ "")
    (hStart : (fanout L ids).Reach (Smooth c.conn) blank S₀) (hSmooth : Smooth c.conn S₀ l)
    (hSends : Sends S₀ room m src l) (hStep : (fanout L ids).step S₀ l = some S₁)
    (hRun : (fanout L ids).Reach (Smooth c.conn) S₁ S) :
    (c.room = room → S₀.shared.registered c = true → S₀.shared.subscribed c.replica = true →
      S.shared.registered c = true → Settled S c.replica src →
        S.shared.received.filter (fun x => x.conn = c.conn ∧ x.source = some src) =
          [⟨c.conn, some src, m.clean⟩]) ∧
    (∀ x ∈ S.shared.received, x.source = some src →
      ∀ m' ∈ S.shared.known, m'.conn = x.conn → m'.room = room) ∧
    ∀ x ∈ S.shared.received, ∀ value, (originField, value) ∉ x.message := by
  have hKept₀ := kept_reach hIds (fun _ _ h => h) (kept_blank (L := L)) hStart
  have hKept₁ := kept_reach hIds (fun _ _ h => h) hKept₀ (Machine.Reach.refl.tail hSmooth hStep)
  have hKept := kept_reach hIds (fun _ _ h => h) hKept₁ hRun
  obtain ⟨hSent₁, hKnown₁⟩ := reach_grows hIds (fun _ _ h => h) hKept₁ hRun
  obtain ⟨d, hClean, hEligible, hRecord⟩ := sends_record hIds hSmooth hKept₀ hSends hStep
  have hInv : Inv ids S.procs.length S.shared := hKept.inv
  have hRecord' := hSent₁ hRecord
  have hEntry : ∀ {pid r e}, Carries ids S.shared pid r e → e.source = src →
      e = ⟨src, wsRoom room, some d⟩ := by
    intro pid r e hCarries hSource
    obtain ⟨-, b, hb, rfl⟩ := hInv.handling pid r e hCarries.1
    rw [hInv.record_unique hb hRecord' hSource]
  have hReceipt : ∀ x ∈ S.shared.received, x.source = some src → x.message = m.clean ∧
      ∀ m' ∈ S.shared.known, m'.conn = x.conn → m'.room = room := by
    intro x hx hSource
    obtain ⟨m₁, hm₁, hConn, pid, e, d', hCarries, hSource', hChannel, hData, hMessage⟩ :=
      hInv.received x hx
    obtain rfl := hEntry hCarries (Option.some.inj (hSource'.symm.trans hSource))
    cases hData
    refine ⟨hMessage.trans hClean, fun m' hm' hConn' => ?_⟩
    rw [hInv.member_unique hm' hm₁ (hConn'.trans hConn.symm)]
    exact (wsRoom_injective hChannel).symm
  refine ⟨fun hIn hReg₀ hSub hReg hSettled => ?_, fun x hx hSource => (hReceipt x hx hSource).2, ?_⟩
  · have hMember₀ : c ∈ S₀.shared.known := hKept₀.inv.rooms _ _ _ (registered_iff.mp hReg₀)
    have hMember := hKnown₁ ((step_grows hIds hSmooth hKept₀ hStep).2 hMember₀)
    have hAudience : c.conn ∈ S₀.shared.audience :=
      List.mem_map.mpr ⟨c, List.mem_filter.mpr ⟨hMember₀, by simp [hReg₀, hSub]⟩, rfl⟩
    have hChannel : wsRoom room = wsRoom c.room := by rw [hIn]
    have hOne : tally S.shared c.conn src = 1 := by
      obtain ⟨hWaits, -⟩ | ⟨pid, hCarries⟩ := hInv.arrives _ hRecord' hEligible c hMember hAudience
        (by rwa [hIn]) hChannel
      · exact absurd rfl (hSettled.1 _ hWaits)
      · have hLt := (hInv.handling pid _ _ hCarries.1).1
        obtain ⟨t, res, hProc⟩ := ended_proc (hSettled.2 pid hLt _ hCarries.1 ⟨rfl, rfl⟩)
        obtain ⟨room', b, hb, hOwes⟩ := hKept.post hProc _ _ hCarries
        obtain rfl := hInv.record_unique hOwes.sent hRecord' (by rw [hb])
        obtain rfl := wsRoom_injective (hChannel.symm.trans hOwes.channel)
        exact hOwes.due hAudience hMember hReg
    have hLength : (S.shared.received.filter fun x => x.conn = c.conn ∧ x.source = some src).length =
        1 := by
      rw [← List.countP_eq_length_filter]
      exact hOne
    obtain ⟨x, hx⟩ := List.length_eq_one_iff.mp hLength
    have hMem : x ∈ S.shared.received.filter fun x => x.conn = c.conn ∧ x.source = some src := by
      rw [hx]
      exact List.mem_cons_self
    obtain ⟨hReceived, hFrom⟩ := List.mem_filter.mp hMem
    obtain ⟨hConn, hSource⟩ := of_decide_eq_true hFrom
    have hMessage := (hReceipt x hReceived hSource).1
    rw [hx]
    obtain ⟨conn, source, message⟩ := x
    dsimp only at hConn hSource hMessage
    rw [hConn, hSource, hMessage]
  · intro x hx value
    obtain ⟨m₁, -, -, pid, e, d', -, -, -, -, hMessage⟩ := hInv.received x hx
    rw [hMessage]
    exact Message.not_mem_clean d' value

end

namespace Demo

def outside : Stream.Outside where
  parseEnvelope _ := .error .invalid
  intOfStr s := s.toInt?
  quantile _ _ := 0

def ids (r : Nat) : String := String.ofList (List.replicate r 'r')

def guest : Member := ⟨⟨1, 11⟩, 1, "QUIZ"⟩

def host : Member := ⟨⟨2, 12⟩, 0, "QUIZ"⟩

def hello : Message := [("type", .plain (.str "match.started")), (originField, .plain .null)]

/-- Two replicas subscribe; each has one connection in the room. -/
def before : List FanoutLabel :=
  [.env (.boot 0), .op 0 {}, .op 0 {}, .env (.boot 1), .op 2 {}, .op 2 {},
    .env (.connect guest), .env (.connect host), .env (.broadcast 0 "QUIZ" hello)]

/-- Replica 1 is handed the message and passes it on before the sender has sent it to its
own connection, and replica 0 drops its own. -/
def after : List FanoutLabel :=
  [.op 3 { pick := some 0 }, .op 3 {}, .op 3 {}, .op 4 {}, .op 1 { pick := some 0 }, .op 1 {},
    .op 4 {}, .op 3 {}]

theorem ids_injective : Function.Injective ids := by
  intro a b h
  have hChars := congrArg String.toList h
  rw [ids, ids, String.toList_ofList, String.toList_ofList] at hChars
  simpa using congrArg List.length hChars

theorem run_two_replicas : ∃ S₀ S₁ S : FanoutState,
    (fanout outside ids).Reach (Smooth guest.conn) blank S₀ ∧ Smooth guest.conn S₀ (.op 4 {}) ∧
    Sends S₀ "QUIZ" hello (.broadcast 4) (.op 4 {}) ∧
    (fanout outside ids).step S₀ (.op 4 {}) = some S₁ ∧
    (fanout outside ids).Reach (Smooth guest.conn) S₁ S ∧
    S₀.shared.registered guest = true ∧ S₀.shared.subscribed 1 = true ∧
    S.shared.registered guest = true ∧ Settled S 1 (.broadcast 4) := by
  let goes : FanoutState → FanoutLabel → Bool := Machine.admits (smooth guest.conn) fun _ _ => true
  have hRun : ((fanout outside ids).runWhile goes blank before).any (fun S₀ =>
      decide (publishing S₀ 4 = some ("QUIZ", hello) ∧ S₀.shared.registered guest = true ∧
        S₀.shared.subscribed 1 = true) &&
      ((fanout outside ids).runWhile goes S₀ [.op 4 {}]).any fun S₁ =>
        ((fanout outside ids).runWhile goes S₁ after).any fun S =>
          decide (S.shared.registered guest = true ∧ Settled S 1 (.broadcast 4))) = true := by
    decide +kernel
  obtain ⟨S₀, hStart, hS₀⟩ := Machine.Reach.exists_of_runWhile hRun
  obtain ⟨hBefore, hRest⟩ := Bool.and_eq_true_iff.mp hS₀
  obtain ⟨hPublishing, hReg₀, hSub⟩ := of_decide_eq_true hBefore
  obtain ⟨S₁, hOne, hAfter⟩ := (Option.any_eq_true _ _).mp hRest
  obtain ⟨hSmooth, S₁', hStep, hEnd⟩ := Machine.runWhile_cons hOne
  cases hEnd
  obtain ⟨S, hReach, hS⟩ := Machine.Reach.exists_of_runWhile hAfter
  obtain ⟨hReg, hSettled⟩ := of_decide_eq_true hS
  exact ⟨S₀, S₁, S, hStart, hSmooth, ⟨rfl, hPublishing⟩, hStep, hReach, hReg₀, hSub, hReg, hSettled⟩

end Demo

theorem fanout_exactly_once_two_replicas : ∃ S : FanoutState,
    S.shared.received.filter (fun x => x.conn = Demo.guest.conn ∧ x.source = some (.broadcast 4)) =
      [⟨Demo.guest.conn, some (.broadcast 4), [("type", .plain (.str "match.started"))]⟩] := by
  obtain ⟨S₀, S₁, S, hStart, hSmooth, hSends, hStep, hRun, hReg₀, hSub, hReg, hSettled⟩ :=
    Demo.run_two_replicas
  have hRoom : "QUIZ" ≠ "" := by decide
  exact ⟨S, (fanout_exactly_once (c := Demo.guest) Demo.ids_injective hRoom hStart hSmooth hSends hStep
    hRun).1 rfl hReg₀ hSub hReg hSettled⟩

end LiveQuiz.Ws
