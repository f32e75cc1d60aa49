import LiveQuiz.Handshake.Contract

/-! # The handshake of a kicked participant

`_authenticate` looks at the token and at the room, not at the participant. So a mute
plays no part in a handshake: with a valid token it ends in the registry unless one of its
calls fails.
-/

namespace LiveQuiz.Handshake

open Coroutine

set_option autoImplicit false

/-- The token is a participant token of `p` for the room. -/
structure Grants (O : Outside) (token code : String) (p : Id) (claims : Claims) : Prop where
  given : token ≠ ""
  verified : O.verify token = some claims
  type : claims.type = participantType
  room : claims.roomCode = some code
  participant : claims.participantId.bind O.parseInt = some p

/-- The socket was registered, one of its calls has failed, or its token has expired. -/
def Decided (w : World) (pid : Nat) (code : String) (p : Id) (claims : Claims) : Prop :=
  Owns w pid code p ∨ w.failed pid = true ∨ micros claims.exp ≤ w.room.now

/-- A handshake on its way: its room is there, and it is not registered. -/
def Underway (w : World) (pid : Nat) (code : String) : Prop :=
  (∃ r ∈ w.room.rooms, r.code = code) ∧ ∀ x ∈ w.admitted, x.conn ≠ pid

section

variable {O : Outside} {R : Rooms.Outside} {w v : World} {t : Job} {pid n : Nat} {code : String} {p : Id}
  {claims : Claims} {o : Op} {d : Rooms.Decision} {α β : Type}

theorem perform_now {w : Rooms.World} {o : Rooms.Op} {a : Rooms.Answer o}
    (h : Rooms.perform R w pid n o d = some a) : a.shared.now = w.now := by
  cases o with
  | flush wr =>
    simp only [Rooms.perform, Rooms.flushWrite] at h
    split at h
    · cases h
      rfl
    · split at h <;> cases h
      rfl
  | commit =>
    cases h
    exact Transactions.applyAll_same (g := Rooms.World.now) fun wr _ w => by cases wr <;> rfl
  | countAdmit c m =>
    cases h
    unfold Rooms.capacityAdmit
    split <;> rfl
  | countRelease c =>
    cases h
    unfold Rooms.release
    split <;> rfl
  | _ =>
    cases h
    rfl

/-- No call takes back a registration or a failure, or the clock. -/
structure Grows (w v : World) : Prop where
  admitted : ∀ x ∈ w.admitted, x ∈ v.admitted
  failed : ∀ q, w.failed q = true → v.failed q = true
  now : w.room.now ≤ v.room.now

theorem Grows.trans {u : World} (h : Grows w v) (h' : Grows v u) : Grows w u :=
  ⟨fun x hx => h'.admitted x (h.admitted x hx), fun q hq => h'.failed q (h.failed q hq),
    h.now.trans h'.now⟩

theorem Decided.grows (h : Decided w pid code p claims) (hGrows : Grows w v) :
    Decided v pid code p claims := by
  obtain ⟨x, hx, hRest⟩ | hFailed | hExp := h
  · exact .inl ⟨x, hGrows.admitted x hx, hRest⟩
  · exact .inr (.inl (hGrows.failed pid hFailed))
  · exact .inr (.inr (hExp.trans hGrows.now))

theorem noteFailure_grows (w : World) (pid : Nat) : Grows w (w.noteFailure pid) := by
  obtain ⟨hModest, -⟩ := noteFailure_spec w pid
  refine ⟨fun x hx => hModest.admitted ▸ hx, fun q hq => ?_, hModest.ages.1⟩
  obtain hSame | ⟨-, hSet⟩ := hModest.failed
  · rw [hSame]
    exact hq
  · rw [hSet, Function.update_apply]
    split
    · rfl
    · exact hq

theorem perform_grows {out : Answer o} (h : perform R w t pid n o d = some out) : Grows w out.shared := by
  have hSame : ∀ {v : World}, SameSockets w v → v.room = w.room → Grows w v := by
    intro v h hRoom
    exact ⟨fun x hx => h.admitted ▸ hx, fun q hq => h.failed ▸ hq, by rw [hRoom]⟩
  cases o with
  | room o =>
    obtain ⟨a, hA, rfl⟩ := Option.map_eq_some_iff.mp h
    exact ⟨fun _ hx => hx, fun _ hq => hq, (perform_now hA).ge⟩
  | send m =>
    simp only [perform] at h
    split at h <;> cases h
    · exact noteFailure_grows w pid
    · exact hSame ⟨rfl, rfl, rfl, rfl⟩ rfl
  | receive =>
    simp only [perform] at h
    split at h <;> cases h
    exact hSame (.refl w) rfl
  | connect c q nickname b =>
    cases h
    exact ⟨fun x hx => List.mem_append_left _ hx, fun _ hq => hq, le_refl _⟩
  | broadcast c m =>
    cases h
    obtain ⟨hSockets, hRoom, -⟩ := broadcastAll_same w t.replica c m (d.fault ≠ .none)
    have hGrows := hSame hSockets hRoom
    exact ⟨hGrows.admitted, hGrows.failed, hGrows.now⟩
  | disconnect c =>
    cases h
    exact ⟨fun _ hx => hx, fun _ hq => hq, le_refl _⟩
  | _ =>
    cases h
    exact hSame ⟨rfl, rfl, rfl, rfl⟩ rfl

theorem exec_grows {out : Answer o} (h : exec R w t pid n o d = some out) : Grows w out.shared := by
  unfold exec at h
  split at h
  case isFalse => exact perform_grows h
  case isTrue =>
  split at h
  case h_1 => exact perform_grows h
  case h_2 =>
    cases h
    exact noteFailure_grows w pid
  case h_3 =>
    obtain ⟨a, hA, rfl⟩ := Option.map_eq_some_iff.mp h
    exact (perform_grows hA).trans (noteFailure_grows a.shared pid)

theorem Decided.rely (h : Decided w pid code p claims) (hRely : Rely pid w v) :
    Decided v pid code p claims := by
  obtain hOwns | hFailed | hExp := h
  · exact .inl (hOwns.rely hRely)
  · exact .inr (.inl (hRely.failed.trans hFailed))
  · exact .inr (.inr (hExp.trans hRely.now))

theorem Underway.rely (h : Underway w pid code) (hRely : Rely pid w v) : Underway v pid code := by
  refine ⟨hRely.rooms code h.1, fun x hx hConn => ?_⟩
  exact h.2 x ((hRely.admitted x hConn).mp hx) hConn

/-- From `w` the program ends decided, or normally with `Q`. -/
def Leads (O : Outside) (R : Rooms.Outside) (pid : Nat) (t : Job) (code : String) (p : Id)
    (claims : Claims) {α : Type} (prog : Coro α) (Q : α → World → Prop) (w : World) : Prop :=
  wp (endpoint O R) contract.lenient pid t prog (fun r w' => Decided w' pid code p claims ∨
    ∃ a, r = .ok a ∧ Q a w') w

theorem Leads.decided {prog : Coro α} {Q : α → World → Prop} (h : Decided w pid code p claims) :
    Leads O R pid t code p claims prog Q w := by
  induction prog generalizing w with
  | done r => exact .inl h
  | call o k ih =>
    intro w₁ n _ hRely _
    exact ⟨trivial, fun d out hExec => ih _ ((h.rely hRely).grows (exec_grows hExec))⟩

theorem Leads.seq {prog : Coro α} {f : α → Coro β} {Q : α → World → Prop} {Q' : β → World → Prop}
    (h : Leads O R pid t code p claims prog Q w)
    (hNext : ∀ a w', Q a w' → Leads O R pid t code p claims (f a) Q' w') :
    Leads O R pid t code p claims (prog >>= f) Q' w := by
  apply wp_bind
  apply wp_mono h
  rintro r w' (hDecided | ⟨a, rfl, hEnd⟩)
  · cases r with
    | ok a => exact Leads.decided hDecided
    | error e => exact .inl hDecided
  · exact hNext a w' hEnd

theorem Leads.handle {prog : Coro α} {f : Exn → Coro α} {Q : α → World → Prop}
    (h : Leads O R pid t code p claims prog Q w) : Leads O R pid t code p claims (prog.handle f) Q w := by
  apply wp_handle
  apply wp_mono h
  rintro r w' (hDecided | ⟨a, rfl, hEnd⟩)
  · cases r with
    | ok a => exact .inl hDecided
    | error e => exact Leads.decided hDecided
  · exact .inr ⟨a, rfl, hEnd⟩

theorem Leads.call {k : Except Exn o.Res → Coro β} {Q : β → World → Prop} (ho : o.calm = true)
    (h : Underway w pid code) (hNext : ∀ w₁ n d out v, Underway w₁ pid code →
      perform R w₁ t pid n o d = some out → out.result = .ok v → Underway out.shared pid code →
      Leads O R pid t code p claims (k (.ok v)) Q out.shared) :
    Leads O R pid t code p claims (.call o k) Q w := by
  intro w₁ n _ hRely _
  refine ⟨trivial, fun d out hExec => ?_⟩
  have h₁ := h.rely hRely
  obtain ⟨-, hModest, ⟨v, hv, -, hOk⟩ | ⟨-, hFailed⟩⟩ := exec_calm ho hExec
  · rw [hv]
    apply hNext w₁ n d out v h₁ hOk hv
    refine ⟨hModest.ages.2 code h₁.1, fun x hx => h₁.2 x ?_⟩
    rw [← hModest.admitted]
    exact hx
  · exact Leads.decided (.inr (.inl (hFailed h₁.2)))

theorem Leads.ask {f : o.Res → Coro β} {Q : β → World → Prop} (ho : o.calm = true)
    (h : Underway w pid code) (hNext : ∀ v w', Underway w' pid code →
      Leads O R pid t code p claims (f v) Q w') :
    Leads O R pid t code p claims (Handshake.ask o >>= f) Q w :=
  Leads.call ho h fun _ _ _ _ v _ _ _ hUnder => hNext v _ hUnder

theorem room_found (h : Underway w pid code) : ∃ r, w.room.rooms.find? (·.code = code) = some r := by
  obtain ⟨r, hr, hCode⟩ := h.1
  apply Option.isSome_iff_exists.mp
  rw [List.find?_isSome]
  exact ⟨r, hr, decide_eq_true hCode⟩

theorem decodeToken_of_grants {token : String} (hGrants : Grants O token code p claims) :
    decodeToken O token participantType = (do
      let now ← ask (.room .utcnow)
      if micros claims.exp ≤ now then
        raise "AUTH_REQUIRED" 401 "token expired"
      else
        return claims) := by
  unfold decodeToken
  rw [hGrants.verified]
  congr 1
  funext now
  apply ite_congr rfl
  · exact fun _ => rfl
  · exact fun _ => if_neg (not_not_intro hGrants.type)

theorem decodeToken_leads {token : String} (hGrants : Grants O token code p claims)
    (h : Underway w pid code) :
    Leads O R pid t code p claims (decodeToken O token participantType)
      (fun c w' => c = claims ∧ Underway w' pid code) w := by
  rw [decodeToken_of_grants hGrants]
  apply Leads.call rfl h
  intro w₁ n d out v h₁ hOk hv hUnder
  cases hOk
  cases hv
  change Leads O R pid t code p claims (ite _ _ _) _ _
  split
  next hExp => exact Leads.decided (.inr (.inr hExp))
  next => exact .inr ⟨claims, rfl, rfl, hUnder⟩

theorem authenticate_leads {token : String} (hGrants : Grants O token code p claims)
    (h : Underway w pid code) :
    Leads O R pid t code p claims (authenticate O code token)
      (fun found w' => (∃ nickname isHost, found = some (p, nickname, isHost)) ∧ Underway w' pid code)
      w := by
  unfold authenticate
  rw [if_neg hGrants.given]
  have hClaims : Leads O R pid t code p claims
      (exceptAuth (some <$> decodeToken O token participantType) fun _ _ => refuse "invalid token")
      (fun found w' => found = some claims ∧ Underway w' pid code) w := by
    apply Leads.handle
    apply Leads.seq (decodeToken_leads hGrants h)
    rintro _ w₁ ⟨rfl, h₁⟩
    exact .inr ⟨_, rfl, rfl, h₁⟩
  apply Leads.seq hClaims
  rintro _ w₁ ⟨rfl, h₁⟩
  simp only [hGrants.room, hGrants.participant, Option.getD_some, ne_eq, not_true_eq_false, if_false]
  apply Leads.call rfl h₁
  intro w₂ n d out v h₂ hOk hv hUnder
  cases hOk
  cases hv
  obtain ⟨room, hRoom⟩ := room_found h₂
  simp only [hRoom]
  exact .inr ⟨_, rfl, ⟨_, _, rfl⟩, hUnder⟩

theorem buildSnapshot_leads (h : Underway w pid code) :
    Leads O R pid t code p claims (lift (Rooms.buildSnapshot code)) (fun _ w' => Underway w' pid code)
      w := by
  apply Leads.call rfl h
  intro w₁ n d out cached h₁ hOk hv hUnder
  cases cached with
  | some s => exact .inr ⟨s, rfl, hUnder⟩
  | none =>
    apply Leads.call rfl hUnder
    intro w₂ n d out found h₂ hOk hv hUnder
    cases hOk
    cases hv
    obtain ⟨room, hRoom⟩ := room_found h₂
    rw [hRoom]
    apply Leads.call rfl hUnder
    intro w₃ n d out rows h₃ hOk hv hUnder
    apply Leads.call rfl hUnder
    intro w₄ n d out _ h₄ hOk hv hUnder
    apply Leads.call rfl hUnder
    intro w₅ n d out _ h₅ hOk hv hUnder
    exact .inr ⟨_, rfl, hUnder⟩

theorem snapshotOrClose_leads (h : Underway w pid code) :
    Leads O R pid t code p claims (snapshotOrClose code)
      (fun found w' => (∃ snapshot, found = some snapshot) ∧ Underway w' pid code) w := by
  apply Leads.handle
  apply Leads.seq (buildSnapshot_leads h)
  intro snapshot w₁ h₁
  exact .inr ⟨_, rfl, ⟨snapshot, rfl⟩, h₁⟩

theorem attend_leads {nickname : String} {isHost : Bool} {k : Nat} {Q : Unit → World → Prop} :
    Leads O R pid t code p claims (attend code p nickname isHost k) Q w := by
  intro w₁ n _ _ _
  refine ⟨trivial, fun d out hExec => ?_⟩
  cases hExec
  apply Leads.decided
  left
  exact ⟨_, List.mem_append_right _ (List.mem_singleton_self _), rfl, rfl, rfl⟩

theorem wsRoomEndpoint_leads {token : String} (hGrants : Grants O token code p claims)
    (h : Underway w pid code) :
    Leads O R pid t code p claims (wsRoomEndpoint O code token) (fun _ _ => False) w := by
  apply Leads.seq (authenticate_leads hGrants h)
  rintro _ w₁ ⟨⟨nickname, isHost, rfl⟩, h₁⟩
  apply Leads.ask rfl h₁
  intro _ w₂ h₂
  apply Leads.seq (snapshotOrClose_leads h₂)
  rintro _ w₃ ⟨⟨snapshot, rfl⟩, h₃⟩
  apply Leads.ask rfl h₃
  intro _ w₄ h₄
  exact attend_leads

/-- A participant of the room that a mute has kicked. -/
def Kicked (w : World) (code : String) (p : Id) : Prop :=
  ∃ q ∈ w.room.participants, q.id = p ∧ q.isKicked = true ∧ ∃ r ∈ w.room.rooms, r.id = q.roomId ∧ r.code = code

theorem handshake_decided {S₀ S₁ S : SysState} {r : Nat} {token : String}
    (hGrants : Grants O token code p claims)
    (h₀ : (endpoint O R).Reach (fun _ _ => True) initial S₀)
    (hRoom : ∃ x ∈ S₀.shared.room.rooms, x.code = code)
    (hStart : (endpoint O R).step S₀ (.env (.request (.connect r code token))) = some S₁)
    (hReach : (endpoint O R).Reach (fun _ _ => True) S₁ S)
    (hEnded : ∃ t result, S.procs[S₀.procs.length]? = some ⟨t, .done result⟩) :
    Decided S.shared S₀.procs.length code p claims := by
  have hKept₀ := kept_of_reach h₀
  have hKept₁ := kept_of_reach (h₀.tail trivial hStart)
  cases hStart
  have hUnder : Underway S₀.shared S₀.procs.length code := by
    refine ⟨hRoom, fun x hx hConn => ?_⟩
    have hOut := (hKept₀.inv.fresh S₀.procs.length le_rfl).1
    rw [← hConn] at hOut
    exact (hKept₀.inv.entered x hx).1 hOut
  have hWalk := wsRoomEndpoint_leads (R := R) (t := .connect r code token) hGrants hUnder
  have hBegun : (S₀.procs ++ [(endpoint O R).start (.connect r code token)])[S₀.procs.length]? =
      some ⟨.connect r code token, wsRoomEndpoint O code token⟩ := List.getElem?_concat_length
  have hEnds : wp (endpoint O R) contract.lenient S₀.procs.length (.connect r code token)
      (wsRoomEndpoint O code token) (fun _ w => Decided w S₀.procs.length code p claims) S₀.shared := by
    apply wp_mono hWalk
    rintro _ w (hDecided | ⟨_, _, hFalse⟩)
    · exact hDecided
    · exact hFalse.elim
  obtain ⟨⟨t', prog⟩, hProc, rfl, hwp⟩ := sound.follow
    (fun _ _ _ hDecided hRely => Decided.rely hDecided hRely) hKept₁
    hBegun hEnds hReach
  obtain ⟨t, result, hEnd⟩ := hEnded
  rw [hProc] at hEnd
  cases hEnd
  exact hwp

/-- A kicked participant with a token that has not expired stays out of the registry
exactly when a call of the handshake fails before the registration. -/
theorem kicked_out_iff {S₀ S₁ S : SysState} {r : Nat} {token : String}
    (hGrants : Grants O token code p claims)
    (h₀ : (endpoint O R).Reach (fun _ _ => True) initial S₀)
    (hKicked : Kicked S₀.shared code p)
    (hStart : (endpoint O R).step S₀ (.env (.request (.connect r code token))) = some S₁)
    (hReach : (endpoint O R).Reach (fun _ _ => True) S₁ S)
    (hTime : S.shared.room.now < micros claims.exp)
    (hEnded : Owns S.shared S₀.procs.length code p ∨
      ∃ t result, S.procs[S₀.procs.length]? = some ⟨t, .done result⟩) :
    ¬Owns S.shared S₀.procs.length code p ↔ S.shared.failed S₀.procs.length = true := by
  have hKept := kept_of_reach ((h₀.tail trivial hStart).trans hReach)
  constructor
  · intro hNot
    obtain ⟨-, -, -, -, x, hx, -, hCode⟩ := hKicked
    obtain hOwns | hFailed | hExp := handshake_decided hGrants h₀ ⟨x, hx, hCode⟩ hStart hReach
      (hEnded.resolve_left hNot)
    · exact absurd hOwns hNot
    · exact hFailed
    · exact absurd hTime (not_lt.mpr hExp)
  · rintro hFailed ⟨x, hx, hConn, -⟩
    have hNot := (hKept.inv.entered x hx).2
    rw [hConn, hFailed] at hNot
    cases hNot

end

instance (w : World) (pid : Nat) (code : String) (p : Id) : Decidable (Owns w pid code p) :=
  inferInstanceAs (Decidable (∃ x ∈ w.admitted, _))

instance (w : World) (code : String) (p : Id) : Decidable (Kicked w code p) :=
  inferInstanceAs (Decidable (∃ q ∈ w.room.participants, _))

def Demo.annClaims : Claims := ⟨"participant", 100, some "AB", some "21", some "ann"⟩

theorem Demo.ann_grants : Grants outside "ann" "AB" 21 annClaims := by
  constructor <;> decide

def Demo.annKicked : List SysLabel := room ++ [.env (.kick 21)]

/-- The database has failed her. -/
theorem kicked_out_ann : ∃ S₀ S : SysState,
    (endpoint Demo.outside Demo.policy).Reach (fun _ _ => True) initial S₀ ∧
    (endpoint Demo.outside Demo.policy).Reach (fun _ _ => True) S₀ S ∧
    Kicked S₀.shared "AB" 21 ∧ ¬Owns S.shared S₀.procs.length "AB" 21 := by
  have hRun : ((endpoint Demo.outside Demo.policy).run initial Demo.annKicked).any
      (fun S₀ => decide (Kicked S₀.shared "AB" 21) &&
        ((endpoint Demo.outside Demo.policy).step S₀ (.env (.request (.connect 0 "AB" "ann")))).any
        fun S₁ => ((endpoint Demo.outside Demo.policy).run S₁ [.op 0 {}, .op 0 { fault := .fail }]).any
        fun S => decide (S.shared.room.now < micros Demo.annClaims.exp) &&
          S.shared.failed S₀.procs.length && (S.procs[S₀.procs.length]?).any Proc.ended) = true := by
    decide +kernel
  obtain ⟨S₀, h₀, hS₀⟩ := Machine.Reach.exists_of_run hRun
  simp only [Bool.and_eq_true, decide_eq_true_eq] at hS₀
  obtain ⟨hKicked, hS₀⟩ := hS₀
  obtain ⟨S₁, hStart, hS₁⟩ := (Option.any_eq_true _ _).mp hS₀
  obtain ⟨S, hReach, hS⟩ := Machine.Reach.exists_of_run hS₁
  simp only [Bool.and_eq_true, decide_eq_true_eq] at hS
  obtain ⟨⟨hTime, hFailed⟩, hEnded⟩ := hS
  obtain ⟨pr, hProc, hDone⟩ := (Option.any_eq_true _ _).mp hEnded
  obtain ⟨result, hDone⟩ := Proc.ended_iff.mp hDone
  refine ⟨S₀, S, h₀, (Machine.Reach.refl.tail trivial hStart).trans hReach, hKicked, ?_⟩
  apply (kicked_out_iff Demo.ann_grants h₀ hKicked hStart hReach hTime _).mpr hFailed
  exact .inr ⟨pr.task, result, by rw [hProc, ← hDone]⟩

/-- Ann is kicked, connects with her token, and is sent the end of the match. -/
theorem kicked_gets_in : ∃ S₀ S₁ S : SysState,
    (endpoint Demo.outside Demo.policy).Reach (fun _ _ => True) initial S₀ ∧
    Kicked S₀.shared "AB" 21 ∧
    (endpoint Demo.outside Demo.policy).step S₀ (.env (.request (.connect 0 "AB" "ann"))) = some S₁ ∧
    (endpoint Demo.outside Demo.policy).Reach (fun _ _ => True) S₁ S ∧
    S.shared.room.now < micros Demo.annClaims.exp ∧
    (∃ x ∈ S.shared.members, x.conn = S₀.procs.length ∧ x.room = "AB" ∧ x.participantId = 21) ∧
    (S₀.procs.length, 0, ServerMessage.ofMatch (.matchFinished 9)) ∈ S.shared.received := by
  have hRun : ((endpoint Demo.outside Demo.policy).run initial Demo.annKicked).any
      (fun S₀ => decide (Kicked S₀.shared "AB" 21) &&
        ((endpoint Demo.outside Demo.policy).step S₀ (.env (.request (.connect 0 "AB" "ann")))).any
        fun S₁ => ((endpoint Demo.outside Demo.policy).run S₁
          (Demo.calls 0 11 ++ [.env (.broadcast 0 "AB" (.matchFinished 9) false)])).any
        fun S => decide (S.shared.room.now < micros Demo.annClaims.exp ∧
          (∃ x ∈ S.shared.members, x.conn = S₀.procs.length ∧ x.room = "AB" ∧ x.participantId = 21) ∧
          (S₀.procs.length, 0, ServerMessage.ofMatch (.matchFinished 9)) ∈ S.shared.received)) = true := by
    decide +kernel
  obtain ⟨S₀, h₀, hS₀⟩ := Machine.Reach.exists_of_run hRun
  simp only [Bool.and_eq_true, decide_eq_true_eq] at hS₀
  obtain ⟨hKicked, hS₀⟩ := hS₀
  obtain ⟨S₁, hStart, hS₁⟩ := (Option.any_eq_true _ _).mp hS₀
  obtain ⟨S, hReach, hS⟩ := Machine.Reach.exists_of_run hS₁
  exact ⟨S₀, S₁, S, h₀, hKicked, hStart, hReach, of_decide_eq_true hS⟩

end LiveQuiz.Handshake
