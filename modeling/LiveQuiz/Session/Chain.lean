import LiveQuiz.Session.Sound

/-! # The chain of a refresh

As long as no fetch is given up while its handler is still at work, the refresh of the tab
waits for its route handler, and this one for the endpoint. So there is at most one
endpoint at work on a refresh.
-/

namespace LiveQuiz.Session

open Coroutine

set_option autoImplicit false

/-- The current refresh waits for the route handler `h`, which has not answered. -/
structure World.Held (w : World) (k h : Nat) : Prop where
  current : w.refreshInFlight = some k
  waits : w.awaiting k = some h
  unanswered : w.responses h = none
  later : k < h

/-- The route handler in its turn waits for the endpoint `b`. -/
structure World.HeldTwice (w : World) (k h b : Nat) : Prop where
  held : w.Held k h
  waits : w.awaiting h = some b
  unanswered : w.responses b = none
  later : h < b

def heeded (w : World) (o : Op) (d : Decision) : Bool :=
  match o with
  | .response i => d.fault = .none || (w.responses i).isSome
  | _ => true

abbrev heedful (O : Outside) : Machine World Op Op.Res Exn Ret Job Decision EnvAction :=
  (session O).restrict heeded fun _ _ => true

def chainReq (pid : Nat) (w : World) : Job → Prop
  | .handler (.route (.refresh _)) => ∃ k, w.Held k pid
  | .handler (.upstream (.refresh _)) => ∃ k h, w.HeldTwice k h pid
  | _ => True

def chainLayer : Layer World Op Job where
  inv _ := True
  rely pid _ _ w v := (∀ k, w.Held k pid → v.Held k pid) ∧ ∀ k h, w.HeldTwice k h pid → v.HeldTwice k h pid
  req pid job w _ := chainReq pid w job

section

variable {O : Outside} {pid n : Nat} {job : Job} {w v : World} {k h b : Nat}

theorem chainLayer_steady : chainLayer.Steady where
  refl _ _ _ _ := ⟨fun _ => id, fun _ _ => id⟩
  trans _ _ _ _ _ _ h h' := ⟨fun k hk => h'.1 k (h.1 k hk), fun k i hk => h'.2 k i (h.2 k i hk)⟩

theorem Held.kept (hInv : Inv n w) (hRely : Rely O.toOutside k w v) (h' : w.Held k h)
    (hAnswer : v.responses h = none) : v.Held k h where
  current := by
    obtain hSame | ⟨ok, hSettled⟩ := hRely.current k h'.current
    · exact hSame
    · rw [hRely.outcome, (hInv.flying k h'.current).2] at hSettled
      cases hSettled
  waits := hRely.waits.trans h'.waits
  unanswered := hAnswer
  later := h'.later

theorem heldTwice_kept (hInv : Inv n w) (hRely : Rely O.toOutside k w v) (hRely' : Rely O.toOutside h w v)
    (h' : w.HeldTwice k h b) (hAnswer : v.responses b = none) : v.HeldTwice k h b where
  held := Held.kept hInv hRely h'.held (hRely'.answer.trans h'.held.unanswered)
  waits := hRely'.waits.trans h'.waits
  unanswered := hAnswer
  later := h'.later

theorem not_exec_waiting {o : Op} {d : Decision} {out : Answer o} {i : Nat}
    (hReq : Req O.toOutside pid job w o) (hWaits : w.awaiting pid = some i) (hNone : w.responses i = none)
    (hOk : heeded w o d = true) : exec w job pid n o d ≠ some out := by
  intro hExec
  obtain rfl := hReq.waits i hWaits
  simp only [heeded, hNone, Option.isSome_none, Bool.or_false, decide_eq_true_eq] at hOk
  simp [exec, hOk, hNone] at hExec

/-- What a call leaves of the current refresh, of who waits, of the answers and of the
authentication service. -/
structure Leaves (pid : Nat) (o : Op) (w v : World) : Prop where
  current : (∀ data, o ≠ .finishRefresh data) → ∀ k, w.refreshInFlight = some k → v.refreshInFlight = some k
  awaiting : ∀ q, q ≠ pid → v.awaiting q = w.awaiting q
  answers : ∀ q, q ≠ pid → v.responses q = w.responses q
  answer : (∀ r, o ≠ .reply r) → v.responses pid = w.responses pid
  auth : (∀ o', o ≠ .auth o') → v.auth = w.auth

theorem leaves_same {o : Op} (hFlight : v.refreshInFlight = w.refreshInFlight) (hAwaiting : v.awaiting = w.awaiting)
    (hResponses : v.responses = w.responses) (hAuth : (∀ o', o ≠ .auth o') → v.auth = w.auth) :
    Leaves pid o w v where
  current _ _ hk := hFlight.trans hk
  awaiting q _ := congrFun hAwaiting q
  answers q _ := congrFun hResponses q
  answer _ := congrFun hResponses pid
  auth := hAuth

theorem leaves_waiting {o : Op} {a : Option Nat} (hFlight : v.refreshInFlight = w.refreshInFlight)
    (hAwaiting : v.awaiting = Function.update w.awaiting pid a) (hResponses : v.responses = w.responses)
    (hAuth : v.auth = w.auth) : Leaves pid o w v where
  current _ _ hk := hFlight.trans hk
  awaiting q hq := by
    rw [hAwaiting]
    exact Function.update_of_ne hq _ _
  answers q _ := congrFun hResponses q
  answer _ := congrFun hResponses pid
  auth _ := hAuth

theorem exec_leaves {o : Op} {d : Decision} {out : Answer o} (hExec : exec w job pid n o d = some out) :
    Leaves pid o w out.shared := by
  cases o with
  | reply r =>
    cases hExec
    exact ⟨fun _ _ => id, fun _ _ => rfl, fun q hq => Function.update_of_ne hq _ _, fun h => absurd rfl (h r),
      fun _ => rfl⟩
  | finishRefresh data =>
    cases data <;> cases hExec <;>
      exact ⟨fun h => absurd rfl (h _), fun _ _ => rfl, fun _ _ => rfl, fun _ => rfl, fun _ => rfl⟩
  | bffPost p =>
    simp only [exec] at hExec
    split at hExec <;> cases hExec
    · exact leaves_waiting rfl rfl rfl rfl
    · exact leaves_same rfl rfl rfl fun _ => rfl
  | send opts =>
    simp only [exec] at hExec
    split at hExec <;> cases hExec
    · exact leaves_waiting rfl rfl rfl rfl
    · exact leaves_same rfl rfl rfl fun _ => rfl
  | upstream u =>
    simp only [exec] at hExec
    split at hExec <;> cases hExec
    · exact leaves_waiting rfl rfl rfl rfl
    · exact leaves_same rfl rfl rfl fun _ => rfl
  | response i =>
    simp only [exec] at hExec
    split at hExec
    · obtain ⟨r, -, rfl⟩ := Option.map_eq_some_iff.mp hExec
      exact leaves_waiting rfl rfl rfl rfl
    · cases hExec
      exact leaves_waiting rfl rfl rfl rfl
  | refreshAccess =>
    simp only [exec] at hExec
    split at hExec <;> cases hExec
    · exact leaves_same rfl rfl rfl fun _ => rfl
    next hNone =>
      refine ⟨fun _ k hk => ?_, fun _ _ => rfl, fun _ _ => rfl, fun _ => rfl, fun _ => rfl⟩
      rw [hNone] at hk
      cases hk
  | flight k =>
    obtain ⟨ok, -, rfl⟩ := Option.map_eq_some_iff.mp hExec
    exact leaves_same rfl rfl rfl fun _ => rfl
  | auth o =>
    obtain ⟨out', -, rfl⟩ := Option.map_eq_some_iff.mp hExec
    exact leaves_same rfl rfl rfl fun h => absurd rfl (h o)
  | text r =>
    simp only [exec] at hExec
    split at hExec <;> cases hExec <;> exact leaves_same rfl rfl rfl fun _ => rfl
  | beginHydrate =>
    simp only [exec] at hExec
    split at hExec <;> cases hExec <;> exact leaves_same rfl rfl rfl fun _ => rfl
  | rateAcquire =>
    simp only [exec] at hExec
    split at hExec <;> cases hExec <;> exact leaves_same rfl rfl rfl fun _ => rfl
  | getByEmail email =>
    simp only [exec] at hExec
    split at hExec <;> cases hExec <;> exact leaves_same rfl rfl rfl fun _ => rfl
  | isAccessRevoked key =>
    simp only [exec] at hExec
    split at hExec <;> cases hExec <;> exact leaves_same rfl rfl rfl fun _ => rfl
  | setAnon => cases hExec; exact leaves_same rfl rfl rfl fun _ => rfl
  | setStatusAnon => cases hExec; exact leaves_same rfl rfl rfl fun _ => rfl
  | setToken a => cases hExec; exact leaves_same rfl rfl rfl fun _ => rfl
  | setUser user => cases hExec; exact leaves_same rfl rfl rfl fun _ => rfl
  | endpoint opts authorization => cases hExec; exact leaves_same rfl rfl rfl fun _ => rfl

theorem Leaves.held {o : Op} (h : Leaves pid o w v) (hFinish : ∀ data, o ≠ .finishRefresh data)
    (hOther : k ≠ pid) (hAnswer : v.responses b = w.responses b) (hk : w.Held k b) : v.Held k b where
  current := h.current hFinish k hk.current
  waits := (h.awaiting k hOther).trans hk.waits
  unanswered := hAnswer.trans hk.unanswered
  later := hk.later

theorem chain_others {o : Op} {d : Decision} {out : Answer o} {q : Nat} (hReq : Req O.toOutside pid job w o)
    (hOk : heeded w o d = true) (hExec : exec w job pid n o d = some out) (hNe : q ≠ pid) :
    (∀ k, w.Held k q → out.shared.Held k q) ∧ ∀ k h, w.HeldTwice k h q → out.shared.HeldTwice k h q := by
  have hLeaves := exec_leaves hExec
  have hIdle : ∀ p i, w.awaiting p = some i → w.responses i = none → p ≠ pid := by
    rintro p i hWaits hNone rfl
    exact not_exec_waiting hReq hWaits hNone hOk hExec
  have hHeld : ∀ k i, i ≠ pid → w.Held k i → out.shared.Held k i := by
    intro k i hi hk
    have hOther := hIdle k i hk.waits hk.unanswered
    refine hLeaves.held ?_ hOther (hLeaves.answers i hi) hk
    -- only the current refresh ends a refresh, and it waits
    rintro data rfl
    have hMine := hReq.at'.flight.mpr hReq.op.1
    exact hOther (Option.some.inj (hk.current.symm.trans hMine))
  refine ⟨fun k => hHeld k q hNe, fun k i hk => ?_⟩
  have hOther := hIdle i q hk.waits hk.unanswered
  exact ⟨hHeld k i hOther hk.held, (hLeaves.awaiting i hOther).trans hk.waits,
    (hLeaves.answers q hNe).trans hk.unanswered, hk.later⟩

theorem held_exec {o : Op} {d : Decision} {out : Answer o} (hJob : job ≠ .flight) (hReply : ∀ r, o ≠ .reply r)
    (hReq : Req O.toOutside pid job w o) (hExec : exec w job pid n o d = some out) (hk : w.Held k pid) :
    out.shared.Held k pid := by
  have hLeaves := exec_leaves hExec
  refine hLeaves.held ?_ hk.later.ne (hLeaves.answer hReply) hk
  rintro data rfl
  exact hJob hReq.op.1

theorem heldTwice_exec {o : Op} {d : Decision} {out : Answer o} (hJob : job ≠ .flight)
    (hReply : ∀ r, o ≠ .reply r) (hReq : Req O.toOutside pid job w o)
    (hExec : exec w job pid n o d = some out) (hk : w.HeldTwice k h pid) : out.shared.HeldTwice k h pid := by
  have hLeaves := exec_leaves hExec
  refine ⟨hLeaves.held ?_ ?_ ?_ hk.held, ?_, ?_, hk.later⟩
  · rintro data rfl
    exact hJob hReq.op.1
  · exact (hk.held.later.trans hk.later).ne
  · exact hLeaves.answers h hk.later.ne
  · exact (hLeaves.awaiting h hk.later.ne).trans hk.waits
  · exact (hLeaves.answer hReply).trans hk.unanswered

abbrev Silent {α : Type} (p : Coro α) : Prop := Confined (fun o => ∀ r, o ≠ .reply r) (fun _ => True) p

theorem silent_call {o : Op} (h : ∀ r, o ≠ .reply r) : Silent (ask o) := .ask h

theorem silent_jsonOr {α : Type} {f : Body → α} {fallback : α} {r : Response} :
    Silent (jsonOr f fallback r) := by
  refine .handle (.map _ (.call (fun _ h => by cases h) fun a => ?_)) fun _ _ => .pure _
  cases a with
  | json body => exact .pure _
  | empty => exact .throw trivial
  | other => exact .throw trivial

theorem silent_refreshRoute {cookie : Option String} : Silent (refreshRoute cookie) := by
  unfold refreshRoute
  cases truthy cookie with
  | none => exact .pure _
  | some token =>
    refine .bind (.handle (.map _ (.call (fun _ h => by cases h) fun i => ?_)) fun _ _ => .pure _) fun r => ?_
    · exact silent_call fun _ h => by cases h
    · cases r with
      | none => exact .pure _
      | some r =>
        refine .bind silent_jsonOr fun data => ?_
        split <;> exact .pure _

theorem confined_any {α : Type} {p : Prog Auth.Op Auth.Op.Res LiveQuiz.Exn α} :
    Confined (fun _ => True) (fun _ => True) p := by
  induction p with
  | done r => exact fun _ _ => trivial
  | call o k ih => exact ⟨trivial, fun v => ih _, fun e _ => ih _⟩

theorem silent_refresh {token : String} : Silent (handle O (.upstream (.refresh token))) := by
  refine .handle (.bind (service.confined confined_any fun o _ r h => by cases h) fun _ => .pure _)
    fun _ _ => .pure _

theorem keeps_handler {req : Request} {J : World → Prop} (hSilent : Silent (handle O req)) (hJ : J w)
    (hReq : ∀ w, J w → chainReq pid w (.handler req))
    (hRely : ∀ w v, J w → Rely O.toOutside pid w v →
      ((∀ k, w.Held k pid → v.Held k pid) ∧ ∀ k h, w.HeldTwice k h pid → v.HeldTwice k h pid) → J v)
    (hExec : ∀ w n o d out, (∀ r, o ≠ .reply r) → J w → Req O.toOutside pid (.handler req) w o →
      exec w (.handler req) pid n o d = some out → J out.shared) :
    chainLayer.Keeps (heedful O) (contract O.toOutside) pid (.handler req) (jobBody O (.handler req)) w := by
  have hHandle : chainLayer.wp (heedful O) (contract O.toOutside) pid (.handler req) (handle O req)
      (fun _ v => J v) w := by
    refine Layer.wp_confined hSilent hJ (fun s _ _ hs => hReq s hs)
      (fun _ s s' hs hs' hs'' => hRely s s' hs hs' hs'') fun s m o d out _ ho hs hReq' hOut => ?_
    exact hExec s m o d out ho hs hReq' (restrict_exec hOut).2
  have hReply : ∀ a v, J v → chainLayer.wp (heedful O) (contract O.toOutside) pid (.handler req)
      (ask (.reply a)) (fun _ _ => True) v := by
    intro a v hv v' m _ hv' hv'' _ _ _
    exact ⟨hReq v' (hRely v v' hv hv' hv''), fun _ _ _ => trivial⟩
  refine Layer.wp_seq (P := fun _ _ => True) ?_ (fun _ _ _ => trivial) fun _ _ _ => trivial
  exact Layer.wp_seq hHandle (fun a v hv => hReply a v hv) fun _ _ _ => trivial

theorem keeps_free (hFree : ∀ w, chainReq pid w job) {p : Coro Ret} :
    chainLayer.Keeps (heedful O) (contract O.toOutside) pid job p w := by
  induction p generalizing w with
  | done r => trivial
  | call o k ih =>
    intro v fresh _ _ _ _ _ _
    exact ⟨hFree v, fun d out _ => ih _⟩

theorem keeps_refreshRoute {cookie : Option String} (hk : w.Held k pid) :
    chainLayer.Keeps (heedful O) (contract O.toOutside) pid (.handler (.route (.refresh cookie)))
      (jobBody O (.handler (.route (.refresh cookie)))) w := by
  refine keeps_handler (J := fun w => w.Held k pid) silent_refreshRoute hk (fun v hv => ⟨k, hv⟩) ?_ ?_
  · exact fun _ _ hv _ hRely => hRely.1 k hv
  · exact fun v m o d out ho hv hReq hExec => held_exec (fun h => by cases h) ho hReq hExec hv

theorem keeps_refresh {token : String} (hk : w.HeldTwice k h pid) :
    chainLayer.Keeps (heedful O) (contract O.toOutside) pid (.handler (.upstream (.refresh token)))
      (jobBody O (.handler (.upstream (.refresh token)))) w := by
  refine keeps_handler (J := fun w => w.HeldTwice k h pid) silent_refresh hk (fun v hv => ⟨k, h, hv⟩) ?_ ?_
  · exact fun _ _ hv _ hRely => hRely.2 k h hv
  · exact fun v m o d out ho hv hReq hExec => heldTwice_exec (fun h => by cases h) ho hReq hExec hv

theorem asked_below {i : Nat} {req : Request} (hInv : Inv n w) (hAsked : w.asked i = some req) : i < n := by
  by_contra hNot
  rw [(hInv.fresh i (not_lt.mp hNot)).2.2.1] at hAsked
  cases hAsked

theorem chain_spawn {o : Op} {d : Decision} {out : Answer o} (hInv : Inv n w)
    (hReq : Req O.toOutside pid job w o) (hChain : chainReq pid w job)
    (hExec : exec w job pid n o d = some out) {t : Job} (hNew : out.spawned = some t) :
    chainLayer.Keeps (heedful O) (contract O.toOutside) n t ((heedful O).body t) out.shared := by
  obtain ⟨-, hNone, -⟩ := hInv.fresh n (le_refl n)
  cases o with
  | bffPost p =>
    simp only [exec] at hExec
    split at hExec <;> cases hExec
    · cases hNew
      cases p with
      | refresh =>
        have hMine := hReq.at'.flight.mpr hReq.op
        exact keeps_refreshRoute ⟨hMine, Function.update_self _ _ _, hNone, (hInv.flying pid hMine).1⟩
      | login _ _ =>
        refine keeps_free ?_
        exact fun _ => trivial
      | logout =>
        refine keeps_free ?_
        exact fun _ => trivial
    · cases hNew
  | send opts =>
    simp only [exec] at hExec
    split at hExec <;> cases hExec
    · cases hNew
      refine keeps_free ?_
      exact fun _ => trivial
    · cases hNew
  | upstream u =>
    simp only [exec] at hExec
    split at hExec <;> cases hExec
    · cases hNew
      cases u with
      | refresh token =>
        obtain ⟨cookie, rfl⟩ := hReq.op
        obtain ⟨k, hk⟩ := hChain
        have hLt : pid < n := asked_below hInv ((hReq.at'.asked _).mpr rfl)
        refine keeps_refresh ⟨⟨hk.current, ?_, hk.unanswered, hk.later⟩, Function.update_self _ _ _, hNone, hLt⟩
        exact (Function.update_of_ne hk.later.ne _ _).trans hk.waits
      | login _ _ =>
        refine keeps_free ?_
        exact fun _ => trivial
      | logout _ _ =>
        refine keeps_free ?_
        exact fun _ => trivial
    · cases hNew
  | refreshAccess =>
    simp only [exec] at hExec
    split at hExec <;> cases hExec
    · cases hNew
    · cases hNew
      refine keeps_free ?_
      exact fun _ => trivial
  | response i =>
    simp only [exec] at hExec
    split at hExec
    · obtain ⟨r, -, rfl⟩ := Option.map_eq_some_iff.mp hExec
      cases hNew
    · cases hExec
      cases hNew
  | flight k =>
    obtain ⟨ok, -, rfl⟩ := Option.map_eq_some_iff.mp hExec
    cases hNew
  | auth o =>
    obtain ⟨out', -, rfl⟩ := Option.map_eq_some_iff.mp hExec
    cases hNew
  | finishRefresh data =>
    cases data <;> cases hExec <;> cases hNew
  | text r =>
    simp only [exec] at hExec
    split at hExec <;> cases hExec <;> cases hNew
  | beginHydrate =>
    simp only [exec] at hExec
    split at hExec <;> cases hExec <;> cases hNew
  | rateAcquire =>
    simp only [exec] at hExec
    split at hExec <;> cases hExec <;> cases hNew
  | getByEmail email =>
    simp only [exec] at hExec
    split at hExec <;> cases hExec <;> cases hNew
  | isAccessRevoked key =>
    simp only [exec] at hExec
    split at hExec <;> cases hExec <;> cases hNew
  | reply r => cases hExec; cases hNew
  | setAnon => cases hExec; cases hNew
  | setStatusAnon => cases hExec; cases hNew
  | setToken a => cases hExec; cases hNew
  | setUser user => cases hExec; cases hNew
  | endpoint opts authorization => cases hExec; cases hNew

theorem chain_fits : chainLayer.Fits (heedful O) (contract O.toOutside) where
  steady := chainLayer_steady
  exec w job pid n o d out hInv _ hReq hChain hExec := by
    obtain ⟨hOk, hExec⟩ := restrict_exec hExec
    refine ⟨trivial, fun q _ _ _ hNe => chain_others hReq hOk hExec hNe, fun t hNew => ?_⟩
    exact chain_spawn hInv hReq hChain hExec hNew
  env w n e out hInv _ hEnv := by
    obtain ⟨-, hEnv⟩ := restrict_env hEnv
    change env w n e = some out at hEnv
    obtain ⟨-, hRely, -⟩ := env_advances (O := O.toOutside) hInv hEnv
    refine ⟨trivial, fun q _ _ hq => ⟨fun k hk => ?_, fun k i hk => ?_⟩, fun t hNew => ?_⟩
    · refine Held.kept hInv (hRely k (hInv.flying k hk.current).1) hk ?_
      exact (hRely q hq).answer.trans hk.unanswered
    · refine heldTwice_kept hInv (hRely k (hInv.flying k hk.held.current).1) (hRely i (hk.later.trans hq)) hk ?_
      exact (hRely q hq).answer.trans hk.unanswered
    · refine keeps_free fun v => ?_
      cases e with
      | act job =>
        simp only [env] at hEnv
        split at hEnv
        next hPage =>
          cases hEnv
          cases hNew
          cases t with
          | handler req => cases hPage
          | _ => trivial
        · cases hEnv
      | _ => cases hEnv; cases hNew

theorem carried_of_reach {users : List Auth.User} {accounts : List Account} {S : SysState}
    {C : SysState → SysLabel → Prop} (h : (heedful O).Reach C (initial users accounts) S) :
    chainLayer.Carried (heedful O) (contract O.toOutside) S := by
  have hStart : chainLayer.Carried (heedful O) (contract O.toOutside) (initial users accounts) :=
    ⟨⟨inv_initial users accounts, fun _ _ hp => by cases hp⟩, trivial, fun _ _ hp => by cases hp⟩
  exact hStart.reach chain_fits (sound O).restrict h

theorem alone_of_carried {S : SysState} (hS : chainLayer.Carried (heedful O) (contract O.toOutside) S)
    {p q : Nat} {a a' : String} {o o' : Op} {f : Except Exn o.Res → Coro Ret} {f' : Except Exn o'.Res → Coro Ret}
    (hp : S.procs[p]? = some ⟨.handler (.upstream (.refresh a)), .call o f⟩)
    (hq : S.procs[q]? = some ⟨.handler (.upstream (.refresh a')), .call o' f'⟩) : p = q := by
  have hReq : ∀ {r : Nat} {b : String} {x : Op} {g : Except Exn x.Res → Coro Ret},
      S.procs[r]? = some ⟨.handler (.upstream (.refresh b)), .call x g⟩ → ∃ k h, S.shared.HeldTwice k h r :=
    fun hr => hS.req chain_fits (sound O).restrict hr
  obtain ⟨k, i, hk⟩ := hReq hp
  obtain ⟨k', i', hk'⟩ := hReq hq
  have hFlight := hk.held.current.symm.trans hk'.held.current
  cases hFlight
  have hRoute := hk.held.waits.symm.trans hk'.held.waits
  cases hRoute
  exact Option.some.inj (hk.waits.symm.trans hk'.waits)

end

end LiveQuiz.Session
