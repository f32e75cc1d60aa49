import LiveQuiz.Session.Chain
import LiveQuiz.Results.SingleFlight

/-! # A refresh token buys one pair

On its own the authentication service gives two pairs for one token to calls that overlap.
The tab does not let them overlap: its refreshes come one at a time and each waits for its
endpoint, as long as no fetch is given up while its handler is still at work.
-/

namespace LiveQuiz.Session

open Coroutine
open LiveQuiz.Auth (Dead micros)

set_option autoImplicit false

/-- No response is given up before it has been sent, and a refresh looks up the revocation
before its token has expired. -/
def attended (O : Outside) (S : SysState) (l : SysLabel) : Bool :=
  Machine.admits heeded (fun _ _ => true) S l && match l with
  | .op pid d =>
    match S.procs[pid]? with
    | some ⟨.handler (.upstream (.refresh token)), .call (.auth (.exists' _)) _⟩ => d.fault ≠ .none ||
      (O.verify token).all fun c => S.shared.auth.now < micros c.exp
    | _ => true
  | .env _ => true

/-- The endpoint works on a refresh and has found its token not revoked. -/
def Passed (S : SysState) (p : Nat) (token : String) : Prop :=
  (∃ a, S.procs[p]? = some ⟨.handler (.upstream (.refresh token)), a⟩) ∧ S.shared.auth.passed p = true

def Refused (S : SysState) (p : Nat) : Prop :=
  (∃ t r, S.procs[p]? = some ⟨t, .done r⟩) ∧
    ∀ x, S.shared.responses p = some x → x.text.refreshToken = none

/-- Of two endpoints that have passed with one token, one has given out no refresh token. -/
def OnePair (S : SysState) : Prop :=
  ∀ p q token, p ≠ q → Passed S p token → Passed S q token → Refused S p ∨ Refused S q

section

variable {O : Outside} {users : List Auth.User} {accounts : List Account} {S S' : SysState} {l : SysLabel}
  {p q : Nat} {token : String}

theorem others_stay (hS : Kept (session O) (contract O.toOutside) S) (hStep : (session O).step S l = some S')
    {pr : Proc Op Op.Res Exn Ret Job} (hProc : S.procs[q]? = some pr) (hOther : ∀ d, l ≠ .op q d) :
    S'.procs[q]? = some pr ∧ Rely O.toOutside q S.shared S'.shared := by
  have hLt := (List.getElem?_eq_some_iff.mp hProc).1
  obtain ⟨pid, d, t, o, k, out, rfl, hCall, hExec, rfl⟩ | ⟨e, out, rfl, hEnv, rfl⟩ :=
    Machine.step_cases hStep
  · have hNe : q ≠ pid := by
      rintro rfl
      exact hOther d rfl
    have hReq : Req O.toOutside pid t S.shared o := hS.req (sound O) hCall
    have hLt' := (List.getElem?_eq_some_iff.mp hCall).1
    refine ⟨?_, (exec_advances hS.inv hLt' hReq hExec).1.rely q hLt hNe⟩
    rw [List.getElem?_append_left (by simpa using hLt), List.getElem?_set_ne (Ne.symm hNe), hProc]
  · refine ⟨?_, (env_advances hS.inv hEnv).2.1 q hLt⟩
    rw [List.getElem?_append_left hLt, hProc]

theorem Refused.step (hS : Kept (session O) (contract O.toOutside) S)
    (hStep : (session O).step S l = some S') (h : Refused S q) : Refused S' q := by
  obtain ⟨⟨t, r, hProc⟩, hAnswer⟩ := h
  obtain ⟨hProc', hRely⟩ := others_stay hS hStep hProc fun d hEq => by
    subst hEq
    simp only [Machine.step, hProc, Option.bind_some, Machine.advance] at hStep
    cases hStep
  refine ⟨⟨t, r, hProc'⟩, fun x hx => hAnswer x ?_⟩
  rw [← hRely.answer]
  exact hx

/-- A call gives its own program a pass at most, and by a look-up only. -/
theorem exec_passes {w : World} {job : Job} {pid n : Nat} {o : Op} {d : Decision} {out : Answer o}
    (hExec : exec w job pid n o d = some out) : out.shared.auth = w.auth ∨ out.spawned = none ∧
      (∃ o', o = .auth o') ∧ (w.auth.passed pid = false → out.shared.auth.passed pid = true →
        d.fault = .none ∧ ∃ key, o = .auth (.exists' key) ∧ w.auth.holds key = false) := by
  by_cases hAuth : ∀ o', o ≠ .auth o'
  · exact .inl ((exec_leaves hExec).auth hAuth)
  obtain ⟨o', rfl⟩ := not_forall_not.mp hAuth
  obtain ⟨out', hOut, rfl⟩ := Option.map_eq_some_iff.mp hExec
  refine .inr ⟨rfl, ⟨o', rfl⟩, fun hOld hNew => ?_⟩
  obtain ⟨hNone, key, rfl, hHolds⟩ := Auth.new_pass (S := ⟨w.auth, []⟩) (.logout "") hOut hOld hNew
  exact ⟨hNone, key, rfl, hHolds⟩

theorem passed_cases (hS : Kept (session O) (contract O.toOutside) S)
    (hStep : (session O).step S l = some S') (h : Passed S' p token) :
    Passed S p token ∨ ∃ d key k, l = .op p d ∧ d.fault = .none ∧
      S.procs[p]? = some ⟨.handler (.upstream (.refresh token)), .call (.auth (.exists' key)) k⟩ ∧
      S.shared.auth.holds key = false := by
  obtain ⟨⟨a, hProc⟩, hPassed⟩ := h
  have hFresh := (hS.inv.fresh _ (le_refl S.procs.length)).2.2.2.2.2
  by_cases hOther : ∃ pr, S.procs[p]? = some pr ∧ ∀ d, l ≠ .op p d
  · obtain ⟨pr, hOld, hOther⟩ := hOther
    obtain ⟨hSame, hRely⟩ := others_stay hS hStep hOld hOther
    rw [hSame] at hProc
    cases hProc
    exact .inl ⟨⟨a, hOld⟩, hRely.auth.passed.symm.trans hPassed⟩
  obtain ⟨pid, d, t, o, k, out, rfl, hCall, hExec, rfl⟩ | ⟨e, out, rfl, hEnv, rfl⟩ :=
    Machine.step_cases hStep
  · have hCalled : exec S.shared t pid S.procs.length o d = some out := hExec
    obtain hIn | ⟨rfl, t', hNew, -⟩ := getElem?_append_spawned hProc
    · have hLt := (List.getElem?_eq_some_iff.mp hCall).1
      have hSelf : p = pid := by
        by_contra hNe
        rw [List.getElem?_set_ne (Ne.symm hNe)] at hIn
        refine hOther ⟨_, hIn, fun d' hEq => ?_⟩
        cases hEq
        exact hNe rfl
      subst hSelf
      rw [List.getElem?_set_self hLt] at hIn
      cases hIn
      cases hOld : S.shared.auth.passed p with
      | true => exact .inl ⟨⟨_, hCall⟩, hOld⟩
      | false =>
        right
        obtain hSame | ⟨-, -, hPass⟩ := exec_passes hCalled
        · rw [hSame, hOld] at hPassed
          cases hPassed
        · obtain ⟨hNone, key, rfl, hHolds⟩ := hPass hOld hPassed
          exact ⟨d, key, k, rfl, hNone, hCall, hHolds⟩
    · -- a program that has just been started has not looked
      rw [List.length_set] at hPassed
      obtain hSame | ⟨hNone, -, -⟩ := exec_passes hCalled
      · rw [hSame, hFresh] at hPassed
        cases hPassed
      · rw [hNone] at hNew
        cases hNew
  · obtain hIn | ⟨rfl, t', hNew, hStart⟩ := getElem?_append_spawned hProc
    · exact absurd ⟨_, hIn, fun d hEq => by cases hEq⟩ hOther
    · cases hStart
      change env S.shared S.procs.length e = some out at hEnv
      cases e with
      | act job =>
        simp only [env] at hEnv
        split at hEnv
        next hPage =>
          cases hEnv
          cases hNew
          cases hPage
        · cases hEnv
      | _ => cases hEnv; cases hNew

/-- What another endpoint with the same token has come to when a look-up finds it not revoked. -/
theorem late_refused (hS : Kept (session O) (contract O.toOutside) S)
    (hCarried : chainLayer.Carried (heedful O) (contract O.toOutside) S) {d : Decision} {key : String}
    {k : Except Exn Bool → Coro Ret} (hNe : p ≠ q) (hAttended : attended O S (.op p d) = true)
    (hNone : d.fault = .none)
    (hProc : S.procs[p]? = some ⟨.handler (.upstream (.refresh token)), .call (.auth (.exists' key)) k⟩)
    (hHolds : S.shared.auth.holds key = false) (hq : Passed S q token) : Refused S q := by
  obtain ⟨⟨a, hProc'⟩, hPassed⟩ := hq
  cases a with
  | call o' k' => exact absurd (alone_of_carried hCarried hProc hProc') hNe
  | done r =>
    refine ⟨⟨_, r, hProc'⟩, fun x hx => ?_⟩
    by_contra hPair
    obtain ⟨⟨x', hx', hDead⟩, -⟩ := hS.post hProc'
    rw [hx] at hx'
    cases hx'
    obtain ⟨hDead, -⟩ := hDead token rfl hPair
    have hReq : Req O.toOutside p (.handler (.upstream (.refresh token))) S.shared (.auth (.exists' key)) :=
      hS.req (sound O) hProc
    obtain ⟨token', c, hToken, hc, hType, rfl⟩ := hReq.op
    cases hToken
    have hTime : S.shared.auth.now < micros c.exp := by
      simp only [attended, hProc, hNone, Bool.and_eq_true, hc] at hAttended
      simpa using hAttended.2
    rw [Auth.dead_holds hDead hc hType hTime] at hHolds
    cases hHolds

theorem onePair_step (hS : Kept (session O) (contract O.toOutside) S)
    (hCarried : chainLayer.Carried (heedful O) (contract O.toOutside) S) (h : OnePair S)
    (hAttended : attended O S l = true) (hStep : (session O).step S l = some S') : OnePair S' := by
  intro p q token hNe hp hq
  obtain hp | ⟨d, key, k, rfl, hNone, hProc, hHolds⟩ := passed_cases hS hStep hp
  · obtain hq | ⟨d, key, k, rfl, hNone, hProc, hHolds⟩ := passed_cases hS hStep hq
    · exact (h p q token hNe hp hq).imp (·.step hS hStep) (·.step hS hStep)
    · left
      exact (late_refused hS hCarried (Ne.symm hNe) hAttended hNone hProc hHolds hp).step hS hStep
  · obtain hq | ⟨d', key', k', hEq, -⟩ := passed_cases hS hStep hq
    · right
      exact (late_refused hS hCarried hNe hAttended hNone hProc hHolds hq).step hS hStep
    · cases hEq
      exact absurd rfl hNe

theorem onePair_reach
    (h : (session O).Reach (fun S l => attended O S l = true) (initial users accounts) S) : OnePair S := by
  induction h with
  | refl =>
    rintro p q token - ⟨⟨a, hp⟩, -⟩
    cases hp
  | @tail S₁ S₂ l hReach hAttended hStep ih =>
    have hHeeded := hReach.mono fun S l h => (Bool.and_eq_true _ _ ▸ h : _ ∧ _).1
    exact onePair_step (kept_of_reach hReach) (carried_of_reach hHeeded.restrict) ih hAttended hStep

theorem passed_of_pair (hS : Kept (session O) (contract O.toOutside) S) {x : Response}
    (hAsked : S.shared.asked p = some (.upstream (.refresh token))) (hAnswer : S.shared.responses p = some x)
    (hPair : x.text.refreshToken ≠ none) : Passed S p token ∧ ¬Refused S p := by
  have hLt := asked_below hS.inv hAsked
  obtain ⟨⟨t, prog⟩, hProc⟩ : ∃ pr, S.procs[p]? = some pr := ⟨_, List.getElem?_eq_getElem hLt⟩
  cases prog with
  | call o k =>
    have hReq : Req O.toOutside p t S.shared o := hS.req (sound O) hProc
    rw [hReq.at'.unanswered] at hAnswer
    cases hAnswer
  | done r =>
    obtain ⟨hPromise, -, hNamed⟩ := hS.post hProc
    obtain rfl := hNamed _ hAsked
    obtain ⟨x', hx', hDead⟩ := hPromise
    rw [hAnswer] at hx'
    cases hx'
    exact ⟨⟨⟨_, hProc⟩, (hDead token rfl hPair).2⟩, fun h => hPair (h.2 x hAnswer)⟩

end

namespace SessionDemo

/-- The tab loses the response of the refresh before it is sent, and asks again. -/
def abandoned : List SysLabel :=
  refused ++ calls 8 1 0 ++ calls 9 1 0 ++ calls 10 2 43 ++ [.op 8 { fault := .lost }] ++ calls 8 1 0 ++
    [act .hydrate] ++ calls 11 2 0 ++ calls 12 1 0 ++ calls 13 1 0 ++ calls 14 10 44 ++ calls 10 8 43

def paired (S : SysState) (pid : Nat) : Bool :=
  (S.shared.responses pid).any fun r => r.text.refreshToken ≠ none

theorem paired_eq {S : SysState} {pid : Nat} (h : paired S pid = true) :
    ∃ r, S.shared.responses pid = some r ∧ r.text.refreshToken ≠ none := by
  obtain ⟨r, hr, hPair⟩ := (Option.any_eq_true _ _).mp h
  exact ⟨r, hr, of_decide_eq_true hPair⟩

end SessionDemo

/-- In every run in which no response is given up before it has been sent and every refresh is looked up
before its token expires: no refresh token is answered with a pair twice. -/
theorem refresh_token_used_once {O : Outside} {users : List Auth.User} {accounts : List Account} {S : SysState}
    (h : (session O).Reach (fun S l => attended O S l = true) (initial users accounts) S) {p q : Nat}
    {token : String} {x y : Response} (hp : S.shared.asked p = some (.upstream (.refresh token)))
    (hq : S.shared.asked q = some (.upstream (.refresh token))) (hx : S.shared.responses p = some x)
    (hy : S.shared.responses q = some y) (hPair : x.text.refreshToken ≠ none)
    (hPair' : y.text.refreshToken ≠ none) : p = q := by
  have hS := kept_of_reach h
  by_contra hNe
  obtain ⟨hPassed, hFirst⟩ := passed_of_pair hS hp hx hPair
  obtain ⟨hPassed', hSecond⟩ := passed_of_pair hS hq hy hPair'
  exact (onePair_reach h p q token hNe hPassed hPassed').elim hFirst hSecond

theorem refresh_token_used_once_refreshed : ∃ S : SysState,
    S.shared.asked 10 = some (.upstream (.refresh "7/42")) ∧ SessionDemo.paired S 10 = true ∧
    ∀ q y, S.shared.asked q = some (.upstream (.refresh "7/42")) → S.shared.responses q = some y →
      y.text.refreshToken ≠ none → q = 10 := by
  have hRun : ((session SessionDemo.outside).runWhile (attended SessionDemo.outside) SessionDemo.start
      SessionDemo.refreshed).any (fun S => S.shared.asked 10 = some (.upstream (.refresh "7/42")) ∧
        SessionDemo.paired S 10 = true) = true := by
    decide +kernel
  obtain ⟨S, hReach, hS⟩ := Machine.Reach.exists_of_runWhile hRun
  obtain ⟨hAsked, hPaired⟩ := of_decide_eq_true hS
  obtain ⟨x, hx, hPair⟩ := SessionDemo.paired_eq hPaired
  refine ⟨S, hAsked, hPaired, fun q y hq hy hPair' => ?_⟩
  exact refresh_token_used_once hReach hq hAsked hy hx hPair' hPair

-- a response that is given up too early makes two pairs of one token
example : ((session SessionDemo.outside).run SessionDemo.start SessionDemo.abandoned).any (fun S =>
    S.shared.asked 10 = some (.upstream (.refresh "7/42")) ∧ SessionDemo.paired S 10 = true ∧
    S.shared.asked 14 = some (.upstream (.refresh "7/42")) ∧ SessionDemo.paired S 14 = true) = true := by
  decide +kernel

end LiveQuiz.Session
