import LiveQuiz.Session.Sound

/-! # One refresh at a time

The refresh that `refreshInFlight` holds is the only one under way, every request goes out
at most twice, and nobody waits in vain: behind every call that waits is one that can go on.
-/

namespace LiveQuiz.Session

open Coroutine

set_option autoImplicit false

/-- The program is a refresh and has not settled. -/
def Flying (S : SysState) (pid : Nat) : Prop := ∃ o k, S.procs[pid]? = some ⟨.flight, .call o k⟩

/-- `q` is the program that `p` waits for in the end. -/
inductive WaitsFor (S : SysState) : Nat → Nat → Prop
  | self (p : Nat) : WaitsFor S p p
  | response {p i q : Nat} {t : Job} {k : Except Exn Response → Coro Ret}
      (h : S.procs[p]? = some ⟨t, .call (.response i) k⟩) (hRest : WaitsFor S i q) : WaitsFor S p q
  | flight {p i q : Nat} {t : Job} {k : Except Exn Bool → Coro Ret}
      (h : S.procs[p]? = some ⟨t, .call (.flight i) k⟩) (hRest : WaitsFor S i q) : WaitsFor S p q

section

variable {O : Outside} {users : List Auth.User} {accounts : List Account} {S : SysState}

theorem flying_of_current (hS : Kept (session O) (contract O.toOutside) S) {pid : Nat}
    (hFlight : S.shared.refreshInFlight = some pid) : Flying S pid := by
  obtain ⟨hLt, hUnsettled⟩ := hS.inv.flying pid hFlight
  obtain ⟨⟨t, prog⟩, hProc⟩ : ∃ p, S.procs[pid]? = some p := ⟨_, List.getElem?_eq_getElem hLt⟩
  cases prog with
  | done r =>
    obtain ⟨hPromise, hFlies, -⟩ := hS.post hProc
    obtain rfl := hFlies hFlight
    obtain ⟨ok, hSettled⟩ := hPromise
    rw [hUnsettled] at hSettled
    cases hSettled
  | call o k =>
    have hReq : Req O.toOutside pid t S.shared o := hS.req (sound O) hProc
    obtain rfl := hReq.at'.flight.mp hFlight
    exact ⟨o, k, hProc⟩

theorem handling_of_asked (hS : Kept (session O) (contract O.toOutside) S) {i : Nat} {req : Request}
    (hAsked : S.shared.asked i = some req) (hNone : S.shared.responses i = none) :
    ∃ o k, S.procs[i]? = some ⟨.handler req, .call o k⟩ := by
  have hLt : i < S.procs.length := by
    by_contra hGe
    rw [(hS.inv.fresh i (not_lt.mp hGe)).2.2.1] at hAsked
    cases hAsked
  obtain ⟨⟨t, prog⟩, hProc⟩ : ∃ p, S.procs[i]? = some p := ⟨_, List.getElem?_eq_getElem hLt⟩
  cases prog with
  | done r =>
    obtain ⟨hPromise, -, hNamed⟩ := hS.post hProc
    obtain rfl := hNamed req hAsked
    obtain ⟨a, hAnswer, -⟩ := hPromise
    rw [hNone] at hAnswer
    cases hAnswer
  | call o k =>
    have hReq : Req O.toOutside i t S.shared o := hS.req (sound O) hProc
    obtain rfl := (hReq.at'.asked req).mp hAsked
    exact ⟨o, k, hProc⟩

theorem exec_enabled {w : World} {job : Job} {pid n : Nat} {o : Op}
    (hResponse : ∀ i, o = .response i → w.responses i ≠ none)
    (hFlight : ∀ k, o = .flight k → w.settled k ≠ none) : (exec w job pid n o {}).isSome := by
  cases o with
  | response i =>
    obtain ⟨r, hr⟩ := Option.ne_none_iff_exists'.mp (hResponse i rfl)
    simp [exec, hr]
  | flight k =>
    obtain ⟨ok, hOk⟩ := Option.ne_none_iff_exists'.mp (hFlight k rfl)
    simp [exec, hOk]
  | finishRefresh data => cases data <;> rfl
  | beginHydrate =>
    simp only [exec]
    split <;> rfl
  | refreshAccess =>
    simp only [exec]
    split <;> rfl
  | _ => rfl

theorem step_enabled {pid : Nat} {t : Job} {o : Op} {k : Except Exn o.Res → Coro Ret}
    (hProc : S.procs[pid]? = some ⟨t, .call o k⟩)
    (hExec : (exec S.shared t pid S.procs.length o {}).isSome) :
    ∃ S', (session O).step S (.op pid {}) = some S' := by
  obtain ⟨out, hOut⟩ := Option.isSome_iff_exists.mp hExec
  simp only [Machine.step, hProc, Option.bind_some, Machine.advance]
  exact ⟨_, Option.map_eq_some_iff.mpr ⟨out, hOut, rfl⟩⟩

end

namespace SessionDemo

def claims : Auth.Claims := ⟨"7", "42", "refresh", 604800⟩

def verify (token : String) : Option Auth.Claims := if token = "7/42" then some claims else none

theorem verify_once (a b : String) (ca cb : Auth.Claims) (ha : verify a = some ca) (hb : verify b = some cb)
    (_ : ca.jti = cb.jti) : ca.exp = cb.exp := by
  unfold verify at ha hb
  split at ha <;> split at hb <;> cases ha <;> cases hb
  rfl

def outside : Outside where
  verify := verify
  jti_once := verify_once
  parseInt s := if s = "7" then some 7 else none
  signAccess sub _ jti _ := toString sub ++ ":" ++ toString jti
  signRefresh sub jti _ := toString sub ++ "/" ++ toString jti
  accessTtlMin := 15
  verifyAccess _ := none
  access_jti_once _ _ _ _ h := by cases h
  verifyPassword password hash := password = hash

def start : SysState := initial [⟨7, .host, true⟩] [⟨"host@livequiz.local", "host", 7⟩]

/-- `k` calls of one program, with the id that they draw. -/
def calls (pid k id : Nat) : List SysLabel := List.replicate k (.op pid { value := id })

def act (job : Job) : SysLabel := .env (.act job)

def signIn : List SysLabel :=
  [act (.login "host@livequiz.local" "host")] ++ calls 0 1 0 ++ calls 1 1 0 ++ calls 2 7 42 ++ calls 1 3 0 ++
    calls 0 4 0 ++ calls 3 2 0 ++ calls 0 3 0

def quizSets : RequestOptions := { path := "/quiz-sets" }

def reports : RequestOptions := { path := "/moderation/reports" }

def refuse (pid : Nat) : List SysLabel :=
  [.op pid { response := errorJson 401 "AUTH_REQUIRED" "token expired" }] ++ calls pid 1 0

/-- Two requests are refused at once, and both ask for the refresh. -/
def refused : List SysLabel :=
  signIn ++ [act (.request quizSets), act (.request reports)] ++ calls 4 1 0 ++ calls 5 1 0 ++ refuse 6 ++
    refuse 7 ++ calls 4 2 0 ++ calls 5 2 0

def refreshed : List SysLabel :=
  refused ++ calls 8 1 0 ++ calls 9 1 0 ++ calls 10 10 43 ++ calls 9 3 0 ++ calls 8 3 0 ++ calls 4 2 0 ++
    calls 5 2 0 ++ calls 11 2 0 ++ calls 12 2 0 ++ calls 4 2 0 ++ calls 5 2 0

def pending (S : SysState) (pid : Nat) : Option Op :=
  match S.procs[pid]? with
  | some ⟨_, .call o _⟩ => some o
  | _ => none

def finished (S : SysState) (pid : Nat) : Option Job :=
  match S.procs[pid]? with
  | some ⟨t, .done _⟩ => some t
  | _ => none

theorem pending_eq {S : SysState} {pid : Nat} {o : Op} (h : pending S pid = some o) :
    ∃ t k, S.procs[pid]? = some ⟨t, .call o k⟩ := by
  unfold pending at h
  split at h
  next t o' k hProc =>
    cases h
    exact ⟨t, k, hProc⟩
  · cases h

theorem finished_eq {S : SysState} {pid : Nat} {t : Job} (h : finished S pid = some t) :
    ∃ r, S.procs[pid]? = some ⟨t, .done r⟩ := by
  unfold finished at h
  split at h
  next t' r hProc =>
    cases h
    exact ⟨r, hProc⟩
  · cases h

end SessionDemo

/-- In every run of the tab, whatever it and the network do: the refresh that is under way is the one in
`refreshInFlight`, and there is no other; a request that is done has gone out once, or a second time after an
access token was refused and refreshed, and reports its last status. -/
theorem refresh_single_flight {O : Outside} {users : List Auth.User} {accounts : List Account} {S : SysState}
    (h : (session O).Reach (fun _ _ => True) (initial users accounts) S) :
    (∀ pid, Flying S pid ↔ S.shared.refreshInFlight = some pid) ∧
    ∀ pid opts r, S.procs[pid]? = some ⟨.request opts, .done r⟩ →
      ∃ status, Course opts.auth (S.shared.trace pid) status ∧ Reports status r := by
  have hS := kept_of_reach h
  refine ⟨fun pid => ⟨?_, flying_of_current hS⟩, fun pid opts r hProc => (hS.post hProc).1⟩
  rintro ⟨o, k, hProc⟩
  have hReq : Req O.toOutside pid .flight S.shared o := hS.req (sound O) hProc
  exact hReq.at'.flight.mpr rfl

/-- The two requests go out again after one refresh. -/
theorem refresh_single_flight_two_refused : ∃ S : SysState,
    (session SessionDemo.outside).Reach (fun _ _ => True) SessionDemo.start S ∧
    S.procs.length = 13 ∧ S.shared.refreshInFlight = none ∧ (∀ pid, ¬Flying S pid) ∧
    S.shared.trace 4 = [.sent .access (some "7:42"), .got 401, .refreshed true,
      .sent .access (some "7:43"), .got 200] ∧
    ∃ status r, Course .access (S.shared.trace 5) status ∧ Reports status (r : Except Exn Ret) := by
  have hRun : ((session SessionDemo.outside).run SessionDemo.start SessionDemo.refreshed).any (fun S =>
      S.procs.length = 13 ∧ S.shared.refreshInFlight = none ∧
      S.shared.trace 4 = [.sent .access (some "7:42"), .got 401, .refreshed true,
        .sent .access (some "7:43"), .got 200] ∧
      SessionDemo.finished S 5 = some (.request SessionDemo.reports)) = true := by
    decide +kernel
  obtain ⟨S, hReach, hS⟩ := Machine.Reach.exists_of_run hRun
  obtain ⟨hLength, hNone, hTrace, hDone⟩ := of_decide_eq_true hS
  obtain ⟨hFlying, hCourses⟩ := refresh_single_flight hReach
  obtain ⟨r, hProc⟩ := SessionDemo.finished_eq hDone
  obtain ⟨status, hCourse, hReports⟩ := hCourses 5 _ r hProc
  refine ⟨S, hReach, hLength, hNone, fun pid hPid => ?_, hTrace, status, r, hCourse, hReports⟩
  have hCurrent := (hFlying pid).mp hPid
  rw [hNone] at hCurrent
  cases hCurrent

/-- Whoever waits, waits in the end for a program that can go on without a failure. -/
theorem session_never_stuck {O : Outside} {users : List Auth.User} {accounts : List Account} {S : SysState}
    (h : (session O).Reach (fun _ _ => True) (initial users accounts) S) {pid : Nat} {t : Job} {o : Op}
    {k : Except Exn o.Res → Coro Ret} (hProc : S.procs[pid]? = some ⟨t, .call o k⟩) :
    ∃ q S', WaitsFor S pid q ∧ (session O).step S (.op q {}) = some S' := by
  have hS := kept_of_reach h
  induction hRank : t.rank using Nat.strong_induction_on generalizing pid t o with
  | _ rank ih =>
    subst hRank
    have hReq : Req O.toOutside pid t S.shared o := hS.req (sound O) hProc
    by_cases hEnabled : (exec S.shared t pid S.procs.length o {}).isSome
    · obtain ⟨S', hStep⟩ := step_enabled hProc hEnabled
      exact ⟨pid, S', .self pid, hStep⟩
    · cases o with
      | response i =>
        have hNone : S.shared.responses i = none := by
          by_contra hSome
          refine hEnabled (exec_enabled (fun j hj => ?_) fun j hj => (by cases hj))
          cases hj
          exact hSome
        obtain ⟨req, hAsked, hLower⟩ := hReq.op
        obtain ⟨o', k', hProc'⟩ := handling_of_asked hS hAsked hNone
        obtain ⟨q, S', hWaits, hStep⟩ := ih _ hLower hProc' rfl
        exact ⟨q, S', .response hProc hWaits, hStep⟩
      | flight i =>
        have hNone : S.shared.settled i = none := by
          by_contra hSome
          refine hEnabled (exec_enabled (fun j hj => (by cases hj)) fun j hj => ?_)
          cases hj
          exact hSome
        obtain ⟨hLower, hCurrent | ⟨ok, hSettled⟩⟩ := hReq.op
        · obtain ⟨o', k', hProc'⟩ := flying_of_current hS hCurrent
          obtain ⟨q, S', hWaits, hStep⟩ := ih _ hLower hProc' rfl
          exact ⟨q, S', .flight hProc hWaits, hStep⟩
        · rw [hNone] at hSettled
          cases hSettled
      | _ => exact absurd (exec_enabled (fun j hj => (by cases hj)) fun j hj => (by cases hj)) hEnabled

/-- The second of two refused requests, before the refresh has begun. -/
theorem session_never_stuck_refused : ∃ S : SysState,
    SessionDemo.pending S 5 = some (.flight 8) ∧
    ∃ q S', WaitsFor S 5 q ∧ (session SessionDemo.outside).step S (.op q {}) = some S' := by
  have hRun : ((session SessionDemo.outside).run SessionDemo.start SessionDemo.refused).any (fun S =>
      SessionDemo.pending S 5 = some (.flight 8)) = true := by
    decide +kernel
  obtain ⟨S, hReach, hS⟩ := Machine.Reach.exists_of_run hRun
  have hPending := of_decide_eq_true hS
  obtain ⟨t, k, hProc⟩ := SessionDemo.pending_eq hPending
  exact ⟨S, hPending, session_never_stuck hReach hProc⟩

/-- The refresh token stays with the servers and the cookie, and the tab sends no access token of its own
but those that the API has answered a login or a refresh with. -/
theorem tokens_contained {O : Outside} {users : List Auth.User} {accounts : List Account} {S : SysState}
    (h : (session O).Reach (fun _ _ => True) (initial users accounts) S) :
    (∀ i route r, S.shared.asked i = some (.route route) → S.shared.responses i = some r →
      r.text.refreshToken = none) ∧
    (∀ token, S.shared.store.accessToken = some token → S.shared.Issued token) ∧
    ∀ pid token, .sent .access (some token) ∈ S.shared.trace pid → S.shared.Issued token := by
  have hS := kept_of_reach h
  exact ⟨fun i route r hAsked hResponse => (hS.inv.answers i _ r hAsked hResponse).1, hS.inv.store,
    hS.inv.sent⟩

theorem tokens_contained_refreshed : ∃ S : SysState,
    S.shared.store.accessToken = some "7:43" ∧ S.shared.Issued "7:43" ∧
    ∀ r, S.shared.responses 9 = some r → r.text.refreshToken = none := by
  have hRun : ((session SessionDemo.outside).run SessionDemo.start SessionDemo.refreshed).any (fun S =>
      S.shared.store.accessToken = some "7:43" ∧
      S.shared.asked 9 = some (.route (.refresh (some "7/42")))) = true := by
    decide +kernel
  obtain ⟨S, hReach, hS⟩ := Machine.Reach.exists_of_run hRun
  obtain ⟨hStore, hAsked⟩ := of_decide_eq_true hS
  obtain ⟨hSecret, hIssued, -⟩ := tokens_contained hReach
  exact ⟨S, hStore, hIssued _ hStore, fun r hr => hSecret 9 _ r hAsked hr⟩

end LiveQuiz.Session
