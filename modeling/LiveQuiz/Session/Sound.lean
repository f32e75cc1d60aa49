import LiveQuiz.Session.Walk

/-! # The programs keep the contract

Each program is walked once: the endpoints up to their answer, the route handlers on the
answers of the endpoints, and the tab on the answers of the route handlers.
-/

namespace LiveQuiz.Session

open Coroutine
open LiveQuiz.Auth (Dead)

set_option autoImplicit false

section

variable {O : Outside} {pid n : Nat} {job : Job} {w v : World} {α β : Type}
  {P : World → Prop} {Q : α → World → Prop} {X : Exn → World → Prop}

def Free (O : Outside) (job : Job) (o : Op) : Prop := o.plain = true ∧ ∀ w, OpReq O.toOutside job w o

abbrev Harmless (O : Outside) (job : Job) (p : Coro α) : Prop := Confined (Free O job) (fun _ => True) p

theorem Walk.harmless {p : Coro α} (h : Harmless O job p) :
    Walk O pid job (fun _ => True) p (fun _ _ => True) fun _ _ => True := by
  induction p with
  | done r =>
    intro w hHere _
    cases r with
    | ok a => exact ⟨hHere, trivial⟩
    | error e => exact ⟨hHere, trivial⟩
  | call o k ih =>
    intro w hHere _ w₁ n hLt hRely hInv
    have hHere₁ := hHere.rely hRely
    refine ⟨⟨hHere₁.at', fun i hi => ?_, h.1.2 w₁⟩, fun d out hOut => ?_⟩
    · rw [hHere₁.idle] at hi
      cases hi
    · have hHere₂ := hHere₁.exec hLt h.1.1 hOut
      cases out.result with
      | ok a => exact ih _ (h.2.1 a) out.shared hHere₂ trivial
      | error e => exact ih _ (h.2.2 e trivial) out.shared hHere₂ trivial

theorem Harmless.refuse {c : Prop} [Decidable c] {code message : String} {status : Nat}
    {details : List (String × String)} {f : PUnit → Coro α} (h : ∀ r, Harmless O job (f r)) :
    Harmless O job (if c then raise code status message details >>= f else f ()) := by
  split
  · exact .bind (.throw trivial) h
  · exact h ()

theorem harmless_service {p : Prog Auth.Op Auth.Op.Res LiveQuiz.Exn α}
    (h : Confined (fun o => o = .clock ∨ o = .nextId) (fun _ => True) p) :
    Harmless O job (service.prog p) := by
  refine service.confined h fun o ho => ⟨rfl, fun w => ?_⟩
  obtain rfl | rfl := ho <;> trivial

theorem clock_decodeToken {A : Auth.Outside} {token expectedType : String} :
    Confined (fun o => o = .clock ∨ o = .nextId) (fun _ => True) (Auth.decodeToken A token expectedType) := by
  refine .call (.inl rfl) fun now => ?_
  cases A.verify token with
  | none => exact .throw trivial
  | some claims =>
    dsimp only
    split
    · exact .bind (.throw trivial) fun _ => by
        split
        · exact .bind (.throw trivial) fun _ => .pure _
        · exact .pure _
    · split
      · exact .bind (.throw trivial) fun _ => .pure _
      · exact .pure _

theorem clock_buildPair {A : Auth.Outside} {user : Auth.User} :
    Confined (fun o => o = .clock ∨ o = .nextId) (fun _ => True) (Auth.buildPair A user) := by
  refine .call (.inr rfl) fun _ => .call (.inr rfl) fun _ => ?_
  exact .call (.inl rfl) fun _ => .call (.inl rfl) fun _ => .pure _

theorem harmless_currentUser {authorization : String} : Harmless O job (currentUser O authorization) := by
  refine Harmless.refuse fun _ => .bind (harmless_service clock_decodeToken) fun claims => ?_
  refine .call ⟨rfl, fun _ => trivial⟩ fun revoked => Harmless.refuse fun _ => ?_
  cases O.parseInt claims.sub with
  | none => exact .throw trivial
  | some userId =>
    refine .call ⟨rfl, fun _ => trivial⟩ fun row => ?_
    cases row with
    | none => exact .throw trivial
    | some user => exact Harmless.refuse fun _ => .pure _

theorem harmless_loginUser {email password : String} : Harmless O job (loginUser O email password) := by
  refine .call ⟨rfl, fun _ => trivial⟩ fun verdict => ?_
  refine Harmless.refuse fun _ => .call ⟨rfl, fun _ => trivial⟩ fun row => ?_
  cases row with
  | none => exact .throw trivial
  | some row =>
    refine Harmless.refuse fun _ => Harmless.refuse fun _ => ?_
    exact .bind (harmless_service clock_buildPair) fun _ => .pure _

theorem Exn.toServer_server {ε : Type} {r : Except LiveQuiz.Exn ε} :
    (r.mapError Exn.server).mapError toServer = r := by
  cases r <;> rfl

theorem service_carries : service.Carries (Auth.auth O.toOutside) (Auth.contract O.toOutside) (session O)
    (contract O.toOutside) World.auth (Here pid job) pid job.service job where
  exec w n o d out hLt hExec hHere := by
    refine ⟨hHere.exec hLt rfl hExec, ?_⟩
    obtain ⟨out', hOut, rfl⟩ := Option.map_eq_some_iff.mp hExec
    exact ⟨_, out', hOut, rfl, Exn.toServer_server.symm⟩
  rely w v hRely := ⟨hRely.auth, fun hHere => hHere.rely hRely⟩
  inv n w hInv q hq := (hInv.fresh q hq).2.2.2.2.2
  req w o hHere hReq := ⟨hHere.at', fun i hi => (by rw [hHere.idle] at hi; cases hi), hReq⟩

theorem Walk.service {p : Prog Auth.Op Auth.Op.Res LiveQuiz.Exn α}
    {R : Except LiveQuiz.Exn α → Auth.World → Prop}
    (h : ∀ a, wp (Auth.auth O.toOutside) (Auth.contract O.toOutside) pid job.service p R a) :
    Walk O pid job (fun _ => True) (service.prog p) (fun a v => R (.ok a) v.auth) fun _ _ => True := by
  intro w hHere _
  refine wp_mono (service_carries.wp hHere (h w.auth)) fun r v hr => ?_
  obtain ⟨hHere', r', rfl, hR⟩ := hr
  cases r' with
  | ok a => exact ⟨hHere', hR⟩
  | error e => exact ⟨hHere', trivial⟩

theorem walk_refresh {token : String} :
    Walk O pid (.handler (.upstream (.refresh token))) (fun _ => True)
      (service.prog (Auth.refresh O.toOutside token))
      (fun _ v => Dead O.toOutside token v.auth ∧ v.auth.passed pid = true) fun _ _ => True := by
  refine (Walk.service fun a => wp_of_map Auth.wp_refresh).weaken (fun _ => id) (fun r v h => ?_) fun _ _ => id
  obtain ⟨hDead, hPassed⟩ := h _ rfl
  exact ⟨hDead, hPassed ⟨token, rfl⟩⟩

theorem walk_revoke {token authorization : String} :
    Walk O pid (.handler (.upstream (.logout token authorization))) (fun _ => True)
      (service.prog (Auth.logout O.toOutside token)) (fun _ _ => True) fun _ _ => True :=
  (Walk.service fun _ => wp_of_map Auth.wp_logout).weaken (fun _ => id) (fun _ _ _ => trivial) fun _ _ => id

theorem walk_json {r : Response} (hP : Stable O pid P) :
    Walk O pid job P (json r) (fun b v => P v ∧ r.text = .json b)
      fun e v => P v ∧ (e = .network ∨ e = .syntaxError) := by
  refine .bind ((Walk.text hP).weaken (fun _ => id) (fun _ _ => id) fun e v h => ⟨h.1, .inl h.2⟩) fun a => ?_
  cases a with
  | json body => exact .pure fun v h => ⟨h.1, h.2.symm⟩
  | empty => exact .raise fun v h => ⟨h.1, .inr rfl⟩
  | other => exact .raise fun v h => ⟨h.1, .inr rfl⟩

theorem walk_jsonOr {f : Body → α} {fallback : α} {r : Response} (hP : Stable O pid P) :
    Walk O pid job P (jsonOr f fallback r)
      (fun a v => P v ∧ ((∃ b, r.text = .json b ∧ a = f b) ∨ a = fallback)) fun _ _ => False := by
  refine .handle (.map (walk_json hP) fun b v h => ⟨h.1, .inl ⟨b, h.2, rfl⟩⟩) fun e => ?_
  exact .pure fun v h => ⟨h.1, .inr rfl⟩

theorem walk_readError {fallback : String} {r : Response} (hP : Stable O pid P) :
    Walk O pid job P (readError r fallback) (fun e v => P v ∧ e.status = r.status) fun _ _ => False := by
  refine (walk_jsonOr hP).weaken (fun _ => id) (fun e v h => ⟨h.1, ?_⟩) fun _ _ => id
  obtain ⟨b, -, rfl⟩ | rfl := h.2 <;> rfl

theorem Response.ok_iff {r : Response} : r.ok = true ↔ 200 ≤ r.status ∧ r.status < 300 := by
  simp [Response.ok]

theorem walk_readResult {r : Response} (hP : Stable O pid P) :
    Walk O pid job P (readResult r) (fun a v => P v ∧ Reports (some r.status) (.ok a : Except Exn (Option Body)))
      fun e v => P v ∧ Reports (some r.status) (.error e : Except Exn (Option Body)) := by
  unfold readResult
  dsimp only
  split
  next hRefused =>
    refine .bind ((walk_readError hP).weaken (fun _ => id) (fun _ _ => id) fun _ _ h => h.elim) fun e => ?_
    refine .bind (Q := fun _ _ => False) (.raise fun v h => ?_) fun _ _ _ h => h.elim
    refine ⟨h.1, congrArg some h.2.symm, ?_⟩
    rw [h.2, ← Response.ok_iff]
    simpa using hRefused
  next hRefused =>
    have hOk : 200 ≤ r.status ∧ r.status < 300 := Response.ok_iff.mp (by simpa using hRefused)
    split
    · exact .pure fun v h => ⟨h, r.status, rfl, hOk⟩
    · refine .bind ((Walk.text hP).weaken (fun _ => id) (fun _ _ => id) ?_) fun a => ?_
      · rintro e v ⟨h, rfl⟩
        exact ⟨h, trivial⟩
      · cases a with
        | empty => exact .pure fun v h => ⟨h.1, r.status, rfl, hOk⟩
        | json body => exact .pure fun v h => ⟨h.1, r.status, rfl, hOk⟩
        | other => exact .raise fun v h => ⟨h.1, r.status, rfl, hOk⟩

def Serves (O : Auth.Outside) (pid : Nat) (u : Upstream) (a : Response) (w : World) : Prop :=
  w.Answers (.upstream u) a ∧ ∀ token, u = .refresh token → a.text.refreshToken ≠ none →
    Dead O token w.auth ∧ w.auth.passed pid = true

theorem exceptionResponse_tokenless (e : Exn) :
    (exceptionResponse e).text.refreshToken = none ∧ (exceptionResponse e).text.accessToken = none := by
  unfold exceptionResponse
  split <;> exact ⟨rfl, rfl⟩

theorem walk_upstreamBody {u : Upstream} :
    Walk O pid (.handler (.upstream u)) (fun _ => True) (upstreamBody O u) (Serves O.toOutside pid u)
      fun _ _ => True := by
  cases u with
  | login email password =>
    refine .bind (.harmless harmless_loginUser) fun r => .pure fun v _ => ⟨fun h => ?_, fun _ h => ?_⟩
    · cases h
    · cases h
  | refresh token =>
    refine .bind walk_refresh fun r => .pure fun v h => ⟨fun hRefused => ?_, fun t hToken _ => ?_⟩
    · cases hRefused
    · cases hToken
      exact h
  | logout token authorization =>
    refine .bind (.harmless harmless_currentUser) fun _ => ?_
    refine .bind walk_revoke fun _ => .pure fun v _ => ⟨fun _ => ⟨rfl, rfl⟩, fun _ h => ?_⟩
    cases h

theorem walk_upstream {u : Upstream} :
    Walk O pid (.handler (.upstream u)) (fun _ => True) (handle O (.upstream u)) (Serves O.toOutside pid u)
      fun _ _ => False := by
  refine .handle walk_upstreamBody fun e => .pure fun v _ => ?_
  obtain ⟨hRefresh, hAccess⟩ := exceptionResponse_tokenless e
  exact ⟨fun _ => ⟨hRefresh, hAccess⟩, fun _ _ h => absurd hRefresh h⟩

theorem walk_fetchUpstream {u : Upstream} (hRank : 0 < job.rank)
    (hReq : ∀ token, u = .refresh token → ∃ cookie, job = .handler (.route (.refresh cookie))) :
    Walk O pid job (fun _ => True) (fetchUpstream u)
      (fun r v => ∀ a, r = some a → v.Delivers (.upstream u) a) fun _ _ => False := by
  refine .handle (.map (walk_fetch hRank hReq) fun r v h a ha => ?_) fun e => .pure fun v _ a ha => ?_
  · cases ha
    exact h
  · cases ha

theorem answers_relayed {u : Upstream} {route : Route} {r a : Response} {data : Body}
    (h : w.Delivers (.upstream u) r) (hData : r.text = .json data ∨ data = {})
    (ha : (r.ok = true ∧ a.text = (granted data).text) ∨ (r.ok = false ∧ a.text = .json data)) :
    w.Answers (.route route) a := by
  obtain ⟨hAnswers, hGrants⟩ := h
  obtain ⟨hOk, hText⟩ | ⟨hOk, hText⟩ := ha
  · refine ⟨by rw [hText]; rfl, fun token hToken => ?_⟩
    rw [hText] at hToken
    obtain hData | rfl := hData
    · exact hGrants u rfl hOk token (by rw [hData]; exact hToken)
    · cases hToken
  · have hNone : Text.refreshToken (.json data) = none ∧ Text.accessToken (.json data) = none := by
      obtain hData | rfl := hData
      · rw [← hData]
        exact hAnswers hOk
      · exact ⟨rfl, rfl⟩
    refine ⟨by rw [hText]; exact hNone.1, fun token hToken => ?_⟩
    rw [hText, hNone.2] at hToken
    cases hToken

theorem answers_plain {route : Route} {a : Response} (h : a.text.refreshToken = none)
    (h' : a.text.accessToken = none) : w.Answers (.route route) a :=
  ⟨h, fun token hToken => by rw [h'] at hToken; cases hToken⟩

theorem walk_data {u : Upstream} {r : Response} :
    Walk O pid job (fun w => w.Delivers (.upstream u) r) (jsonOr id {} r)
      (fun data v => v.Delivers (.upstream u) r ∧ (r.text = .json data ∨ data = {})) fun _ _ => False := by
  refine (walk_jsonOr (stable_delivers _ _)).weaken (fun _ => id) (fun data v h => ⟨h.1, ?_⟩) fun _ _ => id
  obtain ⟨b, hText, rfl⟩ | rfl := h.2
  · exact .inl hText
  · exact .inr rfl

theorem walk_loginRoute {route : Route} {email password : String} :
    Walk O pid (.handler (.route route)) (fun _ => True) (loginRoute email password)
      (fun a v => v.Answers (.route route) a) fun _ _ => False := by
  refine .bind (walk_fetchUpstream Nat.zero_lt_one fun token h => by cases h) fun r => ?_
  cases r with
  | none => exact .pure fun v _ => answers_plain rfl rfl
  | some r =>
    refine .bind (walk_data.weaken (fun v h => h r rfl) (fun _ _ => id) fun _ _ => id) fun data => ?_
    split
    next hOk => exact .pure fun v h => answers_relayed h.1 h.2 (.inr ⟨by simpa using hOk, rfl⟩)
    next hOk => exact .pure fun v h => answers_relayed h.1 h.2 (.inl ⟨by simpa using hOk, rfl⟩)

theorem walk_refreshRoute {cookie : Option String} :
    Walk O pid (.handler (.route (.refresh cookie))) (fun _ => True) (refreshRoute cookie)
      (fun a v => v.Answers (.route (.refresh cookie)) a) fun _ _ => False := by
  unfold refreshRoute
  cases truthy cookie with
  | none => exact .pure fun v _ => answers_plain rfl rfl
  | some token =>
    refine .bind (walk_fetchUpstream Nat.zero_lt_one fun _ _ => ⟨cookie, rfl⟩) fun r => ?_
    cases r with
    | none => exact .pure fun v _ => answers_plain rfl rfl
    | some r =>
      refine .bind (walk_data.weaken (fun v h => h r rfl) (fun _ _ => id) fun _ _ => id) fun data => ?_
      split
      next hOk => exact .pure fun v h => answers_relayed h.1 h.2 (.inr ⟨by simpa using hOk, rfl⟩)
      next hOk => exact .pure fun v h => answers_relayed h.1 h.2 (.inl ⟨by simpa using hOk, rfl⟩)

theorem walk_logoutRoute {route : Route} {cookie authorization : Option String} :
    Walk O pid (.handler (.route route)) (fun _ => True) (logoutRoute cookie authorization)
      (fun a v => v.Answers (.route route) a) fun _ _ => False := by
  have hDone : ∀ v : World, v.Answers (.route route) ⟨204, .empty, some none, ""⟩ :=
    fun v => answers_plain rfl rfl
  unfold logoutRoute
  cases truthy cookie with
  | none => exact .pure fun v _ => hDone v
  | some token =>
    cases truthy authorization with
    | none => exact .pure fun v _ => hDone v
    | some access =>
      refine .bind (walk_fetchUpstream Nat.zero_lt_one fun _ h => by cases h) fun _ => .pure fun v _ => hDone v

theorem walk_routeBody {route : Route} :
    Walk O pid (.handler (.route route)) (fun _ => True) (routeBody route)
      (fun a v => v.Answers (.route route) a) fun _ _ => False := by
  cases route with
  | login email password => exact walk_loginRoute
  | refresh cookie => exact walk_refreshRoute
  | logout cookie authorization => exact walk_logoutRoute

def Handled (O : Auth.Outside) (pid : Nat) (req : Request) (a : Response) (w : World) : Prop :=
  w.Answers req a ∧ ∀ token, req = .upstream (.refresh token) → a.text.refreshToken ≠ none →
    Dead O token w.auth ∧ w.auth.passed pid = true

theorem walk_handle {req : Request} :
    Walk O pid (.handler req) (fun _ => True) (handle O req) (Handled O.toOutside pid req)
      fun _ _ => False := by
  cases req with
  | route route =>
    refine walk_routeBody.weaken (fun _ => id) (fun a v h => ⟨h, fun _ hReq => ?_⟩) fun _ _ => id
    cases hReq
  | upstream u =>
    refine walk_upstream.weaken (fun _ => id) (fun a v h => ⟨h.1, fun token hReq => ?_⟩) fun _ _ => id
    cases hReq
    exact h.2 token rfl
  | api opts authorization =>
    refine .call rfl stable_true (fun _ _ => trivial) fun n w d out _ _ _ hExec => ?_
    cases hExec
    refine ⟨fun a _ => ⟨trivial, fun _ h => ?_⟩, fun e he => ?_⟩
    · cases h
    · cases he

theorem Handled.rely {req : Request} {a : Response} (h : Handled O.toOutside pid req a w)
    (hRely : Rely O.toOutside pid w v) : Handled O.toOutside pid req a v := by
  refine ⟨h.1.mono hRely.asked hRely.responses, fun token hReq hPair => ?_⟩
  obtain ⟨hDead, hPassed⟩ := h.2 token hReq hPair
  exact ⟨hRely.auth.dead token hDead, hRely.auth.passed.trans hPassed⟩

theorem wp_handler {req : Request} (hHere : Here pid (.handler req) w) :
    wp (session O) (contract O.toOutside) pid (.handler req) (handler O req)
      (fun _ v => ∀ r, (contract O.toOutside).post pid (.handler req) r v) w := by
  refine wp_bind (wp_mono (walk_handle w hHere trivial) fun r v hr => ?_)
  cases r with
  | error e => exact hr.2.elim
  | ok a =>
    intro w₁ n hLt hRely hInv
    have hHere₁ := hr.1.rely hRely
    have hHandled := hr.2.rely hRely
    refine ⟨⟨hHere₁.at', fun i hi => ?_, req, rfl, hHandled.1⟩, fun d out hOut r' => ?_⟩
    · rw [hHere₁.idle] at hi
      cases hi
    · cases hOut
      exact ⟨⟨a, Function.update_self _ _ _, hHandled.2⟩, hHere₁.at'.named⟩

theorem walk_refreshAccess (tr : List Step) (hRank : 2 < job.rank) :
    Walk O pid job (World.TraceIs pid tr) refreshAccess
      (fun ok v => World.TraceIs pid (tr ++ [.refreshed ok]) v) fun _ _ => False := by
  have hKnown : ∀ k, Stable O pid fun w => World.TraceIs pid tr w ∧
      (w.refreshInFlight = some k ∨ ∃ ok, w.settled k = some ok) := by
    refine fun k => (stable_trace tr).and fun w v hRely h => ?_
    obtain hFlight | ⟨ok, hSettled⟩ := h
    · exact hRely.current k hFlight
    · exact .inr ⟨ok, hRely.settled k ok hSettled⟩
  refine .bind (Q := fun k w => World.TraceIs pid tr w ∧
    (w.refreshInFlight = some k ∨ ∃ ok, w.settled k = some ok)) ?_ fun k => ?_
  · refine .call rfl (stable_trace tr) (fun _ _ => trivial) fun n w d out _ _ hTrace hExec => ?_
    simp only [exec] at hExec
    split at hExec <;> cases hExec
    next k hFlight =>
      refine ⟨fun a ha => ?_, fun e he => (by cases he)⟩
      cases ha
      exact ⟨hTrace, .inl hFlight⟩
    · refine ⟨fun a ha => ?_, fun e he => (by cases he)⟩
      cases ha
      exact ⟨hTrace, .inl rfl⟩
  · refine .call rfl (hKnown k) (fun _ h => ⟨hRank, h.2⟩) fun n w d out _ _ h hExec => ?_
    obtain ⟨ok, -, rfl⟩ := Option.map_eq_some_iff.mp hExec
    refine ⟨fun a ha => ?_, fun e he => (by cases he)⟩
    cases ha
    have hTrace : w.trace pid = tr := h.1
    rw [← hTrace]
    exact Function.update_self _ _ _

/-- The end of a request that has taken the steps `c` after `tr`. -/
def Finishes {α : Type} (pid : Nat) (auth : AuthMode) (tr : List Step) (r : Except Exn α) (w : World) : Prop :=
  ∃ c status, w.trace pid = tr ++ c ∧ Course auth c status ∧ Reports status r

theorem walk_retryRequest {tr : List Step} {a : Option String} {opts : RequestOptions}
    (hRank : 2 < job.rank) (h : opts.auth = .access) :
    Walk O pid job (World.TraceIs pid (tr ++ [.sent opts.auth a, .got 401] ++ [.refreshed true]))
      (retryRequest opts) (fun b => Finishes pid opts.auth tr (.ok b))
      fun e => Finishes pid opts.auth tr (.error e : Except Exn (Option Body)) := by
  rw [List.append_assoc]
  refine .bind ((walk_fetchApi (by omega)).weaken (fun _ => id) (fun _ _ => id) ?_) fun r => ?_
  · rintro e v ⟨rfl, hTrace | ⟨b, hTrace⟩⟩
    · exact ⟨_, none, hTrace, .unsentAgain a h, trivial⟩
    · exact ⟨_, none, hTrace.trans (List.append_assoc _ _ _), .lostAgain a b h, trivial⟩
  · intro w hHere hw
    obtain ⟨b, hTrace⟩ := hw
    refine (walk_readResult (stable_trace _)).weaken (fun _ => id) ?_ ?_ w hHere hTrace
    · rintro x v ⟨hTrace, hReports⟩
      exact ⟨_, _, hTrace.trans (List.append_assoc _ _ _), .again a b r.status h, hReports⟩
    · rintro e v ⟨hTrace, hReports⟩
      exact ⟨_, _, hTrace.trans (List.append_assoc _ _ _), .again a b r.status h, hReports⟩

theorem walk_apiRequest (tr : List Step) {opts : RequestOptions} (hRank : 2 < job.rank) :
    Walk O pid job (World.TraceIs pid tr) (apiRequest opts) (fun b => Finishes pid opts.auth tr (.ok b))
      fun e => Finishes pid opts.auth tr (.error e : Except Exn (Option Body)) := by
  refine .bind ((walk_fetchApi (by omega)).weaken (fun _ => id) (fun _ _ => id) ?_) fun r => ?_
  · rintro e v ⟨rfl, hTrace | ⟨a, hTrace⟩⟩
    · exact ⟨[], none, hTrace.trans (List.append_nil _).symm, .unsent, trivial⟩
    · exact ⟨_, none, hTrace, .lost a, trivial⟩
  · intro w hHere hw
    obtain ⟨a, hTrace⟩ := hw
    dsimp only
    split
    next hAccess =>
      obtain ⟨hStatus, hAuth⟩ := hAccess
      rw [hStatus] at hTrace
      refine Walk.bind ((walk_refreshAccess _ hRank).weaken (fun _ => id) (fun _ _ => id) fun _ _ h => h.elim)
        (fun ok => ?_) w hHere hTrace
      cases ok with
      | true => exact walk_retryRequest hRank hAuth
      | false =>
        refine (walk_readResult (stable_trace _)).weaken (fun _ => id) ?_ ?_
        · rintro x v ⟨hTrace, s, hs, hOk⟩
          cases hs
          omega
        · rintro e v ⟨hTrace, hReports⟩
          refine ⟨_, _, hTrace.trans (List.append_assoc _ _ _), .refused a hAuth, ?_⟩
          rw [← hStatus]
          exact hReports
    next hOther =>
      have hCourse : Course opts.auth [.sent opts.auth a, .got r.status] (some r.status) :=
        .answered a r.status fun hStatus hAuth => hOther ⟨hStatus, hAuth⟩
      refine (walk_readResult (stable_trace _)).weaken (fun _ => id) ?_ ?_ w hHere hTrace
      · rintro x v ⟨hTrace, hReports⟩
        exact ⟨_, _, hTrace, hCourse, hReports⟩
      · rintro e v ⟨hTrace, hReports⟩
        exact ⟨_, _, hTrace, hCourse, hReports⟩

theorem walk_request {opts : RequestOptions} (hRank : 2 < job.rank) :
    Walk O pid job (fun _ => True) (apiRequest opts) (fun _ _ => True) fun _ _ => True := by
  intro w hHere _
  exact (walk_apiRequest (w.trace pid) hRank).weaken (fun _ => id) (fun _ _ _ => trivial) (fun _ _ _ => trivial)
    w hHere rfl

theorem walk_refreshed (hRank : 2 < job.rank) :
    Walk O pid job (fun _ => True) refreshAccess (fun _ _ => True) fun _ _ => True := by
  intro w hHere _
  exact (walk_refreshAccess (w.trace pid) hRank).weaken (fun _ => id) (fun _ _ _ => trivial) (fun _ _ _ => trivial)
    w hHere rfl

theorem walk_post {p : Post} (hRank : 1 < job.rank) (hReq : p = .refresh → job = .flight) :
    Walk O pid job (fun _ => True) (bffPost p) (fun r v => v.Grants r.text) fun _ _ => True := by
  intro w hHere _
  refine (walk_bffPost hRank hReq).weaken (fun _ => id) (fun r v h => ?_) (fun _ _ _ => trivial) w hHere rfl
  obtain ⟨-, route, hDelivers, -⟩ := h
  exact hDelivers.2

theorem walk_fetchMe (hRank : 2 < job.rank) :
    Walk O pid job (fun _ => True) fetchMe (fun _ _ => True) fun _ _ => True :=
  .bind (walk_request hRank) fun _ => .any rfl fun _ => trivial

theorem walk_hydrate (hRank : 2 < job.rank) :
    Walk O pid job (fun _ => True) hydrate (fun _ _ => True) fun _ _ => True := by
  refine .bind (.any rfl fun _ => trivial) fun starts => ?_
  cases starts with
  | false => exact .pure fun _ => id
  | true =>
    refine .bind (walk_refreshed hRank) fun ok => ?_
    cases ok with
    | false => exact .any rfl fun _ => trivial
    | true => exact .handle (walk_fetchMe hRank) fun _ => .any rfl fun _ => trivial

theorem walk_login {email password : String} (hRank : 2 < job.rank) :
    Walk O pid job (fun _ => True) (login email password) (fun _ _ => True) fun _ _ => True := by
  refine .bind (walk_post (by omega) fun h => by cases h) fun r => ?_
  have hGrants : Stable O pid fun w => w.Grants r.text := stable_grants r.text
  dsimp only
  split
  · refine .bind ((walk_readError hGrants).weaken (fun _ => id) (fun _ _ => id) fun _ _ _ => trivial) fun e => ?_
    exact .bind (Q := fun _ _ => False) (.raise fun _ _ => trivial) fun _ _ _ h => h.elim
  · refine .bind ((walk_json hGrants).weaken (fun _ => id) (fun _ _ => id) fun _ _ _ => trivial) fun b => ?_
    refine .bind (Q := fun _ _ => True) (.call rfl (hGrants.and fun _ _ _ => id) ?_ ?_) fun _ => walk_fetchMe hRank
    · intro w h token hToken
      exact h.1 token (by rw [h.2]; exact hToken)
    · exact fun _ _ _ _ _ _ _ _ => ⟨fun _ _ => trivial, fun _ _ => trivial⟩

theorem walk_register {email password : String} (hRank : 2 < job.rank) :
    Walk O pid job (fun _ => True) (register email password) (fun _ _ => True) fun _ _ => True :=
  .bind (walk_request hRank) fun _ => walk_login hRank

theorem walk_logout (hRank : 2 < job.rank) :
    Walk O pid job (fun _ => True) logout (fun _ _ => True) fun _ _ => True := by
  refine .bind (Q := fun _ _ => True) (.handle (.map (walk_post (by omega) fun h => by cases h) fun _ _ _ => trivial)
    fun _ => .pure fun _ _ => trivial) fun _ => ?_
  exact .any rfl fun _ => trivial

theorem walk_refreshing :
    Walk O pid .flight (fun _ => True)
      (Prog.handle (do
        let res ← bffPost .refresh
        if !res.ok then return none
        some <$> json res) fun _ => return none)
      (fun data v => ∀ b, data = some b → v.Grants (.json b)) fun _ _ => False := by
  refine .handle (.bind (walk_post Nat.one_lt_two fun _ => rfl) fun r => ?_)
    fun _ => .pure fun _ _ b h => by cases h
  have hGrants : Stable O pid fun w => w.Grants r.text := stable_grants r.text
  split
  · exact .pure fun _ _ b h => by cases h
  · refine .map ((walk_json hGrants).weaken (fun _ => id) (fun _ _ => id) fun _ _ _ => trivial) ?_
    rintro b v ⟨h, hText⟩ b' hb'
    cases hb'
    rw [← hText]
    exact h

theorem wp_flight (hHere : Here pid .flight w) :
    wp (session O) (contract O.toOutside) pid .flight flight
      (fun _ v => ∀ r, (contract O.toOutside).post pid .flight r v) w := by
  refine wp_bind (wp_mono (walk_refreshing w hHere trivial) fun r v hr => ?_)
  cases r with
  | error e => exact hr.2.elim
  | ok data =>
    intro w₁ n hLt hRely hInv
    have hHere₁ := hr.1.rely hRely
    refine ⟨⟨hHere₁.at', fun i hi => ?_, rfl, fun b token hb hToken => ?_⟩, fun d out hOut r' => ?_⟩
    · rw [hHere₁.idle] at hi
      cases hi
    · exact (hr.2 b hb token hToken).rely hRely
    · cases data with
      | none =>
        cases hOut
        exact ⟨⟨false, Function.update_self _ _ _⟩, fun h => (by cases h), hHere₁.at'.named.2⟩
      | some b =>
        cases hOut
        exact ⟨⟨true, Function.update_self _ _ _⟩, fun h => (by cases h), hHere₁.at'.named.2⟩

theorem Walk.wp_unit {p : Coro Unit} {f : Unit → Ret}
    (h : Walk O pid job (fun _ => True) p (fun _ _ => True) fun _ _ => True)
    (hPost : ∀ r v, Promise O.toOutside pid v r job) (hHere : Here pid job w) :
    wp (session O) (contract O.toOutside) pid job (f <$> p) ((contract O.toOutside).post pid job) w := by
  have hMapped : Walk O pid job (fun _ => True) (f <$> p) (fun _ _ => True) fun _ _ => True :=
    .map h fun _ _ _ => trivial
  refine wp_mono (hMapped w hHere trivial) fun r v hr => ⟨hPost r v, ?_⟩
  cases r with
  | ok _ => exact hr.1.at'.named
  | error _ => exact hr.1.at'.named

theorem wp_body (h : Starts pid job w) :
    wp (session O) (contract O.toOutside) pid job ((session O).body job)
      ((contract O.toOutside).post pid job) w := by
  have hHere : Here pid job w := ⟨h.at', h.idle⟩
  cases job with
  | hydrate => exact (walk_hydrate (by exact Nat.lt_succ_self 2)).wp_unit (fun _ _ => trivial) hHere
  | login email password => exact (walk_login (by exact Nat.lt_succ_self 2)).wp_unit (fun _ _ => trivial) hHere
  | register email password displayName =>
    exact (walk_register (by exact Nat.lt_succ_self 2)).wp_unit (fun _ _ => trivial) hHere
  | logout => exact (walk_logout (by exact Nat.lt_succ_self 2)).wp_unit (fun _ _ => trivial) hHere
  | request opts =>
    refine wp_bind (wp_mono (walk_apiRequest [] (by exact Nat.lt_succ_self 2) w hHere h.trace) fun r v hr => ?_)
    cases r with
    | ok b =>
      obtain ⟨hEnd, c, status, hTrace, hCourse, hReports⟩ := hr
      exact ⟨⟨status, hTrace ▸ hCourse, hReports⟩, hEnd.at'.named⟩
    | error e =>
      obtain ⟨hEnd, c, status, hTrace, hCourse, hReports⟩ := hr
      refine ⟨⟨status, hTrace ▸ hCourse, ?_⟩, hEnd.at'.named⟩
      cases e <;> exact hReports
  | flight =>
    refine wp_bind (wp_mono (wp_flight hHere) fun r v hr => ?_)
    cases r with
    | ok _ => exact hr (.ok .unit)
    | error e => exact hr (.error e)
  | handler req =>
    refine wp_bind (wp_mono (wp_handler hHere) fun r v hr => ?_)
    cases r with
    | ok _ => exact hr (.ok .unit)
    | error e => exact hr (.error e)

theorem sound (O : Outside) : Sound (session O) (contract O.toOutside) where
  rely_trans _ _ _ _ h h' := Rely.trans h h'
  rely_refl := Rely.refl O.toOutside
  post_rely _ _ _ _ _ h hRely := ⟨h.1.rely hRely, h.2.rely hRely⟩
  exec w job pid n o d out hInv hReq hLt hExec := by
    obtain ⟨hMoves, hStarts⟩ := exec_advances hInv hLt hReq hExec
    exact ⟨hMoves.inv, hMoves.rely, fun t hNew => wp_body (hStarts t hNew)⟩
  env w n e out hInv hEnv := by
    obtain ⟨hInv', hRely, hStarts⟩ := env_advances hInv hEnv
    exact ⟨hInv', hRely, fun t hNew => wp_body (hStarts t hNew)⟩

theorem inv_initial (users : List Auth.User) (accounts : List Account) :
    Inv 0 (initial users accounts).shared where
  fresh _ _ := ⟨rfl, rfl, rfl, rfl, rfl, rfl⟩
  flying k hk := by cases hk
  answers h req r hAsked := by cases hAsked
  store token hToken := by cases hToken
  sent p token hSent := by cases hSent

theorem kept_of_reach {users : List Auth.User} {accounts : List Account} {C : SysState → SysLabel → Prop}
    {S : SysState} (h : (session O).Reach C (initial users accounts) S) :
    Kept (session O) (contract O.toOutside) S := by
  have hStart : Kept (session O) (contract O.toOutside) (initial users accounts) :=
    ⟨inv_initial users accounts, fun _ _ hp => by cases hp⟩
  exact (sound O).kept hStart h

end

end LiveQuiz.Session
