import LiveQuiz.Session.Contract

/-! # What one call changes

Each call keeps the invariant and what the other programs rely on, and a program it
starts finds nothing done in its name yet.
-/

namespace LiveQuiz.Session

open Coroutine

set_option autoImplicit false

/-- A step of program `pid` among `n` programs, after which there are `m`. -/
structure Moves (O : Auth.Outside) (pid n m : Nat) (w v : World) : Prop where
  inv : Inv m v
  rely : ∀ q, q < n → q ≠ pid → Rely O q w v

/-- A call that leaves all but the program's own waiting and steps, the store and the cookie. -/
structure Quiet (pid : Nat) (w v : World) : Prop where
  auth : v.auth = w.auth
  refreshInFlight : v.refreshInFlight = w.refreshInFlight
  settled : v.settled = w.settled
  responses : v.responses = w.responses
  asked : v.asked = w.asked
  awaiting : ∀ q, q ≠ pid → v.awaiting q = w.awaiting q
  trace : ∀ q, q ≠ pid → v.trace q = w.trace q
  sent : ∀ token, .sent .access (some token) ∈ v.trace pid → w.Issued token
  store : ∀ token, v.store.accessToken = some token → w.Issued token

/-- What a program finds when it starts. -/
structure Starts (pid : Nat) (job : Job) (w : World) : Prop where
  at' : At pid job w
  idle : w.awaiting pid = none
  trace : w.trace pid = []

section

variable {O : Auth.Outside} {pid n : Nat} {job : Job} {w v : World}

theorem Quiet.issued {token : String} (h : Quiet pid w v) (hIssued : w.Issued token) : v.Issued token :=
  hIssued.mono (fun i req hAsked => by rw [h.asked]; exact hAsked)
    fun i r hResponse => by rw [h.responses]; exact hResponse

theorem Quiet.rely {q : Nat} (h : Quiet pid w v) (hq : q ≠ pid) : Rely O q w v where
  auth := by rw [h.auth]; exact Auth.Rely.refl q w.auth
  answer := congrFun h.responses q
  outcome := congrFun h.settled q
  waits := h.awaiting q hq
  steps := h.trace q hq
  flight hFlight := h.refreshInFlight ▸ hFlight
  question := congrFun h.asked q
  asked i req hAsked := by rw [h.asked]; exact hAsked
  responses i r hResponse := by rw [h.responses]; exact hResponse
  settled k ok hSettled := by rw [h.settled]; exact hSettled
  current k hCurrent := .inl (h.refreshInFlight.trans hCurrent)

theorem Quiet.moves (h : Quiet pid w v) (hInv : Inv n w) (hLt : pid < n) : Moves O pid n n w v where
  inv :=
    { fresh := by
        intro q hq
        have hNe : q ≠ pid := by omega
        rw [h.settled, h.responses, h.asked, h.awaiting q hNe, h.trace q hNe, h.auth]
        exact hInv.fresh q hq
      flying := by
        rw [h.refreshInFlight, h.settled]
        exact hInv.flying
      answers := by
        intro i req r hAsked hResponse
        rw [h.asked] at hAsked
        rw [h.responses] at hResponse
        refine (hInv.answers i req r hAsked hResponse).mono ?_ ?_
        · rw [h.asked]
          exact fun _ _ => id
        · rw [h.responses]
          exact fun _ _ => id
      store := fun token hToken => h.issued (h.store token hToken)
      sent := by
        intro p token hSent
        by_cases hp : p = pid
        · subst hp
          exact h.issued (h.sent token hSent)
        · rw [h.trace p hp] at hSent
          exact h.issued (hInv.sent p token hSent) }
  rely _ _ hq := h.rely hq

theorem Moves.refl (hInv : Inv n w) : Moves O pid n n w w := ⟨hInv, fun _ _ _ => Rely.refl O _ w⟩

theorem Moves.trans {m l : Nat} {u : World} (h : Moves O pid n m w v) (h' : Moves O pid m l v u)
    (hLe : n ≤ m) : Moves O pid n l w u :=
  ⟨h'.inv, fun q hq hNe => (h.rely q hq hNe).trans (h'.rely q (hq.trans_le hLe) hNe)⟩

theorem quiet_note {s : Step} (hInv : Inv n w)
    (h : ∀ token, s = .sent .access (some token) → w.Issued token) : Quiet pid w (w.note pid s) where
  auth := rfl
  refreshInFlight := rfl
  settled := rfl
  responses := rfl
  asked := rfl
  awaiting _ _ := rfl
  trace _ hq := Function.update_of_ne hq _ _
  sent token hSent := by
    simp only [World.note, Function.update_self, List.mem_append, List.mem_singleton] at hSent
    obtain hOld | hNew := hSent
    · exact hInv.sent pid token hOld
    · exact h token hNew.symm
  store := hInv.store

theorem quiet_store {s : AuthState} (hInv : Inv n w)
    (h : ∀ token, s.accessToken = some token → w.Issued token) : Quiet pid w { w with store := s } where
  auth := rfl
  refreshInFlight := rfl
  settled := rfl
  responses := rfl
  asked := rfl
  awaiting _ _ := rfl
  trace _ _ := rfl
  sent token hSent := hInv.sent pid token hSent
  store := h

theorem quiet_wait {c : Option String} {a : Option Nat} (hInv : Inv n w) :
    Quiet pid w { w with cookie := c, awaiting := Function.update w.awaiting pid a } where
  auth := rfl
  refreshInFlight := rfl
  settled := rfl
  responses := rfl
  asked := rfl
  awaiting _ hq := Function.update_of_ne hq _ _
  trace _ _ := rfl
  sent token hSent := hInv.sent pid token hSent
  store := hInv.store

theorem Inv.asked_lt (hInv : Inv n w) {i : Nat} {req : Request} (h : w.asked i = some req) : i ≠ n := by
  rintro rfl
  rw [(hInv.fresh i (le_refl i)).2.2.1] at h
  cases h

theorem moves_dispatch (req : Request) (hInv : Inv n w) (hLt : pid < n) :
    Moves O pid n (n + 1) w (w.dispatch pid n req) := by
  have hAsked : ∀ i req', w.asked i = some req' → (w.dispatch pid n req).asked i = some req' :=
    fun i req' h => (Function.update_of_ne (hInv.asked_lt h) _ _).trans h
  constructor
  · constructor
    · intro q hq
      obtain ⟨hSettled, hResponse, hAsk, hWait, hTrace, hPassed⟩ := hInv.fresh q (by omega)
      refine ⟨hSettled, hResponse, ?_, ?_, hTrace, hPassed⟩
      · exact (Function.update_of_ne (by omega) _ _).trans hAsk
      · exact (Function.update_of_ne (by omega) _ _).trans hWait
    · intro k hk
      obtain ⟨hBelow, hSettled⟩ := hInv.flying k hk
      exact ⟨by omega, hSettled⟩
    · intro i req' r hAsk hResponse
      have hOld : i ≠ n := by
        rintro rfl
        have hNone := (hInv.fresh i (le_refl i)).2.1
        rw [show w.responses i = some r from hResponse] at hNone
        cases hNone
      have hAsk' : w.asked i = some req' := (Function.update_of_ne hOld _ _).symm.trans hAsk
      exact (hInv.answers i req' r hAsk' hResponse).mono hAsked fun _ _ => id
    · exact fun token hToken => (hInv.store token hToken).mono hAsked fun _ _ => id
    · exact fun p token hSent => (hInv.sent p token hSent).mono hAsked fun _ _ => id
  · intro q hq hNe
    exact
      { auth := Auth.Rely.refl q w.auth
        answer := rfl
        outcome := rfl
        waits := Function.update_of_ne hNe _ _
        steps := rfl
        flight := id
        question := Function.update_of_ne (by omega) _ _
        asked := hAsked
        responses := fun _ _ => id
        settled := fun _ _ => id
        current := fun _ => .inl }

theorem starts_dispatch (req : Request) (hInv : Inv n w) (hLt : pid < n) :
    Starts n (.handler req) (w.dispatch pid n req) := by
  obtain ⟨hSettled, hResponse, -, hWait, hTrace, -⟩ := hInv.fresh n (le_refl n)
  refine ⟨⟨⟨fun hFlight => ?_, fun hJob => (by cases hJob)⟩, hSettled, hResponse, ?_⟩, ?_, hTrace⟩
  · have := (hInv.flying n hFlight).1
    omega
  · intro req'
    rw [show (w.dispatch pid n req).asked n = some req from Function.update_self _ _ _]
    exact ⟨fun h => by cases h; rfl, fun h => by cases h; rfl⟩
  · exact (Function.update_of_ne (by omega) _ _).trans hWait

theorem Starts.note {q : Nat} {s : Step} (h : Starts q job w) (hq : q ≠ pid) :
    Starts q job (w.note pid s) :=
  ⟨⟨h.at'.flight, h.at'.unsettled, h.at'.unanswered, h.at'.asked⟩, h.idle,
    (Function.update_of_ne hq _ _).trans h.trace⟩

theorem moves_reply {req : Request} {r : Response} (hAt : At pid (.handler req) w)
    (hAnswers : w.Answers req r) (hInv : Inv n w) (hLt : pid < n) :
    Moves O pid n n w { w with responses := Function.update w.responses pid (some r) } := by
  have hOther : ∀ i r', w.responses i = some r' →
      Function.update w.responses pid (some r) i = some r' := by
    intro i r' h
    have hNe : i ≠ pid := by
      rintro rfl
      rw [hAt.unanswered] at h
      cases h
    exact (Function.update_of_ne hNe _ _).trans h
  constructor
  · constructor
    · intro q hq
      obtain ⟨hSettled, hResponse, hRest⟩ := hInv.fresh q hq
      exact ⟨hSettled, (Function.update_of_ne (by omega) _ _).trans hResponse, hRest⟩
    · exact hInv.flying
    · intro i req' r' hAsk hResponse
      by_cases hi : i = pid
      · subst hi
        have hAsk' := (hAt.asked req).mpr rfl
        rw [show w.asked i = some req' from hAsk] at hAsk'
        cases hAsk'
        simp only [Function.update_self, Option.some.injEq] at hResponse
        subst hResponse
        exact hAnswers.mono (fun _ _ => id) hOther
      · simp only [Function.update_of_ne hi] at hResponse
        exact (hInv.answers i req' r' hAsk hResponse).mono (fun _ _ => id) hOther
    · exact fun token hToken => (hInv.store token hToken).mono (fun _ _ => id) hOther
    · exact fun p token hSent => (hInv.sent p token hSent).mono (fun _ _ => id) hOther
  · intro q _ hNe
    exact
      { auth := Auth.Rely.refl q w.auth
        answer := Function.update_of_ne hNe _ _
        outcome := rfl
        waits := rfl
        steps := rfl
        flight := id
        question := rfl
        asked := fun _ _ => id
        responses := hOther
        settled := fun _ _ => id
        current := fun _ => .inl }

theorem moves_fly (hNone : w.refreshInFlight = none) (hInv : Inv n w) :
    Moves O pid n (n + 1) w { w with refreshInFlight := some n } := by
  constructor
  · constructor
    · exact fun q hq => hInv.fresh q (by omega)
    · intro k hk
      cases hk
      exact ⟨Nat.lt_succ_self n, (hInv.fresh n (le_refl n)).1⟩
    · exact hInv.answers
    · exact hInv.store
    · exact hInv.sent
  · intro q hq _
    exact
      { auth := Auth.Rely.refl q w.auth
        answer := rfl
        outcome := rfl
        waits := rfl
        steps := rfl
        flight := by
          intro hFlight
          cases hFlight
          omega
        question := rfl
        asked := fun _ _ => id
        responses := fun _ _ => id
        settled := fun _ _ => id
        current := by
          intro k hk
          rw [hNone] at hk
          cases hk }

theorem starts_fly (hInv : Inv n w) : Starts n .flight { w with refreshInFlight := some n } := by
  obtain ⟨hSettled, hResponse, hAsk, hWait, hTrace, -⟩ := hInv.fresh n (le_refl n)
  refine ⟨⟨⟨fun _ => rfl, fun _ => rfl⟩, hSettled, hResponse, fun req => ?_⟩, hWait, hTrace⟩
  rw [show w.asked n = none from hAsk]
  exact ⟨fun h => (by cases h), fun h => (by cases h)⟩

theorem moves_settle {s : AuthState} {ok : Bool} (hFlight : w.refreshInFlight = some pid)
    (hStore : ∀ token, s.accessToken = some token → w.Issued token) (hInv : Inv n w) (hLt : pid < n) :
    Moves O pid n n w ({ w with store := s }.settle pid ok) := by
  have hUnsettled := (hInv.flying pid hFlight).2
  constructor
  · constructor
    · intro q hq
      obtain ⟨hSettled, hRest⟩ := hInv.fresh q hq
      exact ⟨(Function.update_of_ne (by omega) _ _).trans hSettled, hRest⟩
    · intro k hk
      cases hk
    · exact hInv.answers
    · exact hStore
    · exact hInv.sent
  · intro q _ hNe
    exact
      { auth := Auth.Rely.refl q w.auth
        answer := rfl
        outcome := Function.update_of_ne hNe _ _
        waits := rfl
        steps := rfl
        flight := fun h => by cases h
        question := rfl
        asked := fun _ _ => id
        responses := fun _ _ => id
        settled := by
          intro k ok' hk
          have hkNe : k ≠ pid := by
            rintro rfl
            rw [hUnsettled] at hk
            cases hk
          exact (Function.update_of_ne hkNe _ _).trans hk
        current := by
          intro k hk
          rw [hFlight] at hk
          cases hk
          exact .inr ⟨ok, Function.update_self _ _ _⟩ }

theorem moves_auth {a : Auth.World} (hNow : w.auth.now ≤ a.now)
    (hPassed : ∀ q, q ≠ pid → a.passed q = w.auth.passed q)
    (hFresh : ∀ q, n ≤ q → a.passed q = w.auth.passed q)
    (hDead : ∀ token, Auth.Dead O token w.auth → Auth.Dead O token a) (hInv : Inv n w) :
    Moves O pid n n w { w with auth := a } := by
  constructor
  · constructor
    · intro q hq
      obtain ⟨hSettled, hResponse, hAsk, hWait, hTrace, hOld⟩ := hInv.fresh q hq
      exact ⟨hSettled, hResponse, hAsk, hWait, hTrace, (hFresh q hq).trans hOld⟩
    · exact hInv.flying
    · exact hInv.answers
    · exact hInv.store
    · exact hInv.sent
  · intro q _ hNe
    exact
      { auth := ⟨hNow, hPassed q hNe, hDead⟩
        answer := rfl
        outcome := rfl
        waits := rfl
        steps := rfl
        flight := id
        question := rfl
        asked := fun _ _ => id
        responses := fun _ _ => id
        settled := fun _ _ => id
        current := fun _ => .inl }

variable {o : Op} {d : Decision} {out : Answer o}

abbrev Advances (O : Auth.Outside) (pid n : Nat) (w : World) (out : Answer o) : Prop :=
  Moves O pid n (n + out.spawned.toList.length) w out.shared ∧
    ∀ t, out.spawned = some t → Starts n t out.shared

theorem Moves.advances {res : Except Exn o.Res} (h : Moves O pid n n w v) :
    Advances O pid n w (⟨v, res, none⟩ : Answer o) :=
  ⟨h, fun t hNew => by cases hNew⟩

theorem advances_same {res : Except Exn o.Res} (hInv : Inv n w) :
    Advances O pid n w (⟨w, res, none⟩ : Answer o) :=
  (Moves.refl hInv).advances

theorem advances_dispatch {req : Request} {res : Except Exn o.Res} (hInv : Inv n w) (hLt : pid < n) :
    Advances O pid n w (⟨w.dispatch pid n req, res, some (.handler req)⟩ : Answer o) :=
  ⟨moves_dispatch req hInv hLt, fun t hNew => by
    cases hNew
    exact starts_dispatch req hInv hLt⟩

theorem advances_store {s : AuthState} {res : Except Exn o.Res} (hInv : Inv n w) (hLt : pid < n)
    (h : ∀ token, s.accessToken = some token → w.Issued token) :
    Advances O pid n w (⟨{ w with store := s }, res, none⟩ : Answer o) :=
  ((quiet_store hInv h).moves hInv hLt).advances

theorem authorization_issued {opts : RequestOptions} {token : String} (hInv : Inv n w)
    (hAuth : opts.auth = .access) (h : opts.authorization w.store.accessToken = some token) :
    w.Issued token := by
  rw [RequestOptions.authorization, hAuth] at h
  exact hInv.store token (Option.filter_eq_some_iff.mp h).1

theorem advances_send {opts : RequestOptions} {out : Answer (.send opts)} (hInv : Inv n w)
    (hLt : pid < n) (h : exec w job pid n (.send opts) d = some out) : Advances O pid n w out := by
  simp only [exec] at h
  split at h <;> cases h
  · have hMoves : Moves O pid n (n + 1) w _ :=
      moves_dispatch (.api opts (opts.authorization w.store.accessToken)) hInv hLt
    refine ⟨hMoves.trans ((quiet_note hMoves.inv ?_).moves hMoves.inv (by omega)) (by omega), ?_⟩
    · intro token hSent
      injection hSent with hAuth hToken
      exact (authorization_issued hInv hAuth hToken).mono
        (fun i req hAsked => (Function.update_of_ne (hInv.asked_lt hAsked) _ _).trans hAsked) fun _ _ => id
    · intro t hNew
      cases hNew
      exact (starts_dispatch _ hInv hLt).note (by omega)
  · exact advances_same hInv

theorem advances_response {i : Nat} {out : Answer (.response i)} (hInv : Inv n w) (hLt : pid < n)
    (h : exec w job pid n (.response i) d = some out) : Advances O pid n w out := by
  simp only [exec] at h
  split at h
  · obtain ⟨r, hr, rfl⟩ := Option.map_eq_some_iff.mp h
    have hMoves : Moves O pid n n w (w.arrive pid r) := (quiet_wait hInv).moves hInv hLt
    refine (hMoves.trans ((quiet_note hMoves.inv ?_).moves hMoves.inv hLt) (le_refl n)).advances
    intro token hStep
    cases hStep
  · cases h
    exact ((quiet_wait (c := w.cookie) (a := none) hInv).moves hInv hLt).advances

theorem advances_refreshAccess {out : Answer .refreshAccess} (hInv : Inv n w)
    (h : exec w job pid n .refreshAccess d = some out) : Advances O pid n w out := by
  simp only [exec] at h
  split at h <;> cases h
  · exact advances_same hInv
  next hNone =>
    refine ⟨moves_fly hNone hInv, fun t hNew => ?_⟩
    cases hNew
    exact starts_fly hInv

theorem advances_finishRefresh {data : Option Body} {out : Answer (.finishRefresh data)}
    (hInv : Inv n w) (hLt : pid < n) (hFlight : w.refreshInFlight = some pid)
    (hGrants : ∀ body token, data = some body → body.accessToken = some token → w.Issued token)
    (h : exec w job pid n (.finishRefresh data) d = some out) : Advances O pid n w out := by
  cases data with
  | none =>
    cases h
    exact (moves_settle hFlight (fun token hToken => by cases hToken) hInv hLt).advances
  | some body =>
    cases h
    exact (moves_settle hFlight (fun token hToken => hGrants body token rfl hToken) hInv
      hLt).advances

theorem exec_advances (hInv : Inv n w) (hLt : pid < n) (hReq : Req O pid job w o)
    (h : exec w job pid n o d = some out) : Advances O pid n w out := by
  obtain ⟨hAt, -, hOp⟩ := hReq
  cases o with
  | bffPost p =>
    simp only [exec] at h
    split at h <;> cases h
    · exact advances_dispatch hInv hLt
    · exact advances_same hInv
  | send opts => exact advances_send hInv hLt h
  | upstream u =>
    simp only [exec] at h
    split at h <;> cases h
    · exact advances_dispatch hInv hLt
    · exact advances_same hInv
  | response i => exact advances_response hInv hLt h
  | reply r =>
    cases h
    obtain ⟨req, rfl, hAnswers⟩ := hOp
    exact (moves_reply hAt hAnswers hInv hLt).advances
  | beginHydrate =>
    simp only [exec] at h
    split at h <;> cases h
    · exact advances_same hInv
    · exact advances_store hInv hLt hInv.store
  | refreshAccess => exact advances_refreshAccess hInv h
  | flight k =>
    obtain ⟨ok, -, rfl⟩ := Option.map_eq_some_iff.mp h
    refine ((quiet_note hInv ?_).moves hInv hLt).advances
    intro token hStep
    cases hStep
  | finishRefresh data =>
    obtain ⟨rfl, hGrants⟩ := hOp
    exact advances_finishRefresh hInv hLt (hAt.flight.mpr rfl) hGrants h
  | setAnon =>
    cases h
    exact advances_store hInv hLt fun token hToken => by cases hToken
  | setStatusAnon =>
    cases h
    exact advances_store hInv hLt hInv.store
  | setToken a =>
    cases h
    exact advances_store hInv hLt hOp
  | setUser user =>
    cases h
    exact advances_store hInv hLt hInv.store
  | auth o =>
    obtain ⟨out', hOut, rfl⟩ := Option.map_eq_some_iff.mp h
    have hOut' : Auth.exec w.auth job.service pid n o _ = some out' := hOut
    obtain ⟨hNow, hPassed, hDead⟩ := Auth.exec_effect n hOut' hOp
    refine (moves_auth hNow hPassed (fun q hq => hPassed q (by omega)) hDead hInv).advances
  | endpoint opts authorization =>
    cases h
    exact advances_same hInv
  | text | rateAcquire | getByEmail | isAccessRevoked =>
    simp only [exec] at h
    split at h <;> cases h <;> exact advances_same hInv

theorem env_advances {e : EnvAction} {out : World × Option Job} (hInv : Inv n w)
    (h : env w n e = some out) :
    Inv (n + out.2.toList.length) out.1 ∧ (∀ q, q < n → Rely O q w out.1) ∧
      ∀ t, out.2 = some t → Starts n t out.1 := by
  have hAuth : ∀ a : Auth.World, w.auth.now ≤ a.now → a.passed = w.auth.passed →
      a.revoked = w.auth.revoked → Moves O n n n w { w with auth := a } := by
    intro a hNow hPassed hRevoked
    exact moves_auth hNow (fun q _ => congrFun hPassed q) (fun q _ => congrFun hPassed q)
      (fun token hDead => hDead.later hNow hRevoked) hInv
  have hSame : ∀ v, Quiet n w v → ∀ q, q < n → Rely O q w v := fun v h q hq => h.rely (by omega)
  cases e with
  | tick dt =>
    cases h
    have hMoves := hAuth { w.auth with now := w.auth.now + dt }
      (Int.le_add_of_nonneg_right (Int.natCast_nonneg dt)) rfl rfl
    exact ⟨hMoves.inv, fun q hq => hMoves.rely q hq (by omega), fun t hNew => by cases hNew⟩
  | putUser user =>
    cases h
    have hMoves := hAuth { w.auth with users := w.auth.users.filter (·.id ≠ user.id) ++ [user] }
      (le_refl _) rfl rfl
    exact ⟨hMoves.inv, fun q hq => hMoves.rely q hq (by omega), fun t hNew => by cases hNew⟩
  | putAccount account =>
    cases h
    refine ⟨⟨hInv.fresh, hInv.flying, hInv.answers, hInv.store, hInv.sent⟩, hSame _ ?_, fun t hNew => by cases hNew⟩
    exact ⟨rfl, rfl, rfl, rfl, rfl, fun _ _ => rfl, fun _ _ => rfl, hInv.sent n, hInv.store⟩
  | dropCookie =>
    cases h
    refine ⟨⟨hInv.fresh, hInv.flying, hInv.answers, hInv.store, hInv.sent⟩, hSame _ ?_, fun t hNew => by cases hNew⟩
    exact ⟨rfl, rfl, rfl, rfl, rfl, fun _ _ => rfl, fun _ _ => rfl, hInv.sent n, hInv.store⟩
  | act job =>
    simp only [env] at h
    split at h <;> cases h
    next hPage =>
      obtain ⟨hSettled, hResponse, hAsk, hWait, hTrace, hPassed⟩ := hInv.fresh n (le_refl n)
      refine ⟨⟨fun q hq => hInv.fresh q (by omega), ?_, hInv.answers, hInv.store, hInv.sent⟩,
        fun q _ => Rely.refl O q w, ?_⟩
      · intro k hk
        obtain ⟨hBelow, hUnsettled⟩ := hInv.flying k hk
        exact ⟨by omega, hUnsettled⟩
      · intro t hNew
        cases hNew
        refine ⟨⟨⟨fun hFlight => ?_, ?_⟩, hSettled, hResponse, ?_⟩, hWait, hTrace⟩
        · have := (hInv.flying n hFlight).1
          omega
        · rintro rfl
          cases hPage
        · intro req
          rw [hAsk]
          refine ⟨fun h => (by cases h), ?_⟩
          rintro rfl
          cases hPage

end

end LiveQuiz.Session
