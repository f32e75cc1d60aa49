import LiveQuiz.Session.Service
import LiveQuiz.Results.SingleUse

/-! # What the programs of a session keep

One contract for the tab, the route handlers and the endpoints. A program relies on its
own answer, its own outcome and its own steps being left alone, and on answers, outcomes
and the current refresh going on as they are; it promises to wait wherever it has sent a
request, to clear only its own refresh, and to give out only tokens that the API has
answered with.
-/

namespace LiveQuiz.Session

open Coroutine
open LiveQuiz.Auth (Dead)

set_option autoImplicit false

/-- The API has answered with this access token. -/
def World.Issued (w : World) (token : String) : Prop :=
  ∃ h u r, w.asked h = some (.upstream u) ∧ w.responses h = some r ∧ r.ok = true ∧
    r.text.accessToken = some token

/-- An access token in the text is an issued one. -/
def World.Grants (w : World) (t : Text) : Prop := ∀ token, t.accessToken = some token → w.Issued token

/-- What holds of an answer: a route handler gives out no refresh token, and only issued access
tokens; an endpoint that refuses gives out none. -/
def World.Answers (w : World) : Request → Response → Prop
  | .route _, r => r.text.refreshToken = none ∧ w.Grants r.text
  | .upstream _, r => r.ok = false → r.text.refreshToken = none ∧ r.text.accessToken = none
  | .api _ _, _ => True

structure Inv (n : Nat) (w : World) : Prop where
  fresh : ∀ q, n ≤ q → w.settled q = none ∧ w.responses q = none ∧ w.asked q = none ∧
    w.awaiting q = none ∧ w.trace q = [] ∧ w.auth.passed q = false
  flying : ∀ k, w.refreshInFlight = some k → k < n ∧ w.settled k = none
  answers : ∀ h req r, w.asked h = some req → w.responses h = some r → w.Answers req r
  store : ∀ token, w.store.accessToken = some token → w.Issued token
  sent : ∀ p token, .sent .access (some token) ∈ w.trace p → w.Issued token

structure Rely (O : Auth.Outside) (pid : Nat) (w v : World) : Prop where
  auth : Auth.Rely O pid w.auth v.auth
  answer : v.responses pid = w.responses pid
  outcome : v.settled pid = w.settled pid
  waits : v.awaiting pid = w.awaiting pid
  steps : v.trace pid = w.trace pid
  flight : v.refreshInFlight = some pid → w.refreshInFlight = some pid
  question : v.asked pid = w.asked pid
  asked : ∀ h req, w.asked h = some req → v.asked h = some req
  responses : ∀ h r, w.responses h = some r → v.responses h = some r
  settled : ∀ k ok, w.settled k = some ok → v.settled k = some ok
  current : ∀ k, w.refreshInFlight = some k → v.refreshInFlight = some k ∨ ∃ ok, v.settled k = some ok

/-- The call of the authentication service that a handler makes. -/
def Job.service : Job → Auth.Job
  | .handler (.upstream (.refresh token)) => .refresh token
  | .handler (.upstream (.logout token _)) => .logout token
  | _ => .logout ""

/-- Who waits for whom: the tab's calls for the refresh, all of these for the route handlers,
and the route handlers for the endpoints. -/
def Job.rank : Job → Nat
  | .handler (.route _) => 1
  | .handler _ => 0
  | .flight => 2
  | _ => 3

def OpReq (O : Auth.Outside) (job : Job) (w : World) : Op → Prop
  | .bffPost .refresh => job = .flight
  | .response i => ∃ req, w.asked i = some req ∧ (Job.handler req).rank < job.rank
  | .upstream (.refresh _) => ∃ cookie, job = .handler (.route (.refresh cookie))
  | .flight k => Job.flight.rank < job.rank ∧ (w.refreshInFlight = some k ∨ ∃ ok, w.settled k = some ok)
  | .finishRefresh data => job = .flight ∧
    ∀ body token, data = some body → body.accessToken = some token → w.Issued token
  | .setToken a => ∀ token, a = some token → w.Issued token
  | .reply r => ∃ req, job = .handler req ∧ w.Answers req r
  | .auth o => Auth.Req O job.service w.auth o
  | _ => True

/-- A program is the current refresh or is none, has not answered, and waits for a response
where it has asked for one. -/
structure At (pid : Nat) (job : Job) (w : World) : Prop where
  flight : w.refreshInFlight = some pid ↔ job = .flight
  unsettled : w.settled pid = none
  unanswered : w.responses pid = none
  asked : ∀ req, w.asked pid = some req ↔ job = .handler req

structure Req (O : Auth.Outside) (pid : Nat) (job : Job) (w : World) (o : Op) : Prop where
  at' : At pid job w
  waits : ∀ h, w.awaiting pid = some h → o = .response h
  op : OpReq O job w o

/-- The steps of a request, and the status it ends with where it has not lost a response. -/
inductive Course (auth : AuthMode) : List Step → Option Nat → Prop
  | unsent : Course auth [] none
  | lost (a : Option String) : Course auth [.sent auth a] none
  | answered (a : Option String) (status : Nat) (h : status = 401 → auth ≠ .access) :
      Course auth [.sent auth a, .got status] (some status)
  | refused (a : Option String) (h : auth = .access) :
      Course auth [.sent auth a, .got 401, .refreshed false] (some 401)
  | unsentAgain (a : Option String) (h : auth = .access) :
      Course auth [.sent auth a, .got 401, .refreshed true] none
  | lostAgain (a b : Option String) (h : auth = .access) :
      Course auth [.sent auth a, .got 401, .refreshed true, .sent auth b] none
  | again (a b : Option String) (status : Nat) (h : auth = .access) :
      Course auth [.sent auth a, .got 401, .refreshed true, .sent auth b, .got status] (some status)

/-- How a request ends: with a lost response or body, with a payload only after a status that is ok, with
the error of a status only where it is not. -/
def Reports {α : Type} (status : Option Nat) : Except Exn α → Prop
  | .ok _ => ∃ s, status = some s ∧ 200 ≤ s ∧ s < 300
  | .error (.api e) => status = some e.status ∧ ¬(200 ≤ e.status ∧ e.status < 300)
  | .error .network => True
  | .error .syntaxError => ∃ s, status = some s ∧ 200 ≤ s ∧ s < 300
  | .error (.server _) => False

def Promise (O : Auth.Outside) (pid : Nat) (w : World) (r : Except Exn Ret) : Job → Prop
  | .flight => ∃ ok, w.settled pid = some ok
  | .request opts => ∃ status, Course opts.auth (w.trace pid) status ∧ Reports status r
  | .handler req => ∃ a, w.responses pid = some a ∧
      ∀ token, req = .upstream (.refresh token) → a.text.refreshToken ≠ none →
        Dead O token w.auth ∧ w.auth.passed pid = true
  | _ => True

def Named (pid : Nat) (job : Job) (w : World) : Prop :=
  (w.refreshInFlight = some pid → job = .flight) ∧ ∀ req, w.asked pid = some req → job = .handler req

def contract (O : Auth.Outside) : Contract World Op Exn Ret Job where
  inv := Inv
  rely := Rely O
  req := Req O
  post pid job r w := Promise O pid w r job ∧ Named pid job w

section

variable {O : Auth.Outside} {pid n : Nat} {job : Job} {w v u : World}

theorem Rely.refl (O : Auth.Outside) (pid : Nat) (w : World) : Rely O pid w w where
  auth := Auth.Rely.refl pid w.auth
  answer := rfl
  outcome := rfl
  waits := rfl
  steps := rfl
  flight := id
  question := rfl
  asked _ _ := id
  responses _ _ := id
  settled _ _ := id
  current _ := .inl

theorem Rely.trans (h : Rely O pid w v) (h' : Rely O pid v u) : Rely O pid w u where
  auth := h.auth.trans h'.auth
  answer := h'.answer.trans h.answer
  outcome := h'.outcome.trans h.outcome
  waits := h'.waits.trans h.waits
  steps := h'.steps.trans h.steps
  flight hFlight := h.flight (h'.flight hFlight)
  question := h'.question.trans h.question
  asked i req hAsked := h'.asked i req (h.asked i req hAsked)
  responses i r hResponse := h'.responses i r (h.responses i r hResponse)
  settled k ok hSettled := h'.settled k ok (h.settled k ok hSettled)
  current k hCurrent := by
    obtain hSame | ⟨ok, hSettled⟩ := h.current k hCurrent
    · exact h'.current k hSame
    · exact .inr ⟨ok, h'.settled k ok hSettled⟩

theorem World.Issued.mono {token : String} (h : w.Issued token)
    (hAsked : ∀ i req, w.asked i = some req → v.asked i = some req)
    (hResponses : ∀ i r, w.responses i = some r → v.responses i = some r) : v.Issued token := by
  obtain ⟨i, u, r, hAsk, hResponse, hRest⟩ := h
  exact ⟨i, u, r, hAsked i _ hAsk, hResponses i r hResponse, hRest⟩

theorem World.Issued.rely {token : String} (h : w.Issued token) (hRely : Rely O pid w v) :
    v.Issued token :=
  h.mono hRely.asked hRely.responses

theorem World.Grants.rely {t : Text} (h : w.Grants t) (hRely : Rely O pid w v) : v.Grants t :=
  fun token hToken => (h token hToken).rely hRely

theorem World.Answers.mono {req : Request} {r : Response} (h : w.Answers req r)
    (hAsked : ∀ i req, w.asked i = some req → v.asked i = some req)
    (hResponses : ∀ i r, w.responses i = some r → v.responses i = some r) : v.Answers req r := by
  cases req with
  | route _ =>
    exact ⟨h.1, fun token hToken => (h.2 token hToken).mono hAsked hResponses⟩
  | upstream _ => exact h
  | api _ _ => trivial

theorem At.rely (h : At pid job w) (hRely : Rely O pid w v) : At pid job v where
  flight := by
    constructor
    · exact fun hFlight => h.flight.mp (hRely.flight hFlight)
    · intro hJob
      obtain hSame | ⟨ok, hSettled⟩ := hRely.current pid (h.flight.mpr hJob)
      · exact hSame
      · rw [hRely.outcome, h.unsettled] at hSettled
        cases hSettled
  unsettled := hRely.outcome.trans h.unsettled
  unanswered := hRely.answer.trans h.unanswered
  asked req := by
    rw [hRely.question]
    exact h.asked req

theorem At.named (h : At pid job w) : Named pid job w := ⟨h.flight.mp, fun req => (h.asked req).mp⟩

theorem Named.rely (h : Named pid job w) (hRely : Rely O pid w v) : Named pid job v := by
  refine ⟨fun hFlight => h.1 (hRely.flight hFlight), fun req hAsked => h.2 req ?_⟩
  rw [← hRely.question]
  exact hAsked

theorem Promise.rely {r : Except Exn Ret} (h : Promise O pid w r job) (hRely : Rely O pid w v) :
    Promise O pid v r job := by
  cases job with
  | flight =>
    obtain ⟨ok, hOk⟩ := h
    exact ⟨ok, hRely.settled pid ok hOk⟩
  | request opts =>
    obtain ⟨status, hCourse, hReports⟩ := h
    refine ⟨status, ?_, hReports⟩
    rw [hRely.steps]
    exact hCourse
  | handler req =>
    obtain ⟨a, hAnswer, hRefresh⟩ := h
    refine ⟨a, hRely.responses pid a hAnswer, fun token hReq hPair => ?_⟩
    obtain ⟨hDead, hPassed⟩ := hRefresh token hReq hPair
    exact ⟨hRely.auth.dead token hDead, hRely.auth.passed.trans hPassed⟩
  | _ => trivial

end

end LiveQuiz.Session
