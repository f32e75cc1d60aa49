import LiveQuiz.Auth.Tokens

/-! # The world of a browser session

One tab of the browser, the `/session/*` route handlers on the frontend's server and the
authentication endpoints of the API behind them. Every request over the network is a
program that answers in the end, and every call of the auth store or the REST client is
one in the tab, which goes on between two awaits without interruption. What the other
endpoints of the API answer is the scheduler's.
-/

namespace LiveQuiz.Session

open Coroutine
open LiveQuiz.Auth (User)

set_option autoImplicit false

inductive AuthMode where
  | access | participant | none
  deriving DecidableEq, Repr

structure RequestOptions where
  method : String := "GET"
  path : String
  auth : AuthMode := .access
  participantToken : Option String := none
  requestId : Option String := none
  deriving DecidableEq, Repr

/-- A string that JavaScript takes for true. -/
def truthy (s : Option String) : Option String := s.filter (· ≠ "")

/-- The token of the `Authorization` header. -/
def RequestOptions.authorization (opts : RequestOptions) (accessToken : Option String) : Option String :=
  match opts.auth with
  | .access => truthy accessToken
  | .participant => truthy opts.participantToken
  | .none => none

/-- A request to a route handler; the browser attaches the cookie. -/
inductive Route where
  | login (email password : String)
  | refresh (cookie : Option String)
  | logout (cookie authorization : Option String)
  deriving DecidableEq, Repr

/-- A request of a route handler to the API. -/
inductive Upstream where
  | login (email password : String)
  | refresh (refreshToken : String)
  | logout (refreshToken authorization : String)
  deriving DecidableEq, Repr

inductive Request where
  | route (r : Route)
  | upstream (u : Upstream)
  | api (opts : RequestOptions) (authorization : Option String)
  deriving DecidableEq, Repr

structure ErrorBody where
  code : Option String
  message : Option String
  details : Option (List (String × String)) := none
  deriving DecidableEq, Repr

/-- A JSON object, by the keys that are read here. -/
structure Body where
  accessToken : Option String := none
  refreshToken : Option String := none
  expiresIn : Option Nat := none
  error : Option ErrorBody := none
  user : Option User := none
  deriving DecidableEq, Repr

inductive Text where
  | empty
  | json (body : Body)
  | other
  deriving DecidableEq, Repr

def Text.accessToken : Text → Option String
  | .json body => body.accessToken
  | _ => none

def Text.refreshToken : Text → Option String
  | .json body => body.refreshToken
  | _ => none

/-- `setCookie` sets the refresh cookie or clears it. The reason phrase is the transport's. -/
structure Response where
  status : Nat
  text : Text
  setCookie : Option (Option String)
  statusText : String := ""
  deriving DecidableEq, Repr

def Response.ok (r : Response) : Bool := 200 ≤ r.status && r.status < 300

inductive AuthStatus where
  | idle | loading | authed | anon
  deriving DecidableEq, Repr

structure AuthState where
  accessToken : Option String
  user : Option User
  status : AuthStatus
  deriving DecidableEq, Repr

def AuthState.anon : AuthState := ⟨none, none, .anon⟩

/-- What the login endpoint knows of a user besides the row. -/
structure Account where
  email : String
  passwordHash : String
  userId : Id
  deriving DecidableEq, Repr

inductive Job where
  | hydrate
  | login (email password : String)
  | register (email password displayName : String)
  | logout
  | request (opts : RequestOptions)
  | flight
  | handler (req : Request)
  deriving DecidableEq, Repr

/-- What a page of the app can call. -/
def Job.ofPage : Job → Bool
  | .flight | .handler _ => false
  | _ => true

/-- A step of a request as the caller sees it. -/
inductive Step where
  | sent (auth : AuthMode) (authorization : Option String)
  | got (status : Nat)
  | refreshed (ok : Bool)
  deriving DecidableEq, Repr

/-- `refreshInFlight` is the program of the refresh, `settled` the outcome of each,
`responses` what each handler has answered. The last three are history variables: which
request a handler answers, whose answer a program waits for, and the steps of its
requests. -/
structure World where
  auth : Auth.World
  accounts : List Account
  cookie : Option String
  store : AuthState
  refreshInFlight : Option Nat
  settled : Nat → Option Bool
  responses : Nat → Option Response
  asked : Nat → Option Request
  awaiting : Nat → Option Nat
  trace : Nat → List Step

structure ApiError where
  code : String
  message : String
  status : Nat
  details : Option (List (String × String))
  deriving DecidableEq, Repr

/-- `server` is raised on the API's side, `network` by `fetch` and by the reading of a
body, `syntaxError` by the parsing of one. -/
inductive Exn where
  | server (e : LiveQuiz.Exn)
  | api (e : ApiError)
  | network
  | syntaxError
  deriving DecidableEq, Repr

/-- `bffPost` calls of the tab. -/
inductive Post where
  | login (email password : String)
  | refresh
  | logout
  deriving DecidableEq, Repr

inductive Op where
  | bffPost (p : Post)
  | send (opts : RequestOptions)
  | upstream (u : Upstream)
  | response (handler : Nat)
  | text (r : Response)
  | reply (r : Response)
  | beginHydrate
  | refreshAccess
  | flight (k : Nat)
  | finishRefresh (data : Option Body)
  | setAnon
  | setStatusAnon
  | setToken (accessToken : Option String)
  | setUser (user : Option User)
  | auth (o : Auth.Op)
  | rateAcquire
  | getByEmail (email : String)
  | isAccessRevoked (key : String)
  | endpoint (opts : RequestOptions) (authorization : Option String)
  deriving DecidableEq, Repr

@[reducible] def Op.Res : Op → Type
  | .bffPost _ | .send _ | .upstream _ | .refreshAccess => Nat
  | .response _ | .endpoint _ _ => Response
  | .text _ => Text
  | .beginHydrate | .flight _ | .isAccessRevoked _ => Bool
  | .auth o => o.Res
  | .rateAcquire => Bool × Nat
  | .getByEmail _ => Option (User × String)
  | _ => Unit

/-- `statusText` is the reason phrase that comes with a response, `rate` the verdict of the
rate limiter, `response` what an endpoint answers. -/
structure Decision where
  fault : Fault := .none
  value : Nat := 0
  statusText : String := ""
  rate : Bool × Nat := (true, 0)
  response : Response := ⟨200, .empty, none, ""⟩
  deriving DecidableEq, Repr

abbrev Answer (o : Op) := Outcome World Job (Except Exn o.Res)

namespace World

/-- A request is on its way to a handler of its own. -/
def dispatch (w : World) (pid fresh : Nat) (req : Request) : World :=
  { w with
    asked := Function.update w.asked fresh (some req)
    awaiting := Function.update w.awaiting pid (some fresh) }

def note (w : World) (pid : Nat) (s : Step) : World :=
  { w with trace := Function.update w.trace pid (w.trace pid ++ [s]) }

/-- The response has arrived, and the browser has taken its cookie. -/
def arrive (w : World) (pid : Nat) (r : Response) : World :=
  { w with
    cookie := r.setCookie.getD w.cookie
    awaiting := Function.update w.awaiting pid none }

def settle (w : World) (pid : Nat) (ok : Bool) : World :=
  { w with
    refreshInFlight := none
    settled := Function.update w.settled pid (some ok) }

/-- The request behind a `bffPost`. -/
def route (w : World) : Post → Route
  | .login email password => .login email password
  | .refresh => .refresh w.cookie
  | .logout => .logout w.cookie (truthy w.store.accessToken)

def byEmail (w : World) (email : String) : Option (User × String) := do
  let account ← w.accounts.find? (·.email = email)
  let user ← w.auth.users.find? (·.id = account.userId)
  return (user, account.passwordHash)

end World

def failed (w : World) (o : Op) : Answer o := ⟨w, .error .network, none⟩

def broken (w : World) (o : Op) : Answer o := ⟨w, .error (.server .fault), none⟩

/-- A `response` waits for the handler, and can be lost at any time; a request can fail
before it is sent. -/
def exec (w : World) (_ : Job) (pid fresh : Nat) (o : Op) (d : Decision) : Option (Answer o) :=
  match o with
  | .bffPost p =>
    if d.fault = .none then
      some ⟨w.dispatch pid fresh (.route (w.route p)), .ok fresh, some (.handler (.route (w.route p)))⟩
    else some (failed w _)
  | .send opts =>
    let authorization := opts.authorization w.store.accessToken
    if d.fault = .none then
      some ⟨(w.dispatch pid fresh (.api opts authorization)).note pid (.sent opts.auth authorization), .ok fresh,
        some (.handler (.api opts authorization))⟩
    else some (failed w _)
  | .upstream u =>
    if d.fault = .none then
      some ⟨w.dispatch pid fresh (.upstream u), .ok fresh, some (.handler (.upstream u))⟩
    else some (failed w _)
  | .response h =>
    if d.fault = .none then
      (w.responses h).map fun r => ⟨(w.arrive pid r).note pid (.got r.status),
        .ok { r with statusText := d.statusText }, none⟩
    else some (failed { w with awaiting := Function.update w.awaiting pid none } _)
  | .text r => if d.fault = .none then some ⟨w, .ok r.text, none⟩ else some (failed w _)
  | .reply r =>
    some ⟨{ w with responses := Function.update w.responses pid (some r) }, .ok (), none⟩
  | .beginHydrate =>
    if w.store.status = .authed then some ⟨w, .ok false, none⟩
    else some ⟨{ w with store := { w.store with status := .loading } }, .ok true, none⟩
  | .refreshAccess =>
    match w.refreshInFlight with
    | some k => some ⟨w, .ok k, none⟩
    | none => some ⟨{ w with refreshInFlight := some fresh }, .ok fresh, some .flight⟩
  | .flight k => (w.settled k).map fun ok => ⟨w.note pid (.refreshed ok), .ok ok, none⟩
  | .finishRefresh none => some ⟨{ w with store := .anon }.settle pid false, .ok (), none⟩
  | .finishRefresh (some data) =>
    some ⟨{ w with store := { w.store with accessToken := data.accessToken } }.settle pid true, .ok (), none⟩
  | .setAnon => some ⟨{ w with store := .anon }, .ok (), none⟩
  | .setStatusAnon => some ⟨{ w with store := { w.store with status := .anon } }, .ok (), none⟩
  | .setToken token => some ⟨{ w with store := { w.store with accessToken := token } }, .ok (), none⟩
  | .setUser user =>
    some ⟨{ w with store := { w.store with user := user, status := .authed } }, .ok (), none⟩
  | .auth o =>
    (Auth.exec w.auth (.logout "") pid fresh o ⟨d.fault, d.value⟩).map fun out =>
      ⟨{ w with auth := out.shared }, out.result.mapError .server, none⟩
  | .rateAcquire => if d.fault = .none then some ⟨w, .ok d.rate, none⟩ else some (broken w _)
  | .getByEmail email =>
    if d.fault = .none then some ⟨w, .ok (w.byEmail email), none⟩ else some (broken w _)
  | .isAccessRevoked key =>
    if d.fault = .none then some ⟨w, .ok (w.auth.holds key), none⟩ else some (broken w _)
  | .endpoint _ _ => some ⟨w, .ok { d.response with setCookie := none }, none⟩

inductive EnvAction where
  | tick (dt : Nat)
  | putUser (user : User)
  | putAccount (account : Account)
  | dropCookie
  | act (job : Job)
  deriving DecidableEq, Repr

def env (w : World) (_fresh : Nat) : EnvAction → Option (World × Option Job)
  | .tick dt => some ({ w with auth := { w.auth with now := w.auth.now + dt } }, none)
  | .putUser user =>
    some ({ w with auth := { w.auth with users := w.auth.users.filter (·.id ≠ user.id) ++ [user] } }, none)
  | .putAccount account => some ({ w with accounts := w.accounts ++ [account] }, none)
  | .dropCookie => some ({ w with cookie := none }, none)
  | .act job => if job.ofPage then some (w, some job) else none

end LiveQuiz.Session
