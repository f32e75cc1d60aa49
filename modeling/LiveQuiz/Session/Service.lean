import LiveQuiz.Session.World
import LiveQuiz.Lib.Embed

/-! # The auth store, the REST client, the route handlers and the endpoints

From the tab down: `useAuthStore` and `rawRequest`, the route handlers that keep the
refresh token in a cookie, and the login, refresh and logout endpoints of the API with the
envelope of their errors. `refresh` and `logout` of the API are the programs of the
authentication service.
-/

namespace LiveQuiz.Session

open Coroutine
open LiveQuiz.Auth (User Claims TokenPair)

set_option autoImplicit false

abbrev Coro := Prog Op Op.Res Exn

abbrev ask (o : Op) : Coro o.Res := Prog.perform o

/-- The JWT library with the access secret too, and the verification of passwords. -/
structure Outside extends Auth.Outside where
  verifyAccess : String → Option Claims
  access_jti_once : ∀ a b ca cb, verifyAccess a = some ca → verifyAccess b = some cb →
    ca.jti = cb.jti → ca.exp = cb.exp
  verifyPassword : String → String → Bool

/-- `decode_token` with the access secret. -/
def Outside.access (O : Outside) : Auth.Outside :=
  { O.toOutside with verify := O.verifyAccess, jti_once := O.access_jti_once }

def toServer : Exn → LiveQuiz.Exn
  | .server e => e
  | _ => .fault

/-- The programs of the authentication service run here. -/
def service : Embedding Auth.Op Auth.Op.Res LiveQuiz.Exn Op Op.Res Exn where
  op := .auth
  back _ r := r.mapError toServer
  err := .server

def raise {α : Type} (code : String) (status : Nat) (message : String)
    (details : List (String × String) := []) : Coro α :=
  throw (.server (.auth code status message details))

/-- `res.json()`. -/
def json (r : Response) : Coro Body := do
  match ← ask (.text r) with
  | .json body => return body
  | _ => throw .syntaxError

/-- `res.json()` with a fallback where it fails. -/
def jsonOr {α : Type} (f : Body → α) (fallback : α) (r : Response) : Coro α :=
  (f <$> json r).handle fun _ => return fallback

def errorJson (status : Nat) (code message : String) : Response :=
  ⟨status, .json { error := some ⟨some code, some message, none⟩ }, none, ""⟩

def apiError (status : Nat) (fallback : String) (error : Option ErrorBody) : ApiError where
  code := (error.bind (·.code)).getD ("HTTP_" ++ toString status)
  message := (error.bind (·.message)).getD fallback
  status := status
  details := error.bind (·.details)

/-- `readError` and `parseError`. -/
def readError (r : Response) (fallback : String) : Coro ApiError :=
  jsonOr (fun body => apiError r.status fallback body.error) (apiError r.status fallback none) r

section

variable (O : Outside)

def accessType : String := "access"

def currentUser (authorization : String) : Coro User := do
  if authorization = "" then
    raise "AUTH_REQUIRED" 401 "missing bearer token"
  let claims ← service.prog (Auth.decodeToken O.access authorization accessType)
  if ← ask (.isAccessRevoked (Auth.revokedKey claims.jti)) then
    raise "AUTH_REQUIRED" 401 "token revoked"
  let some userId := O.parseInt claims.sub
    | raise "AUTH_REQUIRED" 401 "malformed token sub"
  let some user ← ask (.auth (.getUser userId))
    | raise "AUTH_REQUIRED" 401 "user not found or inactive"
  if !user.isActive then
    raise "AUTH_REQUIRED" 401 "user not found or inactive"
  return user

def loginUser (email password : String) : Coro (User × TokenPair) := do
  let (allowed, retryMs) ← ask .rateAcquire
  if !allowed then
    raise "RATE_LIMITED" 429 "too many login attempts" [("retry_after_ms", toString retryMs)]
  let some (user, passwordHash) ← ask (.getByEmail email)
    | raise "AUTH_REQUIRED" 401 "invalid credentials"
  if !user.isActive then
    raise "AUTH_REQUIRED" 401 "account disabled"
  if !O.verifyPassword password passwordHash then
    raise "AUTH_REQUIRED" 401 "invalid credentials"
  let pair ← service.prog (Auth.buildPair O.toOutside user)
  return (user, pair)

def defaultMessage (code : String) : String :=
  match code with
  | "AUTH_REQUIRED" => "Authentication required."
  | "FORBIDDEN" => "You do not have permission to perform this action."
  | "RATE_LIMITED" => "Too many requests."
  | "VALIDATION_ERROR" => "Request payload is invalid."
  | "INTERNAL_ERROR" => "Internal server error."
  | _ => ""

def envelope (code : String) (status : Nat) (message : String) (details : List (String × String)) :
    Response :=
  let message := if message = "" then defaultMessage code else message
  ⟨status, .json { error := some ⟨some code, some message, some details⟩ }, none, ""⟩

/-- `register_exception_handlers`. -/
def exceptionResponse : Exn → Response
  | .server (.auth code status message details) => envelope code status message details
  | _ => envelope "INTERNAL_ERROR" 500 "" []

def pairBody (pair : TokenPair) : Body where
  accessToken := some pair.accessToken
  refreshToken := some pair.refreshToken
  expiresIn := some pair.expiresIn

def pairResponse (pair : TokenPair) : Response := ⟨200, .json (pairBody pair), none, ""⟩

def upstreamBody : Upstream → Coro Response
  | .login email password => do
    let (_, pair) ← loginUser O email password
    return pairResponse pair
  | .refresh refreshToken => do
    let (_, pair) ← service.prog (Auth.refresh O.toOutside refreshToken)
    return pairResponse pair
  | .logout refreshToken authorization => do
    let _ ← currentUser O authorization
    service.prog (Auth.logout O.toOutside refreshToken)
    return ⟨204, .empty, none, ""⟩

/-- `fetch` of a route handler. -/
def fetch (u : Upstream) : Coro Response := do
  let handler ← ask (.upstream u)
  ask (.response handler)

/-- Nothing where the fetch raises. -/
def fetchUpstream (u : Upstream) : Coro (Option Response) :=
  Prog.handle (some <$> fetch u) fun _ => return none

def unavailable : Response := errorJson 502 "UPSTREAM_UNAVAILABLE" "Authentication service unavailable"

/-- The answer of the API without the refresh token, which goes into the cookie. -/
def granted (data : Body) : Response :=
  ⟨200, .json { accessToken := data.accessToken, expiresIn := data.expiresIn },
    data.refreshToken.map some, ""⟩

def loginRoute (email password : String) : Coro Response := do
  let some res ← fetchUpstream (.login email password) | return unavailable
  let data ← jsonOr id {} res
  if !res.ok then return ⟨res.status, .json data, none, ""⟩
  return granted data

def refreshRoute (cookie : Option String) : Coro Response := do
  let some refreshToken := truthy cookie
    | return errorJson 401 "AUTH_REQUIRED" "No active session"
  let some res ← fetchUpstream (.refresh refreshToken) | return unavailable
  let data ← jsonOr id {} res
  if !res.ok then return ⟨res.status, .json data, some none, ""⟩
  return granted data

def logoutRoute (cookie authorization : Option String) : Coro Response := do
  match truthy cookie, truthy authorization with
  | some refreshToken, some token => do
    let _ ← fetchUpstream (.logout refreshToken token)
    return ⟨204, .empty, some none, ""⟩
  | _, _ => return ⟨204, .empty, some none, ""⟩

def routeBody : Route → Coro Response
  | .login email password => loginRoute email password
  | .refresh cookie => refreshRoute cookie
  | .logout cookie authorization => logoutRoute cookie authorization

def handle : Request → Coro Response
  | .route r => routeBody r
  | .upstream u => (upstreamBody O u).handle fun e => return exceptionResponse e
  | .api opts authorization => ask (.endpoint opts authorization)

def handler (req : Request) : Coro Unit := do
  let r ← handle O req
  ask (.reply r)

end

def bffPost (p : Post) : Coro Response := do
  let handler ← ask (.bffPost p)
  ask (.response handler)

def refreshAccess : Coro Bool := do
  let k ← ask .refreshAccess
  ask (.flight k)

/-- The body of the promise that `refreshInFlight` holds. -/
def flight : Coro Unit := do
  let data ← Prog.handle (do
    let res ← bffPost .refresh
    if !res.ok then return none
    some <$> json res) fun _ => return none
  ask (.finishRefresh data)

def fetchApi (opts : RequestOptions) : Coro Response := do
  let handler ← ask (.send opts)
  ask (.response handler)

/-- The end of `rawRequest`. -/
def readResult (r : Response) : Coro (Option Body) := do
  if !r.ok then
    let e ← readError r r.statusText
    throw (.api e)
  if r.status = 204 then return none
  match ← ask (.text r) with
  | .empty => return none
  | .json body => return some body
  | .other => throw .syntaxError

def retryRequest (opts : RequestOptions) : Coro (Option Body) := do
  let r ← fetchApi opts
  readResult r

def apiRequest (opts : RequestOptions) : Coro (Option Body) := do
  let r ← fetchApi opts
  if r.status = 401 ∧ opts.auth = .access then
    if ← refreshAccess then
      return ← retryRequest opts
  readResult r

def fetchMe : Coro Unit := do
  let body ← apiRequest { path := "/me" }
  ask (.setUser (body.bind (·.user)))

def hydrate : Coro Unit := do
  if ← ask .beginHydrate then
    if ← refreshAccess then
      fetchMe.handle fun _ => ask .setAnon
    else
      ask .setStatusAnon

def login (email password : String) : Coro Unit := do
  let res ← bffPost (.login email password)
  if !res.ok then
    let e ← readError res "Login failed"
    throw (.api e)
  let data ← json res
  ask (.setToken data.accessToken)
  fetchMe

def register (email password : String) : Coro Unit := do
  let _ ← apiRequest { method := "POST", path := "/auth/register", auth := .none }
  login email password

def logout : Coro Unit := do
  Prog.handle ((fun _ => ()) <$> bffPost .logout) fun _ => return ()
  ask .setAnon

inductive Ret where
  | unit
  | payload (body : Option Body)
  deriving DecidableEq, Repr

def jobBody (O : Outside) : Job → Coro Ret
  | .hydrate => (fun _ => .unit) <$> hydrate
  | .login email password => (fun _ => .unit) <$> login email password
  | .register email password _ => (fun _ => .unit) <$> register email password
  | .logout => (fun _ => .unit) <$> logout
  | .request opts => .payload <$> apiRequest opts
  | .flight => (fun _ => .unit) <$> flight
  | .handler req => (fun _ => .unit) <$> handler O req

def session (O : Outside) : Machine World Op Op.Res Exn Ret Job Decision EnvAction where
  exec := exec
  env := env
  body := jobBody O

abbrev SysState := State World Op Op.Res Exn Ret Job

abbrev SysLabel := Label Decision EnvAction

def initial (users : List User) (accounts : List Account) : SysState where
  shared :=
    { auth := { users := users, revoked := fun _ => none, now := 0, passed := fun _ => false }
      accounts := accounts
      cookie := none
      store := ⟨none, none, .idle⟩
      refreshInFlight := none
      settled := fun _ => none
      responses := fun _ => none
      asked := fun _ => none
      awaiting := fun _ => none
      trace := fun _ => [] }
  procs := []

end LiveQuiz.Session
