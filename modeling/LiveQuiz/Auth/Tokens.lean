import LiveQuiz.Model.Runtime

/-! # `refresh` and `logout`

The revocation list is one Redis key for each revoked jti, with an expiry; the user is a
row of Postgres. Each call of a request is one command or one statement. Checking the
signature of a token and signing one belong to the JWT library.
-/

namespace LiveQuiz.Auth

open Coroutine

set_option autoImplicit false

inductive UserRole where
  | player | host | moderator | admin
  deriving DecidableEq, Repr

structure User where
  id : Id
  role : UserRole
  isActive : Bool
  deriving DecidableEq, Repr

/-- The claims of a refresh token; `exp` is in seconds. -/
structure Claims where
  sub : String
  jti : String
  type : String
  exp : Int
  deriving DecidableEq, Repr

structure TokenPair where
  accessToken : String
  refreshToken : String
  expiresIn : Nat
  deriving DecidableEq, Repr

/-- The JWT library with the two secrets, Python's `int`, and the access TTL. `verify` gives
the claims of a token that the refresh secret has signed: the generator draws each jti
once, so the jti tells the expiry. -/
structure Outside where
  verify : String → Option Claims
  jti_once : ∀ a b ca cb, verify a = some ca → verify b = some cb → ca.jti = cb.jti → ca.exp = cb.exp
  parseInt : String → Option Int
  signAccess : Id → UserRole → Id → Int → String
  signRefresh : Id → Id → Int → String
  accessTtlMin : Nat

inductive Job where
  | refresh (token : String)
  | logout (token : String)
  deriving DecidableEq, Repr

/-- `revoked` gives the time at which a key expires. `passed` is a history variable: the
refresh calls that have found their jti not revoked. -/
structure World where
  users : List User
  revoked : String → Option Micros
  now : Micros
  passed : Nat → Bool

inductive Op where
  | clock
  | exists' (key : String)
  | setEx (key : String) (ttl : Int)
  | getUser (id : Int)
  | nextId
  deriving DecidableEq, Repr

@[reducible] def Op.Res : Op → Type
  | .clock => Micros
  | .exists' _ => Bool
  | .getUser _ => Option User
  | .nextId => Id
  | .setEx _ _ => Unit

def Op.fallible : Op → Bool
  | .clock => false
  | _ => true

def micros (seconds : Int) : Micros := seconds * 1000000

/-- `int(time.time())`. -/
def seconds (t : Micros) : Int := t / 1000000

def World.holds (w : World) (key : String) : Bool := (w.revoked key).any (w.now < ·)

abbrev Answer (o : Op) := Outcome World Job (Except Exn o.Res)

def perform (w : World) (pid : Nat) : (o : Op) → Decision → Answer o
  | .clock, _ => ⟨w, .ok w.now, none⟩
  | .exists' k, _ =>
    ⟨{ w with passed := Function.update w.passed pid (w.passed pid || !w.holds k) }, .ok (w.holds k), none⟩
  | .setEx k ttl, _ =>
    ⟨{ w with revoked := Function.update w.revoked k (some (w.now + micros ttl)) }, .ok (), none⟩
  | .getUser i, _ => ⟨w, .ok (w.users.find? fun u => (u.id : Int) = i), none⟩
  | .nextId, d => ⟨w, .ok d.value, none⟩

def exec (w : World) (_ : Job) (pid _fresh : Nat) (o : Op) (d : Decision) : Option (Answer o) :=
  match d.fault with
  | .none => some (perform w pid o d)
  | .fail => if o.fallible then some ⟨w, .error .fault, none⟩ else none
  | .lost =>
    if o.fallible then some ⟨{ (perform w pid o d).shared with passed := w.passed }, .error .fault, none⟩
    else none

inductive EnvAction where
  | tick (dt : Nat)
  | request (job : Job)
  | putUser (user : User)
  deriving DecidableEq, Repr

def env (w : World) (_fresh : Nat) : EnvAction → Option (World × Option Job)
  | .tick dt => some ({ w with now := w.now + dt }, none)
  | .request j => some (w, some j)
  | .putUser u => some ({ w with users := w.users.filter (·.id ≠ u.id) ++ [u] }, none)

abbrev Coro := Prog Op Op.Res Exn

abbrev ask (o : Op) : Coro o.Res := Prog.perform o

def refreshType : String := "refresh"

def revokedKey (jti : String) : String := "auth:revoked:" ++ jti

def decodeToken (O : Outside) (token expectedType : String) : Coro Claims := do
  let now ← ask .clock
  let some claims := O.verify token
    | raise "AUTH_REQUIRED" 401 "invalid token"
  if micros claims.exp ≤ now then
    raise "AUTH_REQUIRED" 401 "token expired"
  if claims.type ≠ expectedType then
    raise "FORBIDDEN" 403 ("expected token type '" ++ expectedType ++ "'")
  return claims

/-- `revoke_jti` for the remaining lifetime of the token. -/
def revokeJti (claims : Claims) : Coro Unit := do
  let now ← ask .clock
  let ttlRemaining := max 1 (claims.exp - seconds now)
  ask (.setEx (revokedKey claims.jti) (max 1 ttlRemaining))

def buildPair (O : Outside) (user : User) : Coro TokenPair := do
  let accessJti ← ask .nextId
  let refreshJti ← ask .nextId
  let issuedAt ← ask .clock
  let reissuedAt ← ask .clock
  return ⟨O.signAccess user.id user.role accessJti (seconds issuedAt),
    O.signRefresh user.id refreshJti (seconds reissuedAt), O.accessTtlMin * 60⟩

def refresh (O : Outside) (token : String) : Coro (User × TokenPair) := do
  let claims ← decodeToken O token refreshType
  if ← ask (.exists' (revokedKey claims.jti)) then
    raise "AUTH_REQUIRED" 401 "token revoked"
  let some userId := O.parseInt claims.sub
    | raise "AUTH_REQUIRED" 401 "malformed token sub"
  let some user ← ask (.getUser userId)
    | raise "AUTH_REQUIRED" 401 "user not found or inactive"
  if !user.isActive then
    raise "AUTH_REQUIRED" 401 "user not found or inactive"
  revokeJti claims
  let pair ← buildPair O user
  return (user, pair)

/-- `except AuthError: return`. -/
def logout (O : Outside) (token : String) : Coro Unit := do
  let claims ← Prog.handle (some <$> decodeToken O token refreshType) fun
    | .auth _ _ _ _ => return none
    | e => throw e
  match claims with
  | none => return
  | some claims => revokeJti claims

inductive Ret where
  | rotated (user : User) (pair : TokenPair)
  | loggedOut
  deriving DecidableEq, Repr

def jobBody (O : Outside) : Job → Coro Ret
  | .refresh token => (fun r => .rotated r.1 r.2) <$> refresh O token
  | .logout token => (fun _ => .loggedOut) <$> logout O token

def auth (O : Outside) : Machine World Op Op.Res Exn Ret Job Decision EnvAction where
  exec := exec
  env := env
  body := jobBody O

abbrev SysState := State World Op Op.Res Exn Ret Job

abbrev SysLabel := Label Decision EnvAction

def initial (users : List User) : SysState where
  shared := { users := users, revoked := fun _ => none, now := 0, passed := fun _ => false }
  procs := []

end LiveQuiz.Auth
