import ContentModeration.Framework.Pool
import ContentModeration.Impl.World

/-!
# The rate limit

`app.rate_limit`: the tenant of a call, the fixed windows, and
`check_tenant_rate_limit`, which counts the calls of a tenant in a window in a
key of Redis. `rateLimiter` is the pool of these calls of one deployment. The
clock read, the INCR and the EXPIRE are separate requests, each of which may
fail, and keys vanish when their time is up. The API and Redis share one clock;
`int(time.time())` is its number of seconds.
-/

namespace CM

/-! ## Tenants -/

/-- A letter or a digit of ASCII. -/
def isAsciiAlnum (c : Char) : Bool :=
  ('a' ≤ c && c ≤ 'z') || ('A' ≤ c && c ≤ 'Z') || ('0' ≤ c && c ≤ '9')

/-- What the pattern of tenants matches as a whole. -/
def tenantMatches : List Char → Bool
  | [] => false
  | c :: cs => isAsciiAlnum c && decide (cs.length ≤ 63) &&
      cs.all fun d => isAsciiAlnum d || d = '.' || d = '_' || d = '-'

/-- `_TENANT_RE.match(value)`: `$` also matches before a newline at the end. -/
def tenantReMatch (cs : List Char) : Bool :=
  tenantMatches cs || cs.getLast? = some '\n' && tenantMatches cs.dropLast

def normalizeTenantId (raw : Option String) (default : String) : String :=
  match raw with
  | none => default
  | some raw =>
    let value := strip raw
    if tenantReMatch value.toList then value else default

/-! ## Windows -/

structure RateLimitDecision where
  allowed : Bool
  limit : Int
  remaining : Int
  retryAfter : Int
  resetAt : Int
  count : Int
  deriving DecidableEq

/-- `max(1, window_seconds)`. -/
def windowLength (windowSeconds : Int) : Nat := (max 1 windowSeconds).toNat

def evaluateFixedWindow (count limit windowSeconds : Int) (now : Nat) : RateLimitDecision :=
  if limit ≤ 0 then
    { allowed := true, limit := 0, remaining := 0, retryAfter := 0, resetAt := 0, count }
  else
    let window : Int := windowLength windowSeconds
    let resetAt := ((now : Int) / window + 1) * window
    let retryAfter := max 1 (resetAt - now)
    let allowed := decide (count ≤ limit)
    { allowed
      limit
      remaining := if allowed then max 0 (limit - count) else 0
      retryAfter := if allowed then 0 else retryAfter
      resetAt
      count }

/-- The key of a tenant's window. -/
def bucketKey (tenantId : String) (bucket : Nat) : String := "ratelimit:tenant:" ++ tenantId ++ ":" ++ toString bucket

/-- `_window_key`. -/
def windowKey (tenantId : String) (windowSeconds : Int) (now : Nat) : String :=
  bucketKey tenantId (now / windowLength windowSeconds)

/-! ## The calls -/

inductive RateCmd where
  | time
  | incr (key : String)
  | expire (key : String) (ttl : Nat)
  deriving DecidableEq

@[reducible] def RateCmd.Ans : RateCmd → Type
  | .time | .incr _ => Nat
  | .expire .. => Unit

abbrev rateIface : Iface := ⟨RateCmd, RateCmd.Ans⟩

def checkTenantRateLimit (tenantId : String) (limit windowSeconds : Int) : Prog rateIface Exn RateLimitDecision :=
  if limit ≤ 0 then pure (evaluateFixedWindow 0 0 windowSeconds 0)
  else do
    let now : Nat ← Prog.perform (I := rateIface) .time
    let key := windowKey tenantId windowSeconds now
    let count : Nat ← Prog.perform (I := rateIface) (.incr key)
    if count = 1 then
      let _ ← Prog.perform (I := rateIface) (.expire key (windowLength windowSeconds))
      return evaluateFixedWindow count limit windowSeconds now
    else return evaluateFixedWindow count limit windowSeconds now

/-! ## Redis -/

/-- The value of a key, and the end of its time to live once that is set. -/
structure Counter where
  value : Nat
  deadline : Option Time := none
  deriving DecidableEq

structure Counters where
  now : Time
  keys : String → Option Counter := fun _ => none

namespace Counters

variable (s : Counters)

def set (key : String) (c : Option Counter) : Counters := { s with keys := Function.update s.keys key c }

def value (key : String) : Nat := ((s.keys key).map (·.value)).getD 0

def incr (key : String) : Counters :=
  s.set key (some ⟨s.value key + 1, (s.keys key).bind (·.deadline)⟩)

/-- A key that is not there has no time to live. -/
def expire (key : String) (ttl : Nat) : Counters :=
  s.set key ((s.keys key).map fun c => { c with deadline := some (s.now + seconds ttl) })

/-- The key vanishes if its time is up. -/
def vanish (key : String) : Counters :=
  s.set key ((s.keys key).filter fun c => c.deadline.all fun d => decide (s.now < d))

/-- Time passes, and the keys whose time is up vanish. -/
def tick (d : Nat) : Counters where
  now := s.now + d
  keys key := (s.keys key).filter fun c => c.deadline.all fun t => decide (s.now + d ≤ t)

/-- The request takes effect, giving `s'`, and answers `a`, unless it fails. -/
def answer {α : Type} (fault : Fault) (a : α) (s' : Counters) : Except Exn α × Counters :=
  match fault with
  | .none => (.ok a, s')
  | .before text => (.error (.error text), s)
  | .after text => (.error (.error text), s')

def exec (q : RateCmd) (fault : Fault) : Except Exn q.Ans × Counters :=
  match q with
  | .time => (.ok (s.now / 1000000), s)
  | .incr key => s.answer fault (s.value key + 1) (s.incr key)
  | .expire key ttl => s.answer fault () (s.expire key ttl)

end Counters

inductive RateEvent where
  | tick (d : Nat)
  | vanish (key : String)

/-- The calls of `check_tenant_rate_limit` of a deployment, each with the tenant
header of its request. -/
def rateLimiter (defaultTenantId : String) (limit windowSeconds : Int) : Pool rateIface Exn where
  World := Counters
  Pick := Fault
  Env := RateEvent
  Entry := Option String
  Out := RateLimitDecision
  exec _ q fault s := some (s.exec q fault)
  env e s := match e with
    | .tick d => some (s.tick d)
    | .vanish key => some (s.vanish key)
  crash _ s := s
  code raw := checkTenantRateLimit (normalizeTenantId raw defaultTenantId) limit windowSeconds

/-- The system before its first call. -/
def rateBoot (defaultTenantId : String) (limit windowSeconds : Int) (now : Time) :
    (rateLimiter defaultTenantId limit windowSeconds).Config := ⟨{ now }, fun _ => none⟩

end CM
