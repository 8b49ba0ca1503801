import ContentModeration.Impl.Ingest
import ContentModeration.Impl.Redrive
import ContentModeration.Impl.Review
import ContentModeration.Impl.Worker

/-!
# The services together

`service` is the pool of every call of the API, the worker and the redrive
script, over the world of `World.lean`. `lockService` is the pool of calls of
the review lock by themselves, where keys vanish only when their time is up.
-/

namespace CM

/-- What a deployment settles. -/
structure Deployment where
  sha256 : Digest
  isolation : Isolation := .atomic
  /-- The messages that the queue takes. -/
  takes : RawBody → List (String × String) → Bool := fun _ _ => true

/-- The calls that can be started. -/
inductive Entry where
  | acceptImage (settings : ApiSettings) (req : IngestRequest)
  | handleMessage (settings : WorkerSettings) (body : Json)
  | pollSqs (settings : WorkerSettings) (rounds : Nat)
  | pollPubsub (settings : WorkerSettings) (rounds : Nat)
  | redrive (args : RedriveArgs)
  | listReviews (req : ListRequest)
  | claimReview (reviewId : Uuid) (body : ClaimRequest)
  | resolveReview (reviewId : Uuid) (body : ResolveRequest)

inductive Out where
  | accepted (response : IngestResponse)
  | done
  | report (r : RedriveReport)
  | reviews (items : List ReviewItemOut)
  | review (item : ReviewItemOut)

def Entry.code (D : Deployment) : Entry → M Out
  | .acceptImage settings req => do return .accepted (← CM.acceptImage D.sha256 settings req)
  | .handleMessage settings body => do CM.handleMessage settings body; return .done
  | .pollSqs settings rounds => do CM.pollSqs settings rounds; return .done
  | .pollPubsub settings rounds => do CM.pollPubsub settings rounds; return .done
  | .redrive args => do return .report (← CM.redrive args)
  | .listReviews req => do return .reviews (← CM.listReviews D.isolation req)
  | .claimReview reviewId body => do return .review (← CM.claimReview D.isolation reviewId body)
  | .resolveReview reviewId body => do return .review (← CM.resolveReview reviewId body)

/-- The services of a deployment. -/
def service (D : Deployment) : Pool iface Exn where
  World := World
  Pick := Pick
  Env := Event
  Entry := Entry
  Out := Out
  exec := World.exec
  env := World.event
  crash := World.crash
  code := Entry.code D

/-- The system before its first call, with empty stores. -/
def boot (D : Deployment) (now : Time) : (service D).Config := ⟨{ now, takes := D.takes }, fun _ => none⟩

/-! ## The review lock by itself -/

inductive LockEntry where
  | acquire (reviewer : String) (ttlSeconds : Nat)
  | release (reviewer : String)
  deriving DecidableEq

inductive LockEvent where
  | tick (d : Nat)
  | expire

/-- The calls of `acquire_review_claim` and `release_review_claim` on one review. -/
def lockService (reviewId : String) : Pool iface Exn where
  World := World
  Pick := Pick
  Env := LockEvent
  Entry := LockEntry
  Out := Option (Bool × Option String)
  exec := World.exec
  env e s := match e with
    | .tick d => some (s.tick d)
    | .expire =>
      match s.redis.lookup (claimKey reviewId) with
      | some (_, deadline) => if deadline ≤ s.now then some (s.redisDel (claimKey reviewId)) else none
      | none => none
  crash := World.crash
  code e := match e with
    | .acquire reviewer ttlSeconds => do return some (← acquireReviewClaim reviewId reviewer ttlSeconds)
    | .release reviewer => do releaseReviewClaim reviewId reviewer; return none

end CM
