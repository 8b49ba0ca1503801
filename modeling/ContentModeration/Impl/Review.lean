import ContentModeration.Impl.Pipeline

/-!
# The review queue

`app.routes.review`, `app.review_claims` and the review locks of
`app.redis_client`. A claim is held twice, by a key of Redis with a time to
live and by the row's `claim_expires_at`; `releaseExpiredClaims` returns rows
whose time is up to the queue.
-/

namespace CM

/-- `CLAIM_TTL_SECONDS`. -/
def claimTtlSeconds : Nat := 15 * 60

/-- How `RELEASE_EXPIRED_CLAIMS_SQL` is executed: at once, or as under READ
COMMITTED, where other statements may come between the reading of the snapshot
and the update of the rows. -/
inductive Isolation where
  | atomic
  | readCommitted
  deriving DecidableEq

/-! ## The lock -/

/-- `_claim_key`. -/
def claimKey (reviewId : String) : String := "claim:" ++ reviewId

/-- `acquire_review_claim`: whether the reviewer owns the lock, and the owner. -/
def acquireReviewClaim (reviewId reviewer : String) (ttlSeconds : Nat) : M (Bool × Option String) := do
  let key := claimKey reviewId
  let refresh (current : Option String) : M (Bool × Option String) := do
    if current = some reviewer then
      let _ ← request (.redisExpire key ttlSeconds)
      return (true, some reviewer)
    else return (false, current)
  let current : Option String ← request (.redisGet key)
  if current = none then
    let acquired : Bool ← request (.redisSetNx key reviewer ttlSeconds)
    if acquired then return (true, some reviewer)
    else
      let current : Option String ← request (.redisGet key)
      refresh current
  else refresh current

/-- `release_review_claim`. -/
def releaseReviewClaim (reviewId reviewer : String) : M Unit := do
  let key := claimKey reviewId
  let current : Option String ← request (.redisGet key)
  if current = some reviewer then request (.redisDel key)
  else return ()

/-- `get_review_claim_owner`. -/
def getReviewClaimOwner (reviewId : String) : M (Option String) := request (.redisGet (claimKey reviewId))

/-! ## Expired claims -/

/-- `is_claim_expired`. -/
def isClaimExpired (status : ReviewStatus) (claimExpiresAt : Option Time) (now : Time) : Bool :=
  if status ≠ .claimed then false
  else match claimExpiresAt with
    | none => true
    | some t => decide (t ≤ now)

/-- `claim_is_active`. -/
def claimIsActive (status : ReviewStatus) (claimExpiresAt : Option Time) (now : Time) : Bool :=
  decide (status = .claimed) && !isClaimExpired status claimExpiresAt now

def claimDetail : Jsonb := .dumps (.obj [("claim_ttl_seconds", .int claimTtlSeconds)])

/-- One 'claim_expired' audit row for each released claim. -/
def auditReleased : List (Uuid × Option String) → M Unit
  | [] => return ()
  | (reviewId, claimedBy) :: rows => do
    let actor := (claimedBy.filter (· ≠ "")).getD "system"
    let _ ← sql (.insertAudit ⟨"review", reviewId, "claim_expired", actor, claimDetail⟩)
    auditReleased rows

/-- `RELEASE_EXPIRED_CLAIMS_SQL` with `$1 = now`. -/
def releaseRows (isolation : Isolation) (now : Time) : M (List (Uuid × Option String)) :=
  match isolation with
  | .atomic => sql (.releaseExpired now)
  | .readCommitted => do
    let expired ← sql (.selectExpired now)
    sql (.releaseRows expired now)

def releaseExpiredClaims (isolation : Isolation) (now : Time) : M (List (Uuid × Option String)) := do
  let rows ← releaseRows isolation now
  auditReleased rows
  return rows

/-! ## The routes -/

/-- `schemas.ReviewItemOut`. -/
structure ReviewItemOut where
  id : Uuid
  decisionId : Uuid
  contentId : Uuid
  jobId : Uuid
  status : ReviewStatus
  priority : Nat
  claimedBy : Option String
  claimedAt : Option Time
  claimExpiresAt : Option Time
  createdAt : Time
  decision : Decision
  confidence : Rat
  reasons : List String
  visionSignals : VisionSignals
  llmSignals : LlmSignals
  caption : String
  imageUrl : String
  contentType : String
  deriving DecidableEq

/-- `schemas.ClaimRequest`. -/
structure ClaimRequest where
  reviewer : String
  reviewer_min : 1 ≤ reviewer.length
  reviewer_max : reviewer.length ≤ 128

/-- `schemas.ResolveRequest`. -/
structure ResolveRequest where
  reviewer : String
  reviewerDecision : ReviewerDecision
  notes : String
  reviewer_min : 1 ≤ reviewer.length
  reviewer_max : reviewer.length ≤ 128
  notes_max : notes.length ≤ 4000

/-- The query of `GET /v1/reviews`. -/
structure ListRequest where
  status : Option String := some "pending"
  limit : Nat := 50
  limit_ge : 1 ≤ limit
  limit_le : limit ≤ 200

/-- `_row_to_review`. -/
def rowToReview (row : ReviewFull) : M ReviewItemOut := do
  let imageUrl ← request (.signedUrl row.content.objectKey)
  return {
    id := row.review.id
    decisionId := row.review.decisionId
    contentId := row.review.contentId
    jobId := row.review.jobId
    status := row.review.status
    priority := row.review.priority
    claimedBy := row.review.claimedBy
    claimedAt := row.review.claimedAt
    claimExpiresAt := row.review.claimExpiresAt
    createdAt := row.review.createdAt
    decision := row.decision.envelope.decision
    confidence := row.decision.envelope.confidence
    reasons := row.decision.envelope.reasons
    visionSignals := row.decision.envelope.vision
    llmSignals := row.decision.envelope.llm
    caption := row.content.caption
    imageUrl
    contentType := row.content.contentType }

/-- `_row_to_review` of the row of a `fetchrow`. -/
def fullToReview : Option ReviewFull → M ReviewItemOut
  | some row => rowToReview row
  | none => throw (.error "'NoneType' object is not subscriptable")

def rowsToReviews : List ReviewFull → M (List ReviewItemOut)
  | [] => return []
  | row :: rows => do
    let item ← rowToReview row
    let items ← rowsToReviews rows
    return item :: items

def listReviews (isolation : Isolation) (req : ListRequest) : M (List ReviewItemOut) := do
  let _ ← request .connect
  let now : Time ← request .utcnow
  let _ ← releaseExpiredClaims isolation now
  match req.status.filter (· ≠ "") with
  | some status =>
    let rows ← sql (.reviewsByStatus status req.limit)
    rowsToReviews rows
  | none =>
    let rows ← sql (.reviewsNewest req.limit)
    rowsToReviews rows

def heldByOther (owner : Option String) : Exn :=
  .httpException 409 ("Review claimed by another reviewer (" ++ owner.getD "None" ++ ")")

/-- `claim_review` when the row could not be claimed. -/
def refuseClaim (reviewId : Uuid) (reviewer : String) : M ReviewItemOut := do
  releaseReviewClaim reviewId.str reviewer
  match ← sql (.reviewStatus reviewId) with
  | none => throw (.httpException 404 "Review not found")
  | some (status, claimedBy) =>
    throw (.httpException 409 ("Review not claimable (status=" ++ status.str ++ ", claimed_by=" ++
      claimedBy.getD "None" ++ ")"))

def claimReview (isolation : Isolation) (reviewId : Uuid) (body : ClaimRequest) : M ReviewItemOut := do
  let now : Time ← request .utcnow
  let expires := now + seconds claimTtlSeconds
  let (ok, owner) ← acquireReviewClaim reviewId.str body.reviewer claimTtlSeconds
  if ok then
    let _ ← request .connect
    let _ ← releaseExpiredClaims isolation now
    match ← sql (.claimReview reviewId body.reviewer now expires) with
    | none => refuseClaim reviewId body.reviewer
    | some _ =>
      let full ← sql (.reviewFull reviewId)
      let _ ← sql (.insertAudit ⟨"review", reviewId, "claimed", body.reviewer, claimDetail⟩)
      fullToReview full
  else throw (heldByOther owner)

/-- `reviewer_decision != model_decision`. -/
def isOverride (decision : ReviewerDecision) (model : Decision) : Bool := decision.value ≠ model.value

def ReviewerDecision.status : ReviewerDecision → ReviewStatus
  | .allow => .approved
  | .block => .rejected

/-- The audit detail of a resolved review. -/
def resolvedDetail (body : ResolveRequest) (model : Decision) (notes : String) : Json :=
  .obj [("reviewer_decision", .str body.reviewerDecision.value), ("model_decision", .str model.value),
    ("override", .bool (isOverride body.reviewerDecision model)), ("notes", .str notes),
    ("status", .str body.reviewerDecision.status.str)]

/-- `resolve_review` once the lock is found to be the reviewer's. -/
def resolveLocked (reviewId : Uuid) (body : ResolveRequest) (now : Time) : M ReviewItemOut := do
  let notes := strip body.notes
  let status := body.reviewerDecision.status
  let _ ← request .connect
  match ← sql (.modelDecision reviewId) with
  | none => throw (.httpException 404 "Review not found")
  | some model =>
    if isOverride body.reviewerDecision model && decide (notes.length < 3) then
      throw (.httpException 400 "notes required when overriding the model decision")
    else
      match ← sql (.resolveReview reviewId status body.reviewerDecision notes body.reviewer now) with
      | none => throw (.httpException 409 "Review must be claimed by this reviewer before resolve")
      | some _ =>
        let _ ← sql (.insertAudit
          ⟨"review", reviewId, "resolved", body.reviewer, .dumps (resolvedDetail body model notes)⟩)
        let full ← sql (.reviewFull reviewId)
        releaseReviewClaim reviewId.str body.reviewer
        fullToReview full

def resolveReview (reviewId : Uuid) (body : ResolveRequest) : M ReviewItemOut := do
  let now : Time ← request .utcnow
  match ← getReviewClaimOwner reviewId.str with
  | none => throw (.httpException 409 "Claim lock expired — re-claim before resolving")
  | some owner =>
    if owner ≠ body.reviewer then throw (heldByOther (some owner))
    else resolveLocked reviewId body now

end CM
