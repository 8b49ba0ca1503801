import ContentModeration.Framework.JsonText
import ContentModeration.Impl.Database
import Mathlib.Data.List.Sort

/-!
# The SQL statements

Every statement of the services is a constructor of `Sql`, and `Sql.run` says
what it answers and what it writes, on the rows that it sees. A statement whose
parameter is a string cast to `uuid` raises if the driver cannot encode it; one
with a free text that has U+0000, or with a text for a `jsonb` column that is no
JSON, is refused (`Sql.execute`).

`RELEASE_EXPIRED_CLAIMS_SQL` is there twice: `releaseExpired` selects the
expired claims and updates them at once, while `selectExpired` and `releaseRows`
are the two halves that run under READ COMMITTED, where the rows selected from
the snapshot may have changed before they are updated. Each is one step, which
locks and writes all its rows together.
-/

namespace CM

/-- What the ingest statements select of a job. -/
structure JobRef where
  jobId : Uuid
  contentId : Uuid
  status : JobStatus
  deriving DecidableEq

def Job.ref (j : Job) : JobRef := ⟨j.id, j.contentId, j.status⟩

/-- `review_queue` joined with `decisions` and `content_items`. -/
structure ReviewFull where
  review : ReviewRow
  decision : DecisionRow
  content : ContentItem
  deriving DecidableEq

inductive Sql where
  -- ingest
  | existingJob (digest : String)
  | jobByHash (digest : String)
  | insertContent (row : ContentItem)
  | insertJob (id contentId : Uuid) (contentHash : String)
  | markEnqueueFailed (id : Uuid) (error : String)
  -- the worker
  | jobStatus (id : Uuid)
  | decisionId (jobId : Uuid)
  | decisionEnvelope (jobId : Uuid)
  | startProcessing (id : Uuid)
  | insertDecision (envelope : DecisionEnvelope)
  | markSucceeded (id : Uuid)
  | insertMetric (eventType : String) (payload : Json)
  | insertReview (decisionId contentId jobId : Uuid) (priority : Nat)
  | jobAttempts (id : Uuid)
  | markFailed (id : Uuid) (status : JobStatus) (error : String)
  -- the redrive
  | castJobStatus (id : String)
  | resetJob (id : String)
  | auditRedrive (id : String) (detail : Jsonb)
  -- reviews
  | releaseExpired (now : Time)
  | selectExpired (now : Time)
  | releaseRows (expired : List (Uuid × Option String)) (now : Time)
  | claimReview (id : Uuid) (reviewer : String) (now expires : Time)
  | reviewStatus (id : Uuid)
  | reviewFull (id : Uuid)
  | modelDecision (id : Uuid)
  | resolveReview (id : Uuid) (status : ReviewStatus) (decision : ReviewerDecision)
      (notes reviewer : String) (now : Time)
  | reviewsByStatus (status : String) (limit : Nat)
  | reviewsNewest (limit : Nat)
  -- all
  | insertAudit (row : AuditRow)

@[reducible] def Sql.Ans : Sql → Type
  | .existingJob _ | .jobByHash _ => Option JobRef
  | .jobStatus _ | .castJobStatus _ => Option JobStatus
  | .decisionId _ | .insertDecision _ | .resetJob _ | .claimReview .. | .resolveReview .. => Option Uuid
  | .decisionEnvelope _ => Option DecisionEnvelope
  | .jobAttempts _ => Option (Nat × Nat)
  | .releaseExpired _ | .selectExpired _ | .releaseRows .. => List (Uuid × Option String)
  | .reviewStatus _ => Option (ReviewStatus × Option String)
  | .reviewFull _ => Option ReviewFull
  | .modelDecision _ => Option Decision
  | .reviewsByStatus .. | .reviewsNewest _ => List ReviewFull
  | _ => Unit

namespace Database

variable (db : Database)

/-- `INSERT`, with the constraints that it checks. -/
def insert {α : Type} (w : Write) (a : α) : Except Exn (α × List Write) :=
  match w.keys.find? (· ∈ db.keys) with
  | some k => .error (uniqueViolation k)
  | none =>
    match w.missing db with
    | some e => .error e
    | none => .ok (a, [w])

/-- `UPDATE jobs SET … WHERE id = $1 AND …`. -/
def updateJobIf (id : Uuid) (p : Job → Bool) (u : JobUpdate) : List Write :=
  if (db.jobs.find? fun j => decide (j.id = id) && p j).isSome then [.updateJob id u] else []

/-- The `WHERE` clause of `RELEASE_EXPIRED_CLAIMS_SQL`. -/
def expiredClaims (now : Time) : List ReviewRow :=
  db.reviews.filter fun r =>
    decide (r.status = .claimed) && (r.claimExpiresAt.all fun t => decide (t < now))

/-- The joins of the review queries. -/
def joinReview (r : ReviewRow) : Option ReviewFull := do
  let d ← db.decision? r.decisionId
  let c ← db.content? r.contentId
  return ⟨r, d, c⟩

/-- `review_queue` joined with `decisions` and `content_items`, sorted by `le`. -/
def joinedReviews (p : ReviewRow → Bool) (le : ReviewRow → ReviewRow → Prop) [DecidableRel le]
    (limit : Nat) : List ReviewFull :=
  ((((db.reviews.filter p).insertionSort le).filterMap db.joinReview).take limit)

end Database

/-- The `WHERE` clause of the claim of a review. -/
def ReviewRow.claimable (r : ReviewRow) (reviewer : String) (now : Time) : Bool :=
  decide (r.status = .pending) ||
  (decide (r.status = .claimed) && r.claimExpiresAt.all fun t => decide (t < now)) ||
  (decide (r.status = .claimed) && decide (r.claimedBy = some reviewer))

/-- The driver's encoding of a string that is cast to `uuid`. -/
def castUuid (s : String) : Except Exn Uuid :=
  match Uuid.asyncpgUuid s with
  | some u => .ok u
  | none => .error (.error ("invalid input for query argument $1: '" ++ s ++ "' (invalid UUID)"))

/-- What a statement answers and writes: `now` is its `now()`, `fresh` its
`gen_random_uuid()`. -/
def Sql.run (db : Database) (now : Time) (fresh : Uuid) : (st : Sql) → Except Exn (st.Ans × List Write)
  | .existingJob digest => .ok (do
      let j ← db.jobByHash? digest
      let _ ← db.content? j.contentId
      return j.ref, [])
  | .jobByHash digest => .ok ((db.jobByHash? digest).map Job.ref, [])
  | .insertContent row => db.insert (.content row) ()
  | .insertJob id contentId contentHash =>
    db.insert (.job { id, contentId, contentHash, status := .queued, enqueuedAt := now }) ()
  | .markEnqueueFailed id error => .ok ((), db.updateJobIf id (fun _ => true) (.enqueueFailed error))
  | .jobStatus id => .ok ((db.job? id).map (·.status), [])
  | .decisionId jobId => .ok ((db.decisionOf? jobId).map (·.id), [])
  | .decisionEnvelope jobId => .ok ((db.decisionOf? jobId).map (·.envelope), [])
  | .startProcessing id => .ok ((), db.updateJobIf id (fun _ => true) (.processing now))
  | .insertDecision envelope =>
    -- ON CONFLICT (job_id) DO NOTHING
    if (db.decisionOf? envelope.jobId).isSome then .ok (none, [])
    else db.insert (.decision ⟨fresh, envelope⟩) (some fresh)
  | .markSucceeded id => .ok ((), db.updateJobIf id (fun _ => true) (.succeeded now))
  | .insertMetric eventType payload => db.insert (.metric ⟨eventType, payload⟩) ()
  | .insertReview decision contentId jobId priority =>
    -- ON CONFLICT (decision_id) DO NOTHING
    if (db.reviews.find? (·.decisionId = decision)).isSome then .ok ((), [])
    else db.insert (.review
      { id := fresh, decisionId := decision, contentId, jobId, status := .pending, priority
        createdAt := now }) ()
  | .jobAttempts id => .ok ((db.job? id).map fun j => (j.attempts, j.maxAttempts), [])
  | .markFailed id status error =>
    .ok ((), db.updateJobIf id (fun _ => true) (.failed status error now))
  | .castJobStatus id => do
    let id ← castUuid id
    return ((db.job? id).map (·.status), [])
  | .resetJob id => do
    let id ← castUuid id
    let ws := db.updateJobIf id (fun j => decide (j.status = .dead ∨ j.status = .failed)) (.queued now)
    return (if ws.isEmpty then none else some id, ws)
  | .auditRedrive id detail => do
    let id ← castUuid id
    return ((), [.audit ⟨"job", id, "redrive", "redrive-cli", detail⟩])
  | .releaseExpired now =>
    let expired := db.expiredClaims now
    .ok (expired.map fun r => (r.id, r.claimedBy), expired.map fun r => .updateReview r.id .release)
  | .selectExpired now => .ok ((db.expiredClaims now).map fun r => (r.id, r.claimedBy), [])
  | .releaseRows expired _ => .ok (expired, expired.map fun r => .updateReview r.1 .release)
  | .claimReview id reviewer now expires =>
    match (db.review? id).filter (·.claimable reviewer now) with
    | some _ => .ok (some id, [.updateReview id (.claim reviewer now expires)])
    | none => .ok (none, [])
  | .reviewStatus id => .ok ((db.review? id).map fun r => (r.status, r.claimedBy), [])
  | .reviewFull id => .ok ((db.review? id).bind db.joinReview, [])
  | .modelDecision id => .ok (do
      let r ← db.review? id
      let d ← db.decision? r.decisionId
      return d.envelope.decision, [])
  | .resolveReview id status decision notes reviewer now =>
    match (db.review? id).filter fun r => r.status = .claimed ∧ r.claimedBy = some reviewer with
    | some _ => .ok (some id, [.updateReview id (.resolve status decision notes reviewer now)])
    | none => .ok (none, [])
  | .reviewsByStatus status limit =>
    .ok (db.joinedReviews (·.status.str = status)
      (fun r r' => r.priority < r'.priority ∨ r.priority = r'.priority ∧ r.createdAt ≤ r'.createdAt) limit, [])
  | .reviewsNewest limit =>
    .ok (db.joinedReviews (fun _ => true) (fun r r' => r'.createdAt ≤ r.createdAt) limit, [])
  | .insertAudit row => db.insert (.audit row) ()

/-! ## Refused texts -/

/-- The free texts among a statement's TEXT parameters. Identifiers, digests, keys and
settings are none, and an audit row has only texts that the same call has stored before,
or has read from the database. -/
def Sql.texts : Sql → List String
  | .insertContent row => [row.caption, row.contentType, row.source]
  | .markEnqueueFailed _ error | .markFailed _ _ error => [error]
  | .claimReview _ reviewer _ _ => [reviewer]
  | .resolveReview _ _ _ notes reviewer _ => [notes, reviewer]
  | .reviewsByStatus status _ => [status]
  | _ => []

/-- PostgreSQL stores the value as `jsonb`: a text that is cast is JSON, in which no string has
U+0000. What was encoded has only texts that the same call has stored before. -/
def Jsonb.storable : Jsonb → Bool
  | .dumps _ => true
  | .cast text => (JsonText.decode text).any fun v => v.texts.all CM.storable

/-- The free contents of a statement's `jsonb` parameters can be stored. -/
def Sql.jsonbStorable : Sql → Bool
  | .insertDecision e => e.reasons.all storable && e.vision.storable && e.llm.storable
  | .insertAudit row => row.detail.storable
  | _ => true

def Sql.jsonbError : Sql → Exn
  | .insertAudit _ => .error "invalid input syntax for type json"
  | _ => .error "unsupported Unicode escape sequence"

/-- What PostgreSQL raises for contents that it cannot store. -/
def Sql.refusal (st : Sql) : Option Exn :=
  if !st.texts.all storable then some (.error "invalid byte sequence for encoding \"UTF8\": 0x00")
  else if !st.jsonbStorable then some st.jsonbError
  else none

/-- A statement with its contents. -/
def Sql.execute (db : Database) (now : Time) (fresh : Uuid) (st : Sql) : Except Exn (st.Ans × List Write) :=
  match st.refusal with
  | some e => .error e
  | none => st.run db now fresh

theorem Sql.refusal_eq_none_iff {st : Sql} :
    st.refusal = none ↔ (∀ s ∈ st.texts, storable s = true) ∧ st.jsonbStorable = true := by
  unfold Sql.refusal
  rw [← List.all_eq_true]
  cases st.texts.all storable <;> cases st.jsonbStorable <;> simp

theorem Sql.jsonbError_cases (st : Sql) : st.jsonbError = .error "invalid input syntax for type json" ∨
    st.jsonbError = .error "unsupported Unicode escape sequence" := by
  cases st <;> simp [jsonbError]

theorem Sql.refusal_insertAudit {row : AuditRow} :
    (Sql.insertAudit row).refusal = none ↔ row.detail.storable = true := by
  simp [refusal_eq_none_iff, texts, jsonbStorable]

theorem Sql.execute_of_storable {st : Sql} (h : st.refusal = none) (db : Database) (now : Time) (fresh : Uuid) :
    st.execute db now fresh = st.run db now fresh := by
  rw [Sql.execute, h]

theorem Sql.execute_ok_iff {st : Sql} {db : Database} {now : Time} {fresh : Uuid} {r : st.Ans × List Write} :
    st.execute db now fresh = .ok r ↔ st.refusal = none ∧ st.run db now fresh = .ok r := by
  unfold Sql.execute
  cases st.refusal <;> simp

theorem Sql.run_of_execute {st : Sql} {db : Database} {now : Time} {fresh : Uuid} {r : st.Ans × List Write}
    (h : st.execute db now fresh = .ok r) : st.run db now fresh = .ok r := (execute_ok_iff.mp h).2

end CM
