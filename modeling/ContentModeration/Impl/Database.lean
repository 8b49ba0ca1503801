import ContentModeration.Impl.Data

/-!
# The database

The tables of `db/migrations/001_init.sql` as lists of rows, in the order of
insertion. Every statement changes them by a list of `Write`s, each of which
inserts one row or updates one; a transaction is the list of its writes until
it commits. `UniqueKey` names what the primary keys and the `UNIQUE`
constraints keep distinct, `Write.missing` the violated foreign key.
-/

namespace CM

/-! ## Rows -/

/-- `jobs.status`. -/
inductive JobStatus where
  | queued
  | processing
  | succeeded
  | failed
  | dead
  deriving DecidableEq

def JobStatus.str : JobStatus → String
  | .queued => "queued"
  | .processing => "processing"
  | .succeeded => "succeeded"
  | .failed => "failed"
  | .dead => "dead"

/-- `review_queue.status`, without 'escalated', which nothing writes. -/
inductive ReviewStatus where
  | pending
  | claimed
  | approved
  | rejected
  deriving DecidableEq

def ReviewStatus.str : ReviewStatus → String
  | .pending => "pending"
  | .claimed => "claimed"
  | .approved => "approved"
  | .rejected => "rejected"

/-- The decision of a reviewer: `^(ALLOW|BLOCK)$`. -/
inductive ReviewerDecision where
  | allow
  | block
  deriving DecidableEq

def ReviewerDecision.value : ReviewerDecision → String
  | .allow => "ALLOW"
  | .block => "BLOCK"

structure ContentItem where
  id : Uuid
  contentHash : String
  objectKey : String
  bucket : String
  caption : String
  contentType : String
  byteSize : Nat
  source : String
  deriving DecidableEq

structure Job where
  id : Uuid
  contentId : Uuid
  contentHash : String
  status : JobStatus
  attempts : Nat := 0
  maxAttempts : Nat := 3
  lastError : Option String := none
  enqueuedAt : Time
  startedAt : Option Time := none
  finishedAt : Option Time := none
  deriving DecidableEq

/-- A row of `decisions`; its other columns are the fields of the envelope. -/
structure DecisionRow where
  id : Uuid
  envelope : DecisionEnvelope
  deriving DecidableEq

structure ReviewRow where
  id : Uuid
  decisionId : Uuid
  contentId : Uuid
  jobId : Uuid
  status : ReviewStatus
  priority : Nat
  claimedBy : Option String := none
  claimedAt : Option Time := none
  claimExpiresAt : Option Time := none
  resolvedBy : Option String := none
  resolvedAt : Option Time := none
  reviewerDecision : Option ReviewerDecision := none
  notes : Option String := none
  createdAt : Time
  deriving DecidableEq

structure AuditRow where
  entityType : String
  entityId : Uuid
  action : String
  actor : String
  detail : Jsonb

structure MetricRow where
  eventType : String
  payload : Json

structure Database where
  contents : List ContentItem := []
  jobs : List Job := []
  decisions : List DecisionRow := []
  reviews : List ReviewRow := []
  audit : List AuditRow := []
  metrics : List MetricRow := []

/-! ## Writes -/

/-- The `SET` clauses of the statements that update `jobs`. -/
inductive JobUpdate where
  | processing (now : Time)
  | succeeded (now : Time)
  | failed (status : JobStatus) (error : String) (now : Time)
  | enqueueFailed (error : String)
  | queued (now : Time)

def JobUpdate.apply (j : Job) : JobUpdate → Job
  | .processing now =>
    { j with status := .processing, startedAt := some (j.startedAt.getD now), attempts := j.attempts + 1 }
  | .succeeded now => { j with status := .succeeded, finishedAt := some now, lastError := none }
  | .failed status error now =>
    { j with status := status, lastError := some error, finishedAt := some now }
  | .enqueueFailed error => { j with status := .failed, lastError := some error }
  | .queued now =>
    { j with
      status := .queued, attempts := 0, lastError := none, startedAt := none, finishedAt := none
      enqueuedAt := now }

/-- The `SET` clauses of the statements that update `review_queue`. -/
inductive ReviewUpdate where
  | claim (reviewer : String) (now expires : Time)
  | resolve (status : ReviewStatus) (decision : ReviewerDecision) (notes reviewer : String) (now : Time)
  | release

def ReviewUpdate.apply (r : ReviewRow) : ReviewUpdate → ReviewRow
  | .claim reviewer now expires =>
    { r with
      status := .claimed, claimedBy := some reviewer, claimedAt := some now, claimExpiresAt := some expires }
  | .resolve status decision notes reviewer now =>
    { r with
      status := status, reviewerDecision := some decision, notes := some notes
      resolvedBy := some reviewer, resolvedAt := some now }
  | .release =>
    { r with status := .pending, claimedBy := none, claimedAt := none, claimExpiresAt := none }

inductive Write where
  | content (row : ContentItem)
  | job (row : Job)
  | decision (row : DecisionRow)
  | review (row : ReviewRow)
  | audit (row : AuditRow)
  | metric (row : MetricRow)
  | updateJob (id : Uuid) (u : JobUpdate)
  | updateReview (id : Uuid) (u : ReviewUpdate)

namespace Database

def apply (db : Database) : Write → Database
  | .content row => { db with contents := db.contents ++ [row] }
  | .job row => { db with jobs := db.jobs ++ [row] }
  | .decision row => { db with decisions := db.decisions ++ [row] }
  | .review row => { db with reviews := db.reviews ++ [row] }
  | .audit row => { db with audit := db.audit ++ [row] }
  | .metric row => { db with metrics := db.metrics ++ [row] }
  | .updateJob id u => { db with jobs := db.jobs.map fun j => if j.id = id then u.apply j else j }
  | .updateReview id u =>
    { db with reviews := db.reviews.map fun r => if r.id = id then u.apply r else r }

def applyAll (db : Database) (ws : List Write) : Database := ws.foldl apply db

@[simp] theorem applyAll_nil (db : Database) : db.applyAll [] = db := rfl

@[simp] theorem applyAll_cons (db : Database) (w : Write) (ws : List Write) :
    db.applyAll (w :: ws) = (db.apply w).applyAll ws := rfl

theorem applyAll_append (db : Database) (ws ws' : List Write) :
    db.applyAll (ws ++ ws') = (db.applyAll ws).applyAll ws' := List.foldl_append

/-! ## Selections -/

def job? (db : Database) (id : Uuid) : Option Job := db.jobs.find? (·.id = id)

def jobByHash? (db : Database) (digest : String) : Option Job := db.jobs.find? (·.contentHash = digest)

def content? (db : Database) (id : Uuid) : Option ContentItem := db.contents.find? (·.id = id)

def decision? (db : Database) (id : Uuid) : Option DecisionRow := db.decisions.find? (·.id = id)

/-- The decision of a job. -/
def decisionOf? (db : Database) (jobId : Uuid) : Option DecisionRow :=
  db.decisions.find? (·.envelope.jobId = jobId)

def review? (db : Database) (id : Uuid) : Option ReviewRow := db.reviews.find? (·.id = id)

end Database

/-! ## Constraints -/

/-- What two rows may not share. -/
inductive UniqueKey where
  | contentId (id : Uuid)
  | contentHash (hash : String)
  | jobId (id : Uuid)
  | jobHash (hash : String)
  | decisionId (id : Uuid)
  | decisionJob (jobId : Uuid)
  | reviewId (id : Uuid)
  | reviewDecision (decisionId : Uuid)
  deriving DecidableEq

/-- The name of the constraint and the key's text. -/
def UniqueKey.describe : UniqueKey → String × String
  | .contentId id => ("content_items_pkey", "(id)=(" ++ id.str ++ ")")
  | .contentHash hash => ("content_items_content_hash_key", "(content_hash)=(" ++ hash ++ ")")
  | .jobId id => ("jobs_pkey", "(id)=(" ++ id.str ++ ")")
  | .jobHash hash => ("jobs_content_hash_key", "(content_hash)=(" ++ hash ++ ")")
  | .decisionId id => ("decisions_pkey", "(id)=(" ++ id.str ++ ")")
  | .decisionJob id => ("decisions_job_id_key", "(job_id)=(" ++ id.str ++ ")")
  | .reviewId id => ("review_queue_pkey", "(id)=(" ++ id.str ++ ")")
  | .reviewDecision id => ("review_queue_decision_id_key", "(decision_id)=(" ++ id.str ++ ")")

/-- `str(UniqueViolationError)`. -/
def uniqueViolation (k : UniqueKey) : Exn :=
  .error ("duplicate key value violates unique constraint \"" ++ k.describe.1 ++ "\"\nDETAIL:  Key " ++
    k.describe.2 ++ " already exists.")

def foreignKeyViolation (table constraint : String) : Exn :=
  .error ("insert or update on table \"" ++ table ++ "\" violates foreign key constraint \"" ++ constraint ++ "\"")

namespace Write

/-- The unique keys of the row that a write inserts. -/
def keys : Write → List UniqueKey
  | .content row => [.contentId row.id, .contentHash row.contentHash]
  | .job row => [.jobId row.id, .jobHash row.contentHash]
  | .decision row => [.decisionId row.id, .decisionJob row.envelope.jobId]
  | .review row => [.reviewId row.id, .reviewDecision row.decisionId]
  | _ => []

/-- Two writes of the same row: an update waits for the transaction that made
the other one. -/
def sameRow : Write → Write → Bool
  | .updateJob id _, .updateJob id' _ => id = id'
  | .updateReview id _, .updateReview id' _ => id = id'
  | _, _ => false

/-- One of two writes has to wait for the transaction that made the other. -/
def conflicts (w w' : Write) : Bool := w.keys.any (· ∈ w'.keys) || w.sameRow w'

/-- The foreign key that the inserted row violates. -/
def missing (db : Database) : Write → Option Exn
  | .job row =>
    if (db.content? row.contentId).isNone then some (foreignKeyViolation "jobs" "jobs_content_id_fkey")
    else none
  | .decision row =>
    if (db.job? row.envelope.jobId).isNone then
      some (foreignKeyViolation "decisions" "decisions_job_id_fkey")
    else if (db.content? row.envelope.contentId).isNone then
      some (foreignKeyViolation "decisions" "decisions_content_id_fkey")
    else none
  | .review row =>
    if (db.decision? row.decisionId).isNone then
      some (foreignKeyViolation "review_queue" "review_queue_decision_id_fkey")
    else if (db.content? row.contentId).isNone then
      some (foreignKeyViolation "review_queue" "review_queue_content_id_fkey")
    else if (db.job? row.jobId).isNone then
      some (foreignKeyViolation "review_queue" "review_queue_job_id_fkey")
    else none
  | _ => none

end Write

/-- The unique keys of all rows. -/
def Database.keys (db : Database) : List UniqueKey :=
  db.contents.map (.contentId ·.id) ++ db.contents.map (.contentHash ·.contentHash) ++
  db.jobs.map (.jobId ·.id) ++ db.jobs.map (.jobHash ·.contentHash) ++
  db.decisions.map (.decisionId ·.id) ++ db.decisions.map (.decisionJob ·.envelope.jobId) ++
  db.reviews.map (.reviewId ·.id) ++ db.reviews.map (.reviewDecision ·.decisionId)

end CM
