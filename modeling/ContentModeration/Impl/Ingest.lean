import ContentModeration.Impl.Pipeline

/-!
# Ingest

`app.ingest_service.accept_image`, with the content hash, the ingest lock and
`app.queue.enqueue_job`. SHA-256 is a parameter. The trace context that goes
with the message (`carrier`) is an argument of the call.
-/

namespace CM

/-- A digest of a sequence of bytes, in hexadecimal. -/
abbrev Digest := List UInt8 → String

/-- The bytes of `s.encode("utf-8")`. -/
def utf8 (s : String) : List UInt8 := s.toUTF8.toList

/-- `hashing.content_hash`. -/
def contentHash (sha256 : Digest) (imageBytes : List UInt8) (caption policyVersion : String) : String :=
  sha256 (imageBytes ++ 0 :: utf8 (strip caption) ++ 0 :: utf8 policyVersion)

def objectExtension (contentType : String) : String :=
  match contentType with
  | "image/jpeg" => "jpg"
  | "image/png" => "png"
  | "image/webp" => "webp"
  | "image/gif" => "gif"
  | _ => "bin"

/-- `schemas.IngestResponse`. -/
structure IngestResponse where
  jobId : Uuid
  contentId : Uuid
  contentHash : String
  status : JobStatus
  deduplicated : Bool := false
  message : String := "accepted"
  deriving DecidableEq

/-- The arguments of `accept_image`. -/
structure IngestRequest where
  body : List UInt8
  caption : String := ""
  contentType : String
  tenantId : String := "default"
  source : String := "api"
  carrier : List (String × String) := []
  deriving DecidableEq

/-! ## The queue -/

/-- `queue._job_body`. -/
def jobBody (settings : ApiSettings) (jobId contentId : Uuid) (contentHash objectKey caption : String) :
    Json :=
  .obj [("job_id", .str jobId.str), ("content_id", .str contentId.str), ("content_hash", .str contentHash),
    ("object_key", .str objectKey), ("caption", .str caption),
    ("policy_version", .str settings.policyVersion), ("pipeline_version", .str settings.pipelineVersion)]

/-- The attributes of a job's message; those of the carrier come first, as
they override the others. -/
def jobAttributes (carrier : List (String × String)) (jobId : Uuid) (contentHash : String) :
    List (String × String) :=
  carrier ++ [("content_hash", contentHash), ("job_id", jobId.str)]

def ApiSettings.provider (settings : ApiSettings) : QueueProvider :=
  if lower settings.queueProvider = "pubsub" then .pubsub settings.gcpProject else .sqs

def enqueueJob (settings : ApiSettings) (carrier : List (String × String)) (jobId contentId : Uuid)
    (contentHash objectKey caption : String) : M Unit :=
  request (.enqueue settings.provider jobId (jobBody settings jobId contentId contentHash objectKey caption)
    (jobAttributes carrier jobId contentHash))

/-! ## `accept_image` -/

/-- `redis_client.acquire_ingest_lock`. -/
def acquireIngestLock (contentHash : String) : M Bool :=
  request (.redisSetNx ("ingest:" ++ contentHash) "1" 120)

/-- The answer for content that already has a job. -/
def JobRef.response (j : JobRef) (digest message : String) : IngestResponse where
  jobId := j.jobId
  contentId := j.contentId
  contentHash := digest
  status := j.status
  deduplicated := true
  message

/-- The lookups while another call holds the ingest lock. -/
def awaitIngest (digest : String) : Nat → M IngestResponse
  | 0 => throw (.httpException 409 "Concurrent ingest in progress; retry")
  | n + 1 => do
    match ← sql (.jobByHash digest) with
    | some j => return j.response digest "idempotent hit — concurrent ingest"
    | none =>
      let _ ← request .sleep
      awaitIngest digest n

/-- The detail of the 'enqueued' audit row. -/
def enqueuedDetail (digest tenantId source : String) : Jsonb :=
  .cast ("\x7b\"content_hash\":\"" ++ digest ++ "\",\"tenant_id\":\"" ++ tenantId ++ "\",\"source\":\"" ++
    source ++ "\"\x7d")

/-- A violation of a unique constraint, as `accept_image` recognizes it. -/
@[irreducible] def Exn.isDuplicate (e : Exn) : Bool :=
  contains "unique" (lower e.str) || contains "duplicate" (lower e.str)

/-- The inserts of the transaction, or the answer of a call that lost the race. -/
def persistJob (content : ContentItem) (jobId : Uuid) (tenantId : String) : M (Option IngestResponse) :=
  transaction (Prog.tryCatch
    (do
      let _ ← sql (.insertContent content)
      let _ ← sql (.insertJob jobId content.id content.contentHash)
      let _ ← sql (.insertAudit
        ⟨"job", jobId, "enqueued", "api", enqueuedDetail content.contentHash tenantId content.source⟩)
      return none)
    fun e =>
      if e.isDuplicate then do
        match ← sql (.jobByHash content.contentHash) with
        | some j => return some (j.response content.contentHash "idempotent hit — race resolved")
        | none => throw e
      else throw e)

/-- The message is sent; if that fails, the job is marked as failed. -/
def sendJob (settings : ApiSettings) (carrier : List (String × String)) (content : ContentItem)
    (jobId : Uuid) : M IngestResponse := do
  match ← (enqueueJob settings carrier jobId content.id content.contentHash content.objectKey
      content.caption).attempt with
  | .ok _ =>
    return { jobId, contentId := content.id, contentHash := content.contentHash, status := .queued }
  | .error e =>
    let _ ← request .connect
    let _ ← sql (.markEnqueueFailed jobId ("enqueue failed: " ++ e.str))
    throw (.httpException 502 ("Queue enqueue failed: " ++ e.str))

/-- The row of a new content item. -/
def contentItem (settings : ApiSettings) (req : IngestRequest) (caption digest : String) (contentId : Uuid) :
    ContentItem where
  id := contentId
  contentHash := digest
  objectKey := "content/" ++ takeStr 2 digest ++ "/" ++ digest ++ "/" ++ contentId.str ++ "." ++
    objectExtension req.contentType
  bucket := if lower settings.storageProvider = "gcs" then settings.gcsBucket else settings.s3Bucket
  caption
  contentType := req.contentType
  byteSize := req.body.length
  source := req.source

/-- `accept_image` from where the call holds the ingest lock. -/
def ingestNew (settings : ApiSettings) (req : IngestRequest) (caption digest : String) :
    M IngestResponse := do
  let contentId ← request .uuid4
  let jobId ← request .uuid4
  let content := contentItem settings req caption digest contentId
  match ← (request (.putObject content.objectKey req.body req.contentType)).attempt with
  | .error e => throw (.httpException 502 ("Object storage failed: " ++ e.str))
  | .ok _ =>
    let _ ← request .connect
    match ← persistJob content jobId req.tenantId with
    | some response => return response
    | none => sendJob settings req.carrier content jobId

def acceptImage (sha256 : Digest) (settings : ApiSettings) (req : IngestRequest) : M IngestResponse :=
  if req.contentType ∉ commaList settings.allowedContentTypes then
    throw (.httpException 415 ("Unsupported content type: " ++ req.contentType))
  else if req.body.length = 0 then throw (.httpException 400 "Empty file")
  else if settings.maxUploadBytes < req.body.length then
    throw (.httpException 413 "File exceeds max upload size")
  else do
    let caption := strip req.caption
    let digest := contentHash sha256 req.body caption settings.policyVersion
    let _ ← request .connect
    match ← sql (.existingJob digest) with
    | some j => return j.response digest "idempotent hit — existing job returned"
    | none =>
      if ← acquireIngestLock digest then ingestNew settings req caption digest
      else
        let _ ← request .connect
        awaitIngest digest 20

end CM
