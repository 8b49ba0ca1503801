import ContentModeration.Impl.Routing
import ContentModeration.Impl.World

/-!
# The worker's pipeline

`worker.pipeline`: `persistEnvelope` writes a decision with everything that
goes with it in one transaction, and `processJob` makes the decision. What the
vision and the language model answer is left open.
-/

namespace CM

/-! ## Requests -/

def sql (st : Sql) : M st.Ans := Prog.perform (I := iface) (.sql st)

def request (q : Cmd) : M q.Ans := Prog.perform (I := iface) q

/-- `async with conn.transaction()`. -/
def transaction {α : Type} (body : M α) : M α := do
  let _ ← request .begin
  match ← body.attempt with
  | .ok a =>
    let _ ← request .commit
    return a
  | .error e =>
    let _ ← request .rollback
    throw e

/-! ## `persist_envelope` -/

/-- The audit detail of a new decision. -/
def decisionDetail (envelope : DecisionEnvelope) : Json :=
  .obj [("decision", .str envelope.decision.value), ("confidence", .float envelope.confidence),
    ("needs_human_review", .bool envelope.needsHumanReview)]

/-- The payload of a decision's metrics event. -/
def decisionMetric (envelope : DecisionEnvelope) : Json :=
  .obj [("decision", .str envelope.decision.value), ("latency_ms", .int envelope.latencyMs),
    ("auto", .bool !envelope.needsHumanReview)]

/-- The statements of `persist_envelope` after a decision has been inserted. -/
def persistNew (envelope : DecisionEnvelope) (decisionId : Uuid) : M DecisionEnvelope := do
  let _ ← sql (.markSucceeded envelope.jobId)
  let _ ← sql (.insertAudit ⟨"decision", decisionId, "created", "worker", .dumps (decisionDetail envelope)⟩)
  let _ ← sql (.insertMetric "decision" (decisionMetric envelope))
  if envelope.needsHumanReview then
    let _ ← sql (.insertReview decisionId envelope.contentId envelope.jobId
      (reviewPriority envelope.decision envelope.confidence))
    let _ ← sql (.insertAudit ⟨"review", decisionId, "enqueued", "worker", .cast "\x7b\x7d"⟩)
    return envelope
  else return envelope

def persistEnvelope (envelope : DecisionEnvelope) : M DecisionEnvelope :=
  transaction do
    match ← sql (.insertDecision envelope) with
    | some decisionId => persistNew envelope decisionId
    | none =>
      match ← sql (.decisionEnvelope envelope.jobId) with
      | some stored => return stored
      | none => throw (.error "'NoneType' object is not subscriptable")

/-! ## `process_job` -/

/-- The envelope that `process_job` builds; one whose confidence is out of
bounds is rejected by the model's own validation. -/
def buildEnvelope (settings : WorkerSettings) (job : JobMessage) (vision : VisionSignals)
    (suggested : Decision) (llm : LlmSignals) (latencyMs : Nat) : Except Exn DecisionEnvelope :=
  let route := routeDecision suggested llm.score vision.nsfwScore vision.violenceScore settings.thresholds
  let reasons := route.reasons ++ (if llm.rationale = "" then [] else [llm.rationale]) ++ vision.labels.take 5
  if h : 0 ≤ round4 llm.score ∧ round4 llm.score ≤ 1 then
    .ok {
      jobId := job.jobId
      contentId := job.contentId
      contentHash := job.contentHash
      decision := route.decision
      confidence := round4 llm.score
      reasons
      vision
      llm
      policyVersion := settings.policyVersion
      pipelineVersion := settings.pipelineVersion
      latencyMs
      needsHumanReview := route.needsHumanReview || decide (route.decision = .flag)
      confidence_ge := h.1
      confidence_le := h.2 }
  else .error (.error "1 validation error for DecisionEnvelope")

def processJob (settings : WorkerSettings) (job : JobMessage) : M DecisionEnvelope := do
  let started : Time ← request .perfCounter
  match ← sql (.decisionId job.jobId) with
  | some _ =>
    match ← sql (.decisionEnvelope job.jobId) with
    | some envelope => return envelope
    | none => throw (.error "'NoneType' object is not subscriptable")
  | none =>
    let _ ← sql (.startProcessing job.jobId)
    let (imageBytes, contentType) ← request (.fetchObject job.objectKey)
    let _ ← Prog.ofExcept (validate imageBytes contentType settings)
    let vision ← request (.analyze imageBytes job.caption)
    let (suggested, llm) ← request (.classify job.caption vision)
    let finished : Time ← request .perfCounter
    let latencyMs := (finished - started) / 1000
    let envelope ← Prog.ofExcept (buildEnvelope settings job vision suggested llm latencyMs)
    persistEnvelope envelope

end CM
