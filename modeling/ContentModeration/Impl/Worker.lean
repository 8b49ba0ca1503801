import ContentModeration.Impl.Pipeline

/-!
# The worker

`worker.main`: `handleMessage` processes the body of one message, and
`pollSqs` and `pollPubsub` receive messages and delete them, or acknowledge
them in batches, once they are done with. Their loops run until the worker is
told to shut down: `rounds` is how often they come around before that.
-/

namespace CM

def markFailed (jobId : Uuid) (error : String) : M Unit := do
  match ← sql (.jobAttempts jobId) with
  | none => return ()
  | some (attempts, maxAttempts) =>
    let status : JobStatus := if maxAttempts ≤ attempts then .dead else .failed
    let _ ← sql (.markFailed jobId status (takeStr 2000 error))
    sql (.insertAudit ⟨"job", jobId, status.str, "worker", .dumps (.obj [("error", .str (takeStr 500 error))])⟩)

/-- What `handle_message` does once the fields of the body are read. -/
def handleJob (settings : WorkerSettings) (job : JobMessage) : M Unit := do
  let _ ← request .connect
  match ← sql (.jobStatus job.jobId) with
  | some .succeeded => return ()
  | _ =>
    match ← (processJob settings job).attempt with
    | .ok _ => return ()
    | .error (.validationError reason) =>
      markFailed job.jobId ("validation: " ++ reason)
      let _ ← request (.log (.validationFailed job.jobId reason))
      throw (.validationError reason)
    | .error e =>
      markFailed job.jobId e.str
      let _ ← request (.log (.jobFailed job.jobId))
      throw e

def handleMessage (settings : WorkerSettings) (body : Json) : M Unit := do
  let job ← Prog.ofExcept (readJobMessage body)
  handleJob settings job

/-- `json.loads` of a message's body, and `handle_message` of the dict. -/
def consume (settings : WorkerSettings) : RawBody → M Unit
  | .text _ => throw (.error "JSONDecodeError")
  | .raises error => throw (.error error)
  | .json (.obj fields) => handleMessage settings (.obj fields)
  | .json _ => throw (.error "object has no attribute 'get'")

/-! ## SQS -/

/-- The attributes of a message, as SQS hands them out. -/
def Message.messageAttributes (m : Message) : List (String × Json) :=
  m.attributes.map fun (key, value) => (key, .obj [("DataType", .str "String"), ("StringValue", .str value)])

/-- `value.get("StringValue")` of a dict, unless it is empty. -/
def stringValue (value : Json) : Option String :=
  match value.get? "StringValue" with
  | some (.str s) => if s = "" then none else some s
  | _ => none

/-- `telemetry.carrier_from_sqs_attributes`: the trace context in which a message
is handled. -/
def carrierFromSqsAttributes (messageAttributes : Option (List (String × Json))) : List (String × String) :=
  (messageAttributes.getD []).filterMap fun (key, value) => (stringValue value).map (key, ·)

/-- A message is deleted when it is done with or rejected, and else left for
the next receiver. -/
def deliverSqs (settings : WorkerSettings) (msg : Message) : M Unit := do
  match ← (consume settings msg.body >>= fun _ => request (.delete .main msg.id) : M Unit).attempt with
  | .ok _ => return ()
  | .error (.validationError _) => request (.delete .main msg.id)
  | .error _ => return ()

def deliverAllSqs (settings : WorkerSettings) : List Message → M Unit
  | [] => return ()
  | msg :: messages => do
    deliverSqs settings msg
    deliverAllSqs settings messages

def pollSqs (settings : WorkerSettings) : Nat → M Unit
  | 0 => return ()
  | rounds + 1 => do
    match ← (request (.receive .main 5)).attempt with
    | .error _ =>
      let _ ← request .sleep
      pollSqs settings rounds
    | .ok messages =>
      deliverAllSqs settings messages
      pollSqs settings rounds

/-! ## Pub/Sub -/

/-- The messages to acknowledge and those to hand back. -/
structure Acks where
  ackIds : List Nat := []
  nackIds : List Nat := []

def deliverPubsub (settings : WorkerSettings) (acks : Acks) : List Message → M Acks
  | [] => return acks
  | msg :: received => do
    match ← (consume settings msg.body).attempt with
    | .ok _ | .error (.validationError _) =>
      deliverPubsub settings { acks with ackIds := acks.ackIds ++ [msg.id] } received
    | .error _ => deliverPubsub settings { acks with nackIds := acks.nackIds ++ [msg.id] } received

/-- The end of a round: the batch is acknowledged. -/
def settle (acks : Acks) : M Unit := do
  if acks.ackIds ≠ [] then
    let _ ← request (.acknowledge acks.ackIds)
  if acks.nackIds ≠ [] then
    let _ ← request (.modifyAckDeadline acks.nackIds)

def pullPubsub (settings : WorkerSettings) : Nat → M Unit
  | 0 => return ()
  | rounds + 1 => do
    match ← (request (.receive .main 5)).attempt with
    | .error e =>
      if contains "Deadline Exceeded" e.str then pullPubsub settings rounds
      else
        let _ ← request .sleep
        pullPubsub settings rounds
    | .ok received =>
      let acks ← deliverPubsub settings {} received
      settle acks
      pullPubsub settings rounds

def pollPubsub (settings : WorkerSettings) (rounds : Nat) : M Unit :=
  if settings.gcpProject = "" then throw (.error "GCP_PROJECT is required when QUEUE_PROVIDER=pubsub")
  else pullPubsub settings rounds

end CM
