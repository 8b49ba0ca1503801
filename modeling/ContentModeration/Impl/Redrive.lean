import ContentModeration.Impl.Pipeline

/-!
# The redrive of dead letters

`scripts/redrive.py`: messages of the dead-letter queue are sent to the main
queue again and their jobs reset. A message is deleted from the dead-letter
queue only after its copy has been sent. Lines are printed on an output whose
encoding is UTF-8, which a lone surrogate does not have.
-/

namespace CM

/-- A string, up to its first lone surrogate if it has one. -/
structure PyStr where
  str : String
  lone : Bool := false
  deriving DecidableEq

def unicodeEncodeError : Exn := .error "surrogates not allowed"

/-- `s.encode("utf-8")`, as it is done for a string that is printed or sent. -/
def PyStr.encode (s : PyStr) : Except Exn String := if s.lone then .error unicodeEncodeError else .ok s.str

/-- `s[:n]`. -/
def PyStr.take (n : Nat) (s : PyStr) : PyStr := ⟨takeStr n s.str, s.lone && decide (s.str.length < n)⟩

/-- `UUID(s)`, which is no UUID with a lone surrogate. -/
def PyStr.uuid (s : PyStr) : Option Uuid := if s.lone then none else Uuid.parse s.str

/-- `DlqMessage`. -/
structure DlqMessage where
  receiptHandle : Nat
  bodyRaw : RawBody
  jobId : Option PyStr
  contentHash : Option PyStr

/-- The text of `str(value)` up to a lone surrogate; a float, a list or a dict has a text that
is no UUID. -/
def Json.pyStr : Json → String
  | .null => "None"
  | .bool b => if b then "True" else "False"
  | .int n => toString n
  | .float _ => "<float>"
  | .str s | .lone s => s
  | .arr _ => "[...]"
  | .obj _ => "\x7b...\x7d"

def Json.isLone : Json → Bool
  | .lone _ => true
  | _ => false

/-- `str(v) if v else None` of a field of the body, else of an attribute. -/
def dlqField (raw : Message) (key : String) : Option PyStr :=
  let value := match raw.body with
    | .json v => (v.get? key).getD .null
    | _ => .null
  if value.falsy then ((raw.attributes.lookup key).filter (· ≠ "")).map fun s => { str := s }
  else some ⟨value.pyStr, value.isLone⟩

/-- What `parse_dlq_message` returns. -/
def dlqMessage (raw : Message) : DlqMessage where
  receiptHandle := raw.id
  bodyRaw := raw.body
  jobId := dlqField raw "job_id"
  contentHash := dlqField raw "content_hash"

/-- Of the exceptions of `json.loads`, `parse_dlq_message` catches `JSONDecodeError` alone. -/
def parseDlqMessage (raw : Message) : Except Exn DlqMessage :=
  match raw.body with
  | .raises error => .error (.error error)
  | _ => .ok (dlqMessage raw)

theorem dlqMessage_of_parse {raw : Message} {msg : DlqMessage} (h : parseDlqMessage raw = .ok msg) :
    msg = dlqMessage raw := by
  unfold parseDlqMessage at h
  split at h
  · cases h
  · exact (Except.ok.inj h).symm

/-- `RedriveAction.skip_reason`. -/
inductive SkipReason where
  | emptyBody
  | missingJobId
  | invalidJobId
  | jobIdFilter
  | jobAlreadySucceeded
  | jobStatus (status : JobStatus)
  deriving DecidableEq

structure RedriveAction where
  resetJob : Bool
  skipReason : Option SkipReason := none
  deriving DecidableEq

def RawBody.isEmpty : RawBody → Bool
  | .text s => s = ""
  | .raises _ | .json _ => false

def planRedrive (message : DlqMessage) (jobIdFilter : Option String) (jobStatus : Option JobStatus) :
    RedriveAction :=
  if message.bodyRaw.isEmpty then { resetJob := false, skipReason := some .emptyBody }
  else match message.jobId with
    | none => { resetJob := false, skipReason := some .missingJobId }
    | some jobId =>
      if jobId.uuid.isNone then { resetJob := false, skipReason := some .invalidJobId }
      else if (jobIdFilter.filter (· ≠ "")).any (· ≠ jobId.str) then
        { resetJob := false, skipReason := some .jobIdFilter }
      else match jobStatus with
        | none | some .dead | some .failed => { resetJob := true }
        | some .succeeded => { resetJob := false, skipReason := some .jobAlreadySucceeded }
        | some status => { resetJob := false, skipReason := some (.jobStatus status) }

/-- `reset_job_for_redrive`. -/
def resetJobForRedrive (jobId : String) : M Bool := do
  match ← sql (.resetJob jobId) with
  | none => return false
  | some _ =>
    let _ ← sql (.auditRedrive jobId (.dumps (.obj [("source", .str "dlq"), ("to", .str "main_queue")])))
    return true

structure RedriveArgs where
  limit : Nat
  dryRun : Bool
  jobIdFilter : Option String
  skipDb : Bool
  queueProvider : String := "sqs"
  deriving DecidableEq

/-- What a run prints at its end. -/
structure RedriveCounts where
  moved : Nat := 0
  jobsReset : Nat := 0
  skipped : Nat := 0
  deriving DecidableEq

/-- The attributes of a message that is sent again. -/
def redriveAttributes (msg : DlqMessage) : List (String × String) :=
  msg.contentHash.toList.map (("content_hash", ·.str)) ++ msg.jobId.toList.map (("job_id", ·.str))

/-- Whether a text can be printed, or sent. -/
def encoded : Option PyStr → Except Exn Unit
  | none => .ok ()
  | some s => s.encode.map fun _ => ()

/-- The status of the message's job, if there is a database and a job. -/
def lookupStatus (args : RedriveArgs) (msg : DlqMessage) : M (Option JobStatus) :=
  match args.skipDb, msg.jobId with
  | false, some jobId => do
    let jobId ← Prog.ofExcept jobId.encode
    sql (.castJobStatus jobId)
  | _, _ => return none

/-- The reset of the job, before its message is sent. -/
def resetIfPlanned (args : RedriveArgs) (action : RedriveAction) (msg : DlqMessage) : M Bool :=
  match action.resetJob, args.skipDb, msg.jobId with
  | true, false, some jobId => resetJobForRedrive jobId.str
  | _, _, _ => return false

def redriveMessage (args : RedriveArgs) (counts : RedriveCounts) (raw : Message) : M RedriveCounts := do
  let msg ← Prog.ofExcept (parseDlqMessage raw)
  let status ← lookupStatus args msg
  let action := planRedrive msg args.jobIdFilter status
  match action.skipReason with
  | some .jobIdFilter | some .emptyBody | some .missingJobId | some .invalidJobId
  | some .jobAlreadySucceeded =>
    let _ ← Prog.ofExcept (encoded msg.jobId)
    return { counts with skipped := counts.skipped + 1 }
  | _ =>
    let _ ← Prog.ofExcept (encoded (msg.contentHash.map (PyStr.take 12)))
    if args.dryRun then
      return { counts with
        moved := counts.moved + 1, jobsReset := counts.jobsReset + action.resetJob.toNat }
    else
      let reset ← resetIfPlanned args action msg
      let _ ← Prog.ofExcept (encoded msg.contentHash)
      let _ ← request (.sendMessage msg.bodyRaw (redriveAttributes msg))
      let _ ← request (.delete .dlq msg.receiptHandle)
      return { counts with moved := counts.moved + 1, jobsReset := counts.jobsReset + reset.toNat }

def redriveMessages (args : RedriveArgs) (counts : RedriveCounts) : List Message → M RedriveCounts
  | [] => return counts
  | raw :: messages => do
    let counts ← redriveMessage args counts raw
    redriveMessages args counts messages

/-- The loop; a batch takes at least one of the `remaining` messages, so that
`limit` rounds are enough. -/
def redriveLoop (args : RedriveArgs) : Nat → Nat → RedriveCounts → M RedriveCounts
  | 0, _, counts => return counts
  | rounds + 1, remaining, counts => do
    if remaining = 0 then return counts
    else
      let messages : List Message ← request (.receive .dlq (min 10 remaining))
      if messages.isEmpty then return counts
      else
        let counts ← redriveMessages args counts messages
        redriveLoop args rounds (remaining - messages.length) counts

/-- The exit code of a run and what it prints at its end. -/
structure RedriveReport where
  exitCode : Nat
  counts : RedriveCounts := {}
  deriving DecidableEq

def redrive (args : RedriveArgs) : M RedriveReport := do
  if lower args.queueProvider ≠ "sqs" then return { exitCode := 2 }
  else
    let _ ← request (.queueStats .main)
    let _ ← request (.queueStats .dlq)
    let connected ← if args.skipDb then pure (.ok ()) else (request .connect).attempt
    match connected with
    | .error _ => return { exitCode := 2 }
    | .ok _ =>
      let counts ← redriveLoop args args.limit args.limit {}
      return { exitCode := 0, counts }

end CM
