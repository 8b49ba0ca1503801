import ContentModeration.Framework.Monitor
import ContentModeration.Impl.Service

/-!
# What the services ask

Every program of the services is walked through once: only `accept_image` sends
job messages, at most one in a call (`code_atMost`); a release updates just the
rows that it has selected (`code_releases`); and only `resolve_review` resolves
a review, once it has found its reviewer's lock (`code_resolves`).
-/

namespace CM

open Prog hiding throw

/-- A job message is sent. -/
def Cmd.IsEnqueue : Cmd → Prop
  | .enqueue .. => True
  | _ => False

instance : DecidablePred Cmd.IsEnqueue := fun q => by
  cases q <;> first | exact isTrue trivial | exact isFalse id

/-- The second half of a release. -/
def Cmd.IsRelease : Cmd → Prop
  | .sql (.releaseRows ..) => True
  | _ => False

/-- A review is resolved. -/
def Cmd.IsResolve : Cmd → Prop
  | .sql (.resolveReview ..) => True
  | _ => False

/-- The second half of a release, after the first. -/
def Cmd.thenRelease : (q : Cmd) → q.Ans → Option Cmd
  | .sql (.selectExpired now), rows => some (.sql (.releaseRows rows now))
  | _, _ => none

/-- A request that does not send a job message, is no part of a release, and
does not resolve a review. -/
def Cmd.other : Cmd → Bool
  | .enqueue .. | .sql (.selectExpired _) | .sql (.releaseRows ..) | .sql (.resolveReview ..) => false
  | _ => true

def Cmd.Other (q : Cmd) : Prop := q.other = true

/-- A statement that neither writes what `track` follows nor answers it. -/
def Sql.quiet : Sql → Bool
  | .insertAudit _ | .auditRedrive .. | .insertDecision _ | .insertContent _ | .claimReview .. | .resolveReview ..
  | .selectExpired _ | .releaseExpired _ | .releaseRows .. | .jobAttempts _ | .resetJob _ => false
  | _ => true

/-- A request that `track` does not follow, and that is no part of a release. -/
def Cmd.quiet : Cmd → Bool
  | .sql st => st.quiet
  | .begin | .commit | .rollback | .uuid4 | .putObject .. | .enqueue .. | .sendMessage .. | .receive .. => false
  | _ => true

def Cmd.Quiet (q : Cmd) : Prop := q.quiet = true

structure Cmd.Apart (q : Cmd) : Prop where
  release : ¬ q.IsRelease
  then? : ∀ a, q.thenRelease a = none

theorem Cmd.Quiet.other {q : Cmd} (h : q.Quiet) : q.Other := by
  cases q with
  | sql st => cases st <;> first | rfl | cases h
  | _ => first | rfl | cases h

theorem Cmd.Other.sends {q : Cmd} (h : q.Other) : ¬ q.IsEnqueue := by
  cases q <;> first | exact id | cases h

theorem Cmd.Other.resolves {q : Cmd} (h : q.Other) : ¬ q.IsResolve := by
  cases q with
  | sql st => cases st <;> first | exact id | cases h
  | _ => exact id

theorem Cmd.Other.apart {q : Cmd} (h : q.Other) : q.Apart := by
  cases q with
  | sql st => cases st <;> first | exact ⟨id, fun _ => rfl⟩ | cases h
  | _ => exact ⟨id, fun _ => rfl⟩

/-- A release updates the rows that it has just selected. -/
def releaseMonitor : Monitor iface Exn := .pairs Cmd.IsRelease Cmd.thenRelease

theorem Cmd.Apart.free {q : Cmd} (h : q.Apart) :
    releaseMonitor.allows none q ∧ ∀ r, releaseMonitor.after none q r = none := by
  refine ⟨⟨fun _ h => (nomatch h), fun _ => h.release⟩, fun r => ?_⟩
  cases r with
  | ok a => exact h.then? a
  | error x => rfl

/-- How far a call of `resolve_review` has come: it has its timestamp, has found
its reviewer's lock, or has resolved the review. -/
inductive ResolvePhase where
  | start
  | read (now : Time)
  | locked (now : Time)
  | resolved
  | closed

/-- The notes that an override needs are missing. -/
def ResolveRequest.refused (body : ResolveRequest) (model : Decision) : Bool :=
  isOverride body.reviewerDecision model && decide ((strip body.notes).length < 3)

def ResolvePhase.after (body : ResolveRequest) : ResolvePhase → (q : Cmd) → Except Exn q.Ans → ResolvePhase
  | .start, .utcnow, .ok now => .read now
  | .read now, .redisGet _, .ok (some owner) => if owner = body.reviewer then .locked now else .closed
  | .locked now, .connect, .ok _ => .locked now
  | .locked now, .sql (.modelDecision _), .ok (some model) => if body.refused model then .closed else .locked now
  | .locked _, .sql (.resolveReview ..), .ok (some _) => .resolved
  | .resolved, _, _ => .resolved
  | _, _, _ => .closed

/-- The requests of `resolve_review` from its lock check to its UPDATE. -/
inductive Cmd.InWindow (id : Uuid) (reviewer : String) (now : Time) : Cmd → Prop where
  | connect : InWindow id reviewer now .connect
  | modelDecision : InWindow id reviewer now (.sql (.modelDecision id))
  | update (status : ReviewStatus) (decision : ReviewerDecision) (notes : String) :
    InWindow id reviewer now (.sql (.resolveReview id status decision notes reviewer now))

/-- A review is resolved only after the lock check, at the time read before it. -/
def resolveMonitor (e : Entry) : Monitor iface Exn where
  Phase := ResolvePhase
  init := .start
  allows x q :=
    match e, x with
    | .resolveReview id body, .locked now => q.InWindow id body.reviewer now
    | _, _ => ¬ q.IsResolve
  after x q r :=
    match e with
    | .resolveReview _ body => x.after body q r
    | _ => x

/-- A call of `resolve_review` returns only if it has resolved the review. -/
def resolveEnds (e : Entry) (r : Except Exn Out) (x : ResolvePhase) : Prop :=
  match e with
  | .resolveReview .. => (∀ now, x ≠ .locked now) ∧ ∀ a, r = .ok a → x = .resolved
  | _ => True

variable {α : Type}

theorem Prog.Only.ask {P : Cmd → Prop} {q : Cmd} (h : P q) : (request q).Only P := Only.perform h

theorem Prog.Only.stmt {P : Cmd → Prop} {st : Sql} (h : P (.sql st)) : (sql st).Only P := Only.perform h

theorem Prog.Only.other {p : M α} (h : p.Only Cmd.Quiet) : p.Only Cmd.Other := h.mono fun _ hq => hq.other

/-! ## The worker -/

theorem transaction_only {P : Cmd → Prop} {body : M α} (hbegin : P .begin) (hcommit : P .commit)
    (hrollback : P .rollback) (h : body.Only P) : (transaction body).Only P := by
  refine .bind (.ask hbegin) fun _ => .bind h.attempt fun r => ?_
  cases r with
  | ok a => exact .bind (.ask hcommit) fun _ => trivial
  | error x => exact .bind (.ask hrollback) fun _ => trivial

/-- What `persist_envelope` asks for. -/
inductive Cmd.OfPersist (envelope : DecisionEnvelope) : Cmd → Prop where
  | begin : OfPersist envelope .begin
  | commit : OfPersist envelope .commit
  | rollback : OfPersist envelope .rollback
  | decision : OfPersist envelope (.sql (.insertDecision envelope))
  | succeeded : OfPersist envelope (.sql (.markSucceeded envelope.jobId))
  | audit (row : AuditRow) : OfPersist envelope (.sql (.insertAudit row))
  | metric : OfPersist envelope (.sql (.insertMetric "decision" (decisionMetric envelope)))
  | review (id : Uuid) : OfPersist envelope (.sql (.insertReview id envelope.contentId envelope.jobId
      (reviewPriority envelope.decision envelope.confidence)))
  | stored : OfPersist envelope (.sql (.decisionEnvelope envelope.jobId))

theorem persistEnvelope_only (envelope : DecisionEnvelope) :
    (persistEnvelope envelope).Only (Cmd.OfPersist envelope) := by
  refine transaction_only .begin .commit .rollback (.bind (.stmt .decision) fun found => ?_)
  cases found with
  | some id₀ =>
    refine .bind (.stmt .succeeded) fun _ => .bind (.stmt (.audit _)) fun _ => .bind (.stmt .metric) fun _ => ?_
    split
    · exact .bind (.stmt (.review id₀)) fun _ => .bind (.stmt (.audit _)) fun _ => trivial
    · trivial
  | none =>
    refine .bind (.stmt .stored) fun stored => ?_
    cases stored <;> trivial

/-- What `process_job` asks for. -/
inductive Cmd.OfProcess (job : JobMessage) : Cmd → Prop where
  | perfCounter : OfProcess job .perfCounter
  | decisionId : OfProcess job (.sql (.decisionId job.jobId))
  | decided : OfProcess job (.sql (.decisionEnvelope job.jobId))
  | processing : OfProcess job (.sql (.startProcessing job.jobId))
  | fetch : OfProcess job (.fetchObject job.objectKey)
  | analyze (image : List UInt8) : OfProcess job (.analyze image job.caption)
  | classify (vision : VisionSignals) : OfProcess job (.classify job.caption vision)
  | persist {envelope : DecisionEnvelope} {q : Cmd} (h : q.OfPersist envelope) : OfProcess job q

theorem processJob_only (settings : WorkerSettings) (job : JobMessage) :
    (processJob settings job).Only (Cmd.OfProcess job) := by
  refine .bind (.ask .perfCounter) fun _ => .bind (.stmt .decisionId) fun found => ?_
  cases found with
  | some id₀ =>
    refine .bind (.stmt .decided) fun stored => ?_
    cases stored <;> trivial
  | none =>
    exact .bind (.stmt .processing) fun _ => .bind (.ask .fetch) fun _ => .bind .ofExcept fun _ =>
      .bind (.ask (.analyze _)) fun _ => .bind (.ask (.classify _)) fun _ => .bind (.ask .perfCounter) fun _ =>
      .bind .ofExcept fun envelope => (persistEnvelope_only envelope).mono fun _ => .persist

theorem Cmd.OfPersist.other {envelope : DecisionEnvelope} {q : Cmd} (h : q.OfPersist envelope) : q.Other := by
  cases h <;> rfl

theorem Cmd.OfProcess.other {job : JobMessage} {q : Cmd} (h : q.OfProcess job) : q.Other := by
  cases h with
  | persist h => exact h.other
  | _ => rfl

/-- What a worker asks for once it has received a message. -/
inductive Cmd.OfDelivery : Cmd → Prop where
  | connect : OfDelivery .connect
  | status (id : Uuid) : OfDelivery (.sql (.jobStatus id))
  | process {job : JobMessage} {q : Cmd} (h : q.OfProcess job) : OfDelivery q
  | attempts (id : Uuid) : OfDelivery (.sql (.jobAttempts id))
  | failed (id : Uuid) (status : JobStatus) (error : String) : OfDelivery (.sql (.markFailed id status error))
  | audit (row : AuditRow) : OfDelivery (.sql (.insertAudit row))
  | log (line : LogLine) : OfDelivery (.log line)
  | delete (receipt : Nat) : OfDelivery (.delete .main receipt)

theorem Cmd.OfDelivery.other {q : Cmd} (h : q.OfDelivery) : q.Other := by
  cases h with
  | process h => exact h.other
  | _ => rfl

theorem Cmd.OfDelivery.not_receive {q : Cmd} (h : q.OfDelivery) (queue : QueueName) (max : Nat) :
    q ≠ .receive queue max := by
  rintro rfl
  cases h with
  | process h => cases h with
    | persist h => cases h

theorem markFailed_only (job : Uuid) (error : String) : (markFailed job error).Only Cmd.OfDelivery := by
  refine .bind (.stmt (.attempts job)) fun found => ?_
  cases found with
  | none => trivial
  | some attempts => exact .bind (.stmt (.failed job _ _)) fun _ => .stmt (.audit _)

theorem handleJob_only (settings : WorkerSettings) (job : JobMessage) :
    (handleJob settings job).Only Cmd.OfDelivery := by
  refine .bind (.ask .connect) fun _ => .bind (.stmt (.status _)) fun status => ?_
  split
  · trivial
  · refine .bind ((processJob_only settings job).mono fun _ => .process).attempt fun r => ?_
    split
    · trivial
    · exact .bind (markFailed_only _ _) fun _ => .bind (.ask (.log _)) fun _ => trivial
    · exact .bind (markFailed_only _ _) fun _ => .bind (.ask (.log _)) fun _ => trivial

theorem handleMessage_only (settings : WorkerSettings) (body : Json) :
    (handleMessage settings body).Only Cmd.Other :=
  .bind .ofExcept fun job => (handleJob_only settings job).mono fun _ h => h.other

theorem consume_only (settings : WorkerSettings) (b : RawBody) : (consume settings b).Only Cmd.OfDelivery := by
  simp only [consume]
  split
  · trivial
  · trivial
  · exact .bind .ofExcept fun job => handleJob_only settings job
  · trivial

theorem deliverAllSqs_only (settings : WorkerSettings) (ms : List Message) :
    (deliverAllSqs settings ms).Only Cmd.OfDelivery := by
  induction ms with
  | nil => trivial
  | cons msg ms ih =>
    refine .bind (.bind (Only.attempt (.bind (consume_only settings msg.body) fun _ => .ask (.delete _)))
      fun r => ?_) fun _ => ih
    split
    · trivial
    · exact .ask (.delete _)
    · trivial

theorem pollSqs_only (settings : WorkerSettings) (rounds : Nat) :
    (pollSqs settings rounds).Only Cmd.Other := by
  induction rounds with
  | zero => trivial
  | succ rounds ih =>
    refine .bind (Only.attempt (.ask rfl)) fun r => ?_
    cases r with
    | error x => exact .bind (.ask rfl) fun _ => ih
    | ok ms => exact .bind ((deliverAllSqs_only settings ms).mono fun _ h => h.other) fun _ => ih

theorem deliverPubsub_only (settings : WorkerSettings) (acks : Acks) (received : List Message) :
    (deliverPubsub settings acks received).Only Cmd.OfDelivery := by
  induction received generalizing acks with
  | nil => trivial
  | cons msg received ih =>
    refine .bind (consume_only settings msg.body).attempt fun r => ?_
    split <;> exact ih _

theorem Cmd.Quiet.not_receive {q : Cmd} (h : q.Quiet) (queue : QueueName) (max : Nat) :
    q ≠ .receive queue max := by
  rintro rfl
  cases h

theorem settle_only (acks : Acks) : (settle acks).Only Cmd.Quiet := by
  have nack : (do
      if acks.nackIds ≠ [] then
        let _ ← request (.modifyAckDeadline acks.nackIds) : M Unit).Only Cmd.Quiet := by
    split
    · exact .bind (.ask rfl) fun _ => trivial
    · trivial
  simp only [settle]
  split
  · exact .bind (.ask rfl) fun _ => nack
  · exact nack

theorem pollPubsub_only (settings : WorkerSettings) (rounds : Nat) :
    (pollPubsub settings rounds).Only Cmd.Other := by
  have hpull : (pullPubsub settings rounds).Only Cmd.Other := by
    induction rounds with
    | zero => trivial
    | succ rounds ih =>
      refine .bind (Only.attempt (.ask rfl)) fun r => ?_
      cases r with
      | error x =>
        dsimp only
        split
        · exact ih
        · exact .bind (.ask rfl) fun _ => ih
      | ok received =>
        exact .bind ((deliverPubsub_only settings {} received).mono fun _ h => h.other) fun acks =>
          .bind (settle_only acks).other fun _ => ih
  simp only [pollPubsub]
  split
  · trivial
  · exact hpull

/-! ## The redrive -/

/-- What a message of the dead-letter queue makes `redrive` ask for. -/
inductive Cmd.OfRedrive (raw : Message) : Cmd → Prop where
  | status (jobId : String) : OfRedrive raw (.sql (.castJobStatus jobId))
  | reset (jobId : String) : OfRedrive raw (.sql (.resetJob jobId))
  | audit (jobId : String) (detail : Jsonb) : OfRedrive raw (.sql (.auditRedrive jobId detail))
  | send : OfRedrive raw (.sendMessage raw.body (redriveAttributes (dlqMessage raw)))
  | delete : OfRedrive raw (.delete .dlq raw.id)

theorem redriveMessage_asks (args : RedriveArgs) (counts : RedriveCounts) (raw : Message) :
    (redriveMessage args counts raw).Only (Cmd.OfRedrive raw) := by
  have hlookup : (lookupStatus args (dlqMessage raw)).Only (Cmd.OfRedrive raw) := by
    simp only [lookupStatus]
    split
    · exact .bind .ofExcept fun _ => .stmt (.status _)
    · trivial
  have hreset : ∀ action, (resetIfPlanned args action (dlqMessage raw)).Only (Cmd.OfRedrive raw) := by
    intro action
    simp only [resetIfPlanned]
    split
    · refine .bind (.stmt (.reset _)) fun found => ?_
      cases found with
      | none => trivial
      | some u => exact .bind (.stmt (.audit ..)) fun _ => trivial
    · trivial
  unfold redriveMessage
  cases hparse : parseDlqMessage raw with
  | error x => trivial
  | ok msg =>
    obtain rfl := dlqMessage_of_parse hparse
    rw [Prog.ofExcept_ok_bind]
    refine .bind hlookup fun status => ?_
    dsimp only
    split
    case h_6 =>
      refine .bind .ofExcept fun _ => ?_
      split
      · trivial
      · exact .bind (hreset _) fun _ => .bind .ofExcept fun _ => .bind (.ask .send) fun _ =>
          .bind (.ask .delete) fun _ => trivial
    all_goals exact .bind .ofExcept fun _ => trivial

theorem redriveMessage_only (args : RedriveArgs) (counts : RedriveCounts) (raw : Message) :
    (redriveMessage args counts raw).Only Cmd.Other :=
  (redriveMessage_asks args counts raw).mono fun q hq => by cases hq <;> rfl

theorem redrive_only (args : RedriveArgs) : (redrive args).Only Cmd.Other := by
  have messages : ∀ (ms : List Message) counts, (redriveMessages args counts ms).Only Cmd.Other := by
    intro ms
    induction ms with
    | nil => exact fun _ => trivial
    | cons raw ms ih => exact fun counts => .bind (redriveMessage_only args counts raw) fun counts => ih counts
  have loop : ∀ rounds remaining counts, (redriveLoop args rounds remaining counts).Only Cmd.Other := by
    intro rounds
    induction rounds with
    | zero => exact fun _ _ => trivial
    | succ rounds ih =>
      intro remaining counts
      simp only [redriveLoop]
      split
      · trivial
      · refine .bind (.ask rfl) fun ms => ?_
        split
        · trivial
        · exact .bind (messages ms counts) fun counts => ih _ counts
  have run : (do
      let counts ← redriveLoop args args.limit args.limit {}
      return ({ exitCode := 0, counts } : RedriveReport) : M RedriveReport).Only Cmd.Other :=
    .bind (loop _ _ _) fun _ => trivial
  simp only [redrive]
  split
  · trivial
  · refine .bind (.ask rfl) fun _ => .bind (.ask rfl) fun _ => ?_
    split
    · exact run
    · refine .bind (Only.attempt (.ask rfl)) fun connected => ?_
      cases connected with
      | error x => trivial
      | ok u => exact run

/-! ## Ingest -/

theorem persistJob_only (content : ContentItem) (jobId : Uuid) (tenantId : String) :
    (persistJob content jobId tenantId).Only Cmd.Other := by
  refine transaction_only rfl rfl rfl (.tryCatch (.bind (.stmt rfl) fun _ => .bind (.stmt rfl) fun _ =>
    .bind (.stmt rfl) fun _ => trivial) fun x => ?_)
  split
  · refine .bind (.stmt rfl) fun found => ?_
    cases found <;> trivial
  · trivial

theorem awaitIngest_only (digest : String) (n : Nat) : (awaitIngest digest n).Only Cmd.Quiet := by
  induction n with
  | zero => trivial
  | succ n ih =>
    refine .bind (.stmt rfl) fun found => ?_
    cases found with
    | some j => trivial
    | none => exact .bind (.ask rfl) fun _ => ih

/-- What `accept_image` asks for, for an image of the given digest. -/
inductive Cmd.OfAccept (settings : ApiSettings) (req : IngestRequest) (digest : String) : Cmd → Prop where
  | connect : OfAccept settings req digest .connect
  | existingJob : OfAccept settings req digest (.sql (.existingJob digest))
  | lock : OfAccept settings req digest (.redisSetNx ("ingest:" ++ digest) "1" 120)
  | jobByHash : OfAccept settings req digest (.sql (.jobByHash digest))
  | sleep : OfAccept settings req digest .sleep
  | uuid4 : OfAccept settings req digest .uuid4
  | put (key : String) : OfAccept settings req digest (.putObject key req.body req.contentType)
  | begin : OfAccept settings req digest .begin
  | commit : OfAccept settings req digest .commit
  | rollback : OfAccept settings req digest .rollback
  | content (row : ContentItem) (hash : row.contentHash = digest) :
    OfAccept settings req digest (.sql (.insertContent row))
  | job (jobId contentId : Uuid) : OfAccept settings req digest (.sql (.insertJob jobId contentId digest))
  | audit (jobId : Uuid) : OfAccept settings req digest
      (.sql (.insertAudit ⟨"job", jobId, "enqueued", "api", enqueuedDetail digest req.tenantId req.source⟩))
  | enqueue (jobId : Uuid) (body : Json) : OfAccept settings req digest
      (.enqueue settings.provider jobId body (jobAttributes req.carrier jobId digest))
  | enqueueFailed (jobId : Uuid) (error : String) :
    OfAccept settings req digest (.sql (.markEnqueueFailed jobId error))

theorem acceptImage_only (sha256 : Digest) (settings : ApiSettings) (req : IngestRequest) :
    (acceptImage sha256 settings req).Only
      (Cmd.OfAccept settings req (contentHash sha256 req.body (strip req.caption) settings.policyVersion)) := by
  simp only [acceptImage]
  generalize contentHash sha256 req.body (strip req.caption) settings.policyVersion = digest
  have waits : ∀ n, (awaitIngest digest n).Only (Cmd.OfAccept settings req digest) := by
    intro n
    induction n with
    | zero => trivial
    | succ n ih =>
      refine .bind (.stmt .jobByHash) fun found => ?_
      cases found with
      | some j => trivial
      | none => exact .bind (.ask .sleep) fun _ => ih
  have persists : ∀ (row : ContentItem) (jobId : Uuid), row.contentHash = digest → row.source = req.source →
      (persistJob row jobId req.tenantId).Only (Cmd.OfAccept settings req digest) := by
    rintro row jobId rfl hsource
    refine .bind (.ask .begin) fun _ => .bind (.attempt (.tryCatch ?_ fun x => ?_)) fun r => ?_
    · rw [hsource]
      exact .bind (.stmt (.content row rfl)) fun _ => .bind (.stmt (.job ..)) fun _ =>
        .bind (.stmt (.audit _)) fun _ => trivial
    · split
      · refine .bind (.stmt .jobByHash) fun found => ?_
        cases found <;> trivial
      · trivial
    · cases r with
      | ok a => exact .bind (.ask .commit) fun _ => trivial
      | error x => exact .bind (.ask .rollback) fun _ => trivial
  have sends : ∀ (row : ContentItem) (jobId : Uuid), row.contentHash = digest →
      (sendJob settings req.carrier row jobId).Only (Cmd.OfAccept settings req digest) := by
    rintro row jobId rfl
    refine .bind (.attempt (.ask (.enqueue ..))) fun r => ?_
    cases r with
    | ok u => trivial
    | error x => exact .bind (.ask .connect) fun _ => .bind (.stmt (.enqueueFailed ..)) fun _ => trivial
  split
  · trivial
  split
  · trivial
  split
  · trivial
  refine .bind (.ask .connect) fun _ => .bind (.stmt .existingJob) fun found => ?_
  cases found with
  | some j => trivial
  | none =>
    refine .bind (.ask .lock) fun acquired => ?_
    split
    · refine .bind (.ask .uuid4) fun contentId => .bind (.ask .uuid4) fun jobId =>
        .bind (.attempt (.ask (.put _))) fun stored => ?_
      cases stored with
      | error x => trivial
      | ok u =>
        refine .bind (.ask .connect) fun _ => .bind (persists _ _ rfl rfl) fun found => ?_
        cases found with
        | some response => trivial
        | none => exact sends _ _ rfl
    · exact .bind (.ask .connect) fun _ => waits 20

/-- A part of `accept_image` that sends at most `n` messages, and does nothing with reviews. -/
structure SendsUpTo (n : Nat) (p : M α) : Prop where
  atMost : p.AtMost Cmd.IsEnqueue n
  apart : p.Only fun q : Cmd => q.Apart ∧ ¬ q.IsResolve

theorem SendsUpTo.bind {β : Type} {m n : Nat} {p : M α} {f : α → M β} (hp : SendsUpTo m p)
    (hf : ∀ a, SendsUpTo n (f a)) :
    SendsUpTo (m + n) (p >>= f) := ⟨hp.1.bind fun a => (hf a).1, hp.2.bind fun a => (hf a).2⟩

theorem SendsUpTo.of_only {p : M α} (h : p.Only Cmd.Other) (n : Nat) : SendsUpTo n p :=
  ⟨.of_only (h.mono fun _ hq => hq.sends) n, h.mono fun _ hq => ⟨hq.apart, hq.resolves⟩⟩

theorem SendsUpTo.then {β : Type} {n : Nat} {p : M α} {f : α → M β} (hp : p.Only Cmd.Other)
    (hf : ∀ a, SendsUpTo n (f a)) : SendsUpTo n (p >>= f) := by
  have := (SendsUpTo.of_only hp 0).bind hf
  rwa [Nat.zero_add] at this

theorem sendJob_sends (settings : ApiSettings) (carrier : List (String × String)) (content : ContentItem)
    (jobId : Uuid) : SendsUpTo 1 (sendJob settings carrier content jobId) := by
  have henq : SendsUpTo 1 (enqueueJob settings carrier jobId content.id content.contentHash content.objectKey
      content.caption).attempt := by
    exact ⟨(AtMost.perform _).attempt, Only.attempt (Only.perform ⟨⟨id, fun _ => rfl⟩, id⟩)⟩
  refine SendsUpTo.bind (n := 0) henq fun r => ?_
  cases r with
  | ok u => exact ⟨trivial, trivial⟩
  | error x =>
    exact .then (.ask rfl) fun _ => .then (.stmt rfl) fun _ => ⟨trivial, trivial⟩

theorem acceptImage_sends (sha256 : Digest) (settings : ApiSettings) (req : IngestRequest) :
    SendsUpTo 1 (acceptImage sha256 settings req) := by
  have raise : ∀ x : Exn, SendsUpTo 1 (throw x : M IngestResponse) := fun _ => ⟨trivial, trivial⟩
  have waits : ∀ digest, (request .connect >>= fun _ => awaitIngest digest 20 : M IngestResponse).Only Cmd.Other :=
    fun digest => .bind (.ask rfl) fun _ => (awaitIngest_only digest 20).other
  simp only [acceptImage]
  split
  · exact raise _
  split
  · exact raise _
  split
  · exact raise _
  refine .then (.ask rfl) fun _ => .then (.stmt rfl) fun found => ?_
  cases found with
  | some j => exact ⟨trivial, trivial⟩
  | none =>
    refine .then (.ask rfl) fun acquired => ?_
    split
    · refine .then (.ask rfl) fun contentId => .then (.ask rfl) fun jobId =>
        .then (Only.attempt (.ask rfl)) fun r => ?_
      cases r with
      | error x => exact raise _
      | ok u =>
        refine .then (.ask rfl) fun _ => .then (persistJob_only _ _ _) fun found => ?_
        cases found with
        | some response => exact ⟨trivial, trivial⟩
        | none => exact sendJob_sends _ _ _ _
    · exact .of_only (waits _) 1

/-! ## Reviews -/

theorem acquireReviewClaim_only (reviewId reviewer : String) (ttlSeconds : Nat) :
    (acquireReviewClaim reviewId reviewer ttlSeconds).Only Cmd.Quiet := by
  have refresh : ∀ current : Option String, (do
      if current = some reviewer then
        let _ ← request (.redisExpire (claimKey reviewId) ttlSeconds)
        return (true, some reviewer)
      else return (false, current) : M (Bool × Option String)).Only Cmd.Quiet := by
    intro current
    split
    · exact .bind (.ask rfl) fun _ => trivial
    · trivial
  refine .bind (.ask rfl) fun current => ?_
  split
  · refine .bind (.ask rfl) fun acquired => ?_
    split
    · trivial
    · exact .bind (.ask rfl) refresh
  · exact refresh current

theorem releaseReviewClaim_only (reviewId reviewer : String) :
    (releaseReviewClaim reviewId reviewer).Only Cmd.Quiet := by
  refine .bind (.ask rfl) fun current => ?_
  split
  · exact .ask rfl
  · trivial

theorem auditReleased_only (rows : List (Uuid × Option String)) : (auditReleased rows).Only Cmd.Other := by
  induction rows with
  | nil => trivial
  | cons row rows ih => exact .bind (.stmt rfl) fun _ => ih

theorem rowsToReviews_only (rows : List ReviewFull) : (rowsToReviews rows).Only Cmd.Quiet := by
  induction rows with
  | nil => trivial
  | cons row rows ih =>
    exact .bind (.bind (.ask rfl) fun _ => trivial) fun _ => .bind ih fun _ => trivial

theorem fullToReview_only (full : Option ReviewFull) : (fullToReview full).Only Cmd.Quiet := by
  cases full with
  | some row => exact .bind (.ask rfl) fun _ => trivial
  | none => trivial

theorem resolveReview_only (reviewId : Uuid) (body : ResolveRequest) :
    (resolveReview reviewId body).Only fun q : Cmd => ¬ q.IsEnqueue ∧ q.Apart := by
  have other : ∀ {α : Type} {p : M α}, p.Only Cmd.Other → p.Only fun q : Cmd => ¬ q.IsEnqueue ∧ q.Apart :=
    fun h => h.mono fun _ hq => ⟨hq.sends, hq.apart⟩
  refine .bind (other (.ask rfl)) fun now => .bind (other (.ask rfl)) fun owner => ?_
  cases owner with
  | none => trivial
  | some owner =>
    dsimp only
    split
    · trivial
    refine .bind (other (.ask rfl)) fun _ => .bind (other (.stmt rfl)) fun model => ?_
    cases model with
    | none => trivial
    | some model =>
      dsimp only
      split
      · trivial
      refine .bind (Only.perform ⟨id, id, fun _ => rfl⟩) fun resolved => ?_
      cases resolved with
      | none => trivial
      | some _ =>
        exact .bind (other (.stmt rfl)) fun _ => .bind (other (.stmt rfl)) fun full =>
          .bind (other (releaseReviewClaim_only _ _).other) fun _ => other (fullToReview_only full).other

/-- A part of a review route that sends nothing, resolves nothing, and releases
what it has selected. -/
structure ReleasesPaired (p : M α) : Prop where
  only : p.Only fun q : Cmd => ¬ q.IsEnqueue ∧ ¬ q.IsResolve
  follows : p.Follows releaseMonitor (fun _ x => x = none) none

theorem ReleasesPaired.bind {β : Type} {p : M α} {f : α → M β} (hp : ReleasesPaired p)
    (hf : ∀ a, ReleasesPaired (f a)) :
    ReleasesPaired (p >>= f) := by
  refine ⟨hp.1.bind fun a => (hf a).1, .bind (hp.2.mono fun r y hy => ?_)⟩
  cases r with
  | ok a => exact hy ▸ (hf a).2
  | error x => exact hy

theorem ReleasesPaired.of_only {p : M α} (h : p.Only Cmd.Other) : ReleasesPaired p :=
  ⟨h.mono fun _ hq => ⟨hq.sends, hq.resolves⟩, .of_only (h.mono fun _ hq => hq.apart.free)⟩

theorem releaseExpiredClaims_releases (isolation : Isolation) (now : Time) :
    ReleasesPaired (releaseExpiredClaims isolation now) := by
  refine .bind ?_ fun rows => .bind (.of_only (auditReleased_only rows)) fun _ => .of_only trivial
  cases isolation with
  | atomic => exact .of_only (.stmt rfl)
  | readCommitted =>
    refine ⟨.bind (Only.perform ⟨id, id⟩) fun _ => Only.perform ⟨id, id⟩, ?_⟩
    -- the pair itself
    refine ⟨⟨fun _ h => (nomatch h), fun _ => id⟩, fun r => ?_⟩
    cases r with
    | error x => exact rfl
    | ok rows =>
      refine ⟨⟨fun _ h => Option.some.inj h, fun h => (nomatch h)⟩, fun r => ?_⟩
      cases r <;> exact rfl

theorem listReviews_releases (isolation : Isolation) (req : ListRequest) :
    ReleasesPaired (listReviews isolation req) := by
  refine .bind (.of_only (.ask rfl)) fun _ => .bind (.of_only (.ask rfl)) fun now =>
    .bind (releaseExpiredClaims_releases isolation now) fun _ => .of_only ?_
  split
  · exact .bind (.stmt rfl) fun rows => (rowsToReviews_only rows).other
  · exact .bind (.stmt rfl) fun rows => (rowsToReviews_only rows).other

theorem claimReview_releases (isolation : Isolation) (reviewId : Uuid) (body : ClaimRequest) :
    ReleasesPaired (claimReview isolation reviewId body) := by
  refine .bind (.of_only (.ask rfl)) fun now =>
    .bind (.of_only (acquireReviewClaim_only _ _ _).other) fun acquired => ?_
  dsimp only
  split
  · refine .bind (.of_only (.ask rfl)) fun _ => .bind (releaseExpiredClaims_releases isolation now) fun _ =>
      .of_only (.bind (.stmt rfl) fun claimed => ?_)
    cases claimed with
    | none =>
      refine .bind (releaseReviewClaim_only _ _).other fun _ => .bind (.stmt rfl) fun found => ?_
      cases found <;> trivial
    | some _ => exact .bind (.stmt rfl) fun full => .bind (.stmt rfl) fun _ => (fullToReview_only full).other
  · exact .of_only trivial

/-! ## All calls -/

/-- A call sends at most one job message. -/
theorem code_atMost (D : Deployment) (e : Entry) : (e.code D).AtMost Cmd.IsEnqueue 1 := by
  have other : ∀ {α : Type} {p : M α} {f : α → M Out}, p.Only Cmd.Other → (∀ a, (f a).Only Cmd.Other) →
      (p >>= f).AtMost Cmd.IsEnqueue 1 := fun hp hf => (SendsUpTo.of_only (.bind hp hf) 1).1
  cases e with
  | acceptImage settings req =>
    exact AtMost.bind (n := 0) (acceptImage_sends D.sha256 settings req).1 fun _ => trivial
  | handleMessage settings body => exact other (handleMessage_only settings body) fun _ => trivial
  | pollSqs settings rounds => exact other (pollSqs_only settings rounds) fun _ => trivial
  | pollPubsub settings rounds => exact other (pollPubsub_only settings rounds) fun _ => trivial
  | redrive args => exact other (redrive_only args) fun _ => trivial
  | listReviews req =>
    have hp := (listReviews_releases D.isolation req).bind (f := fun a => pure (Out.reviews a))
      fun _ => .of_only trivial
    exact .of_only (hp.only.mono fun _ hq => hq.1) 1
  | claimReview reviewId body =>
    have hp := (claimReview_releases D.isolation reviewId body).bind (f := fun a => pure (Out.review a))
      fun _ => .of_only trivial
    exact .of_only (hp.only.mono fun _ hq => hq.1) 1
  | resolveReview reviewId body =>
    have hp := (resolveReview_only reviewId body).mono fun _ hq => hq.1
    exact .of_only (Only.bind (f := fun a => pure (Out.review a)) hp fun _ => trivial) 1

/-- Every call follows the monitor of releases. -/
theorem code_releases (D : Deployment) (e : Entry) :
    (e.code D).Follows releaseMonitor (fun _ x => x = none) none := by
  have other : ∀ {α : Type} {p : M α} {f : α → M Out}, p.Only Cmd.Other → (∀ a, (f a).Only Cmd.Other) →
      (p >>= f).Follows releaseMonitor (fun _ x => x = none) none :=
    fun hp hf => (ReleasesPaired.of_only (.bind hp hf)).2
  cases e with
  | acceptImage settings req =>
    have hp := (acceptImage_sends D.sha256 settings req).2.mono fun _ hq => hq.1.free
    exact .of_only (.bind hp fun _ => trivial)
  | handleMessage settings body => exact other (handleMessage_only settings body) fun _ => trivial
  | pollSqs settings rounds => exact other (pollSqs_only settings rounds) fun _ => trivial
  | pollPubsub settings rounds => exact other (pollPubsub_only settings rounds) fun _ => trivial
  | redrive args => exact other (redrive_only args) fun _ => trivial
  | listReviews req =>
    exact ((listReviews_releases D.isolation req).bind
      (f := fun a => pure (Out.reviews a)) fun _ => .of_only trivial).2
  | claimReview reviewId body =>
    have hp := claimReview_releases D.isolation reviewId body
    exact (hp.bind (f := fun a => pure (Out.review a)) fun _ => .of_only trivial).2
  | resolveReview reviewId body =>
    have hp := (resolveReview_only reviewId body).mono fun _ hq => hq.2.free
    exact .of_only (.bind hp fun _ => trivial)

/-- What is left of a call of `resolve_review` in the phase `x`. -/
def Resolves (reviewId : Uuid) (body : ResolveRequest) (x : ResolvePhase) (p : M Out) : Prop :=
  p.Follows (resolveMonitor (.resolveReview reviewId body)) (resolveEnds (.resolveReview reviewId body)) x

theorem Resolves.failed {reviewId : Uuid} {body : ResolveRequest} (x : Exn) :
    Resolves reviewId body .closed (Prog.throw x) := ⟨fun _ h => (nomatch h), fun _ h => (nomatch h)⟩

/-- What follows the UPDATE. -/
theorem Resolves.of_only {reviewId : Uuid} {body : ResolveRequest} {p : M Out}
    (h : p.Only fun q : Cmd => ¬ q.IsResolve) : Resolves reviewId body .resolved p := by
  have free : p.Follows (resolveMonitor (.resolveReview reviewId body)) (fun _ y => y = .resolved) .resolved :=
    .of_only (h.mono fun _ hq => ⟨hq, fun _ => rfl⟩)
  refine free.mono fun _ y hy => ?_
  rw [hy]
  exact ⟨fun _ h => (nomatch h), fun _ _ => rfl⟩

theorem resolved_only (reviewId : Uuid) (body : ResolveRequest) (row : AuditRow) : (do
    let item ← (do
      let _ ← sql (.insertAudit row)
      let full ← sql (.reviewFull reviewId)
      releaseReviewClaim reviewId.str body.reviewer
      fullToReview full : M ReviewItemOut)
    return .review item : M Out).Only Cmd.Other :=
  .bind (.bind (.stmt rfl) fun _ => .bind (.stmt rfl) fun full => .bind (releaseReviewClaim_only _ _).other fun _ =>
    (fullToReview_only full).other) fun _ => trivial

theorem resolveLocked_resolves (reviewId : Uuid) (body : ResolveRequest) (now : Time) :
    Resolves reviewId body (.locked now) (resolveLocked reviewId body now >>= fun item => pure (.review item)) := by
  refine ⟨.connect, fun connected => ?_⟩
  cases connected with
  | error x => exact Resolves.failed x
  | ok u =>
    refine ⟨.modelDecision, fun model => ?_⟩
    cases model with
    | error x => exact Resolves.failed x
    | ok model =>
      cases model with
      | none => exact Resolves.failed _
      | some model =>
        -- the override check
        show Resolves reviewId body (if body.refused model then .closed else .locked now)
          ((if body.refused model then _ else _) >>= _)
        cases body.refused model with
        | true => exact Resolves.failed _
        | false =>
          refine ⟨.update .., fun updated => ?_⟩
          cases updated with
          | error x => exact Resolves.failed x
          | ok updated =>
            cases updated with
            | none => exact Resolves.failed _
            | some id =>
              exact Resolves.of_only ((resolved_only reviewId body _).mono fun _ hq => hq.resolves)

theorem resolveReview_resolves (reviewId : Uuid) (body : ResolveRequest) :
    Resolves reviewId body .start (resolveReview reviewId body >>= fun item => pure (.review item)) := by
  refine ⟨id, fun now => ?_⟩
  cases now with
  | error x => exact Resolves.failed x
  | ok now =>
    refine ⟨id, fun owner => ?_⟩
    cases owner with
    | error x => exact Resolves.failed x
    | ok owner =>
      cases owner with
      | none => exact Resolves.failed _
      | some owner =>
        show Resolves reviewId body (if owner = body.reviewer then .locked now else .closed)
          ((if owner ≠ body.reviewer then _ else _) >>= _)
        by_cases ho : owner = body.reviewer
        · rw [if_pos ho, if_neg (not_not_intro ho)]
          exact resolveLocked_resolves reviewId body now
        · rw [if_neg ho, if_pos ho]
          exact Resolves.failed _

/-- Every call follows the monitor of resolutions. -/
theorem code_resolves (D : Deployment) (e : Entry) :
    (e.code D).Follows (resolveMonitor e) (resolveEnds e) .start := by
  have free : ∀ {p : M Out} {e : Entry}, (∀ id body, e ≠ .resolveReview id body) →
      (p.Only fun q : Cmd => ¬ q.IsResolve) → p.Follows (resolveMonitor e) (resolveEnds e) .start := by
    intro p e he hp
    have hfree : p.Follows (resolveMonitor e) (fun _ _ => True) .start := .of_free (hp.mono fun q hq y => by
      cases e with
      | resolveReview id body => exact absurd rfl (he id body)
      | _ => exact hq)
    refine hfree.mono fun _ _ _ => ?_
    cases e with
    | resolveReview id body => exact absurd rfl (he id body)
    | _ => trivial
  have other : ∀ {α : Type} {p : M α} {f : α → M Out}, p.Only Cmd.Other → (∀ a, (f a).Only Cmd.Other) →
      (p >>= f).Only fun q : Cmd => ¬ q.IsResolve := fun hp hf => (Only.bind hp hf).mono fun _ hq => hq.resolves
  cases e with
  | acceptImage settings req =>
    have hp := (acceptImage_sends D.sha256 settings req).2.mono fun _ hq => hq.2
    exact free (by simp) (.bind hp fun _ => trivial)
  | handleMessage settings body => exact free (by simp) (other (handleMessage_only settings body) fun _ => trivial)
  | pollSqs settings rounds => exact free (by simp) (other (pollSqs_only settings rounds) fun _ => trivial)
  | pollPubsub settings rounds => exact free (by simp) (other (pollPubsub_only settings rounds) fun _ => trivial)
  | redrive args => exact free (by simp) (other (redrive_only args) fun _ => trivial)
  | listReviews req =>
    have hp := (listReviews_releases D.isolation req).only.mono fun _ hq => hq.2
    exact free (by simp) (.bind hp fun _ => trivial)
  | claimReview reviewId body =>
    have hp := (claimReview_releases D.isolation reviewId body).only.mono fun _ hq => hq.2
    exact free (by simp) (.bind hp fun _ => trivial)
  | resolveReview reviewId body => exact resolveReview_resolves reviewId body

end CM
