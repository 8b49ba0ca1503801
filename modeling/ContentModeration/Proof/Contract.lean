import ContentModeration.Framework.Rules
import ContentModeration.Proof.Changes

/-!
# What requests must keep

The rules of the services (`rules`): the invariant of the stores (`Inv`), what
a thread may count on between its requests (`Kept`), and what it must know
before each request (`Contract`). A transaction is committed only when it is
complete: empty, a decision with all that goes with it (`decisionBundle`), or
a new job with its content (`ingestBundle`). A message is deleted only when it
is covered otherwise: by a later copy in a queue, by a decision, or by a
rejection (`Covered`).

The rules have an optional part: if no message is lost when it is sent (`A`), a
call that has created a job sends its message before it makes any other
request (`Settled`).
-/

namespace CM

/-! ## What holds for good -/

/-- The body of a message is read as a job message. -/
def Reads (b : RawBody) (m : JobMessage) : Prop := ∃ v, b = .json v ∧ readJobMessage v = .ok m

/-- The job of a body is committed, with the content that the body names. -/
def BodyOk (db : Database) (b : RawBody) : Prop :=
  ∀ m, Reads b m → (m.jobId, m.contentId, m.contentHash) ∈ db.jobs.map Job.link ∧
    ∃ c ∈ db.contents, c.id = m.contentId ∧ c.contentHash = m.contentHash ∧ c.objectKey = m.objectKey ∧
      c.caption = m.caption

namespace World

/-- A delivery of the job ended in `ValidationError`, after `mark_failed`. -/
def Rejected (s : World) (job : Uuid) : Prop :=
  (∃ err, .validationFailed job err ∈ s.log) ∧
  ∃ row ∈ s.db.audit, row.entityType = "job" ∧ row.entityId = job ∧ row.actor = "worker" ∧
    (row.action = "failed" ∨ row.action = "dead")

/-- The message with the body `b` has done its work. -/
def Discharged (s : World) (b : RawBody) : Prop :=
  ∃ m, Reads b m ∧ (s.db.Decided m.jobId ∨ s.Rejected m.jobId)

/-- A message with the body `b` and at least the number `n` is in a queue, or
has done its work. -/
def Covered (s : World) (n : Nat) (b : RawBody) : Prop :=
  (∃ m ∈ s.messages, n ≤ m.id ∧ m.body = b) ∨ s.Discharged b

/-- The message `id` can be deleted. -/
def Released (s : World) (id : Nat) : Prop :=
  ∃ b, (∀ m ∈ s.messages, m.id = id → m.body = b) ∧ s.Covered (id + 1) b

/-- The job has a message, a decision or a rejection. -/
def JobCovered (s : World) (job : Uuid) : Prop := ∃ b m, Reads b m ∧ m.jobId = job ∧ s.Covered 0 b

/-- What no step of any thread undoes. -/
structure Grows (s s' : World) : Prop where
  now : s.now ≤ s'.now
  db : s.db.Extends s'.db
  nextMsg : s.nextMsg ≤ s'.nextMsg
  messages : ∀ m ∈ s'.messages, m ∈ s.messages ∨ s.nextMsg ≤ m.id
  drawn : s.drawn ⊆ s'.drawn
  log : s.log ⊆ s'.log
  covered : ∀ n b, s.Covered n b → s'.Covered n b

end World

/-- What may happen between two requests of thread `i`. -/
structure Kept (i : Nat) (s s' : World) : Prop where
  grows : s.Grows s'
  txn : s'.txn i = s.txn i
  drawn : ∀ u, (u, i) ∈ s'.drawn → (u, i) ∈ s.drawn
  jobs : ∀ u, (u, i) ∈ s.drawn → s'.db.HasJob u → s.db.HasJob u
  clockRead : s'.clockRead i = s.clockRead i

/-! ## The invariant -/

/-- A write that transactions do not make. -/
def Write.IsReviewUpdate (w : Write) : Prop := ∃ id u, w = .updateReview id u

/-- The invariant of the database and the open transactions. -/
structure Stored (s : World) : Prop where
  keys (i : Nat) : (s.db.keys ++ (s.pending i).flatMap Write.keys).Nodup
  apart {i j : Nat} : i ≠ j →
    ((s.pending i).flatMap Write.keys).Disjoint ((s.pending j).flatMap Write.keys)
  fk : s.db.FkOk
  refs (i : Nat) : ∀ w ∈ s.pending i, (s.db.applyAll (s.pending i)).Refs w
  kinds (i : Nat) : ∀ w ∈ s.pending i, ¬ w.IsReviewUpdate
  decided : ∀ j ∈ s.db.jobs, j.status = .succeeded → s.db.Decided j.id

/-- The invariant of the queues. -/
structure Queued (s : World) : Prop where
  ids : (s.messages.map Message.id).Nodup
  below : ∀ m ∈ s.messages, m.id < s.nextMsg
  bodies : ∀ m ∈ s.messages, BodyOk s.db m.body

/-- Every job has been drawn by a thread, and its hash is that of its content. -/
def Owned (s : World) : Prop :=
  ∀ x ∈ s.db.jobs.map Job.link, (∃ k, (x.1, k) ∈ s.drawn) ∧
    ∃ c ∈ s.db.contents, c.id = x.2.1 ∧ c.contentHash = x.2.2

structure Inv (s : World) : Prop where
  stored : Stored s
  queued : Queued s
  drawn : (s.drawn.map Prod.fst).Nodup
  owned : Owned s

theorem Inv.unique {s : World} (h : Inv s) : s.db.UniqueRows :=
  Database.uniqueRows_of_keys (h.stored.keys 0).of_append_left

/-! ## The contract of each request -/

/-- What `persist_envelope` commits for a new decision. -/
def decisionBundle (e : DecisionEnvelope) (id reviewId : Uuid) (t : Time) : List Write :=
  [.decision ⟨id, e⟩, .updateJob e.jobId (.succeeded t),
    .audit ⟨"decision", id, "created", "worker", .dumps (decisionDetail e)⟩,
    .metric ⟨"decision", decisionMetric e⟩] ++
  if e.needsHumanReview then
    [.review { id := reviewId, decisionId := id, contentId := e.contentId, jobId := e.jobId
               status := .pending, priority := reviewPriority e.decision e.confidence, createdAt := t },
      .audit ⟨"review", id, "enqueued", "worker", .cast "\x7b\x7d"⟩]
  else []

/-- What `accept_image` commits for a new job. -/
def ingestBundle (c : ContentItem) (jobId : Uuid) (tenantId : String) (t : Time) : List Write :=
  [.content c,
    .job { id := jobId, contentId := c.id, contentHash := c.contentHash, status := .queued, enqueuedAt := t },
    .audit ⟨"job", jobId, "enqueued", "api", enqueuedDetail c.contentHash tenantId c.source⟩]

/-- The writes of a transaction of thread `i` that may be committed. -/
inductive Complete (i : Nat) (s : World) : List Write → Prop where
  | nil : Complete i s []
  | decision (e : DecisionEnvelope) (id reviewId : Uuid) (t : Time) :
    Complete i s (decisionBundle e id reviewId t)
  | ingest (c : ContentItem) (jobId : Uuid) (tenantId : String) (t : Time) (drawn : (jobId, i) ∈ s.drawn) :
    Complete i s (ingestBundle c jobId tenantId t)

/-- The statements that are made in transactions. -/
def Sql.InTxn : Sql → Prop
  | .jobByHash _ | .decisionEnvelope _ | .insertContent _ | .insertJob .. | .insertDecision _
  | .markSucceeded _ | .insertMetric .. | .insertReview .. | .insertAudit _ => True
  | _ => False

/-- The reviewer's decision `decision` on the review `id`, with these notes, is
no override or has a note of three characters. -/
def OverrideOk (s : World) (id : Uuid) (decision : ReviewerDecision) (notes : String) : Prop :=
  ∃ x ∈ s.db.reviews.map ReviewRow.link, x.1 = id ∧ ∃ d ∈ s.db.decisions, d.id = x.2.1 ∧
    (isOverride decision d.envelope.decision = true → 3 ≤ notes.length)

/-- The statements that are made outside transactions, and what must be known
before them. -/
def Sql.Alone (D : Deployment) (s : World) : Sql → Prop
  | .insertContent _ | .insertJob .. | .insertDecision _ | .markSucceeded _ | .insertMetric ..
  | .insertReview .. => False
  | .insertAudit row => row.entityType ≠ "decision"
  | .markFailed _ status _ => status = .failed ∨ status = .dead
  | .selectExpired _ | .releaseRows .. => D.isolation = .readCommitted
  | .claimReview _ _ now expires => now ≤ s.now ∧ expires = now + seconds claimTtlSeconds
  | .resolveReview id status decision notes _ _ =>
    status = decision.status ∧ strip notes = notes ∧ OverrideOk s id decision notes
  | _ => True

/-- What thread `i` must know before a request. -/
def Contract (D : Deployment) (i : Nat) (s : World) : Cmd → Prop
  | .sql st =>
    match s.txn i with
    | none => st.Alone D s
    | some _ => st.InTxn
  | .begin => s.txn i = none
  | .commit => ∀ t ws, s.txn i = some (.active t ws) → Complete i s ws
  | .redisSetNx _ _ ttl | .redisExpire _ ttl => ttl ≤ claimTtlSeconds
  | .enqueue _ job body _ =>
    (job, i) ∈ s.drawn ∧ (∃ m, Reads (.json body) m ∧ m.jobId = job) ∧ BodyOk s.db (.json body)
  | .sendMessage body _ => BodyOk s.db body
  | .delete _ receipt => s.Released receipt
  | .acknowledge ackIds => ∀ id ∈ ackIds, s.Released id
  | _ => True

/-- The jobs that thread `i` has created have their messages, unless `q` is
about to send one. -/
def Settled (i : Nat) (s : World) (q : Cmd) : Prop :=
  ∀ u, (u, i) ∈ s.drawn → s.db.HasJob u →
    (∃ provider body attributes, q = .enqueue provider u body attributes) ∨ s.JobCovered u

/-- Sending a message takes effect, and committing a new job, if it takes
effect, does not raise. -/
def SendsOk (e : Entry) (q : Cmd) (p : Pick) (s : World) : Prop :=
  match q with
  | .enqueue provider _ body attributes =>
    provider ≠ .pubsub "" ∧ s.takes (.json body) attributes = true ∧ ∀ text, p.fault ≠ .before text
  | .commit => ∀ settings req, e = .acceptImage settings req → ∀ text, p.fault ≠ .after text
  | _ => True

/-- The rules of the services; under `A`, messages are always sent. -/
def rules (D : Deployment) (A : Prop) : Rules (service D) where
  allowed _ e q p s := A → SendsOk e q p s
  inv := Inv
  rely := Kept
  pre i q s := Contract D i s q ∧ (A → Settled i s q)

/-! ## Facts that last -/

namespace World

variable {s s' s'' : World}

theorem Grows.refl (s : World) : s.Grows s :=
  ⟨Nat.le_refl _, .refl _, Nat.le_refl _, fun _ h => .inl h, fun _ h => h, fun _ h => h, fun _ _ h => h⟩

theorem Grows.trans (h : s.Grows s') (h' : s'.Grows s'') : s.Grows s'' where
  now := Nat.le_trans h.now h'.now
  db := h.db.trans h'.db
  nextMsg := Nat.le_trans h.nextMsg h'.nextMsg
  messages m hm := by
    rcases h'.messages m hm with hm | hm
    · exact h.messages m hm
    · exact .inr (Nat.le_trans h.nextMsg hm)
  drawn := List.Subset.trans h.drawn h'.drawn
  log := List.Subset.trans h.log h'.log
  covered n b hc := h'.covered n b (h.covered n b hc)

theorem Rejected.mono {job : Uuid} (hl : s.log ⊆ s'.log) (ha : s.db.audit ⊆ s'.db.audit)
    (h : s.Rejected job) : s'.Rejected job := by
  obtain ⟨⟨err, he⟩, row, hr, h⟩ := h
  exact ⟨⟨err, hl he⟩, row, ha hr, h⟩

theorem Discharged.mono {b : RawBody} (hl : s.log ⊆ s'.log) (hd : s.db.Extends s'.db)
    (h : s.Discharged b) : s'.Discharged b := by
  obtain ⟨m, hm, h⟩ := h
  exact ⟨m, hm, h.imp (.mono hd) (.mono hl hd.audit)⟩

theorem JobCovered.mono {job : Uuid} (h : s.Grows s') (hc : s.JobCovered job) : s'.JobCovered job := by
  obtain ⟨b, m, hb, hm, hc⟩ := hc
  exact ⟨b, m, hb, hm, h.covered _ _ hc⟩

end World

theorem BodyOk.mono {db db' : Database} (h : db.Extends db') {b : RawBody} (hb : BodyOk db b) : BodyOk db' b := by
  intro m hm
  obtain ⟨hj, c, hc, h'⟩ := hb m hm
  exact ⟨h.jobs hj, c, h.contents hc, h'⟩

namespace Kept

variable {i : Nat} {s s' s'' : World}

theorem refl (s : World) : Kept i s s := ⟨.refl s, rfl, fun _ h => h, fun _ _ h => h, rfl⟩

theorem trans (h : Kept i s s') (h' : Kept i s' s'') : Kept i s s'' where
  grows := h.grows.trans h'.grows
  txn := h'.txn.trans h.txn
  drawn u hu := h.drawn u (h'.drawn u hu)
  jobs u hu hj := h.jobs u hu (h'.jobs u (h.grows.drawn hu) hj)
  clockRead := h'.clockRead.trans h.clockRead

end Kept

end CM
