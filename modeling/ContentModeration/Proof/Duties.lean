import ContentModeration.Proof.Verdicts

/-!
# Who may write what

Each call asks only for what is its business, in its caller's name, and at a time that it
has read from the clock (`Cmd.By`, `code_by`). A write is committed by the call whose
statement has made it (`asked_of_next`). So in every run, decisions are made by workers,
contents and jobs by the call of `accept_image` for their digest, claims and resolutions by
the reviewer whom they name, and an audit row tells the entity, the action and the actor of
what its call has done (`duties_of_run`).
-/

namespace CM

open Prog hiding throw

variable {D : Deployment} {i : Nat} {ok : (service D).Config → (service D).Action → Prop} {now : Time}
  {h : List (service D).Step} {c c' : (service D).Config} {e : Entry} {α β : Type}

/-! ## The business of each call -/

def Entry.IsWorker (e : Entry) : Prop := e.workerSettings?.isSome = true

/-- The routes that release expired claims. -/
def Entry.Releases : Entry → Prop
  | .listReviews _ | .claimReview .. => True
  | _ => False

/-- The message has been received. -/
def Received (x : Record) (raw : Message) : Prop := ∃ queue max ms, ⟨.receive queue max, .ok ms⟩ ∈ x ∧ raw ∈ ms

/-- The text is the job identifier of a message that was received. -/
def Named (x : Record) (text : String) : Prop :=
  ∃ raw jobId, Received x raw ∧ (dlqMessage raw).jobId = some jobId ∧ jobId.str = text

/-- The audit row of the job that the call has inserted. -/
def AuditsUpload (x : Record) (row : AuditRow) : Prop :=
  row.entityType = "job" ∧ row.action = "enqueued" ∧ row.actor = "api" ∧
  ∃ contentId contentHash, ⟨.sql (.insertJob row.entityId contentId contentHash), .ok ()⟩ ∈ x

/-- An audit row of the decision that the call has inserted, or of its review, or of the job that it has marked
as failed. -/
def AuditsWork (e : Entry) (x : Record) (row : AuditRow) : Prop :=
  row.actor = "worker" ∧
  ((∃ envelope, ⟨.sql (.insertDecision envelope), .ok (some row.entityId)⟩ ∈ x ∧
    (row.entityType = "decision" ∧ row.action = "created" ∨
      row.entityType = "review" ∧ row.action = "enqueued" ∧ envelope.needsHumanReview = true)) ∨
  ∃ b job status error, Handed e x b ∧ Reads b job ∧
    ⟨.sql (.markFailed job.jobId status error), .ok ()⟩ ∈ x ∧ row.entityType = "job" ∧ row.entityId = job.jobId ∧
    row.action = status.str)

/-- The audit row of the job that the call has reset for a message that it was given. -/
def AuditsReset (x : Record) (row : AuditRow) : Prop :=
  row.entityType = "job" ∧ row.action = "redrive" ∧ row.actor = "redrive-cli" ∧
  ∃ text u, Named x text ∧ castUuid text = .ok row.entityId ∧ ⟨.sql (.resetJob text), .ok (some u)⟩ ∈ x

/-- The audit row of a review that the call has released, in the name of its reviewer. -/
def AuditsRelease (x : Record) (row : AuditRow) : Prop :=
  row.entityType = "review" ∧ row.action = "claim_expired" ∧
  ∃ rows claimedBy, ((∃ t, ⟨.sql (.releaseExpired t), .ok rows⟩ ∈ x) ∨
      ∃ expired t, ⟨.sql (.releaseRows expired t), .ok rows⟩ ∈ x) ∧
    (row.entityId, claimedBy) ∈ rows ∧ row.actor = (claimedBy.filter (· ≠ "")).getD "system"

/-- The audit rows that a call with the record `x` writes. -/
def Entry.Audits (e : Entry) (x : Record) (row : AuditRow) : Prop :=
  match e with
  | .acceptImage .. => AuditsUpload x row
  | .redrive _ => AuditsReset x row
  | .listReviews _ => AuditsRelease x row
  | .claimReview id body => AuditsRelease x row ∨
      row.entityType = "review" ∧ row.entityId = id ∧ row.action = "claimed" ∧ row.actor = body.reviewer
  | .resolveReview id body =>
    row.entityType = "review" ∧ row.entityId = id ∧ row.action = "resolved" ∧ row.actor = body.reviewer
  | .handleMessage .. | .pollSqs .. | .pollPubsub .. => AuditsWork e x row

/-- The request is the business of a call that has the record `x`. -/
def Cmd.By (D : Deployment) (e : Entry) (x : Record) : Cmd → Prop
  | .sql (.insertContent row) =>
    ∃ settings req, e = .acceptImage settings req ∧ row.contentHash = digestOf D settings req
  | .sql (.insertJob _ _ contentHash) =>
    ∃ settings req, e = .acceptImage settings req ∧ contentHash = digestOf D settings req
  | .sql (.markEnqueueFailed ..) => ∃ settings req, e = .acceptImage settings req
  | .sql (.startProcessing _) | .sql (.insertDecision _) | .sql (.markSucceeded _) | .sql (.insertMetric ..)
  | .sql (.insertReview ..) | .sql (.markFailed ..) => e.IsWorker
  | .sql (.resetJob text) => ∃ args, e = .redrive args ∧ Named x text
  | .sql (.auditRedrive text _) =>
    ∃ args u, e = .redrive args ∧ Named x text ∧ ⟨.sql (.resetJob text), .ok (some u)⟩ ∈ x
  | .sql (.claimReview id reviewer now _) =>
    ∃ body, e = .claimReview id body ∧ reviewer = body.reviewer ∧ ⟨.utcnow, .ok now⟩ ∈ x
  | .sql (.resolveReview id _ decision notes reviewer now) =>
    ∃ body, e = .resolveReview id body ∧ decision = body.reviewerDecision ∧ notes = strip body.notes ∧
      reviewer = body.reviewer ∧ ⟨.utcnow, .ok now⟩ ∈ x
  | .sql (.releaseExpired now) | .sql (.releaseRows _ now) => e.Releases ∧ ⟨.utcnow, .ok now⟩ ∈ x
  | .sql (.insertAudit row) => e.Audits x row
  | .enqueue _ job body _ => ∃ settings req contentId key, e = .acceptImage settings req ∧
      body = jobBody settings job contentId (digestOf D settings req) key (strip req.caption)
  | .sendMessage body _ => ∃ queue max ms, ⟨.receive queue max, .ok ms⟩ ∈ x ∧ ∃ m ∈ ms, m.body = body
  | _ => True

/-! ## Every call minds its business -/

/-- A statement that writes nothing. -/
def Sql.reads : Sql → Bool
  | .existingJob _ | .jobByHash _ | .jobStatus _ | .decisionId _ | .decisionEnvelope _ | .jobAttempts _
  | .castJobStatus _ | .selectExpired _ | .reviewStatus _ | .reviewFull _ | .modelDecision _ | .reviewsByStatus ..
  | .reviewsNewest _ => true
  | _ => false

/-- A request that is anybody's business. -/
def Cmd.Common : Cmd → Prop
  | .sql st => st.reads = true
  | .enqueue .. | .sendMessage .. => False
  | _ => True

theorem Cmd.Common.by {q : Cmd} (h : q.Common) (x : Record) : q.By D e x := by
  cases q with
  | sql st => cases st <;> trivial
  | enqueue | sendMessage => exact h.elim
  | _ => trivial

/-- Every request of the program is the business of the call `e`. -/
def Minds (D : Deployment) (e : Entry) (x : Record) (p : M α) : Prop := p.Justified (Cmd.By D e) x

namespace Minds

variable {x : Record} {p : M α}

theorem only (hp : p.Only fun q : Cmd => ∀ y, q.By D e y) : Minds D e x p := Justified.of_only hp

theorem common (hp : p.Only Cmd.Common) : Minds D e x p := only (hp.mono fun _ hq => hq.by)

theorem ask {q : Cmd} {f : q.Ans → M α} (hq : q.By D e x) (hf : ∀ a, Minds D e (⟨q, .ok a⟩ :: x) (f a)) :
    Minds D e x (request q >>= f) := Justified.ask hq hf

theorem stmt {st : Sql} {f : st.Ans → M α} (hq : (Cmd.sql st).By D e x)
    (hf : ∀ a, Minds D e (⟨.sql st, .ok a⟩ :: x) (f a)) : Minds D e x (sql st >>= f) := Justified.ask hq hf

theorem one {st : Sql} (hq : (Cmd.sql st).By D e x) : Minds D e x (sql st) :=
  Justified.call hq fun r => by cases r <;> exact List.Subset.refl _

theorem bind {f : α → M β} (hp : Minds D e x p) (hf : ∀ a y, x ⊆ y → Minds D e y (f a)) : Minds D e x (p >>= f) :=
  Justified.bind hp hf

theorem ret (a : α) : Minds D e x (pure a : M α) := Justified.ret a

theorem raise (err : Exn) : Minds D e x (throw err : M α) := Justified.throw err

end Minds

/-! ## The worker -/

section Worker

variable {x : Record} {settings : WorkerSettings} {b : RawBody} {job : JobMessage}

theorem transaction_minds {body : M α} (hb : ∀ y, x ⊆ y → Minds D e y body) : Minds D e x (transaction body) :=
  justified_transaction (fun _ => ⟨trivial, trivial, trivial⟩) hb

theorem AuditsWork.audits {row : AuditRow} (hw : e.IsWorker) (h : AuditsWork e x row) : e.Audits x row := by
  cases e with
  | handleMessage | pollSqs | pollPubsub => exact h
  | _ => cases hw

theorem persistEnvelope_minds (hw : e.IsWorker) (envelope : DecisionEnvelope) :
    Minds D e x (persistEnvelope envelope) := by
  refine transaction_minds fun y _ => Minds.stmt hw fun found => ?_
  cases found with
  | some id =>
    have hid : ⟨.sql (.insertDecision envelope), .ok (some id)⟩ ∈
        (⟨.sql (.insertDecision envelope), .ok (some id)⟩ :: y : Record) := List.mem_cons_self
    refine Minds.stmt hw fun _ => Minds.stmt ?_ fun _ => Minds.stmt hw fun _ => ?_
    · exact AuditsWork.audits hw ⟨rfl, .inl ⟨envelope, List.mem_cons_of_mem _ hid, .inl ⟨rfl, rfl⟩⟩⟩
    split
    · rename_i hreview
      refine Minds.stmt hw fun _ => Minds.stmt ?_ fun _ => .ret _
      refine AuditsWork.audits hw ⟨rfl, .inl ⟨envelope, ?_, .inr ⟨rfl, rfl, hreview⟩⟩⟩
      iterate 4 refine List.mem_cons_of_mem _ ?_
      exact hid
    · exact .ret _
  | none =>
    refine Minds.stmt trivial fun stored => ?_
    cases stored with
    | some envelope => exact .ret _
    | none => exact .raise _

theorem processJob_minds (hw : e.IsWorker) : Minds D e x (processJob settings job) := by
  refine Minds.ask trivial fun _ => Minds.stmt trivial fun found => ?_
  cases found with
  | some id =>
    refine Minds.stmt trivial fun stored => ?_
    cases stored with
    | some envelope => exact .ret _
    | none => exact .raise _
  | none =>
    refine Minds.stmt hw fun _ => Minds.ask trivial fun fetched => Justified.ofExcept fun _ _ => ?_
    exact Minds.ask trivial fun _ => Minds.ask trivial fun _ => Minds.ask trivial fun _ =>
      Justified.ofExcept fun envelope _ => persistEnvelope_minds hw envelope

theorem markFailed_minds (hw : e.IsWorker) (hb : Handed e x b) (hr : Reads b job) (error : String) :
    Minds D e x (markFailed job.jobId error) := by
  refine Minds.stmt trivial fun found => ?_
  cases found with
  | none => exact .ret _
  | some attempts =>
    refine Minds.stmt hw fun _ => .one (AuditsWork.audits hw ?_)
    refine ⟨rfl, .inr ⟨b, job, _, _, hb.mono fun y hy => ?_, hr, List.mem_cons_self, rfl, rfl, rfl⟩⟩
    exact List.mem_cons_of_mem _ (List.mem_cons_of_mem _ hy)

theorem handleJob_minds (hw : e.IsWorker) (hb : Handed e x b) (hr : Reads b job) :
    Minds D e x (handleJob settings job) := by
  have failed : ∀ (err : Exn) (line : LogLine) (text : String) (y : Record), Handed e y b → Minds D e y (do
      markFailed job.jobId text
      let _ ← request (.log line)
      throw err : M Unit) := fun err line text y hb =>
    .bind (markFailed_minds hw hb hr text) fun _ _ _ => Minds.ask trivial fun _ => .raise err
  refine Minds.ask trivial fun _ => Minds.stmt trivial fun status => ?_
  split
  · exact .ret _
  · refine .bind (Justified.attempt (processJob_minds hw)) fun r y hy => ?_
    have hby : Handed e y b := hb.mono fun z hz => hy (by simp [hz])
    split
    · exact .ret _
    · exact failed _ _ _ y hby
    · exact failed _ _ _ y hby

end Worker

/-! ## The redrive -/

variable {args : RedriveArgs} {x : Record}

theorem Received.mono {x y : Record} {raw : Message} (h : Received x raw) (hy : x ⊆ y) : Received y raw := by
  obtain ⟨queue, max, ms, hm, hraw⟩ := h
  exact ⟨queue, max, ms, hy hm, hraw⟩

theorem redriveMessage_minds {raw : Message} (hraw : Received x raw) (counts : RedriveCounts) :
    Minds D (.redrive args) x (redriveMessage args counts raw) := by
  have hlookup : ∀ y, Minds D (.redrive args) y (lookupStatus args (dlqMessage raw)) := fun y => by
    simp only [lookupStatus]
    split
    · exact Justified.ofExcept fun _ _ => Minds.one trivial
    · exact .ret _
  have hreset : ∀ action y, x ⊆ y → Minds D (.redrive args) y (resetIfPlanned args action (dlqMessage raw)) := by
    intro action y hy
    simp only [resetIfPlanned]
    split
    · rename_i jobId _ _ hjob
      have hnamed : ∀ {z}, y ⊆ z → Named z jobId.str := fun hz =>
        ⟨raw, jobId, hraw.mono (List.Subset.trans hy hz), hjob, rfl⟩
      refine Minds.stmt ⟨args, rfl, hnamed (List.Subset.refl _)⟩ fun found => ?_
      cases found with
      | none => exact .ret _
      | some u =>
        refine Minds.stmt ⟨args, u, rfl, hnamed (List.subset_cons_self _ _), List.mem_cons_self⟩ fun _ => .ret _
    · exact .ret _
  unfold redriveMessage
  cases hparse : parseDlqMessage raw with
  | error err => exact .raise _
  | ok msg =>
    obtain rfl := dlqMessage_of_parse hparse
    rw [Prog.ofExcept_ok_bind]
    refine .bind (hlookup x) fun status y hy => ?_
    dsimp only
    split
    case h_6 =>
      refine Justified.ofExcept fun _ _ => ?_
      split
      · exact .ret _
      · refine .bind (hreset _ y hy) fun _ z hz => Justified.ofExcept fun _ _ => Minds.ask ?_ fun _ =>
          Minds.ask trivial fun _ => .ret _
        obtain ⟨queue, max, ms, hm, hms⟩ := hraw.mono (List.Subset.trans hy hz)
        exact ⟨queue, max, ms, hm, raw, hms, rfl⟩
    all_goals exact Justified.ofExcept fun _ _ => .ret _

theorem redriveMessages_minds (ms : List Message) (hms : ∀ raw ∈ ms, Received x raw) (counts : RedriveCounts) :
    Minds D (.redrive args) x (redriveMessages args counts ms) := by
  induction ms generalizing x counts with
  | nil => exact .ret counts
  | cons raw ms ih =>
    refine .bind (redriveMessage_minds (hms raw List.mem_cons_self) counts) fun counts y hy =>
      ih (fun raw hraw => ?_) counts
    obtain ⟨queue, max, ms', hreceive, hm⟩ := hms raw (List.mem_cons_of_mem _ hraw)
    exact ⟨queue, max, ms', hy hreceive, hm⟩

theorem redriveLoop_minds (rounds remaining : Nat) (counts : RedriveCounts) :
    Minds D (.redrive args) x (redriveLoop args rounds remaining counts) := by
  induction rounds generalizing x remaining counts with
  | zero => exact .ret counts
  | succ rounds ih =>
    simp only [redriveLoop]
    split
    · exact .ret counts
    · refine Minds.ask trivial fun ms => ?_
      split
      · exact .ret counts
      · exact .bind (redriveMessages_minds ms (fun raw hraw => ⟨_, _, ms, List.mem_cons_self, hraw⟩) counts)
          fun counts _ _ => ih _ counts

theorem redrive_minds (args : RedriveArgs) (x : Record) : Minds D (.redrive args) x (redrive args) := by
  have run : ∀ x, Minds D (.redrive args) x (do
      let counts ← redriveLoop args args.limit args.limit {}
      return ({ exitCode := 0, counts } : RedriveReport) : M RedriveReport) := fun x =>
    .bind (redriveLoop_minds _ _ _) fun _ _ _ => .ret _
  simp only [redrive]
  split
  · exact .ret _
  · refine Minds.ask trivial fun _ => Minds.ask trivial fun _ => ?_
    split
    · exact run _
    · refine .bind (.common (.attempt (.ask trivial))) fun connected y _ => ?_
      cases connected with
      | error x => exact .ret _
      | ok u => exact run _

/-! ## Ingest -/

theorem persistJob_minds {settings : ApiSettings} {req : IngestRequest} {x : Record} {content : ContentItem}
    (hhash : content.contentHash = digestOf D settings req) (jobId : Uuid) :
    Minds D (.acceptImage settings req) x (persistJob content jobId req.tenantId) := by
  have hcatch : ∀ {p : M (Option IngestResponse)} {f : Exn → M (Option IngestResponse)} {y : Record},
      Minds D (.acceptImage settings req) y p → (∀ err z, Minds D (.acceptImage settings req) z (f err)) →
      Minds D (.acceptImage settings req) y (Prog.tryCatch p f) := fun hp hf =>
    Justified.tryCatch hp fun err z _ => hf err z
  refine transaction_minds fun y _ => hcatch ?_ fun err z => ?_
  · refine Minds.stmt ⟨settings, req, rfl, hhash⟩ fun _ => Minds.stmt ⟨settings, req, rfl, hhash⟩ fun _ =>
      Minds.stmt ?_ fun _ => .ret _
    exact ⟨rfl, rfl, rfl, _, _, List.mem_cons_self⟩
  · split
    · refine Minds.stmt trivial fun found => ?_
      cases found with
      | some j => exact .ret _
      | none => exact .raise _
    · exact .raise _

theorem sendJob_minds {settings : ApiSettings} {req : IngestRequest} {x : Record} {content : ContentItem}
    (hhash : content.contentHash = digestOf D settings req) (hcaption : content.caption = strip req.caption)
    (jobId : Uuid) : Minds D (.acceptImage settings req) x (sendJob settings req.carrier content jobId) := by
  refine Justified.try ⟨settings, req, content.id, content.objectKey, rfl, by rw [hhash, hcaption]⟩ fun r => ?_
  cases r with
  | ok u => exact .ret _
  | error err => exact Minds.ask trivial fun _ => Minds.stmt ⟨settings, req, rfl⟩ fun _ => .raise _

theorem acceptImage_minds (settings : ApiSettings) (req : IngestRequest) (x : Record) :
    Minds D (.acceptImage settings req) x (acceptImage D.sha256 settings req) := by
  have waits : ∀ digest n (y : Record), Minds D (.acceptImage settings req) y (awaitIngest digest n) := by
    intro digest n
    induction n with
    | zero => exact fun _ => .raise _
    | succ n ih =>
      refine fun y => Minds.stmt trivial fun found => ?_
      cases found with
      | some j => exact .ret _
      | none => exact Minds.ask trivial fun _ => ih _
  simp only [acceptImage]
  split
  · exact .raise _
  split
  · exact .raise _
  split
  · exact .raise _
  refine Minds.ask trivial fun _ => Minds.stmt trivial fun found => ?_
  cases found with
  | some j => exact .ret _
  | none =>
    refine Minds.ask trivial fun acquired => ?_
    split
    · refine Minds.ask trivial fun contentId => Minds.ask trivial fun jobId => Justified.try trivial fun stored => ?_
      cases stored with
      | error err => exact .throw _
      | ok u =>
        refine Minds.ask trivial fun _ => .bind (persistJob_minds rfl jobId) fun found _ _ => ?_
        cases found with
        | some response => exact .ret _
        | none => exact sendJob_minds rfl rfl jobId
    · exact Minds.ask trivial fun _ => waits _ 20 _

/-! ## Reviews -/

theorem acquireReviewClaim_common (reviewId reviewer : String) (ttlSeconds : Nat) :
    (acquireReviewClaim reviewId reviewer ttlSeconds).Only Cmd.Common := by
  have refresh : ∀ current : Option String, (do
      if current = some reviewer then
        let _ ← request (.redisExpire (claimKey reviewId) ttlSeconds)
        return (true, some reviewer)
      else return (false, current) : M (Bool × Option String)).Only Cmd.Common := by
    intro current
    split
    · exact .bind (.ask trivial) fun _ => trivial
    · trivial
  refine .bind (.ask trivial) fun current => ?_
  split
  · refine .bind (.ask trivial) fun acquired => ?_
    split
    · trivial
    · exact .bind (.ask trivial) refresh
  · exact refresh current

theorem releaseReviewClaim_common (reviewId reviewer : String) :
    (releaseReviewClaim reviewId reviewer).Only Cmd.Common := by
  refine .bind (.ask trivial) fun current => ?_
  split
  · exact .ask trivial
  · trivial

theorem rowsToReviews_common (rows : List ReviewFull) : (rowsToReviews rows).Only Cmd.Common := by
  induction rows with
  | nil => trivial
  | cons row rows ih => exact .bind (.bind (.ask trivial) fun _ => trivial) fun _ => .bind ih fun _ => trivial

theorem fullToReview_common (full : Option ReviewFull) : (fullToReview full).Only Cmd.Common := by
  cases full with
  | some row => exact .bind (.ask trivial) fun _ => trivial
  | none => trivial

/-- The time of a release has been read from the clock. -/
theorem releaseExpiredClaims_minds {isolation : Isolation} {t : Time} {x : Record} (he : e.Releases)
    (ht : ⟨.utcnow, .ok t⟩ ∈ x) : Minds D e x (releaseExpiredClaims isolation t) := by
  have row : ∀ {y : Record} {row : AuditRow}, AuditsRelease y row → e.Audits y row := fun h => by
    cases e with
    | listReviews req => exact h
    | claimReview id' body => exact .inl h
    | _ => cases he
  -- the rows are those of an answer
  have audits : ∀ (all rows : List (Uuid × Option String)) (y : Record), rows ⊆ all →
      ((∃ t, ⟨.sql (.releaseExpired t), .ok all⟩ ∈ y) ∨ ∃ expired t, ⟨.sql (.releaseRows expired t), .ok all⟩ ∈ y) →
      Minds D e y (auditReleased rows) := by
    intro all rows
    induction rows with
    | nil => exact fun _ _ _ => .ret _
    | cons r rows ih =>
      refine fun y hsub hall => Minds.stmt ?_ fun _ => ih _ (List.Subset.trans (List.subset_cons_self _ _) hsub) ?_
      · exact row ⟨rfl, rfl, all, r.2, hall, hsub List.mem_cons_self, rfl⟩
      · exact hall.imp (fun ⟨t, h⟩ => ⟨t, List.mem_cons_of_mem _ h⟩) fun ⟨expired, t, h⟩ =>
          ⟨expired, t, List.mem_cons_of_mem _ h⟩
  have rest : ∀ {rows : List (Uuid × Option String)} {y : Record},
      ((∃ t, ⟨.sql (.releaseExpired t), .ok rows⟩ ∈ y) ∨ ∃ expired t, ⟨.sql (.releaseRows expired t), .ok rows⟩ ∈ y) →
      Minds D e y (auditReleased rows >>= fun _ => pure rows) := fun hall =>
    .bind (audits _ _ _ (List.Subset.refl _) hall) fun _ _ _ => .ret _
  cases isolation with
  | atomic => exact Minds.stmt ⟨he, ht⟩ fun rows => rest (.inl ⟨t, List.mem_cons_self⟩)
  | readCommitted =>
    simp only [releaseExpiredClaims, releaseRows, Prog.bind_assoc]
    exact Minds.stmt trivial fun expired => Minds.stmt ⟨he, List.mem_cons_of_mem _ ht⟩ fun rows =>
      rest (.inr ⟨expired, t, List.mem_cons_self⟩)

theorem listReviews_minds (isolation : Isolation) (req : ListRequest) (x : Record) :
    Minds D (.listReviews req) x (listReviews isolation req) := by
  refine Minds.ask trivial fun _ => Minds.ask trivial fun t =>
    .bind (releaseExpiredClaims_minds trivial List.mem_cons_self) fun _ y _ => ?_
  split
  · exact Minds.stmt trivial fun rows => .common (rowsToReviews_common rows)
  · exact Minds.stmt trivial fun rows => .common (rowsToReviews_common rows)

theorem claimReview_minds (isolation : Isolation) (reviewId : Uuid) (body : ClaimRequest) (x : Record) :
    Minds D (.claimReview reviewId body) x (claimReview isolation reviewId body) := by
  refine Minds.ask trivial fun t => .bind (.common (acquireReviewClaim_common _ _ _)) fun acquired y hy => ?_
  have ht : ⟨.utcnow, .ok t⟩ ∈ y := hy List.mem_cons_self
  dsimp only
  split
  · refine Minds.ask trivial fun _ => .bind (releaseExpiredClaims_minds trivial (List.mem_cons_of_mem _ ht))
      fun _ z hz => ?_
    refine Minds.stmt ⟨body, rfl, rfl, hz (List.mem_cons_of_mem _ ht)⟩ fun claimed => ?_
    cases claimed with
    | none =>
      refine .bind (.common (releaseReviewClaim_common _ _)) fun _ _ _ => Minds.stmt trivial fun found => ?_
      cases found <;> exact .raise _
    | some id =>
      exact Minds.stmt trivial fun full => Minds.stmt (.inr ⟨rfl, rfl, rfl, rfl⟩) fun _ =>
        .common (fullToReview_common full)
  · exact .raise _

theorem resolveReview_minds (reviewId : Uuid) (body : ResolveRequest) (x : Record) :
    Minds D (.resolveReview reviewId body) x (resolveReview reviewId body) := by
  refine Minds.ask trivial fun t => Minds.ask trivial fun owner => ?_
  cases owner with
  | none => exact .raise _
  | some owner =>
    dsimp only
    split
    · exact .raise _
    · refine Minds.ask trivial fun _ => Minds.stmt trivial fun model => ?_
      cases model with
      | none => exact .raise _
      | some model =>
        dsimp only
        split
        · exact .raise _
        · refine Minds.stmt ⟨body, rfl, rfl, rfl, rfl, by simp⟩ fun resolved => ?_
          cases resolved with
          | none => exact .raise _
          | some id =>
            exact Minds.stmt ⟨rfl, rfl, rfl, rfl⟩ fun _ => Minds.stmt trivial fun full =>
              .bind (.common (releaseReviewClaim_common _ _)) fun _ _ _ => .common (fullToReview_common full)

/-! ## All calls -/

/-- Every call minds its business. -/
theorem code_by (D : Deployment) (e : Entry) : Minds D e [] (e.code D) := by
  have worker : ∀ {settings}, e.workerSettings? = some settings → Minds D e [] (e.code D) := fun {settings} hs => by
    have hw : e.IsWorker := by rw [Entry.IsWorker, hs]; rfl
    have hattends : Attends (Cmd.By D e) e settings :=
      ⟨fun {q} x hq => by cases q <;> trivial, fun hb hr => handleJob_minds hw hb hr⟩
    exact hattends.code hs
  cases e with
  | acceptImage settings req => exact .bind (acceptImage_minds settings req []) fun _ _ _ => .ret _
  | handleMessage | pollSqs | pollPubsub => exact worker rfl
  | redrive args =>
    exact .bind (redrive_minds args []) fun _ _ _ => .ret _
  | listReviews req => exact .bind (listReviews_minds D.isolation req []) fun _ _ _ => .ret _
  | claimReview reviewId body => exact .bind (claimReview_minds D.isolation reviewId body []) fun _ _ _ => .ret _
  | resolveReview reviewId body => exact .bind (resolveReview_minds reviewId body []) fun _ _ _ => .ret _

/-! ## What was asked for -/

/-- The call `i` has made the write by a statement that its record justified. -/
def Asked (P : Entry → Record → Cmd → Prop) (h : List (service D).Step) (c : (service D).Config) (i : Nat)
    (w : Write) :
    Prop :=
  ∃ e, (∃ t, c.threads i = some ⟨e, t⟩) ∧
    ∃ st x db t, Database.Makes db t st w ∧ P e x (.sql st) ∧ ∀ y ∈ x, Pool.Happened h i y

variable {P : Entry → Record → Cmd → Prop} {w : Write}

theorem Asked.keep {a : (service D).Action} (hn : Pool.next c a = some c') (hw : Asked P h c i w) :
    Asked P (⟨c, a, c'⟩ :: h) c' i w := by
  obtain ⟨e, ⟨t, ht⟩, st, x, db, t', hm, hp, hx⟩ := hw
  exact ⟨e, entry_of_next hn ⟨t, ht⟩, st, x, db, t', hm, hp, fun y hy => (hx y hy).cons _⟩

/-- Every write that a step commits has been asked for by the call that commits it. -/
theorem asked_of_next (hP : ∀ e : Entry, (e.code D).Justified (P e) []) (hr : Pool.Run ok (boot D now) h c)
    {a : (service D).Action} (hn : Pool.next c a = some c') (hw : w ∈ Step.writes ⟨c, a, c'⟩) :
    ∃ i, a.thread = some i ∧ Asked P h c i w := by
  have make : ∀ {h c i p e st k w db t}, Pool.Run ok (boot D now) h c → ok c (.step i p) → c.At i e (.sql st) k →
      st.InTxn → Database.Makes db t st w → Asked P h c i w := by
    intro h c i p e st k w db t hr _ hat _ hm
    obtain ⟨x, hq, hx⟩ := hr.justified (fun _ => rfl) hP hat
    exact ⟨e, ⟨_, hat⟩, st, x, db, t, hm, hq, hx⟩
  rcases writes_ok hr.reachable hn with hnil | ⟨j, p, e, q, k, rfl, hat, -, hstep⟩
  · rw [hnil] at hw
    cases hw
  · refine ⟨j, rfl, ?_⟩
    generalize Step.writes _ = ws at hw hstep
    cases hstep with
    | alone idle contract run fault =>
      obtain ⟨x, hq, hx⟩ := hr.justified (fun _ => rfl) hP hat
      exact ⟨e, ⟨_, hat⟩, _, x, _, _, Database.makes_of_run run w hw, hq, hx⟩
    | commit complete => exact (written_of_run make (fun _ hn hw => hw.keep hn) hr).1 j w hw

/-! ## Who has written what -/

/-- The write is the business of a call that has the record `x`. -/
def Write.By (D : Deployment) (e : Entry) (x : Record) : Write → Prop
  | .content row => ∃ settings req, e = .acceptImage settings req ∧ row.contentHash = digestOf D settings req
  | .job row => ∃ settings req, e = .acceptImage settings req ∧ row.contentHash = digestOf D settings req
  | .updateJob _ (.enqueueFailed _) => ∃ settings req, e = .acceptImage settings req
  | .updateJob id (.queued _) => (∃ args, e = .redrive args) ∧ ∃ text, Named x text ∧ castUuid text = .ok id
  | .updateJob _ _ | .decision _ | .review _ | .metric _ => e.IsWorker
  | .updateReview id (.claim reviewer ..) => ∃ body, e = .claimReview id body ∧ reviewer = body.reviewer
  | .updateReview id (.resolve _ outcome notes reviewer _) =>
    ∃ body, e = .resolveReview id body ∧ outcome = body.reviewerDecision ∧ notes = strip body.notes ∧
      reviewer = body.reviewer
  | .updateReview _ .release => e.Releases
  | .audit row => e.Audits x row

theorem Asked.by (hw : Asked (Cmd.By D) h c i w) : ∃ e x, (∃ t, c.threads i = some ⟨e, t⟩) ∧ w.By D e x ∧
    ∀ y ∈ x, Pool.Happened h i y := by
  obtain ⟨e, ht, st, x, db, t, hm, hby, hx⟩ := hw
  refine ⟨e, x, ht, ?_, hx⟩
  cases hm with
  | content | job | decision | review | metric | audit | processing | succeeded | failed | enqueueFailed =>
    exact hby
  | reset cast =>
    obtain ⟨args, he, hnamed⟩ := hby
    exact ⟨⟨args, he⟩, _, hnamed, cast⟩
  | auditRedrive cast =>
    obtain ⟨args, u, rfl, hnamed, hreset⟩ := hby
    exact ⟨rfl, rfl, rfl, _, u, hnamed, cast, hreset⟩
  | releaseExpired | releaseRows => exact hby.1
  | claim =>
    obtain ⟨body, he, hreviewer, -⟩ := hby
    exact ⟨body, he, hreviewer⟩
  | resolve =>
    obtain ⟨body, he, hdecision, hnotes, hreviewer, -⟩ := hby
    exact ⟨body, he, hdecision, hnotes, hreviewer⟩

end CM
