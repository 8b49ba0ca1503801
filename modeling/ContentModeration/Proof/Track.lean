import ContentModeration.Proof.Contract
import ContentModeration.Proof.Requests

/-!
# What a call has seen and what it owes

`track` follows a call through everything that its later requests depend on: the
messages that it has received, the jobs that it has found, the identifiers that it has
drawn and the objects that it has stored, and the audit rows that it owes for the
reviews that it has changed. Every call of the services is walked through once
(`code_tracked`): what it inserts and sends is made of what it has seen, and it changes
no review and ends in no way while it owes an audit row.
-/

namespace CM

open Prog hiding throw

/-! ## The monitor -/

/-- A change of a review that is audited. -/
inductive ReviewEvent where
  | claimed
  | resolved
  | claimExpired
  deriving DecidableEq

/-- `audit_log.action`. -/
def ReviewEvent.action : ReviewEvent → String
  | .claimed => "claimed"
  | .resolved => "resolved"
  | .claimExpired => "claim_expired"

structure Known where
  inTxn : Bool := false
  /-- The audit rows of reviews that are still to be written. -/
  owed : List (Uuid × ReviewEvent) := []
  /-- The jobs that were found, by their identifiers and as the parameters of a redrive. -/
  jobs : List Uuid := []
  keys : List String := []
  received : List RawBody := []
  drawn : List Uuid := []
  /-- The keys of the objects that were stored. -/
  put : List String := []

namespace Known

/-- The row is the next that is owed, and can be stored. -/
def Owes (x : Known) (row : AuditRow) : Prop :=
  row.entityType = "review" ∧ row.detail.storable = true ∧
  ∃ v rest, x.owed = (row.entityId, v) :: rest ∧ row.action = v.action

/-- Nothing is under way. -/
structure Idle (x : Known) : Prop where
  inTxn : x.inTxn = false
  owed : x.owed = []

/-- All that was seen in `x` has been seen in `y`. -/
structure Le (x y : Known) : Prop where
  jobs : x.jobs ⊆ y.jobs := by exact List.Subset.refl _
  keys : x.keys ⊆ y.keys := by exact List.Subset.refl _
  received : x.received ⊆ y.received := by exact List.Subset.refl _
  drawn : x.drawn ⊆ y.drawn := by exact List.Subset.refl _
  put : x.put ⊆ y.put := by exact List.Subset.refl _

end Known

/-- The policy version of a worker. -/
def Entry.policyVersion? : Entry → Option String
  | .handleMessage settings _ | .pollSqs settings _ | .pollPubsub settings _ => some settings.policyVersion
  | _ => none

/-- The decision is that of a received message, under the policy version of the worker. -/
def Known.Decides (x : Known) (e : Entry) (envelope : DecisionEnvelope) : Prop :=
  e.policyVersion? = some envelope.policyVersion ∧
  ∃ b ∈ x.received, ∃ m, Reads b m ∧ envelope.jobId = m.jobId ∧ envelope.contentId = m.contentId ∧
    envelope.contentHash = m.contentHash

/-- `object_key` of `accept_image`. -/
def objectKeyOf (digest : String) (contentId : Uuid) (contentType : String) : String :=
  "content/" ++ takeStr 2 digest ++ "/" ++ digest ++ "/" ++ Uuid.str contentId ++ "." ++ objectExtension contentType

/-- The digest that a call of `accept_image` gives its content. -/
def digestOf (D : Deployment) (settings : ApiSettings) (req : IngestRequest) : String :=
  contentHash D.sha256 req.body (strip req.caption) settings.policyVersion

/-- The row is the content of a call of `accept_image`, whose object it has stored. -/
def Known.Stores (D : Deployment) (x : Known) (e : Entry) (row : ContentItem) : Prop :=
  ∃ settings req, e = .acceptImage settings req ∧ row.id ∈ x.drawn ∧ row.objectKey ∈ x.put ∧
    row.objectKey = objectKeyOf (digestOf D settings req) row.id req.contentType ∧
    row.contentHash = digestOf D settings req ∧ row.caption = strip req.caption

/-- The object is that of a call of `accept_image`, under an identifier it has drawn. -/
def Known.Puts (D : Deployment) (x : Known) (e : Entry) (key : String) (body : List UInt8) : Prop :=
  ∃ settings req, e = .acceptImage settings req ∧ body = req.body ∧
    ∃ u ∈ x.drawn, key = objectKeyOf (digestOf D settings req) u req.contentType

/-- What a call may ask, by what it has seen. -/
def Known.Allows (D : Deployment) (e : Entry) (x : Known) : Cmd → Prop
  | .sql (.insertAudit row) =>
    x.Owes row ∨ x.owed = [] ∧ (x.inTxn = true ∨ row.entityType = "job" ∧ row.entityId ∈ x.jobs)
  | .sql (.auditRedrive key _) => x.owed = [] ∧ key ∈ x.keys
  | .sql (.insertDecision envelope) => x.owed = [] ∧ x.Decides e envelope
  | .sql (.insertContent row) => x.owed = [] ∧ x.Stores D e row
  | .sql (.claimReview ..) | .sql (.resolveReview ..) | .sql (.releaseExpired _) | .sql (.releaseRows ..) => x.Idle
  | .sql (.reviewFull _) => x.owed = [] ∨ ∃ id body, e = .claimReview id body
  | .sendMessage body _ => x.owed = [] ∧ body ∈ x.received
  | .putObject key body _ => x.owed = [] ∧ x.Puts D e key body
  | _ => x.owed = []

/-- What a call has seen after the answer to a request. -/
def Known.after (x : Known) : (q : Cmd) → Except Exn q.Ans → Known
  | .begin, .ok _ => { x with inTxn := true }
  | .commit, _ | .rollback, _ => { x with inTxn := false }
  | .sql (.insertAudit _), .ok _ => if x.inTxn then x else { x with owed := x.owed.tail }
  | .sql (.claimReview id ..), .ok (some _) => { x with owed := [(id, .claimed)] }
  | .sql (.resolveReview id ..), .ok (some _) => { x with owed := [(id, .resolved)] }
  | .sql (.releaseExpired _), .ok rows | .sql (.releaseRows ..), .ok rows =>
    { x with owed := rows.map fun r => (r.1, .claimExpired) }
  | .sql (.jobAttempts id), .ok (some _) => { x with jobs := id :: x.jobs }
  | .sql (.resetJob key), .ok (some _) => { x with keys := key :: x.keys }
  | .receive .., .ok ms => { x with received := ms.map (·.body) ++ x.received }
  | .uuid4, .ok u => { x with drawn := u :: x.drawn }
  | .putObject key .., .ok _ => { x with put := key :: x.put }
  | _, .ok _ => x
  | _, .error _ => { x with owed := [] }

/-- The monitor of a call. -/
def track (D : Deployment) (e : Entry) : Monitor iface Exn where
  Phase := Known
  init := { received := match e with
    | .handleMessage _ body => [.json body]
    | _ => [] }
  allows := Known.Allows D e
  after := Known.after

variable {D : Deployment} {e : Entry} {α β : Type} {x y z k k' : Known}

namespace Known

theorem Le.refl (x : Known) : x.Le x := {}

theorem Le.trans (h : x.Le y) (h' : y.Le z) : x.Le z where
  jobs := List.Subset.trans h.jobs h'.jobs
  keys := List.Subset.trans h.keys h'.keys
  received := List.Subset.trans h.received h'.received
  drawn := List.Subset.trans h.drawn h'.drawn
  put := List.Subset.trans h.put h'.put

theorem nil_le (x : Known) : Le {} x where
  jobs := List.nil_subset _
  keys := List.nil_subset _
  received := List.nil_subset _
  drawn := List.nil_subset _
  put := List.nil_subset _

theorem received_le {bs : List RawBody} (h : bs ⊆ x.received) : Le { received := bs } x where
  jobs := List.nil_subset _
  keys := List.nil_subset _
  received := h
  drawn := List.nil_subset _
  put := List.nil_subset _

theorem owed_eq (h : x.owed = []) : { x with owed := [] } = x := by
  cases x
  cases h
  rfl

/-- In the phase `x`, the request is allowed and leaves it. -/
def Keeps (D : Deployment) (e : Entry) (x : Known) (q : Cmd) : Prop := x.Allows D e q ∧ ∀ r, x.after q r = x

theorem allows_of_quiet (h : x.owed = []) {q : Cmd} (hq : q.Quiet) : x.Allows D e q := by
  cases q with
  | sql st =>
    cases st with
    | reviewFull id => exact .inl h
    | _ => first | exact h | cases hq
  | _ => first | exact h | cases hq

theorem after_of_quiet (h : x.owed = []) {q : Cmd} (hq : q.Quiet) (r : Except Exn q.Ans) : x.after q r = x := by
  have herr := owed_eq h
  cases q with
  | sql st => cases st <;> first | (cases hq; done) | (cases r <;> first | rfl | exact herr)
  | _ => first | (cases hq; done) | (cases r <;> first | rfl | exact herr)

theorem keeps_of_quiet (h : x.owed = []) {q : Cmd} (hq : q.Quiet) : x.Keeps D e q :=
  ⟨allows_of_quiet h hq, after_of_quiet h hq⟩

/-- Inside a transaction, an audit row is free. -/
theorem keeps_insertAudit (h : x.owed = []) (ht : x.inTxn = true) (row : AuditRow) :
    x.Keeps D e (.sql (.insertAudit row)) := by
  refine ⟨.inr ⟨h, .inl ht⟩, fun r => ?_⟩
  cases r with
  | ok a => exact if_pos ht
  | error err => exact owed_eq h

/-- A job that was found may be audited. -/
theorem keeps_auditJob (h : x.Idle) {row : AuditRow} (ht : row.entityType = "job") (hj : row.entityId ∈ x.jobs) :
    x.Keeps D e (.sql (.insertAudit row)) := by
  refine ⟨.inr ⟨h.owed, .inr ⟨ht, hj⟩⟩, fun r => ?_⟩
  cases r with
  | ok a =>
    show (if x.inTxn then x else { x with owed := x.owed.tail }) = x
    rw [if_neg (by simp [h.inTxn]), h.owed]
    exact owed_eq h.owed
  | error err => exact owed_eq h.owed

end Known

/-! ## Programs that are tracked -/

/-- From an idle phase in which `k` has been seen, `p` follows the monitor to an idle
phase, however it ends. -/
def Tracked (D : Deployment) (e : Entry) (k : Known) (p : M α) : Prop :=
  ∀ x : Known, x.Idle → k.Le x → p.Follows (track D e) (fun _ y => y.Idle ∧ x.Le y) x

namespace Tracked

theorem mono {p : M α} (h : Tracked D e k p) (hk : k.Le k') : Tracked D e k' p :=
  fun x hx hr => h x hx (hk.trans hr)

theorem bind {p : M α} {f : α → M β} (hp : Tracked D e k p) (hf : ∀ a, Tracked D e k (f a)) :
    Tracked D e k (p >>= f) := by
  intro x hx hr
  refine Follows.bind ((hp x hx hr).mono fun r y hy => ?_)
  cases r with
  | ok a => exact (hf a y hy.1 (hr.trans hy.2)).mono fun _ z hz => ⟨hz.1, hy.2.trans hz.2⟩
  | error _ => exact hy

theorem attempt {p : M α} (hp : Tracked D e k p) : Tracked D e k p.attempt :=
  fun x hx hr => Follows.attempt (hp x hx hr)

/-- Requests that leave every idle phase. -/
theorem of_keeps {p : M α} (hp : ∀ x : Known, x.Idle → k.Le x → p.Only (x.Keeps D e)) : Tracked D e k p := by
  intro x hx hr
  have hkept : p.Follows (track D e) (fun _ y => y = x) x := Follows.of_only (hp x hx hr)
  refine hkept.mono fun _ y hy => ?_
  subst hy
  exact ⟨hx, .refl _⟩

theorem of_quiet {p : M α} (hp : p.Only Cmd.Quiet) : Tracked D e k p :=
  of_keeps fun _ hx _ => hp.mono fun _ hq => Known.keeps_of_quiet hx.owed hq

theorem ret (a : α) : Tracked D e k (pure a : M α) := of_quiet trivial

theorem raise (err : Exn) : Tracked D e k (throw err : M α) := of_quiet trivial

theorem ask {q : Cmd} (hq : q.Quiet) : Tracked D e k (request q) := of_quiet (.ask hq)

theorem stmt {st : Sql} (hq : (Cmd.sql st).Quiet) : Tracked D e k (sql st) := of_quiet (.stmt hq)

/-- What is read out of an answer, and the rest of a program that can read it. -/
theorem ofExcept {r : Except Exn α} {f : α → M β} (hf : ∀ a, r = .ok a → Tracked D e k (f a)) :
    Tracked D e k (Prog.ofExcept r >>= f) := by
  cases r with
  | ok a => exact hf a rfl
  | error err => exact raise err

/-- A request that shows `seen a` when it answers `a`. -/
structure Shows (D : Deployment) (e : Entry) (k : Known) (q : Cmd) (seen : q.Ans → Known) : Prop where
  allowed : ∀ x : Known, x.Idle → k.Le x → x.Allows D e q
  failed : ∀ (x : Known) err, x.after q (.error err) = { x with owed := [] }
  idle : ∀ (x : Known) a, x.Idle → (x.after q (.ok a)).Idle
  le : ∀ (x : Known) a, x.Le (x.after q (.ok a))
  seen : ∀ (x : Known) a, k.Le x → (seen a).Le (x.after q (.ok a))

theorem call {q : Cmd} {seen : q.Ans → Known} {f : Except Exn q.Ans → M α} (hq : Shows D e k q seen)
    (hok : ∀ a, Tracked D e (seen a) (f (.ok a))) (herr : ∀ err, Tracked D e k (f (.error err))) :
    Tracked D e k (.call q f) := by
  intro x hx hk
  refine ⟨hq.allowed x hx hk, fun r => ?_⟩
  cases r with
  | error err =>
    rw [show (track D e).after x q (.error err) = x from (hq.failed x err).trans (Known.owed_eq hx.owed)]
    exact herr err x hx hk
  | ok a => exact (hok a _ (hq.idle x a hx) (hq.seen x a hk)).mono fun _ z hz => ⟨hz.1, (hq.le x a).trans hz.2⟩

theorem request_bind {q : Cmd} {seen : q.Ans → Known} {f : q.Ans → M α} (hq : Shows D e k q seen)
    (hf : ∀ a, Tracked D e (seen a) (f a)) : Tracked D e k (request q >>= f) :=
  call hq hf fun err => raise err

theorem attempt_bind {q : Cmd} {seen : q.Ans → Known} {f : Except Exn q.Ans → M α} (hq : Shows D e k q seen)
    (hok : ∀ a, Tracked D e (seen a) (f (.ok a))) (herr : ∀ err, Tracked D e k (f (.error err))) :
    Tracked D e k ((request q).attempt >>= f) :=
  call hq hok herr

theorem Shows.receive (q : QueueName) (n : Nat) :
    Shows D e {} (.receive q n) fun ms => { received := ms.map (·.body) } where
  allowed _ hx _ := hx.owed
  failed _ _ := rfl
  idle _ _ hx := ⟨hx.inTxn, hx.owed⟩
  le _ _ := { received := List.subset_append_right _ _ }
  seen _ _ _ := Known.received_le (List.subset_append_left _ _)

theorem Shows.jobAttempts (id : Uuid) :
    Shows D e k (.sql (.jobAttempts id)) fun found => { jobs := found.toList.map fun _ => id } where
  allowed _ hx _ := hx.owed
  failed _ _ := rfl
  idle x found hx := by cases found <;> exact ⟨hx.inTxn, hx.owed⟩
  le x found := by
    cases found with
    | none => exact .refl _
    | some _ => exact { jobs := List.subset_cons_self _ _ }
  seen x found _ := by
    cases found with
    | none => exact Known.nil_le _
    | some _ => exact { Known.nil_le _ with jobs := by simp [Known.after] }

theorem Shows.resetJob (key : String) :
    Shows D e k (.sql (.resetJob key)) fun found => { keys := found.toList.map fun _ => key } where
  allowed _ hx _ := hx.owed
  failed _ _ := rfl
  idle x found hx := by cases found <;> exact ⟨hx.inTxn, hx.owed⟩
  le x found := by
    cases found with
    | none => exact .refl _
    | some _ => exact { keys := List.subset_cons_self _ _ }
  seen x found _ := by
    cases found with
    | none => exact Known.nil_le _
    | some _ => exact { Known.nil_le _ with keys := by simp [Known.after] }

theorem Shows.uuid4 : Shows D e k .uuid4 fun u => { k with drawn := u :: k.drawn } where
  allowed _ hx _ := hx.owed
  failed _ _ := rfl
  idle _ _ hx := ⟨hx.inTxn, hx.owed⟩
  le _ _ := { drawn := List.subset_cons_self _ _ }
  seen _ _ hk := { hk with drawn := List.cons_subset_cons _ hk.drawn }

theorem Shows.putObject {key : String} {body : List UInt8} {contentType : String}
    (h : ∀ x : Known, k.Le x → x.Puts D e key body) :
    Shows D e k (.putObject key body contentType) fun _ => { k with put := key :: k.put } where
  allowed x hx hk := ⟨hx.owed, h x hk⟩
  failed _ _ := rfl
  idle _ _ hx := ⟨hx.inTxn, hx.owed⟩
  le _ _ := { put := List.subset_cons_self _ _ }
  seen _ _ hk := { hk with put := List.cons_subset_cons _ hk.put }

/-- A transaction of requests that leave the phase inside it. -/
theorem transaction {body : M α} (hb : ∀ x : Known, x.owed = [] → x.inTxn = true → k.Le x →
    body.Only (x.Keeps D e)) : Tracked D e k (transaction body) := by
  intro x hx hr
  have out : ({ x with inTxn := false } : Known) = x := by
    cases x
    cases hx.inTxn
    rfl
  refine ⟨hx.owed, fun began => ?_⟩
  cases began with
  | error err =>
    show Known.Idle { x with owed := [] } ∧ x.Le { x with owed := [] }
    rw [Known.owed_eq hx.owed]
    exact ⟨hx, .refl _⟩
  | ok u =>
    generalize hz : ({ x with inTxn := true } : Known) = z
    have hout : ({ z with inTxn := false } : Known) = x := by rw [← hz]; exact out
    have hle : k.Le z := hz ▸ ⟨hr.jobs, hr.keys, hr.received, hr.drawn, hr.put⟩
    have hkept : body.Follows (track D e) (fun _ y => y = z) z :=
      Follows.of_only (hb z (by rw [← hz]; exact hx.owed) (by rw [← hz]) hle)
    rw [show (track D e).after x .begin (.ok u) = z from hz]
    show Follows (track D e) _ z (body.attempt >>= _)
    refine Follows.bind (Follows.attempt (hkept.mono fun r y hy => ?_))
    subst hy
    have ended : ∀ done : Known, done = x → done.Idle ∧ x.Le done := fun _ hd => by
      rw [hd]
      exact ⟨hx, .refl _⟩
    cases r with
    | ok a => exact ⟨by rw [← hz]; exact hx.owed, fun done => by cases done <;> exact ended _ hout⟩
    | error err => exact ⟨by rw [← hz]; exact hx.owed, fun done => by cases done <;> exact ended _ hout⟩

end Tracked

/-! ## The worker -/

theorem buildEnvelope_eq {settings : WorkerSettings} {job : JobMessage} {vision : VisionSignals}
    {suggested : Decision}
    {llm : LlmSignals} {latencyMs : Nat} {envelope : DecisionEnvelope}
    (h : buildEnvelope settings job vision suggested llm latencyMs = .ok envelope) :
    envelope.jobId = job.jobId ∧ envelope.contentId = job.contentId ∧ envelope.contentHash = job.contentHash ∧
      envelope.policyVersion = settings.policyVersion := by
  unfold buildEnvelope at h
  dsimp only at h
  split at h
  · cases h
    exact ⟨rfl, rfl, rfl, rfl⟩
  · cases h

theorem persistEnvelope_tracked {envelope : DecisionEnvelope}
    (h : ∀ x : Known, k.Le x → x.Decides e envelope) : Tracked D e k (persistEnvelope envelope) := by
  refine .transaction fun x hx ht hr => ?_
  have quiet : ∀ {st : Sql}, (Cmd.sql st).Quiet → (sql st).Only (x.Keeps D e) :=
    fun hq => .stmt (Known.keeps_of_quiet hx hq)
  have audit : ∀ row, (sql (.insertAudit row)).Only (x.Keeps D e) :=
    fun row => .stmt (Known.keeps_insertAudit hx ht row)
  have insert : x.Keeps D e (.sql (.insertDecision envelope)) := by
    refine ⟨⟨hx, h x hr⟩, fun r => ?_⟩
    cases r with
    | ok a => rfl
    | error err => exact Known.owed_eq hx
  refine .bind (.stmt insert) fun found => ?_
  cases found with
  | some id₀ =>
    refine .bind (quiet rfl) fun _ => .bind (audit _) fun _ => .bind (quiet rfl) fun _ => ?_
    split
    · exact .bind (quiet rfl) fun _ => .bind (audit _) fun _ => trivial
    · trivial
  | none =>
    refine .bind (quiet rfl) fun stored => ?_
    cases stored <;> trivial

variable {settings : WorkerSettings} {b : RawBody} {job : JobMessage}

theorem processJob_tracked (he : e.policyVersion? = some settings.policyVersion) (hb : Reads b job) :
    Tracked D e { received := [b] } (processJob settings job) := by
  refine .bind (.ask rfl) fun _ => .bind (.stmt rfl) fun found => ?_
  cases found with
  | some id₀ =>
    refine .bind (.stmt rfl) fun stored => ?_
    cases stored with
    | some envelope => exact .ret _
    | none => exact .raise _
  | none =>
    refine .bind (.stmt rfl) fun _ => .bind (.ask rfl) fun _ => .ofExcept fun _ _ => .bind (.ask rfl) fun vision =>
      .bind (.ask rfl) fun said => .bind (.ask rfl) fun finished => .ofExcept fun envelope hbuild => ?_
    obtain ⟨hj, hc, hh, hp⟩ := buildEnvelope_eq hbuild
    exact persistEnvelope_tracked fun x hr => ⟨by rw [he, hp], b, hr.received List.mem_cons_self, job, hb, hj, hc, hh⟩

theorem markFailed_tracked (jobId : Uuid) (error : String) : Tracked D e k (markFailed jobId error) := by
  refine .request_bind (.jobAttempts jobId) fun found => ?_
  cases found with
  | none => exact .ret _
  | some attempts =>
    exact .bind (.stmt rfl) fun _ => .of_keeps fun x hx hk =>
      .stmt (Known.keeps_auditJob hx rfl (hk.jobs List.mem_cons_self))

theorem handleJob_tracked (he : e.policyVersion? = some settings.policyVersion) (hb : Reads b job) :
    Tracked D e { received := [b] } (handleJob settings job) := by
  refine .bind (.ask rfl) fun _ => .bind (.stmt rfl) fun status => ?_
  split
  · exact .ret _
  · refine .bind (processJob_tracked he hb).attempt fun r => ?_
    split
    · exact .ret _
    · exact .bind (markFailed_tracked _ _) fun _ => .bind (.ask rfl) fun _ => .raise _
    · exact .bind (markFailed_tracked _ _) fun _ => .bind (.ask rfl) fun _ => .raise _

theorem handleMessage_tracked (he : e.policyVersion? = some settings.policyVersion) (body : Json) :
    Tracked D e { received := [.json body] } (handleMessage settings body) :=
  .ofExcept fun _ hread => handleJob_tracked he ⟨body, rfl, hread⟩

theorem consume_tracked (he : e.policyVersion? = some settings.policyVersion) (b : RawBody) :
    Tracked D e { received := [b] } (consume settings b) := by
  simp only [consume]
  split
  · exact .raise _
  · exact .raise _
  · exact handleMessage_tracked he _
  · exact .raise _

theorem deliverAllSqs_tracked (he : e.policyVersion? = some settings.policyVersion) (ms : List Message) :
    Tracked D e { received := ms.map (·.body) } (deliverAllSqs settings ms) := by
  induction ms with
  | nil => exact .ret _
  | cons msg ms ih =>
    have hmsg : Tracked D e { received := (msg :: ms).map (·.body) } (consume settings msg.body) :=
      (consume_tracked he msg.body).mono (Known.received_le (by simp))
    refine .bind (.bind (Tracked.attempt (.bind hmsg fun _ => .ask rfl)) fun r => ?_) fun _ =>
      ih.mono (Known.received_le (by simp))
    split
    · exact .ret _
    · exact .ask rfl
    · exact .ret _

theorem pollSqs_tracked (he : e.policyVersion? = some settings.policyVersion) (rounds : Nat) :
    Tracked D e {} (pollSqs settings rounds) := by
  induction rounds with
  | zero => exact .ret _
  | succ rounds ih =>
    exact .attempt_bind (.receive _ _) (fun ms => .bind (deliverAllSqs_tracked he ms) fun _ =>
      ih.mono (Known.nil_le _))
      fun _ => .bind (.ask rfl) fun _ => ih

theorem deliverPubsub_tracked (he : e.policyVersion? = some settings.policyVersion) (acks : Acks)
    (received : List Message) : Tracked D e { received := received.map (·.body) }
    (deliverPubsub settings acks received) := by
  induction received generalizing acks with
  | nil => exact .ret _
  | cons msg received ih =>
    have hmsg : Tracked D e { received := (msg :: received).map (·.body) } (consume settings msg.body) :=
      (consume_tracked he msg.body).mono (Known.received_le (by simp))
    refine .bind hmsg.attempt fun r => ?_
    split <;> exact (ih _).mono (Known.received_le (by simp))

theorem pollPubsub_tracked (he : e.policyVersion? = some settings.policyVersion) (rounds : Nat) :
    Tracked D e {} (pollPubsub settings rounds) := by
  have hpull : Tracked D e {} (pullPubsub settings rounds) := by
    induction rounds with
    | zero => exact .ret _
    | succ rounds ih =>
      refine .attempt_bind (.receive _ _) (fun received => .bind (deliverPubsub_tracked he {} received) fun acks =>
        .bind (.of_quiet (settle_only acks)) fun _ => ih.mono (Known.nil_le _)) fun err => ?_
      dsimp only
      split
      · exact ih
      · exact .bind (.ask rfl) fun _ => ih
  simp only [pollPubsub]
  split
  · exact .raise _
  · exact hpull

/-! ## The redrive -/

theorem redriveMessage_tracked (args : RedriveArgs) (counts : RedriveCounts) (raw : Message) :
    Tracked D e { received := [raw.body] } (redriveMessage args counts raw) := by
  have hlookup : Tracked D e { received := [raw.body] } (lookupStatus args (dlqMessage raw)) := by
    simp only [lookupStatus]
    split
    · exact .ofExcept fun _ _ => .stmt rfl
    · exact .ret _
  have hreset : ∀ action, Tracked D e { received := [raw.body] }
      (resetIfPlanned args action (dlqMessage raw)) := by
    intro action
    simp only [resetIfPlanned]
    split
    · refine .request_bind (.resetJob _) fun found => ?_
      cases found with
      | none => exact .ret _
      | some u =>
        refine .bind (.of_keeps fun x hx hk => .stmt ⟨⟨hx.owed, hk.keys List.mem_cons_self⟩, fun r => ?_⟩)
          fun _ => .ret _
        cases r with
        | ok a => rfl
        | error err => exact Known.owed_eq hx.owed
    · exact .ret _
  have send : ∀ x : Known, x.Idle → raw.body ∈ x.received → ∀ attributes,
      x.Keeps D e (.sendMessage (dlqMessage raw).bodyRaw attributes) := by
    intro x hx hr attributes
    refine ⟨⟨hx.owed, hr⟩, fun r => ?_⟩
    cases r with
    | ok a => rfl
    | error err => exact Known.owed_eq hx.owed
  refine .ofExcept fun msg hmsg => ?_
  obtain rfl := dlqMessage_of_parse hmsg
  refine .bind hlookup fun status => ?_
  dsimp only
  split
  case h_6 =>
    refine .ofExcept fun _ _ => ?_
    split
    · exact .ret _
    · exact .bind (hreset _) fun _ => .ofExcept fun _ _ =>
        .bind (.of_keeps fun x hx hr => .ask (send x hx (hr.received List.mem_cons_self) _)) fun _ =>
        .bind (.ask rfl) fun _ => .ret _
  all_goals exact .ofExcept fun _ _ => .ret _

theorem redrive_tracked (args : RedriveArgs) : Tracked D e {} (redrive args) := by
  have messages : ∀ (ms : List Message) counts,
      Tracked D e { received := ms.map (·.body) } (redriveMessages args counts ms) := by
    intro ms
    induction ms with
    | nil => exact fun _ => .ret _
    | cons raw ms ih =>
      exact fun counts => .bind ((redriveMessage_tracked args counts raw).mono
        (Known.received_le (by simp))) fun counts =>
        (ih counts).mono (Known.received_le (by simp))
  have loop : ∀ rounds remaining counts, Tracked D e {} (redriveLoop args rounds remaining counts) := by
    intro rounds
    induction rounds with
    | zero => exact fun _ _ => .ret _
    | succ rounds ih =>
      intro remaining counts
      simp only [redriveLoop]
      split
      · exact .ret _
      · refine .request_bind (.receive _ _) fun ms => ?_
        split
        · exact .ret _
        · exact .bind (messages ms counts) fun counts => (ih _ counts).mono (Known.nil_le _)
  have run : Tracked D e {} (do
      let counts ← redriveLoop args args.limit args.limit {}
      return ({ exitCode := 0, counts } : RedriveReport) : M RedriveReport) :=
    .bind (loop _ _ _) fun _ => .ret _
  simp only [redrive]
  split
  · exact .ret _
  · refine .bind (.ask rfl) fun _ => .bind (.ask rfl) fun _ => ?_
    split
    · exact run
    · refine .bind (Tracked.attempt (.ask rfl)) fun connected => ?_
      cases connected with
      | error x => exact .ret _
      | ok u => exact run

/-! ## Ingest -/

theorem persistJob_tracked {content : ContentItem} {jobId : Uuid} {tenantId : String}
    (h : ∀ x : Known, k.Le x → x.Stores D e content) : Tracked D e k (persistJob content jobId tenantId) := by
  refine .transaction fun x hx ht hk => ?_
  have quiet : ∀ {st : Sql}, (Cmd.sql st).Quiet → (sql st).Only (x.Keeps D e) :=
    fun hq => .stmt (Known.keeps_of_quiet hx hq)
  have insert : x.Keeps D e (.sql (.insertContent content)) := by
    refine ⟨⟨hx, h x hk⟩, fun r => ?_⟩
    cases r with
    | ok a => rfl
    | error err => exact Known.owed_eq hx
  refine .tryCatch (.bind (.stmt insert) fun _ => .bind (quiet rfl) fun _ =>
    .bind (.stmt (Known.keeps_insertAudit hx ht _)) fun _ => trivial) fun err => ?_
  split
  · refine .bind (quiet rfl) fun found => ?_
    cases found <;> trivial
  · trivial

theorem sendJob_tracked (settings : ApiSettings) (carrier : List (String × String)) (content : ContentItem)
    (jobId : Uuid) : Tracked D e k (sendJob settings carrier content jobId) := by
  have send : ∀ x : Known, x.Idle →
      ∀ provider body attributes, x.Keeps D e (.enqueue provider jobId body attributes) := by
    intro x hx provider body attributes
    refine ⟨hx.owed, fun r => ?_⟩
    cases r with
    | ok a => rfl
    | error err => exact Known.owed_eq hx.owed
  refine .bind (Tracked.attempt (.of_keeps fun x hx _ => .ask (send x hx _ _ _))) fun r => ?_
  cases r with
  | ok u => exact .ret _
  | error err => exact .bind (.ask rfl) fun _ => .bind (.stmt rfl) fun _ => .raise _

/-- `accept_image` from where it holds the ingest lock. -/
theorem ingestNew_tracked (settings : ApiSettings) (req : IngestRequest) :
    Tracked D (.acceptImage settings req) {}
    (ingestNew settings req (strip req.caption) (digestOf D settings req)) := by
  refine .request_bind .uuid4 fun contentId => .request_bind .uuid4 fun jobId => ?_
  refine .attempt_bind (.putObject fun x hk => ⟨settings, req, rfl, rfl, contentId,
    hk.drawn (List.mem_cons_of_mem _ List.mem_cons_self), rfl⟩) (fun _ => ?_) fun _ => .raise _
  refine .bind (.ask rfl) fun _ => .bind (persistJob_tracked fun x hk => ?_) fun found => ?_
  · exact ⟨settings, req, rfl, hk.drawn (List.mem_cons_of_mem _ List.mem_cons_self), hk.put List.mem_cons_self, rfl,
      rfl, rfl⟩
  · cases found with
    | some response => exact .ret _
    | none => exact sendJob_tracked _ _ _ _

theorem acceptImage_tracked (settings : ApiSettings) (req : IngestRequest) :
    Tracked D (.acceptImage settings req) {} (acceptImage D.sha256 settings req) := by
  simp only [acceptImage]
  split
  · exact .raise _
  split
  · exact .raise _
  split
  · exact .raise _
  refine .bind (.ask rfl) fun _ => .bind (.stmt rfl) fun found => ?_
  cases found with
  | some j => exact .ret _
  | none =>
    refine .bind (.ask rfl) fun acquired => ?_
    split
    · exact ingestNew_tracked settings req
    · exact .bind (.ask rfl) fun _ => .of_quiet (awaitIngest_only _ 20)

/-! ## Reviews -/

/-- The next audit row that is owed is written. -/
theorem owed_follows {id : Uuid} {v : ReviewEvent} {rest : List (Uuid × ReviewEvent)} {actor : String}
    {detail : Jsonb} {f : Unit → M α} {E : Except Exn α → Known → Prop} (ht : x.inTxn = false)
    (hd : detail.storable = true) (ho : x.owed = (id, v) :: rest)
    (hf : (f ()).Follows (track D e) E { x with owed := rest }) (herr : ∀ err, E (.error err) { x with owed := [] }) :
    (sql (.insertAudit ⟨"review", id, v.action, actor, detail⟩) >>= f).Follows (track D e) E x := by
  refine ⟨.inl ⟨rfl, hd, v, rest, ho, rfl⟩, fun r => ?_⟩
  cases r with
  | error err => exact herr err
  | ok u =>
    have hafter : (track D e).after x (.sql (.insertAudit ⟨"review", id, v.action, actor, detail⟩)) (.ok u) =
        { x with owed := rest } := by
      show (if x.inTxn then x else { x with owed := x.owed.tail }) = _
      rw [if_neg (by simp [ht]), ho]
      rfl
    rw [hafter]
    exact hf

theorem auditReleased_follows (rows : List (Uuid × Option String)) {x : Known} (ht : x.inTxn = false)
    (ho : x.owed = rows.map fun r => (r.1, .claimExpired)) :
    (auditReleased rows).Follows (track D e) (fun _ y => y.Idle ∧ x.Le y) x := by
  induction rows generalizing x with
  | nil => exact ⟨⟨ht, ho⟩, .refl x⟩
  | cons row rows ih =>
    refine owed_follows (v := .claimExpired) ht rfl ho ?_ fun err => ⟨⟨ht, rfl⟩, {}⟩
    exact (ih (x := { x with owed := rows.map fun r => (r.1, .claimExpired) }) ht rfl).mono fun _ y hy =>
      ⟨hy.1, { hy.2 with }⟩

theorem releaseExpiredClaims_tracked (isolation : Isolation) (now : Time) :
    Tracked D e k (releaseExpiredClaims isolation now) := by
  intro x hx _
  -- the rows that are released are owed
  have released : (releaseRows isolation now).Follows (track D e) (fun r y => y.inTxn = false ∧ x.Le y ∧
      y.owed = match r with
        | .ok rows => rows.map fun r => (r.1, .claimExpired)
        | .error _ => []) x := by
    cases isolation with
    | atomic =>
      refine ⟨hx, fun r => ?_⟩
      cases r <;> exact ⟨hx.inTxn, {}, rfl⟩
    | readCommitted =>
      refine ⟨hx.owed, fun r => ?_⟩
      cases r with
      | error err => exact ⟨hx.inTxn, {}, rfl⟩
      | ok expired =>
        refine ⟨hx, fun r => ?_⟩
        cases r <;> exact ⟨hx.inTxn, {}, rfl⟩
  refine Follows.bind (released.mono fun r y hy => ?_)
  cases r with
  | error err => exact ⟨⟨hy.1, hy.2.2⟩, hy.2.1⟩
  | ok rows =>
    refine Follows.bind ((auditReleased_follows rows hy.1 hy.2.2).mono fun r z hz => ?_)
    cases r <;> exact ⟨hz.1, hy.2.1.trans hz.2⟩

theorem listReviews_tracked (isolation : Isolation) (req : ListRequest) :
    Tracked D e k (listReviews isolation req) := by
  refine .bind (.ask rfl) fun _ => .bind (.ask rfl) fun now =>
    .bind (releaseExpiredClaims_tracked isolation now) fun _ =>
    .of_quiet ?_
  split
  · exact .bind (.stmt rfl) fun rows => rowsToReviews_only rows
  · exact .bind (.stmt rfl) fun rows => rowsToReviews_only rows

theorem claimReview_tracked (isolation : Isolation) (reviewId : Uuid) (body : ClaimRequest) :
    Tracked D (.claimReview reviewId body) k (claimReview isolation reviewId body) := by
  refine .bind (.ask rfl) fun now => .bind (.of_quiet (acquireReviewClaim_only _ _ _)) fun acquired => ?_
  dsimp only
  split
  · refine .bind (.ask rfl) fun _ => .bind (releaseExpiredClaims_tracked isolation now) fun _ => ?_
    intro x hx _
    refine ⟨hx, fun r => ?_⟩
    have failed : Known.Idle { x with owed := [] } ∧ x.Le { x with owed := [] } := ⟨⟨hx.inTxn, rfl⟩, {}⟩
    cases r with
    | error err => exact failed
    | ok claimed =>
      cases claimed with
      | none =>
        have quiet : (refuseClaim reviewId body.reviewer).Only Cmd.Quiet := by
          refine .bind (releaseReviewClaim_only _ _) fun _ => .bind (.stmt rfl) fun found => ?_
          cases found <;> trivial
        exact Tracked.of_quiet quiet x hx (.refl x)
      | some id =>
        -- the claim is audited after the row has been read again
        refine ⟨.inr ⟨reviewId, body, rfl⟩, fun r => ?_⟩
        cases r with
        | error err => exact failed
        | ok full =>
          refine owed_follows (x := { x with owed := [(reviewId, .claimed)] }) (v := .claimed) hx.inTxn rfl rfl ?_
            fun _ => failed
          exact (Tracked.of_quiet (fullToReview_only full) _ failed.1 (.refl _)).mono fun _ y hy =>
            ⟨hy.1, failed.2.trans hy.2⟩
  · exact .raise _

theorem resolveReview_tracked (reviewId : Uuid) (body : ResolveRequest) :
    Tracked D e k (resolveReview reviewId body) := by
  refine .bind (.ask rfl) fun now => .bind (.ask rfl) fun owner => ?_
  cases owner with
  | none => exact .raise _
  | some owner =>
    dsimp only
    split
    · exact .raise _
    refine .bind (.ask rfl) fun _ => .bind (.stmt rfl) fun model => ?_
    cases model with
    | none => exact .raise _
    | some model =>
      dsimp only
      split
      · exact .raise _
      intro x hx _
      refine ⟨hx, fun r => ?_⟩
      have failed : Known.Idle { x with owed := [] } ∧ x.Le { x with owed := [] } := ⟨⟨hx.inTxn, rfl⟩, {}⟩
      cases r with
      | error err => exact failed
      | ok resolved =>
        cases resolved with
        | none => exact ⟨hx, .refl x⟩
        | some id =>
          refine owed_follows (x := { x with owed := [(reviewId, .resolved)] }) (v := .resolved) hx.inTxn rfl rfl ?_
            fun _ => failed
          have quiet : (do
              let full ← sql (.reviewFull reviewId)
              releaseReviewClaim reviewId.str body.reviewer
              fullToReview full : M ReviewItemOut).Only Cmd.Quiet :=
            .bind (.stmt rfl) fun full => .bind (releaseReviewClaim_only _ _) fun _ => fullToReview_only full
          exact (Tracked.of_quiet quiet _ failed.1 (.refl _)).mono fun _ y hy => ⟨hy.1, failed.2.trans hy.2⟩

/-! ## All calls -/

/-- Every call follows its monitor, and owes nothing at its end. -/
theorem code_tracked (D : Deployment) (e : Entry) :
    (e.code D).Follows (track D e) (fun _ y => y.Idle) (track D e).init := by
  have tracked : ∀ {α : Type} {p : M α} {f : α → M Out} {k : Known}, k.Idle → (track D e).init = k →
      Tracked D e k p → (∀ a, (f a).Only Cmd.Quiet) →
          (p >>= f).Follows (track D e) (fun _ y => y.Idle) (track D e).init := by
    intro α p f k hk hinit hp hf
    rw [hinit]
    exact (Tracked.bind hp (fun a => .of_quiet (hf a)) k hk (.refl k)).mono fun _ _ hy => hy.1
  cases e with
  | acceptImage settings req => exact tracked ⟨rfl, rfl⟩ rfl (acceptImage_tracked settings req) fun _ => trivial
  | handleMessage settings body => exact tracked ⟨rfl, rfl⟩ rfl (handleMessage_tracked rfl body) fun _ => trivial
  | pollSqs settings rounds => exact tracked ⟨rfl, rfl⟩ rfl (pollSqs_tracked rfl rounds) fun _ => trivial
  | pollPubsub settings rounds => exact tracked ⟨rfl, rfl⟩ rfl (pollPubsub_tracked rfl rounds) fun _ => trivial
  | redrive args => exact tracked ⟨rfl, rfl⟩ rfl (redrive_tracked args) fun _ => trivial
  | listReviews req => exact tracked ⟨rfl, rfl⟩ rfl (listReviews_tracked D.isolation req) fun _ => trivial
  | claimReview reviewId body =>
    exact tracked ⟨rfl, rfl⟩ rfl (claimReview_tracked D.isolation reviewId body) fun _ => trivial
  | resolveReview reviewId body =>
    exact tracked ⟨rfl, rfl⟩ rfl (resolveReview_tracked reviewId body) fun _ => trivial

end CM
