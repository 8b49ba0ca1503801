import ContentModeration.Framework.Monitor
import ContentModeration.Proof.Transitions

/-!
# Attempts and failures

`mark_failed` reads the attempts of a job in one statement and writes the job's status in the next.
In between, another delivery can start and `redrive` can reset the job, and then the status does
not fit the attempts any more (`failed_without_attempts`). Where no such step is made in between
(`UpToDate`), the status of every failed job fits its attempts in every state (`attempts_match`).
-/

namespace CM

open Database World

variable {D : Deployment} {s s' : World} {i : Nat} {id : Uuid}

/-- The error is that of a rejected job, as `mark_failed` stores it. -/
def ByValidation (error : String) : Prop := ∃ reason, error = takeStr 2000 ("validation: " ++ reason)

/-- A failed job has attempts left, or it was rejected by validation, and a dead one has none. -/
structure Job.Fits (j : Job) : Prop where
  failed : j.status = .failed → j.attempts < j.maxAttempts ∨ ∃ error, j.lastError = some error ∧ ByValidation error
  dead : j.status = .dead → j.maxAttempts ≤ j.attempts

/-- A step that does not make the attempts that another thread has read of the job outdated. -/
structure UpToDate (id : Uuid) (c : (service D).Config) (a : (service D).Action) : Prop where
  /-- The message of the job has been sent. -/
  enqueued {i e error k p} : c.At i e (.sql (.markEnqueueFailed id error)) k → a ≠ .step i p
  /-- No delivery takes the attempts to their maximum while another one is about to mark the job as failed. -/
  starts {i e k p j f error k' row} : a = .step i p → c.At i e (.sql (.startProcessing id)) k →
    (∀ text, p.fault ≠ .before text) → c.At j f (.sql (.markFailed id .failed error)) k' → ¬ ByValidation error →
    c.world.db.job? id = some row → row.attempts + 1 < row.maxAttempts
  /-- No redrive resets the job while a delivery is about to mark it as dead. -/
  resets {i e key k p j f error k' row} : a = .step i p → c.At i e (.sql (.resetJob key)) k → castUuid key = .ok id →
    (∀ text, p.fault ≠ .before text) → c.At j f (.sql (.markFailed id .dead error)) k' →
    c.world.db.job? id = some row → row.status ≠ .dead ∧ row.status ≠ .failed

/-! ## What `mark_failed` writes -/

/-- The status that `mark_failed` writes for what it has read. -/
def failedStatus (attempts maxAttempts : Nat) : JobStatus := if maxAttempts ≤ attempts then .dead else .failed

def Cmd.isMark : Cmd → Bool
  | .sql (.markFailed ..) => true
  | _ => false

/-- The UPDATE of `mark_failed` follows its SELECT at once, and writes what is due. -/
def attemptsMonitor : Monitor iface Exn where
  Phase := Option (Uuid × Nat × Nat)
  init := none
  allows x q := ∀ id status error, q = .sql (.markFailed id status error) →
    ∃ attempts maxAttempts, x = some (id, attempts, maxAttempts) ∧ status = failedStatus attempts maxAttempts
  after
    | _, .sql (.jobAttempts id), .ok (some (attempts, maxAttempts)) => some (id, attempts, maxAttempts)
    | _, _, _ => none

/-- In every phase, the program writes only what is due. -/
def Marks {α : Type} (p : M α) : Prop :=
    ∀ x : Option (Uuid × Nat × Nat), p.Follows attemptsMonitor (fun _ _ => True) x

section Marks

variable {α β : Type} {p : M α} {f : α → M β}

theorem Marks.of_only (h : p.Only fun q : Cmd => q.isMark = false) : Marks p := by
  refine fun x => Prog.Follows.of_free (h.mono fun q hq y id status error he => ?_)
  rw [he] at hq
  cases hq

theorem Marks.bind (hp : Marks p) (hf : ∀ a, Marks (f a)) : Marks (p >>= f) := by
  refine fun x => .bind ((hp x).mono fun r y _ => ?_)
  cases r with
  | ok a => exact hf a y
  | error z => trivial

theorem Marks.attempt (hp : Marks p) : Marks p.attempt := fun x => .attempt (hp x)

theorem Marks.ask {q : Cmd} (hq : q.isMark = false) : Marks (request q) := .of_only (.ask hq)

theorem Marks.stmt {st : Sql} (hq : (Cmd.sql st).isMark = false) : Marks (sql st) := .of_only (.stmt hq)

theorem Marks.ret (a : α) : Marks (pure a : M α) := fun _ => trivial

theorem Marks.raise (x : Exn) : Marks (throw x : M α) := fun _ => trivial

/-! ### The worker -/

theorem markFailed_marks (jobId : Uuid) (error : String) : Marks (markFailed jobId error) := by
  intro x
  refine .bind ⟨fun _ _ _ h => (by cases h), fun r => ?_⟩
  cases r with
  | error y => trivial
  | ok found =>
    cases found with
    | none => trivial
    | some read =>
      obtain ⟨attempts, maxAttempts⟩ := read
      refine ⟨fun id status error h => ?_, fun r => ?_⟩
      · cases h
        exact ⟨attempts, maxAttempts, rfl, rfl⟩
      · have hrest : ∀ row, Marks (sql (.insertAudit row)) := fun row => .stmt rfl
        cases r with
        | ok u => exact hrest _ _
        | error y => trivial

theorem ofExcept_marks (r : Except Exn α) : Marks (Prog.ofExcept r) := by
  cases r with
  | ok a => exact .ret a
  | error x => exact .raise x

theorem processJob_marks (settings : WorkerSettings) (job : JobMessage) : Marks (processJob settings job) := by
  refine .of_only ((processJob_only settings job).mono fun q hq => ?_)
  cases hq with
  | persist h => cases h <;> rfl
  | _ => rfl

theorem handleJob_marks (settings : WorkerSettings) (job : JobMessage) : Marks (handleJob settings job) := by
  refine .bind (.ask rfl) fun _ => .bind (.stmt rfl) fun status => ?_
  split
  · exact .ret _
  · refine .bind (processJob_marks settings job).attempt fun r => ?_
    split
    · exact .ret _
    · exact .bind (markFailed_marks _ _) fun _ => .bind (.ask rfl) fun _ => .raise _
    · exact .bind (markFailed_marks _ _) fun _ => .bind (.ask rfl) fun _ => .raise _

theorem handleMessage_marks (settings : WorkerSettings) (body : Json) : Marks (handleMessage settings body) :=
  .bind (ofExcept_marks _) fun job => handleJob_marks settings job

theorem consume_marks (settings : WorkerSettings) (b : RawBody) : Marks (consume settings b) := by
  simp only [consume]
  split
  · exact .raise _
  · exact .raise _
  · exact handleMessage_marks settings _
  · exact .raise _

theorem deliverAllSqs_marks (settings : WorkerSettings) (ms : List Message) : Marks (deliverAllSqs settings ms) := by
  induction ms with
  | nil => exact .ret _
  | cons msg ms ih =>
    have hone : Marks (deliverSqs settings msg) := by
      refine .bind (Marks.attempt (.bind (consume_marks settings msg.body) fun _ => .ask rfl)) fun r => ?_
      split
      · exact .ret _
      · exact .ask rfl
      · exact .ret _
    exact .bind hone fun _ => ih

theorem pollSqs_marks (settings : WorkerSettings) (rounds : Nat) : Marks (pollSqs settings rounds) := by
  induction rounds with
  | zero => exact .ret _
  | succ rounds ih =>
    refine .bind (Marks.attempt (.ask rfl)) fun r => ?_
    cases r with
    | error x => exact .bind (.ask rfl) fun _ => ih
    | ok ms => exact .bind (deliverAllSqs_marks settings ms) fun _ => ih

theorem deliverPubsub_marks (settings : WorkerSettings) (acks : Acks) (ms : List Message) :
    Marks (deliverPubsub settings acks ms) := by
  induction ms generalizing acks with
  | nil => exact .ret _
  | cons msg ms ih =>
    refine .bind (consume_marks settings msg.body).attempt fun r => ?_
    split
    · exact ih _
    · exact ih _
    · exact ih _

theorem pollPubsub_marks (settings : WorkerSettings) (rounds : Nat) : Marks (pollPubsub settings rounds) := by
  have settles : ∀ acks, Marks (settle acks) := by
    intro acks
    have nack : Marks (do
        if acks.nackIds ≠ [] then
          let _ ← request (.modifyAckDeadline acks.nackIds) : M Unit) := by
      split
      · exact .bind (.ask rfl) fun _ => .ret _
      · exact .ret _
    simp only [settle]
    split
    · exact .bind (.ask rfl) fun _ => nack
    · exact nack
  have pulls : Marks (pullPubsub settings rounds) := by
    induction rounds with
    | zero => exact .ret _
    | succ rounds ih =>
      refine .bind (Marks.attempt (.ask rfl)) fun r => ?_
      cases r with
      | error x =>
        dsimp only
        split
        · exact ih
        · exact .bind (.ask rfl) fun _ => ih
      | ok ms => exact .bind (deliverPubsub_marks settings {} ms) fun acks => .bind (settles acks) fun _ => ih
  simp only [pollPubsub]
  split
  · exact .raise _
  · exact pulls

/-! ### The other calls -/

theorem redrive_marks (args : RedriveArgs) : Marks (redrive args) := by
  have message : ∀ counts raw, Marks (redriveMessage args counts raw) := by
    intro counts raw
    have hlookup : ∀ msg, Marks (lookupStatus args msg) := by
      intro msg
      simp only [lookupStatus]
      split
      · exact .bind (ofExcept_marks _) fun _ => .stmt rfl
      · exact .ret _
    have hreset : ∀ action msg, Marks (resetIfPlanned args action msg) := by
      intro action msg
      simp only [resetIfPlanned]
      split
      · refine .bind (.stmt rfl) fun found => ?_
        cases found with
        | none => exact .ret _
        | some id₀ => exact .bind (.stmt rfl) fun _ => .ret _
      · exact .ret _
    refine .bind (ofExcept_marks _) fun msg => .bind (hlookup msg) fun status => ?_
    dsimp only
    split
    any_goals exact .bind (ofExcept_marks _) fun _ => .ret _
    refine .bind (ofExcept_marks _) fun _ => ?_
    split
    · exact .ret _
    · exact .bind (hreset _ _) fun _ => .bind (ofExcept_marks _) fun _ => .bind (.ask rfl) fun _ =>
        .bind (.ask rfl) fun _ => .ret _
  have messages : ∀ (ms : List Message) counts, Marks (redriveMessages args counts ms) := by
    intro ms
    induction ms with
    | nil => exact fun _ => .ret _
    | cons raw ms ih => exact fun counts => .bind (message counts raw) fun counts => ih counts
  have loop : ∀ rounds remaining counts, Marks (redriveLoop args rounds remaining counts) := by
    intro rounds
    induction rounds with
    | zero => exact fun _ _ => .ret _
    | succ rounds ih =>
      intro remaining counts
      simp only [redriveLoop]
      split
      · exact .ret _
      · refine .bind (.ask rfl) fun ms => ?_
        split
        · exact .ret _
        · exact .bind (messages ms counts) fun _ => ih _ _
  have run : Marks (do
      let counts ← redriveLoop args args.limit args.limit {}
      return ({ exitCode := 0, counts } : RedriveReport) : M RedriveReport) := .bind (loop _ _ _) fun _ => .ret _
  simp only [redrive]
  split
  · exact .ret _
  · refine .bind (.ask rfl) fun _ => .bind (.ask rfl) fun _ => ?_
    split
    · exact run
    · refine .bind (Marks.attempt (.ask rfl)) fun connected => ?_
      cases connected with
      | error x => exact .ret _
      | ok u => exact run

theorem acceptImage_marks (sha256 : Digest) (settings : ApiSettings) (req : IngestRequest) :
    Marks (acceptImage sha256 settings req) :=
  .of_only ((acceptImage_only sha256 settings req).mono fun q hq => by cases hq <;> rfl)

theorem releaseExpiredClaims_marks (isolation : Isolation) (now : Time) :
    Marks (releaseExpiredClaims isolation now) := by
  have audits : ∀ rows, Marks (auditReleased rows) := by
    intro rows
    induction rows with
    | nil => exact .ret _
    | cons row rows ih => exact .bind (.stmt rfl) fun _ => ih
  refine .bind ?_ fun rows => .bind (audits rows) fun _ => .ret _
  cases isolation with
  | atomic => exact .stmt rfl
  | readCommitted => exact .bind (.stmt rfl) fun _ => .stmt rfl

theorem fullToReview_marks (full : Option ReviewFull) : Marks (fullToReview full) := by
  cases full with
  | some row => exact .bind (.ask rfl) fun _ => .ret _
  | none => exact .raise _

theorem releaseReviewClaim_marks (reviewId reviewer : String) : Marks (releaseReviewClaim reviewId reviewer) := by
  refine .bind (.ask rfl) fun current => ?_
  split
  · exact .ask rfl
  · exact .ret _

theorem listReviews_marks (isolation : Isolation) (req : ListRequest) : Marks (listReviews isolation req) := by
  have rows : ∀ rs, Marks (rowsToReviews rs) := by
    intro rs
    induction rs with
    | nil => exact .ret _
    | cons r rs ih => exact .bind (.bind (.ask rfl) fun _ => .ret _) fun _ => .bind ih fun _ => .ret _
  refine .bind (.ask rfl) fun _ => .bind (.ask rfl) fun now =>
    .bind (releaseExpiredClaims_marks isolation now) fun _ => ?_
  split
  · exact .bind (.stmt rfl) rows
  · exact .bind (.stmt rfl) rows

theorem claimReview_marks (isolation : Isolation) (reviewId : Uuid) (body : ClaimRequest) :
    Marks (claimReview isolation reviewId body) := by
  have acquires : Marks (acquireReviewClaim reviewId.str body.reviewer claimTtlSeconds) := by
    have refresh : ∀ current : Option String, Marks (do
        if current = some body.reviewer then
          let _ ← request (.redisExpire (claimKey reviewId.str) claimTtlSeconds)
          return (true, some body.reviewer)
        else return (false, current) : M (Bool × Option String)) := by
      intro current
      split
      · exact .bind (.ask rfl) fun _ => .ret _
      · exact .ret _
    refine .bind (.ask rfl) fun current => ?_
    split
    · refine .bind (.ask rfl) fun acquired => ?_
      split
      · exact .ret _
      · exact .bind (.ask rfl) refresh
    · exact refresh current
  refine .bind (.ask rfl) fun now => .bind acquires fun acquired => ?_
  dsimp only
  split
  · refine .bind (.ask rfl) fun _ => .bind (releaseExpiredClaims_marks isolation now) fun _ =>
      .bind (.stmt rfl) fun claimed => ?_
    cases claimed with
    | none =>
      refine .bind (releaseReviewClaim_marks _ _) fun _ => .bind (.stmt rfl) fun found => ?_
      cases found <;> exact .raise _
    | some _ => exact .bind (.stmt rfl) fun full => .bind (.stmt rfl) fun _ => fullToReview_marks full
  · exact .raise _

theorem resolveReview_marks (reviewId : Uuid) (body : ResolveRequest) : Marks (resolveReview reviewId body) := by
  refine .bind (.ask rfl) fun now => .bind (.ask rfl) fun owner => ?_
  cases owner with
  | none => exact .raise _
  | some owner =>
    dsimp only
    split
    · exact .raise _
    refine .bind (.ask rfl) fun _ => .bind (.stmt rfl) fun model => ?_
    cases model with
    | none => exact .raise _
    | some model =>
      dsimp only
      split
      · exact .raise _
      refine .bind (.stmt rfl) fun resolved => ?_
      cases resolved with
      | none => exact .raise _
      | some _ =>
        exact .bind (.stmt rfl) fun _ => .bind (.stmt rfl) fun full => .bind (releaseReviewClaim_marks _ _) fun _ =>
          fullToReview_marks full

theorem code_marks (D : Deployment) (e : Entry) : Marks ((service D).code e) := by
  cases e with
  | acceptImage settings req => exact .bind (acceptImage_marks _ _ _) fun _ => .ret _
  | handleMessage settings body => exact .bind (handleMessage_marks _ _) fun _ => .ret _
  | pollSqs settings rounds => exact .bind (pollSqs_marks _ _) fun _ => .ret _
  | pollPubsub settings rounds => exact .bind (pollPubsub_marks _ _) fun _ => .ret _
  | redrive args => exact .bind (redrive_marks args) fun _ => .ret _
  | listReviews req => exact .bind (listReviews_marks _ _) fun _ => .ret _
  | claimReview reviewId body => exact .bind (claimReview_marks _ _ _) fun _ => .ret _
  | resolveReview reviewId body => exact .bind (resolveReview_marks _ _) fun _ => .ret _

end Marks

/-! ## What a step does to the attempts -/

/-- The write leaves a job that fits as it should be, whatever its row. -/
structure Write.FitsWell (id : Uuid) (w : Write) : Prop where
  job {row} : w = .job row → row.Fits
  update {u} : w = .updateJob id u → ∀ j : Job, (u.apply j).Fits

theorem fits_of_status {j : Job} (hf : j.status ≠ .failed) (hd : j.status ≠ .dead) : j.Fits :=
  ⟨fun h => absurd h hf, fun h => absurd h hd⟩

theorem fits_apply {db : Database} {w : Write} (hw : w.FitsWell id) (h : ∀ j, db.job? id = some j → j.Fits) :
    ∀ j, (db.apply w).job? id = some j → j.Fits := by
  intro j hj
  rw [job?_apply] at hj
  rcases Option.or_eq_some_iff.mp hj with hj | ⟨-, hj⟩
  · obtain ⟨j₀, hj₀, rfl⟩ := Option.map_eq_some_iff.mp hj
    cases w with
    | updateJob id' u =>
      simp only [Write.toJob]
      split
      · rename_i hid
        have hid' : j₀.id = id := by simpa using List.find?_some hj₀
        obtain rfl : id' = id := hid.symm.trans hid'
        exact hw.update rfl j₀
      · exact h j₀ hj₀
    | _ => exact h j₀ hj₀
  · obtain ⟨hrow, -⟩ := Option.filter_eq_some_iff.mp hj
    cases w with
    | job row =>
      cases hrow
      exact hw.job rfl
    | _ => cases hrow

theorem fits_applyAll {db : Database} {ws : List Write} (hw : ∀ w ∈ ws, w.FitsWell id)
    (h : ∀ j, db.job? id = some j → j.Fits) : ∀ j, (db.applyAll ws).job? id = some j → j.Fits := by
  induction ws generalizing db with
  | nil => exact h
  | cons w ws ih =>
    exact ih (fun w' hm => hw w' (List.mem_cons_of_mem _ hm)) (fits_apply (hw w List.mem_cons_self) h)

namespace Write

theorem FitsWell.other {w : Write} (hj : w.job? = none) (hu : ∀ id u, w ≠ .updateJob id u) : w.FitsWell id where
  job := by
    rintro row rfl
    cases hj
  update {u} h := absurd h (hu id u)

theorem FitsWell.queued {row : Job} (h : row.status = .queued) : FitsWell id (.job row) where
  job := by
    rintro row' he
    cases he
    exact fits_of_status (by simp [h]) (by simp [h])
  update h := by cases h

theorem FitsWell.updates {id' : Uuid} {u : JobUpdate}
    (h : ∀ j, (u.apply j).status ≠ .failed ∧ (u.apply j).status ≠ .dead) :
    FitsWell id (.updateJob id' u) where
  job h := by cases h
  update := by
    rintro u' he j
    cases he
    exact fits_of_status (h j).1 (h j).2

end Write

/-- A transaction leaves jobs as they should be. -/
theorem fitsWell_of_complete {ws : List Write} (hc : Complete i s ws) : ∀ w ∈ ws, w.FitsWell id := by
  have succeeded : ∀ job t, (Write.updateJob job (.succeeded t)).FitsWell id := fun job t =>
    .updates fun j => by simp [JobUpdate.apply]
  cases hc with
  | nil => exact fun w hw => by cases hw
  | decision e id reviewId t =>
    intro w hw
    by_cases hn : e.needsHumanReview = true <;> simp [decisionBundle, hn] at hw
    · rcases hw with rfl | rfl | rfl | rfl | rfl | rfl
      any_goals first | exact succeeded _ _ | exact .other rfl (by simp)
    · rcases hw with rfl | rfl | rfl | rfl
      any_goals first | exact succeeded _ _ | exact .other rfl (by simp)
  | ingest content jobId tenantId t =>
    intro w hw
    simp [ingestBundle] at hw
    rcases hw with rfl | rfl | rfl
    · exact .other rfl (by simp)
    · exact .queued rfl
    · exact .other rfl (by simp)

/-- Every statement but the two that mark the job as failed. -/
theorem fitsWell_of_step {q : Cmd} {p : Pick} {ws : List Write} (h : DbStep D i s q p ws)
    (hm : ∀ status error, q ≠ .sql (.markFailed id status error))
    (he : ∀ error, q ≠ .sql (.markEnqueueFailed id error)) : ∀ w ∈ ws, w.FitsWell id := by
  cases h with
  | commit hc => exact fitsWell_of_complete hc
  | alone idle hc hr hf =>
    intro w hw
    cases makes_of_run hr w hw with
    | job => exact .queued rfl
    | processing | succeeded | reset => exact .updates fun j => by simp [JobUpdate.apply]
    | failed =>
      refine ⟨fun h => (by cases h), fun h => ?_⟩
      cases h
      exact absurd rfl (hm _ _)
    | enqueueFailed =>
      refine ⟨fun h => (by cases h), fun h => ?_⟩
      cases h
      exact absurd rfl (he _)
    | _ => exact .other rfl (by simp)

/-- The writes leave the attempts of every job. -/
theorem attempts_foldl {ws : List Write} (hw : ∀ w ∈ ws, ∀ j : Job, (w.toJob j).attempts = j.attempts) (j : Job) :
    (ws.foldl (fun j w => w.toJob j) j).attempts = j.attempts := by
  induction ws generalizing j with
  | nil => rfl
  | cons w ws ih =>
    rw [List.foldl_cons, ih (fun w' hm => hw w' (List.mem_cons_of_mem _ hm)), hw w List.mem_cons_self]

theorem maxAttempts_foldl (ws : List Write) (j : Job) :
    (ws.foldl (fun j w => w.toJob j) j).maxAttempts = j.maxAttempts := by
  induction ws generalizing j with
  | nil => rfl
  | cons w ws ih =>
    have hone : (w.toJob j).maxAttempts = j.maxAttempts := by
      cases w with
      | updateJob id u =>
        simp only [Write.toJob]
        split
        · cases u <;> rfl
        · rfl
      | _ => rfl
    rw [List.foldl_cons, ih, hone]

/-- What a request can do to the attempts of the job `id`, whose row is `j`. -/
inductive Counts (id : Uuid) (j : Job) : Cmd → Nat → Prop where
  | same {q} : Counts id j q j.attempts
  | started : Counts id j (.sql (.startProcessing id)) (j.attempts + 1)
  | reset {key} (cast : castUuid key = .ok id) (failed : j.status = .dead ∨ j.status = .failed) :
    Counts id j (.sql (.resetJob key)) 0

/-- A write that leaves the attempts of every job. -/
theorem attempts_toJob {w : Write} (hp : ∀ id t, w ≠ .updateJob id (.processing t))
    (hq : ∀ id t, w ≠ .updateJob id (.queued t)) (j : Job) : (w.toJob j).attempts = j.attempts := by
  cases w with
  | updateJob id u =>
    simp only [Write.toJob]
    split
    · cases u with
      | processing t => exact absurd rfl (hp id t)
      | queued t => exact absurd rfl (hq id t)
      | _ => rfl
    · rfl
  | _ => rfl

theorem attempts_of_complete {ws : List Write} (hc : Complete i s ws) (j : Job) :
    (ws.foldl (fun j w => w.toJob j) j).attempts = j.attempts := by
  refine attempts_foldl (fun w hw => ?_) j
  cases hc with
  | nil => cases hw
  | decision e id reviewId t =>
    refine attempts_toJob (fun id t he => ?_) fun id t he => ?_ <;> subst he <;> simp [decisionBundle] at hw
  | ingest content jobId tenantId t =>
    refine attempts_toJob (fun id t he => ?_) fun id t he => ?_ <;> subst he <;> simp [ingestBundle] at hw

/-- An update of the jobs by one statement. -/
theorem updateJobIf_foldl {db : Database} {j : Job} (hu : db.UniqueRows) (hj : db.job? id = some j) (id' : Uuid)
    (P : Job → Bool) (u : JobUpdate) : let j' := (db.updateJobIf id' P u).foldl (fun j w => w.toJob j) j
    j' = j ∨ id' = id ∧ P j = true ∧ j' = u.apply j := by
  have hid : j.id = id := by simpa using List.find?_some hj
  simp only [updateJobIf]
  split
  · rename_i hf
    by_cases he : id' = id
    · subst he
      refine .inr ⟨rfl, ?_, by simp [Write.toJob, hid]⟩
      obtain ⟨j', hj'⟩ := Option.isSome_iff_exists.mp hf
      have hP := List.find?_some hj'
      simp only [Bool.and_eq_true, decide_eq_true_eq] at hP
      have hsame := hu.job?_of_mem (List.mem_of_find?_eq_some hj')
      rw [hP.1, hj] at hsame
      cases hsame
      exact hP.2
    · exact .inl (by simp [Write.toJob, hid, Ne.symm he])
  · exact .inl rfl

theorem counts_of_step {q : Cmd} {p : Pick} {ws : List Write} (h : DbStep D i s q p ws)
    (hu : s.db.UniqueRows) {j : Job}
    (hj : s.db.job? id = some j) : Counts id j q (ws.foldl (fun j w => w.toJob j) j).attempts ∧
      (q = .commit ∨ ∀ text, p.fault ≠ .before text) := by
  cases h with
  | commit hc =>
    rw [attempts_of_complete hc]
    exact ⟨.same, .inl rfl⟩
  | @alone st _ a _ idle hc hr hf =>
    refine ⟨?_, .inr hf⟩
    have other : (∀ w ∈ ws, ∀ j : Job, (w.toJob j).attempts = j.attempts) →
        Counts id j (.sql st) (ws.foldl (fun j w => w.toJob j) j).attempts := by
      intro hw
      rw [attempts_foldl hw]
      exact .same
    cases st with
    | startProcessing id' =>
      cases hr
      rcases updateJobIf_foldl hu hj id' (fun _ => true) (.processing s.now) with hsame | ⟨rfl, -, hj'⟩
      · rw [hsame]
        exact .same
      · rw [hj']
        exact .started
    | resetJob key =>
      simp only [Sql.run] at hr
      cases hcast : castUuid key with
      | error x =>
        rw [hcast] at hr
        cases hr
      | ok id' =>
        rw [hcast] at hr
        cases hr
        rcases updateJobIf_foldl hu hj id' (fun j => decide (j.status = .dead ∨ j.status = .failed))
          (.queued s.now) with
          hsame | ⟨rfl, hP, hj'⟩
        · rw [hsame]
          exact .same
        · rw [hj']
          exact .reset hcast (of_decide_eq_true hP)
    | _ =>
      refine other fun w hw j => attempts_toJob (fun id t he => ?_) (fun id t he => ?_) j
      all_goals
        subst he
        cases makes_of_run hr _ hw

/-! ## Runs -/

/-- The row fits what a thread is about to write. -/
def FitsMark (j : Job) (status : JobStatus) (error : String) : Prop :=
  ∀ t, (JobUpdate.apply j (.failed status error t)).Fits

/-- The job fits its attempts, also once it has been marked as failed by the threads that have read them. -/
structure AttemptsFit (id : Uuid) (c : (service D).Config) : Prop where
  fits : ∀ j, c.world.db.job? id = some j → j.Fits
  pending {i e status error k} : c.At i e (.sql (.markFailed id status error)) k →
    ∃ j, c.world.db.job? id = some j ∧ FitsMark j status error

theorem fitsMark_failedStatus (j : Job) (error : String) :
    FitsMark j (failedStatus j.attempts j.maxAttempts) error := by
  intro t
  by_cases h : j.maxAttempts ≤ j.attempts
  · refine ⟨fun hf => ?_, fun _ => h⟩
    simp [JobUpdate.apply, failedStatus, h] at hf
  · refine ⟨fun _ => .inl (by simpa [JobUpdate.apply] using h), fun hd => ?_⟩
    simp [JobUpdate.apply, failedStatus, h] at hd

/-- Each thread follows the monitor of `mark_failed`. -/
theorem marks_of_run {now : Time} {c : (service D).Config} (hr : Pool.Reachable (boot D now) c) (i : Nat) :
    c.InPhase (M := fun _ => attemptsMonitor) (fun _ _ _ => True) (fun _ _ => True) i := by
  obtain ⟨h, hr⟩ := hr
  exact hr.follows (fun _ => rfl) (G := fun _ _ _ _ _ => True) (fun e => code_marks D e _) (fun _ _ _ => trivial)
    (fun _ _ _ _ _ _ => trivial) (fun _ _ _ _ _ _ _ => trivial) i

theorem attemptsMonitor_after {x : Option (Uuid × Nat × Nat)} {q : Cmd} {r : Except Exn q.Ans} {m n : Nat}
    (h : attemptsMonitor.after x q r = some (id, m, n)) : (⟨q, r⟩ : (q : Cmd) × Except Exn q.Ans) =
      ⟨.sql (.jobAttempts id), .ok (some (m, n))⟩ := by
  simp only [attemptsMonitor] at h
  split at h
  · cases h
    rfl
  · cases h

theorem attempts_read {p : Pick} {m n : Nat} (ht : s.txn i = none)
    (hx : World.exec i (.sql (.jobAttempts id)) p s = some (.ok (some (m, n)), s')) :
    ∃ j, s.db.job? id = some j ∧ m = j.attempts ∧ n = j.maxAttempts := by
  rcases sql_outcome ht hx with ⟨⟨err, herr⟩, -⟩ | ⟨a, ws, hrun, -, hr | ⟨-, err, herr⟩⟩
  · cases herr
  · cases hrun
    obtain ⟨j, hj, heq⟩ := Option.map_eq_some_iff.mp (Except.ok.inj hr).symm
    cases heq
    exact ⟨j, hj, rfl, rfl⟩
  · cases herr

/-- A thread that is about to mark the job as failed has just read its attempts. -/
theorem fitsMark_own {now : Time} {c : (service D).Config} (hr : Pool.Reachable (boot D now) c) {e : Entry} {q : Cmd}
    {k : Except Exn q.Ans → M Out} {p : Pick} {r : Except Exn q.Ans} {status : JobStatus} {error : String}
    {k' : Except Exn Unit → M Out} (hat : c.At i e q k) (hx : World.exec i q p c.world = some (r, s'))
    (hk : k r = .call (.sql (.markFailed id status error)) k') :
    s'.db = c.world.db ∧ ∃ j, c.world.db.job? id = some j ∧ FitsMark j status error := by
  obtain ⟨x, ⟨-, hp⟩, -⟩ := marks_of_run hr i e _ hat
  have hp := hp r
  rw [hk] at hp
  obtain ⟨m, n, hafter, rfl⟩ := hp.1 id status error rfl
  cases attemptsMonitor_after hafter
  have hc := ((sound_of_reachable hr).pre_of_at (valid D False) hat).1
  have ht : c.world.txn i = none := by
    cases ht : c.world.txn i with
    | none => rfl
    | some t =>
      simp only [Contract, ht] at hc
      exact hc.elim
  obtain ⟨j, hj, rfl, rfl⟩ := attempts_read ht hx
  refine ⟨?_, j, hj, fitsMark_failedStatus j error⟩
  rcases db_of_exec hc hx with hdb | ⟨ws, hstep, hdb⟩
  · exact hdb
  · cases hstep with
    | alone idle _ hrun _ =>
      cases hrun
      exact hdb

theorem FitsMark.of_counts {j j' : Job} {status : JobStatus} {error : String} (h : FitsMark j status error)
    (hf : status = .failed → ¬ ByValidation error → j.attempts < j.maxAttempts → j'.attempts < j'.maxAttempts)
    (hd : status = .dead → j.maxAttempts ≤ j.attempts → j'.maxAttempts ≤ j'.attempts) : FitsMark j' status error := by
  intro t
  refine ⟨fun hst => ?_, fun hst => hd hst ((h t).dead hst)⟩
  by_cases hv : ByValidation error
  · exact .inr ⟨error, rfl, hv⟩
  · rcases (h t).failed hst with hlt | ⟨error', he, hv'⟩
    · exact .inl (hf hst hv hlt)
    · cases he
      exact absurd hv' hv

/-- What a step leaves to a thread that it does not move. -/
theorem fitsMark_other {q : Cmd} {p : Pick} {ws : List Write} {c : (service D).Config}
    {a : (service D).Action} {l : Nat}
    {e f : Entry} {k : Except Exn q.Ans → M Out} {status : JobStatus} {error : String} {k' : Except Exn Unit → M Out}
    {j : Job} (h : DbStep D l c.world q p ws) (hu : c.world.db.UniqueRows) (ha : UpToDate id c a)
    (hact : a = .step l p)
    (hat : c.At l e q k) (hmark : c.At i f (.sql (.markFailed id status error)) k')
    (hj : c.world.db.job? id = some j) (hfits : FitsMark j status error) :
    FitsMark (ws.foldl (fun j w => w.toJob j) j) status error := by
  obtain ⟨hc, hp⟩ := counts_of_step h hu hj
  have hm := maxAttempts_foldl ws j
  generalize ws.foldl (fun j w => w.toJob j) j = j' at hc hm ⊢
  generalize hn : j'.attempts = n at hc
  cases hc with
  | same => exact hfits.of_counts (fun _ _ hlt => by omega) fun _ hle => by omega
  | started =>
    refine hfits.of_counts (fun hst hv _ => ?_) fun _ hle => by omega
    subst hst
    have hlt := ha.starts hact hat (hp.resolve_left (by simp)) hmark hv hj
    omega
  | reset hcast hfailed =>
    refine hfits.of_counts (fun _ _ hlt => by omega) fun hst hle => ?_
    subst hst
    obtain ⟨hdead, hfail⟩ := ha.resets hact hat hcast (hp.resolve_left (by simp)) hmark hj
    exact (hfailed.elim hdead hfail).elim

variable {now : Time} {c c' : (service D).Config} {a : (service D).Action}

theorem AttemptsFit.fits_next (h : AttemptsFit id c) (hr : Pool.Reachable (boot D now) c) (ha : UpToDate id c a)
    (hn : Pool.next c a = some c') : ∀ j, c'.world.db.job? id = some j → j.Fits := by
  have hw := writes_ok hr hn
  rw [db_of_next hn]
  generalize Step.writes ⟨c, a, c'⟩ = ws at hw ⊢
  rcases hw with rfl | ⟨l, p, e, q, k, hact, hat, -, hstep⟩
  · exact h.fits
  by_cases hm : ∃ status error, q = .sql (.markFailed id status error)
  · obtain ⟨status, error, rfl⟩ := hm
    obtain ⟨j, hj, hfits⟩ := h.pending hat
    rw [job?_applyAll hj]
    rintro _ ⟨⟩
    cases hstep with
    | alone idle hc hrun hf =>
      cases hrun
      rcases updateJobIf_foldl (inv_of_reachable hr).unique hj id (fun _ => true)
        (.failed status error c.world.now) with
        hsame | ⟨-, -, hj'⟩
      · rw [hsame]
        exact h.fits j hj
      · rw [hj']
        exact hfits _
  · refine fits_applyAll (fitsWell_of_step hstep
      (fun status error hq => hm ⟨status, error, hq⟩) fun error hq => ?_) h.fits
    subst hq
    exact ha.enqueued hat hact

theorem AttemptsFit.pending_next (h : AttemptsFit id c) (hr : Pool.Reachable (boot D now) c) (ha : UpToDate id c a)
    (hn : Pool.next c a = some c') {e : Entry} {status : JobStatus} {error : String} {k : Except Exn Unit → M Out}
    (hat : c'.At i e (.sql (.markFailed id status error)) k) :
    ∃ j, c'.world.db.job? id = some j ∧ FitsMark j status error := by
  by_cases hi : a.thread = some i
  · cases a with
    | start j f =>
      cases hi
      obtain ⟨-, rfl⟩ := Pool.next_start hn
      obtain ⟨-, hcode⟩ := Pool.Thread.mk.inj (Option.some.inj ((Pool.Config.threads_set_self ..).symm.trans hat))
      have hmarks := code_marks D f none
      rw [Option.some.inj hcode] at hmarks
      obtain ⟨m, n, hdue, -⟩ := hmarks.1 id status error rfl
      cases hdue
    | step j p =>
      cases hi
      obtain ⟨f, q, k', r, w, hat', hx, rfl⟩ := Pool.next_step hn
      obtain ⟨-, hk⟩ := Pool.Thread.mk.inj (Option.some.inj ((Pool.Config.threads_set_self ..).symm.trans hat))
      obtain ⟨hdb, j, hj, hfits⟩ := fitsMark_own hr hat' hx (Option.some.inj hk)
      exact ⟨j, hdb ▸ hj, hfits⟩
    | crash j =>
      cases hi
      obtain ⟨f, q, k', -, rfl⟩ := Pool.next_crash hn
      cases show some _ = some _ from (Pool.Config.threads_set_self ..).symm.trans hat
    | env v => cases hi
  · have hmark : c.At i e (.sql (.markFailed id status error)) k := (Pool.threads_next hn hi).symm.trans hat
    obtain ⟨j, hj, hfits⟩ := h.pending hmark
    rw [db_of_next hn]
    rcases writes_ok hr hn with hnil | ⟨l, p, f, q, k', hact, hat', -, hstep⟩
    · rw [hnil]
      exact ⟨j, hj, hfits⟩
    · exact ⟨_, job?_applyAll hj _, fitsMark_other hstep (inv_of_reachable hr).unique ha hact hat' hmark hj hfits⟩

/-- Where no step makes outdated what a thread has read of the job's attempts, the job's failure fits them
in every state. -/
theorem attempts_match {h : List (service D).Step} (hr : Pool.Run (UpToDate id) (boot D now) h c) :
    ∀ j ∈ c.world.db.jobs, j.id = id → j.Fits := by
  have hcounted : AttemptsFit id c := by
    induction hr with
    | nil => exact ⟨fun j hj => (by cases hj), fun hat => (by cases hat)⟩
    | cons hr ha hn ih => exact ⟨ih.fits_next hr.reachable ha hn, ih.pending_next hr.reachable ha hn⟩
  rintro j hj rfl
  exact hcounted.fits j ((inv_of_reachable hr.reachable).unique.job?_of_mem hj)

/-! ## Outdated attempts -/

/-- Thread `i` receives the message 0 and starts to process its job. -/
def startSample (D : Deployment) (i : Nat) : List (service D).Action :=
  .start i (.pollSqs {} 1) :: .step i { ids := [0] } :: List.replicate 5 (.step i {})

/-- The object cannot be fetched, and thread `i` reads the attempts of the job. -/
def readSample (D : Deployment) (i : Nat) : List (service D).Action :=
    [.step i { fault := .before "unreachable" }, .step i {}]

/-- The sample is ingested and sent, and the first delivery has read one attempt. -/
def firstSample (D : Deployment) : List (service D).Action :=
  ingestSample D 0 1 2 ++ .step 0 {} :: startSample D 1 ++ readSample D 1

/-- Two more deliveries start before the first marks the job as failed. -/
def lateSample (D : Deployment) : List (service D).Action :=
    firstSample D ++ startSample D 2 ++ startSample D 3 ++ [.step 1 {}]

/-- Thread 1 marks the job as failed once, the threads 2 and 3 read three attempts, and thread 2
marks the job as dead; before thread 3 does so too, a redrive resets the job. -/
def revivedSample (D : Deployment) : List (service D).Action :=
  firstSample D ++ List.replicate 3 (.step 1 {}) ++ startSample D 2 ++ startSample D 3 ++ readSample D
    2 ++ readSample D 3 ++
    List.replicate 3 (.step 2 {}) ++ .env (.toDlq 0) :: .start 4 (.redrive ⟨1, false, none, false, "sqs"⟩) ::
    List.replicate 3 (.step 4 {}) ++ .step 4 { ids := [0] } :: List.replicate 3 (.step 4 {}) ++ [.step 3 {}]

/-- No job is marked as not enqueued. -/
def Enqueued (c : (service D).Config) (a : (service D).Action) : Prop :=
  ∀ i e id error k p, c.At i e (.sql (.markEnqueueFailed id error)) k → a ≠ .step i p

def enqueued? (c : (service D).Config) (a : (service D).Action) : Bool :=
  match a with
  | .step i _ =>
    match c.threads i with
    | some ⟨_, some (.call (.sql (.markEnqueueFailed ..)) _)⟩ => false
    | _ => true
  | _ => true

theorem enqueued_of_check {c : (service D).Config} {a : (service D).Action} (h : enqueued? c a = true) :
    Enqueued c a := by
  rintro i e id error k p hat rfl
  simp only [enqueued?, show c.threads i = _ from hat] at h
  cases h

theorem not_byValidation {error : String} (h : error.toList.head? ≠ some 'v') : ¬ ByValidation error := by
  rintro ⟨reason, rfl⟩
  exact h (by simp [takeStr])

/-- A job is marked as failed when it has no attempts left, and another one as dead when it has
all of them. -/
theorem failed_without_attempts :
    (∃ h c, Pool.Run Enqueued (boot (sample .atomic) 0) h c ∧
      ∃ j ∈ (World.db c.world).jobs, j.status = .failed ∧ j.attempts = j.maxAttempts ∧ ¬ j.Fits) ∧
    ∃ h c, Pool.Run Enqueued (boot (sample .atomic) 0) h c ∧
      ∃ j ∈ (World.db c.world).jobs, j.status = .dead ∧ j.attempts = 0 ∧ ¬ j.Fits := by
  have hlate : (Pool.replayIf enqueued? (lateSample (sample .atomic)) (boot (sample .atomic) 0)).any
      (fun c => (World.db c.world).jobs.any fun j =>
        decide (j.status = .failed ∧ j.attempts = j.maxAttempts ∧ j.lastError = some "unreachable")) = true := by
    decide +kernel
  have hrevived : (Pool.replayIf enqueued? (revivedSample (sample .atomic)) (boot (sample .atomic) 0)).any
      (fun c => (World.db c.world).jobs.any fun j =>
          decide (j.status = .dead ∧ j.attempts = 0 ∧ j.maxAttempts = 3)) = true := by
    decide +kernel
  have hcheck : ∀ (c : (service (sample .atomic)).Config) a, enqueued? c a = true → Enqueued c a :=
    fun c a h => enqueued_of_check h
  constructor
  · obtain ⟨h, c, hr, hc⟩ := Pool.exists_replayIf hcheck hlate
    obtain ⟨j, hm, hj⟩ := List.any_eq_true.mp hc
    obtain ⟨hs, hn, he⟩ := of_decide_eq_true hj
    refine ⟨h, c, hr, j, hm, hs, hn, fun hfits => ?_⟩
    rcases hfits.failed hs with hlt | ⟨error, he', hv⟩
    · omega
    · rw [he] at he'
      cases he'
      exact not_byValidation (by decide) hv
  · obtain ⟨h, c, hr, hc⟩ := Pool.exists_replayIf hcheck hrevived
    obtain ⟨j, hm, hj⟩ := List.any_eq_true.mp hc
    obtain ⟨hs, hn, hmax⟩ := of_decide_eq_true hj
    refine ⟨h, c, hr, j, hm, hs, hn, fun hfits => ?_⟩
    have := hfits.dead hs
    omega

/-- Thread `i` is about to mark a job as failed. -/
def marking? (c : (service D).Config) (i : Nat) : Bool :=
  match c.threads i with
  | some ⟨_, some (.call (.sql (.markFailed ..)) _)⟩ => true
  | _ => false

/-- While one of the first `n` threads is about to mark a job as failed, no job is started or reset. -/
def upToDate? (n : Nat) (c : (service D).Config) (a : (service D).Action) : Bool :=
  enqueued? c a &&
  match a with
  | .start i _ => decide (i < n)
  | .step i _ =>
    match c.threads i with
    | some ⟨_, some (.call (.sql (.startProcessing _)) _)⟩ | some ⟨_, some (.call (.sql (.resetJob _)) _)⟩ =>
      (List.range n).all fun j => !marking? c j
    | _ => true
  | _ => true

theorem upToDate_of_check {n : Nat} {c : (service D).Config} {a : (service D).Action}
    (hn : ∀ i, n ≤ i → c.threads i = none) (h : upToDate? n c a = true) : UpToDate id c a := by
  obtain ⟨he, h⟩ := Bool.and_eq_true_iff.mp h
  have quiet : (List.range n).all (fun j => !marking? c j) = true →
      ∀ {j f status error k}, ¬ c.At j f (.sql (.markFailed id status error)) k := by
    intro hall j f status error k hat
    have hj : j < n := by
      refine Nat.lt_of_not_le fun hle => ?_
      have hnone := hn j hle
      rw [show c.threads j = _ from hat] at hnone
      cases hnone
    have hmark : marking? c j = true := by
      simp only [marking?, show c.threads j = _ from hat]
    have := List.all_eq_true.mp hall j (List.mem_range.mpr hj)
    rw [hmark] at this
    cases this
  refine ⟨fun hat => enqueued_of_check he _ _ _ _ _ _ hat, ?_, ?_⟩
  · rintro i e k p j f error k' row rfl hat - hmark
    simp only [show c.threads i = _ from hat] at h
    exact (quiet h hmark).elim
  · rintro i e key k p j f error k' row rfl hat - - hmark
    simp only [show c.threads i = _ from hat] at h
    exact (quiet h hmark).elim

theorem attempts_match_sample : ∃ h c, Pool.Run (UpToDate ⟨2⟩) (boot (sample .atomic) 0) h c ∧
    (World.db c.world).jobs.map (fun j => (j.id, j.status, j.attempts)) = [(⟨2⟩, .failed, 1)] ∧
    ∀ j ∈ (World.db c.world).jobs, j.id = ⟨2⟩ → j.Fits := by
  have hrun : (Pool.recordIf (upToDate? 2) (firstSample (sample .atomic) ++ List.replicate 3 (.step 1 {})) []
      (boot (sample .atomic) 0)).any (fun x =>
        decide ((World.db x.2.world).jobs.map
            (fun j => (j.id, j.status, j.attempts)) = [(⟨2⟩, .failed, 1)])) = true := by
    decide +kernel
  obtain ⟨⟨h, c⟩, hx, hjobs⟩ := (Option.any_eq_true _ _).mp hrun
  have hcheck : ∀ (c : (service (sample .atomic)).Config) a, upToDate? 2 c a = true →
    upToDate? 2 c a = true := fun _ _ h => h
  have hr := Pool.Run.nil.recordIf hcheck hx
  have hr : Pool.Run (UpToDate ⟨2⟩) (boot (sample .atomic) 0) h c := hr.imp fun hr ha =>
    upToDate_of_check (fun i hi => hr.threads_none (fun _ => rfl)
      (fun h => of_decide_eq_true (Bool.and_eq_true_iff.mp h).2) hi) ha
  exact ⟨h, c, hr, of_decide_eq_true hjobs, attempts_match hr⟩

end CM
