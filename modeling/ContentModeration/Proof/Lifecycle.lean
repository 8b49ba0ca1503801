import ContentModeration.Proof.Moderation
import ContentModeration.Proof.Duties
import ContentModeration.Proof.Lives

/-!
# The services moderate

The stage of a content is read off its rows (`stageOf`): its job, the decision of the job
and the review of the decision. The moves of a step are read off what it commits
(`Step.moves`), and most steps have none: what workers do to jobs, messages, locks and
transactions that are not committed is not seen. Where RELEASE_EXPIRED_CLAIMS_SQL is executed
at once, the stages before and after every step of every run are joined by the moves of the
step, each made by a call that is entitled to it (`moderates`), and the moves of a content
are a life (`content_lives`).
-/

namespace CM

open Database

variable {D : Deployment} {i : Nat} {db : Database} {digest : String} {s : World}

/-! ## The stage of a content -/

/-- The review of a decision. -/
def Database.reviewOf? (db : Database) (decisionId : Uuid) : Option ReviewRow :=
  db.reviews.find? (·.decisionId = decisionId)

/-- The stage of the content whose verdict is `v` and whose review is `r`. -/
def ReviewRow.stage (r : ReviewRow) (v : Decision) : Stage :=
  match r.status with
  | .pending => .pending v
  | .claimed => .claimed v (r.claimedBy.getD "") (r.claimExpiresAt.getD 0)
  | .approved => .resolved v (r.resolvedBy.getD "") .allow
  | .rejected => .resolved v (r.resolvedBy.getD "") .block

/-- The stage of a decided content. -/
def Database.stageOfDecision (db : Database) (d : DecisionRow) : Stage :=
  match db.reviewOf? d.id with
  | none => .settled d.envelope.decision
  | some r => r.stage d.envelope.decision

/-- The stage of a content by its job. -/
def Database.stageOfJob (db : Database) (jobId : Uuid) : Stage :=
  match db.decisionOf? jobId with
  | none => .accepted
  | some d => db.stageOfDecision d

/-- The stage of the content with this digest. -/
def Database.stageOf (db : Database) (digest : String) : Stage :=
  match db.jobByHash? digest with
  | none => .absent
  | some j => db.stageOfJob j.id

/-! ## Rows that are found -/

theorem reviewOf?_of_mem (hu : db.UniqueRows) {r : ReviewRow} (hr : r ∈ db.reviews) :
    db.reviewOf? r.decisionId = some r := find?_of_nodup hu.reviewDecisions hr

theorem decisionOf?_of_mem (hu : db.UniqueRows) {d : DecisionRow} (hd : d ∈ db.decisions) :
    db.decisionOf? d.envelope.jobId = some d := find?_of_nodup hu.decisionJobs hd

theorem jobByHash?_of_mem (hu : db.UniqueRows) {j : Job} (hj : j ∈ db.jobs) :
    db.jobByHash? j.contentHash = some j := find?_of_nodup hu.jobHashes hj

theorem mem_of_reviewOf? {r : ReviewRow} {id : Uuid} (h : db.reviewOf? id = some r) :
    r ∈ db.reviews ∧ r.decisionId = id :=
  ⟨List.mem_of_find?_eq_some h, by simpa using List.find?_some h⟩

theorem mem_of_decisionOf? {d : DecisionRow} {id : Uuid} (h : db.decisionOf? id = some d) :
    d ∈ db.decisions ∧ d.envelope.jobId = id :=
  ⟨List.mem_of_find?_eq_some h, by simpa using List.find?_some h⟩

theorem mem_of_jobByHash? {j : Job} (h : db.jobByHash? digest = some j) : j ∈ db.jobs ∧ j.contentHash = digest :=
  ⟨List.mem_of_find?_eq_some h, by simpa using List.find?_some h⟩

/-- The review is that of the content with this digest. -/
structure Reviews (db : Database) (r : ReviewRow) (d : DecisionRow) (j : Job) : Prop where
  review : r ∈ db.reviews
  decision : d ∈ db.decisions
  job : j ∈ db.jobs
  decides : d.id = r.decisionId
  jobId : j.id = d.envelope.jobId

theorem exists_reviews (hf : db.FkOk) {r : ReviewRow} (hr : r ∈ db.reviews) : ∃ d j, Reviews db r d j := by
  obtain ⟨⟨d, hd, hid⟩, -, -⟩ := hf.reviews r hr
  obtain ⟨⟨j, hj, hjid⟩, -⟩ := hf.decisions d hd
  exact ⟨d, j, hr, hd, hj, hid, hjid⟩

theorem Reviews.stageOf {r : ReviewRow} {d : DecisionRow} {j : Job} (h : Reviews db r d j) (hu : db.UniqueRows) :
    db.stageOf j.contentHash = r.stage d.envelope.decision := by
  have hjob : db.jobByHash? j.contentHash = some j := jobByHash?_of_mem hu h.job
  have hdec : db.decisionOf? j.id = some d := h.jobId ▸ decisionOf?_of_mem hu h.decision
  have hrev : db.reviewOf? d.id = some r := h.decides ▸ reviewOf?_of_mem hu h.review
  rw [Database.stageOf, hjob]
  simp only [stageOfJob, hdec, stageOfDecision, hrev]

/-! ## One review changes -/

@[simp] theorem ReviewUpdate.decisionId_apply (u : ReviewUpdate) (r : ReviewRow) :
    (u.apply r).decisionId = r.decisionId := by cases u <;> rfl

theorem reviewOf?_updateReview (db : Database) (id decisionId : Uuid) (u : ReviewUpdate) :
    (db.apply (.updateReview id u)).reviewOf? decisionId =
      (db.reviewOf? decisionId).map fun r => if r.id = id then u.apply r else r := by
  have hpred : (fun r : ReviewRow => decide (r.decisionId = decisionId)) ∘ (fun r =>
    if r.id = id then u.apply r else r) =
      fun r => decide (r.decisionId = decisionId) := by
    funext r
    by_cases h : r.id = id <;> simp [h]
  rw [reviewOf?, reviewOf?, apply, List.find?_map, hpred]

/-- An update of a review changes the stage of its content. -/
theorem Reviews.stageOf_self {r : ReviewRow} {d : DecisionRow} {j : Job} (h : Reviews db r d j) (hu : db.UniqueRows)
    (u : ReviewUpdate) :
    (db.apply (.updateReview r.id u)).stageOf j.contentHash = (u.apply r).stage d.envelope.decision := by
  have hjob : db.jobByHash? j.contentHash = some j := jobByHash?_of_mem hu h.job
  have hdec : db.decisionOf? j.id = some d := h.jobId ▸ decisionOf?_of_mem hu h.decision
  have hrev : db.reviewOf? d.id = some r := h.decides ▸ reviewOf?_of_mem hu h.review
  have hrev' : (db.apply (.updateReview r.id u)).reviewOf? d.id = some (u.apply r) := by
    rw [reviewOf?_updateReview, hrev, Option.map_some, if_pos rfl]
  rw [Database.stageOf, show (db.apply (.updateReview r.id u)).jobByHash? j.contentHash = some j from hjob]
  simp only [stageOfJob, show (db.apply (.updateReview r.id u)).decisionOf? j.id = some d from hdec,
    stageOfDecision, hrev']

/-- The stages of the other contents stay. -/
theorem Reviews.stageOf_ne {r : ReviewRow} {d : DecisionRow} {j : Job} (h : Reviews db r d j) (hu : db.UniqueRows)
    (u : ReviewUpdate) (hne : digest ≠ j.contentHash) :
    (db.apply (.updateReview r.id u)).stageOf digest = db.stageOf digest := by
  have hjobs : (db.apply (.updateReview r.id u)).jobByHash? digest = db.jobByHash? digest := rfl
  rw [Database.stageOf, Database.stageOf, hjobs]
  cases hj' : db.jobByHash? digest with
  | none => rfl
  | some j' =>
    obtain ⟨hmem', rfl⟩ := mem_of_jobByHash? hj'
    have hdecs : (db.apply (.updateReview r.id u)).decisionOf? j'.id = db.decisionOf? j'.id := rfl
    simp only [stageOfJob, hdecs]
    cases hd' : db.decisionOf? j'.id with
    | none => rfl
    | some d' =>
      obtain ⟨hdmem', hjob'⟩ := mem_of_decisionOf? hd'
      simp only [stageOfDecision, reviewOf?_updateReview]
      cases hr' : db.reviewOf? d'.id with
      | none => rfl
      | some r' =>
        obtain ⟨hrmem', hdec'⟩ := mem_of_reviewOf? hr'
        -- the row that changes is the review of another job
        have hid : r'.id ≠ r.id := fun hid => hne (by
          obtain rfl := List.inj_on_of_nodup_map hu.reviews hrmem' h.review hid
          obtain rfl := List.inj_on_of_nodup_map hu.decisions hdmem' h.decision (hdec'.symm.trans h.decides.symm)
          exact congrArg Job.contentHash
            (List.inj_on_of_nodup_map hu.jobs hmem' h.job (hjob'.symm.trans h.jobId.symm)))
        simp only [Option.map_some, if_neg hid]

/-! ## The moves of a step -/

/-- The digest of the content of a review. -/
def Database.digestOf? (db : Database) (reviewId : Uuid) : Option String := do
  let r ← db.review? reviewId
  let d ← db.decisions.find? (·.id = r.decisionId)
  let j ← db.job? d.envelope.jobId
  return j.contentHash

/-- The move of an update of a review; `releasing` is the time of the release. -/
def ReviewUpdate.move? (releasing : Option Time) : ReviewUpdate → Option Move
  | .claim reviewer now _ => some (.claim reviewer now)
  | .resolve _ decision notes reviewer _ => some (.resolve reviewer decision notes)
  | .release => releasing.map .release

/-- The content that a write moves, and its move. -/
def Write.move? (db : Database) (releasing : Option Time) : Write → Option (String × Move)
  | .job row => some (row.contentHash, .accept)
  | .decision row =>
    (db.job? row.envelope.jobId).map fun j =>
      (j.contentHash, .decide row.envelope.decision row.envelope.needsHumanReview)
  | .updateReview id u => (db.digestOf? id).bind fun digest => (u.move? releasing).map (digest, ·)
  | _ => none

/-- The time of a release. -/
def Sql.releasing? : Sql → Option Time
  | .releaseExpired now => some now
  | _ => none

/-- The moves of what a step commits. -/
def Step.moves (st : (service D).Step) : List (String × Move) :=
  (Step.writes st).filterMap (Write.move? st.before.world.db
    (match st.request with
    | some (_, .sql stmt) => stmt.releasing?
    | _ => none))

theorem Reviews.digestOf? {r : ReviewRow} {d : DecisionRow} {j : Job} (h : Reviews db r d j) (hu : db.UniqueRows) :
    db.digestOf? r.id = some j.contentHash := by
  have hrev : db.review? r.id = some r := find?_of_nodup hu.reviews h.review
  have hdec : db.decisions.find? (·.id = d.id) = some d := find?_of_nodup hu.decisions h.decision
  have hjob := hu.job?_of_mem h.job
  rw [h.decides] at hdec
  rw [h.jobId] at hjob
  simp [Database.digestOf?, hrev, hdec, hjob]

/-- An update of a review is a move of its content. -/
theorem Reviews.move {r : ReviewRow} {d : DecisionRow} {j : Job} (h : Reviews db r d j) (hu : db.UniqueRows)
    {u : ReviewUpdate} {m : Move} (hm : (r.stage d.envelope.decision).Step m
      ((u.apply r).stage d.envelope.decision)) :
    (moderation.family String).step db.stageOf (j.contentHash, m) (db.apply (.updateReview r.id u)).stageOf := by
  refine Machine.family_step ?_ fun digest hne => h.stageOf_ne hu u hne
  rw [h.stageOf hu, h.stageOf_self hu]
  exact hm

/-! ## The moves of reviewers -/

/-- A claimed review has a reviewer and a deadline. -/
def ClaimHeld (db : Database) : Prop :=
  ∀ r ∈ db.reviews, r.status = .claimed → r.claimedBy.isSome = true ∧ r.claimExpiresAt.isSome = true

theorem stage_of_claimed {r : ReviewRow} (hs : r.status = .claimed)
    (hh : r.claimedBy.isSome = true ∧ r.claimExpiresAt.isSome = true)
    (v : Decision) : ∃ holder expires, r.claimedBy = some holder ∧ r.claimExpiresAt = some expires ∧
      r.stage v = .claimed v holder expires := by
  obtain ⟨holder, hb⟩ := Option.isSome_iff_exists.mp hh.1
  obtain ⟨expires, he⟩ := Option.isSome_iff_exists.mp hh.2
  exact ⟨holder, expires, hb, he, by simp [ReviewRow.stage, hs, hb, he]⟩

variable {r : ReviewRow} {v : Decision} {now : Time}

theorem claim_step (hh : r.status = .claimed → r.claimedBy.isSome = true ∧ r.claimExpiresAt.isSome = true)
    {reviewer : String} (hc : r.claimable reviewer now = true) :
    (r.stage v).Step (.claim reviewer now)
      ((ReviewUpdate.apply r (.claim reviewer now (now + seconds claimTtlSeconds))).stage v) := by
  have hafter : (ReviewUpdate.apply r (.claim reviewer now (now + seconds claimTtlSeconds))).stage v =
      .claimed v reviewer (now + seconds claimTtlSeconds) := rfl
  rw [hafter]
  cases hs : r.status with
  | pending =>
    rw [show r.stage v = .pending v by simp [ReviewRow.stage, hs]]
    exact .claim
  | claimed =>
    obtain ⟨holder, expires, hb, he, hst⟩ := stage_of_claimed hs (hh hs) v
    rw [hst]
    refine .reclaim ?_
    simp only [ReviewRow.claimable, hs, hb, he] at hc
    simp only [reduceCtorEq, decide_false, decide_true, Option.all_some, Bool.true_and, Bool.false_or,
      Option.some.injEq,
      Bool.or_eq_true, decide_eq_true_eq] at hc
    exact hc.symm.imp Eq.symm id
  | approved => simp [ReviewRow.claimable, hs] at hc
  | rejected => simp [ReviewRow.claimable, hs] at hc

theorem release_step (hh : r.status = .claimed → r.claimedBy.isSome = true ∧ r.claimExpiresAt.isSome = true)
    (hs : r.status = .claimed) (hlate : (r.claimExpiresAt.all fun t => decide (t < now)) = true) :
    (r.stage v).Step (.release now) ((ReviewUpdate.apply r .release).stage v) := by
  obtain ⟨holder, expires, hb, he, hst⟩ := stage_of_claimed hs (hh hs) v
  rw [hst, show (ReviewUpdate.apply r .release).stage v = .pending v from rfl]
  rw [he, Option.all_some] at hlate
  exact .release (of_decide_eq_true hlate)

theorem resolve_step (hh : r.status = .claimed → r.claimedBy.isSome = true ∧ r.claimExpiresAt.isSome = true)
    (hs : r.status = .claimed) {reviewer notes : String} (hb : r.claimedBy = some reviewer)
    {outcome : ReviewerDecision} (reason : isOverride outcome v = true → 3 ≤ notes.length) :
    (r.stage v).Step (.resolve reviewer outcome notes)
      ((ReviewUpdate.apply r (.resolve outcome.status outcome notes reviewer now)).stage v) := by
  obtain ⟨holder, expires, hb', he, hst⟩ := stage_of_claimed hs (hh hs) v
  obtain rfl : reviewer = holder := Option.some.inj (hb.symm.trans hb')
  have hafter : (ReviewUpdate.apply r (.resolve outcome.status outcome notes reviewer now)).stage v =
      .resolved v reviewer outcome := by cases outcome <;> rfl
  rw [hst, hafter]
  exact .resolve reason

/-- Updates of reviews keep what every database satisfies. -/
theorem unique_of_updates (hk : db.keys.Nodup) {ws : List Write} (hw : ∀ w ∈ ws, w.IsReviewUpdate) :
    (db.applyAll ws).keys.Nodup := by
  refine (keys_applyAll db ws).nodup_iff.mpr ?_
  have hnil : ws.flatMap Write.keys = [] := List.flatMap_eq_nil_iff.mpr fun w hm => by
    obtain ⟨id, u, rfl⟩ := hw w hm
    rfl
  rwa [hnil, List.append_nil]

theorem fkOk_of_updates (hf : db.FkOk) {ws : List Write} (hw : ∀ w ∈ ws, w.IsReviewUpdate) : (db.applyAll ws).FkOk :=
  hf.applyAll fun w hm => by
    obtain ⟨id, u, rfl⟩ := hw w hm
    trivial

/-- An update of a review leaves the contents of reviews. -/
theorem move?_updateReview (db : Database) (id : Uuid) (u : ReviewUpdate) (releasing : Option Time) :
    Write.move? (db.apply (.updateReview id u)) releasing = Write.move? db releasing := by
  have hreview : ∀ id', ((db.apply (.updateReview id u)).review? id').map (·.decisionId) =
      (db.review? id').map (·.decisionId) := by
    intro id'
    have hpred : (fun r : ReviewRow => decide (r.id = id')) ∘ (fun r => if r.id = id then u.apply r else r) =
        fun r => decide (r.id = id') := by
      funext r
      by_cases h : r.id = id <;> simp [h]
    rw [review?, review?, apply, List.find?_map, hpred, Option.map_map]
    congr 1
    funext r
    by_cases h : r.id = id <;> simp [h]
  have hdigest : ∀ id', (db.apply (.updateReview id u)).digestOf? id' = db.digestOf? id' := by
    intro id'
    have hjoin : ∀ db' : Database, db'.digestOf? id' = ((db'.review? id').map (·.decisionId)).bind fun decisionId =>
        (db'.decisions.find? (·.id = decisionId)).bind fun d =>
          (db'.job? d.envelope.jobId).map Job.contentHash := by
      intro db'
      cases hr : db'.review? id' <;> simp [Database.digestOf?, hr, Option.map_eq_bind]
    rw [hjoin, hjoin, hreview]
    rfl
  funext w
  cases w with
  | updateReview id' u' => simp only [Write.move?, hdigest]
  | _ => rfl

/-- The release of expired claims is a release of each. -/
theorem releases {rs : List ReviewRow} (hk : db.keys.Nodup) (hf : db.FkOk) (hh : ClaimHeld db) (hrs : rs.Nodup)
    (hexp : ∀ r ∈ rs, r ∈ db.reviews ∧ r.status = .claimed ∧
      (r.claimExpiresAt.all fun t => decide (t < now)) = true) :
    (moderation.family String).Trace db.stageOf
      ((rs.map fun r => Write.updateReview r.id .release).filterMap (Write.move? db (some now)))
      (db.applyAll (rs.map fun r => .updateReview r.id .release)).stageOf := by
  induction rs generalizing db with
  | nil => exact .nil
  | cons r rs ih =>
    obtain ⟨hr, hs, hlate⟩ := hexp r List.mem_cons_self
    obtain ⟨hnew, hrs⟩ := List.nodup_cons.mp hrs
    have hu := uniqueRows_of_keys hk
    obtain ⟨d, j, hrev⟩ := exists_reviews hf hr
    have hstep := hrev.move hu (release_step (hh r hr) hs hlate)
    have hupd : ∀ w ∈ [Write.updateReview r.id .release], w.IsReviewUpdate := fun w hw =>
      ⟨r.id, .release, List.mem_singleton.mp hw⟩
    have hmem : ∀ r' ∈ rs, r' ∈ (db.apply (.updateReview r.id .release)).reviews := by
      intro r' hr'
      refine List.mem_map.mpr ⟨r', (hexp r' (List.mem_cons_of_mem _ hr')).1, if_neg fun hid => ?_⟩
      obtain rfl := List.inj_on_of_nodup_map hu.reviews (hexp r' (List.mem_cons_of_mem _ hr')).1 hr hid
      exact hnew hr'
    have hheld : ClaimHeld (db.apply (.updateReview r.id .release)) := by
      intro r' hr' hs'
      obtain ⟨r₀, hr₀, rfl⟩ := List.mem_map.mp hr'
      by_cases hid : r₀.id = r.id
      · rw [if_pos hid] at hs'
        cases hs'
      · rw [if_neg hid] at hs' ⊢
        exact hh r₀ hr₀ hs'
    have htr := ih (unique_of_updates hk hupd) (fkOk_of_updates hf hupd) hheld hrs fun r' hr' =>
      ⟨hmem r' hr', (hexp r' (List.mem_cons_of_mem _ hr')).2⟩
    have hmove : Write.move? db (some now) (.updateReview r.id .release) = some (j.contentHash, .release now) := by
      simp [Write.move?, ReviewUpdate.move?, hrev.digestOf? hu]
    rw [List.map_cons, List.filterMap_cons_some hmove]
    have hkeep : Write.move? (db.applyAll [.updateReview r.id .release]) (some now) = Write.move? db (some now) :=
      move?_updateReview db r.id .release (some now)
    rw [hkeep] at htr
    exact (Machine.Trace.single hstep).append htr

/-! ## The moves of transactions -/

theorem link_jobByHash? (db : Database) (digest : String) :
    (db.jobByHash? digest).map Job.link = (db.jobs.map Job.link).find? fun x => decide (x.2.2 = digest) := by
  rw [jobByHash?, List.find?_map]
  rfl

theorem stageOf_link (db : Database) (digest : String) :
    db.stageOf digest = ((db.jobByHash? digest).map Job.link).elim .absent fun x => db.stageOfJob x.1 := by
  rw [stageOf]
  cases db.jobByHash? digest <;> rfl

variable {ws : List Write}

theorem link_jobByHash?_applyAll (db : Database) (ws : List Write) (digest : String) :
    ((db.applyAll ws).jobByHash? digest).map Job.link =
      ((db.jobByHash? digest).map Job.link).or
        (((ws.filterMap Write.job?).map Job.link).find? fun x => decide (x.2.2 = digest)) := by
  rw [link_jobByHash?, link_jobByHash?, jobs_applyAll JobUpdate.link_apply, List.find?_append]

theorem decisionOf?_applyAll (db : Database) (ws : List Write) (jobId : Uuid) :
    (db.applyAll ws).decisionOf? jobId =
      (db.decisionOf? jobId).or ((ws.filterMap Write.decision?).find? fun d =>
        decide (d.envelope.jobId = jobId)) := by
  rw [decisionOf?, decisionOf?, decisions_applyAll, List.find?_append]

theorem reviewOf?_applyAll (db : Database) (hw : ∀ w ∈ ws, ¬ w.IsReviewUpdate) (id : Uuid) :
    (db.applyAll ws).reviewOf? id =
      (db.reviewOf? id).or ((ws.filterMap Write.review?).find? fun r => decide (r.decisionId = id)) := by
  rw [reviewOf?, reviewOf?, reviews_of_no_update hw, List.find?_append]

/-- The write inserts no job, decision or review, and changes no review. -/
def Write.Silent (w : Write) : Prop := ¬ w.IsReviewUpdate ∧ w.job? = none ∧ w.decision? = none ∧ w.review? = none

theorem moves_of_silent (hw : ∀ w ∈ ws, w.Silent) (releasing : Option Time) :
    ws.filterMap (Write.move? db releasing) = [] := by
  refine List.filterMap_eq_nil_iff.mpr fun w hm => ?_
  obtain ⟨hreview, hjob, hdecision, -⟩ := hw w hm
  cases w with
  | job row => cases hjob
  | decision row => cases hdecision
  | updateReview id u => exact absurd ⟨id, u, rfl⟩ hreview
  | _ => rfl

theorem stageOf_of_silent (hw : ∀ w ∈ ws, w.Silent) : (db.applyAll ws).stageOf = db.stageOf := by
  have none : ∀ {α : Type} (f : Write → Option α), (∀ w ∈ ws, f w = none) → ws.filterMap f = [] := fun f hf =>
    List.filterMap_eq_nil_iff.mpr hf
  have hrev : ∀ id, (db.applyAll ws).reviewOf? id = db.reviewOf? id := fun id => by
    rw [reviewOf?_applyAll db fun w hm => (hw w hm).1, none _ fun w hm =>
      (hw w hm).2.2.2, List.find?_nil, Option.or_none]
  have hdec : ∀ id, (db.applyAll ws).decisionOf? id = db.decisionOf? id := fun id => by
    rw [decisionOf?_applyAll, none _ fun w hm => (hw w hm).2.2.1, List.find?_nil, Option.or_none]
  funext digest
  rw [stageOf_link, stageOf_link, link_jobByHash?_applyAll, none _ fun w hm =>
    (hw w hm).2.1, List.map_nil, List.find?_nil,
    Option.or_none]
  simp only [stageOfJob, stageOfDecision, hdec, hrev]

theorem jobByHash?_of_fresh (h : .jobHash digest ∉ db.keys) : db.jobByHash? digest = none := by
  refine List.find?_eq_none.mpr fun j hj hp => h ?_
  simp only [Database.keys, List.mem_append, List.mem_map]
  simpa using ⟨j, hj, of_decide_eq_true hp⟩

theorem decisionOf?_of_fresh {jobId : Uuid} (h : .decisionJob jobId ∉ db.keys) : db.decisionOf? jobId = none := by
  refine List.find?_eq_none.mpr fun d hd hp => h ?_
  simp only [Database.keys, List.mem_append, List.mem_map]
  simpa using ⟨d, hd, of_decide_eq_true hp⟩

theorem decisionOf?_of_noJob (hf : db.FkOk) {jobId : Uuid} (h : .jobId jobId ∉ db.keys) :
    db.decisionOf? jobId = none := by
  refine List.find?_eq_none.mpr fun d hd hp => h ?_
  obtain ⟨⟨j, hj, hid⟩, -⟩ := hf.decisions d hd
  simp only [Database.keys, List.mem_append, List.mem_map]
  simpa using ⟨j, hj, hid.trans (of_decide_eq_true hp)⟩

theorem decision_ne_of_fresh {id : Uuid} (h : .decisionId id ∉ db.keys) : ∀ d ∈ db.decisions, d.id ≠ id := by
  intro d hd he
  refine h ?_
  simp only [Database.keys, List.mem_append, List.mem_map]
  simpa using ⟨d, hd, he⟩

theorem reviewOf?_of_fresh (hf : db.FkOk) {id : Uuid} (h : .decisionId id ∉ db.keys) : db.reviewOf? id = none := by
  refine List.find?_eq_none.mpr fun r hr hp => ?_
  obtain ⟨⟨d, hd, hid⟩, -⟩ := hf.reviews r hr
  exact decision_ne_of_fresh h d hd (hid.trans (of_decide_eq_true hp))

theorem kinds_of_complete {ws : List Write} (hc : Complete i s ws) : ∀ w ∈ ws, ¬ w.IsReviewUpdate := by
  cases hc with
  | nil => exact fun _ hw => (nomatch hw)
  | decision e id reviewId t =>
    rintro _ hw ⟨_, _, rfl⟩
    simp only [decisionBundle] at hw
    split at hw <;> simp at hw
  | ingest c jobId tenantId t _ =>
    rintro _ hw ⟨_, _, rfl⟩
    simp [ingestBundle] at hw

/-- A new job accepts its content. -/
theorem accept_move {c : ContentItem} {jobId : Uuid} {tenantId : String} {t : Time}
    (hk : (db.keys ++ (ingestBundle c jobId tenantId t).flatMap Write.keys).Nodup) (hf : db.FkOk) :
    (moderation.family String).step db.stageOf (c.contentHash, .accept)
      (db.applyAll (ingestBundle c jobId tenantId t)).stageOf := by
  have fresh : ∀ k ∈ (ingestBundle c jobId tenantId t).flatMap Write.keys, k ∉ db.keys := fun k hk' hm =>
    (List.nodup_append'.mp hk).2.2 hm hk'
  have hhash : .jobHash c.contentHash ∉ db.keys := fresh _ (by simp [ingestBundle, Write.keys])
  have hjob : .jobId jobId ∉ db.keys := fresh _ (by simp [ingestBundle, Write.keys])
  have hstage : (db.applyAll (ingestBundle c jobId tenantId t)).stageOfJob = db.stageOfJob := rfl
  have hlink : ∀ digest, ((db.applyAll (ingestBundle c jobId tenantId t)).jobByHash? digest).map Job.link =
      ((db.jobByHash? digest).map Job.link).or
          (if c.contentHash = digest then some (jobId, c.id, c.contentHash) else none) := by
    intro digest
    rw [link_jobByHash?_applyAll]
    by_cases h : c.contentHash = digest <;> simp [ingestBundle, Write.job?, Job.link, h]
  refine Machine.family_step ?_ fun digest hne => ?_
  · have before : db.stageOf c.contentHash = .absent := by
      rw [stageOf_link, jobByHash?_of_fresh hhash]
      rfl
    have undecided : db.stageOfJob jobId = .accepted := by rw [stageOfJob, decisionOf?_of_noJob hf hjob]
    have after : (db.applyAll (ingestBundle c jobId tenantId t)).stageOf c.contentHash = .accepted := by
      rw [stageOf_link, hlink, jobByHash?_of_fresh hhash, if_pos rfl, hstage]
      exact undecided
    rw [before, after]
    exact .accept
  · rw [stageOf_link, stageOf_link, hlink, if_neg (Ne.symm hne), Option.or_none, hstage]

/-- A decision settles its content, or hands it to a human. -/
theorem decide_move {e : DecisionEnvelope} {id reviewId : Uuid} {t : Time}
    (hk : (db.keys ++ (decisionBundle e id reviewId t).flatMap Write.keys).Nodup) (hf : db.FkOk) {j : Job}
    (hj : j ∈ db.jobs) (hid : j.id = e.jobId) (sure : e.needsHumanReview = false → e.decision ≠ .flag) :
    (moderation.family String).step db.stageOf (j.contentHash, .decide e.decision e.needsHumanReview)
      (db.applyAll (decisionBundle e id reviewId t)).stageOf := by
  have hkeys : (decisionBundle e id reviewId t).flatMap Write.keys ⊇ [.decisionId id, .decisionJob e.jobId] := by
    simp [decisionBundle, Write.keys]
  have fresh : ∀ k ∈ [UniqueKey.decisionId id, .decisionJob e.jobId], k ∉ db.keys := fun k hk' hm =>
    (List.nodup_append'.mp hk).2.2 hm (hkeys hk')
  have hdec : .decisionJob e.jobId ∉ db.keys := fresh _ (by simp)
  have hdid : .decisionId id ∉ db.keys := fresh _ (by simp)
  have hu := uniqueRows_of_keys (List.nodup_append'.mp hk).1
  have hlink : ∀ digest, ((db.applyAll (decisionBundle e id reviewId t)).jobByHash? digest).map Job.link =
      (db.jobByHash? digest).map Job.link := by
    intro digest
    rw [link_jobByHash?_applyAll]
    cases hh : e.needsHumanReview <;> simp [decisionBundle, Write.job?, hh]
  have hdecs : ∀ jobId, (db.applyAll (decisionBundle e id reviewId t)).decisionOf? jobId =
      (db.decisionOf? jobId).or (if e.jobId = jobId then some ⟨id, e⟩ else none) := by
    intro jobId
    rw [decisionOf?, decisions_decisionBundle, List.find?_append]
    by_cases h : e.jobId = jobId <;> simp [decisionOf?, h]
  have hrevs : ∀ did, id ≠ did → (db.applyAll (decisionBundle e id reviewId t)).reviewOf? did = db.reviewOf? did := by
    intro did hne
    rw [reviewOf?_applyAll db (kinds_of_complete (Complete.decision (i := 0) (s := { now := 0 }) e id reviewId t))]
    cases hh : e.needsHumanReview <;> simp [decisionBundle, Write.review?, hh, hne]
  refine Machine.family_step ?_ fun digest hne => ?_
  · have before : db.stageOf j.contentHash = .accepted := by
      rw [stageOf, jobByHash?_of_mem hu hj]
      simp only [stageOfJob, hid, decisionOf?_of_fresh hdec]
    have found : ((db.applyAll (decisionBundle e id reviewId t)).jobByHash? j.contentHash).map Job.link =
        some j.link := by
      rw [hlink, jobByHash?_of_mem hu hj, Option.map_some]
    have decided : (db.applyAll (decisionBundle e id reviewId t)).decisionOf? j.id = some ⟨id, e⟩ := by
      rw [hdecs, hid, decisionOf?_of_fresh hdec, if_pos rfl, Option.none_or]
    have queued : (db.applyAll (decisionBundle e id reviewId t)).reviewOf? id = if e.needsHumanReview = true then
        some { id := reviewId, decisionId := id, contentId := e.contentId, jobId := e.jobId, status := .pending
               priority := reviewPriority e.decision e.confidence, createdAt := t }
        else none := by
      rw [reviewOf?_applyAll db (kinds_of_complete (Complete.decision (i := 0) (s := { now := 0 }) e id reviewId t)),
        reviewOf?_of_fresh hf hdid, Option.none_or]
      cases hh : e.needsHumanReview <;> simp [decisionBundle, hh, Write.review?]
    rw [before, stageOf_link, found]
    simp only [Option.elim_some, stageOfJob, Job.link, decided, stageOfDecision, queued]
    cases hh : e.needsHumanReview with
    | true => exact .escalate
    | false => exact .settle (sure hh)
  · rw [stageOf_link, stageOf_link, hlink]
    cases hj' : db.jobByHash? digest with
    | none => rfl
    | some j' =>
      obtain ⟨hmem', rfl⟩ := mem_of_jobByHash? hj'
      have hjid : e.jobId ≠ j'.id := fun h => hne (congrArg Job.contentHash
        (List.inj_on_of_nodup_map hu.jobs hmem' hj (h.symm.trans hid.symm)))
      simp only [Option.map_some, Option.elim_some, Job.link, stageOfJob, hdecs, if_neg hjid, Option.or_none]
      cases hd' : db.decisionOf? j'.id with
      | none => rfl
      | some d' =>
        have hne' := decision_ne_of_fresh hdid d' (mem_of_decisionOf? hd').1
        simp only [stageOfDecision, hrevs _ (Ne.symm hne')]

/-! ## The moves of statements -/

/-- The review `id` is that of the content with this digest. -/
def ReviewOf (db : Database) (id : Uuid) (digest : String) : Prop :=
  ∃ x ∈ db.reviews.map ReviewRow.link, x.1 = id ∧ ∃ d ∈ db.decisions, d.id = x.2.1 ∧
    ∃ y ∈ db.jobs.map Job.link, y.1 = d.envelope.jobId ∧ y.2.2 = digest

theorem ReviewOf.mono {db' : Database} {id : Uuid} (h : ReviewOf db id digest) (hx : db.Extends db') :
    ReviewOf db' id digest := by
  obtain ⟨x, hr, hid, d, hd, hdid, y, hj, hjid, hdigest⟩ := h
  exact ⟨x, hx.reviews hr, hid, d, hx.decisions hd, hdid, y, hx.jobs hj, hjid, hdigest⟩

theorem Reviews.reviewOf {r : ReviewRow} {d : DecisionRow} {j : Job} (h : Reviews db r d j) :
    ReviewOf db r.id j.contentHash :=
  ⟨r.link, List.mem_map_of_mem h.review, rfl, d, h.decision, h.decides, j.link, List.mem_map_of_mem h.job,
    h.jobId, rfl⟩

theorem claimHeld_of_lived {log : List Write} (h : Lived db log) : ClaimHeld db := by
  intro r hr hs
  obtain ⟨d, -, -, hl⟩ := h.rows r hr
  rcases hl.shape_or with hp | hc | hres
  · rw [hp.status] at hs
    cases hs
  · exact ⟨hc.claimedBy, hc.claimExpiresAt⟩
  · rcases hres.status with hst | hst <;> rw [hst] at hs <;> cases hs

/-- The moves that a statement can make. -/
def Sql.Moves (db : Database) : Sql → String × Move → Prop
  | .releaseExpired now, x => x.2 = .release now
  | .claimReview id reviewer now _, x => x.2 = .claim reviewer now ∧ ReviewOf db id x.1
  | .resolveReview id _ outcome notes reviewer _, x => x.2 = .resolve reviewer outcome notes ∧ ReviewOf db id x.1
  | _, _ => False

/-- The moves of a statement outside transactions join the stages before and after it, and are its own. -/
theorem moves_of_alone (hD : D.isolation = .atomic) {st : Sql} {u : Uuid} {a : st.Ans} {ws : List Write} (hi : Inv s)
    (hh : ClaimHeld s.db) (hc : st.Alone D s) (hr : st.run s.db s.now u = .ok (a, ws)) :
    (moderation.family String).Trace s.db.stageOf (ws.filterMap (Write.move? s.db st.releasing?))
      (s.db.applyAll ws).stageOf ∧
    ∀ x ∈ ws.filterMap (Write.move? s.db st.releasing?), st.Moves s.db x := by
  have hu := hi.unique
  have hk : s.db.keys.Nodup := (hi.stored.keys 0).of_append_left
  have stay : (moderation.family String).Trace s.db.stageOf [] s.db.stageOf ∧
      ∀ x ∈ ([] : List (String × Move)), st.Moves s.db x := ⟨.nil, fun _ hx => (nomatch hx)⟩
  have one : ∀ {r d j} {upd : ReviewUpdate} {m : Move}, Reviews s.db r d j → upd.move? st.releasing? = some m →
      (r.stage d.envelope.decision).Step m ((upd.apply r).stage d.envelope.decision) →
        st.Moves s.db (j.contentHash, m) →
      (moderation.family String).Trace s.db.stageOf
        ([Write.updateReview r.id upd].filterMap (Write.move? s.db st.releasing?))
        (s.db.applyAll [.updateReview r.id upd]).stageOf ∧
      ∀ x ∈ [Write.updateReview r.id upd].filterMap (Write.move? s.db st.releasing?), st.Moves s.db x := by
    intro r d j upd m hrev hupd hstep hm
    have hmove : Write.move? s.db st.releasing? (.updateReview r.id upd) = some (j.contentHash, m) := by
      simp [Write.move?, hupd, hrev.digestOf? hu]
    rw [List.filterMap_cons_some hmove, List.filterMap_nil]
    exact ⟨.single (hrev.move hu hstep), fun x hx => List.mem_singleton.mp hx ▸ hm⟩
  have hmakes := makes_of_run hr
  cases st with
  | releaseExpired t =>
    simp only [Sql.run, Except.ok.injEq, Prod.mk.injEq] at hr
    obtain ⟨-, rfl⟩ := hr
    refine ⟨releases hk hi.stored.fk hh ((List.Nodup.of_map _ hu.reviews).filter _) fun r hr => ?_, fun x hx => ?_⟩
    · obtain ⟨hmem, hexp⟩ := List.mem_filter.mp hr
      obtain ⟨hs, hlate⟩ := Bool.and_eq_true_iff.mp hexp
      exact ⟨hmem, of_decide_eq_true hs, hlate⟩
    · obtain ⟨w, hw, hx⟩ := List.mem_filterMap.mp hx
      obtain ⟨r, -, rfl⟩ := List.mem_map.mp hw
      obtain ⟨digest, -, hx⟩ := Option.bind_eq_some_iff.mp hx
      obtain ⟨m, hm, rfl⟩ := Option.map_eq_some_iff.mp hx
      exact (Option.some.inj hm).symm
  | releaseRows rows t => exact absurd (hD.symm.trans hc) (by decide)
  | claimReview id reviewer t expires =>
    simp only [Sql.run] at hr
    obtain ⟨-, rfl⟩ := hc
    split at hr <;> cases hr
    · rename_i r hf
      obtain ⟨hf, hok⟩ := Option.filter_eq_some_iff.mp hf
      have hmem : r ∈ s.db.reviews := List.mem_of_find?_eq_some hf
      obtain rfl := id_of_review? hf
      obtain ⟨d, j, hrev⟩ := exists_reviews hi.stored.fk hmem
      exact one hrev rfl (claim_step (hh r hmem) hok) ⟨rfl, hrev.reviewOf⟩
    · exact stay
  | resolveReview id status outcome notes reviewer t =>
    simp only [Sql.run] at hr
    obtain ⟨rfl, -, x, hx, hxid, d₀, hd₀, hd₀id, hreason⟩ := hc
    split at hr <;> cases hr
    · rename_i r hf
      obtain ⟨hf, hok⟩ := Option.filter_eq_some_iff.mp hf
      obtain ⟨hclaimed, howner⟩ := of_decide_eq_true hok
      have hmem : r ∈ s.db.reviews := List.mem_of_find?_eq_some hf
      obtain ⟨r₁, hr₁, rfl⟩ := List.mem_map.mp hx
      obtain rfl := eq_of_review? hu hf hr₁ hxid
      obtain rfl := id_of_review? hf
      obtain ⟨d, j, hrev⟩ := exists_reviews hi.stored.fk hmem
      -- the decision whose override was checked is that of the row
      obtain rfl := List.inj_on_of_nodup_map hu.decisions hrev.decision hd₀ (hrev.decides.trans hd₀id.symm)
      exact one hrev rfl (resolve_step (hh r₁ hmem) hclaimed howner hreason) ⟨rfl, hrev.reviewOf⟩
    · exact stay
  | _ =>
    -- the other statements outside transactions write audit rows and update jobs
    have hsilent : ∀ w ∈ ws, w.Silent := fun w hw => by
      cases hmakes w hw <;> first | exact hc.elim | exact ⟨(by rintro ⟨_, _, h⟩; cases h), rfl, rfl, rfl⟩
    rw [stageOf_of_silent hsilent, moves_of_silent hsilent]
    exact stay

/-! ## Runs -/

variable {h : List (service D).Step} {c c' : (service D).Config} {m : Move}

/-- The call `i` answers for the move: an upload with this digest, a worker whose decision rests on what the models
said, or a reviewer who acts in their own name, at a time that was read from the clock. -/
def Entitled (D : Deployment) (h : List (service D).Step) (c : (service D).Config) (i : Nat)
    (x : String × Move) : Prop :=
  ∃ e, (∃ t, c.threads i = some ⟨e, t⟩) ∧ match x.2 with
  | .accept => ∃ settings req, e = .acceptImage settings req ∧ digestOf D settings req = x.1
  | .decide verdict human => ∃ record envelope, Reasons e record (.sql (.insertDecision envelope)) ∧
      (∀ y ∈ record, Pool.Happened h i y) ∧ envelope.decision = verdict ∧ envelope.needsHumanReview = human ∧
      ∃ y ∈ c.world.db.jobs.map Job.link, y.1 = envelope.jobId ∧ y.2.2 = x.1
  | .claim reviewer now => ∃ id body, e = .claimReview id body ∧ body.reviewer = reviewer ∧
      Pool.Happened h i ⟨.utcnow, .ok now⟩ ∧ ReviewOf c.world.db id x.1
  | .release now => e.Releases ∧ Pool.Happened h i ⟨.utcnow, .ok now⟩
  | .resolve reviewer outcome notes => ∃ id body, e = .resolveReview id body ∧ body.reviewer = reviewer ∧
      body.reviewerDecision = outcome ∧ strip body.notes = notes ∧ ReviewOf c.world.db id x.1

theorem Entitled.keep {now : Time} {a : (service D).Action} (hr : Pool.Reachable (boot D now) c)
    (hn : Pool.next c a = some c') {x : String × Move} (hx : Entitled D h c i x) :
    Entitled D (⟨c, a, c'⟩ :: h) c' i x := by
  have hdb := (grows_of_next hr hn).db
  obtain ⟨e, ht, hx⟩ := hx
  refine ⟨e, entry_of_next hn ht, ?_⟩
  obtain ⟨digest, m⟩ := x
  cases m with
  | accept => exact hx
  | decide verdict human =>
    obtain ⟨record, envelope, hreasons, hall, hv, hh, y, hy, hid, hhash⟩ := hx
    exact ⟨record, envelope, hreasons, fun z hz => (hall z hz).cons _, hv, hh, y, hdb.jobs hy, hid, hhash⟩
  | claim reviewer now =>
    obtain ⟨id, body, he, hreviewer, hnow, hrev⟩ := hx
    exact ⟨id, body, he, hreviewer, hnow.cons _, hrev.mono hdb⟩
  | release now => exact ⟨hx.1, hx.2.cons _⟩
  | resolve reviewer outcome notes =>
    obtain ⟨id, body, he, hreviewer, houtcome, hnotes, hrev⟩ := hx
    exact ⟨id, body, he, hreviewer, houtcome, hnotes, hrev.mono hdb⟩

/-- The moves of a statement are those of its call. -/
theorem entitled_of_moves {st : Sql} {e : Entry} {t : Option (M Out)} {record : Record}
    (ht : c.threads i = some ⟨e, t⟩)
    (hby : (Cmd.sql st).By D e record) (hall : ∀ y ∈ record, Pool.Happened h i y) {x : String × Move}
    (hm : st.Moves c.world.db x) : Entitled D h c i x := by
  obtain ⟨digest, m⟩ := x
  refine ⟨e, ⟨t, ht⟩, ?_⟩
  cases st with
  | releaseExpired now =>
    obtain rfl : m = .release now := hm
    exact ⟨hby.1, hall _ hby.2⟩
  | claimReview id reviewer now expires =>
    obtain ⟨rfl, hrev⟩ : m = .claim reviewer now ∧ _ := hm
    obtain ⟨body, rfl, rfl, hnow⟩ := hby
    exact ⟨id, body, rfl, rfl, hall _ hnow, hrev⟩
  | resolveReview id status outcome notes reviewer now =>
    obtain ⟨rfl, hrev⟩ : m = .resolve reviewer outcome notes ∧ _ := hm
    obtain ⟨body, rfl, rfl, rfl, rfl, -⟩ := hby
    exact ⟨id, body, rfl, rfl, rfl, rfl, hrev⟩
  | _ => exact hm.elim

/-- The moves of a transaction join the stages before and after its commit, and its call answers for them. -/
theorem moves_of_commit {ok : (service D).Config → (service D).Action → Prop} {now : Time}
    (hr : Pool.Run ok (boot D now) h c) {a : (service D).Action} (hn : Pool.next c a = some c')
    (ha : a.thread = some i) (hw : Step.writes ⟨c, a, c'⟩ = c.world.pending i)
    (hc : Complete i c.world (c.world.pending i)) (releasing : Option Time) :
    (moderation.family String).Trace c.world.db.stageOf
      ((c.world.pending i).filterMap (Write.move? c.world.db releasing)) c'.world.db.stageOf ∧
    ∀ x ∈ (c.world.pending i).filterMap (Write.move? c.world.db releasing), Entitled D (⟨c, a, c'⟩ :: h) c' i x := by
  have hi := inv_of_reachable hr.reachable
  have hkeys := hi.stored.keys i
  have hrefs := hi.stored.refs i
  have hasked : ∀ {P : Entry → Record → Cmd → Prop}, (∀ e : Entry, (e.code D).Justified (P e) []) →
      ∀ w ∈ c.world.pending i, Asked P h c i w := fun hP w hwm => by
    obtain ⟨j, hj, hw⟩ := asked_of_next hP hr hn (hw ▸ hwm)
    cases ha.symm.trans hj
    exact hw
  rw [db_of_next hn, hw]
  generalize c.world.pending i = ws at hc hkeys hrefs hasked
  cases hc with
  | nil => exact ⟨.nil, fun _ hx => (nomatch hx)⟩
  | ingest content jobId tenantId t drawn =>
    have hmoves : (ingestBundle content jobId tenantId t).filterMap (Write.move? c.world.db releasing) =
        [(content.contentHash, .accept)] := rfl
    rw [hmoves]
    refine ⟨.single (accept_move hkeys hi.stored.fk), fun x hx => ?_⟩
    obtain rfl := List.mem_singleton.mp hx
    obtain ⟨e, -, ht, ⟨settings, req, rfl, hhash⟩, -⟩ :=
      (hasked (code_by D) (.content content) (by simp [ingestBundle])).by
    exact Entitled.keep hr.reachable hn ⟨_, ht, settings, req, rfl, hhash.symm⟩
  | decision envelope id reviewId t =>
    obtain ⟨e, ht, st, record, db, t', hm, hreasons, hall⟩ :=
      hasked (code_reasoned D) (.decision ⟨id, envelope⟩) (by simp [decisionBundle])
    cases hm
    obtain ⟨⟨j', hj', hid'⟩, -⟩ := hrefs (.decision ⟨id, envelope⟩) (by simp [decisionBundle])
    rw [jobs_decisionBundle] at hj'
    obtain ⟨j, hj, rfl⟩ := List.mem_map.mp hj'
    have hid : j.id = envelope.jobId := by
      by_cases h : j.id = envelope.jobId
      · exact h
      · rwa [if_neg h] at hid'
    have hjob : c.world.db.job? envelope.jobId = some j := hid ▸ hi.unique.job?_of_mem hj
    have hmoves : (decisionBundle envelope id reviewId t).filterMap (Write.move? c.world.db releasing) =
        [(j.contentHash, .decide envelope.decision envelope.needsHumanReview)] := by
      cases hh : envelope.needsHumanReview <;> simp [decisionBundle, List.filterMap_cons, Write.move?, hjob, hh]
    rw [hmoves]
    refine ⟨.single (decide_move hkeys hi.stored.fk hj hid (sure_of_reasons hreasons)), fun x hx => ?_⟩
    obtain rfl := List.mem_singleton.mp hx
    exact Entitled.keep hr.reachable hn
      ⟨e, ht, record, envelope, hreasons, hall, rfl, rfl, j.link, List.mem_map_of_mem hj, hid, rfl⟩

/-- The moves of every step of every run join the stages before and after it, and the call that steps is entitled
to them. -/
theorem refines_moderation (hD : D.isolation = .atomic) (now : Time) :
    Pool.Refines Pool.anything (boot D now) (moderation.family String) (fun s => s.db.stageOf) Step.moves
      (Entitled D) where
  keep hr hn hx := hx.keep hr.reachable hn
  step {h c a c'} hr _ hn := by
    have hi := inv_of_reachable hr.reachable
    simp only [Step.moves]
    rcases writes_ok hr.reachable hn with hnil | ⟨j, p, e, q, k, rfl, hat, hw, hstep⟩
    · rw [db_of_next hn, hnil]
      exact ⟨.nil, fun _ hx => (nomatch hx)⟩
    · have hthread : (.step j p : Pool.Action (service D)).thread = some j := rfl
      rw [Pool.request_of_at hat]
      generalize hws : Step.writes _ = ws at hw hstep
      cases hstep with
      | alone idle contract run fault =>
        obtain ⟨record, hby, hall⟩ := hr.justified (fun _ => rfl) (code_by D) hat
        obtain ⟨htr, hmoves⟩ := moves_of_alone hD hi (claimHeld_of_lived (lived_of_run hD hr)) contract run
        rw [db_of_next hn, hws]
        exact ⟨htr, fun x hx => ⟨j, rfl, (entitled_of_moves hat hby hall (hmoves x hx)).keep hr.reachable hn⟩⟩
      | commit complete =>
        obtain ⟨htr, hall⟩ := moves_of_commit hr hn hthread hws complete none
        exact ⟨htr, fun x hx => ⟨j, rfl, hall x hx⟩⟩

/-- Every run moderates its contents: its moves lead from no content to the stages that its rows show, the moves of
each step join the stages before and after it, and the call that steps is entitled to them. -/
theorem moderates (hD : D.isolation = .atomic) {now : Time} (hr : Pool.Run Pool.anything (boot D now) h c) :
    (moderation.family String).Trace (fun _ => .absent) (Pool.labels Step.moves h) c.world.db.stageOf ∧
    ∀ st ∈ h, (moderation.family String).Trace st.before.world.db.stageOf (Step.moves st) st.after.world.db.stageOf ∧
      ∀ x ∈ Step.moves st, ∃ i, st.action.thread = some i ∧ Entitled D h c i x :=
  ⟨(refines_moderation hD now).run hr, fun _ hst =>
    ⟨(refines_moderation hD now).stepwise hr hst, fun _ hx => (refines_moderation hD now).answered hr hst hx⟩⟩

/-- The moves of every content of a run are a life, in which no reviewer was deprived of a claim before it ran out. -/
theorem content_lives (hD : D.isolation = .atomic) {now : Time} (hr : Pool.Run Pool.anything (boot D now) h c)
    (digest : String) :
    Life (Machine.labelsAt digest (Pool.labels Step.moves h)) (c.world.db.stageOf digest) ∧
    Exclusive (Machine.labelsAt digest (Pool.labels Step.moves h)) ∧
    ∀ m ∈ Machine.labelsAt digest (Pool.labels Step.moves h), ∃ i, Entitled D h c i (digest, m) := by
  have hat := ((refines_moderation hD now).run hr).at digest
  refine ⟨life_of_trace hat, exclusive_of_trace hat, fun m hm => ?_⟩
  obtain ⟨st, hst, hx⟩ := Pool.mem_labels.mp (Machine.mem_labelsAt.mp hm)
  obtain ⟨i, -, hentitled⟩ := (refines_moderation hD now).answered hr hst hx
  exact ⟨i, hentitled⟩

/-! ## A run -/

/-- The sample is uploaded, flagged, claimed and resolved. -/
theorem exists_resolved : ∃ h c, Pool.Run Pool.anything (boot (sample .atomic) 0) h c ∧
    c.world.db.stageOf (digestOf (sample .atomic) {} sampleRequest) = .resolved .flag "a" .block := by
  have hrun : (Pool.recordIf (fun _ _ => true) (flaggedSample (sample .atomic) ++ claimSample (sample .atomic) 2 9 ++
      resolveSample (sample .atomic) 3 10) [] (boot (sample .atomic) 0)).any (fun x =>
        decide (x.2.world.db.stageOf (digestOf
            (sample .atomic) {} sampleRequest) = .resolved .flag "a" .block)) = true := by
    decide +kernel
  obtain ⟨⟨h, c⟩, hx, hrun⟩ := (Option.any_eq_true _ _).mp hrun
  exact ⟨h, c, Pool.Run.nil.recordIf (fun _ _ _ => trivial) hx, of_decide_eq_true hrun⟩

theorem moderates_sample : ∃ h c, Pool.Run Pool.anything (boot (sample .atomic) 0) h c ∧
    Pool.labels Step.moves h ≠ [] ∧
    (moderation.family String).Trace (fun _ => .absent) (Pool.labels Step.moves h) c.world.db.stageOf ∧
    ∀ st ∈ h, (moderation.family String).Trace st.before.world.db.stageOf (Step.moves st) st.after.world.db.stageOf ∧
      ∀ x ∈ Step.moves st, ∃ i, st.action.thread = some i ∧ Entitled (sample .atomic) h c i x := by
  obtain ⟨h, c, hr, hstage⟩ := exists_resolved
  have hmod := moderates rfl hr
  refine ⟨h, c, hr, fun hnil => ?_, hmod⟩
  have htr := hmod.1
  rw [hnil] at htr
  cases (congrFun htr.eq_of_nil _).symm.trans hstage

theorem content_lives_sample : ∃ h c, Pool.Run Pool.anything (boot (sample .atomic) 0) h c ∧
    ∃ ms, ms = Machine.labelsAt (digestOf (sample .atomic) {} sampleRequest) (Pool.labels Step.moves h) ∧
      Life ms (.resolved .flag "a" .block) ∧ Exclusive ms ∧
      ∀ m ∈ ms, ∃ i, Entitled (sample .atomic) h c i (digestOf (sample .atomic) {} sampleRequest, m) := by
  obtain ⟨h, c, hr, hstage⟩ := exists_resolved
  have hlives := content_lives rfl hr (digestOf (sample .atomic) {} sampleRequest)
  rw [hstage] at hlives
  exact ⟨h, c, hr, _, rfl, hlives⟩

end CM
