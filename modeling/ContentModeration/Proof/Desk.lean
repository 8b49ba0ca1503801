import ContentModeration.Framework.Ranking
import ContentModeration.Impl.Metrics
import ContentModeration.Proof.AuditLog
import ContentModeration.Proof.Classification
import ContentModeration.Proof.Decisions
import ContentModeration.Proof.Duties
import ContentModeration.Proof.Expiry

/-!
# What the desk and the dashboard show

A list of reviews is the queue as it was at one instant of the run: the rows that were asked for, the
first ones in their order, none left out that is more urgent, each with the verdict on its own content
and with the caption and the image of it (`listed_at_once`). The joins lose no row because every review
has its decision and its content.

The counts of the dashboard are read one after the other while the services go on. The verdicts add up,
and neither the pending nor the claimed reviews are more than those that wait for a human by then; of
one instant, the reviews and the decisions that need none make up all decisions (`metrics_reconcile`).
-/

namespace CM

open Database World

variable {D : Deployment} {i : Nat} {ok : (service D).Config → (service D).Action → Prop} {now : Time}
  {h : List (service D).Step} {c : (service D).Config} {db : Database}

/-! ## The orders of the lists -/

/-- `ORDER BY rq.priority ASC, rq.created_at ASC`. -/
def ReviewRow.MoreUrgent (r r' : ReviewRow) : Prop :=
  r.priority < r'.priority ∨ r.priority = r'.priority ∧ r.createdAt ≤ r'.createdAt

/-- `ORDER BY rq.created_at DESC`. -/
def ReviewRow.Newer (r r' : ReviewRow) : Prop := r'.createdAt ≤ r.createdAt

instance : DecidableRel ReviewRow.MoreUrgent := fun r r' =>
  inferInstanceAs (Decidable (r.priority < r'.priority ∨ r.priority = r'.priority ∧ r.createdAt ≤ r'.createdAt))

instance : DecidableRel ReviewRow.Newer := fun r r' => inferInstanceAs (Decidable (r'.createdAt ≤ r.createdAt))

instance : Std.Total ReviewRow.MoreUrgent where
  total r r' := by
    rcases Nat.lt_trichotomy r.priority r'.priority with hlt | heq | hgt
    · exact .inl (.inl hlt)
    · exact (Nat.le_total r.createdAt r'.createdAt).imp (fun ht => .inr ⟨heq, ht⟩) fun ht => .inr ⟨heq.symm, ht⟩
    · exact .inr (.inl hgt)

instance : IsTrans ReviewRow ReviewRow.MoreUrgent where
  trans r r' r'' h h' := by
    rcases h with h | ⟨h, ht⟩
    · exact .inl (Nat.lt_of_lt_of_le h (h'.elim Nat.le_of_lt fun h' => Nat.le_of_eq h'.1))
    · rw [ReviewRow.MoreUrgent, h]
      exact h'.imp_right fun h' => ⟨h'.1, Nat.le_trans ht h'.2⟩

instance : Std.Total ReviewRow.Newer where
  total r r' := Nat.le_total r'.createdAt r.createdAt

instance : IsTrans ReviewRow ReviewRow.Newer where
  trans _ _ _ h h' := Nat.le_trans h' h

/-- The status that a request asks for: `None` and the empty string ask for all. -/
def ListRequest.status? (req : ListRequest) : Option String := req.status.filter (· ≠ "")

/-- The rows that a request asks for. -/
def ListRequest.Wants (req : ListRequest) (r : ReviewRow) : Prop := ∀ status ∈ req.status?, r.status.str = status

instance (req : ListRequest) : DecidablePred req.Wants := fun r =>
  inferInstanceAs (Decidable (∀ status ∈ req.status?, r.status.str = status))

/-- The order in which it gets them: by urgency if it asks for a status, else the latest first. -/
def ListRequest.Before (req : ListRequest) (r r' : ReviewRow) : Prop :=
  if req.status?.isSome then r.MoreUrgent r' else r.Newer r'

/-! ## Rows and their joins -/

/-- A review with its decision and the content that was decided on. -/
structure ReviewFull.Of (row : ReviewFull) (db : Database) (r : ReviewRow) : Prop where
  review : row.review = r
  decision : row.decision ∈ db.decisions
  content : row.content ∈ db.contents
  decides : row.decision.id = r.decisionId
  shows : row.content.id = r.contentId
  about : row.decision.envelope.contentId = row.content.id

theorem joinReview_of_mem (hu : db.UniqueRows) (hf : db.FkOk) (hok : ReviewsOk db) {r : ReviewRow}
    (hr : r ∈ db.reviews) :
    ∃ row, db.joinReview r = some row ∧ row.Of db r := by
  obtain ⟨d, hd, hdid, -, hdcontent⟩ := hok r hr
  obtain ⟨-, ⟨content, hc, hcid⟩, -⟩ := hf.reviews r hr
  have hdec : db.decision? r.decisionId = some d := hdid ▸ find?_of_nodup hu.decisions hd
  have hcon : db.content? r.contentId = some content := hcid ▸ find?_of_nodup hu.contents hc
  refine ⟨⟨r, d, content⟩, ?_, rfl, hd, hc, hdid, hcid, by rw [← hdcontent, hcid]⟩
  rw [joinReview, hdec, hcon]
  rfl

theorem joinReviews_of_mem (hu : db.UniqueRows) (hf : db.FkOk) (hok : ReviewsOk db) {rs : List ReviewRow}
    (hrs : ∀ r ∈ rs, r ∈ db.reviews) : List.Forall₂ (fun r row => row.Of db r) rs (rs.filterMap db.joinReview) := by
  induction rs with
  | nil => exact .nil
  | cons r rs ih =>
    obtain ⟨row, hrow, hof⟩ := joinReview_of_mem hu hf hok (hrs r List.mem_cons_self)
    rw [List.filterMap_cons_some hrow]
    exact .cons hof (ih fun r' hr' => hrs r' (List.mem_cons_of_mem _ hr'))

/-- What the statements of the lists answer. -/
theorem joinedReviews_leads (hu : db.UniqueRows) (hf : db.FkOk) (hok : ReviewsOk db) (p : ReviewRow → Bool)
    (le : ReviewRow → ReviewRow → Prop) [DecidableRel le] [Std.Total le] [IsTrans ReviewRow le] (limit : Nat) :
    ∃ rs, Leads le limit (db.reviews.filter p) rs ∧
      List.Forall₂ (fun r row => row.Of db r) rs (db.joinedReviews p le limit) := by
  refine ⟨_, .of_insertionSort limit (db.reviews.filter p), ?_⟩
  refine List.forall₂_take _ (joinReviews_of_mem hu hf hok fun r hr => ?_)
  exact (List.mem_filter.mp ((List.mem_insertionSort le).mp hr)).1

/-! ## A list is the queue at one instant -/

/-- `_row_to_review`, once the link to the image is signed. -/
def ReviewFull.item (row : ReviewFull) (imageUrl : String) : ReviewItemOut where
  id := row.review.id
  decisionId := row.review.decisionId
  contentId := row.review.contentId
  jobId := row.review.jobId
  status := row.review.status
  priority := row.review.priority
  claimedBy := row.review.claimedBy
  claimedAt := row.review.claimedAt
  claimExpiresAt := row.review.claimExpiresAt
  createdAt := row.review.createdAt
  decision := row.decision.envelope.decision
  confidence := row.decision.envelope.confidence
  reasons := row.decision.envelope.reasons
  visionSignals := row.decision.envelope.vision
  llmSignals := row.decision.envelope.llm
  caption := row.content.caption
  imageUrl
  contentType := row.content.contentType

/-- The item shows the row, with a link that was signed for its image. -/
def Pictured (x : Record) (row : ReviewFull) (item : ReviewItemOut) : Prop :=
  ∃ imageUrl, item = row.item imageUrl ∧ ⟨.signedUrl row.content.objectKey, .ok imageUrl⟩ ∈ x

/-- The rows that the statement of a list has answered. -/
def ListRequest.Answered (req : ListRequest) (x : Record) (rows : List ReviewFull) : Prop :=
  (∃ status, req.status? = some status ∧ ⟨.sql (.reviewsByStatus status req.limit), .ok rows⟩ ∈ x) ∨
  req.status? = none ∧ ⟨.sql (.reviewsNewest req.limit), .ok rows⟩ ∈ x

theorem ListRequest.Answered.mono {req : ListRequest} {x y : Record} {rows : List ReviewFull}
    (h : req.Answered x rows)
    (hy : x ⊆ y) : req.Answered y rows :=
  h.imp (fun ⟨status, hs, hm⟩ => ⟨status, hs, hy hm⟩) fun h => ⟨h.1, hy h.2⟩

theorem rowsToReviews_yields (x : Record) (rows : List ReviewFull) :
    (rowsToReviews rows).Yields (fun items y => List.Forall₂ (Pictured y) rows items) x := by
  induction rows generalizing x with
  | nil => exact .ret .nil
  | cons row rows ih =>
    refine .bind (.ask fun imageUrl => .ret ⟨imageUrl, rfl, List.mem_cons_self⟩ :
      (rowToReview row).Yields (fun item y => Pictured y row item) x) fun item y _ hitem => ?_
    refine .bind (ih y) fun items z hz hitems => .ret (.cons ?_ hitems)
    obtain ⟨imageUrl, heq, hsigned⟩ := hitem
    exact ⟨imageUrl, heq, hz hsigned⟩

theorem listReviews_yields (isolation : Isolation) (req : ListRequest) :
    (listReviews isolation req).Yields
      (fun items y => ∃ rows, req.Answered y rows ∧ List.Forall₂ (Pictured y) rows items) [] := by
  refine .ask fun _ => .ask fun t => .bind (.of_any _) fun _ y _ _ => ?_
  have shown {x : Record} (rows : List ReviewFull) (hrows : req.Answered x rows) :
      (rowsToReviews rows).Yields (fun items y => ∃ rows, req.Answered y rows ∧
          List.Forall₂ (Pictured y) rows items) x :=
    (rowsToReviews_yields x rows).mono fun items z hz hitems => ⟨rows, hrows.mono hz, hitems⟩
  cases hstatus : req.status.filter (· ≠ "") with
  | some status => exact .ask fun rows => shown rows (.inl ⟨status, hstatus, List.mem_cons_self⟩)
  | none => exact .ask fun rows => shown rows (.inr ⟨hstatus, List.mem_cons_self⟩)

/-- What a list of reviews has been answered. -/
def ListsRows (e : Entry) (out : Out) (x : Record) : Prop :=
  ∀ req items, e = .listReviews req → out = .reviews items →
    ∃ rows, req.Answered x rows ∧ List.Forall₂ (Pictured x) rows items

theorem code_listsRows (D : Deployment) (e : Entry) : (e.code D).Yields (ListsRows e) [] := by
  cases e with
  | listReviews req =>
    refine .bind (listReviews_yields D.isolation req) fun items y _ hitems => .ret fun req' items' he hout => ?_
    cases he
    cases hout
    exact hitems
  | _ => exact (Prog.Yields.of_any _).mono fun _ _ _ _ _ _ he => nomatch he

/-- The item shows the review as it was in `db`: its own columns, the verdict on its content, and the caption
and the image of that content. -/
def Shows (h : List (service D).Step) (i : Nat) (db : Database) (r : ReviewRow) (item : ReviewItemOut) : Prop :=
  ∃ row : ReviewFull, row.Of db r ∧ ∃ imageUrl, item = row.item imageUrl ∧
    Pool.Happened h i ⟨.signedUrl row.content.objectKey, .ok imageUrl⟩

/-- What a statement outside transactions has answered, it has answered on the rows of one instant. -/
theorem seen_of_happened (hr : Pool.Run ok (boot D now) h c) {q : Sql} (hq : ¬ q.InTxn) {a : q.Ans}
    (hx : Pool.Happened h i ⟨.sql q, .ok a⟩) : ∃ st ∈ h, st.action.thread = some i ∧
      Pool.Reachable (boot D now) st.before ∧
      ∃ fresh ws, q.run st.before.world.db st.before.world.now fresh = .ok (a, ws) := by
  obtain ⟨st, hst, p, e, k, w, hact, hat, hexec⟩ := hx
  obtain ⟨⟨h', hr'⟩, -, -⟩ := hr.mem hst
  have hcontract := ((sound_of_reachable hr'.reachable).pre_of_at (valid D False) hat).1
  obtain ⟨-, ws, hrun, -⟩ := runSql_ok (idle_of_contract hcontract hq) hexec
  exact ⟨st, hst, by rw [hact]; rfl, hr'.reachable, p.fresh, ws, hrun⟩

theorem wants_of_status {req : ListRequest} {status : String} (hs : req.status? = some status) :
    (fun r => decide (req.Wants r)) = fun r : ReviewRow => decide (r.status.str = status) := by
  funext r
  exact decide_eq_decide.mpr (by simp [ListRequest.Wants, hs])

theorem wants_of_none {req : ListRequest} (hs : req.status? = none) :
    (fun r => decide (req.Wants r)) = fun _ : ReviewRow => true := by
  funext r
  exact decide_eq_true (by simp [ListRequest.Wants, hs])

/-- The rows that a list was answered are those of the queue at one instant. -/
theorem leads_of_answered (hr : Pool.Run ok (boot D now) h c) {req : ListRequest} {x : Record}
    {rows : List ReviewFull}
    (hrows : req.Answered x rows) (hx : ∀ y ∈ x, Pool.Happened h i y) :
    ∃ st ∈ h, st.action.thread = some i ∧ ∃ rs,
      Leads req.Before req.limit (st.before.world.db.reviews.filter req.Wants) rs ∧
      List.Forall₂ (fun r row => row.Of st.before.world.db r) rs rows := by
  rcases hrows with ⟨status, hs, hm⟩ | ⟨hs, hm⟩
  · obtain ⟨st, hst, hthread, hreach, fresh, ws, hrun⟩ := seen_of_happened hr id (hx _ hm)
    have hi := inv_of_reachable hreach
    have hbefore : req.Before = ReviewRow.MoreUrgent := by
      funext r r'
      rw [ListRequest.Before, hs, if_pos (Option.isSome_some)]
    cases hrun
    rw [wants_of_status hs, hbefore]
    exact ⟨st, hst, hthread, joinedReviews_leads hi.unique hi.stored.fk (reviews_of_run hreach) _
      ReviewRow.MoreUrgent _⟩
  · obtain ⟨st, hst, hthread, hreach, fresh, ws, hrun⟩ := seen_of_happened hr id (hx _ hm)
    have hi := inv_of_reachable hreach
    have hbefore : req.Before = ReviewRow.Newer := by
      funext r r'
      rw [ListRequest.Before, hs, if_neg (by simp)]
    cases hrun
    rw [wants_of_none hs, hbefore]
    exact ⟨st, hst, hthread, joinedReviews_leads hi.unique hi.stored.fk (reviews_of_run hreach) _ ReviewRow.Newer _⟩

theorem shows_of_pictured {x : Record} (hx : ∀ y ∈ x, Pool.Happened h i y) {rs : List ReviewRow}
    {rows : List ReviewFull} {items : List ReviewItemOut} (hrows : List.Forall₂ (fun r row => row.Of db r) rs rows)
    (hitems : List.Forall₂ (Pictured x) rows items) : List.Forall₂ (Shows h i db) rs items := by
  induction hrows generalizing items with
  | nil =>
    rw [List.forall₂_nil_left_iff] at hitems
    rw [hitems]
    exact .nil
  | cons hof _ ih =>
    obtain ⟨item, items, ⟨imageUrl, heq, hm⟩, hrest, rfl⟩ := List.forall₂_cons_left_iff.mp hitems
    exact .cons ⟨_, hof, imageUrl, heq, hx _ hm⟩ (ih hrest)

/-- A list of reviews is what the queue was when one of the steps of the call was taken: the first rows of
those that it asks for, in their order, each with its own verdict, caption and image. -/
theorem listed_at_once (hr : Pool.Run ok (boot D now) h c) {req : ListRequest} {items : List ReviewItemOut}
    (hret : c.Returned i (.listReviews req) (.reviews items)) :
    ∃ st ∈ h, st.action.thread = some i ∧ ∃ rs,
      Leads req.Before req.limit (st.before.world.db.reviews.filter req.Wants) rs ∧
      List.Forall₂ (Shows h i st.before.world.db) rs items := by
  obtain ⟨x, hlist, hx⟩ := hr.recorded (fun _ => rfl) (code_listsRows D) hret
  obtain ⟨rows, hrows, hitems⟩ := hlist req items rfl rfl
  obtain ⟨st, hst, hthread, rs, hleads, hof⟩ := leads_of_answered hr hrows hx
  exact ⟨st, hst, hthread, rs, hleads, shows_of_pictured hx hof hitems⟩

/-- The list that thread `i` has returned. -/
def listed? (i : Nat) (c : (service D).Config) : Option (ListRequest × List ReviewItemOut) :=
  match c.threads i with
  | some ⟨.listReviews req, some (.ret (.reviews items))⟩ => some (req, items)
  | _ => none

theorem returned_of_listed {req : ListRequest} {items : List ReviewItemOut} (hl : listed? i c = some (req, items)) :
    c.Returned i (.listReviews req) (.reviews items) := by
  unfold listed? at hl
  split at hl
  · cases hl
    assumption
  · cases hl

/-- The sample is uploaded, flagged and listed. -/
theorem listed_at_once_sample : ∃ h c, Pool.Run Pool.anything (boot (sample .atomic) 0) h c ∧
    ∃ (req : ListRequest) (items : List ReviewItemOut), items ≠ [] ∧ ∃ st ∈ h, ∃ rs,
      Leads req.Before req.limit (st.before.world.db.reviews.filter req.Wants) rs ∧
        List.Forall₂ (Shows h 2 st.before.world.db) rs items := by
  have hrun : (Pool.recordIf (fun _ _ => true) (flaggedSample (sample .atomic) ++ listSample (sample .atomic) 2 5)
      [] (boot (sample .atomic) 0)).any (fun x => (listed? 2 x.2).any fun y => !y.2.isEmpty) = true := by
    decide +kernel
  obtain ⟨⟨h, c⟩, hx, hrun⟩ := (Option.any_eq_true _ _).mp hrun
  obtain ⟨⟨req, items⟩, hlisted, hitems⟩ := (Option.any_eq_true _ _).mp hrun
  have hr : Pool.Run Pool.anything (boot (sample .atomic) 0) h c :=
    Pool.Run.nil.recordIf (fun _ _ _ => trivial) hx
  obtain ⟨st, hst, -, hleads⟩ := listed_at_once hr (returned_of_listed hlisted)
  exact ⟨h, c, hr, req, items, by simpa using hitems, st, hst, hleads⟩

/-! ## The counts of the dashboard -/

/-- What the numbers of a summary have to do with each other. -/
structure Reconciles (m : MetricsSummary) : Prop where
  verdicts : m.decisionsAllow + m.decisionsFlag + m.decisionsBlock = m.decisionsTotal
  flagged : m.decisionsFlag + m.autoResolved ≤ m.decisionsTotal
  pending : m.pendingReviews + m.autoResolved ≤ m.decisionsTotal
  claimed : m.claimedReviews + m.autoResolved ≤ m.decisionsTotal
  rate : 0 ≤ m.autoResolveRate ∧ m.autoResolveRate ≤ 1

/-- Every decision has one of the three verdicts. -/
theorem count_verdicts (ds : List DecisionRow) : ds.countP (·.envelope.decision = .allow) +
    ds.countP (·.envelope.decision = .flag) + ds.countP (·.envelope.decision = .block) = ds.length := by
  induction ds with
  | nil => rfl
  | cons d ds ih =>
    simp only [List.countP_cons, List.length_cons, ← ih]
    cases d.envelope.decision <;> simp <;> omega

/-- Every review is pending, claimed or resolved. -/
theorem count_status (rows : List ReviewRow) : rows.countP (·.status = .pending) + rows.countP (·.status = .claimed) +
    rows.countP (·.resolved) = rows.length := by
  induction rows with
  | nil => rfl
  | cons r rows ih =>
    simp only [List.countP_cons, List.length_cons, ← ih, ReviewRow.resolved]
    cases r.status <;> simp <;> omega

/-- A decision that is reviewed is not counted as resolved by the machine. -/
theorem count_auto (p : DecisionRow → Bool) {ds : List DecisionRow}
    (hp : ∀ d ∈ ds, p d = true → d.envelope.needsHumanReview = true) :
    ds.countP p + ds.countP (·.envelope.needsHumanReview = false) ≤ ds.length := by
  rw [List.length_eq_countP_add_countP fun d : DecisionRow =>
    decide (d.envelope.needsHumanReview = false), Nat.add_comm]
  refine Nat.add_le_add_left (List.countP_mono_left fun d hd h => ?_) _
  simp [hp d hd h]

/-- The reviews and the decisions that need none make up the decisions. -/
theorem Ledger.count_reviews (h : Ledger db) :
    db.reviews.length + db.decisions.countP (·.envelope.needsHumanReview = false) = db.decisions.length := by
  have hlen := congrArg List.length h.reviews
  rw [List.length_map, List.length_map, ← List.countP_eq_length_filter] at hlen
  rw [hlen, Nat.add_comm, List.length_eq_countP_add_countP fun d : DecisionRow =>
    decide (d.envelope.needsHumanReview = false)]
  simp

/-- Reviews are never deleted, nor are decisions. -/
theorem length_reviews_le {c c' : (service D).Config} (hr : Pool.Reachable c c') :
    c.world.db.reviews.length ≤ c'.world.db.reviews.length := by
  obtain ⟨h, hr⟩ := hr
  induction hr with
  | nil => exact Nat.le_refl _
  | @cons h c₁ a c₂ _ _ hn ih =>
    have hlen := congrArg List.length
      (reviews_applyAll (fun u r => by cases u <;> rfl : ∀ (u : ReviewUpdate) (r : ReviewRow),
      (u.apply r).id = r.id) c₁.world.db (Step.writes ⟨c₁, a, c₂⟩))
    rw [← db_of_next hn, List.length_append, List.length_map, List.length_map] at hlen
    omega

theorem flag_reviewed (hr : Pool.Reachable (boot D now) c) {d : DecisionRow} (hd : d ∈ c.world.db.decisions)
    (hf : d.envelope.decision = .flag) : d.envelope.needsHumanReview = true := by
  obtain ⟨h, hr⟩ := hr
  obtain ⟨j, e, -, x, hx, -⟩ := reasonable_of_run hr hd
  by_contra hn
  exact sure_of_reasons hx (by simpa using hn) hf

theorem autoResolveRate_mem (db : Database) (t : Time) :
    0 ≤ (fetchMetricsSummary db t).autoResolveRate ∧ (fetchMetricsSummary db t).autoResolveRate ≤ 1 := by
  have hauto : db.decisions.countP (·.envelope.needsHumanReview = false) ≤ db.decisions.length :=
    List.countP_le_length
  have hrate := ratio_mem hauto
  exact round4_mem hrate.1 hrate.2

/-- What `fetch_metrics_summary` counts while the services go on is consistent: the verdicts add up, no FLAG
and no review that waits is counted as resolved by the machine, and the rate is one. What it counts at one
instant accounts for every decision. -/
theorem metrics_reconcile {c₁ c₂ c₃ c₄ : (service D).Config} (h₁ : Pool.Reachable (boot D now) c₁)
    (h₂ : Pool.Reachable c₁ c₂) (h₃ : Pool.Reachable c₂ c₃) (h₄ : Pool.Reachable c₃ c₄) :
    Reconciles (fetchMetrics ⟨(c₁.world.db, c₁.world.now), (c₂.world.db, c₂.world.now), (c₃.world.db, c₃.world.now),
      (c₄.world.db, c₄.world.now)⟩) ∧
    ∀ t, (fetchMetricsSummary c₄.world.db t).pendingReviews + (fetchMetricsSummary c₄.world.db t).claimedReviews +
      c₄.world.db.reviews.countP (·.resolved) + (fetchMetricsSummary c₄.world.db t).autoResolved =
        (fetchMetricsSummary c₄.world.db t).decisionsTotal := by
  have hr : Pool.Reachable (boot D now) c₄ := ((h₁.trans h₂).trans h₃).trans h₄
  have hledger := (ledger_of_reachable hr).count_reviews
  have hwaits {c : (service D).Config} (h : Pool.Reachable c c₄) (p : ReviewRow → Bool) :
      c.world.db.reviews.countP p + c₄.world.db.decisions.countP (·.envelope.needsHumanReview = false) ≤
        c₄.world.db.decisions.length := by
    have hlen := length_reviews_le h
    have hcount := List.countP_le_length (p := p) (l := c.world.db.reviews)
    omega
  constructor
  · exact {
      verdicts := count_verdicts _
      flagged := count_auto _ fun d hd hf => flag_reviewed hr hd (of_decide_eq_true hf)
      pending := hwaits ((h₂.trans h₃).trans h₄) _
      claimed := hwaits (h₃.trans h₄) _
      rate := autoResolveRate_mem c₄.world.db c₄.world.now }
  · intro t
    have hsum := counts_sum c₄.world.db.reviews t
    have hall := count_status c₄.world.db.reviews
    show c₄.world.db.reviews.countP _ + c₄.world.db.reviews.countP _ + _ + c₄.world.db.decisions.countP _ =
      c₄.world.db.decisions.length
    omega

/-- The sample is flagged; it is pending when the first counts are made, and claimed when the last are. -/
theorem metrics_reconcile_sample : ∃ c c' : (service (sample .atomic)).Config,
    Pool.Reachable (boot (sample .atomic) 0) c ∧ Pool.Reachable c c' ∧
    (fetchMetricsSummary c.world.db c.world.now).pendingReviews = 1 ∧
    Reconciles (fetchMetrics ⟨(c.world.db, c.world.now), (c'.world.db, c'.world.now), (c'.world.db, c'.world.now),
      (c'.world.db, c'.world.now)⟩) := by
  have hrun : (Pool.replay (flaggedSample (sample .atomic)) (boot (sample .atomic) 0)).any (fun c =>
      decide ((fetchMetricsSummary c.world.db c.world.now).pendingReviews = 1) &&
        (Pool.replay (claimSample (sample .atomic) 2 9) c).isSome) = true := by
    decide +kernel
  obtain ⟨c, hr, hc⟩ := Pool.exists_replay hrun
  obtain ⟨hpending, hclaim⟩ := Bool.and_eq_true_iff.mp hc
  obtain ⟨c', hclaim⟩ := Option.isSome_iff_exists.mp hclaim
  have hr' : Pool.Reachable c c' := Pool.Reachable.replay ⟨[], .nil⟩ hclaim
  have hstay : Pool.Reachable c' c' := ⟨[], .nil⟩
  exact ⟨c, c', hr, hr', of_decide_eq_true hpending, (metrics_reconcile hr hr' hstay hstay).1⟩

end CM
