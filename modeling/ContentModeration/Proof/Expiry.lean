import ContentModeration.Impl.Metrics
import ContentModeration.Proof.Recovery

/-!
# Expired claims

* `expiry_agrees_iff`: the four definitions of an expired claim agree except at the instant
  at which it expires, where only `is_claim_expired` counts it as expired (`expires_now`).
* `release_exact`: `release_expired_claims` releases exactly the expired claims and writes
  an audit row for each; a second call finds none, and the counts of
  `fetch_metrics_summary` do not change.
-/

namespace CM

open Database World

variable {D : Deployment} {s s' : World} {i : Nat} {t : Time} {r : ReviewRow} {db : Database}

theorem all_lt_iff (o : Option Time) (t : Time) :
    (o.all fun t' => decide (t' < t)) = true ↔ o = none ∨ ∃ t', o = some t' ∧ t' < t := by
  cases o <;> simp

theorem ReviewRow.expired_iff : r.Expired t ↔
    r.status = .claimed ∧ (r.claimExpiresAt = none ∨ ∃ t', r.claimExpiresAt = some t' ∧ t' < t) :=
  ⟨fun ⟨hc, he⟩ => ⟨hc, he⟩, fun ⟨hc, he⟩ => ⟨hc, he⟩⟩

instance (t : Time) (r : ReviewRow) : Decidable (r.Expired t) :=
  decidable_of_iff (r.status = .claimed ∧ (r.claimExpiresAt.all fun t' => decide (t' < t)) = true) <| by
    rw [ReviewRow.expired_iff, all_lt_iff]

/-- Somebody else can take the claim over. -/
def ReviewRow.TakenByAnother (t : Time) (r : ReviewRow) : Prop :=
  r.status = .claimed ∧ ∃ body : ClaimRequest, r.claimedBy ≠ some body.reviewer ∧ r.claimable body.reviewer t = true

/-! ## The four definitions -/

theorem countsAsPending_iff : r.countsAsPending t = true ↔ r.status = .pending ∨ r.Expired t := by
  unfold ReviewRow.countsAsPending
  rw [Bool.or_eq_true, Bool.and_eq_true, decide_eq_true_eq, decide_eq_true_eq, all_lt_iff, ReviewRow.expired_iff]

theorem countsAsClaimed_iff : r.countsAsClaimed t = true ↔ r.status = .claimed ∧ ¬ r.Expired t := by
  unfold ReviewRow.countsAsClaimed
  rw [Bool.and_eq_true, decide_eq_true_eq, ReviewRow.expired_iff]
  by_cases hc : r.status = .claimed
  · cases r.claimExpiresAt <;> simp [hc]
  · simp [hc]

/-- Of another reviewer, the claim's predicate says that it is expired. -/
theorem claimable_iff_of_ne {reviewer : String} (hc : r.status = .claimed) (hne : r.claimedBy ≠ some reviewer) :
    r.claimable reviewer t = true ↔ r.Expired t := by
  have hstatus : r.status ≠ .pending := by
    rw [hc]
    decide
  unfold ReviewRow.claimable
  rw [Bool.or_eq_true, Bool.or_eq_true, Bool.and_eq_true, Bool.and_eq_true, decide_eq_true_eq, decide_eq_true_eq,
    decide_eq_true_eq, all_lt_iff, ReviewRow.expired_iff]
  simp only [hstatus, hne, false_or, and_false, or_false]

theorem exists_other (o : Option String) : ∃ body : ClaimRequest, o ≠ some body.reviewer := by
  by_cases h : o = some "a"
  · refine ⟨⟨"b", by decide, by decide⟩, ?_⟩
    rw [h]
    decide
  · exact ⟨⟨"a", by decide, by decide⟩, h⟩

theorem takenByAnother_iff : r.TakenByAnother t ↔ r.Expired t := by
  constructor
  · rintro ⟨hc, body, hne, hp⟩
    exact (claimable_iff_of_ne hc hne).mp hp
  · intro h
    obtain ⟨body, hne⟩ := exists_other r.claimedBy
    exact ⟨h.claimed, body, hne, (claimable_iff_of_ne h.claimed hne).mpr h⟩

theorem isClaimExpired_iff : isClaimExpired r.status r.claimExpiresAt t = true ↔
    r.Expired t ∨ r.status = .claimed ∧ r.claimExpiresAt = some t := by
  unfold isClaimExpired
  rw [ReviewRow.expired_iff]
  by_cases hc : r.status = .claimed
  · rw [if_neg (not_not_intro hc)]
    cases r.claimExpiresAt with
    | none => simp [hc]
    | some t' =>
      have : t' ≤ t ↔ t' < t ∨ t' = t := Nat.le_iff_lt_or_eq
      simpa [hc] using this
  · simp [hc]

/-- The four definitions of an expired claim agree on the row `r` at `t`. -/
structure ExpiryAgrees (db : Database) (t : Time) (r : ReviewRow) : Prop where
  python : isClaimExpired r.status r.claimExpiresAt t = true ↔ r ∈ db.expiredClaims t
  claim : r ∈ db.expiredClaims t ↔ r.TakenByAnother t
  metrics : r.TakenByAnother t ↔
    r.status = .claimed ∧ r.countsAsPending t = true ∧ r.countsAsClaimed t = false

/-- The definitions agree unless the claim ends at this very instant. -/
theorem expiry_agrees_iff (hr : r ∈ db.reviews) (t : Time) :
    ExpiryAgrees db t r ↔ ¬ (r.status = .claimed ∧ r.claimExpiresAt = some t) := by
  have hsql : r ∈ db.expiredClaims t ↔ r.Expired t := by simp [mem_expiredClaims, hr]
  have hmetrics : r.Expired t ↔ r.status = .claimed ∧ r.countsAsPending t = true ∧ r.countsAsClaimed t = false := by
    have hclaimed := countsAsClaimed_iff (r := r) (t := t)
    rw [countsAsPending_iff, ← Bool.not_eq_true, hclaimed]
    constructor
    · exact fun h => ⟨h.claimed, .inr h, fun hn => hn.2 h⟩
    · exact fun ⟨hc, _, hn⟩ => by_contra fun h => hn ⟨hc, h⟩
  constructor
  · rintro ⟨hpython, -, -⟩ ⟨hc, he⟩
    -- at its end the claim is expired for Python, but not for SQL
    have hexpired : r.Expired t := hsql.mp (hpython.mp (isClaimExpired_iff.mpr (.inr ⟨hc, he⟩)))
    obtain hnone | ⟨t', he', hlt⟩ := hexpired.expires
    · cases hnone.symm.trans he
    · cases he'.symm.trans he
      exact Nat.lt_irrefl _ hlt
  · intro hne
    refine ⟨?_, ?_, ?_⟩
    · rw [isClaimExpired_iff, hsql, or_iff_left hne]
    · rw [hsql, takenByAnother_iff]
    · rw [takenByAnother_iff, hmetrics]

/-- A claim that ends at 0. -/
def endingSample : ReviewRow where
  id := ⟨1⟩
  decisionId := ⟨2⟩
  contentId := ⟨3⟩
  jobId := ⟨4⟩
  status := .claimed
  priority := 50
  claimedBy := some "a"
  claimExpiresAt := some 0
  createdAt := 0

theorem expiry_agrees_iff_sample : endingSample ∈ ({ reviews := [endingSample] } : Database).reviews ∧
    (ExpiryAgrees { reviews := [endingSample] } 1 endingSample ↔
      ¬ (endingSample.status = .claimed ∧ endingSample.claimExpiresAt = some 1)) :=
  ⟨List.mem_singleton_self _, expiry_agrees_iff (List.mem_singleton_self _) 1⟩

/-- At the instant at which it ends, a claim is expired for `is_claim_expired` only. -/
theorem expires_now : ¬ ∀ (db : Database) (r : ReviewRow) (t : Time), r ∈ db.reviews → ExpiryAgrees db t r := by
  intro hall
  have hpython : isClaimExpired endingSample.status endingSample.claimExpiresAt 0 = true := by decide
  have hsql : ({ reviews := [endingSample] } : Database).expiredClaims 0 = [] := by decide
  have := (hall { reviews := [endingSample] } endingSample 0 (List.mem_singleton_self _)).python.mp hpython
  rw [hsql] at this
  cases this

/-! ## The release -/

/-- The row after a release at `t`. -/
def ReviewRow.swept (t : Time) (r : ReviewRow) : ReviewRow :=
  if r.Expired t then
    { r with status := .pending, claimedBy := none, claimedAt := none, claimExpiresAt := none }
  else r

/-- The audit row of a released claim. -/
def releasedAudit (row : Uuid × Option String) : AuditRow :=
  ⟨"review", row.1, "claim_expired", (row.2.filter (· ≠ "")).getD "system", claimDetail⟩

/-- The database after a release at `t` that returned `rows`. -/
structure Swept (t : Time) (db db' : Database) (rows : List (Uuid × Option String)) : Prop where
  found : rows = (db.reviews.filter fun r => decide (r.Expired t)).map fun r => (r.id, r.claimedBy)
  once : (rows.map (·.1)).Nodup
  after : db' = { db with reviews := db.reviews.map (·.swept t), audit := db.audit ++ rows.map releasedAudit }

/-- What a release at `t` does to the counts of the metrics at `t`. -/
structure Invisible (t : Time) (db db' : Database) : Prop where
  pending : (fetchMetricsSummary db' t).pendingReviews = (fetchMetricsSummary db t).pendingReviews
  claimed : (fetchMetricsSummary db' t).claimedReviews = (fetchMetricsSummary db t).claimedReviews
  sum : (fetchMetricsSummary db t).pendingReviews + (fetchMetricsSummary db t).claimedReviews =
    db.reviews.countP (·.status = .pending) + db.reviews.countP (·.status = .claimed)
  plainPending : (fetchMetricsSummary db' t).pendingReviews = db'.reviews.countP (·.status = .pending)
  plainClaimed : (fetchMetricsSummary db' t).claimedReviews = db'.reviews.countP (·.status = .claimed)

theorem expiredClaims_eq (db : Database) (t : Time) :
    db.expiredClaims t = db.reviews.filter fun r => decide (r.Expired t) := by
  refine List.filter_congr fun r _ => ?_
  rw [Bool.eq_iff_iff, Bool.and_eq_true, decide_eq_true_eq, decide_eq_true_eq, all_lt_iff, ReviewRow.expired_iff]

theorem ReviewRow.not_expired_swept (r : ReviewRow) : ¬ (r.swept t).Expired t := by
  unfold swept
  split
  · intro h
    cases h.claimed
  · assumption

theorem applyAll_release (db : Database) (ids : List Uuid) :
    db.applyAll (ids.map fun id => .updateReview id .release) =
      { db with reviews := db.reviews.map fun r => if r.id ∈ ids then ReviewUpdate.apply r .release else r } := by
  induction ids generalizing db with
  | nil => simp
  | cons id ids ih =>
    rw [List.map_cons, applyAll_cons, ih]
    simp only [Database.apply, List.map_map]
    congr 1
    refine List.map_congr_left fun r _ => ?_
    by_cases hid : r.id = id <;> by_cases hm : r.id ∈ ids <;> simp [hid, hm, ReviewUpdate.apply]

/-- The update of the expired claims releases them and no others. -/
theorem applyAll_expired (hkeys : (db.reviews.map (·.id)).Nodup) (t : Time) :
    db.applyAll ((db.expiredClaims t).map fun r => .updateReview r.id .release) =
      { db with reviews := db.reviews.map (·.swept t) } := by
  have hids : (db.expiredClaims t).map (fun r => Write.updateReview r.id .release) =
      ((db.expiredClaims t).map (·.id)).map fun id => .updateReview id .release := by
    rw [List.map_map]
    rfl
  rw [hids, applyAll_release]
  congr 1
  refine List.map_congr_left fun r hr => ?_
  have hmem : r.id ∈ (db.expiredClaims t).map (·.id) ↔ r.Expired t := by
    constructor
    · intro h
      obtain ⟨r', hr', he⟩ := List.mem_map.mp h
      obtain ⟨hm, hx⟩ := mem_expiredClaims.mp hr'
      rwa [← List.inj_on_of_nodup_map hkeys hm hr he]
    · exact fun h => List.mem_map.mpr ⟨r, mem_expiredClaims.mpr ⟨hr, h⟩, rfl⟩
  simp only [hmem, ReviewRow.swept, ReviewUpdate.apply]

/-- No open transaction keeps thread `i` from updating reviews. -/
structure Unblocked (i : Nat) (s : World) : Prop where
  idle : s.txn i = none
  txns : ∀ t ∈ s.txns, ∀ w ∈ t.2.writes, ¬ w.IsReviewUpdate

section Alone

variable {b : Nat}

/-- A statement that writes `ws`. -/
theorem wp_writes {q : Sql} {a : q.Ans} {ws : List Write} (h : Unblocked i s) (hq : q.refusal = none)
    (hrun : ∀ now fresh, q.run s.db now fresh = .ok (a, ws)) (hw : ∀ w ∈ ws, w.OfReview) :
    (turns D).wp i (sql q) (fun a' _ s' => a' = a ∧ s'.db = s.db.applyAll ws ∧ Unblocked i s') b s := by
  refine wp_request fun u hu => ⟨a, _, exec_sql_works h.idle h.txns u.works hq (hrun _ _) hw, rfl, rfl, ?_⟩
  exact ⟨h.idle, h.txns⟩

theorem wp_auditReleased_exact (rows : List (Uuid × Option String)) (h : Unblocked i s) :
    (turns D).wp i (auditReleased rows)
      (fun _ _ s' => s'.db = { s.db with audit := s.db.audit ++ rows.map releasedAudit } ∧ Unblocked i s') b s := by
  induction rows generalizing b s with
  | nil => exact ⟨by simp, h⟩
  | cons row rows ih =>
    have hrun : ∀ now fresh, (Sql.insertAudit (releasedAudit row)).run s.db now fresh =
        .ok ((), [.audit (releasedAudit row)]) := fun _ _ => rfl
    refine Turns.wp_bind (Turns.wp_mono (wp_writes h rfl hrun ?_) ?_)
    · intro w hw
      rw [List.mem_singleton.mp hw]
      trivial
    · rintro _ b s' ⟨-, hdb, h'⟩
      refine Turns.wp_mono (ih h') ?_
      rintro _ _ s'' ⟨hdb', h''⟩
      refine ⟨?_, h''⟩
      rw [hdb', hdb]
      simp [Database.apply]

/-- The release of the rows, in either isolation. -/
theorem wp_releaseRows (isolation : Isolation) (h : Unblocked i s) (hkeys : (s.db.reviews.map (·.id)).Nodup) :
    (turns D).wp i (releaseRows isolation t) (fun rows _ s' =>
      rows = (s.db.reviews.filter fun r => decide (r.Expired t)).map (fun r => (r.id, r.claimedBy)) ∧
      s'.db = { s.db with reviews := s.db.reviews.map (·.swept t) } ∧ Unblocked i s') b s := by
  have hupdates : ∀ w ∈ (s.db.expiredClaims t).map (fun r => Write.updateReview r.id .release), w.OfReview := by
    intro w hw
    obtain ⟨r, -, rfl⟩ := List.mem_map.mp hw
    trivial
  rw [← expiredClaims_eq, ← applyAll_expired hkeys]
  cases isolation with
  | atomic => exact wp_writes (q := .releaseExpired t) h rfl (fun _ _ => rfl) hupdates
  | readCommitted =>
    refine Turns.wp_bind (Turns.wp_mono
      (wp_writes (q := .selectExpired t) h rfl (fun _ _ => rfl) fun _ hw => by cases hw) ?_)
    rintro rows b s' ⟨rfl, hdb, h'⟩
    have hmap : ((s.db.expiredClaims t).map fun r => (r.id, r.claimedBy)).map
      (fun r => Write.updateReview r.1 .release) =
        (s.db.expiredClaims t).map fun r => .updateReview r.id .release := List.map_map ..
    rw [applyAll_nil] at hdb
    rw [← hmap] at hupdates ⊢
    rw [← hdb] at hupdates ⊢
    exact wp_writes h' rfl (fun _ _ => rfl) hupdates

/-- `release_expired_claims` by itself. -/
theorem wp_swept (isolation : Isolation) (h : Unblocked i s) (hkeys : (s.db.reviews.map (·.id)).Nodup) :
    (turns D).wp i (releaseExpiredClaims isolation t) (fun rows _ s' =>
      Swept t s.db s'.db rows ∧ Unblocked i s') b s := by
  refine Turns.wp_bind (Turns.wp_mono (wp_releaseRows isolation h hkeys) ?_)
  rintro rows b s' ⟨rfl, hdb, h'⟩
  refine Turns.wp_bind (Turns.wp_mono (wp_auditReleased_exact _ h') ?_)
  rintro _ b s'' ⟨hdb', h''⟩
  refine ⟨⟨rfl, ?_, ?_⟩, h''⟩
  · rw [List.map_map]
    exact hkeys.sublist (List.filter_sublist.map _)
  · rw [hdb', hdb]

end Alone

/-! ## The counts -/

theorem ReviewRow.countsAsPending_swept (r : ReviewRow) :
    (r.swept t).countsAsPending t = r.countsAsPending t ∧
    (r.swept t).countsAsPending t = decide ((r.swept t).status = .pending) := by
  have hpending := countsAsPending_iff (r := r) (t := t)
  have hswept := countsAsPending_iff (r := r.swept t) (t := t)
  rw [or_iff_left r.not_expired_swept] at hswept
  have hstatus : (r.swept t).status = .pending ↔ r.status = .pending ∨ r.Expired t := by
    unfold swept
    split
    · simp [*]
    · simp [*]
  constructor
  · rw [Bool.eq_iff_iff, hpending, hswept, hstatus]
  · rw [Bool.eq_iff_iff, decide_eq_true_eq, hswept]

theorem ReviewRow.countsAsClaimed_swept (r : ReviewRow) :
    (r.swept t).countsAsClaimed t = r.countsAsClaimed t ∧
    (r.swept t).countsAsClaimed t = decide ((r.swept t).status = .claimed) := by
  have hclaimed := countsAsClaimed_iff (r := r) (t := t)
  have hswept := countsAsClaimed_iff (r := r.swept t) (t := t)
  rw [and_iff_left r.not_expired_swept] at hswept
  have hstatus : (r.swept t).status = .claimed ↔ r.status = .claimed ∧ ¬ r.Expired t := by
    unfold swept
    split
    · simp [*]
    · simp [*]
  constructor
  · rw [Bool.eq_iff_iff, hclaimed, hswept, hstatus]
  · rw [Bool.eq_iff_iff, decide_eq_true_eq, hswept]

/-- A row that is pending or claimed is counted once. -/
theorem counts_sum (rows : List ReviewRow) (t : Time) :
    rows.countP (·.countsAsPending t) + rows.countP (·.countsAsClaimed t) =
      rows.countP (·.status = .pending) + rows.countP (·.status = .claimed) := by
  induction rows with
  | nil => rfl
  | cons r rows ih =>
    have hpending := countsAsPending_iff (r := r) (t := t)
    have hclaimed := countsAsClaimed_iff (r := r) (t := t)
    have hexpired : r.Expired t → r.status = .claimed := fun h => h.claimed
    simp only [List.countP_cons, hpending, hclaimed, decide_eq_true_eq]
    by_cases hx : r.Expired t
    · simp only [hx, hexpired hx]
      simp
      omega
    · cases hs : r.status <;> simp [hx] <;> omega

theorem Swept.invisible {db' : Database} {rows : List (Uuid × Option String)} (h : Swept t db db' rows) :
    Invisible t db db' := by
  rw [h.after]
  refine ⟨?_, ?_, counts_sum _ t, ?_, ?_⟩
  · simp only [fetchMetricsSummary, List.countP_map, Function.comp_def, fun r : ReviewRow =>
      (r.countsAsPending_swept (t := t)).1]
  · simp only [fetchMetricsSummary, List.countP_map, Function.comp_def, fun r : ReviewRow =>
      (r.countsAsClaimed_swept (t := t)).1]
  · simp only [fetchMetricsSummary, List.countP_map, Function.comp_def, fun r : ReviewRow =>
      (r.countsAsPending_swept (t := t)).2]
  · simp only [fetchMetricsSummary, List.countP_map, Function.comp_def, fun r : ReviewRow =>
      (r.countsAsClaimed_swept (t := t)).2]

/-! ## The cleanup -/

theorem ReviewRow.swept_swept (r : ReviewRow) : (r.swept t).swept t = r.swept t := if_neg r.not_expired_swept

/-- Where nothing has expired, a release changes nothing. -/
theorem Swept.again {db' db'' : Database} {rows rows' : List (Uuid × Option String)} (h : Swept t db db' rows)
    (h' : Swept t db' db'' rows') : rows' = [] ∧ db'' = db' := by
  have hnone : db'.reviews.filter (fun r => decide (r.Expired t)) = [] := by
    rw [h.after]
    refine List.filter_eq_nil_iff.mpr fun r hr => ?_
    obtain ⟨r, -, rfl⟩ := List.mem_map.mp hr
    simpa using r.not_expired_swept
  have hrows : rows' = [] := by
    rw [h'.found, hnone]
    rfl
  refine ⟨hrows, ?_⟩
  rw [h'.after, hrows, h.after]
  simp [Function.comp_def, ReviewRow.swept_swept]

theorem ReviewRow.id_swept (r : ReviewRow) : (r.swept t).id = r.id := by
  unfold swept
  split <;> rfl

/-- A release at `t` releases exactly the expired claims, returns and audits each of them once, and
changes nothing else; another one at `t` changes nothing; the counts of the metrics stay the same. -/
theorem release_exact (isolation : Isolation) (t : Time) {b : Nat} (hkeys : (s.db.reviews.map (·.id)).Nodup)
    (hfree : Unblocked i s) :
    (turns D).wp i (releaseExpiredClaims isolation t) (fun rows b' s' =>
      Swept t s.db s'.db rows ∧ Invisible t s.db s'.db ∧
      (turns D).wp i (releaseExpiredClaims isolation t) (fun rows' _ s'' => rows' = [] ∧ s''.db = s'.db) b'
      s') b s := by
  refine Turns.wp_mono (wp_swept isolation hfree hkeys) ?_
  rintro rows b' s' ⟨hswept, hfree'⟩
  have hkeys' : (s'.db.reviews.map (·.id)).Nodup := by
    rw [hswept.after]
    simpa [Function.comp_def, ReviewRow.id_swept] using hkeys
  refine ⟨hswept, hswept.invisible, Turns.wp_mono (wp_swept isolation hfree' hkeys') ?_⟩
  exact fun rows' _ s'' h => hswept.again h.1

/-- A claim that has ended, one that goes on, one without an end and a review that is pending. -/
def endedSample : World where
  now := 1
  db := { reviews := [endingSample, { endingSample with id := ⟨11⟩, claimExpiresAt := some 2 },
    { endingSample with id := ⟨12⟩, claimExpiresAt := none },
    { endingSample with id := ⟨13⟩, status := .pending, claimedBy := none, claimExpiresAt := none }] }

theorem release_exact_sample :
    endedSample.db.reviews.map (fun r => decide (r.Expired 1)) = [true, false, true, false] ∧
    (turns (sample .readCommitted)).wp 0 (releaseExpiredClaims .readCommitted 1)
      (fun rows b' s' => Swept 1 endedSample.db s'.db rows ∧ Invisible 1 endedSample.db s'.db ∧
        (turns (sample .readCommitted)).wp 0 (releaseExpiredClaims .readCommitted 1)
          (fun rows' _ s'' => rows' = [] ∧ s''.db = s'.db) b' s') 5 endedSample :=
  ⟨by decide, release_exact .readCommitted 1 (by decide) ⟨rfl, fun _ h => by cases h⟩⟩

end CM
