import ContentModeration.Proof.Service

/-!
# The life of a review

A review is created pending. It can be claimed and released any number of
times, and is resolved at most once, by the reviewer of its latest claim
(`Lives`), which fixes what its columns hold (`Lives.shape`,
`Lives.resolvedOnce`). Where RELEASE_EXPIRED_CLAIMS_SQL is executed at once,
the journal of every run is such a life for each row (`lived_of_run`), so all
of this holds of every reachable row (`review_shapes`).
-/

namespace CM

open Database World

variable {D : Deployment}

/-! ## Lives -/

/-- The review is approved or rejected. -/
def ReviewRow.resolved (r : ReviewRow) : Bool := decide (r.status = .approved) || decide (r.status = .rejected)

/-- A review of the decision `model` has become `r` by the updates `us`. -/
inductive Lives (model : Decision) : List ReviewUpdate → ReviewRow → Prop where
  | created (id decisionId contentId jobId : Uuid) (priority : Nat) (t : Time) :
    Lives model [] { id, decisionId, contentId, jobId, status := .pending, priority, createdAt := t }
  | claim {us r} (reviewer : String) (now expires : Time) (life : Lives model us r) (free : r.resolved = false) :
    Lives model (us ++ [.claim reviewer now expires]) (ReviewUpdate.apply r (.claim reviewer now expires))
  | release {us r} (life : Lives model us r) (free : r.resolved = false) :
    Lives model (us ++ [.release]) (ReviewUpdate.apply r .release)
  | resolve {us r} (decision : ReviewerDecision) {notes reviewer : String} (now : Time) (life : Lives model us r)
      (claimed : r.status = .claimed) (owner : r.claimedBy = some reviewer) (stripped : strip notes = notes)
      (reason : isOverride decision model = true → 3 ≤ notes.length) :
    Lives model (us ++ [.resolve decision.status decision notes reviewer now])
      (ReviewUpdate.apply r (.resolve decision.status decision notes reviewer now))

namespace ReviewRow

structure IsPending (r : ReviewRow) : Prop where
  status : r.status = .pending
  claimedBy : r.claimedBy = none
  claimedAt : r.claimedAt = none
  claimExpiresAt : r.claimExpiresAt = none
  resolvedBy : r.resolvedBy = none
  resolvedAt : r.resolvedAt = none
  reviewerDecision : r.reviewerDecision = none

structure IsClaimed (r : ReviewRow) : Prop where
  status : r.status = .claimed
  claimedBy : r.claimedBy.isSome = true
  claimedAt : r.claimedAt.isSome = true
  claimExpiresAt : r.claimExpiresAt.isSome = true
  resolvedBy : r.resolvedBy = none
  resolvedAt : r.resolvedAt = none
  reviewerDecision : r.reviewerDecision = none

structure IsResolved (model : Decision) (r : ReviewRow) : Prop where
  status : r.status = .approved ∨ r.status = .rejected
  resolvedBy : r.resolvedBy.isSome = true ∧ r.resolvedBy = r.claimedBy
  resolvedAt : r.resolvedAt.isSome = true
  allow : r.reviewerDecision = some .allow ↔ r.status = .approved
  block : r.reviewerDecision = some .block ↔ r.status = .rejected
  notes : ∀ d, r.reviewerDecision = some d → isOverride d model = true →
    ∃ n, r.notes = some n ∧ strip n = n ∧ 3 ≤ n.length

/-- The row has exactly one of the three shapes. -/
def Shape (model : Decision) (r : ReviewRow) : Prop :=
  (r.IsPending ∨ r.IsClaimed ∨ r.IsResolved model) ∧ ¬ (r.IsPending ∧ r.IsClaimed) ∧
  ¬ (r.IsPending ∧ r.IsResolved model) ∧ ¬ (r.IsClaimed ∧ r.IsResolved model)

theorem not_resolved_of_claimed {r : ReviewRow} (h : r.status = .claimed) : r.resolved = false := by
  simp [resolved, h]

theorem not_resolved_of_pending {r : ReviewRow} (h : r.status = .pending) : r.resolved = false := by
  simp [resolved, h]

theorem not_resolved_of_claimable {r : ReviewRow} {reviewer : String} {now : Time}
    (h : r.claimable reviewer now = true) : r.resolved = false := by
  simp only [claimable, Bool.or_eq_true, Bool.and_eq_true, decide_eq_true_eq] at h
  rcases h with (h | ⟨h, -⟩) | ⟨h, -⟩
  · exact not_resolved_of_pending h
  · exact not_resolved_of_claimed h
  · exact not_resolved_of_claimed h

theorem IsResolved.resolved {model : Decision} {r : ReviewRow} (h : r.IsResolved model) : r.resolved = true := by
  simpa [ReviewRow.resolved] using h.status

end ReviewRow

theorem ReviewerDecision.status_eq (decision : ReviewerDecision) :
    (decision.status = .approved ↔ decision = .allow) ∧ (decision.status = .rejected ↔ decision = .block) ∧
    (decision.status = .approved ∨ decision.status = .rejected) := by
  cases decision <;> decide

theorem status_ne_claimed (decision : ReviewerDecision) : decision.status ≠ .claimed := by cases decision <;> decide

section Lives

variable {model : Decision} {us : List ReviewUpdate} {r : ReviewRow}

theorem Lives.shape_or (h : Lives model us r) : r.IsPending ∨ r.IsClaimed ∨ r.IsResolved model := by
  -- a row that is not resolved has never been
  have free : ∀ {r : ReviewRow}, r.IsPending ∨ r.IsClaimed ∨ r.IsResolved model → r.resolved = false →
      r.resolvedBy = none ∧ r.resolvedAt = none ∧ r.reviewerDecision = none := by
    rintro r (h | h | h) hfree
    · exact ⟨h.resolvedBy, h.resolvedAt, h.reviewerDecision⟩
    · exact ⟨h.resolvedBy, h.resolvedAt, h.reviewerDecision⟩
    · rw [h.resolved] at hfree
      cases hfree
  induction h with
  | created => exact .inl ⟨rfl, rfl, rfl, rfl, rfl, rfl, rfl⟩
  | claim reviewer now expires life hfree ih =>
    obtain ⟨hb, ha, hd⟩ := free ih hfree
    exact .inr (.inl ⟨rfl, rfl, rfl, rfl, hb, ha, hd⟩)
  | release life hfree ih =>
    obtain ⟨hb, ha, hd⟩ := free ih hfree
    exact .inl ⟨rfl, rfl, rfl, rfl, hb, ha, hd⟩
  | resolve decision now life claimed owner stripped reason ih =>
    obtain ⟨happ, hrej, hor⟩ := decision.status_eq
    refine .inr (.inr ⟨hor, ⟨rfl, owner.symm⟩, rfl, Option.some_inj.trans happ.symm, Option.some_inj.trans hrej.symm,
      fun d hd ho => ⟨_, rfl, stripped, ?_⟩⟩)
    cases hd
    exact reason ho

theorem Lives.shape (h : Lives model us r) : r.Shape model := by
  refine ⟨h.shape_or, fun ⟨hp, hc⟩ => ?_, fun ⟨hp, hr⟩ => ?_, fun ⟨hc, hr⟩ => ?_⟩
  · have := hc.status
    rw [hp.status] at this
    cases this
  · have := hr.resolved
    rw [ReviewRow.not_resolved_of_pending hp.status] at this
    cases this
  · have := hr.resolved
    rw [ReviewRow.not_resolved_of_claimed hc.status] at this
    cases this

/-- The reviewer of a claim. -/
def ReviewUpdate.claimer? : ReviewUpdate → Option String
  | .claim reviewer _ _ => some reviewer
  | _ => none

def ReviewUpdate.isResolve : ReviewUpdate → Bool
  | .resolve .. => true
  | _ => false

/-- A review is resolved at most once, by the reviewer of the latest claim before. -/
def ResolvedOnce (us : List ReviewUpdate) : Prop :=
  ∀ us₁ us₂ status decision notes reviewer now, us = us₁ ++ .resolve status decision notes reviewer now :: us₂ →
    (∀ u ∈ us₁ ++ us₂, u.isResolve = false) ∧ (us₁.filterMap ReviewUpdate.claimer?).getLast? = some reviewer

theorem ResolvedOnce.of_none (h : ∀ u ∈ us, u.isResolve = false) : ResolvedOnce us := by
  rintro us₁ us₂ status decision notes reviewer now rfl
  cases h (.resolve status decision notes reviewer now) (by simp)

/-- A resolution after which there is none. -/
theorem ResolvedOnce.snoc (h : ∀ u ∈ us, u.isResolve = false) {status : ReviewStatus} {decision : ReviewerDecision}
    {notes reviewer : String} {now : Time} (hl : (us.filterMap ReviewUpdate.claimer?).getLast? = some reviewer) :
    ResolvedOnce (us ++ [.resolve status decision notes reviewer now]) := by
  intro us₁ us₂ status' decision' notes' reviewer' now' he
  rcases List.eq_nil_or_concat us₂ with rfl | ⟨us₃, u, rfl⟩
  · obtain ⟨rfl, hu⟩ := List.append_inj' he rfl
    cases hu
    exact ⟨by simpa using h, hl⟩
  · rw [List.concat_eq_append, ← List.cons_append, ← List.append_assoc] at he
    obtain ⟨rfl, -⟩ := List.append_inj' he rfl
    cases h (.resolve status' decision' notes' reviewer' now') (by simp)

theorem Lives.history (h : Lives model us r) : (r.resolved = false → ∀ u ∈ us, u.isResolve = false) ∧
    (r.status = .claimed → (us.filterMap ReviewUpdate.claimer?).getLast? = r.claimedBy) ∧ ResolvedOnce us := by
  have more : ∀ {us : List ReviewUpdate} {u : ReviewUpdate}, (∀ u ∈ us, u.isResolve = false) → u.isResolve = false →
      ∀ v ∈ us ++ [u], v.isResolve = false := fun h hu v hv =>
    (List.mem_append.mp hv).elim (h v) fun hv => List.mem_singleton.mp hv ▸ hu
  induction h with
  | created => exact ⟨fun _ _ h => (nomatch h), fun h => (nomatch h), .of_none fun _ h => (nomatch h)⟩
  | claim reviewer now expires life free ih =>
    have hn := more (u := .claim reviewer now expires) (ih.1 free) rfl
    refine ⟨fun _ => hn, fun _ => ?_, .of_none hn⟩
    rw [List.filterMap_append]
    exact List.getLast?_concat
  | release life free ih =>
    have hn := more (u := .release) (ih.1 free) rfl
    exact ⟨fun _ => hn, fun h => (nomatch h), .of_none hn⟩
  | resolve decision now life claimed owner stripped reason ih =>
    refine ⟨fun h => ?_, fun h => absurd h (status_ne_claimed decision), ?_⟩
    · cases decision <;> cases h
    · exact .snoc (ih.1 (ReviewRow.not_resolved_of_claimed claimed)) ((ih.2.1 claimed).trans owner)

end Lives

/-! ## The lives of the rows -/

def Write.updateOf? (id : Uuid) : Write → Option ReviewUpdate
  | .updateReview id' u => if id' = id then some u else none
  | _ => none

/-- The updates of the review `id`. -/
def updatesOf (id : Uuid) (ws : List Write) : List ReviewUpdate := ws.filterMap (Write.updateOf? id)

/-- Every row has a life by the updates of it in the journal `log`. -/
structure Lived (db : Database) (log : List Write) : Prop where
  rows : ∀ r ∈ db.reviews, ∃ d ∈ db.decisions, d.id = r.decisionId ∧
    Lives d.envelope.decision (updatesOf r.id log) r
  absent : ∀ id, (∀ r ∈ db.reviews, r.id ≠ id) → updatesOf id log = []

theorem updatesOf_append (id : Uuid) (ws ws' : List Write) :
    updatesOf id (ws ++ ws') = updatesOf id ws ++ updatesOf id ws' := List.filterMap_append

theorem updatesOf_eq_nil {ws : List Write} (h : ∀ w ∈ ws, ¬ w.IsReviewUpdate) (id : Uuid) : updatesOf id ws = [] := by
  refine List.filterMap_eq_nil_iff.mpr fun w hw => ?_
  cases w with
  | updateReview id' u => exact absurd ⟨id', u, rfl⟩ (h _ hw)
  | _ => rfl

/-- The row after the updates `us`. -/
def ReviewRow.after (r : ReviewRow) (us : List ReviewUpdate) : ReviewRow := us.foldl ReviewUpdate.apply r

theorem ReviewRow.id_after (r : ReviewRow) (us : List ReviewUpdate) : (r.after us).id = r.id := by
  induction us generalizing r with
  | nil => rfl
  | cons u us ih => exact (ih (u.apply r)).trans (u.id_apply r)

/-- Writes change a row by the updates of it. -/
theorem after_mem_reviews {db : Database} {r : ReviewRow} (hr : r ∈ db.reviews) (ws : List Write) :
    r.after (updatesOf r.id ws) ∈ (db.applyAll ws).reviews := by
  induction ws generalizing db r with
  | nil => exact hr
  | cons w ws ih =>
    cases w with
    | updateReview id u =>
      by_cases hid : id = r.id
      · have hm : u.apply r ∈ (db.apply (.updateReview id u)).reviews :=
          List.mem_map.mpr ⟨r, hr, by rw [if_pos hid.symm]⟩
        have := ih hm
        rw [ReviewUpdate.id_apply] at this
        simpa [updatesOf, List.filterMap_cons, Write.updateOf?, hid, ReviewRow.after] using this
      · have hm : r ∈ (db.apply (.updateReview id u)).reviews :=
          List.mem_map.mpr ⟨r, hr, by rw [if_neg (Ne.symm hid)]⟩
        simpa [updatesOf, List.filterMap_cons, Write.updateOf?, hid] using ih hm
    | review row => exact ih (List.mem_append_left _ hr)
    | _ => exact ih hr

/-- Every row is a new one, or one that was there with the updates of it. -/
theorem mem_reviews_applyAll {db : Database} {ws : List Write} {r : ReviewRow} (hr : r ∈ (db.applyAll ws).reviews) :
    (∃ r₀, .review r₀ ∈ ws ∧ r₀.id = r.id) ∨ ∃ r₀ ∈ db.reviews, r = r₀.after (updatesOf r₀.id ws) := by
  induction ws generalizing db with
  | nil => exact .inr ⟨r, hr, rfl⟩
  | cons w ws ih =>
    rcases ih hr with ⟨r₀, hm, hid⟩ | ⟨r₁, hm, rfl⟩
    · exact .inl ⟨r₀, List.mem_cons_of_mem _ hm, hid⟩
    cases w with
    | updateReview id u =>
      obtain ⟨r₀, hr₀, rfl⟩ := List.mem_map.mp hm
      refine .inr ⟨r₀, hr₀, ?_⟩
      by_cases hid : r₀.id = id
      · rw [if_pos hid, ReviewUpdate.id_apply]
        simp [updatesOf, Write.updateOf?, hid, ReviewRow.after]
      · rw [if_neg hid]
        simp [updatesOf, Write.updateOf?, Ne.symm hid]
    | review row =>
      rcases List.mem_append.mp hm with hm | hm
      · exact .inr ⟨r₁, hm, rfl⟩
      · rw [List.mem_singleton.mp hm]
        exact .inl ⟨row, List.mem_cons_self, (ReviewRow.id_after _ _).symm⟩
    | _ => exact .inr ⟨r₁, hm, rfl⟩

theorem mem_updatesOf {ws : List Write} {id : Uuid} {u : ReviewUpdate} :
    u ∈ updatesOf id ws ↔ .updateReview id u ∈ ws := by
  simp only [updatesOf, List.mem_filterMap]
  refine ⟨fun ⟨w, hw, hu⟩ => ?_, fun h => ⟨_, h, by simp [Write.updateOf?]⟩⟩
  cases w with
  | updateReview id' u' =>
    simp only [Write.updateOf?] at hu
    split at hu <;> cases hu
    rename_i hid
    exact hid ▸ hw
  | _ => cases hu

/-- Writes that update no review leave the reviews, and may add some. -/
theorem reviews_of_no_update {ws : List Write} (h : ∀ w ∈ ws, ¬ w.IsReviewUpdate) (db : Database) :
    (db.applyAll ws).reviews = db.reviews ++ ws.filterMap Write.review? := by
  induction ws generalizing db with
  | nil => simp
  | cons w ws ih =>
    have hws := ih fun w' hw' => h w' (List.mem_cons_of_mem _ hw')
    cases w with
    | updateReview id u => exact absurd ⟨id, u, rfl⟩ (h _ List.mem_cons_self)
    | _ => simp [hws, apply, Write.review?, List.filterMap_cons]

/-- Writes that update no review, and add only pending ones. -/
theorem Lived.add {db : Database} {log ws : List Write} (h : Lived db log) (hw : ∀ w ∈ ws, ¬ w.IsReviewUpdate)
    (hnew : ∀ r, .review r ∈ ws → (∀ r' ∈ db.reviews, r'.id ≠ r.id) ∧
      ∃ d ∈ (db.applyAll ws).decisions, d.id = r.decisionId ∧ Lives d.envelope.decision [] r) :
    Lived (db.applyAll ws) (log ++ ws) where
  rows r hr := by
    rw [reviews_of_no_update hw] at hr
    rw [updatesOf_append, updatesOf_eq_nil hw, List.append_nil]
    rcases List.mem_append.mp hr with hr | hr
    · obtain ⟨d, hd, hid, hl⟩ := h.rows r hr
      exact ⟨d, (extends_applyAll db ws).decisions hd, hid, hl⟩
    · obtain ⟨hfresh, hd⟩ := hnew r (mem_of_filterMap_review hr)
      rwa [h.absent r.id hfresh]
  absent id hid := by
    rw [reviews_of_no_update hw] at hid
    rw [updatesOf_append, updatesOf_eq_nil hw, List.append_nil]
    exact h.absent id fun r hr => hid r (List.mem_append_left _ hr)

/-- An update of the review `id`, by which the lives of its rows go on. -/
theorem Lived.update {db : Database} {log : List Write} (h : Lived db log) {id : Uuid} {u : ReviewUpdate}
    (hrow : ∃ r ∈ db.reviews, r.id = id)
    (hu : ∀ r ∈ db.reviews, r.id = id → ∀ d ∈ db.decisions, d.id = r.decisionId →
      ∀ us, Lives d.envelope.decision us r → Lives d.envelope.decision (us ++ [u]) (u.apply r)) :
    Lived (db.apply (.updateReview id u)) (log ++ [.updateReview id u]) where
  rows r' hr' := by
    obtain ⟨r, hr, rfl⟩ := List.mem_map.mp hr'
    obtain ⟨d, hd, hdid, hl⟩ := h.rows r hr
    by_cases hid : r.id = id
    · rw [if_pos hid]
      refine ⟨d, hd, hdid.trans (congrArg (·.2.1) (u.link_apply r)).symm, ?_⟩
      have hus : updatesOf (u.apply r).id [.updateReview id u] = [u] := by
        simp [updatesOf, Write.updateOf?, ReviewUpdate.id_apply, hid]
      rw [updatesOf_append, hus, ReviewUpdate.id_apply]
      exact hu r hr hid d hd hdid _ hl
    · rw [if_neg hid]
      refine ⟨d, hd, hdid, ?_⟩
      have hus : updatesOf r.id [.updateReview id u] = [] := by
        simp [updatesOf, Write.updateOf?, Ne.symm hid]
      rwa [updatesOf_append, hus, List.append_nil]
  absent id' hid' := by
    obtain ⟨r, hr, hid⟩ := hrow
    have hne : id ≠ id' := fun he => by
      refine hid' (u.apply r) (List.mem_map.mpr ⟨r, hr, if_pos hid⟩) ?_
      rw [ReviewUpdate.id_apply, hid, he]
    have hus : updatesOf id' [.updateReview id u] = [] := by
      simp [updatesOf, Write.updateOf?, hne]
    rw [updatesOf_append, hus, List.append_nil]
    refine h.absent id' fun r hr he => hid' _ (List.mem_map.mpr ⟨r, hr, rfl⟩) ?_
    split
    · rwa [ReviewUpdate.id_apply]
    · exact he

/-- The release of rows that are not resolved. -/
theorem Lived.release {db : Database} {log : List Write} (h : Lived db log) {ids : List Uuid}
    (hids : ∀ id ∈ ids, (∃ r ∈ db.reviews, r.id = id) ∧ ∀ r ∈ db.reviews, r.id = id → r.resolved = false) :
    Lived (db.applyAll (ids.map fun id => .updateReview id .release))
      (log ++ ids.map fun id => .updateReview id .release) := by
  induction ids generalizing db log with
  | nil => simpa using h
  | cons id ids ih =>
    have hfirst : Lived (db.apply (.updateReview id .release)) (log ++ [.updateReview id .release]) :=
      h.update (hids id List.mem_cons_self).1 fun r hr hid d _ _ us hl =>
        .release hl ((hids id List.mem_cons_self).2 r hr hid)
    have hrest := ih hfirst fun id' hid' => by
      obtain ⟨⟨r, hr, he⟩, hfree⟩ := hids id' (List.mem_cons_of_mem _ hid')
      refine ⟨⟨_, List.mem_map.mpr ⟨r, hr, rfl⟩, ?_⟩, fun r' hr' he' => ?_⟩
      · split
        · rwa [ReviewUpdate.id_apply]
        · exact he
      · obtain ⟨r₀, hr₀, rfl⟩ := List.mem_map.mp hr'
        by_cases hid : r₀.id = id
        · rw [if_pos hid]
          rfl
        · rw [if_neg hid] at he' ⊢
          exact hfree r₀ hr₀ he'
    rw [List.append_assoc] at hrest
    exact hrest

theorem id_of_review? {db : Database} {id : Uuid} {r : ReviewRow} (h : db.review? id = some r) : r.id = id := by
  have := List.find?_some h
  exact of_decide_eq_true this

theorem eq_of_review? {db : Database} (hu : db.UniqueRows) {id : Uuid} {r r' : ReviewRow}
    (h : db.review? id = some r) (hr' : r' ∈ db.reviews) (hid : r'.id = id) : r' = r :=
  List.inj_on_of_nodup_map hu.reviews hr' (List.mem_of_find?_eq_some h) (hid.trans (id_of_review? h).symm)

/-- The reviews that a transaction adds are new. -/
theorem fresh_of_pending {s : World} {i : Nat} (hi : Inv s) {r r' : ReviewRow} (hr : .review r ∈ s.pending i)
    (hr' : r' ∈ s.db.reviews) : r'.id ≠ r.id := by
  intro he
  have hkeys := hi.stored.keys i
  refine List.disjoint_of_nodup_append hkeys (a := .reviewId r.id) ?_
    (List.mem_flatMap.mpr ⟨_, hr, by simp [Write.keys]⟩)
  simp only [keys, List.mem_append, List.mem_map]
  exact .inl (.inr ⟨r', hr', by rw [he]⟩)

/-- A review that a transaction adds is pending, and has its decision. -/
structure NewReview (db : Database) (ws : List Write) (r : ReviewRow) : Prop where
  pending : r.status = .pending
  decision : ∃ d ∈ (db.applyAll ws).decisions, d.id = r.decisionId ∧ Lives d.envelope.decision [] r

theorem new_of_complete {s : World} {i : Nat} {ws : List Write} (hc : Complete i s ws) {r : ReviewRow}
    (hr : .review r ∈ ws) : NewReview s.db ws r := by
  cases hc with
  | nil => cases hr
  | decision e id reviewId t =>
    have hd : ⟨id, e⟩ ∈ (s.db.applyAll (decisionBundle e id reviewId t)).decisions := by
      rw [decisions_decisionBundle]
      exact List.mem_append_right _ List.mem_cons_self
    simp only [decisionBundle] at hr
    split at hr
    · simp only [List.mem_append, List.mem_cons, reduceCtorEq, Write.review.injEq, List.not_mem_nil, or_false,
        false_or] at hr
      subst hr
      exact ⟨rfl, _, hd, rfl, .created ..⟩
    · simp at hr
  | ingest c jobId tenantId t _ => simp [ingestBundle] at hr

/-- A transaction adds a review with its decision. -/
theorem Lived.commit {s : World} {i : Nat} {log : List Write} (hi : Inv s) (h : Lived s.db log)
    (hc : Complete i s (s.pending i)) : Lived (s.db.applyAll (s.pending i)) (log ++ s.pending i) :=
  h.add (hi.stored.kinds i) fun _ hr => ⟨fun _ hr' => fresh_of_pending hi hr hr', (new_of_complete hc hr).decision⟩

/-- Statements outside transactions go on with the lives of the rows, if no
resolved review is released. -/
theorem Lived.alone {s : World} {st : Sql} {u : Uuid} {a : st.Ans} {ws log : List Write}
    (hrows : ∀ rows t, st = .releaseRows rows t → ∀ id ∈ rows.map (·.1),
      (∃ r ∈ s.db.reviews, r.id = id) ∧ ∀ r ∈ s.db.reviews, r.id = id → r.resolved = false)
    (hi : Inv s) (h : Lived s.db log) (hc : st.Alone D s) (hr : st.run s.db s.now u = .ok (a, ws)) :
    Lived (s.db.applyAll ws) (log ++ ws) := by
  have hmakes := makes_of_run hr
  have other : (∀ w ∈ ws, ¬ w.IsReviewUpdate) → Lived (s.db.applyAll ws) (log ++ ws) := fun hw =>
    h.add hw fun r hm => by cases (plain_of_alone hc (hmakes _ hm)).keys
  cases st with
  | releaseExpired t =>
    simp only [Sql.run, Except.ok.injEq, Prod.mk.injEq] at hr
    obtain ⟨-, rfl⟩ := hr
    have hids : ∀ id ∈ (s.db.expiredClaims t).map (·.id), (∃ r ∈ s.db.reviews, r.id = id) ∧
        ∀ r ∈ s.db.reviews, r.id = id → r.resolved = false := by
      intro id hid
      obtain ⟨r, hr, rfl⟩ := List.mem_map.mp hid
      obtain ⟨hr, he⟩ := List.mem_filter.mp hr
      refine ⟨⟨r, hr, rfl⟩, fun r' hr' he' => ?_⟩
      rw [List.inj_on_of_nodup_map hi.unique.reviews hr' hr he']
      exact ReviewRow.not_resolved_of_claimed (of_decide_eq_true (Bool.and_eq_true_iff.mp he).1)
    have := h.release hids
    rwa [List.map_map] at this
  | releaseRows rows t =>
    simp only [Sql.run, Except.ok.injEq, Prod.mk.injEq] at hr
    obtain ⟨-, rfl⟩ := hr
    have := h.release (hrows rows t rfl)
    rwa [List.map_map] at this
  | claimReview id reviewer now expires =>
    simp only [Sql.run] at hr
    split at hr <;> cases hr
    · rename_i r hf
      obtain ⟨hf, hok⟩ := Option.filter_eq_some_iff.mp hf
      refine h.update ⟨r, List.mem_of_find?_eq_some hf, id_of_review? hf⟩
        fun r' hr' hid d _ _ us hl => .claim reviewer now expires hl ?_
      rw [eq_of_review? hi.unique hf hr' hid]
      exact ReviewRow.not_resolved_of_claimable hok
    · exact other fun w hw => by cases hw
  | resolveReview id status decision notes reviewer now =>
    simp only [Sql.run] at hr
    split at hr <;> cases hr
    · rename_i r hf
      obtain ⟨hf, hok⟩ := Option.filter_eq_some_iff.mp hf
      obtain ⟨hclaimed, howner⟩ := of_decide_eq_true hok
      obtain ⟨rfl, hstrip, x, hx, hxid, d₀, hd₀, hd₀id, hreason⟩ := hc
      have hr : r ∈ s.db.reviews := List.mem_of_find?_eq_some hf
      refine h.update ⟨r, hr, id_of_review? hf⟩ fun r' hr' hid d hd hdid us hl => ?_
      obtain rfl := eq_of_review? hi.unique hf hr' hid
      -- the decision whose override was checked is that of the row
      obtain ⟨r₁, hr₁, rfl⟩ := List.mem_map.mp hx
      obtain rfl := eq_of_review? hi.unique hf hr₁ hxid
      obtain rfl := List.inj_on_of_nodup_map hi.unique.decisions hd hd₀ (hdid.trans hd₀id.symm)
      exact .resolve decision now hl hclaimed howner hstrip hreason
    · exact other fun w hw => by cases hw
  | _ =>
    refine other fun w hw => ?_
    rintro ⟨id, u, rfl⟩
    cases hmakes _ hw

/-- Where expired claims are released at once, every row of a run has had a life. -/
theorem lived_of_run (hD : D.isolation = .atomic) {now : Time} {h : List (service D).Step} {c : (service D).Config}
    (hr : Pool.Run Pool.anything (boot D now) h c) : Lived c.world.db (journal h) := by
  refine journal_induction hr ⟨fun _ h => (nomatch h), fun _ _ => rfl⟩ fun {i s q p ws log} hi h hs => ?_
  cases hs with
  | alone idle contract run fault =>
    refine h.alone (fun rows t hst => ?_) hi contract run
    subst hst
    rw [show D.isolation = _ from contract] at hD
    cases hD
  | commit complete => exact h.commit hi complete

/-- Every review row of a run has exactly one of the three shapes, and is
resolved at most once, by the reviewer of its latest claim. -/
theorem review_shapes (hD : D.isolation = .atomic) {now : Time} {h : List (service D).Step} {c : (service D).Config}
    (hr : Pool.Run Pool.anything (boot D now) h c) :
    (∀ r ∈ c.world.db.reviews, ∃ d ∈ c.world.db.decisions, d.id = r.decisionId ∧ r.Shape d.envelope.decision) ∧
    ∀ id, ResolvedOnce (updatesOf id (journal h)) := by
  have hlived := lived_of_run hD hr
  refine ⟨fun r hm => ?_, fun id => ?_⟩
  · obtain ⟨d, hd, hid, hl⟩ := hlived.rows r hm
    exact ⟨d, hd, hid, hl.shape⟩
  · by_cases hex : ∃ r ∈ c.world.db.reviews, r.id = id
    · obtain ⟨r, hm, rfl⟩ := hex
      obtain ⟨d, -, -, hl⟩ := hlived.rows r hm
      exact hl.history.2.2
    · rw [hlived.absent id fun r hm he => hex ⟨r, hm, he⟩]
      exact .of_none fun _ h => (nomatch h)

/-! ## A run -/

/-- The sample is ingested and flagged; its review is 3. -/
def flaggedSample (D : Deployment) : List (service D).Action :=
  ingestSample D 0 1 2 ++ .step 0 {} :: workSample D 1 18

/-- Thread `i`, the reviewer "a", makes `n` requests of a claim; with 9 it is done. -/
def claimSample (D : Deployment) (i n : Nat) : List (service D).Action :=
  .start i (.claimReview ⟨3⟩ ⟨"a", by decide, by decide⟩) :: List.replicate n (.step i {})

/-- Thread `i`, the same reviewer, makes `n` requests of a resolution; with 10 it is done. -/
def resolveSample (D : Deployment) (i n : Nat) : List (service D).Action :=
  .start i (.resolveReview ⟨3⟩ ⟨"a", .block, "nsfw", by decide, by decide, by decide⟩) ::
    List.replicate n (.step i {})

theorem review_shapes_sample : ∃ h c, Pool.Run Pool.anything (boot (sample .atomic) 0) h c ∧
    (∃ r ∈ c.world.db.reviews, r.status = .rejected) ∧
    (∀ r ∈ c.world.db.reviews, ∃ d ∈ c.world.db.decisions, d.id = r.decisionId ∧ r.Shape d.envelope.decision) ∧
    ∀ id, ResolvedOnce (updatesOf id (journal h)) := by
  have hrun : (Pool.replayIf (fun _ _ => true) (flaggedSample (sample .atomic) ++ claimSample (sample .atomic) 2 9 ++
      resolveSample (sample .atomic) 3 10) (boot (sample .atomic) 0)).any
      (fun c => decide (∃ r ∈ c.world.db.reviews, r.status = .rejected)) = true := by
    decide +kernel
  have hany : ∀ (c : (service (sample .atomic)).Config) a, true = true → Pool.anything c a := fun _ _ _ => trivial
  obtain ⟨h, c, hr, hc⟩ := Pool.exists_replayIf hany hrun
  exact ⟨h, c, hr, of_decide_eq_true hc, review_shapes rfl hr⟩

end CM
