import ContentModeration.Impl.Review
import ContentModeration.Proof.Specs

/-!
# The review routes follow the rules

A claim is written with a time that is past and the end that goes with it
(`claimReview_spec`). A review is resolved with a stripped note that is long
enough for an override (`resolveReview_spec`).
-/

namespace CM

open Database World

variable {D : Deployment} {A : Prop} {i : Nat} {e : Entry} {α : Type} {K : World → Prop}

/-! ## The clock -/

theorem steady_past (now : Time) : Steady i fun s => now ≤ s.now := fun _ _ hk h =>
  Nat.le_trans h hk.grows.now

theorem utcnow_spec : Spec D A i e (fun _ => True) (request .utcnow) fun r s => match r with
    | .ok now => now ≤ s.now
    | .error _ => True := by
  refine Rules.Triple.perform (valid D A) (steady_const True).stable (fun s hi h => ⟨trivial, ?_⟩)
    (fun r => ?_) ?_
  · exact fun hA u hu hj => .inr (h.1.clear hA u hu hj)
  · cases r with
    | ok now => exact (steady_past now).stable
    | error x => exact (steady_const True).stable
  · intro s p r s' _ h _ hx _
    cases hx
    exact ⟨⟨h.1.txn, h.1.clear⟩, Nat.le_refl _⟩

/-! ## The lock -/

/-- A program that needs no more than `K`, and keeps it. -/
abbrev Keeps (D : Deployment) (A : Prop) (i : Nat) (e : Entry) (K : World → Prop) (p : M α) : Prop :=
  Spec D A i e K p fun _ s => K s

theorem Keeps.ret (hK : Steady i K) (a : α) : Keeps D A i e K (pure a) := Spec.ret hK fun _ _ h => h

theorem Keeps.request {q : Cmd} (hq : Ordinary q) (hK : Steady i K)
    (hc : ∀ s, s.txn i = none → Contract D i s q) : Keeps D A i e K (request q) :=
  Spec.mono (request_spec hq hK fun s _ ht _ => hc s ht) (fun _ h => h) fun _ _ h => h.1

theorem Keeps.bind {β : Type} {p : M α} {f : α → M β} (hp : Keeps D A i e K p)
    (hf : ∀ a, Keeps D A i e K (f a)) : Keeps D A i e K (p >>= f) :=
  Spec.bind hp (fun _ _ h => h) hf

theorem acquireReviewClaim_spec (hK : Steady i K) (reviewId reviewer : String) :
    Keeps D A i e K (acquireReviewClaim reviewId reviewer claimTtlSeconds) := by
  have get : Keeps D A i e K (request (.redisGet (claimKey reviewId))) :=
    Keeps.request trivial hK fun _ _ => trivial
  have refresh : ∀ current : Option String, Keeps D A i e K (do
      if current = some reviewer then
        let _ ← request (.redisExpire (claimKey reviewId) claimTtlSeconds)
        return (true, some reviewer)
      else return (false, current)) := by
    intro current
    split
    · exact .bind (Keeps.request trivial hK fun _ _ => Nat.le_refl _) fun _ => .ret hK _
    · exact .ret hK _
  refine get.bind fun current => ?_
  split
  · refine .bind (Keeps.request trivial hK fun _ _ => Nat.le_refl _) fun acquired => ?_
    split
    · exact .ret hK _
    · exact get.bind refresh
  · exact refresh current

theorem releaseReviewClaim_spec (hK : Steady i K) (reviewId reviewer : String) :
    Keeps D A i e K (releaseReviewClaim reviewId reviewer) := by
  refine .bind (Keeps.request trivial hK fun _ _ => trivial) fun current => ?_
  split
  · exact Keeps.request trivial hK fun _ _ => trivial
  · exact .ret hK _

/-! ## Expired claims -/

theorem Keeps.sql {st : Sql} (hK : Steady i K) (h : ∀ s, st.Alone D s) : Keeps D A i e K (sql st) :=
  Keeps.request trivial hK fun s ht => contract_sql ht (h s)

theorem auditReleased_spec (hK : Steady i K) (rows : List (Uuid × Option String)) :
    Keeps D A i e K (auditReleased rows) := by
  induction rows with
  | nil => exact .ret hK _
  | cons row rows ih =>
    exact .bind (Keeps.sql hK fun _ => show "review" ≠ "decision" by decide) fun _ => ih

theorem releaseExpiredClaims_spec (hK : Steady i K) (now : Time) :
    Keeps D A i e K (releaseExpiredClaims D.isolation now) := by
  refine .bind ?_ fun rows => .bind (auditReleased_spec hK rows) fun _ => .ret hK _
  simp only [releaseRows]
  split
  · exact Keeps.sql hK fun _ => trivial
  · rename_i h
    exact .bind (Keeps.sql hK fun _ => h) fun expired => Keeps.sql hK fun _ => h

/-! ## The routes -/

theorem rowToReview_spec (hK : Steady i K) (row : ReviewFull) : Keeps D A i e K (rowToReview row) :=
  .bind (Keeps.request trivial hK fun _ _ => trivial) fun _ => .ret hK _

theorem rowsToReviews_spec (hK : Steady i K) (rows : List ReviewFull) :
    Keeps D A i e K (rowsToReviews rows) := by
  induction rows with
  | nil => exact .ret hK _
  | cons row rows ih => exact .bind (rowToReview_spec hK row) fun _ => ih.bind fun _ => .ret hK _

theorem fullToReview_spec (hK : Steady i K) (full : Option ReviewFull) :
    Keeps D A i e K (fullToReview full) := by
  cases full with
  | some row => exact rowToReview_spec hK row
  | none => exact Spec.throw hK fun _ _ h => h

theorem listReviews_spec (req : ListRequest) :
    Spec D A i e (fun _ => True) (listReviews D.isolation req) fun _ _ => True := by
  have hK : Steady i fun _ => True := steady_const True
  refine Spec.skip trivial hK (fun _ _ => trivial) (fun _ _ _ _ => trivial) fun _ => ?_
  refine Spec.bind (P := fun _ _ => True) (Spec.mono utcnow_spec (fun _ h => h) fun _ _ _ => trivial)
    (fun _ _ h => h) fun now => Keeps.bind (releaseExpiredClaims_spec hK now) fun _ => ?_
  split
  · exact Keeps.bind (Keeps.sql hK fun _ => trivial) fun rows => rowsToReviews_spec hK rows
  · exact Keeps.bind (Keeps.sql hK fun _ => trivial) fun rows => rowsToReviews_spec hK rows

theorem refuseClaim_spec (hK : Steady i K) (reviewId : Uuid) (reviewer : String) :
    Keeps D A i e K (refuseClaim reviewId reviewer) := by
  refine .bind (releaseReviewClaim_spec hK _ _) fun _ => .bind (Keeps.sql hK fun _ => trivial) fun found => ?_
  cases found with
  | none => exact Spec.throw hK fun _ _ h => h
  | some row => exact Spec.throw hK fun _ _ h => h

theorem claimReview_spec (reviewId : Uuid) (body : ClaimRequest) :
    Spec D A i e (fun _ => True) (claimReview D.isolation reviewId body) fun _ _ => True := by
  refine Spec.bind utcnow_spec (fun _ _ _ => trivial) fun now => ?_
  have hK : Steady i fun s => now ≤ s.now := steady_past now
  have hclaim : ∀ s : World, now ≤ s.now → (Sql.claimReview reviewId body.reviewer now
      (now + seconds claimTtlSeconds)).Alone D s := fun _ h => ⟨h, rfl⟩
  refine Spec.mono (K := fun s => now ≤ s.now) (?_ : Keeps D A i e (fun s => now ≤ s.now) _) (fun _ h => h)
    fun _ _ _ => trivial
  refine .bind (acquireReviewClaim_spec hK _ _) fun acquired => ?_
  obtain ⟨ok, owner⟩ := acquired
  dsimp only
  split
  · refine .bind (Keeps.request trivial hK fun _ _ => trivial) fun _ =>
      .bind (releaseExpiredClaims_spec hK now) fun _ => ?_
    refine Spec.bind (request_spec (q := .sql _) trivial hK fun s _ ht h => contract_sql ht (hclaim s h))
      (fun _ _ h => h.1) fun claimed => ?_
    refine Spec.mono (K := fun s => now ≤ s.now) ?_ (fun _ h => h.1) fun _ _ h => h
    cases claimed with
    | none => exact refuseClaim_spec hK _ _
    | some _ =>
      refine Keeps.bind (Keeps.sql hK fun _ => trivial) fun full => ?_
      exact Keeps.bind (Keeps.sql hK fun _ => show "review" ≠ "decision" by decide) fun _ => fullToReview_spec hK full
  · exact Spec.throw hK fun _ _ h => h

/-- The model's decision on a review. -/
def ModelSaid (id : Uuid) (model : Decision) (s : World) : Prop :=
  ∃ x ∈ s.db.reviews.map ReviewRow.link, x.1 = id ∧ ∃ d ∈ s.db.decisions, d.id = x.2.1 ∧
    d.envelope.decision = model

theorem lasting_modelSaid (id : Uuid) (model : Decision) : Lasting (ModelSaid id model) :=
  fun _ _ hg ⟨x, hx, hid, d, hd, h⟩ => ⟨x, hg.db.reviews hx, hid, d, hg.db.decisions hd, h⟩

theorem Answered.modelDecision {id : Uuid} {model : Decision} {s : World}
    (h : Answered i K (.sql (.modelDecision id)) (some model) s) : ModelSaid id model s := by
  obtain ⟨s₀, u, ws, -, -, hr, hk⟩ := h.sql
  refine lasting_modelSaid id model _ _ hk.grows ?_
  simp only [Sql.run, Except.ok.injEq, Prod.mk.injEq] at hr
  obtain ⟨hm, rfl⟩ := hr
  obtain ⟨r, hr, hm⟩ := Option.bind_eq_some_iff.mp hm
  obtain ⟨d, hd, hm⟩ := Option.bind_eq_some_iff.mp hm
  cases hm
  have hrid : r.id = id := by simpa using List.find?_some hr
  have hdid : d.id = r.decisionId := by simpa using List.find?_some hd
  exact ⟨r.link, List.mem_map_of_mem (List.mem_of_find?_eq_some hr), hrid, d, List.mem_of_find?_eq_some hd,
    hdid, rfl⟩

theorem resolveLocked_spec (reviewId : Uuid) (body : ResolveRequest) (now : Time) :
    Spec D A i e (fun _ => True) (resolveLocked reviewId body now) fun _ _ => True := by
  have hT : Steady i fun _ => True := steady_const True
  refine Spec.skip trivial hT (fun _ _ => trivial) (fun _ _ _ _ => trivial) fun _ => ?_
  refine Spec.request (q := .sql _) trivial hT (fun s _ ht _ => contract_sql ht trivial)
    (fun _ _ _ _ => trivial) fun found => ?_
  cases found with
  | none => exact Spec.throw (hT.and (steady_answered _ _)) fun _ _ _ => trivial
  | some model =>
    dsimp only
    split
    · exact Spec.throw (hT.and (steady_answered _ _)) fun _ _ _ => trivial
    · rename_i hnotes
      have hov : isOverride body.reviewerDecision model = true → 3 ≤ (strip body.notes).length := by
        intro h
        simpa [h] using hnotes
      have hK : Steady i (ModelSaid reviewId model) := (lasting_modelSaid reviewId model).steady
      refine Spec.mono (K := ModelSaid reviewId model) ?_ (fun s h => Answered.modelDecision h.2) fun _ _ h => h
      refine Spec.request (q := .sql _) trivial hK (fun s _ ht h => contract_sql ht ?_) (fun _ _ _ _ => trivial)
        fun resolved => ?_
      · obtain ⟨x, hx, hid, d, hd, hdid, hm⟩ := h
        exact ⟨rfl, strip_strip _, x, hx, hid, d, hd, hdid, fun h => hov (hm ▸ h)⟩
      · refine Spec.mono (K := fun _ => True) ?_ (fun _ _ => trivial) fun _ _ h => h
        cases resolved with
        | none => exact Spec.throw hT fun _ _ h => h
        | some _ =>
          refine Keeps.bind (Keeps.sql hT fun _ => show "review" ≠ "decision" by decide) fun _ => ?_
          refine Keeps.bind (Keeps.sql hT fun _ => trivial) fun full => ?_
          exact Keeps.bind (releaseReviewClaim_spec hT _ _) fun _ => fullToReview_spec hT full

theorem resolveReview_spec (reviewId : Uuid) (body : ResolveRequest) :
    Spec D A i e (fun _ => True) (resolveReview reviewId body) fun _ _ => True := by
  have hT : Steady i fun _ => True := steady_const True
  refine Spec.bind utcnow_spec (fun _ _ _ => trivial) fun now => ?_
  refine Spec.mono (K := fun _ => True) ?_ (fun _ _ => trivial) fun _ _ h => h
  refine Spec.skip trivial hT (fun _ _ => trivial) (fun _ _ _ _ => trivial) fun owner => ?_
  cases owner with
  | none => exact Spec.throw hT fun _ _ _ => trivial
  | some owner =>
    dsimp only
    split
    · exact Spec.throw hT fun _ _ _ => trivial
    · exact resolveLocked_spec reviewId body now

end CM
