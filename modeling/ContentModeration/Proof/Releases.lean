import ContentModeration.Proof.Lives
import ContentModeration.Proof.Requests

/-!
# Releases under READ COMMITTED

RELEASE_EXPIRED_CLAIMS_SQL selects the expired claims of its snapshot
(`Selected`) and then updates these rows, whatever they have become. Where no
other step changes a row in between (`Undisturbed`), only expired claims are
released and a resolved review is final (`releases_sound`); else a review that
was resolved in between is put back into the queue (`resolved_reopened`).
-/

namespace CM

open Database World

variable {D : Deployment}

/-! ## The rows of a release -/

/-- The row is a claim that has expired. -/
structure ReviewRow.Expired (now : Time) (r : ReviewRow) : Prop where
  claimed : r.status = .claimed
  expires : r.claimExpiresAt = none ∨ ∃ t, r.claimExpiresAt = some t ∧ t < now

theorem mem_expiredClaims {db : Database} {now : Time} {r : ReviewRow} :
    r ∈ db.expiredClaims now ↔ r ∈ db.reviews ∧ r.Expired now := by
  have hall : (r.claimExpiresAt.all fun t => decide (t < now)) = true ↔
      r.claimExpiresAt = none ∨ ∃ t, r.claimExpiresAt = some t ∧ t < now := by
    cases r.claimExpiresAt <;> simp
  simp only [expiredClaims, List.mem_filter, Bool.and_eq_true, decide_eq_true_eq, hall]
  exact ⟨fun ⟨hm, hc, he⟩ => ⟨hm, hc, he⟩, fun ⟨hm, hc, he⟩ => ⟨hm, hc, he⟩⟩

/-- The reviews `ids` are claims that have expired. -/
structure Selected (db : Database) (ids : List Uuid) (now : Time) : Prop where
  row : ∀ id ∈ ids, ∃ r ∈ db.reviews, r.id = id
  expired : ∀ r ∈ db.reviews, r.id ∈ ids → r.Expired now

theorem selected_expiredClaims {db : Database} (hu : db.UniqueRows) (now : Time) :
    Selected db ((db.expiredClaims now).map (·.id)) now where
  row id hid := by
    obtain ⟨r, hr, rfl⟩ := List.mem_map.mp hid
    exact ⟨r, (mem_expiredClaims.mp hr).1, rfl⟩
  expired r hr hid := by
    obtain ⟨r', hr', he⟩ := List.mem_map.mp hid
    obtain ⟨hm, hx⟩ := mem_expiredClaims.mp hr'
    exact List.inj_on_of_nodup_map hu.reviews hm hr he ▸ hx

/-- An update that leaves an expired claim. -/
inductive ReviewUpdate.Harmless (now : Time) : ReviewUpdate → Prop where
  | claim {reviewer t expires} (h : expires < now) : Harmless now (.claim reviewer t expires)

theorem ReviewRow.Expired.after {r : ReviewRow} {now : Time} (h : r.Expired now) {us : List ReviewUpdate}
    (hu : ∀ u ∈ us, u.Harmless now) : (r.after us).Expired now := by
  induction us generalizing r with
  | nil => exact h
  | cons u us ih =>
    refine ih ?_ fun v hv => hu v (List.mem_cons_of_mem _ hv)
    cases hu u List.mem_cons_self with
    | claim hlt => exact ⟨rfl, .inr ⟨_, rfl, hlt⟩⟩

/-- After a change of the database, a review is a new one, which is pending, or one
that was there with the updates of it. -/
theorem row_of_step {s : World} {i : Nat} {q : Cmd} {p : Pick} {ws : List Write} (hi : Inv s)
    (hs : DbStep D i s q p ws) {r : ReviewRow} (hr : r ∈ (s.db.applyAll ws).reviews) :
    (r.status = .pending ∧ ∀ r' ∈ s.db.reviews, r'.id ≠ r.id) ∨
    ∃ r₀ ∈ s.db.reviews, r = r₀.after (updatesOf r₀.id ws) := by
  cases hs with
  | alone idle contract run fault =>
    refine (mem_reviews_applyAll hr).imp_left fun ⟨r₀, hm, _⟩ => ?_
    cases (plain_of_alone contract (makes_of_run run _ hm)).keys
  | commit complete =>
    have hkinds := hi.stored.kinds i
    rw [reviews_of_no_update hkinds] at hr
    rcases List.mem_append.mp hr with hr | hr
    · exact .inr ⟨r, hr, by rw [updatesOf_eq_nil hkinds]; rfl⟩
    · have hm := mem_of_filterMap_review hr
      exact .inl ⟨(new_of_complete complete hm).pending, fun r' hr' => fresh_of_pending hi hm hr'⟩

theorem Selected.step {s : World} {i : Nat} {q : Cmd} {p : Pick} {ws : List Write} {ids : List Uuid} {now : Time}
    (h : Selected s.db ids now) (hi : Inv s) (hs : DbStep D i s q p ws)
    (hu : ∀ id u, .updateReview id u ∈ ws → id ∈ ids → u.Harmless now) : Selected (s.db.applyAll ws) ids now where
  row id hid := by
    obtain ⟨r, hr, he⟩ := h.row id hid
    exact ⟨_, after_mem_reviews hr ws, (r.id_after _).trans he⟩
  expired r hr hid := by
    rcases row_of_step hi hs hr with ⟨-, hnew⟩ | ⟨r₀, hr₀, rfl⟩
    · obtain ⟨r₁, hr₁, he₁⟩ := h.row r.id hid
      exact absurd he₁ (hnew r₁ hr₁)
    · rw [ReviewRow.id_after] at hid
      exact (h.expired r₀ hr₀ hid).after fun u hm => hu _ u (mem_updatesOf.mp hm) hid

/-! ## Undisturbed releases -/

/-- While a release is between its two halves, no other step changes a row that
it has selected, except by a claim that has expired as well. -/
structure Undisturbed (c : (service D).Config) (a : (service D).Action) : Prop where
  rows {i j e f q p rows now k l id u} : c.At i e (.sql (.releaseRows rows now)) k → a = .step j p → j ≠ i →
    c.At j f q l → .updateReview id u ∈ c.world.commits j q p → id ∈ rows.map (·.1) → u.Harmless now

/-- What a thread knows of the release that it is about to make. -/
def ReleaseKnown (x : Option Cmd) (s : World) : Prop :=
  ∀ rows now, x = some (.sql (.releaseRows rows now)) → Selected s.db (rows.map (·.1)) now

theorem ReleaseKnown.own {s s' : World} {i : Nat} {q : Cmd} {p : Pick} {r : Except Exn q.Ans} (hi : Inv s)
    (hc : Contract D i s q) (hx : World.exec i q p s = some (r, s')) (x : Option Cmd) :
    ReleaseKnown (releaseMonitor.after x q r) s' := by
  intro rows now he
  cases r with
  | error x => cases he
  | ok a =>
    cases q with
    | sql st =>
      cases st with
      | selectExpired t =>
        cases he
        cases ht : s.txn i with
        | some txn =>
          simp only [Contract, ht] at hc
          exact hc.elim
        | none =>
          obtain ⟨-, ws, hr, rfl⟩ := runSql_ok ht hx
          cases hr
          have := selected_expiredClaims hi.unique now
          rwa [List.map_map]
      | _ => cases he
    | _ => cases he

/-- In a run whose releases are undisturbed, the rows that are about to be
released are expired claims. -/
theorem selected_of_run {now : Time} {h : List (service D).Step} {c : (service D).Config}
    (hr : Pool.Run Undisturbed (boot D now) h c) {i : Nat} {e : Entry} {rows : List (Uuid × Option String)} {t : Time}
    {k : Except Exn (List (Uuid × Option String)) → M Out} (hat : c.At i e (.sql (.releaseRows rows t)) k) :
    Selected c.world.db (rows.map (·.1)) t := by
  have hphase := hr.follows (fun _ => rfl) (M := fun _ => releaseMonitor) (code_releases D)
    (G := fun _ _ x _ s => ReleaseKnown x s) (fun _ _ _ _ _ he => (nomatch he))
    (fun hr _ hat hx _ _ => by
      have hs := sound_of_reachable hr.reachable
      exact ReleaseKnown.own hs.inv (hs.pre_of_at (valid D False) hat).1 hx _)
    (fun {h c a c' i e p x} hr ha hn hm hi hp hG => by
      intro rows now he
      subst he
      have hsel := hG rows now rfl
      cases p with
      | ret a => cases hp
      | throw x => cases hp
      | call q k =>
        obtain rfl := hp.1.1 _ rfl
        rw [db_of_next hn]
        rcases writes_ok hr.reachable hn with hnil | ⟨j, p, f, q, l, rfl, hat, hws, hstep⟩
        · rw [hnil]
          exact hsel
        · refine hsel.step (inv_of_reachable hr.reachable) hstep fun id u hu hid => ?_
          rw [hws] at hu
          exact ha.rows hi rfl (fun hji => hm (congrArg some hji)) hat hu hid) i
  exact hphase.second hat trivial rows t rfl

/-- In a run whose releases are undisturbed, every row has had a life. -/
theorem lived_of_undisturbed {now : Time} {h : List (service D).Step} {c : (service D).Config}
    (hr : Pool.Run Undisturbed (boot D now) h c) : Lived c.world.db (journal h) := by
  induction hr with
  | nil => exact ⟨fun _ h => (nomatch h), fun _ _ => rfl⟩
  | @cons h c a c' hr ha hn ih =>
    have hi := inv_of_reachable hr.reachable
    rw [db_of_next hn, journal]
    rcases writes_ok hr.reachable hn with hnil | ⟨j, p, e, q, k, rfl, hat, hws, hstep⟩
    · rw [hnil, List.append_nil]
      exact ih
    · clear hws
      generalize Step.writes _ = ws at hstep ⊢
      cases hstep with
      | alone idle contract run fault =>
        refine ih.alone (fun rows t hst => ?_) hi contract run
        subst hst
        have hsel := selected_of_run hr hat
        exact fun id hid => ⟨hsel.row id hid, fun r hr he =>
          ReviewRow.not_resolved_of_claimed (hsel.expired r hr (he ▸ hid)).claimed⟩
      | commit complete => exact ih.commit hi complete

/-- The time that a statement releases claims by. -/
def Cmd.releaseTime? : Cmd → Option Time
  | .sql (.releaseExpired now) | .sql (.releaseRows _ now) => some now
  | _ => none

/-- What a step of an undisturbed run does to a row. -/
theorem update_of_step {now : Time} {h : List (service D).Step} {c : (service D).Config}
    (hr : Pool.Run Undisturbed (boot D now) h c) {j : Nat} {e : Entry} {q : Cmd} {p : Pick}
    {k : Except Exn q.Ans → M Out} {ws : List Write} (hat : c.At j e q k) (hs : DbStep D j c.world q p ws)
    {r : ReviewRow} (hm : r ∈ c.world.db.reviews) {u : ReviewUpdate} (hu : .updateReview r.id u ∈ ws) :
    r.resolved = false ∧ (u = .release → ∃ t, q.releaseTime? = some t ∧ r.Expired t) := by
  have hi := inv_of_reachable hr.reachable
  have released : ∀ {t}, q.releaseTime? = some t → r.Expired t →
      r.resolved = false ∧ (u = .release → ∃ t, q.releaseTime? = some t ∧ r.Expired t) := fun ht hx =>
    ⟨ReviewRow.not_resolved_of_claimed hx.claimed, fun _ => ⟨_, ht, hx⟩⟩
  cases hs with
  | commit complete => exact absurd ⟨_, _, rfl⟩ (hi.stored.kinds j _ hu)
  | alone idle contract run fault =>
    generalize hid : r.id = id at hu
    cases makes_of_run run _ hu with
    | releaseExpired expired =>
      obtain ⟨hm', hx⟩ := mem_expiredClaims.mp expired
      exact released rfl (List.inj_on_of_nodup_map hi.unique.reviews hm' hm hid.symm ▸ hx)
    | releaseRows mem =>
      exact released rfl ((selected_of_run hr hat).expired r hm (hid ▸ List.mem_map_of_mem mem))
    | claim row ok =>
      rw [eq_of_review? hi.unique row hm hid]
      exact ⟨ReviewRow.not_resolved_of_claimable ok, fun h => (nomatch h)⟩
    | resolve row claimed owner =>
      rw [eq_of_review? hi.unique row hm hid]
      exact ⟨ReviewRow.not_resolved_of_claimed claimed, fun h => (nomatch h)⟩

/-- In a run whose releases are undisturbed, a resolved row is final, and only
expired claims are released. -/
theorem releases_sound {now : Time} {h : List (service D).Step} {c : (service D).Config}
    (hr : Pool.Run Undisturbed (boot D now) h c) :
    (∀ st ∈ h, ∀ r ∈ st.before.world.db.reviews, r.resolved = true → r ∈ c.world.db.reviews) ∧
    ∀ st ∈ h, ∀ i p e q k, st.action = .step i p → st.before.At i e q k → ∀ r ∈ st.before.world.db.reviews,
      .updateReview r.id .release ∈ st.before.world.commits i q p → ∃ t, q.releaseTime? = some t ∧ r.Expired t := by
  induction hr with
  | nil => exact ⟨fun _ h => (nomatch h), fun _ h => (nomatch h)⟩
  | @cons h c a c' hr ha hn ih =>
    -- no step changes a resolved row
    have final : ∀ r ∈ c.world.db.reviews, r.resolved = true → r ∈ c'.world.db.reviews := by
      intro r hm hres
      rw [db_of_next hn]
      rcases writes_ok hr.reachable hn with hnil | ⟨j, p, e, q, k, rfl, hat, hws, hstep⟩
      · rw [hnil]
        exact hm
      · have hnone : updatesOf r.id (Step.writes ⟨c, .step j p, c'⟩) = [] := by
          refine List.eq_nil_iff_forall_not_mem.mpr fun u hu => ?_
          have hfree := (update_of_step hr hat hstep hm (mem_updatesOf.mp hu)).1
          rw [hres] at hfree
          cases hfree
        have := after_mem_reviews hm (Step.writes ⟨c, .step j p, c'⟩)
        rwa [hnone] at this
    refine ⟨fun st hst r hm hres => ?_, fun st hst i p e q k hact hat r hm hu => ?_⟩
    · rcases List.mem_cons.mp hst with rfl | hst
      · exact final r hm hres
      · exact final r (ih.1 st hst r hm hres) hres
    · rcases List.mem_cons.mp hst with rfl | hst
      · cases hact
        rcases writes_ok hr.reachable hn with hnil | ⟨j, p, e', q', k', hj, hat', hws, hstep⟩
        · rw [writes_of_at hat] at hnil
          rw [hnil] at hu
          cases hu
        · cases hj
          cases hat.symm.trans hat'
          rw [hws] at hstep
          exact (update_of_step hr hat hstep hm hu).2 rfl
      · exact ih.2 st hst i p e q k hact hat r hm hu

/-! ## Runs -/

/-- Thread `i` makes `n` requests of a listing; with 4 it has released the expired claims. -/
def listSample (D : Deployment) (i n : Nat) : List (service D).Action :=
  .start i (.listReviews { limit_ge := by decide, limit_le := by decide }) :: List.replicate n (.step i {})

/-- Thread `i` makes `n` more requests. -/
def goOnSample (D : Deployment) (i n : Nat) : List (service D).Action := List.replicate n (.step i {})

/-- The time to live of a claim ends. -/
def expireSample (D : Deployment) : (service D).Action := .env (.tick (seconds claimTtlSeconds + 1))

def releasing? (c : (service D).Config) (i : Nat) : Bool :=
  match c.threads i with
  | some ⟨_, some (.call (.sql (.releaseRows ..)) _)⟩ => true
  | _ => false

/-- A check that a step is undisturbed: of `n` threads, none moves while another is
about to release rows. -/
def undisturbed? (n : Nat) (c : (service D).Config) : (service D).Action → Bool
  | .start i _ => decide (i < n)
  | .step j _ => (List.range n).all fun i => decide (i = j) || !releasing? c i
  | _ => true

theorem undisturbed_of_check {n : Nat} {c : (service D).Config} {a : (service D).Action}
    (hn : ∀ i, n ≤ i → c.threads i = none) (h : undisturbed? n c a = true) : Undisturbed c a where
  rows {i j e f q p rows now k l id u} hat ha hne _ _ _ := by
    have hi : i < n := by
      refine Nat.lt_of_not_le fun hle => ?_
      have := hn i hle
      rw [show c.threads i = _ from hat] at this
      cases this
    have hrel : releasing? c i = true := by
      simp only [releasing?]
      rw [show c.threads i = _ from hat]
    rw [ha] at h
    have := List.all_eq_true.mp h i (List.mem_range.mpr hi)
    rw [hrel] at this
    exact absurd (of_decide_eq_true (by simpa using this)) hne.symm

theorem releases_sound_sample : ∃ h c, Pool.Run Undisturbed (boot (sample .readCommitted) 0) h c ∧
    (∃ r ∈ c.world.db.reviews, r.resolved = true) ∧
    (∀ st ∈ h, ∀ r ∈ st.before.world.db.reviews, r.resolved = true → r ∈ c.world.db.reviews) ∧
    ∀ st ∈ h, ∀ i p e q k, st.action = .step i p → st.before.At i e q k → ∀ r ∈ st.before.world.db.reviews,
      .updateReview r.id .release ∈ st.before.world.commits i q p → ∃ t, q.releaseTime? = some t ∧ r.Expired t := by
  have hrun : (Pool.replayIf (undisturbed? 6) (flaggedSample (sample .readCommitted) ++
      claimSample (sample .readCommitted) 2 10 ++ expireSample _ :: listSample _ 3 4 ++
      claimSample (sample .readCommitted) 4 10 ++ resolveSample (sample .readCommitted) 5 10)
      (boot (sample .readCommitted) 0)).any (fun c =>
          decide (∃ r ∈ c.world.db.reviews, r.resolved = true)) = true := by
    decide +kernel
  have hcheck : ∀ (c : (service (sample .readCommitted)).Config) a, undisturbed? 6 c a = true →
      undisturbed? 6 c a = true :=
    fun _ _ h => h
  obtain ⟨h, c, hr, hc⟩ := Pool.exists_replayIf hcheck hrun
  have hr : Pool.Run Undisturbed (boot (sample .readCommitted) 0) h c := hr.imp fun hr ha =>
    undisturbed_of_check (fun i hi => hr.threads_none (fun _ => rfl) (fun h => of_decide_eq_true h) hi) ha
  exact ⟨h, c, hr, of_decide_eq_true hc, releases_sound hr⟩

/-- A reviewer resolves the review after its lock check, while a listing has
selected the claim, which has expired in between. -/
theorem resolved_reopened : ¬ ∀ c₁ c₂, Pool.Reachable (boot (sample .readCommitted) 0) c₁ →
    Pool.Reachable c₁ c₂ → ∀ r ∈ c₁.world.db.reviews, r.resolved = true → r ∈ c₂.world.db.reviews := by
  intro h
  have hrun : (Pool.replay (flaggedSample (sample .readCommitted) ++ claimSample (sample .readCommitted) 2 10 ++
      resolveSample (sample .readCommitted) 3 2 ++ expireSample _ :: listSample _ 4 3 ++ goOnSample _ 3 3)
      (boot (sample .readCommitted) 0)).any (fun c₁ => (Pool.replay (goOnSample _ 4 1) c₁).any fun c₂ =>
        decide (∃ r ∈ c₁.world.db.reviews, r.resolved = true ∧ r ∉ c₂.world.db.reviews)) = true := by
    decide +kernel
  obtain ⟨c₁, hc₁, hrun⟩ := Pool.exists_replay hrun
  obtain ⟨c₂, hc₂, hrun⟩ := Pool.exists_replay hrun
  obtain ⟨r, hm, hres, hnot⟩ := of_decide_eq_true hrun
  exact hnot (h c₁ c₂ hc₁ hc₂ r hm hres)

end CM
