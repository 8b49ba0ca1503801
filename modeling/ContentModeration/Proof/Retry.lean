import ContentModeration.Proof.Claims
import ContentModeration.Proof.Provenance

/-!
# Retries of a failed ingest

`accept_image` takes the ingest lock of its content and never gives it back; only its time to
live ends it. An ingest that fails before its job is committed leaves no rows
(`unseen_of_reachable`), and of Redis at most that lock (`wlp_lockLasts`). A retry that finds the
lock is refused as a concurrent ingest; one that finds it free accepts the content as new, if the
database takes its texts and the queue its message (`wlp_acceptImage`). So such a retry works if and only if no
lock lasts to it (`retried_iff`), which is not so at once after a failed upload (`retry_refused`).
-/

namespace CM

open Database World

variable {D : Deployment} {i : Nat} {s s' : World} {digest : String} {now : Time}

/-! ## What is committed of an ingest -/

/-- The content item has a drawn identifier. -/
def Write.DrawnIn (s : World) : Write → Prop
  | .content c => ∃ k, (c.id, k) ∈ s.drawn
  | _ => True

theorem Write.DrawnIn.mono {w : Write} (h : w.DrawnIn s) (hd : s.drawn ⊆ s'.drawn) : w.DrawnIn s' := by
  cases w with
  | content c => exact h.imp fun _ hk => hd hk
  | _ => trivial

theorem drawn_of_run {ok : (service D).Config → (service D).Action → Prop} {h : List (service D).Step}
    {c : (service D).Config}
    (hr : Pool.Run ok (boot D now) h c) :
    (∀ i, ∀ w ∈ c.world.pending i, w.DrawnIn c.world) ∧ ∀ w ∈ journal h, w.DrawnIn c.world := by
  induction hr with
  | nil => exact ⟨fun _ _ h => (by cases h), fun _ h => (by cases h)⟩
  | @cons h c a c' hr ha hn ih =>
    have hd := (grows_of_next hr.reachable hn).drawn
    refine ⟨fun i w hw => ?_, fun w hw => ?_⟩
    · rcases pending_of_next hr.reachable hn hw with hw | ⟨p, e, st, k, rfl, hat, -, db, t, hm⟩
      · exact (ih.1 i w hw).mono hd
      · obtain ⟨x, ⟨hq, -⟩, hx⟩ := grounded_of_run hr i e _ hat
        cases hm with
        | content =>
          obtain ⟨-, settings, req, rfl, hdrawn, -⟩ := hq
          exact ⟨i, hd (hx.drawn _ hdrawn)⟩
        | _ => trivial
    · rcases List.mem_append.mp hw with hw | hw
      · exact (ih.2 w hw).mono hd
      · rcases writes_ok hr.reachable hn with hnil | ⟨j, p, e, q, k, rfl, hat, -, hstep⟩
        · rw [hnil] at hw
          cases hw
        · generalize Step.writes _ = ws at hw hstep
          cases hstep with
          | alone idle contract run fault =>
            have hp := plain_of_alone contract (makes_of_run run w hw)
            cases w with
            | content c => cases hp.keys
            | _ => trivial
          | commit complete => exact (ih.1 j w hw).mono hd

/-- The content items have drawn identifiers. -/
theorem drawn_of_content {c : (service D).Config} (hc : Pool.Reachable (boot D now) c) {row : ContentItem}
    (hm : row ∈ c.world.db.contents) : ∃ k, (row.id, k) ∈ c.world.drawn := by
  obtain ⟨h, hr⟩ := hc
  rw [db_of_run hr, contents_applyAll] at hm
  exact (drawn_of_run hr).2 _ (mem_of_filterMap_content hm)

/-- A content item is committed together with its job. -/
theorem job_of_content {c : (service D).Config} (hc : Pool.Reachable (boot D now) c) :
    ∀ row ∈ c.world.db.contents, ∃ x ∈ c.world.db.jobs.map Job.link, x.2.2 = row.contentHash := by
  refine database_induction hc (J := fun db =>
    ∀ row ∈ db.contents, ∃ x ∈ db.jobs.map Job.link, x.2.2 = row.contentHash)
    (fun _ h => (by cases h)) fun {i s q p ws} _ hJ hstep row hm => ?_
  have hext := extends_applyAll s.db ws
  have old : row ∈ s.db.contents → ∃ x ∈ (s.db.applyAll ws).jobs.map Job.link, x.2.2 = row.contentHash := fun hm => by
    obtain ⟨x, hx, he⟩ := hJ row hm
    exact ⟨x, hext.jobs hx, he⟩
  rw [contents_applyAll] at hm
  rcases List.mem_append.mp hm with hm | hm
  · exact old hm
  have hw := mem_of_filterMap_content hm
  cases hstep with
  | alone idle contract run fault =>
    have hkeys := (plain_of_alone contract (makes_of_run run _ hw)).keys
    cases hkeys
  | commit complete =>
    generalize hws : s.pending i = ws at hw complete hext ⊢
    cases complete with
    | nil => cases hw
    | decision e id reviewId t =>
      simp only [decisionBundle] at hw
      split at hw <;> simp at hw
    | ingest content jobId tenantId t drawn =>
      have hrow : row = content := by simpa [ingestBundle] using hw
      refine ⟨(jobId, content.id, content.contentHash), ?_, by rw [hrow]⟩
      rw [jobs_applyAll JobUpdate.link_apply]
      simp [ingestBundle, Write.job?, Job.link]

/-! ## The lock of a failed ingest -/

/-- The key of the ingest lock. -/
def ingestKey (digest : String) : String := "ingest:" ++ digest

/-- The ingest lock of the content is there, and its time to live reaches to `T`. -/
def LockLasts (digest : String) (T : Time) (s : World) : Prop := ∃ v e, (ingestKey digest, v, e) ∈ s.redis ∧ T ≤ e

/-- The request takes the ingest lock of the content, with a time to live that reaches to `T`. -/
def TakesLock (digest : String) (T : Time) (y : (faulty D).Served) : Prop :=
  y.req = .redisSetNx (ingestKey digest) "1" 120 ∧ World.redisGet y.before (ingestKey digest) = none ∧
    (∀ text, y.turn.pick.fault ≠ .before text) ∧ T ≤ World.now y.before + seconds 120

/-- The requests of an ingest: of the keys of Redis, they change only the ingest lock. -/
def Cmd.OfIngest (digest : String) : Cmd → Prop
  | .redisSetNx key value ttl => key = ingestKey digest ∧ value = "1" ∧ ttl = 120
  | .redisExpire .. | .redisDel _ => False
  | _ => True

theorem lockLasts_congr {T : Time} (h : s'.redis = s.redis) : LockLasts digest T s' ↔ LockLasts digest T s := by
  rw [LockLasts, LockLasts, h]

/-- A lock that lasts to `T` does not expire before. -/
theorem lockLasts_tick {T : Time} {d : Nat} (h : s.now + d ≤ T) :
    LockLasts digest T (s.tick d) ↔ LockLasts digest T s := by
  constructor
  · rintro ⟨v, e, hm, he⟩
    exact ⟨v, e, (List.mem_filter.mp hm).1, he⟩
  · rintro ⟨v, e, hm, he⟩
    exact ⟨v, e, List.mem_filter.mpr ⟨hm, decide_eq_true (Nat.le_trans h he)⟩, he⟩

theorem redisGet_none_iff {key : String} : s.redisGet key = none ↔ ∀ v e, (key, v, e) ∉ s.redis := by
  rw [redisGet_eq_none, entry, List.lookup_eq_none_iff]
  constructor
  · intro h v e hm
    simpa using h _ hm
  · rintro h ⟨k, v, e⟩ hm
    have hne : key ≠ k := fun he => h v e (he ▸ hm)
    simpa using hne

/-- A request of an ingest leaves the lock, or takes it. -/
theorem lockLasts_exec {q : Cmd} {t : AnyTurn} {r : Except Exn q.Ans} {T : Time} (hq : q.OfIngest digest)
    (hx : World.exec i q t.pick s = some (r, s')) :
    LockLasts digest T s' ↔ LockLasts digest T s ∨ TakesLock digest T (D := D) ⟨q, t, s, r⟩ := by
  by_cases hset : ∃ key value ttl, q = .redisSetNx key value ttl
  · obtain ⟨key, value, ttl, rfl⟩ := hset
    obtain ⟨rfl, rfl, rfl⟩ := hq
    simp only [World.exec] at hx
    rw [if_neg (by decide)] at hx
    split at hx
    · rename_i hsome
      have hsame : s' = s := by rcases answer_cases (Option.some.inj hx) with h | h <;> exact h
      rw [hsame]
      refine (or_iff_left fun h => ?_).symm
      rw [h.2.1] at hsome
      cases hsome
    · rename_i hnone
      have hfree : s.redisGet (ingestKey digest) = none := by simpa using hnone
      have hno : ¬ LockLasts digest T s := by
        rintro ⟨v, e, hm, -⟩
        exact redisGet_none_iff.mp hfree v e hm
      rw [or_iff_right hno]
      have taken : s' = s.redisSet (ingestKey digest) "1" (s.now + seconds 120) →
        (∀ text, t.pick.fault ≠ .before text) →
          (LockLasts digest T s' ↔
            TakesLock digest T (D := D) ⟨.redisSetNx (ingestKey digest) "1" 120, t, s, r⟩) := by
        rintro rfl hf
        constructor
        · rintro ⟨v, e, hm, he⟩
          rcases List.mem_cons.mp hm with hm | hm
          · cases hm
            exact ⟨rfl, hfree, hf, he⟩
          · simp at hm
        · exact fun h => ⟨"1", _, List.mem_cons_self, h.2.2.2⟩
      simp only [answer] at hx
      split at hx
      · rename_i hf
        cases hx
        exact taken rfl fun text h => by rw [hf] at h; cases h
      · rename_i text hf
        cases hx
        exact iff_of_false hno fun h => h.2.2.1 text hf
      · rename_i text hf
        cases hx
        exact taken rfl fun text h => by rw [hf] at h; cases h
  · have hredis : s'.redis = s.redis := by
      cases change_of_exec hx with
      | redisSet => exact absurd ⟨_, _, _, rfl⟩ hset
      | redisExpire | redisDel => exact hq.elim
      | @delete queue receipt => cases queue <;> rfl
      | _ => rfl
    rw [lockLasts_congr hredis]
    exact (or_iff_left fun h => hset ⟨_, _, _, h.1⟩).symm

/-- After an ingest the lock is there until `T` if it was before, or a request of the ingest has taken it. -/
theorem wlp_lockLasts {α : Type} {p : M α} (h : p.Only (Cmd.OfIngest digest)) :
    (faulty D).wlp i p (fun tr _ s' => s.now ≤ s'.now ∧ ∀ T, s'.now ≤ T →
      (LockLasts digest T s' ↔ LockLasts digest T s ∨ ∃ y ∈ tr, TakesLock digest T y)) s := by
  induction p generalizing s with
  | ret a => exact ⟨Nat.le_refl _, fun T _ => by simp⟩
  | throw x => exact ⟨Nat.le_refl _, fun T _ => by simp⟩
  | call q k ih =>
    intro t s₁ r s₂ ht hx
    cases ht
    refine Turns.wlp_mono (ih r (h.2 r) (s := s₂)) fun tr r' s' hr => ?_
    have hnow : World.now s₂ = World.now s + t.delay := now_of_change (change_of_exec hx)
    have hle : World.now s + t.delay ≤ World.now s' := hnow ▸ hr.1
    refine ⟨Nat.le_trans (Nat.le_add_right _ _) hle, fun T hT => ?_⟩
    rw [hr.2 T hT, lockLasts_exec (D := D) h.1 hx, lockLasts_tick (Nat.le_trans hle hT), or_assoc]
    simp

/-- Of the keys of Redis, an ingest changes only the ingest lock. -/
theorem acceptImage_ofIngest (settings : ApiSettings) (req : IngestRequest) :
    (acceptImage D.sha256 settings req).Only (Cmd.OfIngest (digestOf D settings req)) := by
  refine (acceptImage_only D.sha256 settings req).mono fun q hq => ?_
  cases hq with
  | lock => exact ⟨rfl, rfl, rfl⟩
  | _ => trivial

/-! ## The retry -/

/-- Nothing has changed but the time, the keys of Redis and the identifiers that were drawn. -/
structure Beside (s s' : World) : Prop where
  db : s'.db = s.db
  main : s'.main = s.main
  nextMsg : s'.nextMsg = s.nextMsg
  takes : s'.takes = s.takes

theorem Beside.trans {s₁ : World} (h : Beside s s₁) (h' : Beside s₁ s') : Beside s s' :=
  ⟨h'.db.trans h.db, h'.main.trans h.main, h'.nextMsg.trans h.nextMsg, h'.takes.trans h.takes⟩

/-- A statement outside a transaction that writes nothing. -/
theorem wlp_select {st : Sql} {a : st.Ans} {L : List (turns D).Served → Except Exn st.Ans → World → Prop}
    (hi : s.txn i = none) (hq : st.refusal = none) (hrun : ∀ now fresh, st.run s.db now fresh = .ok (a, []))
    (h : ∀ t : Turn, L [⟨.sql st, t, s.tick t.delay, .ok a⟩] (.ok a) (s.tick t.delay)) :
    (turns D).wlp i (sql st) L s := by
  refine wlp_request_works fun t r s' hx => ?_
  have hidle : (s.tick t.delay).txn i = none := hi
  have hrun' : st.run (s.tick t.delay).db (s.tick t.delay).now t.pick.fresh = .ok (a, []) := hrun _ _
  simp only [World.exec, runSql, hidle, Sql.execute_of_storable hq, hrun', answer, t.works] at hx
  split at hx
  · cases hx
  · cases hx
    exact h t

theorem jobByHash_of_none (hn : s.db.jobByHash? digest = none) (now : Time) (fresh : Uuid) :
    Sql.run s.db now fresh (.jobByHash digest) = .ok (none, []) := by
  simp only [Sql.run, hn]
  rfl

theorem existingJob_of_none (hn : s.db.jobByHash? digest = none) (now : Time) (fresh : Uuid) :
    Sql.run s.db now fresh (.existingJob digest) = .ok (none, []) := by
  simp only [Sql.run, hn]
  rfl

/-- While another call has the lock and there is no job, the lookups end with a conflict. -/
theorem wlp_awaitIngest {n : Nat} (hi : s.txn i = none) (hn : s.db.jobByHash? digest = none) :
    (turns D).wlp i (awaitIngest digest n) (fun _ r _ => ∃ x, r = .error x) s := by
  induction n generalizing s with
  | zero => exact ⟨_, rfl⟩
  | succ n ih =>
    refine Turns.wlp_bind (wlp_select hi rfl (jobByHash_of_none hn) fun t => ?_)
    refine Turns.wlp_bind (wlp_request_works fun t' r s₂ hx => ?_)
    cases hx
    exact ih hi hn

/-- Thread `i` has written `ws` in a transaction, and nothing else has changed. -/
structure Pends (i : Nat) (started : Time) (ws : List Write) (s s' : World) : Prop where
  txn : s'.txn i = some (.active started ws)
  db : s'.db = s.db
  main : s'.main = s.main
  nextMsg : s'.nextMsg = s.nextMsg
  takes : s'.takes = s.takes

theorem wlp_begin : (turns D).wlp i (request .begin)
    (fun _ r s' => r = .ok () ∧ ∃ started, Pends i started [] s s') s := by
  refine wlp_request_works fun t r s₁ hx => ?_
  simp only [World.exec, t.works] at hx
  cases hx
  exact ⟨rfl, _, txn_setTxn_self .., rfl, rfl, rfl, rfl⟩

/-- A statement of a transaction that inserts a row. -/
theorem wlp_insert {st : Sql} {s₁ : World} {started : Time} {ws : List Write} {w : Write} {a : st.Ans}
    (h : Pends i started ws s s₁) (hq : st.refusal = none)
    (hrun : ∀ fresh, st.run (s.db.applyAll ws) started fresh = .ok (a, [w])) :
    (turns D).wlp i (sql st) (fun _ r s' => r = .ok a ∧ Pends i started (ws ++ [w]) s s') s₁ := by
  refine wlp_request_works fun t r s' hx => ?_
  have ht : (s₁.tick t.delay).txn i = some (.active started ws) := h.txn
  have hrun' : st.run ((s₁.tick t.delay).db.applyAll ws) started t.pick.fresh = .ok (a, [w]) := by
    rw [show (s₁.tick t.delay).db = s.db from h.db]
    exact hrun _
  simp only [World.exec, runSql, ht, t.works, Sql.execute_of_storable hq, hrun'] at hx
  split at hx
  · cases hx
  · cases hx
    exact ⟨rfl, txn_setTxn_self .., h.db, h.main, h.nextMsg, h.takes⟩

theorem wlp_commit {s₁ : World} {started : Time} {ws : List Write} (h : Pends i started ws s s₁) :
    (turns D).wlp i (request .commit) (fun _ r s' => r = .ok () ∧ s'.main = s.main ∧ s'.nextMsg = s.nextMsg ∧
      s'.takes = s.takes) s₁ := by
  refine wlp_request_works fun t r s' hx => ?_
  simp only [World.exec, runCommit, t.works] at hx
  cases hx
  exact ⟨rfl, h.main, h.nextMsg, h.takes⟩

theorem insert_of_new {α : Type} {db : Database} {w : Write} {a : α} (hk : ∀ k ∈ w.keys, k ∉ db.keys)
    (hm : w.missing db = none) : db.insert w a = .ok (a, [w]) := by
  have hnone : w.keys.find? (· ∈ db.keys) = none := by simpa using hk
  simp only [Database.insert, hnone, hm]

/-- The identifiers and the hash of an ingest are new. -/
structure NewRows (content : ContentItem) (jobId : Uuid) (db : Database) : Prop where
  contentId : ∀ c ∈ db.contents, c.id ≠ content.id
  contentHash : ∀ c ∈ db.contents, c.contentHash ≠ content.contentHash
  jobId : ∀ j ∈ db.jobs, j.id ≠ jobId
  jobHash : ∀ j ∈ db.jobs, j.contentHash ≠ content.contentHash

/-- The database takes the texts of a new ingest. -/
structure Recordable (content : ContentItem) (tenantId : String) : Prop where
  caption : storable content.caption = true
  contentType : storable content.contentType = true
  source : storable content.source = true
  detail : (enqueuedDetail content.contentHash tenantId content.source).storable = true

theorem refusal_insertContent {content : ContentItem} : (Sql.insertContent content).refusal = none ↔
    storable content.caption = true ∧ storable content.contentType = true ∧ storable content.source = true := by
  simp [Sql.refusal_eq_none_iff, Sql.texts, Sql.jsonbStorable]

theorem NewRows.insertContent {content : ContentItem} {jobId : Uuid} {db : Database} (h : NewRows content jobId db)
    (started : Time) (fresh : Uuid) :
    Sql.run db started fresh (.insertContent content) = .ok ((), [.content content]) :=
  insert_of_new (by simpa [Write.keys, Database.keys] using ⟨h.contentId, h.contentHash⟩) rfl

theorem NewRows.insertJob {content : ContentItem} {jobId : Uuid} {db : Database} (h : NewRows content jobId db)
    (started : Time) (fresh : Uuid) :
    Sql.run (db.applyAll [.content content]) started fresh (.insertJob jobId content.id content.contentHash) =
      .ok ((), [.job ⟨jobId, content.id, content.contentHash, .queued, 0, 3, none, started, none, none⟩]) := by
  refine insert_of_new (by simpa [Write.keys, Database.keys, Database.apply] using ⟨h.jobId, h.jobHash⟩) ?_
  simp [Write.missing, Database.content?, Database.apply]

/-- A transaction with the rows of a new job is committed. -/
theorem wlp_persistJob {content : ContentItem} {jobId : Uuid} {tenantId : String}
    (hnew : NewRows content jobId s.db) (hrec : Recordable content tenantId) :
    (turns D).wlp i (persistJob content jobId tenantId)
      (fun _ r s' => r = .ok none ∧ s'.main = s.main ∧ s'.nextMsg = s.nextMsg ∧ s'.takes = s.takes) s := by
  have hrow : (Sql.insertContent content).refusal = none :=
    refusal_insertContent.mpr ⟨hrec.caption, hrec.contentType, hrec.source⟩
  refine Turns.wlp_next wlp_begin fun tr s₁ h => ?_
  obtain ⟨started, h₁⟩ := h
  refine Turns.wlp_next (a := .ok none) (P := fun s' => ∃ ws, Pends i started ws s s') ?_ fun tr₁ s₂ h => ?_
  · refine Turns.wlp_attempt (Turns.wlp_tryCatch ?_)
    refine Turns.wlp_next (wlp_insert h₁ hrow (hnew.insertContent started)) fun tr₁ s₂ h₂ => ?_
    refine Turns.wlp_next (wlp_insert h₂ rfl (hnew.insertJob started)) fun tr₂ s₃ h₃ => ?_
    refine Turns.wlp_next (wlp_insert h₃ (Sql.refusal_insertAudit.mpr hrec.detail) fun _ => rfl) fun tr₃ s₄ h₄ => ?_
    exact ⟨rfl, _, h₄⟩
  · obtain ⟨ws, h₂⟩ := h
    exact Turns.wlp_next (wlp_commit h₂) fun tr₂ s₃ h₃ => ⟨rfl, h₃⟩

/-- A refusal is not taken for a duplicate. -/
theorem not_duplicate_of_refusal {st : Sql} {x : Exn} (h : st.refusal = some x) : x.isDuplicate = false := by
  unfold Sql.refusal at h
  split at h
  · obtain rfl := Option.some.inj h
    decide +kernel
  split at h
  · obtain rfl := Option.some.inj h
    rcases st.jsonbError_cases with he | he <;> rw [he] <;> decide +kernel
  · cases h

/-- A statement of a transaction that is refused. -/
theorem wlp_refused {st : Sql} {s₁ : World} {started : Time} {ws : List Write} (h : Pends i started ws s s₁)
    (hq : st.refusal ≠ none) :
    (turns D).wlp i (sql st) (fun _ r _ => ∃ x, r = .error x ∧ x.isDuplicate = false) s₁ := by
  refine wlp_request_works fun t r s' hx => ?_
  obtain ⟨x, hrefusal⟩ := Option.ne_none_iff_exists'.mp hq
  have ht : (s₁.tick t.delay).txn i = some (.active started ws) := h.txn
  simp only [World.exec, runSql, ht, t.works, Sql.execute, hrefusal] at hx
  cases hx
  exact ⟨x, rfl, not_duplicate_of_refusal hrefusal⟩

/-- A text that the database refuses ends the transaction of a new job. -/
theorem wlp_persistJob_refused {content : ContentItem} {jobId : Uuid} {tenantId : String}
    (hnew : NewRows content jobId s.db) (hrec : ¬ Recordable content tenantId) :
    (turns D).wlp i (persistJob content jobId tenantId) (fun _ r _ => ∃ x, r = .error x) s := by
  refine Turns.wlp_next wlp_begin fun tr s₁ h => ?_
  obtain ⟨started, h₁⟩ := h
  have hrefused : (turns D).wlp i (do
      let _ ← sql (.insertContent content)
      let _ ← sql (.insertJob jobId content.id content.contentHash)
      let _ ← sql (.insertAudit
        ⟨"job", jobId, "enqueued", "api", enqueuedDetail content.contentHash tenantId content.source⟩)
      return none)
      (fun _ (r : Except Exn (Option IngestResponse)) _ => ∃ x, r = .error x ∧ x.isDuplicate = false) s₁ := by
    by_cases hrow : (Sql.insertContent content).refusal = none
    · -- the row of the content is taken, and the audit row is not
      have hdetail : ¬ (enqueuedDetail content.contentHash tenantId content.source).storable = true := fun h => by
        obtain ⟨hcaption, htype, hsource⟩ := refusal_insertContent.mp hrow
        exact hrec ⟨hcaption, htype, hsource, h⟩
      refine Turns.wlp_next (wlp_insert h₁ hrow (hnew.insertContent started)) fun tr₁ s₂ h₂ => ?_
      refine Turns.wlp_next (wlp_insert h₂ rfl (hnew.insertJob started)) fun tr₂ s₃ h₃ => ?_
      exact Turns.wlp_raise (wlp_refused h₃ (mt Sql.refusal_insertAudit.mp hdetail))
    · exact Turns.wlp_raise (wlp_refused h₁ hrow)
  refine Turns.wlp_seq (P := fun _ r _ => ∃ x, r = .ok (.error x)) ?_ ?_ ?_
  · refine Turns.wlp_attempt (Turns.wlp_tryCatch (Turns.wlp_mono hrefused fun tr₁ r s₂ h => ?_))
    obtain ⟨x, rfl, hx⟩ := h
    show (turns D).wlp i (if _ then _ else _) _ _
    rw [if_neg (by simp [hx])]
    exact ⟨_, rfl⟩
  · rintro tr₁ a s₂ ⟨x, hx⟩
    obtain rfl := Except.ok.inj hx
    exact Turns.wlp_seq (Turns.wlp_true _ _) (fun _ _ _ _ => ⟨_, rfl⟩) fun _ _ _ _ => ⟨_, rfl⟩
  · rintro tr₁ x s₂ ⟨y, hy⟩
    cases hy

/-- The content has been accepted as a new one, and the message of its job is the last of the queue. -/
def AcceptsNew (s : World) (r : Except Exn IngestResponse) (s' : World) : Prop :=
  ∃ response body attributes m, r = .ok response ∧ response.deduplicated = false ∧
    s'.main = s.main ++ [⟨s.nextMsg, .json body, attributes⟩] ∧ Reads (.json body) m ∧ m.jobId = response.jobId

/-- The queue has its project, if it needs one, and takes the message of the job. -/
def TakesJob (settings : ApiSettings) (carrier : List (String × String)) (content : ContentItem) (jobId : Uuid)
    (s : World) : Prop :=
  settings.provider ≠ .pubsub "" ∧
  s.takes (.json (jobBody settings jobId content.id content.contentHash content.objectKey content.caption))
    (jobAttributes carrier jobId content.contentHash) = true

/-- The content has been accepted, unless the queue does not take its message. -/
def Sends (settings : ApiSettings) (carrier : List (String × String)) (content : ContentItem) (jobId : Uuid)
    (s : World) (r : Except Exn IngestResponse) (s' : World) : Prop :=
  (TakesJob settings carrier content jobId s → AcceptsNew s r s') ∧
  (¬ TakesJob settings carrier content jobId s → ∃ x, r = .error x)

theorem wlp_sendJob {settings : ApiSettings} {carrier : List (String × String)} {content : ContentItem}
    {jobId : Uuid} :
    (turns D).wlp i (sendJob settings carrier content jobId)
      (fun _ r s' => Sends settings carrier content jobId s r s') s := by
  refine Turns.wlp_bind (Turns.wlp_attempt (wlp_request_works fun t r s₁ hx => ?_))
  simp only [World.exec] at hx
  have failed : ∀ {x : Exn} {s₁ : World}, ¬ TakesJob settings carrier content jobId s →
      (turns D).wlp i (do
        let _ ← request .connect
        let _ ← sql (.markEnqueueFailed jobId ("enqueue failed: " ++ x.str))
        throw (.httpException 502 ("Queue enqueue failed: " ++ x.str)))
      (fun _ r s' => Sends settings carrier content jobId s r s') s₁ := fun hno => by
    have failed : ∀ (x : Exn) (s' : World), Sends settings carrier content jobId s (.error x) s' :=
      fun x s' => ⟨fun h => (hno h).elim, fun _ => ⟨x, rfl⟩⟩
    exact Turns.wlp_seq (Turns.wlp_true _ _)
      (fun _ _ _ _ => Turns.wlp_seq (Turns.wlp_true _ _) (fun _ _ _ _ => failed _ _) fun _ x s' _ => failed x s')
      fun _ x s' _ => failed x s'
  by_cases hp : settings.provider = .pubsub ""
  · rw [if_pos hp] at hx
    cases hx
    exact failed fun h => h.1 hp
  · rw [if_neg hp] at hx
    simp only [runSend, Option.some.injEq] at hx
    split at hx
    · rename_i htakes
      simp only [answer, t.works, Prod.mk.injEq] at hx
      obtain ⟨rfl, rfl⟩ := hx
      refine ⟨fun _ => ?_, fun hno => (hno ⟨hp, htakes⟩).elim⟩
      exact ⟨_, _, _, _, rfl, rfl, rfl, ⟨_, rfl, readJobMessage_jobBody ..⟩, rfl⟩
    · rename_i htakes
      simp only [Prod.mk.injEq] at hx
      obtain ⟨rfl, rfl⟩ := hx
      exact failed fun h => htakes h.2

/-- The content has no job yet, and every row has a drawn identifier. -/
structure Unseen (digest : String) (s : World) : Prop where
  contents : ∀ c ∈ s.db.contents, (∃ k, (c.id, k) ∈ s.drawn) ∧ c.contentHash ≠ digest
  jobs : ∀ j ∈ s.db.jobs, (∃ k, (j.id, k) ∈ s.drawn) ∧ j.contentHash ≠ digest

theorem Unseen.congr (h : Unseen digest s) (hdb : s'.db = s.db) (hd : s.drawn ⊆ s'.drawn) : Unseen digest s' where
  contents c hc := by
    obtain ⟨⟨k, hk⟩, hne⟩ := h.contents c (hdb ▸ hc)
    exact ⟨⟨k, hd hk⟩, hne⟩
  jobs j hj := by
    obtain ⟨⟨k, hk⟩, hne⟩ := h.jobs j (hdb ▸ hj)
    exact ⟨⟨k, hd hk⟩, hne⟩

theorem wlp_uuid4 : (turns D).wlp i (request .uuid4) (fun tr r s' => ∃ t : Turn, tr.map (·.turn) = [t] ∧
    r = .ok t.pick.fresh ∧ (∀ k, (t.pick.fresh, k) ∉ s.drawn) ∧ Beside s s' ∧
    s'.drawn = (t.pick.fresh, i) :: s.drawn) s := by
  refine wlp_request_works fun t r s' hx => ?_
  simp only [World.exec] at hx
  split at hx
  · cases hx
  · rename_i hno
    cases hx
    refine ⟨t, rfl, rfl, fun k hk => hno (List.any_eq_true.mpr ⟨_, hk, by simp⟩), ⟨rfl, rfl, rfl, rfl⟩, rfl⟩

/-- How a new ingest ends that has the lock and draws its identifiers in the turns `t` and `t'`. -/
def IngestsNew (settings : ApiSettings) (req : IngestRequest) (digest : String) (t t' : Turn) (s : World)
    (r : Except Exn IngestResponse) (s' : World) : Prop :=
  let content := contentItem settings req (strip req.caption) digest t.pick.fresh
  (Recordable content req.tenantId → Sends settings req.carrier content t'.pick.fresh s r s') ∧
  (¬ Recordable content req.tenantId → ∃ x, r = .error x)

theorem wlp_ingestNew {settings : ApiSettings} {req : IngestRequest} (hu : Unseen digest s) :
    (turns D).wlp i (ingestNew settings req (strip req.caption) digest) (fun tr r s' =>
      ∃ t t' rest, tr.map (·.turn) = t :: t' :: rest ∧ IngestsNew settings req digest t t' s r s') s := by
  refine Turns.wlp_seq wlp_uuid4 ?_ ?_
  · rintro tr contentId s₁ ⟨t, htr, hr, hcontent, hs₁, hdrawn₁⟩
    obtain rfl := Except.ok.inj hr
    refine Turns.wlp_seq wlp_uuid4 ?_ ?_
    · rintro tr' jobId s₂ ⟨t', htr', hr, hjob, hs₂, hdrawn₂⟩
      obtain rfl := Except.ok.inj hr
      have hs := hs₁.trans hs₂
      have turns : ∀ {tr'' : List (turns D).Served} {r : Except Exn IngestResponse} {s' : World},
          IngestsNew settings req digest t t' s r s' → ∃ t t' rest,
          (tr ++ (tr' ++ tr'')).map (·.turn) = t :: t' :: rest ∧ IngestsNew settings req digest t t' s r s' :=
        fun {tr'' r s'} h => ⟨t, t', tr''.map (·.turn), by rw [List.map_append, List.map_append, htr, htr']; rfl, h⟩
      refine Turns.wlp_bind (Turns.wlp_attempt (wlp_answered (fun _ => rfl) fun t₁ => ?_))
      refine Turns.wlp_bind (wlp_answered (fun _ => rfl) fun t₂ => ?_)
      have hnew : NewRows (contentItem settings req (strip req.caption) digest t.pick.fresh) t'.pick.fresh
          ((s₂.tick t₁.delay).tick t₂.delay).db := by
        have hdb : ((s₂.tick t₁.delay).tick t₂.delay).db = s.db := hs.db
        rw [hdb]
        refine ⟨fun c hc he => ?_, fun c hc => (hu.contents c hc).2, fun j hj he => ?_,
          fun j hj => (hu.jobs j hj).2⟩
        · obtain ⟨⟨k, hk⟩, -⟩ := hu.contents c hc
          have he : c.id = t.pick.fresh := he
          exact hcontent k (he ▸ hk)
        · obtain ⟨⟨k, hk⟩, -⟩ := hu.jobs j hj
          exact hjob k (hdrawn₁ ▸ List.mem_cons_of_mem _ (he ▸ hk))
      by_cases hrec : Recordable (contentItem settings req (strip req.caption) digest t.pick.fresh) req.tenantId
      · refine Turns.wlp_next (wlp_persistJob hnew hrec) fun tr₃ s₅ hkept => ?_
        obtain ⟨hmain, hnext, htakes⟩ := hkept
        refine Turns.wlp_mono wlp_sendJob fun tr₄ r s' h => ?_
        have hmain₅ : s₅.main = s.main := hmain.trans hs.main
        have hnext₅ : s₅.nextMsg = s.nextMsg := hnext.trans hs.nextMsg
        have htakes₅ : s₅.takes = s.takes := htakes.trans hs.takes
        unfold Sends TakesJob AcceptsNew at h
        rw [hmain₅, hnext₅, htakes₅] at h
        exact turns ⟨fun _ => h, fun hno => (hno hrec).elim⟩
      · have failed : ∀ (x : Exn) (s' : World), IngestsNew settings req digest t t' s (.error x) s' := fun x s' =>
          ⟨fun h => (hrec h).elim, fun _ => ⟨x, rfl⟩⟩
        refine Turns.wlp_seq (wlp_persistJob_refused hnew hrec) ?_ ?_
        · rintro tr₃ a s₅ ⟨x, h⟩
          cases h
        · rintro tr₃ x s₅ -
          exact turns (failed x s₅)
    · rintro tr' x s₂ ⟨u, -, h, -⟩
      cases h
  · rintro tr x s₁ ⟨u, -, h, -⟩
    cases h

/-- The request passes the checks of the ingest. -/
def Admissible (settings : ApiSettings) (req : IngestRequest) : Prop :=
  req.contentType ∈ commaList settings.allowedContentTypes ∧ req.body.length ≠ 0 ∧
    req.body.length ≤ settings.maxUploadBytes

/-- The lock is found if its time to live reaches to the request. -/
theorem isSome_redisGet_tick (d : Nat) :
    ((s.tick d).redisGet (ingestKey digest)).isSome = true ↔ LockLasts digest (s.now + d) s := by
  rw [← lockLasts_tick (Nat.le_refl _), Option.isSome_iff_ne_none, ne_eq, redisGet_none_iff]
  constructor
  · intro h
    obtain ⟨v, e, hm⟩ : ∃ v e, (ingestKey digest, v, e) ∈ (s.tick d).redis := by
      by_contra hno
      exact h fun v e hm => hno ⟨v, e, hm⟩
    exact ⟨v, e, hm, of_decide_eq_true (List.mem_filter.mp hm).2⟩
  · rintro ⟨v, e, hm, -⟩ h
    exact h v e hm

/-- How an ingest of content without a job ends that runs alone with working services. -/
def RetryEnds (D : Deployment) (settings : ApiSettings) (req : IngestRequest) (s : World) (ts : List Turn)
    (r : Except Exn IngestResponse) (s' : World) : Prop :=
  (¬ Admissible settings req → ∃ x, r = .error x) ∧
  (Admissible settings req → ∃ t₀ t₁ t₂ rest, ts = t₀ :: t₁ :: t₂ :: rest ∧
    (LockLasts (digestOf D settings req) (s.now + t₀.delay + t₁.delay + t₂.delay) s → ∃ x, r = .error x) ∧
    (¬ LockLasts (digestOf D settings req) (s.now + t₀.delay + t₁.delay + t₂.delay) s →
      ∃ t₃ t₄ rest', rest = t₃ :: t₄ :: rest' ∧ IngestsNew settings req (digestOf D settings req) t₃ t₄ s r s'))

theorem wlp_acceptImage {settings : ApiSettings} {req : IngestRequest} (hi : s.txn i = none)
    (hu : Unseen (digestOf D settings req) s) :
    (turns D).wlp i (acceptImage D.sha256 settings req)
      (fun tr r s' => RetryEnds D settings req s (tr.map (·.turn)) r s') s := by
  have refused : ∀ {x : Exn}, ¬ Admissible settings req → RetryEnds D settings req s [] (.error x) s := fun {x} h =>
    ⟨fun _ => ⟨x, rfl⟩, fun ha => (h ha).elim⟩
  simp only [acceptImage]
  split
  · rename_i h
    exact refused fun ha => h ha.1
  split
  · rename_i h
    exact refused fun ha => ha.2.1 h
  split
  · rename_i h
    exact refused fun ha => absurd ha.2.2 (Nat.not_le.mpr h)
  rename_i htype hempty hsize
  have hok : Admissible settings req := ⟨by simpa using htype, hempty, Nat.not_lt.mp hsize⟩
  have hjob : s.db.jobByHash? (digestOf D settings req) = none :=
    List.find?_eq_none.mpr fun j hj => by simpa using (hu.jobs j hj).2
  refine Turns.wlp_bind (wlp_answered (fun _ => rfl) fun t₀ => ?_)
  refine Turns.wlp_bind (wlp_select (s := s.tick t₀.delay) hi rfl
    (existingJob_of_none (s := s.tick t₀.delay) hjob) fun t₁ => ?_)
  -- the lock lasts to the next request if it did so at the beginning
  have hlast : ∀ t₂ : Turn, (((s.tick t₀.delay).tick t₁.delay).tick t₂.delay).redisGet
    (ingestKey (digestOf D settings req)) = none ↔
      ¬ LockLasts (digestOf D settings req) (s.now + t₀.delay + t₁.delay + t₂.delay) s := by
    intro t₂
    have h₁ : LockLasts (digestOf D settings req) (s.now + t₀.delay + t₁.delay + t₂.delay)
      ((s.tick t₀.delay).tick t₁.delay) ↔
        LockLasts (digestOf D settings req) (s.now + t₀.delay + t₁.delay + t₂.delay) (s.tick t₀.delay) :=
      lockLasts_tick (Nat.le_add_right _ _)
    have h₀ : LockLasts (digestOf D settings req) (s.now + t₀.delay + t₁.delay + t₂.delay) (s.tick t₀.delay) ↔
        LockLasts (digestOf D settings req) (s.now + t₀.delay + t₁.delay + t₂.delay) s := by
      refine lockLasts_tick ?_
      rw [Nat.add_assoc (s.now + t₀.delay)]
      exact Nat.le_add_right _ _
    rw [← Option.not_isSome_iff_eq_none, isSome_redisGet_tick]
    exact not_congr (h₁.trans h₀)
  refine Turns.wlp_bind (wlp_request_works fun t₂ r s₃ hx => ?_)
  change World.exec i (.redisSetNx (ingestKey (digestOf D settings req)) "1" 120) t₂.pick
    (((s.tick t₀.delay).tick t₁.delay).tick t₂.delay) = _ at hx
  simp only [World.exec] at hx
  rw [if_neg (by decide)] at hx
  split at hx
  · rename_i hsome
    simp only [answer, t₂.works, Option.some.injEq, Prod.mk.injEq] at hx
    obtain ⟨rfl, rfl⟩ := hx
    refine Turns.wlp_bind (wlp_answered (fun _ => rfl) fun t₃ => ?_)
    refine Turns.wlp_mono (wlp_awaitIngest hi hjob) fun tr r s' h => ?_
    refine ⟨fun hno => (hno hok).elim, fun _ => ⟨t₀, t₁, t₂, _, rfl, fun _ => h, fun hfree => ?_⟩⟩
    rw [(hlast t₂).mpr hfree] at hsome
    cases hsome
  · rename_i hnone
    simp only [answer, t₂.works, Option.some.injEq, Prod.mk.injEq] at hx
    obtain ⟨rfl, rfl⟩ := hx
    refine Turns.wlp_mono (wlp_ingestNew (hu.congr rfl (List.Subset.refl _))) fun tr r s' h => ?_
    obtain ⟨t₃, t₄, rest, hts, h⟩ := h
    refine ⟨fun hno => (hno hok).elim, fun _ => ⟨t₀, t₁, t₂, _, rfl, fun hl => ?_, fun _ => ⟨t₃, t₄, rest, hts, h⟩⟩⟩
    exact ((hlast t₂).mp (by simpa using hnone) hl).elim

/-- What a failed ingest leaves behind does not show its content. -/
theorem unseen_of_reachable {c : (service D).Config} (hc : Pool.Reachable (boot D now) c)
    (hn : c.world.db.jobByHash? digest = none) : Unseen digest c.world := by
  have hhash : ∀ j ∈ c.world.db.jobs, j.contentHash ≠ digest := fun j hj he =>
    List.find?_eq_none.mp hn j hj (decide_eq_true he)
  refine ⟨fun row hm => ⟨drawn_of_content hc hm, fun he => ?_⟩, fun j hj => ⟨?_, hhash j hj⟩⟩
  · obtain ⟨x, hx, hrow⟩ := job_of_content hc row hm
    obtain ⟨j, hj, rfl⟩ := List.mem_map.mp hx
    exact hhash j hj (hrow.trans he)
  · exact ((inv_of_reachable hc).owned _ (List.mem_map_of_mem hj)).1

/-- The call has returned a response for new content, and its message is in the queue. -/
def Retried (s : World) (o : (turns D).Outcome Out) : Prop :=
    ∃ r, o.result = r.map Out.accepted ∧ AcceptsNew s r o.world

theorem retried_of_result {o : (turns D).Outcome Out} {r : Except Exn IngestResponse}
    (hr : o.result = r.map Out.accepted) :
    Retried s o ↔ AcceptsNew s r o.world := by
  constructor
  · rintro ⟨r', hr', response, body, attributes, m, rfl, h⟩
    cases r with
    | ok response' =>
      have he : (.ok (.accepted response') : Except Exn Out) = .ok (.accepted response) := hr.symm.trans hr'
      cases he
      exact ⟨_, body, attributes, m, rfl, h⟩
    | error x =>
      have he : (.error x : Except Exn Out) = .ok (.accepted response) := hr.symm.trans hr'
      cases he
  · exact fun h => ⟨r, hr, h⟩

/-- A second ingest, alone and with working services, of content whose first ingest has run alone and left no job:
it accepts the content as new if and only if the request is admissible, the database takes its texts, the queue
takes its message, with the identifiers that it draws, and when it asks for the ingest lock, neither a lock from
before the first ingest nor the lock of the first ingest lasts. -/
theorem retried_iff {c : (service D).Config} (hc : Pool.Reachable (boot D now) c) {j : Nat} (hi : c.threads i = none)
    (hj : c.threads j = none) (hij : j ≠ i) {settings settings' : ApiSettings} {req req' : IngestRequest}
    (hsame : digestOf D settings' req' = digestOf D settings req) {ts : List AnyTurn} {o : (faulty D).Outcome Out}
    (ho : (faulty D).alone i ((service D).code (.acceptImage settings req)) ts c.world = some o)
    (hn : Database.jobByHash? (World.db o.world) (digestOf D settings req) = none) {σ : Nat → Turn}
    (hσ : ∀ n, ¬ (turns D).refuses j ((service D).code (.acceptImage settings' req'))
      (Turns.first (T := turns D) σ n) o.world) :
    let content := contentItem settings' req' (strip req'.caption) (digestOf D settings req) (σ 3).pick.fresh
    ∃ n o', (turns D).alone j ((service D).code (.acceptImage settings' req'))
      (Turns.first (T := turns D) σ n) o.world = some o' ∧
      (Retried o.world o' ↔ Admissible settings' req' ∧ Recordable content req'.tenantId ∧
        TakesJob settings' req'.carrier content (σ 4).pick.fresh o.world ∧
        ¬ LockLasts (digestOf D settings req) (World.now o.world + (turns D).spent σ 3) c.world ∧
        ∀ y ∈ o.served, ¬ TakesLock (digestOf D settings req) (World.now o.world + (turns D).spent σ 3) y) := by
  intro content
  obtain ⟨n, o', ho'⟩ := Turns.exists_alone hσ
  refine ⟨n, o', ho', ?_⟩
  obtain ⟨c₁, hreplay, -, hworld⟩ := Turns.replay_of_alone ho hi
  have hc₁ := hc.replay hreplay
  have hidle : World.txn o.world j = none := hworld ▸ idle_of_unstarted hc₁ (Turns.threads_steps hreplay hij hj)
  have hu : Unseen (digestOf D settings' req') o.world := by
    rw [hsame]
    exact hworld ▸ unseen_of_reachable hc₁ (hworld ▸ hn)
  have honly : ((service D).code (.acceptImage settings req)).Only (Cmd.OfIngest (digestOf D settings req)) :=
    .bind (acceptImage_ofIngest settings req) fun _ => trivial
  obtain ⟨-, hlock⟩ := Turns.of_alone (wlp_lockLasts (i := i) honly) ho
  have hretry : (turns D).wlp j ((service D).code (.acceptImage settings' req')) (fun tr r s' =>
    ∃ r', r = r'.map Out.accepted ∧
      RetryEnds D settings' req' o.world (tr.map (·.turn)) r' s') o.world := by
    refine Turns.wlp_seq (wlp_acceptImage hidle hu) (fun tr response s' h => ?_) fun tr x s' h => ⟨.error x, rfl, h⟩
    refine ⟨.ok response, rfl, ?_⟩
    rw [List.append_nil]
    exact h
  obtain ⟨r, hres, hrefused, hends⟩ := Turns.of_alone hretry ho'
  refine (retried_of_result hres).trans ?_
  have raised : (∃ x, r = .error x) → ¬ AcceptsNew o.world r o'.world := by
    rintro ⟨x, rfl⟩ ⟨response, -, -, -, h, -⟩
    cases h
  by_cases hok : Admissible settings' req'
  · obtain ⟨t₀, t₁, t₂, rest, hts, hlasts, hfree⟩ := hends hok
    have hts : Turns.first (T := turns D) σ n = t₀ :: t₁ :: t₂ :: rest := (Turns.turns_of_alone ho').symm.trans hts
    -- the first three turns, and when the lock is asked for
    have hspent : World.now o.world + t₀.delay + t₁.delay + t₂.delay = World.now o.world + (turns D).spent σ 3 := by
      have h : (turns D).spent σ 3 = t₀.delay + (t₁.delay + (t₂.delay + 0)) :=
        Turns.spent_of_first (T := turns D) (show _ = [t₀, t₁, t₂] ++ rest from hts)
      rw [h, Nat.add_zero, Nat.add_assoc, Nat.add_assoc]
    rw [hspent, hsame] at hlasts hfree
    have hT := hlock (World.now o.world + (turns D).spent σ 3) (Nat.le_add_right _ _)
    by_cases hl : LockLasts (digestOf D settings req) (World.now o.world + (turns D).spent σ 3) o.world
    · refine iff_of_false (raised (hlasts hl)) fun h => ?_
      obtain ⟨-, -, -, hbefore, htaken⟩ := h
      rcases hT.mp hl with h | ⟨y, hy, h⟩
      · exact hbefore h
      · exact htaken y hy h
    · obtain ⟨t₃, t₄, rest', rfl, hstored, hrefused⟩ := hfree hl
      have h₃ : σ 3 = t₃ := Turns.eq_of_first (T := turns D) (show _ = [t₀, t₁, t₂] ++ t₃ :: (t₄ :: rest') from hts)
      have h₄ : σ 4 = t₄ := Turns.eq_of_first (T := turns D) (show _ = [t₀, t₁, t₂, t₃] ++ t₄ :: rest' from hts)
      have hcontent :
          content = contentItem settings' req' (strip req'.caption) (digestOf D settings req) t₃.pick.fresh :=
        h₃ ▸ rfl
      rw [hcontent, h₄]
      have hlocks : ¬ LockLasts (digestOf D settings req) (World.now o.world + (turns D).spent σ 3) c.world ∧
          ∀ y ∈ o.served, ¬ TakesLock (digestOf D settings req) (World.now o.world + (turns D).spent σ 3) y :=
        ⟨fun h => hl (hT.mpr (.inl h)), fun y hy h => hl (hT.mpr (.inr ⟨y, hy, h⟩))⟩
      by_cases hrec : Recordable
          (contentItem settings' req' (strip req'.caption) (digestOf D settings req) t₃.pick.fresh) req'.tenantId
      · obtain ⟨htaken, hlost⟩ := hstored hrec
        constructor
        · intro h
          refine ⟨hok, hrec, ?_, hlocks⟩
          by_contra hno
          exact raised (hlost hno) h
        · rintro ⟨-, -, h, -⟩
          exact htaken h
      · exact iff_of_false (raised (hrefused hrec)) fun h => hrec h.2.1
  · exact iff_of_false (raised (hrefused hok)) fun h => hok h.1

/-! ### A failed upload -/

/-- The turns of an ingest whose object cannot be stored. -/
def failedPut : List AnyTurn :=
  [⟨0, {}⟩, ⟨0, {}⟩, ⟨0, {}⟩, ⟨0, { fresh := ⟨1⟩ }⟩, ⟨0, { fresh := ⟨2⟩ }⟩, ⟨0, { fault := .before "no bucket" }⟩]

/-- A turn in which the request works, after the time `d`, and draws the identifier `u`. -/
def served (d : Nat) (u : BitVec 128) : Turn := ⟨d, { fresh := ⟨u⟩ }, rfl⟩

/-- A check of how the call ends: it fails, and there is no job. -/
def jobless? (o : (faulty D).Outcome Out) : Bool :=
  (match o.result with
  | .ok _ => false
  | .error _ => true) &&
  (World.db o.world).jobs.isEmpty

theorem not_job_of_check {o : (faulty D).Outcome Out} (h : jobless? o = true) :
    (∃ x, o.result = .error x) ∧ ∀ digest, (World.db o.world).jobByHash? digest = none := by
  obtain ⟨hr, hj⟩ := Bool.and_eq_true_iff.mp h
  refine ⟨?_, fun digest => ?_⟩
  · cases hres : o.result with
    | ok a =>
      rw [hres] at hr
      cases hr
    | error x => exact ⟨x, rfl⟩
  · rw [jobByHash?, List.isEmpty_iff.mp hj]
    rfl

/-- The retry comes when the lock of the failed ingest has expired. -/
theorem retried_iff_sample : ∃ (o : (faulty (sample .atomic)).Outcome Out) (n : Nat)
    (o' : (turns (sample .atomic)).Outcome Out),
    (∃ x, o.result = .error x) ∧
    (turns (sample .atomic)).alone 1 ((service (sample .atomic)).code (.acceptImage {} sampleRequest))
      (Turns.first (T := turns (sample .atomic)) (fun n => served (seconds 41) n) n) o.world = some o' ∧
    (Retried o.world o' ↔ Admissible {} sampleRequest ∧
      Recordable (contentItem {} sampleRequest (strip sampleRequest.caption)
        (digestOf (sample .atomic) {} sampleRequest) (served (seconds 41) 3).pick.fresh) sampleRequest.tenantId ∧
      TakesJob {} sampleRequest.carrier (contentItem {} sampleRequest (strip sampleRequest.caption)
        (digestOf (sample .atomic) {} sampleRequest) (served (seconds 41) 3).pick.fresh)
        (served (seconds 41) 4).pick.fresh o.world ∧
      ¬ LockLasts (digestOf (sample .atomic) {} sampleRequest) (World.now o.world +
        (turns (sample .atomic)).spent (fun n => served (seconds 41) n) 3) (boot (sample .atomic) 0).world ∧
      ∀ y ∈ o.served, ¬ TakesLock (digestOf (sample .atomic) {} sampleRequest) (World.now o.world +
        (turns (sample .atomic)).spent (fun n => served (seconds 41) n) 3) y) := by
  have hrun : ((faulty (sample .atomic)).alone 0
    ((service (sample .atomic)).code (.acceptImage {} sampleRequest)) failedPut
      (boot (sample .atomic) 0).world).any (fun o => jobless? o &&
        ((turns (sample .atomic)).alone 1 ((service (sample .atomic)).code (.acceptImage {} sampleRequest))
          (Turns.first (T := turns (sample .atomic)) (fun n => served (seconds 41) n) 13) o.world).isSome) =
              true := by
    decide +kernel
  obtain ⟨o, ho, h⟩ := (Option.any_eq_true _ _).mp hrun
  obtain ⟨hcheck, hsome⟩ := Bool.and_eq_true_iff.mp h
  obtain ⟨hx, hn⟩ := not_job_of_check hcheck
  obtain ⟨o', ho'⟩ := Option.isSome_iff_exists.mp hsome
  obtain ⟨n, o'', h'⟩ := retried_iff ⟨[], .nil⟩ rfl rfl (by decide) rfl ho (hn _) (Turns.not_refuses_of_alone ho')
  exact ⟨o, n, o'', hx, h'⟩

/-- After a failed upload, an immediate retry is refused as a concurrent ingest. -/
theorem retry_refused : ∃ (o : (faulty (sample .atomic)).Outcome Out) (ts : List Turn)
    (o' : (turns (sample .atomic)).Outcome Out),
    (faulty (sample .atomic)).alone 0 ((service (sample .atomic)).code (.acceptImage {} sampleRequest)) failedPut
      (boot (sample .atomic) 0).world = some o ∧
    (∃ x, o.result = .error x) ∧ (∀ digest, (World.db o.world).jobByHash? digest = none) ∧
    (turns (sample .atomic)).alone 1 ((service (sample .atomic)).code (.acceptImage {} sampleRequest)) ts
    o.world = some o' ∧
    o'.result = .error (.httpException 409 "Concurrent ingest in progress; retry") ∧ ¬ Retried o.world o' := by
  have hrun : ((faulty (sample .atomic)).alone 0
    ((service (sample .atomic)).code (.acceptImage {} sampleRequest)) failedPut
      (boot (sample .atomic) 0).world).any (fun o => jobless? o &&
        ((turns (sample .atomic)).alone 1 ((service (sample .atomic)).code (.acceptImage {} sampleRequest))
          (List.replicate 44 (served 0 9)) o.world).any fun o' =>
            match o'.result with
            | .ok _ => false
            | .error x => decide (x = .httpException 409 "Concurrent ingest in progress; retry")) = true := by
    decide +kernel
  obtain ⟨o, ho, h⟩ := (Option.any_eq_true _ _).mp hrun
  obtain ⟨hcheck, hretry⟩ := Bool.and_eq_true_iff.mp h
  obtain ⟨hx, hn⟩ := not_job_of_check hcheck
  obtain ⟨o', ho', hres⟩ := (Option.any_eq_true _ _).mp hretry
  have hres' : o'.result = .error (.httpException 409 "Concurrent ingest in progress; retry") := by
    cases hr : o'.result with
    | ok a =>
      rw [hr] at hres
      cases hres
    | error x =>
      rw [hr] at hres
      rw [of_decide_eq_true hres]
  refine ⟨o, _, o', ho, hx, hn, ho', hres', ?_⟩
  rintro ⟨r, hr, response, -, -, -, rfl, -⟩
  rw [hres'] at hr
  cases hr

end CM
