import ContentModeration.Proof.Specs

/-!
# The worker follows the rules

A delivery that returns has left a decision of its job, and one that ends in
`ValidationError` has left its rejection (`handleJob_spec`), so that the
messages the worker deletes and acknowledges have done their work.
-/

namespace CM

open Database World

variable {D : Deployment} {A : Prop} {i : Nat} {e : Entry} {α : Type}

/-! ## `persist_envelope` -/

theorem lasting_hasJob (job : Uuid) : Lasting fun s => s.db.HasJob job := fun _ _ hg h => h.mono hg.db

theorem lasting_decided (job : Uuid) : Lasting fun s => s.db.Decided job := fun _ _ hg h => h.mono hg.db

theorem lasting_true : Lasting fun _ => True := fun _ _ _ h => h

/-- A decision that has been written in this transaction has no review. -/
theorem no_review {s : World} {ws : List Write} {t : Time} {d : DecisionRow} (hi : Inv s)
    (ht : s.txn i = some (.active t (.decision d :: ws))) (hr : ws.filterMap Write.review? = []) :
    ((s.db.applyAll (.decision d :: ws)).reviews.find? (·.decisionId = d.id)).isSome = false := by
  rw [Bool.eq_false_iff, ne_eq, Option.isSome_iff_exists]
  rintro ⟨r, hf⟩
  have hid : r.decisionId = d.id := by simpa using List.find?_some hf
  obtain ⟨r₀, hl, h₀ | h₀⟩ := link_of_mem_reviews (List.mem_of_find?_eq_some hf)
  · obtain ⟨d', hd', hid'⟩ := (hi.stored.fk.reviews r₀ h₀).1
    have hk := hi.stored.keys i
    rw [pending_of_txn ht, List.flatMap_cons, ← List.append_assoc] at hk
    have hdis := List.disjoint_of_nodup_append hk.of_append_left
    refine hdis (a := .decisionId d.id) ?_ (by simp [Write.keys])
    have heq : d'.id = d.id := hid'.trans ((congrArg (·.2.1) hl).trans hid)
    simp only [keys, List.mem_append, List.mem_map]
    exact .inl (.inl (.inl (.inr ⟨d', hd', by rw [heq]⟩)))
  · have hm : r₀ ∈ ws.filterMap Write.review? := by
      rcases List.mem_cons.mp h₀ with h | h
      · cases h
      · exact List.mem_filterMap.mpr ⟨_, h, rfl⟩
    rw [hr] at hm
    cases hm

theorem run_markSucceeded {s : World} {ws ws' : List Write} {job : Uuid} {t : Time} {u : Uuid} {a : Unit}
    (hj : s.db.HasJob job) (hr : (Sql.markSucceeded job).run (s.db.applyAll ws) t u = .ok (a, ws')) :
    ws' = [.updateJob job (.succeeded t)] := by
  simp only [Sql.run, Except.ok.injEq, Prod.mk.injEq] at hr
  obtain ⟨j, hm, rfl⟩ := hj.mono (extends_applyAll s.db ws)
  rw [← hr.2, updateJobIf, if_pos]
  exact List.find?_isSome.mpr ⟨j, hm, by simp⟩

theorem run_insertAudit {db : Database} {row : AuditRow} {t : Time} {u : Uuid} {a : Unit} {ws : List Write}
    (hr : (Sql.insertAudit row).run db t u = .ok (a, ws)) : ws = [.audit row] := by
  simp only [Sql.run] at hr
  exact (insert_ok hr).2.1

theorem run_insertMetric {db : Database} {eventType : String} {payload : Json} {t : Time} {u : Uuid}
    {a : Unit} {ws : List Write} (hr : (Sql.insertMetric eventType payload).run db t u = .ok (a, ws)) :
    ws = [.metric ⟨eventType, payload⟩] := by
  simp only [Sql.run] at hr
  exact (insert_ok hr).2.1

theorem persistNew_spec (envelope : DecisionEnvelope) (id : Uuid) (t : Time) :
    (rules D A).Triple i e
      (fun s => Open A i t [.decision ⟨id, envelope⟩] s ∧ s.db.HasJob envelope.jobId)
      (persistNew envelope id) fun r s => match r with
        | .ok _ => ∃ ws, Open A i t ws s ∧ (∃ reviewId, ws = decisionBundle envelope id reviewId t) ∧
          Complete i s ws
        | .error _ => Clear A i s := by
  have hK := lasting_hasJob envelope.jobId
  have broken : ∀ (x : Exn) (s : World), Broken A i s → s.db.HasJob envelope.jobId → Clear A i s :=
    fun _ _ h _ => h.clear
  refine stmt_bind_write hK (w := fun _ => .updateJob envelope.jobId (.succeeded t)) trivial
    (fun s u a ws' _ hj _ hr => run_markSucceeded hj hr) broken fun _ _ => ?_
  refine stmt_bind_write hK
    (w := fun _ => .audit ⟨"decision", id, "created", "worker", .dumps (decisionDetail envelope)⟩) trivial
    (fun s u a ws' _ _ _ hr => run_insertAudit hr) broken fun _ _ => ?_
  refine stmt_bind_write hK (w := fun _ => .metric ⟨"decision", decisionMetric envelope⟩) trivial
    (fun s u a ws' _ _ _ hr => run_insertMetric hr) broken fun _ _ => ?_
  by_cases hn : envelope.needsHumanReview = true
  · rw [if_pos hn]
    refine stmt_bind_write hK (w := fun u => .review
        { id := u, decisionId := id, contentId := envelope.contentId, jobId := envelope.jobId
          status := .pending, priority := reviewPriority envelope.decision envelope.confidence
          createdAt := t }) trivial ?_ broken fun _ u => ?_
    · intro s u a ws' hi _ ht hr
      simp only [List.cons_append, List.nil_append] at ht hr
      have hnone := no_review hi ht rfl
      simp only [Sql.run] at hr
      rw [if_neg (by rw [hnone]; exact Bool.false_ne_true)] at hr
      exact (insert_ok hr).2.1
    · refine stmt_bind_write hK (w := fun _ => .audit ⟨"review", id, "enqueued", "worker", .cast "\x7b\x7d"⟩)
        trivial (fun s u a ws' _ _ _ hr => run_insertAudit hr) broken fun _ _ => ?_
      refine Rules.Triple.ret (fun s s' hk _ h => ⟨steady_open _ _ s s' hk h.1, hK s s' hk.grows h.2⟩)
        fun s _ h => ⟨_, h.1, ⟨u, ?_⟩, ?_⟩
      · simp [decisionBundle, hn]
      · have := Complete.decision (i := i) (s := s) envelope id u t
        simpa [decisionBundle, hn] using this
  · rw [if_neg hn]
    refine Rules.Triple.ret (fun s s' hk _ h => ⟨steady_open _ _ s s' hk h.1, hK s s' hk.grows h.2⟩)
      fun s _ h => ⟨_, h.1, ⟨id, ?_⟩, ?_⟩
    · simp [decisionBundle, hn]
    · have := Complete.decision (i := i) (s := s) envelope id id t
      simpa [decisionBundle, hn] using this

theorem run_decisionEnvelope {db : Database} {job : Uuid} {t : Time} {u : Uuid} {a : Option DecisionEnvelope}
    {ws : List Write} (hr : (Sql.decisionEnvelope job).run db t u = .ok (a, ws)) :
    a = (db.decisionOf? job).map (·.envelope) ∧ ws = [] := by
  simp only [Sql.run, Except.ok.injEq, Prod.mk.injEq] at hr
  exact ⟨hr.1.symm, hr.2.symm⟩

theorem run_insertDecision {db : Database} {envelope : DecisionEnvelope} {t : Time} {u : Uuid}
    {a : Option Uuid} {ws : List Write} (hr : (Sql.insertDecision envelope).run db t u = .ok (a, ws)) :
    (a = none ∧ ws = [] ∧ db.Decided envelope.jobId) ∨
    (∃ id, a = some id ∧ ws = [.decision ⟨id, envelope⟩] ∧ db.HasJob envelope.jobId) := by
  simp only [Sql.run] at hr
  split at hr
  · rename_i hd
    cases hr
    exact .inl ⟨rfl, rfl, decisionOf?_isSome.mp hd⟩
  · obtain ⟨ha, hw, hwr⟩ := insert_ok hr
    exact .inr ⟨u, ha, hw, (hwr.refs _ List.mem_cons_self).1⟩

/-- What `persist_envelope` knows of its writes when it commits them. -/
def PersistEnd (envelope : DecisionEnvelope) (t : Time) (ws : List Write) (s : World) : Prop :=
  (ws = [] ∧ s.db.Decided envelope.jobId) ∨ ∃ id reviewId, ws = decisionBundle envelope id reviewId t

theorem PersistEnd.no_job {envelope : DecisionEnvelope} {t : Time} {ws : List Write} {s : World}
    (h : PersistEnd envelope t ws s) (j : Job) : .job j ∉ ws := by
  rcases h with ⟨rfl, -⟩ | ⟨id, reviewId, rfl⟩
  · exact List.not_mem_nil
  · simp only [decisionBundle]
    split <;> simp

theorem PersistEnd.decided {envelope : DecisionEnvelope} {t : Time} {ws : List Write} {s : World}
    (h : PersistEnd envelope t ws s) : (s.db.applyAll ws).Decided envelope.jobId := by
  rcases h with ⟨rfl, hd⟩ | ⟨id, reviewId, rfl⟩
  · exact hd
  · refine ⟨⟨id, envelope⟩, ?_, rfl⟩
    rw [decisions_decisionBundle]
    exact List.mem_append_right _ List.mem_cons_self

theorem lasting_persistEnd (envelope : DecisionEnvelope) (t : Time) (ws : List Write) :
    Lasting (PersistEnd envelope t ws) :=
  fun s s' hg h => h.imp_left fun h => ⟨h.1, lasting_decided _ s s' hg h.2⟩

/-- The transaction of `persist_envelope` after its first statement. -/
theorem persistFound_spec (envelope : DecisionEnvelope) (t : Time) :
    (rules D A).Triple i e (fun s => Open A i t [] s ∧ s.db.Decided envelope.jobId)
      (do match ← sql (.decisionEnvelope envelope.jobId) with
          | some stored => return stored
          | none => throw (.error "'NoneType' object is not subscriptable"))
      fun r s => match r with
        | .ok _ => ∃ ws, Open A i t ws s ∧ Complete i s ws ∧ PersistEnd envelope t ws s
        | .error _ => True ∧ Clear A i s := by
  refine stmt_bind (L := fun _ ws' _ => ws' = []) (lasting_decided _) (fun _ _ _ _ _ h => h) trivial
    (fun _ _ _ _ _ _ _ hr => (run_decisionEnvelope hr).2) (fun _ _ h _ => ⟨trivial, h.clear⟩) fun a ws' => ?_
  have hstable : (rules D A).Stable i fun s =>
      Open A i t ([] ++ ws') s ∧ s.db.Decided envelope.jobId ∧ ws' = [] :=
    fun s s' hk _ h => ⟨steady_open _ _ s s' hk h.1, lasting_decided _ s s' hk.grows h.2.1, h.2.2⟩
  cases a with
  | some stored =>
    refine Rules.Triple.ret hstable fun s _ ⟨ho, hd, hw⟩ => ?_
    subst hw
    exact ⟨[], ho, .nil, .inl ⟨rfl, hd⟩⟩
  | none => exact Rules.Triple.throw hstable fun s _ h => ⟨trivial, h.1.clear⟩

/-- `persist_envelope` leaves the job with a decision. -/
theorem persistEnvelope_spec (envelope : DecisionEnvelope) :
    Spec D A i e (fun _ => True) (persistEnvelope envelope) fun r s => match r with
      | .ok _ => s.db.Decided envelope.jobId
      | .error _ => True := by
  refine Rules.Triple.mono (transaction_spec (P := fun _ => PersistEnd envelope) lasting_true
    (fun _ => lasting_persistEnd envelope) (fun _ _ _ _ h => .inl h.no_job) fun t => ?_)
    (fun _ _ h => h) fun r s _ h => ?_
  · refine stmt_bind (L := fun a ws' s => (a = none ∧ ws' = [] ∧ s.db.Decided envelope.jobId) ∨
        ∃ id, a = some id ∧ ws' = [.decision ⟨id, envelope⟩] ∧ s.db.HasJob envelope.jobId)
      lasting_true (fun a ws' s s' hg h => ?_) trivial (fun _ _ _ _ _ _ _ hr => run_insertDecision hr)
      (fun _ _ h _ => ⟨trivial, h.clear⟩) fun a ws' s hi => ?_
    · exact h.imp (fun h => ⟨h.1, h.2.1, h.2.2.mono hg.db⟩)
        fun ⟨id, h⟩ => ⟨id, h.1, h.2.1, h.2.2.mono hg.db⟩
    · rintro ⟨ho, -, ⟨rfl, rfl, hd⟩ | ⟨id, rfl, rfl, hj⟩⟩
      · refine (persistFound_spec envelope t).mono (fun _ _ h => h) (fun r s _ h => ?_) s hi ⟨ho, hd⟩
        cases r <;> exact h
      · refine (persistNew_spec envelope id t).mono (fun _ _ h => h) (fun r s _ h => ?_) s hi ⟨ho, hj⟩
        cases r with
        | ok a =>
          obtain ⟨ws, ho, ⟨reviewId, hw⟩, hc⟩ := h
          exact ⟨ws, ho, hc, .inr ⟨id, reviewId, hw⟩⟩
        | error x => exact ⟨trivial, h⟩
  · cases r with
    | ok a =>
      obtain ⟨t, ws, hc⟩ := h
      obtain ⟨s₀, -, hp, hx⟩ := hc.extends
      exact ⟨hc.idle hp.no_job, hp.decided.mono hx⟩
    | error x => exact ⟨h, trivial⟩

/-! ## `process_job` -/

theorem decided_of_decisionOf? {db : Database} {job : Uuid} {f : DecisionRow → α} {a : α}
    (h : (db.decisionOf? job).map f = some a) : db.Decided job := by
  rw [← decisionOf?_isSome, ← Option.isSome_map (f := f), h]
  rfl

/-- `process_job` leaves the job with a decision. -/
theorem processJob_spec (settings : WorkerSettings) (job : JobMessage) :
    Spec D A i e (fun _ => True) (processJob settings job) fun r s => match r with
      | .ok _ => s.db.Decided job.jobId
      | .error _ => True := by
  have hK : Steady i fun _ => True := steady_const True
  have raise : ∀ (x : Exn) (s : World), True → x.Plain → True := fun _ _ _ _ => trivial
  have alone : ∀ {st : Sql}, (∀ s, st.Alone D s) → ∀ s, s.txn i = none → Contract D i s (.sql st) :=
    fun h s ht => contract_sql ht (h s)
  refine Spec.skip trivial hK (fun _ _ => trivial) raise fun started => ?_
  refine Spec.request (q := .sql _) trivial hK (fun s _ ht _ => contract_sql ht trivial) raise fun found => ?_
  cases found with
  | some id =>
    refine Spec.mono (K := fun s => s.db.Decided job.jobId) ?_ (fun s h => ?_) fun _ _ h => h
    · refine Spec.skip (q := .sql _) trivial (steady_decided _) (alone fun _ => trivial)
        (fun _ _ _ _ => trivial) fun stored => ?_
      cases stored with
      | some envelope => exact Spec.ret (steady_decided _) fun _ _ h => h
      | none => exact Spec.throw (steady_decided _) fun _ _ _ => trivial
    · obtain ⟨s₀, u, ws, -, -, hr, hk⟩ := h.2.sql
      simp only [Sql.run, Except.ok.injEq, Prod.mk.injEq] at hr
      exact ((decided_of_decisionOf? hr.1).mono (extends_applyAll _ ws)).mono hk.grows.db
  | none =>
    refine Spec.mono (K := fun _ => True) ?_ (fun _ _ => trivial) fun _ _ h => h
    refine Spec.skip (q := .sql _) trivial hK (alone fun _ => trivial) raise fun _ => ?_
    refine Spec.skip trivial hK (fun _ _ => trivial) raise fun image => ?_
    refine Spec.bind (P := fun _ _ => True) (Spec.ofExcept hK fun _ _ h => h) (fun _ _ _ => trivial) fun _ => ?_
    refine Spec.skip trivial hK (fun _ _ => trivial) raise fun vision => ?_
    refine Spec.skip trivial hK (fun _ _ => trivial) raise fun suggestion => ?_
    refine Spec.skip trivial hK (fun _ _ => trivial) raise fun finished => ?_
    refine Spec.bind (P := fun r _ => ∀ envelope, r = .ok envelope → envelope.jobId = job.jobId)
      (Spec.ofExcept hK fun s _ _ envelope h => ?_) (fun _ _ _ => trivial) fun envelope => ?_
    · simp only [buildEnvelope] at h
      split at h
      · cases h
        rfl
      · cases h
    · refine Spec.assume (fun _ h => h envelope rfl) fun hid => ?_
      refine Spec.mono (persistEnvelope_spec envelope) (fun _ _ => trivial) fun r s h => ?_
      cases r with
      | ok a => exact hid ▸ h
      | error x => trivial

/-! ## `handle_message` -/

/-- A worker's audit row of a job that has failed. -/
def FailedRow (s : World) (job : Uuid) : Prop :=
  ∃ row ∈ s.db.audit, row.entityType = "job" ∧ row.entityId = job ∧ row.actor = "worker" ∧
    (row.action = "failed" ∨ row.action = "dead")

theorem steady_failedRow (job : Uuid) : Steady i fun s => FailedRow s job :=
  fun _ _ hk ⟨row, hr, h⟩ => ⟨row, hk.grows.db.audit hr, h⟩

/-- `mark_failed` leaves an audit row of the job, if there is one. -/
theorem markFailed_spec (job : Uuid) (error : String) (p : Prop) :
    Spec D A i e (fun s => p → s.db.HasJob job) (markFailed job error) fun r s => match r with
      | .ok _ => p → FailedRow s job
      | .error x => x.Plain := by
  refine Spec.request (q := .sql _) trivial (steady_hasJob job).imp (fun s _ ht _ => contract_sql ht trivial)
    (fun _ _ _ h => h) fun found => ?_
  cases found with
  | none =>
    refine Spec.ret ((steady_hasJob job).imp.and (steady_answered _ _)) fun s _ h hp => ?_
    obtain ⟨s₀, u, ws, -, hj, hr, -⟩ := h.2.sql
    simp only [Sql.run, Except.ok.injEq, Prod.mk.injEq, Option.map_eq_none_iff] at hr
    have := job?_isSome.mpr (hj hp)
    rw [hr.1] at this
    cases this
  | some attempts =>
    obtain ⟨attempts, maxAttempts⟩ := attempts
    simp only
    refine Spec.mono (K := fun _ => True) (Spec.skip (q := .sql _) trivial (steady_const True)
      (fun s ht => contract_sql ht ?_) (fun _ _ _ h => h) fun _ => ?_) (fun _ _ => trivial) fun _ _ h => h
    · split
      · exact .inr rfl
      · exact .inl rfl
    refine Spec.mono (request_spec (q := .sql _) trivial (steady_const True)
      (fun s _ ht _ => contract_sql ht (show "job" ≠ "decision" by decide))) (fun _ _ => trivial) fun r s h => ?_
    cases r with
    | error x => exact h.2
    | ok a =>
      intro _
      obtain ⟨s₀, u, ws, -, -, hr, hk⟩ := Answered.sql h.2
      rw [run_insertAudit hr] at hk
      refine ⟨_, hk.grows.db.audit (List.mem_append_right _ List.mem_cons_self), rfl, rfl, rfl, ?_⟩
      simp only
      split
      · exact .inr rfl
      · exact .inl rfl

/-- How the handling of a job ends: `p` says that there is such a job. -/
def Handled (p : Prop) (job : Uuid) (r : Except Exn Unit) (s : World) : Prop :=
  match r with
  | .ok _ => s.db.Decided job
  | .error (.validationError _) => p → s.Rejected job
  | .error _ => True

theorem Handled.of_plain {p : Prop} {job : Uuid} {x : Exn} {s : World} (h : x.Plain) :
    Handled p job (.error x) s := by
  obtain ⟨text, rfl⟩ := h
  trivial

/-- The handling of a job that has not succeeded. -/
theorem attemptJob_spec (settings : WorkerSettings) (job : JobMessage) (p : Prop) :
    Spec D A i e (fun s => p → s.db.HasJob job.jobId)
      (do match ← (processJob settings job).attempt with
          | .ok _ => return ()
          | .error (.validationError reason) =>
            markFailed job.jobId ("validation: " ++ reason)
            let _ ← request (.log (.validationFailed job.jobId reason))
            throw (.validationError reason)
          | .error x =>
            markFailed job.jobId x.str
            let _ ← request (.log (.jobFailed job.jobId))
            throw x)
      (Handled p job.jobId) := by
  have hjob : Lasting fun s => p → s.db.HasJob job.jobId := fun _ _ hg h hp => (h hp).mono hg.db
  have hK : Steady i fun s => p → FailedRow s job.jobId := (steady_failedRow _).imp
  have hp := Spec.frame hjob (processJob_spec (D := D) (A := A) (i := i) (e := e) settings job)
  refine Spec.attempt_bind (hp.mono (fun _ h => ⟨trivial, h⟩) fun _ _ h => h) fun r => ?_
  have failed : ∀ (error : String) (Q : Except Exn Unit → World → Prop) (f : Unit → M Unit),
      (∀ x s, x.Plain → Q (.error x) s) →
      Spec D A i e (fun s => p → FailedRow s job.jobId) (f ()) Q →
      Spec D A i e (fun s => p → s.db.HasJob job.jobId) (markFailed job.jobId error >>= f) Q :=
    fun error Q f hx hf => Spec.bind (markFailed_spec job.jobId error p) hx fun _ => hf
  match r with
  | .ok envelope =>
    exact Spec.ret ((steady_decided _).and hjob.steady) fun _ _ h => h.1
  | .error (.validationError reason) =>
    refine Spec.mono (failed _ _ _ (fun _ _ => Handled.of_plain) ?_) (fun _ h => h.2) fun _ _ h => h
    refine Spec.request trivial hK (fun _ _ _ _ => trivial) (fun _ _ _ => Handled.of_plain) fun _ => ?_
    refine Spec.throw (hK.and (steady_answered _ _)) fun s _ h hp => ⟨⟨reason, ?_⟩, h.1 hp⟩
    obtain ⟨s₀, q, s₁, -, -, hx, -, -, hk⟩ := h.2
    cases hx
    exact hk.grows.log (List.mem_append_right _ List.mem_cons_self)
  | .error (.httpException ..) | .error (.error _) =>
    refine Spec.mono (failed _ _ _ (fun _ _ => Handled.of_plain) ?_) (fun _ h => h.2) fun _ _ h => h
    refine Spec.skip trivial hK (fun _ _ => trivial) (fun _ _ _ => Handled.of_plain) fun _ => ?_
    exact Spec.throw hK fun _ _ _ => trivial

theorem handleJob_spec (settings : WorkerSettings) (job : JobMessage) (p : Prop) :
    Spec D A i e (fun s => p → s.db.HasJob job.jobId) (handleJob settings job) (Handled p job.jobId) := by
  have hK : Steady i fun s => p → s.db.HasJob job.jobId := (steady_hasJob _).imp
  refine Spec.skip trivial hK (fun _ _ => trivial) (fun _ _ _ => Handled.of_plain) fun _ => ?_
  refine Spec.request (q := .sql _) trivial hK (fun s _ ht _ => contract_sql ht trivial)
    (fun _ _ _ => Handled.of_plain) fun status => ?_
  by_cases hs : status = some .succeeded
  · subst hs
    refine Spec.ret (hK.and (steady_answered _ _)) fun s _ h => ?_
    obtain ⟨s₀, u, ws, hi, -, hr, hk⟩ := h.2.sql
    simp only [Sql.run, Except.ok.injEq, Prod.mk.injEq, Option.map_eq_some_iff] at hr
    obtain ⟨⟨j, hj, hst⟩, rfl⟩ := hr
    have hid : j.id = job.jobId := by simpa using List.find?_some hj
    have hd := hi.stored.decided j (List.mem_of_find?_eq_some hj) hst
    exact (hid ▸ hd).mono hk.grows.db
  · have hrest := (attemptJob_spec (D := D) (A := A) (i := i) (e := e) settings job p).mono
      (L := fun s => (p → s.db.HasJob job.jobId) ∧
        Answered i (fun s => p → s.db.HasJob job.jobId) (.sql (.jobStatus job.jobId)) status s)
      (fun _ h => h.1) fun _ _ h => h
    cases status with
    | none => exact hrest
    | some status =>
      cases status with
      | succeeded => exact absurd rfl hs
      | _ => exact hrest

theorem plain_of_bodyString {body : Json} {key : String} {x : Exn} (h : bodyString body key = .error x) :
    x.Plain := by
  simp only [bodyString] at h
  split at h <;> cases h <;> exact ⟨_, rfl⟩

theorem plain_of_bodyUuid {body : Json} {key : String} {x : Exn} (h : bodyUuid body key = .error x) :
    x.Plain := by
  simp only [bodyUuid] at h
  cases hs : bodyString body key with
  | error y =>
    rw [hs] at h
    cases h
    exact plain_of_bodyString hs
  | ok text =>
    rw [hs] at h
    simp only [Except.bind, bind] at h
    split at h <;> cases h
    exact ⟨_, rfl⟩

theorem Except.bind_error {ε γ δ : Type} {m : Except ε γ} {f : γ → Except ε δ} {x : ε}
    (h : m >>= f = .error x) : m = .error x ∨ ∃ a, m = .ok a ∧ f a = .error x := by
  cases m with
  | error y =>
    cases h
    exact .inl rfl
  | ok a => exact .inr ⟨a, rfl, h⟩

/-- A body that is no job message raises no `ValidationError`. -/
theorem plain_of_readJobMessage {body : Json} {x : Exn} (h : readJobMessage body = .error x) : x.Plain := by
  rcases Except.bind_error h with h | ⟨jobId, -, h⟩
  · exact plain_of_bodyUuid h
  rcases Except.bind_error h with h | ⟨contentId, -, h⟩
  · exact plain_of_bodyUuid h
  rcases Except.bind_error h with h | ⟨contentHash, -, h⟩
  · exact plain_of_bodyString h
  rcases Except.bind_error h with h | ⟨objectKey, -, h⟩
  · exact plain_of_bodyString h
  simp only at h
  split at h
  · cases h
  · rcases Except.bind_error h with h | ⟨caption, -, h⟩
    · exact plain_of_bodyString h
    · cases h

/-- How a delivery of the body `b` ends: `p` says that the job of `b` is committed. -/
def Consumed (p : Prop) (b : RawBody) (r : Except Exn Unit) (s : World) : Prop :=
  match r with
  | .ok _ | .error (.validationError _) => p → s.Discharged b
  | .error _ => True

theorem handleMessage_spec (settings : WorkerSettings) (body : Json) (p : Prop) :
    Spec D A i e (fun s => p → BodyOk s.db (.json body)) (handleMessage settings body)
      (Consumed p (.json body)) := by
  simp only [handleMessage]
  cases h : readJobMessage body with
  | error x =>
    obtain ⟨text, rfl⟩ := plain_of_readJobMessage h
    exact Spec.throw (steady_bodyOk _).imp fun _ _ _ => trivial
  | ok job =>
    have hreads : Reads (.json body) job := ⟨body, rfl, h⟩
    refine Spec.mono (handleJob_spec settings job p) (fun s hb hp => ?_) fun r s hr => ?_
    · obtain ⟨j, hj, hl⟩ := List.mem_map.mp (hb hp job hreads).1
      exact ⟨j, hj, congrArg Prod.fst hl⟩
    · match r, hr with
      | .ok _, hd => exact fun _ => ⟨job, hreads, .inl hd⟩
      | .error (.validationError _), hr => exact fun hp => ⟨job, hreads, .inr (hr hp)⟩
      | .error (.httpException ..), _ | .error (.error _), _ => trivial

theorem consume_spec (settings : WorkerSettings) (b : RawBody) :
    Spec D A i e (fun s => BodyOk s.db b) (consume settings b) (Consumed True b) := by
  match b with
  | .json (.obj fields) =>
    exact Spec.mono (handleMessage_spec settings (.obj fields) True) (fun _ h _ => h) fun _ _ h => h
  | .text _ | .raises _ | .json .null | .json (.bool _) | .json (.int _) | .json (.float _) | .json (.str _)
  | .json (.lone _) | .json (.arr _) => exact Spec.throw (steady_bodyOk _) fun _ _ _ => trivial

/-! ## The loops of the worker -/

/-- The message `m` has been in a queue, and its job is committed. -/
structure Seen (m : Message) (s : World) : Prop where
  below : m.id < s.nextMsg
  body : ∀ m' ∈ s.messages, m'.id = m.id → m'.body = m.body
  ok : BodyOk s.db m.body

theorem lasting_seen (m : Message) : Lasting (Seen m) := fun _ _ hg h => by
  refine ⟨Nat.lt_of_lt_of_le h.below hg.nextMsg, fun m' hm' hid => ?_, h.ok.mono hg.db⟩
  rcases hg.messages m' hm' with hm' | hle
  · exact h.body m' hm' hid
  · have := h.below
    omega

theorem seen_of_mem {m : Message} {s : World} (hi : Inv s) (hm : m ∈ s.messages) : Seen m s := by
  refine ⟨hi.queued.below m hm, fun m' hm' hid => ?_, hi.queued.bodies m hm⟩
  rw [List.inj_on_of_nodup_map hi.queued.ids hm' hm hid]

theorem mem_queue_of_pick {s : World} {q : QueueName} {ids : List Nat} {ms : List Message}
    (h : s.pick q ids = some ms) : ∀ m ∈ ms, m ∈ s.queue q := by
  simp only [pick] at h
  induction ids generalizing ms with
  | nil =>
    cases h
    exact fun m hm => absurd hm List.not_mem_nil
  | cons id ids ih =>
    rw [List.mapM_cons] at h
    obtain ⟨m, hm, h⟩ := Option.bind_eq_some_iff.mp h
    obtain ⟨rest, hr, h⟩ := Option.bind_eq_some_iff.mp h
    cases h
    intro m' hm'
    rcases List.mem_cons.mp hm' with rfl | hm'
    · exact List.mem_of_find?_eq_some hm
    · exact ih hr m' hm'

theorem mem_of_pick {s : World} {q : QueueName} {ids : List Nat} {ms : List Message}
    (h : s.pick q ids = some ms) : ∀ m ∈ ms, m ∈ s.messages := by
  intro m hm
  have hq := mem_queue_of_pick h m hm
  cases q
  · exact List.mem_append_left _ hq
  · exact List.mem_append_right _ hq

/-- The messages that were received. -/
theorem Answered.receive {q : QueueName} {max : Nat} {ms : List Message} {K : World → Prop} {s : World}
    (h : Answered i K (.receive q max) ms s) : ∀ m ∈ ms, Seen m s := by
  obtain ⟨s₀, p, s₁, hi, -, hx, -, h₀, h₁⟩ := h
  intro m hm
  refine lasting_seen m s₀ s (h₀.trans h₁).grows (seen_of_mem hi ?_)
  simp only [World.exec] at hx
  split at hx
  · obtain ⟨ms', hpick, ha⟩ := Option.map_eq_some_iff.mp hx
    obtain ⟨rfl, -⟩ := answer_ok ha
    exact mem_of_pick hpick m hm
  · cases hx

/-- The work of the message `id` is done. -/
structure Finished (id : Nat) (s : World) : Prop where
  below : id < s.nextMsg
  released : s.Released id

theorem lasting_finished (id : Nat) : Lasting (Finished id) := fun _ _ hg h => by
  obtain ⟨b, hb, hc⟩ := h.released
  refine ⟨Nat.lt_of_lt_of_le h.below hg.nextMsg, b, fun m hm hid => ?_, hg.covered _ _ hc⟩
  rcases hg.messages m hm with hm | hle
  · exact hb m hm hid
  · have := h.below
    omega

theorem Seen.finished {m : Message} {s : World} (h : Seen m s) (hd : s.Discharged m.body) :
    Finished m.id s := ⟨h.below, m.body, h.body, .inr hd⟩

theorem deliverSqs_spec (settings : WorkerSettings) (msg : Message) :
    Spec D A i e (Seen msg) (deliverSqs settings msg) fun _ _ => True := by
  have hs := (lasting_seen msg).steady (i := i)
  have hf := (lasting_finished msg.id).steady (i := i)
  have delete : ∀ {K : World → Prop} {Q : Except Exn Unit → World → Prop}, (∀ s, K s → Finished msg.id s) →
      (∀ r s, Finished msg.id s → Q r s) → Spec D A i e K (request (.delete .main msg.id)) Q :=
    fun hK hQ => Spec.mono (request_spec trivial hf fun s _ _ h => h.released) hK fun r s h => hQ r s h.1
  have hc := Spec.frame (lasting_seen msg)
    (Spec.mono (consume_spec (D := D) (A := A) (i := i) (e := e) settings msg.body)
      (fun s (h : Seen msg s) => h.ok) fun _ _ h => h)
  refine Spec.attempt_bind (P := fun r s => ∀ reason, r = .error (.validationError reason) → Finished msg.id s)
    ?_ fun r => ?_
  · refine Spec.bind (Spec.mono hc (fun _ h => ⟨h, h⟩) fun _ _ h => h) (fun x s h reason hx => ?_) fun _ => ?_
    · cases hx
      exact h.2.finished (h.1 trivial)
    · exact delete (fun s h => h.2.finished (h.1 trivial)) fun r s h _ _ => h
  · have hP : Steady i fun s => ∀ reason, r = .error (.validationError reason) → Finished msg.id s :=
      .all fun _ => hf.imp
    cases r with
    | ok u => exact Spec.ret hP fun _ _ _ => trivial
    | error x =>
      cases x with
      | validationError reason => exact delete (fun _ h => h reason rfl) fun _ _ _ => trivial
      | _ => exact Spec.ret hP fun _ _ _ => trivial

theorem lasting_seen_all (ms : List Message) : Lasting fun s => ∀ m ∈ ms, Seen m s :=
  fun s s' hg h m hm => lasting_seen m s s' hg (h m hm)

theorem deliverAllSqs_spec (settings : WorkerSettings) (ms : List Message) :
    Spec D A i e (fun s => ∀ m ∈ ms, Seen m s) (deliverAllSqs settings ms) fun _ _ => True := by
  induction ms with
  | nil => exact Spec.ret (lasting_seen_all []).steady fun _ _ _ => trivial
  | cons msg ms ih =>
    have hd := Spec.frame (lasting_seen_all ms) (deliverSqs_spec (D := D) (A := A) (i := i) (e := e) settings msg)
    refine Spec.bind (Spec.mono hd (fun s h => ?_) fun _ _ h => h) (fun _ _ _ => trivial) fun _ =>
      Spec.mono ih (fun _ h => h.2) fun _ _ h => h
    exact ⟨h msg List.mem_cons_self, fun m hm => h m (List.mem_cons_of_mem _ hm)⟩

/-- A round of a loop that receives messages. -/
theorem receive_spec (queue : QueueName) (max : Nat) :
    Spec D A i e (fun _ => True) (request (.receive queue max)) fun r s => match r with
      | .ok ms => ∀ m ∈ ms, Seen m s
      | .error _ => True := by
  refine Spec.mono (request_spec trivial (steady_const True) fun _ _ _ _ => trivial) (fun _ _ => trivial)
    fun r s h => ?_
  cases r with
  | ok ms => exact Answered.receive h.2
  | error x => trivial

theorem pollSqs_spec (settings : WorkerSettings) (rounds : Nat) :
    Spec D A i e (fun _ => True) (pollSqs settings rounds) fun _ _ => True := by
  induction rounds with
  | zero => exact Spec.ret (steady_const _) fun _ _ _ => trivial
  | succ rounds ih =>
    refine Spec.attempt_bind (receive_spec .main 5) fun r => ?_
    cases r with
    | error x =>
      exact Spec.skip trivial (steady_const _) (fun _ _ => trivial) (fun _ _ _ _ => trivial) fun _ => ih
    | ok ms =>
      exact Spec.bind (deliverAllSqs_spec settings ms) (fun _ _ h => h) fun _ => ih

/-! ### Pub/Sub -/

theorem lasting_finished_all (ids : List Nat) : Lasting fun s => ∀ id ∈ ids, Finished id s :=
  fun s s' hg h id hid => lasting_finished id s s' hg (h id hid)

/-- Only messages whose work is done are acknowledged. -/
theorem deliverPubsub_spec (settings : WorkerSettings) (acks : Acks) (received : List Message) :
    Spec D A i e (fun s => (∀ m ∈ received, Seen m s) ∧ ∀ id ∈ acks.ackIds, Finished id s)
      (deliverPubsub settings acks received) fun r s => match r with
        | .ok acks => ∀ id ∈ acks.ackIds, Finished id s
        | .error _ => True := by
  induction received generalizing acks with
  | nil =>
    exact Spec.ret ((lasting_seen_all []).and (lasting_finished_all _)).steady fun _ _ h => h.2
  | cons msg received ih =>
    have hL : Lasting fun s => (Seen msg s ∧ ∀ m ∈ received, Seen m s) ∧ ∀ id ∈ acks.ackIds, Finished id s :=
      ((lasting_seen msg).and (lasting_seen_all received)).and (lasting_finished_all _)
    have hc := Spec.frame hL (Spec.mono
      (L := fun s => (Seen msg s ∧ ∀ m ∈ received, Seen m s) ∧ ∀ id ∈ acks.ackIds, Finished id s)
      (consume_spec (D := D) (A := A) (i := i) (e := e) settings msg.body) (fun _ h => h.1.1.ok) fun _ _ h => h)
    refine Spec.attempt_bind (Spec.mono hc (fun s h => ?_) fun _ _ h => h) fun r => ?_
    · have hs : (Seen msg s ∧ ∀ m ∈ received, Seen m s) ∧ ∀ id ∈ acks.ackIds, Finished id s :=
        ⟨⟨h.1 msg List.mem_cons_self, fun m hm => h.1 m (List.mem_cons_of_mem _ hm)⟩, h.2⟩
      exact ⟨hs, hs⟩
    · have acked : ∀ s, s.Discharged msg.body →
          (Seen msg s ∧ ∀ m ∈ received, Seen m s) ∧ (∀ id ∈ acks.ackIds, Finished id s) →
          (∀ m ∈ received, Seen m s) ∧ ∀ id ∈ acks.ackIds ++ [msg.id], Finished id s := by
        intro s hd h
        refine ⟨h.1.2, fun id hid => ?_⟩
        rcases List.mem_append.mp hid with hid | hid
        · exact h.2 id hid
        · exact List.mem_singleton.mp hid ▸ h.1.1.finished hd
      match r with
      | .ok _ | .error (.validationError _) =>
        exact Spec.mono (ih _) (fun s h => acked s (h.1 trivial) h.2) fun _ _ h => h
      | .error (.httpException ..) | .error (.error _) =>
        exact Spec.mono (ih _) (fun s h => ⟨h.2.1.2, h.2.2⟩) fun _ _ h => h

theorem settle_spec (acks : Acks) :
    Spec D A i e (fun s => ∀ id ∈ acks.ackIds, Finished id s) (settle acks) fun _ _ => True := by
  have hK := (lasting_finished_all acks.ackIds).steady (i := i)
  have nack : ∀ {K : World → Prop}, Spec D A i e K (do
      if acks.nackIds ≠ [] then
        let _ ← request (.modifyAckDeadline acks.nackIds)) fun _ _ => True := by
    intro K
    refine Spec.mono (K := fun _ => True) ?_ (fun _ _ => trivial) fun _ _ h => h
    split
    · exact Spec.skip trivial (steady_const _) (fun _ _ => trivial) (fun _ _ _ _ => trivial) fun _ =>
        Spec.ret (steady_const _) fun _ _ _ => trivial
    · exact Spec.ret (steady_const _) fun _ _ _ => trivial
  simp only [settle]
  split
  · refine Spec.request trivial hK (fun s _ _ h id hid => (h id hid).released) (fun _ _ _ _ => trivial)
      fun _ => nack
  · exact nack

theorem pollPubsub_spec (settings : WorkerSettings) (rounds : Nat) :
    Spec D A i e (fun _ => True) (pollPubsub settings rounds) fun _ _ => True := by
  have hpull : Spec D A i e (fun _ => True) (pullPubsub settings rounds) fun _ _ => True := by
    induction rounds with
    | zero => exact Spec.ret (steady_const _) fun _ _ _ => trivial
    | succ rounds ih =>
      refine Spec.attempt_bind (receive_spec .main 5) fun r => ?_
      cases r with
      | error x =>
        simp only
        split
        · exact ih
        · exact Spec.skip trivial (steady_const _) (fun _ _ => trivial) (fun _ _ _ _ => trivial) fun _ => ih
      | ok received =>
        refine Spec.bind (Spec.mono (deliverPubsub_spec settings {} received) (fun _ h => ⟨h, ?_⟩)
          fun _ _ h => h) (fun _ _ _ => trivial) fun acks =>
          Spec.bind (settle_spec acks) (fun _ _ h => h) fun _ => ih
        exact fun _ hid => absurd hid List.not_mem_nil
  simp only [pollPubsub]
  split
  · exact Spec.throw (steady_const _) fun _ _ _ => trivial
  · exact hpull

end CM
