import ContentModeration.Proof.Service

/-!
# Decisions

Every decision is committed with its audit row, its metrics event and its
review (`Ledger`), so in every reachable configuration each of them is there
exactly once (`decided_exactly_once`). A job that has a decision is reported as
succeeded as long as no other path writes its status late
(`reported_succeeded_iff`).
-/

namespace CM

open Database World

variable {D : Deployment}

/-! ## The ledger of decisions -/

/-- The audit row of a new decision. -/
def AuditRow.isCreated (row : AuditRow) : Bool :=
  decide (row.entityType = "decision") && decide (row.action = "created")

/-- The metrics event of a new decision; it does not name the decision. -/
def MetricRow.isDecision (row : MetricRow) : Bool := decide (row.eventType = "decision")

/-- The rows that go with the decisions, in the order of the decisions. -/
structure Ledger (db : Database) : Prop where
  audit : (db.audit.filter AuditRow.isCreated).map (·.entityId) = db.decisions.map (·.id)
  metrics : (db.metrics.filter MetricRow.isDecision).map (·.payload) =
    db.decisions.map fun d => decisionMetric d.envelope
  reviews : db.reviews.map (·.decisionId) = (db.decisions.filter (·.envelope.needsHumanReview)).map (·.id)

theorem audit_plain {ws : List Write} (hw : ∀ w ∈ ws, w.Plain) :
    (ws.filterMap Write.audit?).filter AuditRow.isCreated = [] := by
  refine List.filter_eq_nil_iff.mpr fun row hr => ?_
  obtain ⟨w, hm, he⟩ := List.mem_filterMap.mp hr
  rcases hw w hm with ⟨row', rfl, hne⟩ | ⟨id, u, rfl, -⟩ | ⟨id, u, rfl⟩
  · cases he
    simp [AuditRow.isCreated, hne]
  · cases he
  · cases he

/-- Statements outside transactions add nothing to the ledger. -/
theorem Ledger.plain {db : Database} (h : Ledger db) {ws : List Write} (hw : ∀ w ∈ ws, w.Plain) :
    Ledger (db.applyAll ws) := by
  have none : ∀ {α : Type} (f : Write → Option α), (∀ w : Write, w.Plain → f w = none) →
      ws.filterMap f = [] := fun f hf => List.filterMap_eq_nil_iff.mpr fun w hm => hf w (hw w hm)
  have hd : ws.filterMap Write.decision? = [] := none _ fun w hp => by
    rcases hp with ⟨_, rfl, -⟩ | ⟨_, _, rfl, -⟩ | ⟨_, _, rfl⟩ <;> rfl
  have hm : ws.filterMap Write.metric? = [] := none _ fun w hp => by
    rcases hp with ⟨_, rfl, -⟩ | ⟨_, _, rfl, -⟩ | ⟨_, _, rfl⟩ <;> rfl
  have hr : ws.filterMap Write.review? = [] := none _ fun w hp => by
    rcases hp with ⟨_, rfl, -⟩ | ⟨_, _, rfl, -⟩ | ⟨_, _, rfl⟩ <;> rfl
  refine ⟨?_, ?_, ?_⟩
  · rw [audit_applyAll, decisions_applyAll, List.filter_append, audit_plain hw, hd, List.append_nil,
      List.append_nil]
    exact h.audit
  · rw [metrics_applyAll, decisions_applyAll, hm, hd, List.append_nil, List.append_nil]
    exact h.metrics
  · rw [reviews_applyAll (fun u r => by cases u <;> rfl), decisions_applyAll, hr, hd, List.map_nil,
      List.append_nil, List.append_nil]
    exact h.reviews

/-- A transaction keeps the ledger: a decision comes with its rows. -/
theorem Ledger.commit {s : World} {i : Nat} (h : Ledger s.db) {ws : List Write} (hc : Complete i s ws) :
    Ledger (s.db.applyAll ws) := by
  cases hc with
  | nil => exact h
  | decision e id reviewId t =>
    have hr : (ws : List Write) → ((s.db.applyAll ws).reviews.map (·.decisionId)) =
        s.db.reviews.map (·.decisionId) ++ (ws.filterMap Write.review?).map (·.decisionId) := fun ws =>
      reviews_applyAll (fun u r => by cases u <;> rfl) s.db ws
    refine ⟨?_, ?_, ?_⟩
    · rw [audit_applyAll, decisions_decisionBundle, List.filter_append, List.map_append, List.map_append,
        h.audit]
      by_cases hn : e.needsHumanReview = true <;>
        simp [decisionBundle, hn, Write.audit?, AuditRow.isCreated, List.filterMap_cons]
    · rw [metrics_applyAll, decisions_decisionBundle, List.filter_append, List.map_append, List.map_append,
        h.metrics]
      by_cases hn : e.needsHumanReview = true <;>
        simp [decisionBundle, hn, Write.metric?, MetricRow.isDecision, List.filterMap_cons]
    · rw [hr, decisions_decisionBundle, List.filter_append, List.map_append, h.reviews]
      by_cases hn : e.needsHumanReview = true <;>
        simp [decisionBundle, hn, Write.review?, List.filterMap_cons]
  | ingest c jobId tenantId t _ =>
    refine ⟨?_, ?_, ?_⟩
    · rw [audit_applyAll, decisions_applyAll, List.filter_append, List.map_append, h.audit]
      simp [ingestBundle, Write.audit?, Write.decision?, AuditRow.isCreated, List.filterMap_cons]
    · exact h.metrics
    · exact h.reviews

theorem ledger_of_reachable {c : (service D).Config} {now : Time} (hr : Pool.Reachable (boot D now) c) :
    Ledger c.world.db := by
  refine database_induction hr ⟨rfl, rfl, rfl⟩ fun {i s q p ws} hi h hs => ?_
  cases hs with
  | alone idle contract run fault => exact h.plain fun w hw => plain_of_alone contract (makes_of_run run w hw)
  | commit complete => exact h.commit complete

/-! ## Exactly one decision -/

theorem length_filter_and {α β : Type} [DecidableEq β] (p : α → Bool) (f : α → β) (b : β) (l : List α) :
    (l.filter fun x => p x && decide (f x = b)).length = ((l.filter p).map f).count b := by
  induction l with
  | nil => rfl
  | cons x l ih =>
    by_cases hp : p x = true <;> by_cases hf : f x = b <;> simp [hp, hf, ih]

theorem length_filter_eq {α β : Type} [DecidableEq β] (f : α → β) (b : β) (l : List α) :
    (l.filter fun x => decide (f x = b)).length = (l.map f).count b := by
  have := length_filter_and (fun _ => true) f b l
  simpa using this

/-- Of a decision there is one 'created' audit row, and a review if and only if
a human has to review it. -/
theorem Ledger.count {db : Database} (h : Ledger db) (hu : db.UniqueRows) {d : DecisionRow}
    (hd : d ∈ db.decisions) :
    (db.audit.filter fun row => row.isCreated && decide (row.entityId = d.id)).length = 1 ∧
    (db.reviews.filter fun r => decide (r.decisionId = d.id)).length =
      if d.envelope.needsHumanReview then 1 else 0 := by
  rw [length_filter_and, length_filter_eq, h.audit, h.reviews]
  refine ⟨List.count_eq_one_of_mem hu.decisions (List.mem_map_of_mem hd), ?_⟩
  have hsub : ((db.decisions.filter (·.envelope.needsHumanReview)).map (·.id)).Nodup :=
    (List.filter_sublist.map _).nodup hu.decisions
  split
  · rename_i hn
    exact List.count_eq_one_of_mem hsub (List.mem_map_of_mem (List.mem_filter.mpr ⟨hd, hn⟩))
  · rename_i hn
    refine List.count_eq_zero_of_not_mem fun hm => hn ?_
    obtain ⟨d', hd', hid⟩ := List.mem_map.mp hm
    obtain ⟨hd', hn'⟩ := List.mem_filter.mp hd'
    rwa [← List.inj_on_of_nodup_map hu.decisions hd' hd hid]

/-- Every decision is there exactly once, with all that goes with it; the
metrics events are those of the decisions, in their order. -/
structure ExactlyOnce (db : Database) : Prop where
  decision (job : Uuid) : (db.decisions.filter fun d => decide (d.envelope.jobId = job)).length ≤ 1
  audit : ∀ d ∈ db.decisions,
    (db.audit.filter fun row => row.isCreated && decide (row.entityId = d.id)).length = 1
  metrics : (db.metrics.filter MetricRow.isDecision).map (·.payload) =
    db.decisions.map fun d => decisionMetric d.envelope
  review : ∀ d ∈ db.decisions, (db.reviews.filter fun r => decide (r.decisionId = d.id)).length =
    if d.envelope.needsHumanReview then 1 else 0
  succeeded : ∀ j ∈ db.jobs, j.status = .succeeded → db.Decided j.id

theorem decided_exactly_once {c : (service D).Config} {now : Time} (hr : Pool.Reachable (boot D now) c) :
    ExactlyOnce c.world.db where
  decision job := by
    rw [length_filter_eq]
    exact List.nodup_iff_count_le_one.mp (inv_of_reachable hr).unique.decisionJobs job
  audit d hd := ((ledger_of_reachable hr).count (inv_of_reachable hr).unique hd).1
  metrics := (ledger_of_reachable hr).metrics
  review d hd := ((ledger_of_reachable hr).count (inv_of_reachable hr).unique hd).2
  succeeded := (inv_of_reachable hr).stored.decided

theorem decided_exactly_once_sample : ∃ c, Pool.Reachable (boot (sample .atomic) 0) c ∧
    c.world.db.decisions.length = 1 ∧ ExactlyOnce c.world.db := by
  have hrun : (Pool.replay (ingestSample (sample .atomic) 0 1 2 ++ .step 0 {} :: workSample (sample .atomic) 1 18)
      (boot (sample .atomic) 0)).any (fun c => decide (c.world.db.decisions.length = 1)) = true := by
    decide +kernel
  obtain ⟨c, hr, hc⟩ := Pool.exists_replay hrun
  exact ⟨c, hr, of_decide_eq_true hc, decided_exactly_once hr⟩

/-! ## The status of a decided job -/

/-- Every job that has a decision is reported as succeeded. -/
def Reported (db : Database) : Prop := ∀ j ∈ db.jobs, db.Decided j.id → j.status = .succeeded

instance (db : Database) (job : Uuid) : Decidable (db.Decided job) :=
  inferInstanceAs (Decidable (∃ d ∈ db.decisions, d.envelope.jobId = job))

instance (db : Database) : Decidable (Reported db) :=
  inferInstanceAs (Decidable (∀ j ∈ db.jobs, db.Decided j.id → j.status = .succeeded))

/-- The statements that set the status of a job, whatever it is; one that is refused sets none. -/
inductive Cmd.Overwrites (job : Uuid) : Cmd → Prop where
  | processing : Overwrites job (.sql (.startProcessing job))
  | failed (status : JobStatus) (error : String) (taken : storable error = true) :
      Overwrites job (.sql (.markFailed job status error))
  | enqueueFailed (error : String) (taken : storable error = true) :
      Overwrites job (.sql (.markEnqueueFailed job error))

/-- The status of a job that has a decision is set. -/
def LateWrite (c : (service D).Config) (a : (service D).Action) : Prop :=
  ∃ i p e q k job, a = .step i p ∧ c.At i e q k ∧ (∀ text, p.fault ≠ .before text) ∧
    q.Overwrites job ∧ c.world.db.Decided job

/-- Updates of jobs without a decision keep what is reported of the others. -/
theorem Reported.plain {db : Database} (h : Reported db) {ws : List Write} (hw : ∀ w ∈ ws, w.Plain)
    (hj : ∀ id u, .updateJob id u ∈ ws → ¬ db.Decided id) : Reported (db.applyAll ws) := by
  induction ws generalizing db with
  | nil => exact h
  | cons w ws ih =>
    have hd : (db.apply w).decisions = db.decisions := by
      rcases hw w List.mem_cons_self with ⟨_, rfl, -⟩ | ⟨_, _, rfl, -⟩ | ⟨_, _, rfl⟩ <;> rfl
    have hdec : ∀ job, (db.apply w).Decided job ↔ db.Decided job := fun job => by
      simp only [Decided, hd]
    refine ih (fun j hm hdj => ?_) (fun w' hw' => hw w' (List.mem_cons_of_mem _ hw')) fun id u hu => ?_
    · rw [hdec] at hdj
      rcases hw w List.mem_cons_self with ⟨_, rfl, -⟩ | ⟨id, u, rfl, -⟩ | ⟨_, _, rfl⟩
      · exact h j hm hdj
      · obtain ⟨j₀, hj₀, rfl⟩ := List.mem_map.mp hm
        by_cases hid : j₀.id = id
        · rw [if_pos hid] at hdj
          rw [JobUpdate.id_apply, hid] at hdj
          exact absurd hdj (hj id u List.mem_cons_self)
        · rw [if_neg hid] at hdj ⊢
          exact h j₀ hj₀ hdj
      · exact h j hm hdj
    · rw [hdec]
      exact hj id u (List.mem_cons_of_mem _ hu)

/-- A transaction leaves the job that it decides as succeeded. -/
theorem Reported.commit {s : World} {i : Nat} (hi : Inv s) (h : Reported s.db)
    (hc : Complete i s (s.pending i)) : Reported (s.db.applyAll (s.pending i)) := by
  have hkeys := hi.stored.keys i
  generalize s.pending i = ws at hc hkeys
  cases hc with
  | nil => exact h
  | decision e id reviewId t =>
    intro j hj hd
    rw [jobs_decisionBundle] at hj
    obtain ⟨j₀, hj₀, rfl⟩ := List.mem_map.mp hj
    by_cases hid : j₀.id = e.jobId
    · rw [if_pos hid]
      rfl
    · rw [if_neg hid] at hd ⊢
      obtain ⟨d, hm, hdj⟩ := hd
      rw [decisions_decisionBundle] at hm
      rcases List.mem_append.mp hm with hm | hm
      · exact h j₀ hj₀ ⟨d, hm, hdj⟩
      · rw [List.mem_singleton.mp hm] at hdj
        exact absurd hdj.symm hid
  | ingest c jobId tenantId t _ =>
    intro j hj hd
    have hj' : j ∈ s.db.jobs ++ [_] := hj
    rcases List.mem_append.mp hj' with hj | hj
    · exact h j hj hd
    · -- the new job cannot have a decision
      rw [List.mem_singleton.mp hj] at hd
      obtain ⟨d, hm, hdj⟩ := hd
      obtain ⟨j₀, hj₀, hid⟩ := (hi.stored.fk.decisions d hm).1
      refine absurd ?_ (List.disjoint_of_nodup_append hkeys (a := .jobId jobId)
        · (by simp [ingestBundle, Write.keys]))
      simp only [keys, List.mem_append, List.mem_map]
      exact .inl (.inl (.inl (.inl (.inl (.inr ⟨j₀, hj₀, by rw [hid, hdj]⟩)))))

/-- No statement of a transaction sets the status of a job at will. -/
theorem Cmd.Overwrites.idle {s : World} {i : Nat} {q : Cmd} {job : Uuid} (hq : q.Overwrites job)
    (hc : Contract D i s q) : s.txn i = none := by
  cases ht : s.txn i with
  | none => rfl
  | some t => cases hq <;> simp only [Contract, ht] at hc <;> exact hc.elim

/-- A request that sets no status of a decided job keeps what is reported. -/
theorem Reported.step {s s' : World} {i : Nat} {q : Cmd} {p : Pick} {r : Except Exn q.Ans} (hi : Inv s)
    (hc : Contract D i s q) (hx : World.exec i q p s = some (r, s')) (h : Reported s.db)
    (hlate : ∀ job, q.Overwrites job → (∀ text, p.fault ≠ .before text) → ¬ s.db.Decided job) :
    Reported s'.db := by
  rcases db_of_exec hc hx with hd | ⟨ws, hs, hd⟩
  · exact hd ▸ h
  rw [hd]
  cases hs with
  | commit complete => exact h.commit hi complete
  | alone idle contract run fault taken =>
    refine h.plain (fun w hw => plain_of_alone contract (makes_of_run run w hw)) fun id u hu hd => ?_
    cases makes_of_run run _ hu with
    | processing => exact hlate id .processing fault hd
    | failed =>
      exact hlate id (.failed _ _ ((Sql.refusal_eq_none_iff.mp taken).1 _ List.mem_cons_self)) fault hd
    | enqueueFailed =>
      exact hlate id (.enqueueFailed _ ((Sql.refusal_eq_none_iff.mp taken).1 _ List.mem_cons_self)) fault hd
    | succeeded => exact contract
    | reset _ failed =>
      -- only failed and dead jobs are reset
      obtain ⟨j, hj, rfl, hst⟩ := failed
      rw [h j hj hd] at hst
      rcases hst with hst | hst <;> cases hst

/-- The job of such a statement is not reported as succeeded afterwards. -/
theorem not_reported_of_overwrites {s s' : World} {i : Nat} {q : Cmd} {p : Pick} {r : Except Exn q.Ans}
    {job : Uuid} (hi : Inv s) (hc : Contract D i s q) (hx : World.exec i q p s = some (r, s'))
    (hq : q.Overwrites job) (hf : ∀ text, p.fault ≠ .before text) (hd : s.db.Decided job) :
    ¬ Reported s'.db := by
  have ht := hq.idle hc
  obtain ⟨d, hm, rfl⟩ := hd
  obtain ⟨j, hj, hid⟩ := (hi.stored.fk.decisions d hm).1
  have found : (s.db.jobs.find? fun j => decide (j.id = d.envelope.jobId) && true).isSome = true :=
    List.find?_isSome.mpr ⟨j, hj, by simp [hid]⟩
  -- the statement updates the job and leaves the decisions
  have key : ∀ {st : Sql} {r : Except Exn st.Ans} {a : st.Ans} (u : JobUpdate),
      s.runSql i st p = some (r, s') →
      st.execute s.db s.now p.fresh = .ok (a, s.db.updateJobIf d.envelope.jobId (fun _ => true) u) →
      (∀ j : Job, (u.apply j).status ≠ .succeeded) → ¬ Reported s'.db := by
    intro st r a u hx hr hu h
    rcases runSql_idle ht hx with ⟨-, ⟨x, hr'⟩ | ⟨text, hb⟩⟩ | ⟨a', ws, hr', -, rfl⟩
    · rw [hr] at hr'
      cases hr'
    · exact hf text hb
    · rw [hr, updateJobIf, if_pos found] at hr'
      cases hr'
      refine hu j (h (u.apply j) (List.mem_map.mpr ⟨j, hj, if_pos hid⟩) ⟨d, hm, ?_⟩)
      rw [JobUpdate.id_apply, hid]
  cases hq with
  | processing => exact key (.processing s.now) hx rfl fun j => by simp [JobUpdate.apply]
  | enqueueFailed error taken =>
    refine key (.enqueueFailed error) hx (Sql.execute_of_storable ?_ ..) fun j => by simp [JobUpdate.apply]
    simpa [Sql.refusal_eq_none_iff, Sql.texts, Sql.jsonbStorable] using taken
  | failed status error taken =>
    refine key (.failed status error s.now) hx (Sql.execute_of_storable ?_ ..) fun j hs => ?_
    · simpa [Sql.refusal_eq_none_iff, Sql.texts, Sql.jsonbStorable] using taken
    simp only [Contract, ht] at hc
    rcases hc with rfl | rfl <;> cases hs

/-- In every run, every job that has a decision is reported as succeeded, in
all configurations, exactly if no step sets the status of a job that has a
decision already. -/
theorem reported_succeeded_iff {now : Time} {h : List (service D).Step} {c : (service D).Config}
    (hr : Pool.Run Pool.anything (boot D now) h c) :
    (∀ st ∈ h, Reported st.after.world.db) ↔ ∀ st ∈ h, ¬ LateWrite st.before st.action := by
  refine ⟨fun hrep st hm => ?_, fun hok => ?_⟩
  · rintro ⟨i, p, e, q, k, job, ha, hat, hf, hq, hd⟩
    obtain ⟨⟨h', hr'⟩, -, hn⟩ := hr.mem hm
    have hs := sound_of_reachable hr'.reachable
    rw [ha] at hn
    obtain ⟨e', q', k', r, w, hat', hx, hafter⟩ := Pool.next_step hn
    cases hat.symm.trans hat'
    refine not_reported_of_overwrites hs.inv (hs.pre_of_at (valid D False) hat).1 hx hq hf hd ?_
    have := hrep st hm
    rwa [hafter] at this
  · suffices hall : Reported c.world.db ∧ ∀ st ∈ h, Reported st.after.world.db from hall.2
    induction hr with
    | nil => exact ⟨fun _ hj => (nomatch hj), fun _ hm => (nomatch hm)⟩
    | @cons h c a c' hr ha hn ih =>
      obtain ⟨hrep, hall⟩ := ih fun st hm => hok st (List.mem_cons_of_mem _ hm)
      have hs := sound_of_reachable hr.reachable
      have hlate := hok ⟨c, a, c'⟩ List.mem_cons_self
      have hrep' : Reported c'.world.db := by
        cases a with
        | start i e =>
          obtain ⟨-, rfl⟩ := Pool.next_start hn
          exact hrep
        | step i p =>
          obtain ⟨e, q, k, r, w, hat, hx, rfl⟩ := Pool.next_step hn
          exact hrep.step hs.inv (hs.pre_of_at (valid D False) hat).1 hx fun job hq hf hd =>
            hlate ⟨i, p, e, q, k, job, rfl, hat, hf, hq, hd⟩
        | crash i =>
          obtain ⟨e, q, k, hat, rfl⟩ := Pool.next_crash hn
          exact hrep
        | env v =>
          obtain ⟨w, hx, rfl⟩ := Pool.next_env hn
          exact db_of_event hx ▸ hrep
      exact ⟨hrep', fun st hm => (List.mem_cons.mp hm).elim (fun h => h ▸ hrep') (hall st)⟩

theorem reported_succeeded_iff_sample : ∃ h c, Pool.Run Pool.anything (boot (sample .atomic) 0) h c ∧
    c.world.db.decisions.length = 1 ∧
    ((∀ st ∈ h, Reported st.after.world.db) ↔ ∀ st ∈ h, ¬ LateWrite st.before st.action) := by
  have hrun : (Pool.replayIf (fun _ _ => true)
      (ingestSample (sample .atomic) 0 1 2 ++ .step 0 {} :: workSample (sample .atomic) 1 18)
      (boot (sample .atomic) 0)).any (fun c => decide (c.world.db.decisions.length = 1)) = true := by
    decide +kernel
  have hany : ∀ (c : (service (sample .atomic)).Config) a, true = true → Pool.anything c a := fun _ _ _ => trivial
  obtain ⟨h, c, hr, hc⟩ := Pool.exists_replayIf hany hrun
  exact ⟨h, c, hr, of_decide_eq_true hc, reported_succeeded_iff hr⟩

/-- Two workers receive the same message; one is about to start processing
while the other commits the decision. -/
theorem not_reported_late : ¬ ∀ c, Pool.Reachable (boot (sample .atomic) 0) c → Reported c.world.db := by
  intro h
  have hrun : (Pool.replay (ingestSample (sample .atomic) 0 1 2 ++ .step 0 {} :: workSample (sample .atomic) 1 4 ++
      workSample (sample .atomic) 2 18 ++ [.step 1 flagSample]) (boot (sample .atomic) 0)).any
      (fun c => decide (¬ Reported c.world.db)) = true := by
    decide +kernel
  obtain ⟨c, hr, hc⟩ := Pool.exists_replay hrun
  exact of_decide_eq_true hc (h c hr)

end CM
