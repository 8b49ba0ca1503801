import ContentModeration.Proof.Decisions
import ContentModeration.Proof.Releases
import ContentModeration.Proof.Track

/-!
# What the audit log refers to

What a call has seen is there (`Grounded`), so every audit row that is not the
'enqueued' row of a review refers to an entity of its type. The 'enqueued' rows carry the
identifiers of the decisions (`Filed`), so the log refers to the right entities as long
as every review has the identifier of its decision (`referential_iff`).
-/

namespace CM

open Database World

variable {D : Deployment} {i : Nat} {s s' : World} {x : Known}

/-! ## What a call has seen is there -/

namespace Database

variable {db db' : Database}

/-- There is a review `id`. -/
def HasReview (db : Database) (id : Uuid) : Prop := ∃ r ∈ db.reviews, r.id = id

theorem HasReview.mono {id : Uuid} (h : db.Extends db') (hr : db.HasReview id) : db'.HasReview id := by
  obtain ⟨r, hr, rfl⟩ := hr
  obtain ⟨r', hr', he⟩ := exists_review_link h hr
  exact ⟨r', hr', congrArg Prod.fst he⟩

/-! ### What the answers of statements say -/

section Answers

variable {now : Time} {fresh : Uuid} {ws : List Write}

theorem hasReview_of_review? {id : Uuid} {r : ReviewRow} (h : db.review? id = some r) : db.HasReview id :=
  ⟨r, List.mem_of_find?_eq_some h, id_of_review? h⟩

theorem hasJob_of_jobAttempts {id : Uuid} {found : Nat × Nat}
    (h : (Sql.jobAttempts id).run db now fresh = .ok (some found, ws)) : db.HasJob id := by
  simp only [Sql.run, Except.ok.injEq, Prod.mk.injEq] at h
  obtain ⟨j, hj, -⟩ := Option.map_eq_some_iff.mp h.1
  exact job?_isSome.mp (Option.isSome_of_eq_some hj)

theorem hasJob_of_resetJob {key : String} {id : Uuid}
    (h : (Sql.resetJob key).run db now fresh = .ok (some id, ws)) : castUuid key = .ok id ∧ db.HasJob id := by
  simp only [Sql.run] at h
  cases hc : castUuid key with
  | error err => rw [hc] at h; cases h
  | ok u =>
    rw [hc] at h
    simp only [bind, Except.bind, pure, Except.pure, Except.ok.injEq, Prod.mk.injEq] at h
    obtain ⟨ha, rfl⟩ := h
    split at ha <;> cases ha
    rename_i hne
    obtain ⟨w, hw⟩ := List.exists_mem_of_ne_nil _ (by simpa using hne)
    obtain ⟨-, j, hj, hid, -⟩ := mem_updateJobIf hw
    exact ⟨rfl, j, hj, hid⟩

theorem hasReview_of_claim {id id' : Uuid} {reviewer : String} {t expires : Time}
    (h : (Sql.claimReview id reviewer t expires).run db now fresh = .ok (some id', ws)) : db.HasReview id := by
  simp only [Sql.run] at h
  split at h <;> cases h
  rename_i r hr
  exact hasReview_of_review? (Option.filter_eq_some_iff.mp hr).1

theorem hasReview_of_resolve {id id' : Uuid} {status : ReviewStatus} {decision : ReviewerDecision}
    {notes reviewer : String} {t : Time}
    (h : (Sql.resolveReview id status decision notes reviewer t).run db now fresh = .ok (some id', ws)) :
    db.HasReview id := by
  simp only [Sql.run] at h
  split at h <;> cases h
  rename_i r hr
  exact hasReview_of_review? (Option.filter_eq_some_iff.mp hr).1

theorem hasReview_of_expired {t : Time} {row : Uuid × Option String}
    (h : row ∈ (db.expiredClaims t).map fun r => (r.id, r.claimedBy)) : db.HasReview row.1 := by
  obtain ⟨r, hr, rfl⟩ := List.mem_map.mp h
  exact ⟨r, (mem_expiredClaims.mp hr).1, rfl⟩

end Answers

end Database

/-- What thread `i` has seen and is about to audit is in the database. -/
structure Grounded (i : Nat) (x : Known) (s : World) : Prop where
  inTxn : x.inTxn = (s.txn i).isSome
  owed : ∀ y ∈ x.owed, s.db.HasReview y.1
  jobs : ∀ u ∈ x.jobs, s.db.HasJob u
  keys : ∀ key ∈ x.keys, ∃ u, castUuid key = .ok u ∧ s.db.HasJob u
  drawn : ∀ u ∈ x.drawn, (u, i) ∈ s.drawn

theorem Grounded.mono (h : Grounded i x s) (hg : s.Grows s') (ht : (s'.txn i).isSome = (s.txn i).isSome) :
    Grounded i x s' where
  inTxn := h.inTxn.trans ht.symm
  owed y hy := (h.owed y hy).mono hg.db
  jobs u hu := (h.jobs u hu).mono hg.db
  keys key hk := by
    obtain ⟨u, hu, hj⟩ := h.keys key hk
    exact ⟨u, hu, hj.mono hg.db⟩
  drawn u hu := hg.drawn (h.drawn u hu)

/-- A statement that is not made in transactions. -/
theorem idle_of_contract {st : Sql} (hc : Contract D i s (.sql st)) (hn : ¬ st.InTxn) : s.txn i = none := by
  cases ht : s.txn i with
  | none => rfl
  | some t =>
    simp only [Contract, ht] at hc
    exact absurd hc hn

/-- Transactions are begun and ended by their own requests. -/
theorem isSome_txn_of_exec {q : Cmd} {p : Pick} {r : Except Exn q.Ans} (hx : World.exec i q p s = some (r, s'))
    (hq : q ≠ .begin ∧ q ≠ .commit ∧ q ≠ .rollback) : (s'.txn i).isSome = (s.txn i).isSome := by
  cases change_of_exec hx with
  | pend active => simp [active]
  | abort active => simp [active]
  | begin => exact absurd rfl hq.1
  | commit => exact absurd rfl hq.2.1
  | drop h => exact absurd h (by simp [hq])
  | redisExpire =>
    simp only [World.redisExpire]
    split
    · rfl
    · split <;> rfl
  | delete | acknowledge => rw [txn_remove]
  | _ => rfl

/-- However it goes, the end of a transaction ends it. -/
theorem txn_of_commit {p : Pick} {r : Except Exn Unit} (hx : World.exec i .commit p s = some (r, s')) :
    s'.txn i = none := by
  simp only [World.exec, runCommit] at hx
  split at hx <;> cases hx <;> exact txn_finish_self ..

theorem txn_of_rollback {p : Pick} {r : Except Exn Unit} (hx : World.exec i .rollback p s = some (r, s')) :
    s'.txn i = none := by
  simp only [World.exec, Option.some.injEq, Prod.mk.injEq] at hx
  rw [← hx.2]
  exact txn_finish_self ..

theorem Grounded.without (h : Grounded i x s) : Grounded i { x with owed := [] } s :=
  ⟨h.inTxn, fun _ hy => (nomatch hy), h.jobs, h.keys, h.drawn⟩

/-- What a statement outside transactions has answered. -/
theorem run_of_contract {st : Sql} {p : Pick} {a : st.Ans} (hc : Contract D i s (.sql st)) (hn : ¬ st.InTxn)
    (hx : World.exec i (.sql st) p s = some (.ok a, s')) :
    ∃ ws, st.run s.db s.now p.fresh = .ok (a, ws) := by
  obtain ⟨-, ws, hr, -⟩ := runSql_ok (idle_of_contract hc hn) hx
  exact ⟨ws, hr⟩

/-- What a thread learns from the answer to its request is so. -/
theorem Grounded.own {q : Cmd} {p : Pick} {r : Except Exn q.Ans} (h : Grounded i x s) (hc : Contract D i s q)
    (hrows : ∀ rows now, q = .sql (.releaseRows rows now) → ∀ row ∈ rows, s.db.HasReview row.1)
    (hx : World.exec i q p s = some (r, s')) (hg : s.Grows s') : Grounded i (x.after q r) s' := by
  have keep : q ≠ .begin ∧ q ≠ .commit ∧ q ≠ .rollback → Grounded i x s' :=
    fun hq => h.mono hg (isSome_txn_of_exec hx hq)
  have moved : ∀ {b}, b = (s'.txn i).isSome → Grounded i { x with inTxn := b } s' := fun hb =>
    ⟨hb, fun y hy => (h.owed y hy).mono hg.db, fun u hu => (h.jobs u hu).mono hg.db,
      fun key hk => (h.keys key hk).imp fun _ hu => ⟨hu.1, hu.2.mono hg.db⟩, fun u hu => hg.drawn (h.drawn u hu)⟩
  cases q with
  | commit => cases r <;> exact moved (by rw [txn_of_commit hx]; rfl)
  | rollback => cases r <;> exact moved (by rw [txn_of_rollback hx]; rfl)
  | begin =>
    simp only [World.exec] at hx
    split at hx <;> cases hx
    · exact moved (by rw [txn_setTxn_self]; rfl)
    · exact h.without
    · exact h.without
  | uuid4 =>
    have hs := keep (by simp)
    cases r with
    | error err => exact hs.without
    | ok u =>
      refine ⟨hs.inTxn, hs.owed, hs.jobs, hs.keys, fun v hv => ?_⟩
      simp only [World.exec] at hx
      split at hx <;> cases hx
      rcases List.mem_cons.mp hv with rfl | hv
      · exact List.mem_cons_self
      · exact hs.drawn v hv
  | putObject | receive =>
    have hs := keep (by simp)
    cases r with
    | error err => exact hs.without
    | ok a => exact ⟨hs.inTxn, hs.owed, hs.jobs, hs.keys, hs.drawn⟩
  | sql st =>
    have hs := keep (by simp)
    have owe : ∀ owed : List (Uuid × ReviewEvent), (∀ y ∈ owed, s.db.HasReview y.1) →
        Grounded i { x with owed := owed } s' := fun owed ho =>
      ⟨hs.inTxn, fun y hy => (ho y hy).mono hg.db, hs.jobs, hs.keys, hs.drawn⟩
    cases r with
    | error err => cases st <;> exact hs.without
    | ok a =>
      cases st with
      | insertAudit row =>
        show Grounded i (if x.inTxn then x else { x with owed := x.owed.tail }) s'
        split
        · exact hs
        · exact owe _ fun y hy => h.owed y (List.mem_of_mem_tail hy)
      | jobAttempts id =>
        cases a with
        | none => exact hs
        | some found =>
          obtain ⟨ws, hr⟩ := run_of_contract hc (fun h => h) hx
          exact ⟨hs.inTxn, hs.owed, List.forall_mem_cons.mpr ⟨(hasJob_of_jobAttempts hr).mono hg.db, hs.jobs⟩,
            hs.keys, hs.drawn⟩
      | resetJob key =>
        cases a with
        | none => exact hs
        | some id =>
          obtain ⟨ws, hr⟩ := run_of_contract hc (fun h => h) hx
          obtain ⟨hcast, hj⟩ := hasJob_of_resetJob hr
          exact ⟨hs.inTxn, hs.owed, hs.jobs, List.forall_mem_cons.mpr ⟨⟨id, hcast, hj.mono hg.db⟩, hs.keys⟩, hs.drawn⟩
      | claimReview id reviewer now expires =>
        cases a with
        | none => exact hs
        | some id' =>
          obtain ⟨ws, hr⟩ := run_of_contract hc (fun h => h) hx
          exact owe _ fun y hy => List.mem_singleton.mp hy ▸ hasReview_of_claim hr
      | resolveReview id status decision notes reviewer now =>
        cases a with
        | none => exact hs
        | some id' =>
          obtain ⟨ws, hr⟩ := run_of_contract hc (fun h => h) hx
          exact owe _ fun y hy => List.mem_singleton.mp hy ▸ hasReview_of_resolve hr
      | releaseExpired now =>
        obtain ⟨ws, hr⟩ := run_of_contract hc (fun h => h) hx
        cases hr
        refine owe _ fun y hy => ?_
        obtain ⟨row, hm, rfl⟩ := List.mem_map.mp hy
        exact hasReview_of_expired hm
      | releaseRows rows now =>
        obtain ⟨ws, hr⟩ := run_of_contract hc (fun h => h) hx
        cases hr
        refine owe _ fun y hy => ?_
        obtain ⟨row, hm, rfl⟩ := List.mem_map.mp hy
        exact hrows rows now rfl row hm
      | _ => exact hs
  | _ =>
    cases r with
    | error err => exact (keep (by simp)).without
    | ok a => exact keep (by simp)

/-! ## What the audit rows refer to -/

/-- The 'enqueued' row of a review. -/
def AuditRow.isEnqueued (row : AuditRow) : Bool :=
    decide (row.entityType = "review") && decide (row.action = "enqueued")

namespace Database

/-- The row refers to an entity of its type. -/
def Refers (db : Database) (row : AuditRow) : Prop :=
  row.entityType = "job" ∧ db.HasJob row.entityId ∨ row.entityType = "decision" ∧ db.HasDecision row.entityId ∨
  row.entityType = "review" ∧ db.HasReview row.entityId

/-- What `list_audit` selects of an entity. -/
def auditOf (db : Database) (entityType : String) (entityId : Uuid) : List AuditRow :=
  db.audit.filter fun row => decide (row.entityType = entityType) && decide (row.entityId = entityId)

/-- Every audit row refers to an entity of its type, and the history of every review
has one 'enqueued' row. -/
structure Referential (db : Database) : Prop where
  refers : ∀ row ∈ db.audit, db.Refers row
  enqueued : ∀ r ∈ db.reviews, ((db.auditOf "review" r.id).filter fun row => row.action = "enqueued").length = 1

/-- Every audit row refers to an entity of its type, or is the 'enqueued' row of a
review, which carries the identifier of its decision. -/
structure Filed (db : Database) : Prop where
  refers : ∀ row ∈ db.audit, row.isEnqueued = false → db.Refers row
  enqueued : (db.audit.filter AuditRow.isEnqueued).map (·.entityId) = db.reviews.map (·.decisionId)

/-- Every review has the identifier of its decision. -/
def SameIds (db : Database) : Prop := ∀ r ∈ db.reviews, r.id = r.decisionId

variable {db db' : Database} {ws : List Write}

theorem Refers.mono {row : AuditRow} (h : db.Extends db') (hr : db.Refers row) : db'.Refers row :=
  hr.imp (And.imp_right (.mono h)) (.imp (And.imp_right (.mono h)) (And.imp_right (.mono h)))

theorem mem_of_filterMap_audit {row : AuditRow} (h : row ∈ ws.filterMap Write.audit?) : .audit row ∈ ws := by
  obtain ⟨w, hw, he⟩ := List.mem_filterMap.mp h
  cases w <;> simp only [Write.audit?, Option.some.injEq, reduceCtorEq] at he
  exact he ▸ hw

/-- Writes file their audit rows if these refer to entities, but for one 'enqueued' row
for each new review. -/
theorem Filed.applyAll (h : db.Filed)
    (hrows : ∀ row, .audit row ∈ ws → row.isEnqueued = false → (db.applyAll ws).Refers row)
    (henq : ((ws.filterMap Write.audit?).filter AuditRow.isEnqueued).map (·.entityId) =
      (ws.filterMap Write.review?).map (·.decisionId)) : (db.applyAll ws).Filed where
  refers row hm he := by
    rw [audit_applyAll] at hm
    rcases List.mem_append.mp hm with hm | hm
    · exact (h.refers row hm he).mono (extends_applyAll db ws)
    · exact hrows row (mem_of_filterMap_audit hm) he
  enqueued := by
    rw [audit_applyAll, reviews_applyAll (fun u r => congrArg (·.2.1) (u.link_apply r)), List.filter_append,
      List.map_append, h.enqueued, henq]

/-- The 'enqueued' rows in the history of a review are those of the decisions that have
its identifier. -/
theorem Filed.length_enqueued (h : db.Filed) (id : Uuid) :
    ((db.auditOf "review" id).filter fun row => row.action = "enqueued").length =
      (db.reviews.map (·.decisionId)).count id := by
  rw [← h.enqueued, ← length_filter_and, auditOf, List.filter_filter]
  refine congrArg List.length (List.filter_congr fun row _ => ?_)
  simp only [AuditRow.isEnqueued]
  grind

/-- The rows of a log that is filed refer to the right entities as long as every review
has the identifier of its decision. -/
theorem Filed.referential (h : db.Filed) (hu : db.UniqueRows) (hs : db.SameIds) : db.Referential where
  refers row hm := by
    cases he : row.isEnqueued with
    | false => exact h.refers row hm he
    | true =>
      have hid : row.entityId ∈ (db.audit.filter AuditRow.isEnqueued).map (·.entityId) :=
        List.mem_map_of_mem (List.mem_filter.mpr ⟨hm, he⟩)
      rw [h.enqueued] at hid
      obtain ⟨r, hr, hid⟩ := List.mem_map.mp hid
      simp only [AuditRow.isEnqueued, Bool.and_eq_true, decide_eq_true_eq] at he
      exact .inr (.inr ⟨he.1, r, hr, (hs r hr).trans hid⟩)
  enqueued r hr := by
    rw [h.length_enqueued, ← List.map_congr_left hs]
    exact List.count_eq_one_of_mem hu.reviews (List.mem_map_of_mem hr)

/-- New reviews have the identifiers of their decisions if all have them afterwards. -/
theorem sameIds_applyAll : (db.applyAll ws).SameIds ↔ db.SameIds ∧ ∀ r, .review r ∈ ws → r.id = r.decisionId := by
  have hmem : ∀ r, .review r ∈ ws → r ∈ ws.filterMap Write.review? := fun r hm => List.mem_filterMap.mpr ⟨_, hm, rfl⟩
  have hrows : ∀ db' : Database, db'.SameIds ↔ ∀ y ∈ db'.reviews.map ReviewRow.link, y.1 = y.2.1 := fun db' => by
    simp [SameIds, ReviewRow.link]
  rw [hrows, hrows, reviews_applyAll ReviewUpdate.link_apply]
  constructor
  · intro h
    exact ⟨fun y hy => h y (List.mem_append_left _ hy), fun r hm =>
      h _ (List.mem_append_right _ (List.mem_map_of_mem (hmem r hm)))⟩
  · intro h y hy
    rcases List.mem_append.mp hy with hy | hy
    · exact h.1 y hy
    · obtain ⟨r, hm, rfl⟩ := List.mem_map.mp hy
      exact h.2 r (mem_of_filterMap_review hm)

end Database

/-! ## Every step files its audit rows -/

/-- The audit rows that a statement outside transactions writes refer to entities, and
are not those of new reviews. -/
theorem refers_of_alone {st : Sql} {now : Time} {row : AuditRow} (hidle : s.txn i = none)
    (hx : Grounded i x s) {e : Entry}
    (hq : x.Allows D e (.sql st)) (hm : s.db.Makes now st (.audit row)) :
    row.isEnqueued = false ∧ s.db.Refers row := by
  have job : ∀ {row : AuditRow}, row.entityType = "job" → s.db.HasJob row.entityId →
      row.isEnqueued = false ∧ s.db.Refers row := fun ht hj => ⟨by simp [AuditRow.isEnqueued, ht], .inl ⟨ht, hj⟩⟩
  cases hm with
  | audit =>
    rcases hq with ⟨ht, -, v, rest, ho, hv⟩ | ⟨-, htxn | ⟨ht, hj⟩⟩
    · refine ⟨?_, .inr (.inr ⟨ht, hx.owed _ (ho ▸ List.mem_cons_self)⟩)⟩
      cases v <;> simp [AuditRow.isEnqueued, hv, ReviewEvent.action]
    · rw [hx.inTxn, hidle] at htxn
      cases htxn
    · exact job ht (hx.jobs _ hj)
  | auditRedrive cast =>
    obtain ⟨u, hu, hj⟩ := hx.keys _ hq.2
    cases cast.symm.trans hu
    exact job rfl hj

theorem Database.Filed.alone {st : Sql} {fresh : Uuid} {a : st.Ans} {ws : List Write} (h : s.db.Filed)
    (hidle : s.txn i = none)
    (hc : st.Alone D s) (hr : st.run s.db s.now fresh = .ok (a, ws)) (hx : Grounded i x s) {e : Entry}
    (hq : x.Allows D e (.sql st)) : (s.db.applyAll ws).Filed := by
  have hmakes := makes_of_run hr
  have hrows : ∀ row, .audit row ∈ ws → row.isEnqueued = false ∧ s.db.Refers row := fun row hm =>
    refers_of_alone hidle hx hq (hmakes _ hm)
  refine h.applyAll (fun row hm _ => (hrows row hm).2.mono (extends_applyAll _ _)) ?_
  have haudit : (ws.filterMap Write.audit?).filter AuditRow.isEnqueued = [] :=
    List.filter_eq_nil_iff.mpr fun row hm => by simp [(hrows row (mem_of_filterMap_audit hm)).1]
  have hreview : ws.filterMap Write.review? = [] := List.filterMap_eq_nil_iff.mpr fun w hw => by
    rcases plain_of_alone hc (hmakes w hw) with ⟨_, rfl, -⟩ | ⟨_, _, rfl, -⟩ | ⟨_, _, rfl⟩ <;> rfl
  rw [haudit, hreview]
  rfl

theorem Database.Filed.commit {ws : List Write} (h : s.db.Filed) (hc : Complete i s ws) :
    (s.db.applyAll ws).Filed := by
  cases hc with
  | nil => exact h
  | decision e id reviewId t =>
    refine h.applyAll (fun row hm he => .inr (.inl ?_)) ?_
    · have hd : (s.db.applyAll (decisionBundle e id reviewId t)).HasDecision id :=
        ⟨⟨id, e⟩, by rw [decisions_decisionBundle]; exact List.mem_append_right _ List.mem_cons_self, rfl⟩
      simp only [decisionBundle] at hm
      split at hm <;> simp at hm
      · rcases hm with rfl | rfl
        · exact ⟨rfl, hd⟩
        · cases he
      · exact hm ▸ ⟨rfl, hd⟩
    · by_cases hn : e.needsHumanReview = true <;>
        simp [decisionBundle, hn, Write.audit?, Write.review?, AuditRow.isEnqueued, List.filterMap_cons]
  | ingest content jobId tenantId t drawn =>
    refine h.applyAll (fun row hm he => .inl ?_) rfl
    have hj : (s.db.applyAll (ingestBundle content jobId tenantId t)).HasJob jobId :=
      ⟨_, List.mem_append_right _ List.mem_cons_self, rfl⟩
    simp [ingestBundle] at hm
    exact hm ▸ ⟨rfl, hj⟩

/-! ## The audit log of a run -/

/-- A transaction adds one review at most. -/
theorem review_of_complete {ws : List Write} (hc : Complete i s ws) {r : ReviewRow} (hm : .review r ∈ ws) :
    ws.filterMap Write.review? = [r] := by
  cases hc with
  | nil => cases hm
  | decision e id reviewId t =>
    by_cases hn : e.needsHumanReview = true <;> simp [decisionBundle, hn] at hm
    rw [hm]
    simp [decisionBundle, hn, Write.review?, List.filterMap_cons]
  | ingest => simp [ingestBundle] at hm

section Run

variable {ok : (service D).Config → (service D).Action → Prop} {now : Time} {h : List (service D).Step}
  {c : (service D).Config}

/-- What a release is about to update are reviews. -/
theorem reviews_of_at (hr : Pool.Run ok (boot D now) h c) {e : Entry} {rows : List (Uuid × Option String)} {t : Time}
    {k : Except Exn (List (Uuid × Option String)) → M Out} (hat : c.At i e (.sql (.releaseRows rows t)) k) :
    ∀ row ∈ rows, c.world.db.HasReview row.1 := by
  have hphase := hr.follows (fun _ => rfl) (M := fun _ => releaseMonitor) (code_releases D)
    (G := fun _ _ y _ s => ∀ rows t, y = some (.sql (.releaseRows rows t)) → ∀ row ∈ rows, s.db.HasReview row.1)
    (fun _ _ _ _ _ he => (nomatch he))
    (fun {h c i e q k p r s y} hr ha hat hx _ _ => by
      intro rows t he
      cases r with
      | error err => cases he
      | ok a =>
        cases q with
        | sql st =>
          cases st with
          | selectExpired t' =>
            cases he
            have hs := sound_of_reachable hr.reachable
            obtain ⟨ws, hrun⟩ := run_of_contract (hs.pre_of_at (valid D False) hat).1 (fun h => h) hx
            cases hrun
            exact fun row hm => (hasReview_of_expired hm).mono
              (grows_of_next hr.reachable (Pool.next_of_at hat hx)).db
          | _ => cases he
        | _ => cases he)
    (fun hr _ hn _ _ _ hG rows t he row hm => (hG rows t he row hm).mono (grows_of_next hr.reachable hn).db) i
  exact hphase.second hat trivial rows t rfl

/-- A call that is started has seen nothing. -/
theorem Grounded.init (hr : Pool.Run ok (boot D now) h c) {e : Entry} {c' : (service D).Config}
    (hn : Pool.next c (.start i e) = some c') : Grounded i (track D e).init c.world where
  inTxn := by
    have hs := (sound_of_reachable hr.reachable).thread i
    rw [(Pool.next_start hn).1] at hs
    have hidle : c.world.txn i = none := Unstarted.txn hs
    rw [hidle]
    rfl
  owed _ h := nomatch h
  jobs _ h := nomatch h
  keys _ h := nomatch h
  drawn _ h := nomatch h

/-- What a call learns in a step of a run is so. -/
theorem Grounded.step (hx : Grounded i x c.world) (hr : Pool.Run ok (boot D now) h c) {e : Entry} {q : Cmd}
    {k : Except Exn q.Ans → M Out} {p : Pick} {r : Except Exn q.Ans} (hat : c.At i e q k)
    (hexec : World.exec i q p c.world = some (r, s')) : Grounded i (x.after q r) s' := by
  refine hx.own ((sound_of_reachable hr.reachable).pre_of_at (valid D False) hat).1 (fun rows t hq => ?_) hexec
    (grows_of_next hr.reachable (Pool.next_of_at hat hexec))
  subst hq
  exact reviews_of_at hr hat

/-- What the calls of a run have seen is there. -/
theorem grounded_of_run (hr : Pool.Run ok (boot D now) h c) (i : Nat) :
    c.InPhase (M := track D) (fun _ _ y => y.Idle) (fun _ x => Grounded i x c.world) i := by
  refine hr.follows (fun _ => rfl) (M := track D) (code_tracked D) (G := fun i _ x _ s => Grounded i x s)
    (fun hr _ hn => .init hr hn)
    (fun hr _ hat hx _ hG => hG.step hr hat hx) (fun {h c a c' i e p x} hr _ hn hm _ _ hG => ?_) i
  have hk := kept_of_next hr.reachable hn hm
  exact hG.mono hk.grows (by rw [hk.txn])

theorem filed_of_run (hr : Pool.Run ok (boot D now) h c) : c.world.db.Filed := by
  induction hr with
  | nil => exact ⟨fun _ h => (nomatch h), rfl⟩
  | @cons h c a c' hr ha hn ih =>
    rw [db_of_next hn]
    rcases writes_ok hr.reachable hn with hnil | ⟨j, p, e, q, k, rfl, hat, hws, hstep⟩
    · rw [hnil]
      exact ih
    · obtain ⟨x, ⟨hq, -⟩, hx⟩ := grounded_of_run hr j e _ hat
      clear hws
      generalize Step.writes _ = ws at hstep ⊢
      cases hstep with
      | alone idle contract run fault => exact ih.alone idle contract run hx hq
      | commit complete => exact ih.commit complete

/-- All reviews have the identifiers of their decisions as long as none is committed
under another one. -/
theorem sameIds_of_run (hr : Pool.Run ok (boot D now) h c) :
    c.world.db.SameIds ↔ ∀ st ∈ h, ∀ r, .review r ∈ Step.writes st → r.id = r.decisionId := by
  induction hr with
  | nil => exact ⟨fun _ _ h => (nomatch h), fun _ _ h => (nomatch h)⟩
  | cons hr ha hn ih => rw [db_of_next hn, sameIds_applyAll, ih, List.forall_mem_cons, and_comm]

/-- The first review that is committed under another identifier than that of its decision
has no 'enqueued' row. -/
theorem id_of_referential {a : (service D).Action} {c' : (service D).Config} (hr : Pool.Run ok (boot D now) h c)
    (ha : ok c a) (hn : Pool.next c a = some c') (hs : c.world.db.SameIds) (href : c'.world.db.Referential)
    {r : ReviewRow} (hm : .review r ∈ Step.writes ⟨c, a, c'⟩) : r.id = r.decisionId := by
  have hfiled := filed_of_run (.cons hr ha hn)
  rw [db_of_next hn] at href hfiled
  rcases writes_ok hr.reachable hn with hnil | ⟨j, p, e, q, k, rfl, hat, hws, hstep⟩
  · rw [hnil] at hm
    cases hm
  clear hws
  generalize Step.writes _ = ws at hm href hfiled hstep
  cases hstep with
  | alone idle contract run fault =>
    cases (plain_of_alone contract (makes_of_run run _ hm)).keys
  | commit complete =>
    have hi := inv_of_reachable hr.reachable
    have hone := review_of_complete complete hm
    have hrow : r ∈ (c.world.db.applyAll (c.world.pending j)).reviews := by
      rw [reviews_of_no_update (hi.stored.kinds j), hone]
      exact List.mem_append_right _ List.mem_cons_self
    -- some review has the decision that its 'enqueued' row names
    have hcount := href.enqueued r hrow
    rw [hfiled.length_enqueued, reviews_applyAll (fun u r => congrArg (·.2.1) (u.link_apply r)), hone] at hcount
    have hid := List.count_pos_iff.mp (hcount ▸ Nat.one_pos)
    rcases List.mem_append.mp hid with hid | hid
    · obtain ⟨r', hr', he⟩ := List.mem_map.mp hid
      exact absurd ((hs r' hr').trans he) (fresh_of_pending hi hm hr')
    · simpa using hid

/-- In a run, every audit row refers to an entity of its type, and every review has its
one 'enqueued' row, as long as no step commits a review under another identifier than that
of its decision. -/
theorem referential_iff (hr : Pool.Run Pool.anything (boot D now) h c) :
    (∀ st ∈ h, st.after.world.db.Referential) ↔ ∀ st ∈ h, ∀ r, .review r ∈ Step.writes st → r.id = r.decisionId := by
  refine ⟨fun href => (sameIds_of_run hr).mp ?_, fun hids st hm => ?_⟩
  · induction hr with
    | nil => exact fun _ h => (nomatch h)
    | cons hr ha hn ih =>
      obtain ⟨hlast, href⟩ := List.forall_mem_cons.mp href
      rw [db_of_next hn, sameIds_applyAll]
      exact ⟨ih href, fun r hm => id_of_referential hr ha hn (ih href) hlast hm⟩
  · obtain ⟨⟨h', hr'⟩, ha, hn⟩ := hr.mem hm
    have hr' := Pool.Run.cons hr' ha hn
    refine (filed_of_run hr').referential (inv_of_reachable hr'.reachable).unique ?_
    -- what a review has, it keeps
    refine Classical.not_not.mp fun hne => ?_
    exact hr.keeps (K := fun c => ¬ c.world.db.SameIds) (fun _ hK hn hs => by
      rw [db_of_next hn, sameIds_applyAll] at hs
      exact hK hs.1) hm hne ((sameIds_of_run hr).mpr hids)

end Run

/-! ## Runs -/

theorem referential_sample : ∃ h c, Pool.Run Pool.anything (boot (sample .atomic) 0) h c ∧
    (∃ r ∈ c.world.db.reviews, r.status = .claimed) ∧
    ((∀ st ∈ h, st.after.world.db.Referential) ↔
      ∀ st ∈ h, ∀ r, .review r ∈ Step.writes st → r.id = r.decisionId) := by
  have hrun : (Pool.replayIf (fun _ _ => true) (flaggedSample (sample .atomic) ++ claimSample (sample .atomic) 2 9)
      (boot (sample .atomic) 0)).any (fun c => decide (∃ r ∈ c.world.db.reviews, r.status = .claimed)) = true := by
    decide +kernel
  have hany : ∀ (c : (service (sample .atomic)).Config) a, true = true → Pool.anything c a := fun _ _ _ => trivial
  obtain ⟨h, c, hr, hc⟩ := Pool.exists_replayIf hany hrun
  exact ⟨h, c, hr, of_decide_eq_true hc, referential_iff hr⟩

/-- The sample is ingested and flagged; its decision is 3 and its review 4. -/
def reviewSample (D : Deployment) : List (service D).Action :=
  ingestSample D 0 1 2 ++ .step 0 {} :: .start 1 (.pollSqs {} 1) :: List.replicate 13 (.step 1 flagSample) ++
    List.replicate 6 (.step 1 { flagSample with fresh := ⟨4⟩ })

/-- The 'enqueued' row of a review names its decision. -/
theorem enqueued_misfiled : ¬ ∀ c, Pool.Reachable (boot (sample .atomic) 0) c → c.world.db.Referential := by
  intro href
  have hrun : (Pool.replay (reviewSample (sample .atomic)) (boot (sample .atomic) 0)).any (fun c =>
      c.world.db.reviews.any fun r =>
        decide (((c.world.db.auditOf "review" r.id).filter fun row => row.action = "enqueued").length ≠ 1))
            = true := by
    decide +kernel
  obtain ⟨c, hc, hrun⟩ := Pool.exists_replay hrun
  obtain ⟨r, hm, hne⟩ := List.any_eq_true.mp hrun
  exact of_decide_eq_true hne ((href c hc).enqueued r hm)

end CM
