import ContentModeration.Proof.AuditLog

/-!
# Transitions of reviews and their audit rows

A statement that changes a review commits at once, and its audit rows are inserted by
later statements of the call, so a call that ends in between leaves changes without audit
rows (`resolved_unaudited`). Where none does (`Unbroken`), the changes of every call are
its audit rows and what it owes (`Balanced`). So once all calls have ended, every change is
audited once (`transitions_audited`).
-/

namespace CM

open Database World

variable {D : Deployment} {i : Nat} {s s' : World} {x : Known} {e : Entry}

/-! ## Changes and audit rows -/

/-- What an update does, as it is audited. -/
def ReviewUpdate.event : ReviewUpdate → ReviewEvent
  | .claim .. => .claimed
  | .resolve .. => .resolved
  | .release => .claimExpired

/-- The write is the change `y` of a review. -/
def Write.changes (y : Uuid × ReviewEvent) : Write → Bool
  | .updateReview id u => decide ((id, u.event) = y)
  | _ => false

/-- The write is the audit row of the change `y` of a review. -/
def Write.audits (y : Uuid × ReviewEvent) : Write → Bool
  | .audit row =>
    decide (row.entityType = "review") && decide (row.entityId = y.1) && decide (row.action = y.2.action)
  | _ => false

/-- How often the event of the review has been audited. -/
def Database.audited (db : Database) (id : Uuid) (v : ReviewEvent) : Nat :=
  ((db.auditOf "review" id).filter fun row => row.action = v.action).length

theorem ReviewEvent.action_injective {v w : ReviewEvent} (h : v.action = w.action) : v = w := by
  cases v <;> cases w <;> first | rfl | (revert h; decide)

theorem audited_applyAll (ws : List Write) (id : Uuid) (v : ReviewEvent) :
    (Database.applyAll {} ws).audited id v = ws.countP (Write.audits (id, v)) := by
  have haudit : (Database.applyAll {} ws).audit = ws.filterMap Write.audit? := by
    rw [audit_applyAll]
    rfl
  rw [Database.audited, auditOf, haudit, List.filter_filter, ← List.countP_eq_length_filter, List.countP_filterMap]
  refine List.countP_congr fun w _ => ?_
  cases w with
  | audit row => simp [Write.audit?, Write.audits, and_comm]
  | _ => simp [Write.audit?, Write.audits]

theorem countP_updatesOf (ws : List Write) (id : Uuid) (v : ReviewEvent) :
    (updatesOf id ws).countP (fun u => decide (u.event = v)) = ws.countP (Write.changes (id, v)) := by
  rw [updatesOf, List.countP_filterMap]
  refine List.countP_congr fun w _ => ?_
  cases w with
  | updateReview id' u =>
    by_cases hid : id' = id <;> simp [Write.updateOf?, Write.changes, hid]
  | _ => simp [Write.updateOf?, Write.changes]

/-! ## Unbroken runs -/

/-- The request belongs to a change that was made before: the insert of its audit row, or
what `claim_review` reads in between. -/
def Cmd.Owed (e : Entry) : Cmd → Prop
  | .sql (.insertAudit row) => row.entityType = "review"
  | .sql (.reviewFull _) => ∃ id body, e = .claimReview id body
  | _ => False

/-- The next request of what is left of a call is owed. -/
def NextOwed (e : Entry) (p : M Out) : Prop := ∃ q k, p = .call q k ∧ q.Owed e

/-- A step does not end a call between a change of a review and its audit rows. -/
structure Unbroken (c : (service D).Config) (a : (service D).Action) : Prop where
  /-- No statement changes a review and raises. -/
  update {i e q k p w} : c.At i e q k → a = .step i p → w ∈ c.world.commits i q p → w.IsReviewUpdate → p.fault = .none
  /-- The insert of an audit row does not raise, or only once the row is there and it is the last. -/
  audit {i e row k p} : c.At i e (.sql (.insertAudit row)) k → a = .step i p → c.world.txn i = none →
    row.entityType = "review" → p.fault = .none ∨ (∃ text, p.fault = .after text) ∧ ¬ NextOwed e (k (.ok ()))
  /-- The claimed row is read again. -/
  read {i id body id' k p} : c.At i (.claimReview id body) (.sql (.reviewFull id')) k → a = .step i p →
    p.fault = .none
  crash {i e q k} : c.At i e q k → a = .crash i → c.world.txn i = none → ¬ q.Owed e

/-! ## What a request leaves owed -/

/-- A statement outside transactions raises without effect, or takes effect, and then answers or raises. -/
theorem sql_outcome {st : Sql} {p : Pick} {r : Except Exn st.Ans} (ht : s.txn i = none)
    (hx : World.exec i (.sql st) p s = some (r, s')) :
    ((∃ err, r = .error err) ∧ s.commits i (.sql st) p = [] ∧
      ((∃ err, st.execute s.db s.now p.fresh = .error err) ∨ ∃ text, p.fault = .before text)) ∨
    ∃ a ws, st.run s.db s.now p.fresh = .ok (a, ws) ∧ s.commits i (.sql st) p = ws ∧
      (r = .ok a ∨ (∃ text, p.fault = .after text) ∧ ∃ err, r = .error err) := by
  simp only [World.exec, runSql, ht] at hx
  simp only [World.commits, ht]
  cases hrun : st.execute s.db s.now p.fresh with
  | error err =>
    rw [hrun] at hx
    cases hx
    refine .inl ⟨⟨err, rfl⟩, ?_, .inl ⟨err, rfl⟩⟩
    split <;> rfl
  | ok v =>
    rw [hrun] at hx
    dsimp only at hx
    split at hx
    · cases hx
    · have hx := Option.some.inj hx
      cases hf : p.fault with
      | none =>
        simp only [World.answer, hf] at hx
        cases hx
        exact .inr ⟨_, _, Sql.run_of_execute hrun, rfl, .inl rfl⟩
      | before text =>
        simp only [World.answer, hf] at hx
        cases hx
        exact .inl ⟨⟨_, rfl⟩, rfl, .inr ⟨text, rfl⟩⟩
      | after text =>
        simp only [World.answer, hf] at hx
        cases hx
        exact .inr ⟨_, _, Sql.run_of_execute hrun, rfl, .inr ⟨⟨text, rfl⟩, _, rfl⟩⟩

/-- What is owed after the writes: what was owed, with the changes and without the audit rows. -/
def Pays (ws : List Write) (owed owed' : List (Uuid × ReviewEvent)) : Prop :=
  ∀ y, ws.countP (Write.changes y) + owed.count y = ws.countP (Write.audits y) + owed'.count y

/-- The write is no change of a review and not the audit row of one. -/
def Write.Other (w : Write) : Prop := ∀ y, w.changes y = false ∧ w.audits y = false

theorem Pays.of_other {ws : List Write} (hw : ∀ w ∈ ws, w.Other) (owed : List (Uuid × ReviewEvent)) :
    Pays ws owed owed := by
  intro y
  have hchanges : ws.countP (Write.changes y) = 0 := List.countP_eq_zero.mpr fun w hm => by simp [(hw w hm y).1]
  have haudits : ws.countP (Write.audits y) = 0 := List.countP_eq_zero.mpr fun w hm => by simp [(hw w hm y).2]
  omega

theorem Pays.nil (owed : List (Uuid × ReviewEvent)) : Pays [] owed owed := .of_other (fun _ h => by cases h) owed

/-- Changes of reviews are owed. -/
theorem Pays.of_updates (l : List (Uuid × ReviewUpdate)) :
    Pays (l.map fun y => .updateReview y.1 y.2) [] (l.map fun y => (y.1, y.2.event)) := by
  intro y
  have haudits : (l.map fun y => Write.updateReview y.1 y.2).countP (Write.audits y) = 0 :=
    List.countP_eq_zero.mpr fun w hm => by
      obtain ⟨z, -, rfl⟩ := List.mem_map.mp hm
      simp [Write.audits]
  rw [haudits, List.count_nil, List.count_eq_countP, List.countP_map, List.countP_map, Nat.add_zero, Nat.zero_add]
  refine List.countP_congr fun z _ => ?_
  simp [Write.changes]

/-- An audit row pays for its change. -/
theorem Pays.of_audit {row : AuditRow} {v : ReviewEvent} {rest : List (Uuid × ReviewEvent)}
    (ht : row.entityType = "review") (hv : row.action = v.action) :
    Pays [.audit row] ((row.entityId, v) :: rest) rest := by
  intro y
  have heq : Write.audits y (.audit row) = ((row.entityId, v) == y) := by
    have hiff : v.action = y.2.action ↔ v = y.2 := ⟨ReviewEvent.action_injective, congrArg _⟩
    rw [Bool.eq_iff_iff, beq_iff_eq, Prod.ext_iff, ← hiff]
    simp [Write.audits, ht, hv]
  rw [List.countP_singleton, List.countP_singleton, heq, List.count_cons]
  simp [Write.changes]
  omega

/-- Rows of other entities are not those of changes. -/
theorem Write.Other.audit {row : AuditRow} (ht : row.entityType ≠ "review") : Write.Other (.audit row) :=
  fun y => ⟨rfl, by simp [Write.audits, ht]⟩

theorem other_of_complete {ws : List Write} (hc : Complete i s ws) : ∀ w ∈ ws, w.Other := by
  have enqueued : ∀ {row : AuditRow}, row.action = "enqueued" → Write.Other (.audit row) := fun {row} ha y =>
    ⟨rfl, by
      have hne : row.action ≠ y.2.action := by
        rw [ha]
        cases y.2 <;> decide
      simp [Write.audits, hne]⟩
  cases hc with
  | nil => exact fun _ h => by cases h
  | decision env id reviewId t =>
    intro w hw
    by_cases hn : env.needsHumanReview = true <;> simp [decisionBundle, hn] at hw
    · rcases hw with rfl | rfl | rfl | rfl | rfl | rfl
      · exact fun y => ⟨rfl, rfl⟩
      · exact fun y => ⟨rfl, rfl⟩
      · exact .audit (by simp)
      · exact fun y => ⟨rfl, rfl⟩
      · exact fun y => ⟨rfl, rfl⟩
      · exact enqueued rfl
    · rcases hw with rfl | rfl | rfl | rfl
      · exact fun y => ⟨rfl, rfl⟩
      · exact fun y => ⟨rfl, rfl⟩
      · exact .audit (by simp)
      · exact fun y => ⟨rfl, rfl⟩
  | ingest content jobId tenantId t =>
    intro w hw
    simp [ingestBundle] at hw
    rcases hw with rfl | rfl | rfl
    · exact fun y => ⟨rfl, rfl⟩
    · exact fun y => ⟨rfl, rfl⟩
    · exact .audit (by simp)

/-- The statements that change a review, or insert the audit row of a change. -/
def Sql.IsTransition : Sql → Prop
  | .claimReview .. | .resolveReview .. | .releaseExpired _ | .releaseRows .. | .insertAudit _ => True
  | _ => False

theorem other_of_makes {st : Sql} {db : Database} {t : Time} {w : Write} (hst : ¬ st.IsTransition)
    (hm : db.Makes t st w) : w.Other := by
  cases hm with
  | audit | releaseExpired | releaseRows | claim | resolve => exact absurd trivial hst
  | auditRedrive => exact .audit (by simp)
  | _ => exact fun y => ⟨rfl, rfl⟩

/-- Only transitions leave something owed. -/
theorem owed_after {q : Cmd} {r : Except Exn q.Ans} (hq : ∀ st, q = .sql st → ¬ st.IsTransition) (ho : x.owed = []) :
    (x.after q r).owed = [] := by
  cases q with
  | sql st =>
    cases st with
    | claimReview | resolveReview | releaseExpired | releaseRows | insertAudit => exact absurd trivial (hq _ rfl)
    | jobAttempts | resetJob =>
      cases r with
      | error err => rfl
      | ok a => cases a <;> exact ho
    | _ => cases r <;> first | exact ho | rfl
  | _ => cases r <;> first | exact ho | rfl

/-- A statement that makes only changes of reviews leaves their audit rows owed, unless it raises after them. -/
theorem pays_of_updates {st : Sql} {p : Pick} {r : Except Exn st.Ans} (ht : s.txn i = none)
    (hx : World.exec i (.sql st) p s = some (r, s'))
    (hu : ∀ w ∈ s.commits i (.sql st) p, w.IsReviewUpdate → p.fault = .none)
    (herr : ∀ err, (x.after (.sql st) (.error err)).owed = [])
    (hok : ∀ a ws, st.run s.db s.now p.fresh = .ok (a, ws) → ∃ l : List (Uuid × ReviewUpdate),
      ws = l.map (fun y => .updateReview y.1 y.2) ∧
      (x.after (.sql st) (.ok a)).owed = l.map fun y => (y.1, y.2.event)) :
    Pays (s.commits i (.sql st) p) [] (x.after (.sql st) r).owed := by
  rcases sql_outcome ht hx with ⟨⟨err, rfl⟩, hws, -⟩ | ⟨a, ws, hrun, hws, hr⟩
  · rw [hws, herr]
    exact .nil _
  · rw [hws] at hu ⊢
    obtain ⟨l, rfl, howed⟩ := hok a ws hrun
    rcases hr with rfl | ⟨⟨text, hf⟩, err, rfl⟩
    · rw [howed]
      exact .of_updates l
    · -- a failure after the changes is excluded, so there are none
      cases l with
      | nil =>
        rw [herr]
        exact .nil _
      | cons y l =>
        have := hu _ List.mem_cons_self ⟨y.1, y.2, rfl⟩
        rw [hf] at this
        cases this

/-- A call that owes something makes no other request. -/
theorem owed_of_allows {q : Cmd} (hq : x.Allows D e q) (hn : ¬ q.Owed e) : x.owed = [] := by
  cases q with
  | sql st =>
    cases st with
    | insertAudit row =>
      rcases hq with ⟨ht, -⟩ | ⟨ho, -⟩
      · exact absurd ht hn
      · exact ho
    | reviewFull id => exact hq.resolve_right hn
    | auditRedrive | insertDecision | insertContent => exact hq.1
    | claimReview | resolveReview | releaseExpired | releaseRows => exact hq.owed
    | _ => exact hq
  | sendMessage | putObject => exact hq.1
  | _ => exact hq

theorem owed_of_not_nextOwed {p : M Out} (hp : p.Follows (track D e) (fun _ y => y.Idle) x) (hn : ¬ NextOwed e p) :
    x.owed = [] := by
  cases p with
  | ret a => exact Known.Idle.owed hp
  | throw err => exact Known.Idle.owed hp
  | call q k => exact owed_of_allows hp.1 fun h => hn ⟨q, k, rfl, h⟩

/-- Inside a transaction nothing is owed. -/
theorem idle_after {q : Cmd} {r : Except Exn q.Ans} (hq : x.Allows D e q) (hi : x.inTxn = true → x.owed = [])
    (ht : (x.after q r).inTxn = true) : (x.after q r).owed = [] := by
  -- a change of a review is made outside transactions
  have change : ∀ owed : List (Uuid × ReviewEvent), x.Idle →
      ({ x with owed := owed } : Known).inTxn = true → owed = [] :=
    fun owed h ht => absurd ht (by simp [h.inTxn])
  have other : (∀ st, q = .sql st → ¬ st.IsTransition) → ¬ q.Owed e → (x.after q r).owed = [] :=
    fun hst hn => owed_after hst (owed_of_allows hq hn)
  cases q with
  | sql st =>
    cases st with
    | insertAudit row =>
      cases r with
      | error err => rfl
      | ok a =>
        have hafter : x.after (.sql (.insertAudit row)) (.ok a) =
          if x.inTxn then x else { x with owed := x.owed.tail } := rfl
        rw [hafter] at ht ⊢
        split at ht
        · rename_i htxn
          rw [if_pos htxn]
          exact hi htxn
        · rename_i hn
          exact absurd ht hn
    | reviewFull id =>
      cases r with
      | error err => rfl
      | ok a => exact hi ht
    | claimReview | resolveReview =>
      cases r with
      | error err => rfl
      | ok a =>
        cases a with
        | none => exact hq.owed
        | some id => exact change _ hq ht
    | releaseExpired | releaseRows =>
      cases r with
      | error err => rfl
      | ok a => exact change _ hq ht
    | _ => exact other (fun st he => by cases he; exact fun h => h) fun h => h
  | _ => exact other (fun st he => by cases he) fun h => h

variable {c : (service D).Config} {p : Pick}

/-- The insert of an audit row pays for its change. -/
theorem pays_of_audit {row : AuditRow} {k : Except Exn Unit → M Out} {r : Except Exn Unit}
    (hat : c.At i e (.sql (.insertAudit row)) k)
    (hx : World.exec i (.sql (.insertAudit row)) p c.world = some (r, s'))
    (hf : (Prog.call (I := iface) (.sql (.insertAudit row)) k).Follows (track D e) (fun _ y => y.Idle) x)
    (hg : Grounded i x c.world) (hi : x.inTxn = true → x.owed = []) (hu : Unbroken c (.step i p)) :
    Pays (c.world.commits i (.sql (.insertAudit row)) p) x.owed (x.after (.sql (.insertAudit row)) r).owed := by
  have hafter : x.after (.sql (.insertAudit row)) (.ok ()) =
    if x.inTxn then x else { x with owed := x.owed.tail } := rfl
  have herr : ∀ err, (x.after (.sql (.insertAudit row)) (.error err)).owed = [] := fun _ => rfl
  cases ht : c.world.txn i with
  | some t =>
    -- inside a transaction nothing is committed
    have htxn : x.inTxn = true := by rw [hg.inTxn, ht]; rfl
    have hws : c.world.commits i (.sql (.insertAudit row)) p = [] := by
      simp only [World.commits, ht]
      split <;> rfl
    rw [hws, hi htxn]
    cases r with
    | error err => exact herr err ▸ .nil _
    | ok u =>
      rw [hafter, if_pos htxn, hi htxn]
      exact .nil _
  | none =>
    have htxn : ¬ x.inTxn = true := by rw [hg.inTxn, ht]; simp
    rw [if_neg htxn] at hafter
    have hallows : x.Allows D e (.sql (.insertAudit row)) := hf.1
    rcases hallows with ⟨htype, hdetail, v, rest, howed, hv⟩ | ⟨howed, hrow⟩
    · rw [howed] at hafter ⊢
      rcases sql_outcome ht hx with ⟨-, -, ⟨err, hrun⟩ | ⟨text, hfault⟩⟩ | ⟨a, ws, hrun, hws, hr⟩
      · rw [Sql.execute_of_storable (Sql.refusal_insertAudit.mpr hdetail)] at hrun
        cases hrun
      · rcases hu.audit hat rfl ht htype with hn | ⟨⟨text', hn⟩, -⟩ <;> rw [hfault] at hn <;> cases hn
      · cases hrun
        rw [hws]
        rcases hr with rfl | ⟨⟨text, hfault⟩, err, rfl⟩
        · rw [hafter]
          exact .of_audit htype hv
        · -- the row is there, and it is the last
          have hlast : rest = [] := by
            rcases hu.audit hat rfl ht htype with hn | ⟨-, hn⟩
            · rw [hfault] at hn
              cases hn
            · have hnext := owed_of_not_nextOwed (hf.2 (.ok ())) hn
              have hnext : (x.after (.sql (.insertAudit row)) (.ok ())).owed = [] := hnext
              rwa [hafter] at hnext
          rw [herr, hlast]
          exact .of_audit htype hv
    · have hother : row.entityType ≠ "review" := by
        rcases hrow with htxn' | ⟨hjob, -⟩
        · exact absurd htxn' htxn
        · simp [hjob]
      have hws : ∀ w ∈ c.world.commits i (.sql (.insertAudit row)) p, w.Other := by
        rcases sql_outcome ht hx with ⟨-, hws, -⟩ | ⟨a, ws, hrun, hws, -⟩
        · rw [hws]
          exact fun _ h => by cases h
        · rw [hws]
          cases hrun
          exact fun w hw => List.mem_singleton.mp hw ▸ .audit hother
      have howed' : (x.after (.sql (.insertAudit row)) r).owed = [] := by
        cases r with
        | error err => rfl
        | ok u => rw [hafter, howed]; rfl
      rw [howed, howed']
      exact .of_other hws _

/-- Only transitions commit changes of reviews and their audit rows. -/
theorem other_of_commits {q : Cmd} {r : Except Exn q.Ans} (hc : Contract D i s q)
    (hx : World.exec i q p s = some (r, s'))
    (hq : ∀ st, q = .sql st → ¬ st.IsTransition) : ∀ w ∈ s.commits i q p, w.Other := by
  intro w hw
  rcases commits_ok hc hx with hnil | hstep
  · rw [hnil] at hw
    cases hw
  · generalize s.commits i q p = ws at hw hstep
    cases hstep with
    | alone idle contract run fault => exact other_of_makes (hq _ rfl) (makes_of_run run w hw)
    | commit complete => exact other_of_complete complete w hw

/-- In an unbroken run, a request writes the audit rows of the changes that the call makes,
or owes them. -/
theorem pays_of_step {q : Cmd} {k : Except Exn q.Ans → M Out} {r : Except Exn q.Ans} (hc : Contract D i c.world q)
    (hat : c.At i e q k) (hx : World.exec i q p c.world = some (r, s'))
    (hf : (Prog.call q k).Follows (track D e) (fun _ y => y.Idle) x) (hg : Grounded i x c.world)
    (hi : x.inTxn = true → x.owed = []) (hu : Unbroken c (.step i p)) :
    Pays (c.world.commits i q p) x.owed (x.after q r).owed := by
  have hallows : x.Allows D e q := hf.1
  have hupdates : ∀ w ∈ c.world.commits i q p, w.IsReviewUpdate → p.fault = .none := fun w hw => hu.update hat rfl hw
  have quiet : (∀ st, q = .sql st → ¬ st.IsTransition) → x.owed = [] →
      Pays (c.world.commits i q p) x.owed (x.after q r).owed := fun hst ho => by
    rw [owed_after hst ho, ho]
    exact .of_other (other_of_commits hc hx hst) _
  cases q with
  | sql st =>
    have hidle : ¬ st.InTxn → c.world.txn i = none := idle_of_contract hc
    cases st with
    | insertAudit row => exact pays_of_audit hat hx hf hg hi hu
    | claimReview id reviewer t expires =>
      rw [hallows.owed]
      refine pays_of_updates (hidle fun h => h) hx hupdates (fun _ => rfl) fun a ws hrun => ?_
      simp only [Sql.run] at hrun
      split at hrun <;> cases hrun
      · exact ⟨[(id, .claim reviewer t expires)], rfl, rfl⟩
      · exact ⟨[], rfl, hallows.owed⟩
    | resolveReview id status decision notes reviewer t =>
      rw [hallows.owed]
      refine pays_of_updates (hidle fun h => h) hx hupdates (fun _ => rfl) fun a ws hrun => ?_
      simp only [Sql.run] at hrun
      split at hrun <;> cases hrun
      · exact ⟨[(id, .resolve status decision notes reviewer t)], rfl, rfl⟩
      · exact ⟨[], rfl, hallows.owed⟩
    | releaseExpired t =>
      rw [hallows.owed]
      refine pays_of_updates (hidle fun h => h) hx hupdates (fun _ => rfl) fun a ws hrun => ?_
      cases hrun
      refine ⟨(c.world.db.expiredClaims t).map fun r => (r.id, .release), by rw [List.map_map]; rfl, ?_⟩
      show List.map _ (List.map _ _) = _
      rw [List.map_map, List.map_map]
      rfl
    | releaseRows rows t =>
      rw [hallows.owed]
      refine pays_of_updates (hidle fun h => h) hx hupdates (fun _ => rfl) fun a ws hrun => ?_
      cases hrun
      refine ⟨rows.map fun r => (r.1, .release), by rw [List.map_map]; rfl, ?_⟩
      show List.map _ rows = _
      rw [List.map_map]
      rfl
    | reviewFull id =>
      have ht := hidle fun h => h
      rcases hallows with ho | ⟨id', body, rfl⟩
      · exact quiet (fun st he => by cases he; exact fun h => h) ho
      · -- the claimed row is read again without failing
        have hfault := hu.read hat rfl
        rcases sql_outcome ht hx with ⟨-, -, ⟨err, hrun⟩ | ⟨text, hn⟩⟩ | ⟨a, ws, hrun, hws, rfl | ⟨⟨text, hn⟩, -⟩⟩
        · cases hrun
        · rw [hfault] at hn
          cases hn
        · rw [hws]
          cases hrun
          exact .nil _
        · rw [hfault] at hn
          cases hn
    | _ => exact quiet (fun st he => by cases he; exact fun h => h) (owed_of_allows hallows fun h => h)
  | _ => exact quiet (fun st he => by cases he) (owed_of_allows hallows fun h => h)

/-! ## The books of a run -/

/-- The threads that have made the writes satisfying `f`. -/
def makers (f : Write → Bool) : List (service D).Step → List (Option Nat)
  | [] => []
  | st :: h => makers f h ++ ((Step.writes st).filter f).map fun _ => st.action.thread

/-- The changes of thread `i` are its audit rows and `owed`. -/
def Balanced (h : List (service D).Step) (i : Nat) (owed : List (Uuid × ReviewEvent)) : Prop :=
  ∀ y, (makers (Write.changes y) h).count (some i) = (makers (Write.audits y) h).count (some i) + owed.count y

theorem length_makers (f : Write → Bool) (h : List (service D).Step) :
    (makers f h).length = (journal h).countP f := by
  induction h with
  | nil => rfl
  | cons st h ih =>
    rw [makers, journal, List.length_append, List.length_map, ih, List.countP_append,
      List.countP_eq_length_filter (p := f) (l := Step.writes st)]

theorem count_makers_own {f : Write → Bool} {st : (service D).Step} {o : Option Nat} (h : List (service D).Step)
    (ht : st.action.thread = o) : (makers f (st :: h)).count o =
    (makers f h).count o + (Step.writes st).countP f := by
  rw [makers, List.count_append, ht, List.map_const', List.count_replicate_self, List.countP_eq_length_filter]

theorem count_makers_other {f : Write → Bool} {st : (service D).Step} {o : Option Nat} (h : List (service D).Step)
    (ht : st.action.thread ≠ o) : (makers f (st :: h)).count o = (makers f h).count o := by
  rw [makers, List.count_append, List.map_const', List.count_replicate, if_neg (by simpa using ht), Nat.add_zero]

variable {h : List (service D).Step} {owed owed' : List (Uuid × ReviewEvent)}

theorem Balanced.own {st : (service D).Step} (hb : Balanced h i owed) (ht : st.action.thread = some i)
    (hp : Pays (Step.writes st) owed owed') : Balanced (st :: h) i owed' := by
  intro y
  rw [count_makers_own h ht, count_makers_own h ht]
  have := hb y
  have := hp y
  omega

theorem Balanced.other {st : (service D).Step} (hb : Balanced h i owed) (ht : st.action.thread ≠ some i) :
    Balanced (st :: h) i owed := by
  intro y
  rw [count_makers_other h ht, count_makers_other h ht]
  exact hb y

section Run

variable {ok : (service D).Config → (service D).Action → Prop} {now : Time}

theorem balanced_of_unstarted (hr : Pool.Run ok (boot D now) h c) (ht : c.threads i = none) : Balanced h i [] := by
  induction hr with
  | nil => exact fun _ => rfl
  | @cons h c a c' hr ha hn ih =>
    have hne : a.thread ≠ some i := by
      intro hm
      cases a with
      | start j e =>
        cases hm
        obtain ⟨-, rfl⟩ := Pool.next_start hn
        rw [Pool.Config.threads_set_self] at ht
        cases ht
      | step j p =>
        cases hm
        obtain ⟨e, q, k, r, w, -, -, rfl⟩ := Pool.next_step hn
        rw [Pool.Config.threads_set_self] at ht
        cases ht
      | crash j =>
        cases hm
        obtain ⟨e, q, k, -, rfl⟩ := Pool.next_crash hn
        rw [Pool.Config.threads_set_self] at ht
        cases ht
      | env v => cases hm
    rw [Pool.threads_next hn hne] at ht
    exact (ih ht).other hne

/-- What is known of a call in an unbroken run. -/
structure Books (h : List (service D).Step) (i : Nat) (x : Known) (s : World) : Prop where
  grounded : Grounded i x s
  idle : x.inTxn = true → x.owed = []
  balanced : Balanced h i x.owed

theorem books_of_run (hok : ∀ c a, ok c a → Unbroken c a) (hr : Pool.Run ok (boot D now) h c) (i : Nat) :
    c.InPhase (M := track D) (fun _ _ y => y.Idle) (fun _ x => Books h i x c.world) i := by
  refine hr.follows (fun _ => rfl) (M := track D) (code_tracked D) (G := fun i _ x h s => Books h i x s)
    ?start ?own ?others i
  case start =>
    intro h c i e c' hr _ hn
    exact ⟨.init hr hn, fun _ => rfl, (balanced_of_unstarted hr (Pool.next_start hn).1).own rfl (.nil _)⟩
  case own =>
    intro h c i e q k p r s x hr ha hat hx hp hb
    have hc := ((sound_of_reachable hr.reachable).pre_of_at (valid D False) hat).1
    have hpays := pays_of_step hc hat hx hp hb.grounded hb.idle (hok _ _ ha)
    rw [← writes_of_at hat] at hpays
    exact ⟨hb.grounded.step hr hat hx, idle_after hp.1 hb.idle, hb.balanced.own rfl hpays⟩
  case others =>
    intro h c a c' i e p x hr _ hn hm _ _ hb
    have hk := kept_of_next hr.reachable hn hm
    exact ⟨hb.grounded.mono hk.grows (by rw [hk.txn]), hb.idle, hb.balanced.other hm⟩

/-- A call that has died had audited its changes. -/
theorem balanced_of_dead (hok : ∀ c a, ok c a → Unbroken c a) (hr : Pool.Run ok (boot D now) h c)
    (ht : c.threads i = some ⟨e, none⟩) : Balanced h i [] := by
  induction hr with
  | nil => cases ht
  | @cons h c a c' hr ha hn ih =>
    by_cases hm : a.thread = some i
    · cases a with
      | start j f =>
        cases hm
        obtain ⟨-, rfl⟩ := Pool.next_start hn
        rw [Pool.Config.threads_set_self] at ht
        cases ht
      | step j p =>
        cases hm
        obtain ⟨f, q, k, r, w, -, -, rfl⟩ := Pool.next_step hn
        rw [Pool.Config.threads_set_self] at ht
        cases ht
      | crash j =>
        cases hm
        obtain ⟨f, q, k, hat, -⟩ := Pool.next_crash hn
        obtain ⟨x, hp, hb⟩ := books_of_run hok hr i f _ hat
        have howed : x.owed = [] := by
          cases htxn : c.world.txn i with
          | some t => exact hb.idle (by rw [hb.grounded.inTxn, htxn]; rfl)
          | none => exact owed_of_allows hp.1 ((hok _ _ ha).crash hat rfl htxn)
        exact (howed ▸ hb.balanced).own rfl (.nil _)
      | env v => cases hm
    · rw [Pool.threads_next hn hm] at ht
      exact (ih ht).other hm

/-- No call is under way. -/
def Quiescent (c : (service D).Config) : Prop := ∀ i e q k, ¬ c.At i e q k

theorem balanced_of_quiescent (hok : ∀ c a, ok c a → Unbroken c a) (hr : Pool.Run ok (boot D now) h c)
    (hq : Quiescent c) (i : Nat) : Balanced h i [] := by
  cases ht : c.threads i with
  | none => exact balanced_of_unstarted hr ht
  | some t =>
    obtain ⟨e, p⟩ := t
    cases p with
    | none => exact balanced_of_dead hok hr ht
    | some p =>
      obtain ⟨x, hp, hb⟩ := books_of_run hok hr i e p ht
      have howed : x.owed = [] := by
        cases p with
        | ret a => exact Known.Idle.owed hp
        | throw err => exact Known.Idle.owed hp
        | call q k => exact absurd ht (hq i e q k)
      exact howed ▸ hb.balanced

/-- Once all calls of an unbroken run have ended, every change of a review has been audited
as often as it was made. -/
theorem audited_of_quiescent (hok : ∀ c a, ok c a → Unbroken c a) (hr : Pool.Run ok (boot D now) h c)
    (hq : Quiescent c) (id : Uuid) (v : ReviewEvent) :
    c.world.db.audited id v = (updatesOf id (journal h)).countP fun u => decide (u.event = v) := by
  have hnone : ∀ (f : Write → Bool) (h : List (service D).Step), (makers f h).count none = 0 := by
    intro f h
    induction h with
    | nil => rfl
    | cons st h ih =>
      by_cases ht : st.action.thread = none
      · rw [count_makers_own h ht, ih]
        obtain ⟨c, a, c'⟩ := st
        cases a with
        | env v => rfl
        | start j | step j | crash j => cases ht
      · rw [count_makers_other h ht, ih]
  have hperm : (makers (Write.changes (id, v)) h).Perm (makers (Write.audits (id, v)) h) := by
    refine List.perm_iff_count.mpr fun o => ?_
    cases o with
    | none => rw [hnone, hnone]
    | some i => exact balanced_of_quiescent hok hr hq i (id, v)
  rw [db_of_run hr, audited_applyAll, countP_updatesOf, ← length_makers, ← length_makers, hperm.length_eq]

end Run

/-! ## Reviews and their audit rows -/

/-- A review has been resolved once, or is not resolved. -/
theorem Lives.count_resolved {model : Decision} {us : List ReviewUpdate} {r : ReviewRow} (h : Lives model us r) :
    us.countP (fun u => decide (u.event = .resolved)) = if r.resolved then 1 else 0 := by
  induction h with
  | created => rfl
  | claim reviewer now expires life free ih | release life free ih =>
    rw [List.countP_append, ih, free]
    rfl
  | resolve decision now life claimed owner stripped reason ih =>
    rw [List.countP_append, ih, ReviewRow.not_resolved_of_claimed claimed]
    cases decision <;> rfl

/-- Once all calls of an unbroken run have ended, a review is resolved if and only if it
has been audited as resolved once, and is audited as claimed as often as it was claimed, and as
expired as often as it was released. -/
theorem transitions_audited {now : Time} {h : List (service D).Step} {c : (service D).Config}
    (hr : Pool.Run (fun c a => Undisturbed c a ∧ Unbroken c a) (boot D now) h c) (hq : Quiescent c) :
    ∀ r ∈ c.world.db.reviews, (r.resolved = true ↔ c.world.db.audited r.id .resolved = 1) ∧
      c.world.db.audited r.id .claimed = (updatesOf r.id (journal h)).countP (fun u => decide (u.event = .claimed)) ∧
      c.world.db.audited r.id .claimExpired =
        (updatesOf r.id (journal h)).countP fun u => decide (u.event = .claimExpired) := by
  intro r hm
  have haudited := audited_of_quiescent (fun _ _ h => h.2) hr hq r.id
  obtain ⟨d, -, -, hlife⟩ := (lived_of_undisturbed (hr.imp fun _ h => h.1)).rows r hm
  refine ⟨?_, haudited .claimed, haudited .claimExpired⟩
  rw [haudited .resolved, hlife.count_resolved]
  cases r.resolved <;> simp

/-! ## Runs -/

/-- A check that none of `n` calls is under way. -/
def quiescent? (n : Nat) (c : (service D).Config) : Bool :=
  (List.range n).all fun i => match c.threads i with
    | some ⟨_, some (.call _ _)⟩ => false
    | _ => true

theorem quiescent_of_check {n : Nat} {c : (service D).Config} (hn : ∀ i, n ≤ i → c.threads i = none)
    (h : quiescent? n c = true) : Quiescent c := by
  intro i e q k hat
  have ht : c.threads i = some ⟨e, some (.call q k)⟩ := hat
  rcases Nat.lt_or_ge i n with hi | hi
  · have := List.all_eq_true.mp h i (List.mem_range.mpr hi)
    rw [ht] at this
    cases this
  · rw [hn i hi] at ht
    cases ht

/-- A check that a step is unbroken: no request fails, and no call dies. -/
def faultless? (D : Deployment) : (service D).Action → Bool
  | .step _ p => decide (p.fault = .none)
  | .crash _ => false
  | _ => true

theorem fault_of_check {a : (service D).Action} (h : faultless? D a = true) {i : Nat} {p : Pick}
    (ha : a = .step i p) :
    p.fault = .none := by
  subst ha
  exact of_decide_eq_true h

theorem unbroken_of_check {c : (service D).Config} {a : (service D).Action} (h : faultless? D a = true) :
    Unbroken c a where
  update _ ha _ _ := fault_of_check h ha
  audit _ ha _ _ := .inl (fault_of_check h ha)
  read _ ha := fault_of_check h ha
  crash _ ha := by
    rw [ha] at h
    cases h

theorem transitions_audited_sample :
    ∃ h c, Pool.Run (fun c a => Undisturbed c a ∧ Unbroken c a) (boot (sample .readCommitted) 0) h c ∧ Quiescent c ∧
    (∃ r ∈ c.world.db.reviews, r.resolved = true) ∧
    ∀ r ∈ c.world.db.reviews, (r.resolved = true ↔ c.world.db.audited r.id .resolved = 1) ∧
      c.world.db.audited r.id .claimed = (updatesOf r.id (journal h)).countP (fun u => decide (u.event = .claimed)) ∧
      c.world.db.audited r.id .claimExpired =
        (updatesOf r.id (journal h)).countP fun u => decide (u.event = .claimExpired) := by
  have hrun : (Pool.replayIf (fun c a => undisturbed? 4 c a && faultless? _ a)
      (flaggedSample (sample .readCommitted) ++ claimSample _ 2 10 ++ resolveSample _ 3 10)
      (boot (sample .readCommitted) 0)).any (fun c => quiescent? 4 c &&
        decide (∃ r ∈ c.world.db.reviews, r.resolved = true)) = true := by
    decide +kernel
  have hcheck : ∀ (c : (service (sample .readCommitted)).Config) a,
      (undisturbed? 4 c a && faultless? _ a) = true → undisturbed? 4 c a = true ∧ faultless? _ a = true :=
    fun _ _ h => Bool.and_eq_true_iff.mp h
  obtain ⟨h, c, hr, hc⟩ := Pool.exists_replayIf hcheck hrun
  obtain ⟨hquiet, hres⟩ := Bool.and_eq_true_iff.mp hc
  have hnone : ∀ {h c}, Pool.Run (fun c a => undisturbed? 4 c a = true ∧ faultless? _ a = true)
      (boot (sample .readCommitted) 0) h c → ∀ i, 4 ≤ i → c.threads i = none := fun hr i hi =>
    hr.threads_none (fun _ => rfl) (fun h => of_decide_eq_true h.1) hi
  have hquiet := quiescent_of_check (hnone hr) hquiet
  have hr : Pool.Run (fun c a => Undisturbed c a ∧ Unbroken c a) (boot (sample .readCommitted) 0) h c :=
    hr.imp fun hr ha => ⟨undisturbed_of_check (hnone hr) ha.1, unbroken_of_check ha.2⟩
  exact ⟨h, c, hr, hquiet, of_decide_eq_true hres, transitions_audited hr hquiet⟩

/-- The connection of a resolution is lost before it inserts its audit row. -/
theorem resolved_unaudited : ¬ ∀ c, Pool.Reachable (boot (sample .atomic) 0) c → Quiescent c →
    ∀ r ∈ c.world.db.reviews, r.resolved = true ↔ c.world.db.audited r.id .resolved = 1 := by
  intro h
  have hrun : (Pool.replayIf (undisturbed? 4) (flaggedSample (sample .atomic) ++ claimSample _ 2 9 ++
      resolveSample _ 3 5 ++ [.step 3 { fault := .before "connection was closed in the middle of operation" }])
      (boot (sample .atomic) 0)).any (fun c => quiescent? 4 c &&
        decide (∃ r ∈ c.world.db.reviews, r.resolved = true ∧ c.world.db.audited r.id .resolved ≠ 1)) = true := by
    decide +kernel
  have hcheck : ∀ (c : (service (sample .atomic)).Config) a, undisturbed? 4 c a = true → undisturbed? 4 c a = true :=
    fun _ _ h => h
  obtain ⟨_, c, hr, hc⟩ := Pool.exists_replayIf hcheck hrun
  obtain ⟨hquiet, hc⟩ := Bool.and_eq_true_iff.mp hc
  obtain ⟨r, hm, hres, hne⟩ := of_decide_eq_true hc
  have hnone := fun i hi => hr.threads_none (fun _ => rfl) (fun h => of_decide_eq_true h) (n := 4) (i := i) hi
  exact hne ((h c hr.reachable (quiescent_of_check hnone hquiet) r hm).mp hres)

end CM
