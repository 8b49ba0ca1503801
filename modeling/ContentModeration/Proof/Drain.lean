import ContentModeration.Framework.Blame
import ContentModeration.Proof.DeadLetters
import ContentModeration.Proof.QueueText
import ContentModeration.Proof.AuditLog

/-!
# The main queue can always be drained

Whatever has happened before, a worker that runs alone with working services does away with the messages
that it is handed. The handling of a job raises only when an answer is to blame (`Blames`): an image that
the validation refuses, a confidence that is none, a text that PostgreSQL does not take, an identifier that
has been used. Otherwise the job is decided and succeeded, and only its own row has changed
(`gives_handleJob`). So of every message that was handed out, the job is decided and the message is gone, or
the answer to blame is in the record; and when all were handed out and no answer is to blame, the queue is
empty and every job in it decided (`drains`).
-/

namespace CM

open Database World

open Turns (Gives)

variable {D : Deployment} {i : Nat} {s s' s₁ : World} {α β : Type}

/-! ## What is to blame -/

/-- The answer accounts for the exception. An image that the validation refuses is reported as such, unless its
content type cannot be stored with the report. -/
inductive Blames (settings : WorkerSettings) (key : String) : Exn → (turns D).Served → Prop
  | image {reason : String} {y : (turns D).Served} (fetch : y.req = .fetchObject key)
      (refused : validate y.turn.pick.image y.turn.pick.contentType settings = .error (.validationError reason)) :
      Blames settings key (.validationError reason) y
  | contentType {text : String} {y : (turns D).Served} (fetch : y.req = .fetchObject key)
      (unstorable : storable y.turn.pick.contentType = false) : Blames settings key (.error text) y
  | vision {text caption : String} {image : List UInt8} {y : (turns D).Served}
      (analyze : y.req = .analyze image caption)
      (unstorable : y.turn.pick.vision.storable = false) : Blames settings key (.error text) y
  | llm {text caption : String} {vision : VisionSignals} {y : (turns D).Served}
      (classify : y.req = .classify caption vision)
      (unstorable : y.turn.pick.llm.storable = false) : Blames settings key (.error text) y
  | confidence {text caption : String} {vision : VisionSignals} {y : (turns D).Served}
      (classify : y.req = .classify caption vision)
      (bounds : ¬ (0 ≤ round4 y.turn.pick.llm.score ∧ round4 y.turn.pick.llm.score ≤ 1)) :
      Blames settings key (.error text) y
  | decisionId {text : String} {envelope : DecisionEnvelope} {y : (turns D).Served}
      (insert : y.req = .sql (.insertDecision envelope))
      (used : (World.db y.before).HasDecision y.turn.pick.fresh) : Blames settings key (.error text) y
  | reviewId {text : String} {decisionId contentId jobId : Uuid} {priority : Nat} {y : (turns D).Served}
      (insert : y.req = .sql (.insertReview decisionId contentId jobId priority))
      (used : (World.db y.before).HasReview y.turn.pick.fresh) : Blames settings key (.error text) y

/-- What is to blame for an exception is so whatever its text. -/
theorem Blames.error {settings : WorkerSettings} {key text : String} {y : (turns D).Served}
    (h : Blames settings key (.error text) y) (text' : String) : Blames settings key (.error text') y := by
  cases h with
  | contentType fetch unstorable => exact .contentType fetch unstorable
  | vision analyze unstorable => exact .vision analyze unstorable
  | llm classify unstorable => exact .llm classify unstorable
  | confidence classify bounds => exact .confidence classify bounds
  | decisionId insert used => exact .decisionId insert used
  | reviewId insert used => exact .reviewId insert used

/-! ## One statement after the other -/

/-- Thread `i` has made the writes `ws`, and has no transaction open. -/
structure Wrote (i : Nat) (ws : List Write) (s s' : World) : Prop where
  txn : s'.txn i = none
  db : s'.db = s.db.applyAll ws
  main : s'.main = s.main

theorem Wrote.trans {ws ws' : List Write} (h : Wrote i ws s s₁) (h' : Wrote i ws' s₁ s') :
    Wrote i (ws ++ ws') s s' :=
  ⟨h'.txn, by rw [h'.db, h.db, applyAll_append], h'.main.trans h.main⟩

variable {B : Exn → (turns D).Served → Prop} {seen : List (turns D).Served} {F : Exn → World → Prop}

/-- A request whose answer is left to the services. -/
theorem gives_answer {q : Cmd} {a : Pick → q.Ans} (hi : s.txn i = none)
    (hx : ∀ p d, World.exec i q p (s.tick d) = some ((s.tick d).answer p (a p) (s.tick d))) :
    Gives i B seen (request q) (fun seen' b s' => Wrote i [] s s' ∧
      ∃ y ∈ seen', y.req = q ∧ b = a y.turn.pick) F s := by
  refine wlp_request_works fun t r s' hr => ?_
  simp only [hx, answer, t.works, Option.some.injEq, Prod.mk.injEq] at hr
  obtain ⟨rfl, rfl⟩ := hr
  exact .inl ⟨_, rfl, ⟨hi, rfl, rfl⟩, _, List.mem_append_right _ List.mem_cons_self, rfl, rfl⟩

/-- A request that says nothing and leaves database and queue as they are. -/
theorem gives_silent {q : Cmd} (hi : s.txn i = none)
    (hx : ∀ t : Turn, ∃ a s', World.exec i q t.pick (s.tick t.delay) = some (.ok a, s') ∧ s'.txns = s.txns ∧
      s'.db = s.db ∧ s'.main = s.main) :
    Gives i B seen (request q) (fun _ _ s' => Wrote i [] s s') F s := by
  refine wlp_request_works fun t r s' hr => ?_
  obtain ⟨a, s₂, h, htxns, hdb, hmain⟩ := hx t
  cases h.symm.trans hr
  exact .inl ⟨a, rfl, txn_of_txns htxns hi, hdb, hmain⟩

/-- A statement outside a transaction, which raises nothing. -/
theorem gives_sql {st : Sql} {R : st.Ans → List Write → Prop} (hi : s.txn i = none) (hq : st.refusal = none)
    (h : ∀ now fresh, ∃ a ws, st.run s.db now fresh = .ok (a, ws) ∧ R a ws) :
    Gives i B seen (sql st) (fun _ a s' => ∃ ws, R a ws ∧ Wrote i ws s s') F s := by
  refine wlp_request_works fun t r s' hx => ?_
  have hidle : (s.tick t.delay).txn i = none := hi
  obtain ⟨a, ws, hrun, hR⟩ := h (s.tick t.delay).now t.pick.fresh
  have hrun : st.run (s.tick t.delay).db (s.tick t.delay).now t.pick.fresh = .ok (a, ws) := hrun
  simp only [World.exec, runSql, hidle, Sql.execute_of_storable hq, hrun, answer, t.works] at hx
  split at hx
  · cases hx
  · cases hx
    exact .inl ⟨a, rfl, ws, hR, hi, rfl, rfl⟩

/-- A statement outside a transaction whose texts are refused. -/
theorem gives_refused {st : Sql} {Q : List (turns D).Served → st.Ans → World → Prop} (hi : s.txn i = none)
    (hq : st.refusal ≠ none) (hB : ∃ y ∈ seen, ∀ text, B (.error text) y)
    (hF : ∀ text s', Wrote i [] s s' → F (.error text) s') : Gives i B seen (sql st) Q F s := by
  obtain ⟨x, hx⟩ := Option.ne_none_iff_exists'.mp hq
  obtain ⟨text, rfl⟩ := plain_of_refusal hx
  refine wlp_request_works fun t r s' hr => ?_
  have hidle : (s.tick t.delay).txn i = none := hi
  simp only [World.exec, runSql, hidle, Sql.execute, hx] at hr
  cases hr
  obtain ⟨y, hy, hblame⟩ := hB
  exact .inr ⟨_, rfl, ⟨y, List.mem_append_left _ hy, hblame text⟩, hF text _ ⟨hi, rfl, rfl⟩⟩

/-- In a transaction of thread `i`, which has come to `t`. -/
structure Amid (i : Nat) (t : Option Txn) (s s' : World) : Prop where
  txn : s'.txn i = t
  db : s'.db = s.db
  main : s'.main = s.main

/-- A statement in a transaction. -/
theorem gives_within {st : Sql} {started : Time} {ws : List Write} {R : st.Ans → List Write → Prop}
    (h : Amid i (some (.active started ws)) s s₁)
    (refused : st.refusal ≠ none → ∃ y ∈ seen, ∀ text, B (.error text) y)
    (ok : ∀ fresh a ws', st.run (s.db.applyAll ws) started fresh = .ok (a, ws') → R a ws')
    (raise : ∀ (y : (turns D).Served) x, y.req = .sql st → y.before.db = s.db →
      st.run (s.db.applyAll ws) started y.turn.pick.fresh = .error x → B x y) :
    Gives i B seen (sql st) (fun _ a s' => ∃ ws', R a ws' ∧ Amid i (some (.active started (ws ++ ws'))) s s')
      (fun _ s' => Amid i (some .aborted) s s') s₁ := by
  refine wlp_request_works fun t r s' hx => ?_
  have ht : (s₁.tick t.delay).txn i = some (.active started ws) := h.txn
  have hdb : (s₁.tick t.delay).db = s.db := h.db
  simp only [World.exec, runSql, ht, t.works, hdb] at hx
  by_cases hq : st.refusal = none
  · rw [Sql.execute_of_storable hq] at hx
    cases hrun : st.run (s.db.applyAll ws) started t.pick.fresh with
    | ok x =>
      obtain ⟨a, ws'⟩ := x
      rw [hrun] at hx
      simp only at hx
      split at hx
      · cases hx
      · cases hx
        exact .inl ⟨a, rfl, ws', ok _ a ws' hrun, txn_setTxn_self .., hdb, h.main⟩
    | error x =>
      rw [hrun] at hx
      cases hx
      exact .inr ⟨x, rfl, ⟨_, List.mem_append_right _ List.mem_cons_self, raise _ x rfl hdb hrun⟩,
        txn_setTxn_self .., hdb, h.main⟩
  · obtain ⟨x, hrefusal⟩ := Option.ne_none_iff_exists'.mp hq
    obtain ⟨text, rfl⟩ := plain_of_refusal hrefusal
    rw [Sql.execute, hrefusal] at hx
    cases hx
    obtain ⟨y, hy, hblame⟩ := refused hq
    exact .inr ⟨_, rfl, ⟨y, List.mem_append_left _ hy, hblame text⟩, txn_setTxn_self .., hdb, h.main⟩

/-- A transaction is committed with what its body has written, or leaves nothing behind. -/
theorem gives_transaction {body : M α} {R : α → List Write → Prop}
    (h : ∀ started seen' s₁, seen ⊆ seen' → Amid i (some (.active started [])) s s₁ → Gives i B seen' body
      (fun _ a s' => ∃ ws, R a ws ∧ Amid i (some (.active started ws)) s s') (fun _ s' => ∃ t, Amid i t s s') s₁) :
    Gives i B seen (transaction body) (fun _ a s' => ∃ ws, R a ws ∧ Wrote i ws s s')
    (fun _ s' => Wrote i [] s s') s := by
  refine Gives.bind (Q := fun _ _ s' => ∃ started, Amid i (some (.active started [])) s s')
    (F := fun _ s' => Wrote i [] s s') ?_ (fun seen' _ s₁ hsub hbegun => ?_) fun _ _ h => h
  · refine wlp_request_works fun t r s' hx => ?_
    simp only [World.exec, t.works] at hx
    cases hx
    exact .inl ⟨(), rfl, _, txn_setTxn_self .., rfl, rfl⟩
  obtain ⟨started, h₁⟩ := hbegun
  refine Gives.bind (Gives.attempt (h started seen' s₁ hsub h₁)) (fun seen'' r s₂ _ hr => ?_) fun _ _ h => h
  rcases hr with ⟨a, rfl, ws, hR, h₂⟩ | ⟨x, rfl, hB, t, h₂⟩
  · refine Gives.bind (Q := fun _ _ s' => Wrote i ws s s') (F := fun _ s' => Wrote i [] s s') ?_
      (fun _ _ _ _ h => Gives.ret ⟨ws, hR, h⟩) fun _ _ h => h
    refine wlp_request_works fun t r s' hx => ?_
    have ht : (s₂.tick t.delay).txn i = some (.active started ws) := h₂.txn
    simp only [World.exec, runCommit, t.works, ht, Option.elim_some, Txn.writes] at hx
    cases hx
    exact .inl ⟨(), rfl, txn_setTxn_self (s₂.tick t.delay) i none, congrArg (·.applyAll ws) h₂.db, h₂.main⟩
  · refine Gives.bind (Q := fun _ _ s' => Wrote i [] s s') (F := fun _ s' => Wrote i [] s s') ?_
      (fun seen₃ _ _ hsub h => Gives.throw (hB.imp fun y hy => ⟨hsub hy.1, hy.2⟩) h) fun _ _ h => h
    refine wlp_request_works fun t r s' hx => ?_
    simp only [World.exec, answer, t.works] at hx
    cases hx
    exact .inl ⟨(), rfl, txn_setTxn_self (s₂.tick t.delay) i none, h₂.db, h₂.main⟩

/-! ## The writes of a delivery -/

/-- The write is of the job: it updates its row, decides it, or comes along. -/
def Write.OfJob (job : Uuid) : Write → Prop
  | .updateJob id _ => id = job
  | .decision d => d.envelope.jobId = job
  | .audit _ | .metric _ | .review _ => True
  | _ => False

/-- The write is neither of a job's row nor a decision. -/
def Write.Aside : Write → Prop
  | .audit _ | .metric _ | .review _ => True
  | _ => False

theorem Write.Aside.ofJob {w : Write} (h : w.Aside) (job : Uuid) : w.OfJob job := by cases w <;> trivial

theorem Write.Aside.toJob {w : Write} (h : w.Aside) (j : Job) : w.toJob j = j := by
  rw [Write.toJob_of_other fun id u he => by rw [he] at h; exact h]

/-- Only the job's own row and decision have changed. -/
structure OnlyJob (job : Uuid) (db db' : Database) : Prop where
  rows : ∀ id ≠ job, db'.job? id = db.job? id
  decided : ∀ id ≠ job, db'.Decided id → db.Decided id
  extends' : db.Extends db'

theorem OnlyJob.refl (job : Uuid) (db : Database) : OnlyJob job db db := ⟨fun _ _ => rfl, fun _ _ h => h, .refl db⟩

theorem OnlyJob.trans {job : Uuid} {db db' db'' : Database} (h : OnlyJob job db db') (h' : OnlyJob job db' db'') :
    OnlyJob job db db'' :=
  ⟨fun id hid => (h'.rows id hid).trans (h.rows id hid), fun id hid hd => h.decided id hid (h'.decided id hid hd),
    h.extends'.trans h'.extends'⟩

theorem Write.OfJob.only {job : Uuid} {w : Write} (h : w.OfJob job) (db : Database) :
    OnlyJob job db (db.apply w) := by
  refine ⟨fun id hid => ?_, fun id hid hd => ?_, extends_applyAll db [w]⟩
  · rw [job?_apply]
    cases w with
    | updateJob id' u =>
      obtain rfl : id' = job := h
      rw [show (Write.updateJob id' u).job? = none from rfl, Option.filter_none, Option.or_none]
      cases hj : db.job? id with
      | none => rfl
      | some j =>
        have hne : j.id ≠ id' := fun he => hid (by
          have : j.id = id := by simpa using List.find?_some hj
          rw [← this, he])
        simp [Write.toJob, hne]
    | content row => exact h.elim
    | job row => exact h.elim
    | updateReview id' u => exact h.elim
    | _ =>
      rw [Write.toJob_of_other (by simp), Option.map_id']
      simp [Write.job?]
  · cases w with
    | decision d =>
      obtain ⟨d', hd', hid'⟩ := hd
      rcases List.mem_append.mp hd' with hd' | hd'
      · exact ⟨d', hd', hid'⟩
      · obtain rfl := List.mem_singleton.mp hd'
        exact absurd (hid'.symm.trans h) hid
    | content row => exact h.elim
    | job row => exact h.elim
    | updateReview id' u => exact h.elim
    | _ => exact hd

theorem onlyJob_applyAll {job : Uuid} {ws : List Write} (h : ∀ w ∈ ws, w.OfJob job) (db : Database) :
    OnlyJob job db (db.applyAll ws) := by
  induction ws generalizing db with
  | nil => exact .refl job db
  | cons w ws ih =>
    obtain ⟨hw, hws⟩ := List.forall_mem_cons.mp h
    exact (hw.only db).trans (ih hws (db.apply w))

/-- The job is shown as succeeded. -/
def Database.Succeeded (db : Database) (job : Uuid) : Prop := (db.job? job).map (·.status) = some .succeeded

/-- The writes decide the job: the decision, the success, and what comes along. -/
def Files (envelope : DecisionEnvelope) (ws : List Write) : Prop :=
  ∃ id t rest, ws = .decision ⟨id, envelope⟩ :: .updateJob envelope.jobId (.succeeded t) :: rest ∧
    ∀ w ∈ rest, w.Aside

theorem Files.ofJob {envelope : DecisionEnvelope} {ws : List Write} (h : Files envelope ws) :
    ∀ w ∈ ws, w.OfJob envelope.jobId := by
  obtain ⟨id, t, rest, rfl, hrest⟩ := h
  exact List.forall_mem_cons.mpr ⟨rfl, List.forall_mem_cons.mpr ⟨rfl, fun w hw => (hrest w hw).ofJob _⟩⟩

theorem Files.succeeded {envelope : DecisionEnvelope} {ws : List Write} (h : Files envelope ws) {db : Database}
    (hj : db.HasJob envelope.jobId) : (db.applyAll ws).Succeeded envelope.jobId := by
  obtain ⟨id, t, rest, rfl, hrest⟩ := h
  obtain ⟨j, hj⟩ := Option.isSome_iff_exists.mp (job?_isSome.mpr hj)
  have hid : j.id = envelope.jobId := by simpa using List.find?_some hj
  have hkeep : ∀ j : Job, rest.foldl (fun j w => w.toJob j) j = j := by
    induction rest with
    | nil => exact fun _ => rfl
    | cons w rest ih =>
      obtain ⟨hw, hrest⟩ := List.forall_mem_cons.mp hrest
      intro j
      rw [List.foldl_cons, hw.toJob, ih hrest]
  rw [Succeeded, job?_applyAll hj]
  simp only [List.foldl_cons, hkeep]
  simp [Write.toJob, hid, JobUpdate.apply]

theorem Files.append {envelope : DecisionEnvelope} {ws : List Write} (h : Files envelope ws) {w : Write}
    (hw : w.Aside) :
    Files envelope (ws ++ [w]) := by
  obtain ⟨id, t, rest, rfl, hrest⟩ := h
  exact ⟨id, t, rest ++ [w], rfl, List.forall_mem_append.mpr ⟨hrest, by simpa using hw⟩⟩

/-! ## `persist_envelope` -/

theorem insert_error {w : Write} {a : α} {x : Exn} {db : Database} (h : db.insert w a = .error x) :
    (∃ k ∈ w.keys, k ∈ db.keys) ∨ ∃ e, w.missing db = some e := by
  simp only [Database.insert] at h
  split at h
  · rename_i k hk
    exact .inl ⟨k, List.mem_of_find?_eq_some hk, by simpa using List.find?_some hk⟩
  · split at h
    · rename_i e he
      exact .inr ⟨e, he⟩
    · cases h

/-- An audit row is always taken. -/
theorem insertAudit_error {db : Database} {row : AuditRow} {t : Time} {u : Uuid} {x : Exn} :
    (Sql.insertAudit row).run db t u ≠ .error x := fun h => by
  rcases insert_error (show db.insert (.audit row) () = .error x from h) with ⟨k, hk, -⟩ | ⟨e, he⟩
  · cases hk
  · cases he

theorem insertMetric_error {db : Database} {eventType : String} {payload : Json} {t : Time} {u : Uuid} {x : Exn} :
    (Sql.insertMetric eventType payload).run db t u ≠ .error x := fun h => by
  rcases insert_error (show db.insert (.metric ⟨eventType, payload⟩) () = .error x from h) with ⟨k, hk, -⟩ | ⟨e, he⟩
  · cases hk
  · cases he

/-- A decision of an undecided job is refused only if its identifier has been used. -/
theorem insertDecision_error {db : Database} {envelope : DecisionEnvelope} {t : Time} {u : Uuid} {x : Exn}
    (hj : db.HasJob envelope.jobId) (hc : db.HasContent envelope.contentId)
    (h : (Sql.insertDecision envelope).run db t u = .error x) : db.HasDecision u := by
  simp only [Sql.run] at h
  split at h
  · cases h
  rename_i hd
  rcases insert_error h with ⟨k, hk, hmem⟩ | ⟨e, he⟩
  · simp only [Write.keys, List.mem_cons, List.not_mem_nil, or_false] at hk
    rcases hk with rfl | rfl
    · simpa [Database.keys, HasDecision] using hmem
    · have : db.Decided envelope.jobId := by simpa [Database.keys, Decided] using hmem
      exact absurd (decisionOf?_isSome.mpr this) hd
  · have hj := job?_isSome.mpr hj
    have hc := content?_isSome.mpr hc
    simp [Write.missing, Option.isNone_iff_eq_none, Option.isSome_iff_ne_none.mp hj,
      Option.isSome_iff_ne_none.mp hc] at he

/-- Nor is a review of such a decision. -/
theorem insertReview_error {db : Database} {decisionId contentId jobId : Uuid} {priority : Nat} {t : Time} {u : Uuid}
    {x : Exn} (hd : db.HasDecision decisionId) (hc : db.HasContent contentId) (hj : db.HasJob jobId)
    (h : (Sql.insertReview decisionId contentId jobId priority).run db t u = .error x) : db.HasReview u := by
  simp only [Sql.run] at h
  split at h
  · cases h
  rename_i hno
  rcases insert_error h with ⟨k, hk, hmem⟩ | ⟨e, he⟩
  · simp only [Write.keys, List.mem_cons, List.not_mem_nil, or_false] at hk
    rcases hk with rfl | rfl
    · simpa [Database.keys, HasReview] using hmem
    · obtain ⟨r, hr, hid⟩ : ∃ r ∈ db.reviews, r.decisionId = decisionId := by simpa [Database.keys] using hmem
      exact absurd (List.find?_isSome.mpr ⟨r, hr, by simpa using hid⟩) hno
  · have hd := decision?_isSome.mpr hd
    have hj := job?_isSome.mpr hj
    have hc := content?_isSome.mpr hc
    simp [Write.missing, Option.isNone_iff_eq_none, Option.isSome_iff_ne_none.mp hj,
      Option.isSome_iff_ne_none.mp hc, Option.isSome_iff_ne_none.mp hd] at he

/-- What the statements after the decision write. -/
theorem run_markSucceeded_ok {db : Database} {job : Uuid} (hj : db.HasJob job) (t : Time) (u : Uuid) :
    (Sql.markSucceeded job).run db t u = .ok ((), [.updateJob job (.succeeded t)]) := by
  obtain ⟨j, hm, rfl⟩ := hj
  simp only [Sql.run, updateJobIf]
  rw [if_pos (List.find?_isSome.mpr ⟨j, hm, by simp⟩)]

theorem hasReview_of_applyAll {ws : List Write} (h : ∀ w ∈ ws, w.review? = none)
    {db : Database} {id : Uuid} (hr : (db.applyAll ws).HasReview id) : db.HasReview id := by
  obtain ⟨r, hr, rfl⟩ := hr
  have hids := reviews_applyAll (f := fun r : ReviewRow => r.id) (fun u r => by cases u <;> rfl) db ws
  rw [List.filterMap_eq_nil_iff.mpr h, List.map_nil, List.append_nil] at hids
  obtain ⟨r', hr', he⟩ := List.mem_map.mp (hids ▸ List.mem_map_of_mem (f := fun r : ReviewRow => r.id) hr)
  exact ⟨r', hr', he⟩

variable {settings : WorkerSettings} {key : String}

/-- The statements of `persist_envelope` after the decision was inserted. -/
theorem gives_persistNew {envelope : DecisionEnvelope} {id : Uuid} {started : Time} (hj : s.db.HasJob envelope.jobId)
    (hc : s.db.HasContent envelope.contentId)
    (h : Amid i (some (.active started [.decision ⟨id, envelope⟩])) s s₁) :
    Gives i (Blames (D := D) settings key) seen (persistNew envelope id)
      (fun _ _ s' => ∃ ws, Files envelope ws ∧ Amid i (some (.active started ws)) s s')
      (fun _ s' => ∃ t, Amid i t s s') s₁ := by
  have fails : ∀ (x : Exn) (s' : World), Amid i (some .aborted) s s' → ∃ t, Amid i t s s' := fun _ _ h => ⟨_, h⟩
  have extends' (ws : List Write) := extends_applyAll s.db ws
  -- the status
  refine Gives.bind (gives_within (R := fun _ ws' => ws' = [.updateJob envelope.jobId (.succeeded started)]) h
    (absurd rfl) (fun u a ws' hr => ?_) fun y x _ _ hr => ?_) (fun seen₁ _ s₂ _ hwrote => ?_) fails
  · rw [run_markSucceeded_ok (hj.mono (extends' _))] at hr
    cases hr
    rfl
  · rw [run_markSucceeded_ok (hj.mono (extends' _))] at hr
    cases hr
  obtain ⟨_, rfl, h₂⟩ := hwrote
  -- the audit row and the metric
  refine Gives.bind (gives_within (R := fun _ ws' => ∃ row, ws' = [.audit row]) h₂
    (absurd rfl) (fun u a ws' hr => ⟨_, run_insertAudit hr⟩) fun y x _ _ hr => absurd hr insertAudit_error)
    (fun seen₂ _ s₃ _ hwrote => ?_) fails
  obtain ⟨_, ⟨row, rfl⟩, h₃⟩ := hwrote
  refine Gives.bind (gives_within (R := fun _ ws' => ∃ row, ws' = [.metric row]) h₃
    (absurd rfl) (fun u a ws' hr => ⟨_, run_insertMetric hr⟩) fun y x _ _ hr => absurd hr insertMetric_error)
    (fun seen₃ _ s₄ _ hwrote => ?_) fails
  obtain ⟨_, ⟨metric, rfl⟩, h₄⟩ := hwrote
  simp only [List.cons_append, List.nil_append] at h₄
  have hfiles : Files envelope [.decision ⟨id, envelope⟩, .updateJob envelope.jobId (.succeeded started), .audit row,
      .metric metric] := ⟨id, started, _, rfl, by simp [Write.Aside]⟩
  split
  · refine Gives.bind (gives_within (R := fun _ ws' => ws' = [] ∨ ∃ row, ws' = [.review row]) h₄
      (absurd rfl) (fun u a ws' hr => ?_) fun y x hreq hdb hr => ?_) (fun seen₄ _ s₅ _ hwrote => ?_) fails
    · simp only [Sql.run] at hr
      split at hr
      · cases hr
        exact .inl rfl
      · exact .inr ⟨_, (insert_ok hr).2.1⟩
    · have hd : HasDecision (s.db.applyAll [.decision ⟨id, envelope⟩, .updateJob envelope.jobId (.succeeded started),
          .audit row, .metric metric]) id := by
        refine ⟨⟨id, envelope⟩, ?_, rfl⟩
        rw [decisions_applyAll]
        exact List.mem_append_right _ (by simp [Write.decision?])
      have hused := insertReview_error hd (hc.mono (extends' _)) (hj.mono (extends' _)) hr
      obtain ⟨text, rfl⟩ := plain_of_run hr
      exact .reviewId hreq (hdb ▸ hasReview_of_applyAll (by simp [Write.review?]) hused)
    · obtain ⟨ws', hws, h₅⟩ := hwrote
      have hfiles' : Files envelope ([.decision ⟨id, envelope⟩, .updateJob envelope.jobId (.succeeded started),
          .audit row, .metric metric] ++ ws') := by
        rcases hws with rfl | ⟨review, rfl⟩
        · exact hfiles
        · exact hfiles.append trivial
      refine Gives.bind (gives_within (R := fun _ ws' => ∃ row, ws' = [.audit row]) h₅
        (absurd rfl) (fun u a ws' hr => ⟨_, run_insertAudit hr⟩) fun y x _ _ hr => absurd hr insertAudit_error)
        (fun seen₅ _ s₆ _ hwrote' => ?_) fails
      obtain ⟨_, ⟨row', rfl⟩, h₆⟩ := hwrote'
      exact Gives.ret ⟨_, hfiles'.append (w := .audit row') trivial, h₆⟩
  · exact Gives.ret ⟨_, hfiles, h₄⟩

theorem gives_persistEnvelope {envelope : DecisionEnvelope} (hj : s.db.HasJob envelope.jobId)
    (hc : s.db.HasContent envelope.contentId) (hd : ¬ s.db.Decided envelope.jobId)
    (hq : (Sql.insertDecision envelope).refusal ≠ none → ∃ y ∈ seen, ∀ text, Blames settings key (.error text) y) :
    Gives i (Blames (D := D) settings key) seen (persistEnvelope envelope)
      (fun _ _ s' => ∃ ws, Files envelope ws ∧ Wrote i ws s s') (fun _ s' => Wrote i [] s s') s := by
  refine gives_transaction (R := fun _ ws => Files envelope ws) fun started seen' s₁ hsub h => ?_
  refine Gives.bind (gives_within (R := fun a ws' => ∃ id, a = some id ∧ ws' = [.decision ⟨id, envelope⟩]) h
    (fun hrefusal => (hq hrefusal).imp fun y hy => ⟨hsub hy.1, hy.2⟩) (fun u a ws' hr => ?_)
      fun y x hreq hdb hr => ?_) (fun seen₁ a s₂ _ hwrote => ?_)
      fun _ _ h => ⟨_, h⟩
  · rcases run_insertDecision hr with ⟨-, -, hd'⟩ | ⟨id, ha, hws, -⟩
    · exact absurd hd' hd
    · exact ⟨id, ha, hws⟩
  · obtain ⟨text, rfl⟩ := plain_of_run hr
    exact .decisionId hreq (hdb ▸ insertDecision_error hj hc hr)
  · obtain ⟨ws, ⟨id, rfl, rfl⟩, h₂⟩ := hwrote
    exact gives_persistNew hj hc h₂

/-! ## `process_job` -/

/-- A statement that asks. -/
theorem gives_select {st : Sql} {a : st.Ans} (hi : s.txn i = none) (hq : st.refusal = none)
    (h : ∀ now fresh, st.run s.db now fresh = .ok (a, [])) :
    Gives i B seen (sql st) (fun _ b s' => b = a ∧ Wrote i [] s s') F s := by
  refine Gives.mono (gives_sql (R := fun b ws => b = a ∧ ws = []) hi hq fun now fresh =>
    ⟨a, [], h now fresh, rfl, rfl⟩)
    (fun _ _ _ _ hwrote => ?_) fun _ _ h => h
  obtain ⟨_, ⟨ha, rfl⟩, hw⟩ := hwrote
  exact ⟨ha, hw⟩

/-- An update of the job. -/
theorem gives_updateJob {st : Sql} {a : st.Ans} {job : Uuid} {u : Time → JobUpdate} (hi : s.txn i = none)
    (hq : st.refusal = none) (h : ∀ now fresh,
      st.run s.db now fresh = .ok (a, s.db.updateJobIf job (fun _ => true) (u now))) :
    Gives i B seen (sql st) (fun _ _ s' =>
      ∃ ws, (∀ w ∈ ws, w.OfJob job ∧ w.decision? = none) ∧ Wrote i ws s s') F s := by
  refine Gives.mono (gives_sql (R := fun _ ws => ∀ w ∈ ws, w.OfJob job ∧ w.decision? = none) hi hq
    fun now fresh => ⟨a, _, h now fresh, fun w hw => ?_⟩) (fun _ _ _ _ h => h) fun _ _ h => h
  simp only [updateJobIf] at hw
  split at hw
  · obtain rfl := List.mem_singleton.mp hw
    exact ⟨rfl, rfl⟩
  · cases hw

/-- How the processing of a job ends that has a row and a content: it is shown as succeeded, or has been decided
before, and only its own rows were written. -/
def Processes (i : Nat) (job : Uuid) (s s' : World) : Prop :=
  ∃ ws, (∀ w ∈ ws, w.OfJob job) ∧ Wrote i ws s s' ∧ (s'.db.Succeeded job ∨ ws = [] ∧ s.db.Decided job)

/-- It ends with an exception: the job was undecided, and still is. -/
def Fails (i : Nat) (job : Uuid) (s s' : World) : Prop :=
  ¬ s.db.Decided job ∧ ∃ ws, (∀ w ∈ ws, w.OfJob job ∧ w.decision? = none) ∧ Wrote i ws s s'

theorem Fails.append {job : Uuid} (h : Fails i job s s₁) {ws : List Write}
    (hws : ∀ w ∈ ws, w.OfJob job ∧ w.decision? = none) (h' : Wrote i ws s₁ s') : Fails i job s s' := by
  obtain ⟨hd, ws₀, hws₀, h₀⟩ := h
  exact ⟨hd, ws₀ ++ ws, List.forall_mem_append.mpr ⟨hws₀, hws⟩, h₀.trans h'⟩

theorem Fails.aside {job : Uuid} (h : Fails i job s s₁) (h' : Wrote i [] s₁ s') : Fails i job s s' :=
  h.append (fun _ hw => by cases hw) h'

theorem Fails.txn {job : Uuid} (h : Fails i job s s') : s'.txn i = none := h.2.choose_spec.2.txn

theorem decided_applyAll {ws : List Write} {job : Uuid} (h : ∀ w ∈ ws, w.decision? = none) {db : Database}
    (hd : (db.applyAll ws).Decided job) : db.Decided job := by
  obtain ⟨d, hd, hid⟩ := hd
  rw [decisions_applyAll, List.filterMap_eq_nil_iff.mpr h, List.append_nil] at hd
  exact ⟨d, hd, hid⟩

theorem validationError_of_validate {image : List UInt8} {contentType : String} {x : Exn}
    (h : validate image contentType settings = .error x) : ∃ reason, x = .validationError reason := by
  simp only [validate] at h
  split at h
  · cases h
    exact ⟨_, rfl⟩
  split at h
  · cases h
    exact ⟨_, rfl⟩
  split at h
  · cases h
    exact ⟨_, rfl⟩
  · cases h

/-- What the validation says of an image names nothing but its content type. -/
theorem storable_reason {image : List UInt8} {contentType reason : String}
    (h : validate image contentType settings = .error (.validationError reason))
    (hc : storable contentType = true) : storable reason = true := by
  simp only [validate] at h
  split at h
  · cases h
    rw [storable_append, hc]
    decide
  split at h
  · cases h
    decide
  split at h
  · cases h
    decide
  · cases h

theorem storable_routeReasons (suggested : Decision) (confidence nsfwScore violenceScore : Rat)
    (t : ThresholdConfig) :
    ∀ s ∈ (routeDecision suggested confidence nsfwScore violenceScore t).reasons, storable s = true := by
  unfold routeDecision
  repeat' split
  all_goals decide

/-- An envelope is refused for the vision signals or the classifier's answer. -/
theorem unstorable_of_refusal {job : JobMessage} {vision : VisionSignals} {suggested : Decision} {llm : LlmSignals}
    {latencyMs : Nat} {envelope : DecisionEnvelope}
    (h : buildEnvelope settings job vision suggested llm latencyMs = .ok envelope)
    (hq : (Sql.insertDecision envelope).refusal ≠ none) :
    vision.storable = false ∨ llm.storable = false := by
  by_contra hno
  obtain ⟨hvision, hllm⟩ := not_or.mp hno
  rw [Bool.not_eq_false] at hvision hllm
  have hlabels := List.all_eq_true.mp (Bool.and_eq_true_iff.mp hvision).1
  have hanswer := List.all_eq_true.mp (Bool.and_eq_true_iff.mp hllm).1
  have hroute := storable_routeReasons suggested llm.score vision.nsfwScore vision.violenceScore settings.thresholds
  simp only [buildEnvelope] at h
  split at h
  swap
  · cases h
  cases h
  refine hq (Sql.refusal_eq_none_iff.mpr ⟨List.forall_mem_nil _, Bool.and_eq_true_iff.mpr
    ⟨Bool.and_eq_true_iff.mpr ⟨List.all_eq_true.mpr fun s hs => ?_, hvision⟩, hllm⟩⟩)
  simp only [List.mem_append] at hs
  rcases hs with (hs | hs) | hs
  · exact hroute s hs
  · split at hs
    · cases hs
    · obtain rfl := List.mem_singleton.mp hs
      exact hanswer _ (by simp)
  · exact hlabels s (List.mem_append_left _ (List.mem_of_mem_take hs))

theorem gives_processJob (settings : WorkerSettings) {job : JobMessage} (hi : s.txn i = none)
    (hj : s.db.HasJob job.jobId)
    (hc : s.db.HasContent job.contentId) :
    Gives i (Blames (D := D) settings job.objectKey) seen (processJob settings job)
      (fun _ _ s' => Processes i job.jobId s s') (fun _ s' => Fails i job.jobId s s') s := by
  have raise : ∀ (x : Exn) (s' : World), Fails i job.jobId s s' → Fails i job.jobId s s' := fun _ _ h => h
  refine Gives.bind (gives_silent hi fun t => ⟨_, _, rfl, rfl, rfl, rfl⟩) (fun seen₁ started s₁ _ h₁ => ?_) raise
  refine Gives.bind (gives_select h₁.txn rfl fun _ _ => rfl) (fun seen₂ found s₂ _ hselect => ?_) raise
  obtain ⟨hfound, h₂⟩ := hselect
  replace h₂ : Wrote i [] s s₂ := h₁.trans h₂
  rw [show s₁.db = s.db from h₁.db] at hfound
  cases found with
  | some id =>
    -- the job has been decided before
    have hd : s.db.Decided job.jobId := decided_of_decisionOf? hfound.symm
    refine Gives.bind (gives_select h₂.txn rfl fun _ _ => rfl) (fun seen₃ stored s₃ _ hselect => ?_) raise
    obtain ⟨hstored, h₃⟩ := hselect
    rw [show s₂.db = s.db from h₂.db] at hstored
    cases stored with
    | some envelope => exact Gives.ret ⟨[], fun _ h => (nomatch h), h₂.trans h₃, .inr ⟨rfl, hd⟩⟩
    | none =>
      have := decisionOf?_isSome.mpr hd
      rw [Option.map_eq_none_iff.mp hstored.symm] at this
      cases this
  | none =>
    have hd : ¬ s.db.Decided job.jobId := fun hd => by
      have := decisionOf?_isSome.mpr hd
      rw [Option.map_eq_none_iff.mp hfound.symm] at this
      cases this
    refine Gives.bind (gives_updateJob h₂.txn rfl fun _ _ => rfl) (fun seen₃ _ s₃ _ hupdate => ?_) raise
    obtain ⟨ws, hws, h₃⟩ := hupdate
    replace h₃ : Fails i job.jobId s s₃ := ⟨hd, ws, hws, h₂.trans h₃⟩
    refine Gives.bind (gives_answer h₃.txn fun p d => rfl)
      (fun seen₄ image s₄ _ hfetch => ?_) raise
    obtain ⟨h₄, y, hy, hreq, himage⟩ := hfetch
    replace h₄ : Fails i job.jobId s s₄ := h₃.aside h₄
    subst himage
    -- the validation
    have hvalid : Gives i (Blames (D := D) settings job.objectKey) seen₄
        (Prog.ofExcept (validate y.turn.pick.image y.turn.pick.contentType settings)) (fun _ _ s' => s' = s₄)
        (fun _ s' => s' = s₄) s₄ := by
      cases hv : validate y.turn.pick.image y.turn.pick.contentType settings with
      | ok a => exact Gives.ret rfl
      | error x =>
        obtain ⟨reason, rfl⟩ := validationError_of_validate hv
        exact Gives.throw ⟨y, hy, .image hreq hv⟩ rfl
    refine Gives.bind hvalid (fun seen₅ _ s₅ _ hs₅ => ?_) fun _ _ h => h ▸ h₄
    subst hs₅
    refine Gives.bind (gives_answer h₄.txn fun p d => rfl) (fun seen₆ vision s₆ _ hvision => ?_) raise
    have h₆ := h₄.aside hvision.1
    refine Gives.bind (gives_answer h₆.txn fun p d => rfl)
      (fun seen₇ answer s₇ hsub₇ hclassified => ?_) raise
    obtain ⟨h₇, z, hz, hclassify, hanswer⟩ := hclassified
    replace h₇ := h₆.aside h₇
    subst hanswer
    obtain ⟨-, v, hv, hanalyze, rfl⟩ := hvision
    refine Gives.bind (gives_silent h₇.txn fun t => ⟨_, _, rfl, rfl, rfl, rfl⟩)
      (fun seen₈ finished s₈ hsub h₈ => ?_) raise
    replace h₈ := h₇.aside h₈
    -- the envelope
    have henvelope : Gives i (Blames (D := D) settings job.objectKey) seen₈
        (Prog.ofExcept (buildEnvelope settings job v.turn.pick.vision z.turn.pick.suggested z.turn.pick.llm
          ((finished - started) / 1000)))
        (fun _ envelope s' => s' = s₈ ∧ envelope.jobId = job.jobId ∧ envelope.contentId = job.contentId ∧
          ((Sql.insertDecision envelope).refusal ≠ none → v.turn.pick.vision.storable = false ∨
            z.turn.pick.llm.storable = false))
        (fun _ s' => s' = s₈) s₈ := by
      cases hbuilt : buildEnvelope settings job v.turn.pick.vision z.turn.pick.suggested z.turn.pick.llm
          ((finished - started) / 1000) with
      | ok envelope =>
        have hunstorable := unstorable_of_refusal hbuilt
        rw [buildEnvelope] at hbuilt
        split at hbuilt
        · cases hbuilt
          exact Gives.ret ⟨rfl, rfl, rfl, hunstorable⟩
        · cases hbuilt
      | error x =>
        rw [buildEnvelope] at hbuilt
        split at hbuilt
        · cases hbuilt
        · rename_i hbounds
          cases hbuilt
          exact Gives.throw ⟨z, hsub hz, .confidence hclassify hbounds⟩ rfl
    refine Gives.bind henvelope (fun seen₉ envelope s₉ hsub' hbuilt => ?_) fun _ _ h => h ▸ h₈
    obtain ⟨rfl, hjob, hcontent, hunstorable⟩ := hbuilt
    have hrefused : (Sql.insertDecision envelope).refusal ≠ none →
        ∃ y ∈ seen₉, ∀ text, Blames settings job.objectKey (.error text) y := fun hq => by
      rcases hunstorable hq with hu | hu
      · exact ⟨v, hsub' (hsub (hsub₇ hv)), fun _ => .vision hanalyze hu⟩
      · exact ⟨z, hsub' (hsub hz), fun _ => .llm hclassify hu⟩
    obtain ⟨-, ws, hws, hwrote⟩ := h₈
    have hx : s.db.Extends s₉.db := hwrote.db ▸ extends_applyAll s.db ws
    refine Gives.mono (gives_persistEnvelope (hjob ▸ hj.mono hx) (hcontent ▸ hc.mono hx) (fun hd' => hd ?_) hrefused)
      (fun _ _ s' _ hstored => ?_) fun _ s' h' => ⟨hd, ws, hws, ?_⟩
    · rw [hjob, hwrote.db] at hd'
      exact decided_applyAll (fun w hw => (hws w hw).2) hd'
    · obtain ⟨ws', hfiles, h'⟩ := hstored
      refine ⟨ws ++ ws', List.forall_mem_append.mpr ⟨fun w hw => (hws w hw).1, hjob ▸ hfiles.ofJob⟩,
        hwrote.trans h', .inl ?_⟩
      rw [h'.db, ← hjob]
      exact hfiles.succeeded (hjob ▸ hj.mono hx)
    · have := hwrote.trans h'
      rwa [List.append_nil] at this

/-! ## `handle_message` -/

/-- The job is marked, unless the text of the exception is refused. -/
theorem gives_markFailed {job : Uuid} {error : String} (hi : s.txn i = none)
    (hB : storable error = false → ∃ y ∈ seen, ∀ text, B (.error text) y)
    (hF : ∀ text s', Wrote i [] s s' → F (.error text) s') :
    Gives i B seen (markFailed job error)
      (fun _ _ s' => ∃ ws, (∀ w ∈ ws, w.OfJob job ∧ w.decision? = none) ∧ Wrote i ws s s') F s := by
  refine Gives.bind (gives_select hi rfl fun _ _ => rfl) (fun seen₁ found s₁ hsub hselect => ?_) fun _ _ h => h
  obtain ⟨-, h₁⟩ := hselect
  cases found with
  | none => exact Gives.ret ⟨[], by simp, h₁⟩
  | some attempts =>
    have hupdated : Gives i B seen₁ (sql (.markFailed job (if attempts.2 ≤ attempts.1 then .dead else .failed)
        (takeStr 2000 error))) (fun _ _ s' => ∃ ws, (∀ w ∈ ws, w.OfJob job ∧ w.decision? = none) ∧ Wrote i ws s₁ s')
        F s₁ := by
      cases hs : storable (takeStr 2000 error) with
      | true =>
        refine gives_updateJob h₁.txn (Sql.refusal_eq_none_iff.mpr ⟨fun text ht => ?_, rfl⟩) fun _ _ => rfl
        obtain rfl := List.mem_singleton.mp ht
        exact hs
      | false =>
        have herror : storable error = false := Bool.eq_false_iff.mpr fun h => by
          rw [storable_takeStr h] at hs
          cases hs
        refine gives_refused h₁.txn (fun hq => ?_) ((hB herror).imp fun y hy => ⟨hsub hy.1, hy.2⟩)
          fun text s' h => hF text s' (h₁.trans h)
        have := (Sql.refusal_eq_none_iff.mp hq).1 _ List.mem_cons_self
        rw [hs] at this
        cases this
    refine Gives.bind hupdated (fun seen₂ _ s₂ _ hupdate => ?_) fun _ _ h => h
    obtain ⟨ws, hws, h₂⟩ := hupdate
    refine Gives.mono (gives_sql (R := fun _ ws => ∃ row, ws = [.audit row]) h₂.txn rfl
      fun now fresh => ⟨(), [.audit _], rfl, _, rfl⟩) (fun _ _ s' _ haudit => ?_) fun _ _ h => h
    obtain ⟨_, ⟨row, rfl⟩, h₃⟩ := haudit
    exact ⟨ws ++ [.audit row], List.forall_mem_append.mpr ⟨hws, fun w hw =>
      List.mem_singleton.mp hw ▸ ⟨trivial, rfl⟩⟩,
      (h₁.trans h₂).trans h₃⟩

/-- After an exception that an answer is to blame for, the job is marked, and the exception goes on; or its text is
refused, and the answer is to blame for that. -/
theorem gives_refuse {job : Uuid} {error : String} {line : LogLine} {x : Exn} (hx : ∃ y ∈ seen, B x y)
    (hB : storable error = false → ∃ y ∈ seen, ∀ text, B (.error text) y)
    (h : Fails i job s s₁) (hF : ∀ x s', Fails i job s s' → F x s') :
    Gives i B seen (do
        markFailed job error
        let _ ← request (.log line)
        throw x : M Unit) (fun _ _ s' => Processes i job s s') F s₁ := by
  refine Gives.bind (gives_markFailed h.txn hB fun text s' h' => hF _ s' (h.aside h'))
    (fun seen₁ _ s₂ hsub hmarked => ?_) fun _ _ h => h
  obtain ⟨ws, hws, h₂⟩ := hmarked
  replace h₂ := h.append hws h₂
  refine Gives.bind (gives_silent h₂.txn fun t => ⟨_, _, rfl, rfl, rfl, rfl⟩)
    (fun seen₂ _ s₃ hsub' h₃ => ?_) fun _ _ h => h
  exact Gives.throw (hx.imp fun y hy => ⟨hsub' (hsub hy.1), hy.2⟩) (hF x _ (h₂.aside h₃))

theorem gives_handleJob {job : JobMessage} (hi : s.txn i = none) (hj : s.db.HasJob job.jobId)
    (hc : s.db.HasContent job.contentId) :
    Gives i (Blames (D := D) settings job.objectKey) seen (handleJob settings job)
      (fun _ _ s' => Processes i job.jobId s s') (fun _ s' =>
          ¬ s.db.Succeeded job.jobId ∧ Fails i job.jobId s s') s := by
  have raise : ∀ (x : Exn) (s' : World), ¬ s.db.Succeeded job.jobId ∧ Fails i job.jobId s s' →
      ¬ s.db.Succeeded job.jobId ∧ Fails i job.jobId s s' := fun _ _ h => h
  refine Gives.bind (gives_silent hi fun t => ⟨(), s.tick t.delay, ?_, rfl, rfl, rfl⟩)
    (fun seen₁ _ s₁ _ h₁ => ?_) raise
  · simp only [World.exec, answer, t.works]
  refine Gives.bind (gives_select h₁.txn rfl fun _ _ => rfl) (fun seen₂ status s₂ _ hselect => ?_) raise
  obtain ⟨hstatus, h₂⟩ := hselect
  replace h₂ : Wrote i [] s s₂ := h₁.trans h₂
  have hdb : s₂.db = s.db := h₂.db
  rw [show s₁.db = s.db from h₁.db] at hstatus
  split
  · -- the job has succeeded
    refine Gives.ret ⟨[], by simp, h₂, .inl ?_⟩
    rw [hdb]
    exact hstatus.symm
  · rename_i hno
    have hnot : ¬ s.db.Succeeded job.jobId := fun h => hno (hstatus.trans h)
    refine Gives.bind (Gives.attempt (gives_processJob settings h₂.txn (hdb ▸ hj) (hdb ▸ hc)))
      (fun seen₃ r s₃ _ hr => ?_) raise
    rcases hr with ⟨a, rfl, ws, hws, h₃, hend⟩ | ⟨x, rfl, hx, hd, ws, hws, h₃⟩
    · exact Gives.ret ⟨ws, hws, h₂.trans h₃, hdb ▸ hend⟩
    · have hfail : Fails i job.jobId s s₃ := ⟨hdb ▸ hd, ws, hws, h₂.trans h₃⟩
      obtain ⟨y, hy, hblame⟩ := hx
      cases x with
      | validationError reason =>
        refine gives_refuse ⟨y, hy, hblame⟩ (fun hs => ⟨y, hy, fun _ => ?_⟩) hfail fun _ _ h => ⟨hnot, h⟩
        cases hblame with
        | image fetch refused =>
          refine .contentType fetch (Bool.eq_false_iff.mpr fun hc => ?_)
          rw [storable_append, storable_reason refused hc] at hs
          exact absurd hs (by decide)
      | httpException code detail => cases hblame
      | error text =>
        exact gives_refuse ⟨y, hy, hblame⟩ (fun _ => ⟨y, hy, hblame.error⟩) hfail fun _ _ h => ⟨hnot, h⟩

/-! ## Deliveries -/

/-- What a worker that runs alone does to the world: it sends nothing, and whatever it decides it shows. -/
structure Onward (s s' : World) : Prop where
  main : ∀ m ∈ s'.main, m ∈ s.main
  db : s.db.Extends s'.db
  succeeded : ∀ job, s.db.Succeeded job → s'.db.Succeeded job
  decided : ∀ job, s'.db.Decided job → s.db.Decided job ∨ s'.db.Succeeded job

theorem Onward.trans (h : Onward s s₁) (h' : Onward s₁ s') : Onward s s' where
  main m hm := h.main m (h'.main m hm)
  db := h.db.trans h'.db
  succeeded job hs := h'.succeeded job (h.succeeded job hs)
  decided job hd := (h'.decided job hd).elim (fun hd => (h.decided job hd).imp_right (h'.succeeded job)) .inr

theorem Onward.of_db (hm : ∀ m ∈ s'.main, m ∈ s.main) (hdb : s'.db = s.db) : Onward s s' :=
  ⟨hm, hdb ▸ .refl s.db, fun _ h => hdb ▸ h, fun _ h => .inl (hdb ▸ h)⟩

/-- The writes of one job's delivery lead onward, if they do so for the job. -/
theorem Wrote.onward {job : Uuid} {ws : List Write} (h : Wrote i ws s s') (hws : ∀ w ∈ ws, w.OfJob job)
    (hs : s.db.Succeeded job → s'.db.Succeeded job) (hd : s'.db.Decided job →
      s.db.Decided job ∨ s'.db.Succeeded job) :
    Onward s s' := by
  have honly : OnlyJob job s.db s'.db := h.db ▸ onlyJob_applyAll hws s.db
  refine ⟨fun m hm => h.main ▸ hm, honly.extends', fun id hid => ?_, fun id hid => ?_⟩
  · by_cases he : id = job
    · exact he ▸ hs (he ▸ hid)
    · rw [Database.Succeeded, honly.rows id he]
      exact hid
  · by_cases he : id = job
    · exact he ▸ hd (he ▸ hid)
    · exact .inl (honly.decided id he hid)

theorem Processes.onward {job : Uuid} (h : Processes i job s s') :
    Onward s s' ∧ (s'.db.Succeeded job ∨ s.db.Decided job) := by
  obtain ⟨ws, hws, hwrote, hs | ⟨rfl, hd⟩⟩ := h
  · exact ⟨hwrote.onward hws (fun _ => hs) fun _ => .inr hs, .inl hs⟩
  · exact ⟨.of_db (fun m hm => hwrote.main ▸ hm) hwrote.db, .inr hd⟩

theorem Fails.onward {job : Uuid} (h : Fails i job s s') (hs : ¬ s.db.Succeeded job) : Onward s s' := by
  obtain ⟨hd, ws, hws, hwrote⟩ := h
  refine hwrote.onward (fun w hw => (hws w hw).1) (fun h => absurd h hs) fun h => .inl ?_
  rw [hwrote.db] at h
  exact decided_applyAll (fun w hw => (hws w hw).2) h

/-- The message is of a committed job, as an upload has written it. -/
def Deliverable (db : Database) (m : Message) : Prop :=
  ∃ fields job, m.body = .json (.obj fields) ∧ readJobMessage (.obj fields) = .ok job ∧ BodyOk db m.body

theorem Deliverable.mono {db db' : Database} {m : Message} (h : Deliverable db m) (hx : db.Extends db') :
    Deliverable db' m := by
  obtain ⟨fields, job, hb, hr, hok⟩ := h
  exact ⟨fields, job, hb, hr, hok.mono hx⟩

/-- How the body of a message is consumed. -/
theorem gives_consume (settings : WorkerSettings) (seen : List (turns D).Served) {m : Message}
    (hi : s.txn i = none) (hm : Deliverable s.db m) :
    ∃ job, Reads m.body job ∧ Gives i (Blames (D := D) settings job.objectKey) seen (consume settings m.body)
      (fun _ _ s' => s'.txn i = none ∧ s'.main = s.main ∧ Onward s s' ∧
        (s'.db.Succeeded job.jobId ∨ s.db.Decided job.jobId))
      (fun _ s' => s'.txn i = none ∧ s'.main = s.main ∧ Onward s s') s := by
  obtain ⟨fields, job, hb, hr, hok⟩ := hm
  have hreads : Reads m.body job := ⟨_, hb, hr⟩
  obtain ⟨hlink, content, hcontent, hid, -⟩ := hok job hreads
  obtain ⟨j, hj, hjob⟩ := List.mem_map.mp hlink
  refine ⟨job, hreads, ?_⟩
  rw [hb, consume, handleMessage, hr]
  refine Gives.mono (gives_handleJob hi ⟨j, hj, congrArg (·.1) hjob⟩ ⟨content, hcontent, hid⟩)
    (fun _ _ s' _ h => ⟨h.choose_spec.2.1.txn, h.choose_spec.2.1.main, h.onward⟩) fun x s' h =>
    ⟨h.2.txn, h.2.2.choose_spec.2.main, h.2.onward h.1⟩

/-- The message is no longer in the main queue. -/
def Gone (m : Message) (s : World) : Prop := ∀ m' ∈ s.main, m'.id ≠ m.id

/-- What has become of a message that was handed out: its job is decided, and shown as succeeded unless it was
decided from the start, or the image of its job was refused, and in both cases the message is done with; or another
answer is to blame. -/
inductive DoneWith (settings : WorkerSettings) (s₀ : World) (seen : List (turns D).Served) (m : Message) (s : World)
    (gone : Prop) : Prop
  | decided {job : JobMessage} (reads : Reads m.body job)
      (shown : s.db.Succeeded job.jobId ∨ s₀.db.Decided job.jobId) (done : gone)
  | refused {job : JobMessage} {reason : String} {y : (turns D).Served} (reads : Reads m.body job) (mem : y ∈ seen)
      (blame : Blames settings job.objectKey (.validationError reason) y) (done : gone)
  | failed {job : JobMessage} {text : String} {y : (turns D).Served} (reads : Reads m.body job) (mem : y ∈ seen)
      (blame : Blames settings job.objectKey (.error text) y)

theorem DoneWith.mono {s₀ : World} {seen' : List (turns D).Served} {m : Message} {gone gone' : Prop}
    (h : DoneWith settings s₀ seen m s gone) (hseen : seen ⊆ seen') (hs : Onward s s') (hg : gone → gone') :
    DoneWith settings s₀ seen' m s' gone' := by
  cases h with
  | decided reads shown done => exact .decided reads (shown.imp_left (hs.succeeded _)) (hg done)
  | refused reads mem blame done => exact .refused reads (hseen mem) blame (hg done)
  | failed reads mem blame => exact .failed reads (hseen mem) blame

theorem Gone.mono {m : Message} (h : Gone m s) (hs : Onward s s') : Gone m s' := fun m' hm' => h m' (hs.main m' hm')

/-- The world of a worker between two messages. -/
structure Between (i : Nat) (s₀ s : World) : Prop where
  txn : s.txn i = none
  onward : Onward s₀ s

theorem Between.shown {s₀ : World} (h : Between i s₀ s) {job : Uuid} (hs : Onward s s')
    (hd : s'.db.Succeeded job ∨ s.db.Decided job) : s'.db.Succeeded job ∨ s₀.db.Decided job := by
  rcases hd with hd | hd
  · exact .inl hd
  · exact (h.onward.decided job hd).elim .inr fun hd => .inl (hs.succeeded job hd)

/-- Messages are deleted from the main queue. -/
theorem gives_remove {q : Cmd} (ids : List Nat) (hi : s.txn i = none)
    (hx : ∀ (t : Turn) r s', World.exec i q t.pick (s.tick t.delay) = some (r, s') →
      ∃ a, r = .ok a ∧ s' = (s.tick t.delay).remove .main ids) :
    Gives i B seen (request q) (fun _ _ s' => s'.txn i = none ∧ Onward s s' ∧ ∀ m ∈ s'.main, m.id ∉ ids) F s := by
  refine wlp_request_works fun t r s' hr => ?_
  obtain ⟨a, rfl, rfl⟩ := hx t r s' hr
  refine .inl ⟨a, rfl, hi, .of_db (fun m hm => (List.mem_filter.mp hm).1) rfl, fun m hm => ?_⟩
  simpa using (List.mem_filter.mp hm).2

theorem gives_delete {id : Nat} (hi : s.txn i = none) :
    Gives i B seen (request (.delete .main id))
      (fun _ _ s' => s'.txn i = none ∧ Onward s s' ∧ ∀ m ∈ s'.main, m.id ≠ id) F s := by
  refine Gives.mono (gives_remove [id] hi fun t r s' hr => ?_)
    (fun _ _ _ _ h => h.imp_right <| .imp_right fun hg m hm he => hg m hm (by simp [he])) fun _ _ h => h
  simp only [World.exec, answer, t.works] at hr
  cases hr
  exact ⟨(), rfl, rfl⟩

variable {s₀ : World}

theorem gives_deliverSqs {m : Message} (h : Between i s₀ s) (hm : Deliverable s.db m) :
    Gives i B seen (deliverSqs settings m) (fun seen' _ s' => Between i s₀ s' ∧ Onward s s' ∧
      DoneWith settings s₀ seen' m s' (Gone m s')) F s := by
  obtain ⟨job, hreads, hconsume⟩ := gives_consume settings seen h.txn hm
  have hbody : Gives i (Blames (D := D) settings job.objectKey) seen
      (consume settings m.body >>= fun _ => request (.delete .main m.id) : M Unit)
      (fun _ _ s' => s'.txn i = none ∧ Onward s s' ∧ (s'.db.Succeeded job.jobId ∨ s.db.Decided job.jobId) ∧ Gone m s')
      (fun _ s' => s'.txn i = none ∧ Onward s s') s := by
    refine Gives.bind hconsume (fun seen₁ _ s₁ _ hdone => ?_) fun _ _ h => h.imp_right And.right
    obtain ⟨htxn, -, hs, hd⟩ := hdone
    refine Gives.mono (gives_delete htxn) (fun _ _ s₂ _ hdelete => ?_) fun _ _ h => h
    obtain ⟨htxn, hs', hgone⟩ := hdelete
    exact ⟨htxn, hs.trans hs', hd.imp_left (hs'.succeeded _), hgone⟩
  refine Gives.bind (Gives.attempt hbody) (fun seen₂ r s₂ _ hr => ?_) fun _ _ h => h
  rcases hr with ⟨a, rfl, htxn, hs, hd, hgone⟩ | ⟨x, rfl, ⟨y, hy, hblame⟩, htxn, hs⟩
  · exact Gives.ret ⟨⟨htxn, h.onward.trans hs⟩, hs, .decided hreads (h.shown hs hd) hgone⟩
  · cases x with
    | validationError reason =>
      refine Gives.mono (gives_delete htxn) (fun _ _ s₃ hsub hdelete => ?_) fun _ _ h => h
      obtain ⟨htxn, hs', hgone⟩ := hdelete
      exact ⟨⟨htxn, h.onward.trans (hs.trans hs')⟩, hs.trans hs', .refused hreads (hsub hy) hblame hgone⟩
    | httpException code detail => cases hblame
    | error text => exact Gives.ret ⟨⟨htxn, h.onward.trans hs⟩, hs, .failed hreads hy hblame⟩

theorem gives_deliverAllSqs {ms : List Message} (h : Between i s₀ s) (hms : ∀ m ∈ ms, Deliverable s.db m) :
    Gives i B seen (deliverAllSqs settings ms) (fun seen' _ s' => Between i s₀ s' ∧ Onward s s' ∧
      ∀ m ∈ ms, DoneWith settings s₀ seen' m s' (Gone m s')) F s := by
  induction ms generalizing s seen with
  | nil => exact Gives.ret ⟨h, .of_db (fun _ hm => hm) rfl, List.forall_mem_nil _⟩
  | cons m ms ih =>
    obtain ⟨hm, hms⟩ := List.forall_mem_cons.mp hms
    refine Gives.bind (gives_deliverSqs h hm) (fun seen₁ _ s₁ _ hdelivered => ?_) fun _ _ h => h
    obtain ⟨h₁, hs₁, hdone⟩ := hdelivered
    refine Gives.mono (ih h₁ fun m' hm' => (hms m' hm').mono hs₁.db) (fun _ _ s₂ hsub hrest => ?_)
      fun _ _ h => h
    obtain ⟨h₂, hs₂, hall⟩ := hrest
    exact ⟨h₂, hs₁.trans hs₂, List.forall_mem_cons.mpr ⟨hdone.mono hsub hs₂ fun hg => hg.mono hs₂, hall⟩⟩

/-! ## SQS -/

theorem received_eq_nil {tr : List (turns D).Served} (h : ∀ y ∈ tr, ∀ queue max, y.req ≠ .receive queue max) :
    received tr = [] := by
  refine List.flatMap_eq_nil_iff.mpr fun y hy => ?_
  obtain ⟨q, t, s, r⟩ := y
  cases q with
  | receive queue max => exact absurd rfl (h _ hy queue max)
  | _ => rfl

/-- Messages are handed out. -/
theorem gives_receive {max : Nat} {s₀ : World} (h : Between i s₀ s) :
    Gives i B seen (request (.receive .main max)) (fun seen' ms s' => Between i s₀ s' ∧ Onward s s' ∧
      (∀ m ∈ ms, m ∈ s.main) ∧ received seen' = received seen ++ ms) (fun _ _ => False) s := by
  refine wlp_request_works fun t r s' hx => ?_
  simp only [World.exec] at hx
  split at hx
  · obtain ⟨ms, hpick, ha⟩ := Option.map_eq_some_iff.mp hx
    simp only [answer, t.works, Prod.mk.injEq] at ha
    obtain ⟨rfl, rfl⟩ := ha
    have hs : Onward s (s.tick t.delay) := .of_db (fun m hm => hm) rfl
    refine .inl ⟨ms, rfl, ⟨h.txn, h.onward.trans hs⟩, hs, fun m hm => mem_queue_of_pick hpick m hm, ?_⟩
    rw [received_append]
    simp [received, messagesOf]
  · cases hx

/-- All messages that were handed out are done with. -/
def AllDone (settings : WorkerSettings) (s₀ : World) (seen : List (turns D).Served) (s : World) : Prop :=
  ∀ m ∈ received seen, DoneWith settings s₀ seen m s (Gone m s)

theorem AllDone.mono {s₀ : World} {seen' : List (turns D).Served} (h : AllDone settings s₀ seen s)
    (hseen : seen ⊆ seen')
    (hs : Onward s s') : ∀ m ∈ received seen, DoneWith settings s₀ seen' m s' (Gone m s') :=
  fun m hm => (h m hm).mono hseen hs fun hg => hg.mono hs

theorem gives_pollSqs (hs₀ : ∀ m ∈ s₀.main, Deliverable s₀.db m) (rounds : Nat) (h : Between i s₀ s)
    (hdone : AllDone settings s₀ seen s) : Gives i B seen (pollSqs settings rounds)
      (fun seen' _ s' => Between i s₀ s' ∧ AllDone settings s₀ seen' s') (fun _ _ => False) s := by
  induction rounds generalizing s seen with
  | zero => exact Gives.ret ⟨h, hdone⟩
  | succ rounds ih =>
    refine Gives.bind (Gives.attempt (B := B) (gives_receive h)) (fun seen₁ r s₁ hsub hr => ?_) fun _ _ h => h
    rcases hr with ⟨ms, rfl, h₁, hs₁, hms, hreceived⟩ | ⟨x, -, -, hno⟩
    · have hdeliver : ∀ m ∈ ms, Deliverable s₁.db m := fun m hm =>
        (hs₀ m (h.onward.main m (hms m hm))).mono h₁.onward.db
      refine Gives.bind (Gives.only (gives_deliverAllSqs h₁ hdeliver)
        ((deliverAllSqs_only settings ms).mono fun _ h => h.not_receive))
        (fun seen₂ _ s₂ hsub' hdelivered => ?_) fun _ _ h => h
      obtain ⟨⟨h₂, hs₂, hall⟩, tr, htr, honly⟩ := hdelivered
      have hrec : received seen₂ = received seen ++ ms := by
        rw [htr, received_append, received_eq_nil fun y hy => honly y hy, List.append_nil, hreceived]
      refine ih h₂ fun m hm => ?_
      rw [hrec] at hm
      exact (List.mem_append.mp hm).elim (hdone.mono (List.Subset.trans hsub hsub') (hs₁.trans hs₂) m) (hall m)
    · exact hno.elim

/-! ## Pub/Sub -/

theorem gives_deliverPubsub (acks : Acks) {ms : List Message} (h : Between i s₀ s)
    (hms : ∀ m ∈ ms, Deliverable s.db m) :
    Gives i B seen (deliverPubsub settings acks ms) (fun seen' acks' s' => Between i s₀ s' ∧ Onward s s' ∧
      acks.ackIds ⊆ acks'.ackIds ∧ ∀ m ∈ ms, DoneWith settings s₀ seen' m s' (m.id ∈ acks'.ackIds)) F s := by
  induction ms generalizing s seen acks with
  | nil => exact Gives.ret ⟨h, .of_db (fun _ hm => hm) rfl, fun _ h => h, List.forall_mem_nil _⟩
  | cons m ms ih =>
    obtain ⟨hm, hms⟩ := List.forall_mem_cons.mp hms
    obtain ⟨job, hreads, hconsume⟩ := gives_consume settings seen h.txn hm
    -- the rest of the batch, after this message
    have rest {seen₁ : List (turns D).Served} {s₁ : World} {acks₁ : Acks} (h₁ : s₁.txn i = none) (hs₁ : Onward s s₁)
        (hacks : acks.ackIds ⊆ acks₁.ackIds) (hdone : DoneWith settings s₀ seen₁ m s₁ (m.id ∈ acks₁.ackIds)) :
        Gives i B seen₁ (deliverPubsub settings acks₁ ms) (fun seen' acks' s' => Between i s₀ s' ∧ Onward s s' ∧
          acks.ackIds ⊆ acks'.ackIds ∧ ∀ m' ∈ m :: ms,
              DoneWith settings s₀ seen' m' s' (m'.id ∈ acks'.ackIds)) F s₁ := by
      refine Gives.mono (ih acks₁ ⟨h₁, h.onward.trans hs₁⟩ fun m' hm' => (hms m' hm').mono hs₁.db)
        (fun _ _ s₂ hsub hrest => ?_) fun _ _ h => h
      obtain ⟨h₂, hs₂, hacks₂, hall⟩ := hrest
      exact ⟨h₂, hs₁.trans hs₂, fun _ hid => hacks₂ (hacks hid),
        List.forall_mem_cons.mpr ⟨hdone.mono hsub hs₂ fun hid => hacks₂ hid, hall⟩⟩
    refine Gives.bind (Gives.attempt hconsume) (fun seen₁ r s₁ _ hr => ?_) fun _ _ h => h
    rcases hr with ⟨a, rfl, htxn, -, hs, hd⟩ | ⟨x, rfl, ⟨y, hy, hblame⟩, htxn, -, hs⟩
    · exact rest htxn hs (fun _ hid => List.mem_append_left _ hid) (.decided hreads (h.shown hs hd) (by simp))
    · cases x with
      | validationError reason =>
        exact rest htxn hs (fun _ hid => List.mem_append_left _ hid) (.refused hreads hy hblame (by simp))
      | httpException code detail => cases hblame
      | error text => exact rest htxn hs (fun _ hid => hid) (.failed hreads hy hblame)

theorem gives_settle {acks : Acks} (h : Between i s₀ s) :
    Gives i B seen (settle acks) (fun _ _ s' => Between i s₀ s' ∧ Onward s s' ∧
      ∀ m ∈ s'.main, m.id ∉ acks.ackIds) F s := by
  -- the messages that are handed back
  have nack {seen₁ : List (turns D).Served} {s₁ : World} (h₁ : Between i s₀ s₁) (hs₁ : Onward s s₁)
      (hgone : ∀ m ∈ s₁.main, m.id ∉ acks.ackIds) :
      Gives i B seen₁ (do
          if acks.nackIds ≠ [] then
            let _ ← request (.modifyAckDeadline acks.nackIds) : M Unit)
        (fun _ _ s' => Between i s₀ s' ∧ Onward s s' ∧ ∀ m ∈ s'.main, m.id ∉ acks.ackIds) F s₁ := by
    split
    · refine Gives.bind (gives_silent h₁.txn fun t => ⟨(), s₁.tick t.delay, ?_, rfl, rfl, rfl⟩)
        (fun _ _ s₂ _ h₂ => Gives.ret ?_) fun _ _ h => h
      · simp only [World.exec, answer, t.works]
      · have hs₂ : Onward s₁ s₂ := .of_db (fun m hm => h₂.main ▸ hm) h₂.db
        exact ⟨⟨h₂.txn, h₁.onward.trans hs₂⟩, hs₁.trans hs₂, fun m hm => hgone m (hs₂.main m hm)⟩
    · exact Gives.ret ⟨h₁, hs₁, hgone⟩
  simp only [settle]
  split
  · refine Gives.bind (gives_remove acks.ackIds h.txn fun t r s' hr => ?_) (fun _ _ s₁ _ hacked => ?_) fun _ _ h => h
    · simp only [World.exec, answer, t.works] at hr
      cases hr
      exact ⟨(), rfl, rfl⟩
    · obtain ⟨htxn, hs₁, hgone⟩ := hacked
      exact nack ⟨htxn, h.onward.trans hs₁⟩ hs₁ hgone
  · rename_i hnil
    have hnil : acks.ackIds = [] := by simpa using hnil
    exact nack h (.of_db (fun _ hm => hm) rfl) fun m _ hid => by simp [hnil] at hid

theorem gives_pullPubsub (hs₀ : ∀ m ∈ s₀.main, Deliverable s₀.db m) (rounds : Nat) (h : Between i s₀ s)
    (hdone : AllDone settings s₀ seen s) : Gives i B seen (pullPubsub settings rounds)
      (fun seen' _ s' => Between i s₀ s' ∧ AllDone settings s₀ seen' s') (fun _ _ => False) s := by
  induction rounds generalizing s seen with
  | zero => exact Gives.ret ⟨h, hdone⟩
  | succ rounds ih =>
    refine Gives.bind (Gives.attempt (B := B) (gives_receive h)) (fun seen₁ r s₁ hsub hr => ?_) fun _ _ h => h
    rcases hr with ⟨ms, rfl, h₁, hs₁, hms, hreceived⟩ | ⟨x, -, -, hno⟩
    · have hdeliver : ∀ m ∈ ms, Deliverable s₁.db m := fun m hm =>
        (hs₀ m (h.onward.main m (hms m hm))).mono h₁.onward.db
      refine Gives.bind (Gives.only (gives_deliverPubsub {} h₁ hdeliver)
        ((deliverPubsub_only settings {} ms).mono fun _ h => h.not_receive))
        (fun seen₂ acks s₂ hsub' hdelivered => ?_) fun _ _ h => h
      obtain ⟨⟨h₂, hs₂, -, hall⟩, tr, htr, honly⟩ := hdelivered
      refine Gives.bind (Gives.only (gives_settle h₂) ((settle_only acks).mono fun _ h => h.not_receive))
        (fun seen₃ _ s₃ hsub₃ hsettled => ?_) fun _ _ h => h
      obtain ⟨⟨h₃, hs₃, hgone⟩, tr', htr', honly'⟩ := hsettled
      have hrec : received seen₃ = received seen ++ ms := by
        rw [htr', received_append, htr, received_append, received_eq_nil fun y hy => honly y hy,
          received_eq_nil fun y hy => honly' y hy, List.append_nil, List.append_nil, hreceived]
      refine ih h₃ fun m hm => ?_
      rw [hrec] at hm
      rcases List.mem_append.mp hm with hm | hm
      · exact hdone.mono (List.Subset.trans hsub (List.Subset.trans hsub' hsub₃)) (hs₁.trans (hs₂.trans hs₃)) m hm
      · exact (hall m hm).mono hsub₃ hs₃ fun hid m' hm' he => hgone m' hm' (he ▸ hid)
    · exact hno.elim

/-! ## Every run can be drained -/

/-- The call is one of a worker's loop. -/
def Entry.Polls (settings : WorkerSettings) : Entry → Prop
  | .pollSqs settings' _ => settings' = settings
  | .pollPubsub settings' _ => settings' = settings ∧ settings.gcpProject ≠ ""
  | _ => False

theorem gives_poll {e : Entry} (he : e.Polls settings) (hs₀ : ∀ m ∈ s.main, Deliverable s.db m)
    (hi : s.txn i = none) :
    Gives i B [] ((service D).code e)
      (fun seen _ s' => Onward s s' ∧ AllDone settings s seen s') (fun _ _ => False) s := by
  have h : Between i s s := ⟨hi, .of_db (fun _ hm => hm) rfl⟩
  have hdone : AllDone (D := D) settings s [] s := fun m hm => (nomatch hm)
  cases e with
  | pollSqs settings' rounds =>
    obtain rfl := he
    exact Gives.bind (gives_pollSqs hs₀ rounds h hdone) (fun _ _ _ _ h => Gives.ret ⟨h.1.onward, h.2⟩) fun _ _ h => h
  | pollPubsub settings' rounds =>
    obtain ⟨rfl, hproject⟩ := he
    refine Gives.bind (Q := fun seen _ s' => Onward s s' ∧ AllDone settings' s seen s') (F := fun _ _ => False) ?_
      (fun _ _ _ _ h => Gives.ret h) fun _ _ h => h
    rw [pollPubsub, if_neg hproject]
    exact Gives.mono (gives_pullPubsub hs₀ rounds h hdone) (fun _ _ _ _ h => ⟨h.1.onward, h.2⟩) fun _ _ h => h
  | _ => exact he.elim

theorem deliverable_of_reachable {now : Time} {c : (service D).Config} (hc : Pool.Reachable (boot D now) c) :
    ∀ m ∈ c.world.main, Deliverable c.world.db m := by
  intro m hm
  have hmem : m ∈ World.messages c.world := List.mem_append_left _ hm
  obtain ⟨h, hr⟩ := hc
  obtain ⟨_, settings, req, job, contentId, key, -, hb⟩ := (uploaded_of_run hr).1 m hmem
  exact ⟨_, _, hb, readJobMessage_jobBody .., (inv_of_reachable ⟨h, hr⟩).queued.bodies m hmem⟩

/-- A worker that runs alone comes to its end, and is done with every message that it was handed; if these are all
messages of the queue, and no answer is to blame, the queue is empty and all their jobs are decided. -/
theorem drained (hs₀ : ∀ m ∈ s.main, Deliverable s.db m) (hi : s.txn i = none) {e : Entry} (he : e.Polls settings)
    {σ : Nat → Turn} (hσ : ∀ n, ¬ (turns D).refuses i ((service D).code e) (Turns.first (T := turns D) σ n) s) :
    ∃ n o, (turns D).alone i ((service D).code e) (Turns.first (T := turns D) σ n) s = some o ∧ Onward s o.world ∧
      (∀ m ∈ received o.served, DoneWith settings s o.served m o.world (Gone m o.world)) ∧
      ((∀ m ∈ s.main, m ∈ received o.served) → (∀ y ∈ o.served, ∀ key x, ¬ Blames settings key x y) →
        World.main o.world = [] ∧ ∀ m ∈ s.main, ∃ job, Reads m.body job ∧
          ((World.db o.world).Succeeded job.jobId ∨ s.db.Decided job.jobId)) := by
  obtain ⟨n, o, ho⟩ := Turns.exists_alone hσ
  have hends := Gives.of_alone (gives_poll (B := fun _ _ => False) he hs₀ hi) ho
  obtain ⟨a, -, hs, hdone⟩ | ⟨-, -, -, hno⟩ := hends
  · refine ⟨n, o, ho, hs, hdone, fun hall hnone => ?_⟩
    have hdecided : ∀ m ∈ s.main, (∃ job, Reads m.body job ∧
        ((World.db o.world).Succeeded job.jobId ∨ s.db.Decided job.jobId)) ∧ Gone m o.world := by
      intro m hm
      cases hdone m (hall m hm) with
      | decided reads shown done => exact ⟨⟨_, reads, shown⟩, done⟩
      | refused reads mem blame done => exact absurd blame (hnone _ mem _ _)
      | failed reads mem blame => exact absurd blame (hnone _ mem _ _)
    refine ⟨List.eq_nil_iff_forall_not_mem.mpr fun m hm => ?_, fun m hm => (hdecided m hm).1⟩
    exact (hdecided m (hs.main m hm)).2 m hm rfl
  · exact hno.elim

/-- From every reachable state, a worker that runs alone with working services and is served turn after turn comes to
its end, and of every message that it was handed, the job is decided and the message gone, or the image was refused
and the message gone, or an answer that it was given is to blame. If it was handed all messages of the queue, and no
answer is to blame, then the queue is empty, and all their jobs are decided. -/
theorem drains {now : Time} {c : (service D).Config} (hc : Pool.Reachable (boot D now) c) (hi : c.threads i = none)
    {e : Entry} (he : e.Polls settings) {σ : Nat → Turn}
    (hσ : ∀ n, ¬ (turns D).refuses i ((service D).code e) (Turns.first (T := turns D) σ n) c.world) :
    ∃ n o, (turns D).alone i ((service D).code e) (Turns.first (T := turns D) σ n) c.world = some o ∧
      (∀ m ∈ received o.served, DoneWith settings c.world o.served m o.world (Gone m o.world)) ∧
      ((∀ m ∈ c.world.main, m ∈ received o.served) →
        (∀ y ∈ o.served, ∀ key x, ¬ Blames settings key x y) →
        World.main o.world = [] ∧ ∀ m ∈ c.world.main, ∃ job, Reads m.body job ∧
          ((World.db o.world).Succeeded job.jobId ∨ c.world.db.Decided job.jobId)) := by
  obtain ⟨n, o, ho, -, hdone⟩ := drained (deliverable_of_reachable hc) (idle_of_unstarted hc hi) he hσ
  exact ⟨n, o, ho, hdone⟩

/-- A turn of the sample delivery. -/
def flagTurn (_ : Nat) : Turn := ⟨0, flagSample, rfl⟩

theorem drains_sample : ∃ c, Pool.Reachable (boot (sample .atomic) 0) c ∧ World.main c.world ≠ [] ∧
    ∃ n o, (turns (sample .atomic)).alone 2 ((service (sample .atomic)).code (.pollSqs {} 1))
        (Turns.first (T := turns (sample .atomic)) flagTurn n) c.world = some o ∧
      (∀ m ∈ received o.served, DoneWith {} c.world o.served m o.world (Gone m o.world)) ∧
      ((∀ m ∈ World.main c.world, m ∈ received o.served) →
        (∀ y ∈ o.served, ∀ key x, ¬ Blames {} key x y) →
        World.main o.world = [] ∧ ∀ m ∈ World.main c.world, ∃ job, Reads m.body job ∧
          ((World.db o.world).Succeeded job.jobId ∨ (World.db c.world).Decided job.jobId)) := by
  have hrun : (Pool.recordIf (fun _ _ => true) (ingestSample (sample .atomic) 1 1 2 ++ [.step 1 {}])
      [] (boot (sample .atomic) 0)).any (fun x => (x.2.threads 2).isNone && !(World.main x.2.world).isEmpty &&
        ((turns (sample .atomic)).alone 2 ((service (sample .atomic)).code (.pollSqs {} 1))
          (Turns.first (T := turns (sample .atomic)) flagTurn 19) x.2.world).isSome) = true := by
    decide +kernel
  obtain ⟨⟨h, c⟩, hx, hrun⟩ := (Option.any_eq_true _ _).mp hrun
  obtain ⟨hcheck, hsome⟩ := Bool.and_eq_true_iff.mp hrun
  obtain ⟨hfree, hmain⟩ := Bool.and_eq_true_iff.mp hcheck
  obtain ⟨o', ho'⟩ := Option.isSome_iff_exists.mp hsome
  have hr : Pool.Run Pool.anything (boot (sample .atomic) 0) h c :=
    Pool.Run.nil.recordIf (fun _ _ _ => trivial) hx
  have hne : World.main c.world ≠ [] := fun hnil => by simp [hnil] at hmain
  exact ⟨c, ⟨h, hr⟩, hne, drains ⟨h, hr⟩ (Option.isNone_iff_eq_none.mp hfree) (e := .pollSqs {} 1) rfl
    (Turns.not_refuses_of_alone ho')⟩

end CM
