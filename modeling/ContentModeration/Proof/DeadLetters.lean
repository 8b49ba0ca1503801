import ContentModeration.Proof.Claims
import ContentModeration.Proof.Redrives

/-!
# The redrive of a dead-letter queue

A redrive that runs alone with working services makes the steps of `Redrives`, and ends as
`RedriveEnds` says (`wlp_redrive`). So one message whose job identifier is no UUID ends the
whole run, and a dry run, which takes the same steps but changes nothing, predicts the real
one unless a job has no row or two messages have the same dead or failed job.
-/

namespace CM

open Database World

variable {D : Deployment} {i : Nat} {s s' s₁ : World} {args : RedriveArgs} {raw : Message}

/-! ## A redrive that runs alone -/

/-- The messages of an answer. -/
def messagesOf (y : (turns D).Served) : List Message :=
  match y with
  | ⟨.receive _ _, _, _, .ok ms⟩ => ms
  | _ => []

/-- The messages that a run has received. -/
def received (tr : List (turns D).Served) : List Message := tr.flatMap messagesOf

def Cmd.isMove : Cmd → Bool
  | .sendMessage .. | .delete .. => true
  | _ => false

/-- The requests of a run that move messages. -/
def movesOf (tr : List (turns D).Served) : List Cmd := (tr.map (·.req)).filter Cmd.isMove

/-- No message has been received or moved. -/
structure Unmoved (tr : List (turns D).Served) : Prop where
  received : received tr = []
  moves : movesOf tr = []

theorem received_append (tr tr' : List (turns D).Served) : received (tr ++ tr') = received tr ++ received tr' :=
  List.flatMap_append

theorem movesOf_append (tr tr' : List (turns D).Served) : movesOf (tr ++ tr') = movesOf tr ++ movesOf tr' := by
  simp [movesOf]

theorem Unmoved.nil : Unmoved (D := D) [] := ⟨rfl, rfl⟩

theorem Unmoved.append {tr tr' : List (turns D).Served} (h : Unmoved tr) (h' : Unmoved tr') : Unmoved (tr ++ tr') :=
  ⟨by rw [received_append, h.received, h'.received]; rfl, by rw [movesOf_append, h.moves, h'.moves]; rfl⟩

/-- A statement outside a transaction. -/
theorem wlp_sql_works {st : Sql} {R : Except Exn st.Ans → World → Prop} (hi : s.txn i = none)
    (hq : st.refusal = none) (h : ∀ s₁ fresh, Still s s₁ → match st.run s₁.db s₁.now fresh with
      | .error x => R (.error x) s₁
      | .ok (a, ws) => R (.ok a) { s₁ with db := s₁.db.applyAll ws }) :
    (turns D).wlp i (sql st) (fun tr r s' => Unmoved tr ∧ R r s') s := by
  refine wlp_request_works fun t r s' hx => ⟨⟨rfl, rfl⟩, ?_⟩
  have hidle : (s.tick t.delay).txn i = none := hi
  have hrun := h (s.tick t.delay) t.pick.fresh (.tick s t.delay)
  simp only [World.exec, runSql, hidle, Sql.execute_of_storable hq] at hx
  split at hx
  · rename_i x hr
    cases hx
    rw [hr] at hrun
    exact hrun
  · rename_i a ws hr
    rw [hr] at hrun
    split at hx
    · cases hx
    · simp only [World.answer, t.works, Option.some.injEq, Prod.mk.injEq] at hx
      obtain ⟨rfl, rfl⟩ := hx
      exact hrun

theorem txn_of_txns (h : s'.txns = s.txns) (hi : s.txn i = none) : s'.txn i = none := by rwa [txn, h]

theorem wlp_lookupStatus {msg : DlqMessage} (hi : s.txn i = none) :
    (turns D).wlp i (lookupStatus args msg) (fun tr r s' => Unmoved tr ∧ Still s s' ∧
      r = (askedJob args msg).map (statusOf s.db)) s := by
  simp only [lookupStatus]
  split
  · rename_i jobId hskip hjob
    have hasked : askedJob args msg = jobId.encode.bind fun jobId => (castUuid jobId).map some := by
      rw [askedJob, hskip, hjob]
    rw [hasked]
    cases jobId.encode with
    | error x => exact ⟨.nil, .refl s, rfl⟩
    | ok jobId =>
      have hcast : (Except.ok jobId : Except Exn String).bind (fun jobId => (castUuid jobId).map some) =
        (castUuid jobId).map some := rfl
      rw [hcast]
      refine wlp_sql_works hi rfl fun s₁ fresh hs => ?_
      simp only [Sql.run]
      cases castUuid jobId with
      | error x => exact ⟨hs, rfl⟩
      | ok u => exact ⟨hs, by rw [hs.db]; rfl⟩
  · rename_i hno
    refine ⟨.nil, .refl s, ?_⟩
    unfold askedJob
    split
    · rename_i jobId hskip hjob
      exact (hno jobId hskip hjob).elim
    · rfl

/-- With distinct identifiers, the UPDATE of a reset finds the job if it is dead or failed. -/
theorem updateJobIf_failed {db : Database} (hn : (db.jobs.map (·.id)).Nodup) (u : Uuid) (v : JobUpdate) :
    db.updateJobIf u (fun j => decide (j.status = .dead ∨ j.status = .failed)) v =
      if failedJob? db (some u) = some u then [.updateJob u v] else [] := by
  have hiff : (db.jobs.find? fun j =>
    decide (j.id = u) && decide (j.status = .dead ∨ j.status = .failed)).isSome = true ↔
      failedJob? db (some u) = some u := by
    rw [failedJob?_some]
    constructor
    · intro h
      obtain ⟨j, hj⟩ := Option.isSome_iff_exists.mp h
      have hp : (decide (j.id = u) && decide (j.status = .dead ∨ j.status = .failed)) = true :=
        List.find?_some (p := fun j : Job => decide (j.id = u) && decide (j.status = .dead ∨ j.status = .failed)) hj
      obtain ⟨hid, hst⟩ := Bool.and_eq_true_iff.mp hp
      obtain rfl := of_decide_eq_true hid
      have hjob : db.job? j.id = some j := find?_of_nodup hn (List.mem_of_find?_eq_some hj)
      rw [if_pos]
      simpa [statusOf, hjob] using hst
    · intro h
      split at h
      · rename_i hst
        cases hj : db.job? u with
        | none => simp [statusOf, hj] at hst
        | some j =>
          have hid : j.id = u := by simpa using List.find?_some hj
          refine List.find?_isSome.mpr ⟨j, List.mem_of_find?_eq_some hj, ?_⟩
          simpa [statusOf, hj, hid] using hst
      · cases h
  simp only [updateJobIf]
  by_cases h : failedJob? db (some u) = some u
  · rw [if_pos h, if_pos (hiff.mpr h)]
  · rw [if_neg h, if_neg fun hf => h (hiff.mp hf)]

/-- The UPDATE of a reset, and the audit row that follows it. -/
theorem wlp_resetJobForRedrive {jobId : String} {u : Uuid} (hi : s.txn i = none) (hn : (s.db.jobs.map (·.id)).Nodup)
    (hu : castUuid jobId = .ok u) : (turns D).wlp i (resetJobForRedrive jobId) (fun tr r s' => Unmoved tr ∧
      r = .ok (failedJob? s.db (some u)).isSome ∧ Reset (some u) s s') s := by
  have hcases : failedJob? s.db (some u) = none ∨ failedJob? s.db (some u) = some u := by
    rw [failedJob?_some]
    split
    · exact .inr rfl
    · exact .inl rfl
  refine Turns.wlp_seq (P := fun tr r s' => Unmoved tr ∧ ∃ s₁, Still s s₁ ∧ r = .ok (failedJob? s.db (some u)) ∧
    s' = { s₁ with
      db := s₁.db.applyAll (if failedJob? s.db (some u) = some u then [.updateJob u (.queued s₁.now)] else []) })
    (wlp_sql_works hi rfl fun s₁ fresh hs => ?_) ?_ ?_
  · have hws := updateJobIf_failed (hs.db ▸ hn) u (.queued s₁.now)
    rw [hs.db] at hws
    simp only [Sql.run, hu, hs.db]
    refine ⟨s₁, hs, ?_, by rw [hs.db, ← hws]⟩
    rw [hws]
    rcases hcases with hf | hf
    · rw [hf]
      rfl
    · rw [hf, if_pos rfl]
      rfl
  · rintro tr a s' ⟨htr, s₁, hs, ha, rfl⟩
    obtain rfl := Except.ok.inj ha
    rcases hcases with hf | hf
    · rw [hf, if_neg (by simp)]
      refine ⟨htr.append .nil, rfl, .of_none hf ?_⟩
      exact ⟨hs.db, hs.txns, hs.main, hs.dlq, hs.nextMsg, hs.takes⟩
    · rw [hf, if_pos rfl]
      have hidle : s₁.txn i = none := txn_of_txns hs.txns hi
      refine Turns.wlp_seq (wlp_sql_works (R := fun r s' => r = .ok () ∧ Reset (some u) s s') hidle
        rfl fun s₂ fresh hs₂ => ?_)
        ?_ ?_
      · have hrun : Sql.run s₂.db s₂.now fresh (.auditRedrive jobId
            (.dumps (.obj [("source", .str "dlq"), ("to", .str "main_queue")]))) =
              .ok ((), [.audit ⟨"job", u, "redrive",
              "redrive-cli", .dumps (.obj [("source", .str "dlq"), ("to", .str "main_queue")])⟩]) := by
          simp only [Sql.run, hu]
          rfl
        rw [hrun]
        refine ⟨rfl, ⟨s₁.now, ?_⟩, hs₂.txns.trans hs.txns, hs₂.main.trans hs.main, hs₂.dlq.trans hs.dlq,
          hs₂.nextMsg.trans hs.nextMsg, hs₂.takes.trans hs.takes⟩
        simp only [requeue, hf, hs₂.db, hs.db, applyAll_cons, applyAll_nil]
      · rintro tr' a' s' ⟨htr', -, hreset⟩
        exact ⟨htr.append (htr'.append .nil), rfl, hreset⟩
      · rintro tr' x s' ⟨-, hx, -⟩
        cases hx
  · rintro tr x s' ⟨htr, s₁, hs, hx, rfl⟩
    cases hx

/-- Only a job that the script has asked for has a status. -/
theorem askedJob_some {msg : DlqMessage} {u : Uuid} (h : askedJob args msg = .ok (some u)) :
    ∃ jobId, args.skipDb = false ∧ msg.jobId = some jobId ∧ castUuid jobId.str = .ok u := by
  unfold askedJob at h
  split at h
  · rename_i jobId hskip hjob
    refine ⟨jobId, hskip, hjob, ?_⟩
    cases hl : jobId.lone with
    | true => simp [PyStr.encode, hl, Except.bind] at h
    | false => cases hc : castUuid jobId.str <;> simp_all [PyStr.encode, Except.bind, Except.map]
  · cases h

theorem wlp_resetIfPlanned {job : Option Uuid} (hi : s.txn i = none) (hn : (s.db.jobs.map (·.id)).Nodup)
    (hjob : askedJob args (dlqMessage raw) = .ok job) (hm : (planOf args s.db raw job).moves = true) :
    (turns D).wlp i (resetIfPlanned args (planOf args s.db raw job) (dlqMessage raw)) (fun tr r s' =>
      Unmoved tr ∧
      r = .ok (failedJob? s.db job).isSome ∧ Reset job s s') s := by
  simp only [resetIfPlanned]
  split
  · rename_i jobId hr hskip hid
    obtain ⟨u, rfl⟩ : ∃ u, job = some u := by
      have hasked : askedJob args (dlqMessage raw) = jobId.encode.bind fun jobId => (castUuid jobId).map some := by
        rw [askedJob, hskip, hid]
      rw [hasked] at hjob
      cases he : jobId.encode with
      | error x =>
        rw [he] at hjob
        cases hjob
      | ok text =>
        rw [he] at hjob
        cases hc : castUuid text with
        | error x =>
          have herr : (castUuid text).map some = .ok job := hjob
          rw [hc] at herr
          cases herr
        | ok u =>
          have hok : (castUuid text).map some = .ok job := hjob
          rw [hc] at hok
          exact ⟨u, (Except.ok.inj hok).symm⟩
    obtain ⟨jobId', -, hid', hc⟩ := askedJob_some hjob
    obtain rfl := Option.some.inj (hid.symm.trans hid')
    exact wlp_resetJobForRedrive hi hn hc
  · rename_i hno
    have hf : failedJob? s.db job = none := by
      cases hf : failedJob? s.db job with
      | none => rfl
      | some u =>
        obtain ⟨rfl, hst⟩ := Option.filter_eq_some_iff.mp hf
        obtain ⟨jobId, hskip, hid, -⟩ := askedJob_some hjob
        exact (hno jobId ((resetJob_iff hm).mpr (.inr (of_decide_eq_true hst))) hskip hid).elim
    rw [hf]
    exact ⟨.nil, rfl, .of_none hf (.refl s)⟩

/-- The copy is sent, and the dead letter deleted. -/
theorem wlp_move {job : Option Uuid} {c : RedriveCounts} {tr : List (turns D).Served} (htr : Unmoved tr)
    (hr : Reset job s s₁) (hfound : decided args s.db raw = .ok job) (hm : (planOf args s.db raw job).moves = true)
    (hd : args.dryRun = false) : (turns D).wlp i (do
      let _ ← Prog.ofExcept (encoded (dlqMessage raw).contentHash)
      let _ ← request (.sendMessage (dlqMessage raw).bodyRaw (redriveAttributes (dlqMessage raw)))
      let _ ← request (.delete .dlq (dlqMessage raw).receiptHandle)
      return { c with moved := c.moved + 1, jobsReset := c.jobsReset + (failedJob? s.db job).isSome.toNat })
    (fun tr' r s' => received (tr ++ tr') = [] ∧ Redrives args s c [raw] r s' (movesOf (tr ++ tr'))) s₁ := by
  cases hhash : encoded (dlqMessage raw).contentHash with
  | error x =>
    -- the hash has no encoding
    refine ⟨by rw [List.append_nil]; exact htr.received, ?_⟩
    rw [List.append_nil, htr.moves]
    exact .unsent hr hfound hm hd (by rw [sending, hhash]; rfl) (.inl rfl)
  | ok u =>
    have hsending : sending s.takes raw =
        if s₁.takes raw.body (redriveAttributes (dlqMessage raw)) then .ok () else .error messageRefused := by
      rw [sending, hhash, hr.takes]
      rfl
    rw [Prog.ofExcept_ok_bind]
    refine Turns.wlp_bind (wlp_request_works fun t r s₂ hx => ?_)
    simp only [World.exec, runSend, Option.some.injEq] at hx
    split at hx
    · rename_i htakes
      simp only [answer, t.works, Prod.mk.injEq] at hx
      obtain ⟨rfl, rfl⟩ := hx
      refine Turns.wlp_bind (wlp_answered (fun _ => rfl) fun t' => ?_)
      have hmoved : Moved raw job s (World.remove (((s₁.tick t.delay).send raw.body
          (redriveAttributes (dlqMessage raw))).tick t'.delay) .dlq [raw.id]) := by
        refine ⟨hr.db, hr.txns, ?_, ?_, hr.takes⟩
        · show s₁.main ++ [⟨s₁.nextMsg, _, _⟩] = _
          rw [hr.main, hr.nextMsg]
        · show s₁.dlq.filter _ = _
          rw [hr.dlq]
          exact List.filter_congr fun m _ => by simp
      refine ⟨by rw [received_append, htr.received]; rfl, ?_⟩
      rw [movesOf_append, htr.moves]
      exact .move hmoved hfound hm hd (hsending.trans (if_pos htakes)) (.done (.refl _))
    · rename_i htakes
      simp only [Prod.mk.injEq] at hx
      obtain ⟨rfl, rfl⟩ := hx
      refine ⟨by rw [received_append, htr.received]; rfl, ?_⟩
      rw [movesOf_append, htr.moves]
      have hreset : Reset job s (s₁.tick t.delay) := ⟨hr.db, hr.txns, hr.main, hr.dlq, hr.nextMsg, hr.takes⟩
      exact .unsent hreset hfound hm hd (hsending.trans (if_neg htakes)) (.inr rfl)

theorem wlp_redriveMessage {c : RedriveCounts} (hi : s.txn i = none) (hn : (s.db.jobs.map (·.id)).Nodup) :
    (turns D).wlp i (redriveMessage args c raw) (fun tr r s' =>
      received tr = [] ∧ Redrives args s c [raw] r s' (movesOf tr)) s := by
  have raise : ∀ {tr : List (turns D).Served} {x : Exn} {s₁ : World}, Unmoved tr → Still s s₁ →
      decided args s.db raw = .error x →
      received tr = [] ∧ Redrives args s c [raw] (.error x) s₁ (movesOf tr) := fun htr hs hx =>
    ⟨htr.received, htr.moves ▸ .raise hs hx⟩
  unfold redriveMessage
  cases hparse : parseDlqMessage raw with
  | error x => exact raise .nil (.refl s) (by rw [decided, jobOf, hparse]; rfl)
  | ok msg =>
  obtain rfl := dlqMessage_of_parse hparse
  have hasked : jobOf args raw = askedJob args (dlqMessage raw) := by
    rw [jobOf, hparse]
    rfl
  rw [Prog.ofExcept_ok_bind]
  refine Turns.wlp_seq (wlp_lookupStatus hi) ?_ ?_
  · rintro tr status s₁ ⟨htr, hs, hstatus⟩
    obtain ⟨job, hjob, rfl⟩ : ∃ job, askedJob args (dlqMessage raw) = .ok job ∧ status = statusOf s.db job := by
      cases hj : askedJob args (dlqMessage raw) with
      | error x =>
        rw [hj] at hstatus
        cases hstatus
      | ok job =>
        rw [hj] at hstatus
        exact ⟨job, rfl, Except.ok.inj hstatus⟩
    have hplan : planRedrive (dlqMessage raw) args.jobIdFilter (statusOf s.db job) =
      planOf args s.db raw job := rfl
    have hdecided : decided args s.db raw =
        (printed (dlqMessage raw) (planOf args s.db raw job).moves).map fun _ => job := by
      rw [decided, hasked, hjob]
      rfl
    dsimp only
    rw [hplan]
    have skip : (planOf args s.db raw job).moves = false → (turns D).wlp i (do
        let _ ← Prog.ofExcept (encoded (dlqMessage raw).jobId)
        return { c with skipped := c.skipped + 1 }) (fun tr' r s' => received (tr ++ tr') = [] ∧
          Redrives args s c [raw] r s' (movesOf (tr ++ tr'))) s₁ := fun hm => by
      rw [hm, printed, if_neg (by simp)] at hdecided
      cases he : encoded (dlqMessage raw).jobId with
      | error x =>
        rw [he] at hdecided
        show received (tr ++ []) = [] ∧ _
        rw [List.append_nil]
        exact raise htr hs hdecided
      | ok u =>
        rw [he] at hdecided
        show received (tr ++ []) = [] ∧ _
        rw [List.append_nil]
        exact ⟨htr.received, htr.moves ▸ .skip hs hdecided hm (.done (.refl s₁))⟩
    split
    case h_6 hne₁ hne₂ hne₃ hne₄ hne₅ =>
      have hm : (planOf args s.db raw job).moves = true := by
        unfold RedriveAction.moves
        split <;> first | contradiction | rfl
      rw [hm, printed, if_pos rfl] at hdecided
      cases he : encoded ((dlqMessage raw).contentHash.map (PyStr.take 12)) with
      | error x =>
        rw [he] at hdecided
        show received (tr ++ []) = [] ∧ _
        rw [List.append_nil]
        exact raise htr hs hdecided
      | ok u =>
      rw [he] at hdecided
      rw [Prog.ofExcept_ok_bind]
      split
      · rename_i hd
        refine ⟨by rw [List.append_nil]; exact htr.received, ?_⟩
        rw [List.append_nil, htr.moves]
        exact .dry hs hdecided hm hd (.done (.refl s₁))
      · rename_i hd
        have hm₁ : (planOf args s₁.db raw job).moves = true := by rw [hs.db]; exact hm
        have hreset := wlp_resetIfPlanned (D := D) (txn_of_txns hs.txns hi) (hs.db ▸ hn) hjob hm₁
        rw [hs.db] at hreset
        refine Turns.wlp_seq hreset ?_ ?_
        · rintro tr' b s₂ ⟨htr', hb, hr⟩
          obtain rfl := Except.ok.inj hb
          refine Turns.wlp_mono (wlp_move (htr.append htr') (hr.of_still hs) hdecided hm (by simpa using hd))
            fun tr'' r s' h => ?_
          rwa [List.append_assoc] at h
        · rintro tr' x s₂ ⟨-, hx, -⟩
          cases hx
    all_goals exact skip (by simp only [RedriveAction.moves, *])
  · rintro tr x s₁ ⟨htr, hs, hx⟩
    refine raise htr hs ?_
    rw [decided, hasked]
    cases hj : askedJob args (dlqMessage raw) with
    | error y =>
      rw [hj] at hx
      exact congrArg _ (Except.error.inj hx).symm
    | ok job =>
      rw [hj] at hx
      cases hx

theorem wlp_redriveMessages {c : RedriveCounts} {ms : List Message} (hi : s.txn i = none)
    (hn : (s.db.jobs.map (·.id)).Nodup) : (turns D).wlp i (redriveMessages args c ms) (fun tr r s' =>
      received tr = [] ∧ Redrives args s c ms r s' (movesOf tr)) s := by
  induction ms generalizing s c with
  | nil => exact ⟨rfl, .done (.refl s)⟩
  | cons raw ms ih =>
    refine Turns.wlp_seq (wlp_redriveMessage hi hn) ?_ ?_
    · rintro tr c₁ s₁ ⟨hnone, hr⟩
      refine Turns.wlp_mono (ih (txn_of_txns hr.txns hi) (hr.ids ▸ hn)) fun tr' r s' h => ?_
      refine ⟨by rw [received_append, hnone, h.1]; rfl, ?_⟩
      rw [movesOf_append]
      exact hr.append h.2
    · rintro tr x s₁ ⟨hnone, hr⟩
      exact ⟨hnone, hr.raised ms⟩

theorem wlp_redriveLoop {rounds remaining : Nat} {c : RedriveCounts} (hi : s.txn i = none)
    (hn : (s.db.jobs.map (·.id)).Nodup) : (turns D).wlp i (redriveLoop args rounds remaining c) (fun tr r s' =>
      (∀ m ∈ received tr, m ∈ s.dlq) ∧ Redrives args s c (received tr) r s' (movesOf tr)) s := by
  have done : ∀ {s : World} {c : RedriveCounts}, (turns D).wlp i (pure c : M RedriveCounts) (fun tr r s' =>
      (∀ m ∈ received tr, m ∈ s.dlq) ∧ Redrives args s c (received tr) r s' (movesOf tr)) s :=
    fun {s c} => ⟨fun _ hm => (by cases hm), .done (.refl s)⟩
  induction rounds generalizing s c remaining with
  | zero => exact done
  | succ rounds ih =>
    simp only [redriveLoop]
    split
    · exact done
    refine Turns.wlp_bind (wlp_request_works fun t r s₁ hx => ?_)
    obtain ⟨ms, hpick, rfl, rfl⟩ : ∃ ms, (s.tick t.delay).pick .dlq t.pick.ids = some ms ∧
        r = .ok ms ∧ s₁ = s.tick t.delay := by
      simp only [World.exec] at hx
      split at hx
      · obtain ⟨ms, hpick, ha⟩ := Option.map_eq_some_iff.mp hx
        simp only [answer, t.works, Prod.mk.injEq] at ha
        exact ⟨ms, hpick, ha.1.symm, ha.2.symm⟩
      · cases hx
    have hmem : ∀ m ∈ ms, m ∈ s.dlq := mem_queue_of_pick hpick
    have hstill : Still s (s.tick t.delay) := .tick s t.delay
    show (turns D).wlp i (if ms.isEmpty = true then _ else _) _ _
    split
    · rename_i hnil
      obtain rfl := List.isEmpty_iff.mp hnil
      exact ⟨fun _ hm => (by cases hm), .done hstill⟩
    refine Turns.wlp_seq (wlp_redriveMessages hi hn) ?_ ?_
    · rintro tr c₁ s₁ ⟨hnone, hr⟩
      refine Turns.wlp_mono (ih (txn_of_txns hr.txns hi) (hr.ids ▸ hn)) fun tr' r s' h => ?_
      have hrec : received (⟨.receive .dlq (min 10 remaining), t, s.tick t.delay, .ok ms⟩ :: (tr ++ tr')) =
          ms ++ received tr' := by
        show ms ++ received (tr ++ tr') = _
        rw [received_append, hnone]
        rfl
      have hmoves : movesOf (⟨.receive .dlq (min 10 remaining), t, s.tick t.delay, .ok ms⟩ :: (tr ++ tr')) =
          movesOf tr ++ movesOf tr' := movesOf_append tr tr'
      show (∀ m ∈ received (_ :: (tr ++ tr')), m ∈ s.dlq) ∧ Redrives args s c (received (_ :: (tr ++ tr'))) r s'
        (movesOf (_ :: (tr ++ tr')))
      rw [hrec, hmoves]
      refine ⟨fun m hm => ?_, (hr.of_still hstill).append h.2⟩
      rcases List.mem_append.mp hm with hm | hm
      · exact hmem m hm
      · have hleft := h.1 m hm
        rw [hr.dlq] at hleft
        exact (List.mem_filter.mp hleft).1
    · rintro tr x s₁ ⟨hnone, hr⟩
      have hrec : received (⟨.receive .dlq (min 10 remaining), t, s.tick t.delay, .ok ms⟩ :: tr) = ms := by
        show ms ++ received tr = _
        rw [hnone, List.append_nil]
      show (∀ m ∈ received (_ :: tr), m ∈ s.dlq) ∧ Redrives args s c (received (_ :: tr)) _ s₁ (movesOf tr)
      rw [hrec]
      exact ⟨hmem, hr.of_still hstill⟩

/-- Each round takes at least one message, so that the limit is enough rounds. -/
theorem redriveLoop_succ {rounds remaining : Nat} (h : remaining ≤ rounds) (c : RedriveCounts) :
    redriveLoop args (rounds + 1) remaining c = redriveLoop args rounds remaining c := by
  induction rounds generalizing remaining c with
  | zero =>
    obtain rfl : remaining = 0 := by omega
    rfl
  | succ rounds ih =>
    rw [redriveLoop, redriveLoop]
    split
    · rfl
    refine congrArg (Prog.bind _) (funext fun ms => ?_)
    split
    · rfl
    · rename_i hne
      have hpos : 0 < ms.length := List.length_pos_iff.mpr fun hnil => hne (by simp [hnil])
      exact congrArg (Prog.bind _) (funext fun c => ih (by omega) c)

/-- How a redrive ends, of the messages that it has received and the requests that move messages. -/
def RedriveEnds (args : RedriveArgs) (s : World) (tr : List (turns D).Served) (r : Except Exn RedriveReport)
    (s' : World) :
    Prop :=
  if lower args.queueProvider = "sqs" then
    (∀ m ∈ received tr, m ∈ s.dlq) ∧ ∃ rc, r = rc.map (⟨0, ·⟩) ∧ Redrives args s {} (received tr) rc s' (movesOf tr)
  else Unmoved tr ∧ r = .ok ⟨2, {}⟩ ∧ Still s s'

theorem wlp_redrive (hi : s.txn i = none) (hn : (s.db.jobs.map (·.id)).Nodup) :
    (turns D).wlp i (redrive args) (RedriveEnds args s) s := by
  simp only [redrive]
  split
  · rename_i hne
    show RedriveEnds args s [] (.ok ⟨2, {}⟩) s
    unfold RedriveEnds
    rw [if_neg hne]
    exact ⟨.nil, rfl, .refl s⟩
  rename_i heq
  have hsqs : lower args.queueProvider = "sqs" := by simpa using heq
  have run : ∀ {s₁ : World} (tr : List (turns D).Served), Still s s₁ → Unmoved tr → (turns D).wlp i (do
      let counts ← redriveLoop args args.limit args.limit {}
      return ⟨0, counts⟩) (fun tr' => RedriveEnds args s (tr ++ tr')) s₁ := fun {s₁} tr hs htr => by
    have hends : ∀ {tr' : List (turns D).Served} {rc : Except Exn RedriveCounts} {s' : World},
        (∀ m ∈ received tr', m ∈ s₁.dlq) ∧ Redrives args s₁ {} (received tr') rc s' (movesOf tr') →
        RedriveEnds args s (tr ++ tr') (rc.map (⟨0, ·⟩)) s' := fun {tr' rc s'} h => by
      unfold RedriveEnds
      rw [if_pos hsqs, received_append, htr.received, movesOf_append, htr.moves]
      exact ⟨fun m hm => hs.dlq ▸ h.1 m hm, rc, rfl, h.2.of_still hs⟩
    refine Turns.wlp_seq (wlp_redriveLoop (txn_of_txns hs.txns hi) (hs.db ▸ hn)) (fun tr' counts s' h => ?_)
      fun tr' x s' h => hends h
    show RedriveEnds args s (tr ++ (tr' ++ [])) _ s'
    rw [List.append_nil]
    exact hends h
  refine Turns.wlp_bind (wlp_answered (fun _ => rfl) fun t₁ => ?_)
  refine Turns.wlp_bind (wlp_answered (fun _ => rfl) fun t₂ => ?_)
  have hs : Still s ((s.tick t₁.delay).tick t₂.delay) := (Still.tick s _).trans (.tick _ _)
  show (turns D).wlp i (if args.skipDb = true then _ else _) _ _
  split
  · exact run [_, _] hs ⟨rfl, rfl⟩
  · refine Turns.wlp_bind (Turns.wlp_attempt (wlp_answered (fun _ => rfl) fun t₃ => ?_))
    exact run [_, _, _] (hs.trans (.tick _ _)) ⟨rfl, rfl⟩

theorem wlp_code_redrive (hi : s.txn i = none) (hn : (s.db.jobs.map (·.id)).Nodup) :
    (turns D).wlp i ((service D).code (.redrive args)) (fun tr r s' =>
      ∃ r', r = r'.map Out.report ∧ RedriveEnds args s tr r' s') s := by
  refine Turns.wlp_seq (wlp_redrive hi hn) (fun tr r s' h => ?_) fun tr x s' h => ⟨.error x, rfl, h⟩
  show ∃ r', Except.ok (Out.report r) = r'.map Out.report ∧ RedriveEnds args s (tr ++ []) r' s'
  rw [List.append_nil]
  exact ⟨.ok r, rfl, h⟩

/-! ## One malformed dead letter -/

/-- The message is one that the plan rejects. -/
def Malformed (raw : Message) : Prop :=
  (planRedrive (dlqMessage raw) none none).skipReason ∈ [some .emptyBody, some .missingJobId, some .invalidJobId]

theorem Malformed.not_redrivable (h : Malformed raw) : ¬ Redrivable args raw := by
  revert h
  unfold Malformed Redrivable planRedrive
  split
  · simp
  split
  · simp
  split
  · simp
  · simp

/-- The message is well formed and not filtered out, and its job has not succeeded. -/
def Eligible (args : RedriveArgs) (db : Database) (raw : Message) : Prop :=
  Redrivable args raw ∧ ∀ job, jobOf args raw = .ok job → statusOf db job ≠ some .succeeded

/-- A redrive that started in `s` has handled every message that it has received. -/
structure Handles (args : RedriveArgs) (s : World) (o : (turns D).Outcome Out) : Prop where
  exits : ∃ counts, o.result = .ok (.report ⟨0, counts⟩) ∧
    counts.skipped = (received o.served).countP fun raw => !movedIn args s.db raw
  left : ∀ raw ∈ received o.served, Malformed raw → movedIn args s.db raw = false ∧ raw ∈ o.world.dlq
  sent : args.dryRun = false → ∀ raw ∈ received o.served, Eligible args s.db raw →
    [.sendMessage raw.body (redriveAttributes (dlqMessage raw)), .delete .dlq raw.id].Sublist
      (o.served.map (·.req)) ∧
    (∃ m ∈ o.world.main, m.body = raw.body ∧ m.attributes = redriveAttributes (dlqMessage raw)) ∧
    raw ∉ o.world.dlq

theorem movedIn_of_malformed {db : Database} (h : Malformed raw) : movedIn args db raw = false := by
  unfold movedIn
  split
  · exact Bool.eq_false_iff.mpr fun hm => h.not_redrivable (moves_iff.mp hm).1
  · rfl

theorem mem_deletedIds {qs : List Cmd} {id : Nat} : id ∈ deletedIds qs ↔ .delete .dlq id ∈ qs := by
  unfold deletedIds
  simp only [List.mem_filterMap]
  constructor
  · rintro ⟨q, hq, hid⟩
    split at hid
    · cases hid
      exact hq
    · cases hid
  · exact fun h => ⟨_, h, rfl⟩

/-- A redrive that ends has handled every message. -/
theorem Redrives.handles {o : (turns D).Outcome Out} {counts : RedriveCounts} (hq : (s.dlq.map (·.id)).Nodup)
    (hmem : ∀ m ∈ received o.served, m ∈ s.dlq) (hres : o.result = .ok (.report ⟨0, counts⟩))
    (h : Redrives args s {} (received o.served) (.ok counts) o.world (movesOf o.served)) : Handles args s o where
  exits := ⟨counts, hres, by simpa using h.counts.2⟩
  left raw hm hbad := by
    refine ⟨movedIn_of_malformed hbad, ?_⟩
    rw [h.dlq]
    refine List.mem_filter.mpr ⟨hmem raw hm, decide_eq_true fun hdel => ?_⟩
    obtain ⟨raw', hm', hid, hr⟩ := h.deleted raw.id hdel
    -- the identifiers of dead letters are distinct
    obtain rfl := List.inj_on_of_nodup_map hq (hmem raw' hm') (hmem raw hm) hid
    exact hbad.not_redrivable hr
  sent hd raw hm he := by
    have hsub := h.moves hd hm he.1 he.2
    have hsend : .sendMessage raw.body (redriveAttributes (dlqMessage raw)) ∈ movesOf o.served :=
      hsub.subset List.mem_cons_self
    have hdel : .delete .dlq raw.id ∈ movesOf o.served := hsub.subset (List.mem_cons_of_mem _ List.mem_cons_self)
    refine ⟨hsub.trans List.filter_sublist, h.main.2 _ _ hsend, fun hleft => ?_⟩
    rw [h.dlq] at hleft
    exact of_decide_eq_true (List.mem_filter.mp hleft).2 (mem_deletedIds.mpr hdel)

/-- A redrive handles every message that it receives if and only if the queues are those of SQS, and no message makes
it raise: `json.loads` reads it or finds that it is no JSON, its job identifier can be printed, and looked up if there
is a database, and what is printed of its hash and what is sent has an encoding and is taken by the queue. -/
theorem redrive_handles_iff {σ : Nat → Turn} (hi : s.txn i = none) (hn : (s.db.jobs.map (·.id)).Nodup)
    (hq : (s.dlq.map (·.id)).Nodup)
    (hσ : ∀ n, ¬ (turns D).refuses i ((service D).code (.redrive args)) (Turns.first (T := turns D) σ n) s) :
    ∃ n o, (turns D).alone i ((service D).code (.redrive args)) (Turns.first (T := turns D) σ n) s = some o ∧
      (Handles args s o ↔
        lower args.queueProvider = "sqs" ∧ ∀ raw ∈ received o.served, Passable args s raw) := by
  obtain ⟨n, o, ho⟩ := Turns.exists_alone hσ
  obtain ⟨r, hres, hends⟩ := Turns.of_alone (wlp_code_redrive hi hn) ho
  refine ⟨n, o, ho, ?_⟩
  unfold RedriveEnds at hends
  split at hends
  · rename_i hsqs
    obtain ⟨hmem, rc, rfl, hrun⟩ := hends
    rw [← hrun.ok_iff, and_iff_right hsqs]
    constructor
    · intro h
      obtain ⟨counts, hc, -⟩ := h.exits
      cases rc with
      | ok counts => exact ⟨counts, rfl⟩
      | error x =>
        rw [hres] at hc
        cases hc
    · rintro ⟨counts, rfl⟩
      exact hrun.handles hq hmem hres
  · rename_i hsqs
    obtain ⟨-, rfl, -⟩ := hends
    refine iff_of_false (fun h => ?_) fun h => hsqs h.1
    obtain ⟨counts, hc, -⟩ := h.exits
    rw [hres] at hc
    cases hc

/-- A dead letter with the job identifier of its attribute. -/
def deadLetter (id : Nat) (jobId : String) : Message := ⟨id, .text "no json", [("job_id", jobId)]⟩

def nilUuid : String := "00000000-0000-0000-0000-000000000000"

/-- The job with the identifier `nilUuid` is dead. -/
def deadJob : World where
  now := 0
  db := { jobs := [{ id := ⟨0⟩, contentId := ⟨1⟩, contentHash := "", status := .dead, enqueuedAt := 0 }] }

/-- A turn in which every request is served, and messages are received as they are numbered. -/
def receiving (ids : List Nat) : Turn := ⟨0, { ids }, rfl⟩

def redriveAll : RedriveArgs := { limit := 2, dryRun := false, jobIdFilter := none, skipDb := false }

/-- The first message is received, and no other one. -/
def receivingOnce (n : Nat) : Turn := receiving (if n < 5 then [0] else [])

theorem redrive_handles_iff_sample :
    ∃ n o, (turns (sample .atomic)).alone 0 ((service (sample .atomic)).code (.redrive redriveAll))
      (Turns.first (T := turns (sample .atomic)) receivingOnce n)
      { deadJob with dlq := [deadLetter 0 nilUuid] } = some o ∧
    (Handles redriveAll { deadJob with dlq := [deadLetter 0 nilUuid] } o ↔
      lower redriveAll.queueProvider = "sqs" ∧ ∀ raw ∈ received o.served,
        Passable redriveAll { deadJob with dlq := [deadLetter 0 nilUuid] } raw) := by
  have hrun : ((turns (sample .atomic)).alone 0 ((service (sample .atomic)).code (.redrive redriveAll))
      (Turns.first (T := turns (sample .atomic)) receivingOnce 10)
      { deadJob with dlq := [deadLetter 0 nilUuid] }).isSome = true := by decide +kernel
  obtain ⟨o, ho⟩ := Option.isSome_iff_exists.mp hrun
  exact redrive_handles_iff rfl (by decide) (by decide) (Turns.not_refuses_of_alone ho)

/-- A dead letter whose job identifier is no UUID ends the redrive before the dead letter behind it has been
handled. -/
theorem malformed_ends_redrive : ∃ (ts : List Turn) (o : (turns (sample .atomic)).Outcome Out),
    (turns (sample .atomic)).alone 0 ((service (sample .atomic)).code (.redrive redriveAll)) ts
      { deadJob with dlq := [deadLetter 0 "not-a-uuid", deadLetter 1 nilUuid] } = some o ∧
    (∃ x, o.result = .error x) ∧
    ¬ Handles redriveAll { deadJob with dlq := [deadLetter 0 "not-a-uuid", deadLetter 1 nilUuid] } o := by
  have hrun : ((turns (sample .atomic)).alone 0 ((service (sample .atomic)).code (.redrive redriveAll))
      (List.replicate 5 (receiving [0, 1]))
      { deadJob with dlq := [deadLetter 0 "not-a-uuid", deadLetter 1 nilUuid] }).any (fun o =>
        match o.result with
        | .ok _ => false
        | .error _ => true) = true := by decide +kernel
  obtain ⟨o, ho, hx⟩ := (Option.any_eq_true _ _).mp hrun
  obtain ⟨x, hx⟩ : ∃ x, o.result = .error x := by
    cases hr : o.result with
    | ok a =>
      rw [hr] at hx
      cases hx
    | error x => exact ⟨x, rfl⟩
  refine ⟨_, o, ho, ⟨x, hx⟩, fun h => ?_⟩
  obtain ⟨counts, hc, -⟩ := h.exits
  rw [hx] at hc
  cases hc

/-! ## Dry runs -/

/-- The dry run `o` has changed nothing, and reports what the real run `o'` reports. -/
structure Predicts (s : World) (o o' : (turns D).Outcome Out) : Prop where
  db : o.world.db = s.db
  main : o.world.main = s.main
  dlq : o.world.dlq = s.dlq
  report : ∃ r, o.result = .ok (.report r) ∧ o'.result = .ok (.report r)

/-- When the two runs receive the same messages if both end, the dry run predicts the real run if and only if no
message makes one of them raise, the row of the job of each message that is moved is found, and no two of these jobs
that are dead or failed are the same. -/
theorem dry_run_predicts_iff {σ σ' : Nat → Turn} (hi : s.txn i = none) (hn : (s.db.jobs.map (·.id)).Nodup)
    (hσ : ∀ n, ¬ (turns D).refuses i ((service D).code (.redrive { args with dryRun := true }))
      (Turns.first (T := turns D) σ n) s)
    (hσ' : ∀ n, ¬ (turns D).refuses i ((service D).code (.redrive { args with dryRun := false }))
      (Turns.first (T := turns D) σ' n) s)
    (hms : ∀ n o n' o', (turns D).alone i ((service D).code (.redrive { args with dryRun := true }))
        (Turns.first (T := turns D) σ n) s = some o →
      (turns D).alone i ((service D).code (.redrive { args with dryRun := false }))
        (Turns.first (T := turns D) σ' n') s = some o' →
      (∃ out, o.result = .ok out) → (∃ out, o'.result = .ok out) →
      (received o.served).Perm (received o'.served)) :
    ∃ n o n' o', (turns D).alone i ((service D).code (.redrive { args with dryRun := true }))
        (Turns.first (T := turns D) σ n) s = some o ∧
      (turns D).alone i ((service D).code (.redrive { args with dryRun := false }))
        (Turns.first (T := turns D) σ' n') s = some o' ∧
      (Predicts s o o' ↔ ((∀ raw ∈ received o.served, Passable { args with dryRun := true } s raw) ∧
        ∀ raw ∈ received o'.served, Passable { args with dryRun := false } s raw) ∧
        (∀ raw ∈ received o.served, unknownIn args s.db raw = false) ∧
        ((received o.served).filterMap (revivedJob? args s.db)).Nodup) := by
  obtain ⟨n, o, ho⟩ := Turns.exists_alone hσ
  obtain ⟨n', o', ho'⟩ := Turns.exists_alone hσ'
  refine ⟨n, o, n', o', ho, ho', ?_⟩
  obtain ⟨r, hres, hends⟩ := Turns.of_alone (wlp_code_redrive hi hn) ho
  obtain ⟨r', hres', hends'⟩ := Turns.of_alone (wlp_code_redrive hi hn) ho'
  unfold RedriveEnds at hends hends'
  by_cases hsqs : lower args.queueProvider = "sqs"
  · rw [if_pos hsqs] at hends hends'
    obtain ⟨-, rc, rfl, hrun⟩ := hends
    obtain ⟨-, rc', rfl, hrun'⟩ := hends'
    rw [← hrun.ok_iff, ← hrun'.ok_iff]
    constructor
    · rintro ⟨-, -, -, r, hr, hr'⟩
      have h₁ := hres.symm.trans hr
      have h₂ := hres'.symm.trans hr'
      cases rc with
      | error x => cases h₁
      | ok c =>
        cases rc' with
        | error x => cases h₂
        | ok c' =>
          have hp := hms n o n' o' ho ho' ⟨_, hres⟩ ⟨_, hres'⟩
          cases h₁
          cases h₂
          exact ⟨⟨⟨c, rfl⟩, c, rfl⟩, (hrun.predicts_iff hrun' hp).mp rfl⟩
    · rintro ⟨⟨⟨c, rfl⟩, c', rfl⟩, hsame⟩
      have hp := hms n o n' o' ho ho' ⟨_, hres⟩ ⟨_, hres'⟩
      have hstill := (hrun.dry_counts rfl).1
      obtain rfl := (hrun.predicts_iff hrun' hp).mpr hsame
      exact ⟨hstill.db, hstill.main, hstill.dlq, _, hres, hres'⟩
  · rw [if_neg hsqs] at hends hends'
    obtain ⟨hnone, rfl, hstill⟩ := hends
    obtain ⟨hnone', rfl, -⟩ := hends'
    rw [hnone.received, hnone'.received]
    exact iff_of_true ⟨hstill.db, hstill.main, hstill.dlq, _, hres, hres'⟩
      ⟨⟨fun _ h => (by cases h), fun _ h => (by cases h)⟩, fun _ h => (by cases h), List.nodup_nil⟩

/-- A check of what a run has received, and of what it reports. -/
def reports? (ids : List Nat) (counts : RedriveCounts) (o : (turns D).Outcome Out) : Bool :=
  decide ((received o.served).map (·.id) = ids) &&
  match o.result with
  | .ok (.report r) => decide (r = ⟨0, counts⟩)
  | _ => false

theorem report_of_check {ids : List Nat} {counts : RedriveCounts} {o : (turns D).Outcome Out}
    (h : reports? ids counts o = true) :
    (received o.served).map (·.id) = ids ∧ o.result = .ok (.report ⟨0, counts⟩) := by
  obtain ⟨hids, hr⟩ := Bool.and_eq_true_iff.mp h
  refine ⟨of_decide_eq_true hids, ?_⟩
  split at hr
  · rename_i r hres
    obtain rfl := of_decide_eq_true hr
    exact hres
  · cases hr

/-- A dead letter of a job that is dead. -/
def oneDead : World := { deadJob with dlq := [deadLetter 0 nilUuid] }

theorem received_of_check {counts : RedriveCounts} {ts : List Turn} {o : (turns D).Outcome Out}
    (ho : (turns D).alone 0 ((service D).code (.redrive args)) ts oneDead = some o)
    (hr : reports? [0] counts o = true) :
    received o.served = [deadLetter 0 nilUuid] := by
  have hn : (oneDead.db.jobs.map (·.id)).Nodup := by decide
  obtain ⟨r, -, hends⟩ := Turns.of_alone (wlp_code_redrive (s := oneDead) rfl hn) ho
  obtain ⟨hids, -⟩ := report_of_check hr
  have hlen : (received o.served).length = 1 := by simpa using congrArg List.length hids
  unfold RedriveEnds at hends
  split at hends
  · exact List.eq_replicate_iff.mpr ⟨hlen, fun m hm => List.mem_singleton.mp (hends.1 m hm)⟩
  · rw [hends.1.received] at hlen
    cases hlen

theorem dry_run_predicts_iff_sample : ∃ n o n' o',
    (turns (sample .atomic)).alone 0 ((service (sample .atomic)).code (.redrive { redriveAll with dryRun := true }))
      (Turns.first (T := turns (sample .atomic)) receivingOnce n) oneDead = some o ∧
    (turns (sample .atomic)).alone 0 ((service (sample .atomic)).code (.redrive { redriveAll with dryRun := false }))
      (Turns.first (T := turns (sample .atomic)) receivingOnce n') oneDead = some o' ∧
    (Predicts oneDead o o' ↔ ((∀ raw ∈ received o.served, Passable { redriveAll with dryRun := true } oneDead raw) ∧
      ∀ raw ∈ received o'.served, Passable { redriveAll with dryRun := false } oneDead raw) ∧
      (∀ raw ∈ received o.served, unknownIn redriveAll oneDead.db raw = false) ∧
      ((received o.served).filterMap (revivedJob? redriveAll oneDead.db)).Nodup) := by
  have hdry : ((turns (sample .atomic)).alone 0
    ((service (sample .atomic)).code (.redrive { redriveAll with dryRun := true }))
      (Turns.first (T := turns (sample .atomic)) receivingOnce 6) oneDead).any (reports? [0] ⟨1, 1, 0⟩) = true := by
    decide +kernel
  have hreal : ((turns (sample .atomic)).alone 0
    ((service (sample .atomic)).code (.redrive { redriveAll with dryRun := false }))
      (Turns.first (T := turns (sample .atomic)) receivingOnce 10) oneDead).any (reports? [0] ⟨1, 1, 0⟩) = true := by
    decide +kernel
  obtain ⟨o, ho, hr⟩ := (Option.any_eq_true _ _).mp hdry
  obtain ⟨o', ho', hr'⟩ := (Option.any_eq_true _ _).mp hreal
  refine dry_run_predicts_iff rfl (by decide) (Turns.not_refuses_of_alone ho) (Turns.not_refuses_of_alone ho') ?_
  intro n o₁ n' o₁' h₁ h₁' _ _
  rw [← Turns.alone_unique ho h₁, ← Turns.alone_unique ho' h₁', received_of_check ho hr, received_of_check ho' hr']

/-- Of two dead letters of one dead job, the dry run counts two resets, and the real run one. -/
theorem dry_run_counts_twice : ∃ (ts ts' : List Turn) (o o' : (turns (sample .atomic)).Outcome Out),
    (turns (sample .atomic)).alone 0
    ((service (sample .atomic)).code (.redrive { redriveAll with dryRun := true })) ts
      { deadJob with dlq := [deadLetter 0 nilUuid, deadLetter 1 nilUuid] } = some o ∧
    (turns (sample .atomic)).alone 0
      ((service (sample .atomic)).code (.redrive { redriveAll with dryRun := false })) ts'
      { deadJob with dlq := [deadLetter 0 nilUuid, deadLetter 1 nilUuid] } = some o' ∧
    (received o.served).map (·.id) = [0, 1] ∧ (received o'.served).map (·.id) = [0, 1] ∧
    o.result = .ok (.report ⟨0, ⟨2, 2, 0⟩⟩) ∧ o'.result = .ok (.report ⟨0, ⟨2, 1, 0⟩⟩) ∧
    ¬ Predicts { deadJob with dlq := [deadLetter 0 nilUuid, deadLetter 1 nilUuid] } o o' := by
  have hdry : ((turns (sample .atomic)).alone 0
    ((service (sample .atomic)).code (.redrive { redriveAll with dryRun := true }))
      (List.replicate 6 (receiving [0, 1])) { deadJob with dlq := [deadLetter 0 nilUuid, deadLetter 1 nilUuid] }).any
      (reports? [0, 1] ⟨2, 2, 0⟩) = true := by decide +kernel
  have hreal : ((turns (sample .atomic)).alone 0
    ((service (sample .atomic)).code (.redrive { redriveAll with dryRun := false }))
      (List.replicate 12 (receiving [0, 1])) { deadJob with dlq := [deadLetter 0 nilUuid, deadLetter 1 nilUuid] }).any
      (reports? [0, 1] ⟨2, 1, 0⟩) = true := by decide +kernel
  obtain ⟨o, ho, hr⟩ := (Option.any_eq_true _ _).mp hdry
  obtain ⟨o', ho', hr'⟩ := (Option.any_eq_true _ _).mp hreal
  obtain ⟨hids, hres⟩ := report_of_check hr
  obtain ⟨hids', hres'⟩ := report_of_check hr'
  refine ⟨_, _, o, o', ho, ho', hids, hids', hres, hres', fun h => ?_⟩
  obtain ⟨r, h₁, h₂⟩ := h.report
  have h₃ : (.ok (.report ⟨0, ⟨2, 2, 0⟩⟩) : Except Exn Out) = .ok (.report ⟨0, ⟨2, 1, 0⟩⟩) :=
    (hres.symm.trans h₁).trans (h₂.symm.trans hres')
  cases h₃

end CM
