import ContentModeration.Impl.Redrive
import ContentModeration.Proof.Database
import Mathlib.Data.Finset.Card

/-!
# The steps of a redrive

What a redrive does with the messages that it has received: it raises on a message that it cannot
read, look up, print or send, skips a message, or moves it and resets its job (`Redrives`). It raises on
no message that is `Passable`. Which messages it moves depends on the rows from before the run, since a
reset makes no job succeed (`Redrives.counts`); what a dry run and a real one count as resets differs
(`Redrives.dry_counts`, `Redrives.real_counts`).
-/

namespace CM

open Database World

variable {s s' s₁ s₂ : World} {args : RedriveArgs} {raw : Message}

/-! ## What the script reads of a message -/

/-- The job that the status query asks for; the driver rejects a parameter that is no UUID. -/
def askedJob (args : RedriveArgs) (msg : DlqMessage) : Except Exn (Option Uuid) :=
  match args.skipDb, msg.jobId with
  | false, some jobId => jobId.encode.bind fun jobId => (castUuid jobId).map some
  | _, _ => .ok none

/-- The job of a message that can be parsed. -/
def jobOf (args : RedriveArgs) (raw : Message) : Except Exn (Option Uuid) :=
  (parseDlqMessage raw).bind (askedJob args)

/-- The answer of the status query. -/
def statusOf (db : Database) (job : Option Uuid) : Option JobStatus := job.bind fun u => (db.job? u).map (·.status)

/-- The plan for a message. -/
def planOf (args : RedriveArgs) (db : Database) (raw : Message) (job : Option Uuid) : RedriveAction :=
  planRedrive (dlqMessage raw) args.jobIdFilter (statusOf db job)

/-- The message is to be sent to the main queue. -/
def RedriveAction.moves (action : RedriveAction) : Bool :=
  match action.skipReason with
  | some .jobIdFilter | some .emptyBody | some .missingJobId | some .invalidJobId | some .jobAlreadySucceeded => false
  | _ => true

/-- The message is well formed, and not filtered out. -/
def Redrivable (args : RedriveArgs) (raw : Message) : Prop :=
  (planRedrive (dlqMessage raw) args.jobIdFilter none).skipReason = none

/-- Only of a message that is well formed and not filtered out does the plan depend on the job. -/
theorem planRedrive_eq (msg : DlqMessage) (jobIdFilter : Option String) (status : Option JobStatus) :
    planRedrive msg jobIdFilter status =
      if (planRedrive msg jobIdFilter none).skipReason = none then
        match status with
        | none | some .dead | some .failed => { resetJob := true }
        | some .succeeded => { resetJob := false, skipReason := some .jobAlreadySucceeded }
        | some status => { resetJob := false, skipReason := some (.jobStatus status) }
      else planRedrive msg jobIdFilter none := by
  simp only [planRedrive]
  split
  · simp
  split
  · simp
  split
  · simp
  split
  · simp
  · rcases status with _ | status
    · simp
    · cases status <;> simp

/-- A message that is malformed or filtered out is not moved. -/
theorem moves_of_reason {msg : DlqMessage} {jobIdFilter : Option String}
    (h : (planRedrive msg jobIdFilter none).skipReason ≠ none) :
    (planRedrive msg jobIdFilter none).moves = false := by
  revert h
  simp only [planRedrive]
  split
  · simp [RedriveAction.moves]
  split
  · simp [RedriveAction.moves]
  split
  · simp [RedriveAction.moves]
  split
  · simp [RedriveAction.moves]
  · simp

/-- The message is moved unless its job has succeeded. -/
theorem moves_iff {db : Database} {job : Option Uuid} :
    (planOf args db raw job).moves = true ↔ Redrivable args raw ∧ statusOf db job ≠ some .succeeded := by
  rw [planOf, planRedrive_eq, Redrivable]
  by_cases h : (planRedrive (dlqMessage raw) args.jobIdFilter none).skipReason = none
  · rw [if_pos h]
    split <;> simp_all [RedriveAction.moves]
  · rw [if_neg h, moves_of_reason h]
    simp [h]

/-- The job of a message that is moved is to be reset unless it is in flight. -/
theorem resetJob_iff {db : Database} {job : Option Uuid} (h : (planOf args db raw job).moves = true) :
    (planOf args db raw job).resetJob = true ↔
      statusOf db job = none ∨ statusOf db job = some .dead ∨ statusOf db job = some .failed := by
  have hr : (planRedrive (dlqMessage raw) args.jobIdFilter none).skipReason = none := (moves_iff.mp h).1
  rw [planOf, planRedrive_eq, if_pos hr]
  split <;> simp_all

/-- The job, if it is dead or failed. -/
def failedJob? (db : Database) (job : Option Uuid) : Option Uuid :=
  job.filter fun u => decide (statusOf db (some u) = some .dead ∨ statusOf db (some u) = some .failed)

/-- The database after a redrive has reset the job, if it is dead or failed. -/
def requeue (db : Database) (job : Option Uuid) (t : Time) : Database :=
  match failedJob? db job with
  | none => db
  | some u => db.applyAll [.updateJob u (.queued t),
      .audit ⟨"job", u, "redrive", "redrive-cli", .dumps (.obj [("source", .str "dlq"), ("to", .str "main_queue")])⟩]

theorem statusOf_requeue (db : Database) (job k : Option Uuid) (t : Time) :
    statusOf (requeue db job t) k =
      if failedJob? db job ≠ none ∧ k = failedJob? db job then some .queued else statusOf db k := by
  cases hf : failedJob? db job with
  | none => simp [requeue, hf]
  | some u =>
    have hu : (statusOf db (some u)).isSome = true := by
      obtain ⟨-, hst⟩ := Option.filter_eq_some_iff.mp hf
      rcases of_decide_eq_true hst with h | h <;> simp [h]
    cases k with
    | none => simp [statusOf]
    | some v =>
      simp only [requeue, hf, statusOf, Option.bind_some, applyAll_cons, applyAll_nil, job?_apply, Write.job?,
        Option.filter_none, Option.or_none, Option.map_map]
      by_cases hv : v = u
      · subst hv
        obtain ⟨j, hj⟩ : ∃ j, db.job? v = some j := by
          cases hj : db.job? v with
          | none => simp [statusOf, hj] at hu
          | some j => exact ⟨j, rfl⟩
        have hid : j.id = v := by simpa using List.find?_some hj
        simp [hj, Write.toJob, hid, JobUpdate.apply]
      · cases hj : db.job? v with
        | none => simp [hv]
        | some j =>
          have hid : j.id = v := by simpa using List.find?_some hj
          simp [Write.toJob, hid, hv]

/-- A reset changes no job that has succeeded, and makes none succeed. -/
theorem moves_requeue (db : Database) (job k : Option Uuid) (t : Time) :
    (planOf args (requeue db job t) raw k).moves = (planOf args db raw k).moves := by
  rw [Bool.eq_iff_iff, moves_iff, moves_iff, statusOf_requeue]
  split
  · rename_i h
    obtain ⟨hne, rfl⟩ := h
    have hst : statusOf db (failedJob? db job) ≠ some .succeeded := by
      obtain ⟨u, hu⟩ := Option.ne_none_iff_exists'.mp hne
      rw [hu]
      rcases of_decide_eq_true (Option.filter_eq_some_iff.mp hu).2 with h | h <;> simp [h]
    simp [hst]
  · rfl

theorem failedJob?_some (db : Database) (u : Uuid) : failedJob? db (some u) =
    if statusOf db (some u) = some .dead ∨ statusOf db (some u) = some .failed then some u else none := by
  simp [failedJob?, Option.filter_some]

/-- After a reset, the job is no longer dead or failed. -/
theorem failedJob?_requeue (db : Database) (job k : Option Uuid) (t : Time) :
    failedJob? (requeue db job t) k = (failedJob? db k).filter fun u => decide (some u ≠ failedJob? db job) := by
  cases k with
  | none => rfl
  | some v =>
    have hst := statusOf_requeue db job (some v) t
    rw [failedJob?_some, failedJob?_some, hst]
    generalize failedJob? db job = f
    by_cases hv : some v = f
    · rw [if_pos (c := f ≠ none ∧ some v = f) ⟨by simp [← hv], hv⟩, if_neg (by simp)]
      split
      · rw [Option.filter_some, if_neg (by simp [hv])]
      · rfl
    · rw [if_neg (c := f ≠ none ∧ some v = f) fun h => hv h.2]
      split <;> simp [Option.filter_some, hv]

/-! ## Messages on which the script does not raise -/

/-- The message is one that is moved. -/
def movedIn (args : RedriveArgs) (db : Database) (raw : Message) : Bool :=
  match jobOf args raw with
  | .ok job => (planOf args db raw job).moves
  | .error _ => false

/-- The line about the message. -/
def printed (msg : DlqMessage) (moves : Bool) : Except Exn Unit :=
  if moves then encoded (msg.contentHash.map (PyStr.take 12)) else encoded msg.jobId

/-- The job of the message, once the line about it has been printed. -/
def decided (args : RedriveArgs) (db : Database) (raw : Message) : Except Exn (Option Uuid) :=
  (jobOf args raw).bind fun job => (printed (dlqMessage raw) (planOf args db raw job).moves).map fun _ => job

/-- The sending of the copy. -/
def sending (takes : RawBody → List (String × String) → Bool) (raw : Message) : Except Exn Unit :=
  (encoded (dlqMessage raw).contentHash).bind fun _ =>
    if takes raw.body (redriveAttributes (dlqMessage raw)) then .ok () else .error messageRefused

/-- The message does not make the script raise. -/
structure Passable (args : RedriveArgs) (s : World) (raw : Message) : Prop where
  parses : ∀ error, raw.body ≠ .raises error
  job : ∀ jobId, (dlqMessage raw).jobId = some jobId →
    jobId.lone = false ∧ (args.skipDb = false → ∃ u, castUuid jobId.str = .ok u)
  printed : movedIn args s.db raw = true → ∀ hash, (dlqMessage raw).contentHash = some hash →
    (hash.take 12).lone = false
  sent : movedIn args s.db raw = true → args.dryRun = false →
    (∀ hash, (dlqMessage raw).contentHash = some hash → hash.lone = false) ∧
    s.takes raw.body (redriveAttributes (dlqMessage raw)) = true

theorem encoded_eq_ok {t : Option PyStr} : encoded t = .ok () ↔ ∀ s, t = some s → s.lone = false := by
  cases t with
  | none => simp [encoded]
  | some s => cases h : s.lone <;> simp [encoded, PyStr.encode, h, Except.map]

theorem sending_eq_ok {takes : RawBody → List (String × String) → Bool} : sending takes raw = .ok () ↔
    (∀ hash, (dlqMessage raw).contentHash = some hash → hash.lone = false) ∧
    takes raw.body (redriveAttributes (dlqMessage raw)) = true := by
  rw [sending, ← encoded_eq_ok]
  cases encoded (dlqMessage raw).contentHash with
  | error x => simp [Except.bind]
  | ok u =>
    simp only [Except.bind]
    split <;> simp_all

theorem decided_eq_ok {db : Database} {job : Option Uuid} : decided args db raw = .ok job ↔
    jobOf args raw = .ok job ∧ printed (dlqMessage raw) (planOf args db raw job).moves = .ok () := by
  unfold decided
  cases jobOf args raw with
  | error x => simp [Except.bind]
  | ok k =>
    simp only [Except.bind, Except.ok.injEq]
    constructor
    · intro h
      cases hp : printed (dlqMessage raw) (planOf args db raw k).moves with
      | error x =>
        rw [hp] at h
        cases h
      | ok u =>
        rw [hp] at h
        cases h
        exact ⟨rfl, hp⟩
    · rintro ⟨rfl, hp⟩
      rw [hp]
      rfl

theorem jobOf_of_decided {db : Database} {job : Option Uuid} (h : decided args db raw = .ok job) :
    jobOf args raw = .ok job := (decided_eq_ok.mp h).1

theorem parseDlqMessage_ok_iff : (∃ msg, parseDlqMessage raw = .ok msg) ↔ ∀ error, raw.body ≠ .raises error := by
  unfold parseDlqMessage
  split
  · rename_i error h
    simp [h]
  · rename_i hno
    exact iff_of_true ⟨_, rfl⟩ hno

theorem askedJob_ok_iff {msg : DlqMessage} : (∃ job, askedJob args msg = .ok job) ↔
    ∀ jobId, msg.jobId = some jobId → args.skipDb = false → jobId.lone = false ∧ ∃ u, castUuid jobId.str = .ok u := by
  unfold askedJob
  split
  · rename_i jobId hskip hjob
    rw [hskip, hjob]
    cases hl : jobId.lone with
    | true => simp [PyStr.encode, hl, Except.bind]
    | false => cases hc : castUuid jobId.str <;> simp [PyStr.encode, hl, hc, Except.bind, Except.map]
  · rename_i hno
    exact iff_of_true ⟨_, rfl⟩ fun jobId hjob hskip => (hno jobId hskip hjob).elim

theorem jobOf_ok_iff : (∃ job, jobOf args raw = .ok job) ↔ (∀ error, raw.body ≠ .raises error) ∧
    ∀ jobId, (dlqMessage raw).jobId = some jobId → args.skipDb = false →
      jobId.lone = false ∧ ∃ u, castUuid jobId.str = .ok u := by
  rw [← parseDlqMessage_ok_iff, ← askedJob_ok_iff, jobOf]
  cases hp : parseDlqMessage raw with
  | error x => simp [Except.bind]
  | ok msg =>
    obtain rfl := dlqMessage_of_parse hp
    simp [Except.bind]

/-- A message that is moved has an identifier that can be printed. -/
theorem lone_of_redrivable (h : Redrivable args raw) {jobId : PyStr} (hj : (dlqMessage raw).jobId = some jobId) :
    jobId.lone = false := by
  simp only [Redrivable, planRedrive, hj] at h
  split at h
  · cases h
  split at h
  · cases h
  · rename_i hu
    cases hl : jobId.lone with
    | false => rfl
    | true => simp [PyStr.uuid, hl] at hu

theorem passable_iff : Passable args s raw ↔ ∃ job, decided args s.db raw = .ok job ∧
    ((planOf args s.db raw job).moves = true → args.dryRun = false → sending s.takes raw = .ok ()) := by
  have hmoved : ∀ {job}, jobOf args raw = .ok job → movedIn args s.db raw = (planOf args s.db raw job).moves :=
    fun h => by rw [movedIn, h]
  constructor
  · intro h
    obtain ⟨job, hjob⟩ := jobOf_ok_iff.mpr ⟨h.parses, fun jobId hj hskip =>
      ⟨(h.job jobId hj).1, (h.job jobId hj).2 hskip⟩⟩
    refine ⟨job, decided_eq_ok.mpr ⟨hjob, ?_⟩, fun hm hd => sending_eq_ok.mpr (h.sent ((hmoved hjob).trans hm) hd)⟩
    unfold CM.printed
    split
    · rename_i hm
      refine encoded_eq_ok.mpr fun t ht => ?_
      obtain ⟨hash, hh, rfl⟩ := Option.map_eq_some_iff.mp ht
      exact h.printed ((hmoved hjob).trans hm) hash hh
    · exact encoded_eq_ok.mpr fun jobId hj => (h.job jobId hj).1
  · rintro ⟨job, hd, hs⟩
    obtain ⟨hjob, hp⟩ := decided_eq_ok.mp hd
    obtain ⟨hparses, hcast⟩ := jobOf_ok_iff.mp ⟨job, hjob⟩
    refine ⟨hparses, fun jobId hj => ⟨?_, fun hskip => (hcast jobId hj hskip).2⟩, fun hm hash hh =>
      ?_, fun hm hd => ?_⟩
    · cases hm : (planOf args s.db raw job).moves with
      | true => exact lone_of_redrivable (moves_iff.mp hm).1 hj
      | false =>
        rw [hm, CM.printed, if_neg (by simp)] at hp
        exact encoded_eq_ok.mp hp jobId hj
    · rw [CM.printed, if_pos ((hmoved hjob).symm.trans hm)] at hp
      exact encoded_eq_ok.mp hp _ (by rw [hh]; rfl)
    · exact sending_eq_ok.mp (hs ((hmoved hjob).symm.trans hm) hd)

/-! ## The steps of a redrive -/

/-- Nothing has changed but the time and the keys of Redis. -/
structure Still (s s' : World) : Prop where
  db : s'.db = s.db
  txns : s'.txns = s.txns
  main : s'.main = s.main
  dlq : s'.dlq = s.dlq
  nextMsg : s'.nextMsg = s.nextMsg
  takes : s'.takes = s.takes

theorem Still.refl (s : World) : Still s s := ⟨rfl, rfl, rfl, rfl, rfl, rfl⟩

theorem Still.trans (h : Still s s₁) (h' : Still s₁ s') : Still s s' :=
  ⟨h'.db.trans h.db, h'.txns.trans h.txns, h'.main.trans h.main, h'.dlq.trans h.dlq, h'.nextMsg.trans h.nextMsg,
    h'.takes.trans h.takes⟩

theorem Still.tick (s : World) (d : Nat) : Still s (s.tick d) := ⟨rfl, rfl, rfl, rfl, rfl, rfl⟩

/-- The job has been reset, if it was dead or failed. -/
structure Reset (job : Option Uuid) (s s' : World) : Prop where
  db : ∃ t, s'.db = requeue s.db job t
  txns : s'.txns = s.txns
  main : s'.main = s.main
  dlq : s'.dlq = s.dlq
  nextMsg : s'.nextMsg = s.nextMsg
  takes : s'.takes = s.takes

theorem Reset.of_none {job : Option Uuid} (h : failedJob? s.db job = none) (hs : Still s s') : Reset job s s' :=
  ⟨⟨s.now, by rw [requeue, h, hs.db]⟩, hs.txns, hs.main, hs.dlq, hs.nextMsg, hs.takes⟩

theorem Reset.of_still {job : Option Uuid} (h : Still s s₁) (hr : Reset job s₁ s') : Reset job s s' where
  db := by
    rw [← h.db]
    exact hr.db
  txns := hr.txns.trans h.txns
  main := hr.main.trans h.main
  dlq := hr.dlq.trans h.dlq
  nextMsg := hr.nextMsg.trans h.nextMsg
  takes := hr.takes.trans h.takes

/-- The message has been moved to the main queue, and its job `job` reset. -/
structure Moved (raw : Message) (job : Option Uuid) (s s' : World) : Prop where
  db : ∃ t, s'.db = requeue s.db job t
  txns : s'.txns = s.txns
  main : s'.main = s.main ++ [⟨s.nextMsg, raw.body, redriveAttributes (dlqMessage raw)⟩]
  dlq : s'.dlq = s.dlq.filter (·.id ≠ raw.id)
  takes : s'.takes = s.takes

theorem Moved.of_still {job : Option Uuid} (h : Still s s₁) (hm : Moved raw job s₁ s') : Moved raw job s s' where
  db := by
    rw [← h.db]
    exact hm.db
  txns := hm.txns.trans h.txns
  main := by rw [hm.main, h.main, h.nextMsg]
  dlq := by rw [hm.dlq, h.dlq]
  takes := hm.takes.trans h.takes

theorem movedIn_of_moved {job : Option Uuid} {raw' : Message} (h : Moved raw' job s s') :
    movedIn args s'.db = movedIn args s.db := by
  obtain ⟨t, hdb⟩ := h.db
  funext raw
  simp only [movedIn, hdb, moves_requeue]

/-- Whether the script raises on a message does not change in its run. -/
theorem passable_of_still (h : Still s s') : Passable args s' raw ↔ Passable args s raw := by
  rw [passable_iff, passable_iff, h.db, h.takes]

theorem passable_of_moved {job : Option Uuid} {raw' : Message} (h : Moved raw' job s s') :
    Passable args s' raw ↔ Passable args s raw := by
  obtain ⟨t, hdb⟩ := h.db
  simp only [passable_iff, decided, hdb, h.takes, moves_requeue]

/-- A redrive handles the messages one after another, and makes the requests `qs` to the queues. -/
inductive Redrives (args : RedriveArgs) : World → RedriveCounts → List Message → Except Exn RedriveCounts → World →
    List Cmd → Prop where
  | done {s s' c} (still : Still s s') : Redrives args s c [] (.ok c) s' []
  | raise {s s' c raw ms x} (still : Still s s') (found : decided args s.db raw = .error x) :
    Redrives args s c (raw :: ms) (.error x) s' []
  | unsent {s s' c raw ms x qs job} (reset : Reset job s s') (found : decided args s.db raw = .ok job)
      (moves : (planOf args s.db raw job).moves = true) (dryRun : args.dryRun = false)
      (refused : sending s.takes raw = .error x)
      (tried : qs = [] ∨ qs = [.sendMessage raw.body (redriveAttributes (dlqMessage raw))]) :
    Redrives args s c (raw :: ms) (.error x) s' qs
  | skip {s s₁ s' c raw ms r qs job} (still : Still s s₁) (found : decided args s.db raw = .ok job)
      (stays : (planOf args s.db raw job).moves = false)
      (rest : Redrives args s₁ { c with skipped := c.skipped + 1 } ms r s' qs) : Redrives args s c (raw :: ms) r s' qs
  | dry {s s₁ s' c raw ms r qs job} (still : Still s s₁) (found : decided args s.db raw = .ok job)
      (moves : (planOf args s.db raw job).moves = true) (dryRun : args.dryRun = true)
      (rest : Redrives args s₁ { c with
        moved := c.moved + 1, jobsReset := c.jobsReset + (planOf args s.db raw job).resetJob.toNat } ms r s' qs) :
    Redrives args s c (raw :: ms) r s' qs
  | move {s s₁ s' c raw ms r qs job} (moved : Moved raw job s s₁) (found : decided args s.db raw = .ok job)
      (moves : (planOf args s.db raw job).moves = true) (dryRun : args.dryRun = false)
      (sent : sending s.takes raw = .ok ())
      (rest : Redrives args s₁ { c with
        moved := c.moved + 1, jobsReset := c.jobsReset + (failedJob? s.db job).isSome.toNat } ms r s' qs) :
    Redrives args s c (raw :: ms) r s'
      (.sendMessage raw.body (redriveAttributes (dlqMessage raw)) :: .delete .dlq raw.id :: qs)

namespace Redrives

variable {c c₁ : RedriveCounts} {ms ms' : List Message} {r : Except Exn RedriveCounts} {qs qs' : List Cmd} {x : Exn}

theorem of_still (h : Still s s₁) (hr : Redrives args s₁ c ms r s' qs) : Redrives args s c ms r s' qs := by
  cases hr with
  | done still => exact .done (h.trans still)
  | raise still found => exact .raise (h.trans still) (h.db ▸ found)
  | unsent reset found moves dryRun refused tried =>
    rw [h.db] at found moves
    exact .unsent (.of_still h reset) found moves dryRun (h.takes ▸ refused) tried
  | skip still found stays rest => exact .skip (h.trans still) (h.db ▸ found) (h.db ▸ stays) rest
  | dry still found moves dryRun rest =>
    rw [h.db] at found moves rest
    exact .dry (h.trans still) found moves dryRun rest
  | move moved found moves dryRun sent rest =>
    rw [h.db] at found moves rest
    exact .move (.of_still h moved) found moves dryRun (h.takes ▸ sent) rest

theorem append (h : Redrives args s c ms (.ok c₁) s₁ qs) (h' : Redrives args s₁ c₁ ms' r s' qs') :
    Redrives args s c (ms ++ ms') r s' (qs ++ qs') := by
  generalize hok : (.ok c₁ : Except Exn RedriveCounts) = r₁ at h
  induction h with
  | done still =>
    cases hok
    exact h'.of_still still
  | raise still found => cases hok
  | unsent reset found moves dryRun refused tried => cases hok
  | skip still found stays rest ih => exact .skip still found stays (ih h' hok)
  | dry still found moves dryRun rest ih => exact .dry still found moves dryRun (ih h' hok)
  | move moved found moves dryRun sent rest ih => exact .move moved found moves dryRun sent (ih h' hok)

theorem raised (h : Redrives args s c ms (.error x) s' qs) (ms' : List Message) :
    Redrives args s c (ms ++ ms') (.error x) s' qs := by
  generalize herr : (.error x : Except Exn RedriveCounts) = r₁ at h ⊢
  induction h with
  | done still => cases herr
  | raise still found => exact .raise still found
  | unsent reset found moves dryRun refused tried => exact .unsent reset found moves dryRun refused tried
  | skip still found stays rest ih => exact .skip still found stays (ih herr)
  | dry still found moves dryRun rest ih => exact .dry still found moves dryRun (ih herr)
  | move moved found moves dryRun sent rest ih => exact .move moved found moves dryRun sent (ih herr)

theorem txns (h : Redrives args s c ms r s' qs) : s'.txns = s.txns := by
  induction h with
  | done still | raise still found => exact still.txns
  | unsent reset found moves dryRun refused tried => exact reset.txns
  | skip still found stays rest ih => exact ih.trans still.txns
  | dry still found moves dryRun rest ih => exact ih.trans still.txns
  | move moved found moves dryRun sent rest ih => exact ih.trans moved.txns

end Redrives

/-- No request changes the identifiers of jobs. -/
theorem Redrives.ids {c : RedriveCounts} {ms : List Message} {r : Except Exn RedriveCounts} {qs : List Cmd}
    (h : Redrives args s c ms r s' qs) : s'.db.jobs.map (·.id) = s.db.jobs.map (·.id) := by
  have requeued : ∀ (db : Database) (job : Option Uuid) (t : Time),
      (requeue db job t).jobs.map (·.id) = db.jobs.map (·.id) := fun db job t => by
    unfold requeue
    split
    · rfl
    · simp only [applyAll_cons, applyAll_nil, Database.apply, List.map_map]
      refine List.map_congr_left fun j _ => ?_
      simp only [Function.comp]
      split <;> rfl
  induction h with
  | done still | raise still found => rw [still.db]
  | unsent reset found moves dryRun refused tried =>
    obtain ⟨t, hdb⟩ := reset.db
    rw [hdb, requeued]
  | skip still found stays rest ih | dry still found moves dryRun rest ih => rw [ih, still.db]
  | move moved found moves dryRun sent rest ih =>
    obtain ⟨t, hdb⟩ := moved.db
    rw [ih, hdb, requeued]

/-- The dead letters that are deleted. -/
def deletedIds (qs : List Cmd) : List Nat := qs.filterMap fun
  | .delete .dlq id => some id
  | _ => none

namespace Redrives

variable {c c₁ : RedriveCounts} {ms ms' : List Message} {r : Except Exn RedriveCounts} {qs qs' : List Cmd} {x : Exn}

theorem dlq (h : Redrives args s c ms r s' qs) : s'.dlq = s.dlq.filter fun m => m.id ∉ deletedIds qs := by
  have none : ∀ {s s' : World}, s'.dlq = s.dlq → s'.dlq = s.dlq.filter fun m => m.id ∉ deletedIds [] := fun hs => by
    simp [hs, deletedIds]
  induction h with
  | done still | raise still found => exact none still.dlq
  | unsent reset found moves dryRun refused tried => rcases tried with rfl | rfl <;> exact none reset.dlq
  | skip still found stays rest ih => rw [ih, still.dlq]
  | dry still found moves dryRun rest ih => rw [ih, still.dlq]
  | @move _ _ _ _ raw _ _ qs _ moved found moves dryRun sent rest ih =>
    have hids : deletedIds (.sendMessage raw.body
      (redriveAttributes (dlqMessage raw)) :: .delete .dlq raw.id :: qs) =
        raw.id :: deletedIds qs := rfl
    rw [ih, moved.dlq, List.filter_filter, hids]
    refine List.filter_congr fun m _ => ?_
    rw [Bool.eq_iff_iff]
    simp [and_comm]

/-- If the redrive ends, every copy that it has sent is in the main queue. -/
theorem main (h : Redrives args s c ms (.ok c₁) s' qs) : s.main ⊆ s'.main ∧ ∀ body attributes,
    .sendMessage body attributes ∈ qs → ∃ m ∈ s'.main, m.body = body ∧ m.attributes = attributes := by
  generalize hok : (.ok c₁ : Except Exn RedriveCounts) = r₁ at h
  induction h with
  | done still => exact ⟨by rw [still.main]; exact List.Subset.refl _, fun _ _ h => by cases h⟩
  | raise still found => cases hok
  | unsent reset found moves dryRun refused tried => cases hok
  | skip still found stays rest ih => exact ⟨still.main ▸ (ih hok).1, (ih hok).2⟩
  | dry still found moves dryRun rest ih => exact ⟨still.main ▸ (ih hok).1, (ih hok).2⟩
  | move moved found moves dryRun sent rest ih =>
    have ih := ih hok
    have hsub := moved.main ▸ ih.1
    refine ⟨fun m hm => hsub (List.mem_append_left _ hm), fun body attributes hq => ?_⟩
    rcases List.mem_cons.mp hq with hq | hq
    · cases hq
      exact ⟨_, hsub (List.mem_append_right _ (List.mem_singleton.mpr rfl)), rfl, rfl⟩
    · rcases List.mem_cons.mp hq with hq | hq
      · cases hq
      · exact ih.2 body attributes hq

/-- Only messages that are well formed and not filtered out are deleted. -/
theorem deleted (h : Redrives args s c ms r s' qs) :
    ∀ id ∈ deletedIds qs, ∃ raw ∈ ms, raw.id = id ∧ Redrivable args raw := by
  induction h with
  | done still | raise still found => exact fun _ h => by cases h
  | unsent reset found moves dryRun refused tried => rcases tried with rfl | rfl <;> exact fun _ h => by cases h
  | skip still found stays rest ih | dry still found moves dryRun rest ih =>
    intro id hid
    obtain ⟨raw, hm, hr⟩ := ih id hid
    exact ⟨raw, List.mem_cons_of_mem _ hm, hr⟩
  | move moved found moves dryRun sent rest ih =>
    intro id hid
    rcases List.mem_cons.mp hid with rfl | hid
    · exact ⟨_, List.mem_cons_self, rfl, (moves_iff.mp moves).1⟩
    · obtain ⟨raw, hm, hr⟩ := ih id hid
      exact ⟨raw, List.mem_cons_of_mem _ hm, hr⟩

/-- The redrive ends if and only if no message makes it raise. -/
theorem ok_iff (h : Redrives args s c ms r s' qs) : (∃ c', r = .ok c') ↔ ∀ raw ∈ ms, Passable args s raw := by
  induction h with
  | done still => simp
  | raise still found => simp [passable_iff, found]
  | unsent reset found moves dryRun refused tried => simp [passable_iff, found, moves, dryRun, refused]
  | skip still found stays rest ih =>
    simp only [ih, passable_of_still still, List.forall_mem_cons]
    exact (and_iff_right (passable_iff.mpr ⟨_, found, by simp [stays]⟩)).symm
  | dry still found moves dryRun rest ih =>
    simp only [ih, passable_of_still still, List.forall_mem_cons]
    exact (and_iff_right (passable_iff.mpr ⟨_, found, by simp [dryRun]⟩)).symm
  | move moved found moves dryRun sent rest ih =>
    simp only [ih, passable_of_moved moved, List.forall_mem_cons]
    exact (and_iff_right (passable_iff.mpr ⟨_, found, fun _ _ => sent⟩)).symm

/-- A message that is well formed and not filtered out, and whose job has not succeeded, is sent and then deleted. -/
theorem moves (h : Redrives args s c ms (.ok c₁) s' qs) (hd : args.dryRun = false) {raw : Message} (hm : raw ∈ ms)
    (hr : Redrivable args raw) (hs : ∀ job, jobOf args raw = .ok job → statusOf s.db job ≠ some .succeeded) :
    [.sendMessage raw.body (redriveAttributes (dlqMessage raw)), .delete .dlq raw.id].Sublist qs := by
  generalize hok : (.ok c₁ : Except Exn RedriveCounts) = r₁ at h
  induction h with
  | done still => cases hm
  | raise still found => cases hok
  | unsent reset found moves dryRun refused tried => cases hok
  | skip still found stays rest ih =>
    rcases List.mem_cons.mp hm with rfl | hm
    · rw [moves_iff.mpr ⟨hr, hs _ (jobOf_of_decided found)⟩] at stays
      cases stays
    · exact ih hm (fun job hj => still.db ▸ hs job hj) hok
  | dry still found moves dryRun rest ih =>
    rw [hd] at dryRun
    cases dryRun
  | move moved found moves dryRun sent rest ih =>
    rcases List.mem_cons.mp hm with rfl | hm
    · exact .cons_cons _ (.cons_cons _ (List.nil_sublist _))
    · refine .cons _ (.cons _ (ih hm (fun job hj => ?_) hok))
      obtain ⟨t, hdb⟩ := moved.db
      rw [hdb, statusOf_requeue]
      split
      · simp
      · exact hs job hj

end Redrives

/-! ## What a redrive counts -/

/-- The message is moved, and its job is planned to be reset. -/
def plannedIn (args : RedriveArgs) (db : Database) (raw : Message) : Bool :=
  match jobOf args raw with
  | .ok job => (planOf args db raw job).moves && (planOf args db raw job).resetJob
  | .error _ => false

/-- The dead or failed job of a message that is moved. -/
def revivedJob? (args : RedriveArgs) (db : Database) (raw : Message) : Option Uuid :=
  match jobOf args raw with
  | .ok job => if (planOf args db raw job).moves then failedJob? db job else none
  | .error _ => none

namespace Redrives

variable {c c₁ : RedriveCounts} {ms : List Message} {qs : List Cmd}

theorem counts (h : Redrives args s c ms (.ok c₁) s' qs) : c₁.moved = c.moved + ms.countP (movedIn args s.db) ∧
    c₁.skipped = c.skipped + ms.countP fun raw => !movedIn args s.db raw := by
  generalize hok : (.ok c₁ : Except Exn RedriveCounts) = r₁ at h
  -- a message is counted where it belongs
  have split : ∀ {db : Database} {raw : Message} (ms : List Message) {b : Bool}, movedIn args db raw = b →
      (raw :: ms).countP (movedIn args db) = ms.countP (movedIn args db) + b.toNat ∧
      ((raw :: ms).countP fun raw => !movedIn args db raw) =
          (ms.countP fun raw => !movedIn args db raw) + (!b).toNat := by
    rintro db raw ms b rfl
    cases hb : movedIn args db raw <;> simp [hb]
  induction h with
  | done still =>
    cases hok
    exact ⟨rfl, rfl⟩
  | raise still found => cases hok
  | unsent reset found moves dryRun refused tried => cases hok
  | @skip s _ _ _ raw ms _ _ job still found stays rest ih =>
    obtain ⟨hm, hs⟩ := ih hok
    rw [still.db] at hm hs
    obtain ⟨hm', hs'⟩ := split ms (show movedIn args s.db raw =
      false by simp [movedIn, jobOf_of_decided found, stays])
    rw [hm, hs, hm', hs']
    exact ⟨rfl, by simp only [Bool.not_false, Bool.toNat_true]; omega⟩
  | @dry s _ _ _ raw ms _ _ job still found moves dryRun rest ih =>
    obtain ⟨hm, hs⟩ := ih hok
    rw [still.db] at hm hs
    obtain ⟨hm', hs'⟩ := split ms (show movedIn args s.db raw = true by simp [movedIn, jobOf_of_decided found, moves])
    rw [hm, hs, hm', hs']
    exact ⟨by simp only [Bool.toNat_true]; omega, rfl⟩
  | @move s _ _ _ raw ms _ _ job moved found moves dryRun sent rest ih =>
    obtain ⟨hm, hs⟩ := ih hok
    rw [movedIn_of_moved moved] at hm hs
    obtain ⟨hm', hs'⟩ := split ms (show movedIn args s.db raw = true by simp [movedIn, jobOf_of_decided found, moves])
    rw [hm, hs, hm', hs']
    exact ⟨by simp only [Bool.toNat_true]; omega, rfl⟩

/-- A dry run changes nothing, and counts the resets that are planned. -/
theorem dry_counts (h : Redrives args s c ms (.ok c₁) s' qs) (hd : args.dryRun = true) :
    Still s s' ∧ c₁.jobsReset = c.jobsReset + ms.countP (plannedIn args s.db) := by
  generalize hok : (.ok c₁ : Except Exn RedriveCounts) = r₁ at h
  induction h with
  | done still =>
    cases hok
    exact ⟨still, rfl⟩
  | raise still found => cases hok
  | unsent reset found moves dryRun refused tried => cases hok
  | @skip s _ _ _ raw ms _ _ job still found stays rest ih =>
    obtain ⟨hs, hr⟩ := ih hok
    rw [still.db] at hr
    have hp : plannedIn args s.db raw = false := by simp [plannedIn, jobOf_of_decided found, stays]
    refine ⟨still.trans hs, ?_⟩
    rw [hr, List.countP_cons_of_neg (by simp [hp])]
  | @dry s _ _ _ raw ms _ _ job still found moves dryRun rest ih =>
    obtain ⟨hs, hr⟩ := ih hok
    rw [still.db] at hr
    have hp : plannedIn args s.db raw =
      (planOf args s.db raw job).resetJob := by simp [plannedIn, jobOf_of_decided found, moves]
    refine ⟨still.trans hs, ?_⟩
    rw [hr, List.countP_cons, hp]
    cases (planOf args s.db raw job).resetJob
    · rfl
    · simp only [Bool.toNat_true, if_true]
      omega
  | move moved found moves dryRun sent rest ih =>
    rw [hd] at dryRun
    cases dryRun

theorem revivedJob?_of_moved {job : Option Uuid} {raw' : Message} (h : Moved raw' job s s') :
    revivedJob? args s'.db = fun raw => (revivedJob? args s.db raw).filter fun u =>
    decide (some u ≠ failedJob? s.db job) := by
  obtain ⟨t, hdb⟩ := h.db
  funext raw
  simp only [revivedJob?, hdb, moves_requeue, failedJob?_requeue]
  cases jobOf args raw with
  | error x => rfl
  | ok k =>
    dsimp only
    split <;> rfl

/-- The real run counts each job that is dead or failed once. -/
theorem real_counts (h : Redrives args s c ms (.ok c₁) s' qs) (hd : args.dryRun = false) :
    c₁.jobsReset = c.jobsReset + (ms.filterMap (revivedJob? args s.db)).toFinset.card := by
  generalize hok : (.ok c₁ : Except Exn RedriveCounts) = r₁ at h
  induction h with
  | done still =>
    cases hok
    rfl
  | raise still found => cases hok
  | unsent reset found moves dryRun refused tried => cases hok
  | @skip s _ _ _ raw ms _ _ job still found stays rest ih =>
    have hr := ih hok
    have hn : revivedJob? args s.db raw = none := by simp [revivedJob?, jobOf_of_decided found, stays]
    rw [hr, still.db, List.filterMap_cons_none hn]
  | dry still found moves dryRun rest ih =>
    rw [hd] at dryRun
    cases dryRun
  | @move s _ _ _ raw ms _ _ job moved found moves dryRun sent rest ih =>
    have hr := ih hok
    have hraw : revivedJob? args s.db raw =
      failedJob? s.db job := by simp [revivedJob?, jobOf_of_decided found, moves]
    rw [hr, revivedJob?_of_moved moved]
    cases hf : failedJob? s.db job with
    | none =>
      have hall : (fun raw => (revivedJob? args s.db raw).filter fun u => decide (some u ≠ none)) =
          revivedJob? args s.db := by
        funext raw
        cases revivedJob? args s.db raw <;> simp
      rw [List.filterMap_cons_none (hraw.trans hf), hall]
      rfl
    | some u =>
      -- the job is no longer there for later messages to reset
      have herase : (ms.filterMap fun raw =>
        (revivedJob? args s.db raw).filter fun v => decide (some v ≠ some u)).toFinset =
          (ms.filterMap (revivedJob? args s.db)).toFinset.erase u := by
        ext v
        simp only [List.mem_toFinset, List.mem_filterMap, Option.filter_eq_some_iff, decide_eq_true_eq,
          Finset.mem_erase,
          ne_eq, Option.some.injEq]
        constructor
        · rintro ⟨raw, hm, hv, hne⟩
          exact ⟨hne, raw, hm, hv⟩
        · rintro ⟨hne, raw, hm, hv⟩
          exact ⟨raw, hm, hv, hne⟩
      rw [herase, List.filterMap_cons_some (hraw.trans hf), List.toFinset_cons, ← Finset.erase_insert_eq_erase,
        ← Finset.card_erase_add_one (Finset.mem_insert_self u _)]
      simp only [Option.isSome_some, Bool.toNat_true]
      omega

end Redrives

/-- The message is moved although no row of its job has been found. -/
def unknownIn (args : RedriveArgs) (db : Database) (raw : Message) : Bool :=
  match jobOf args raw with
  | .ok job => (planOf args db raw job).moves && (statusOf db job).isNone
  | .error _ => false

theorem length_failedJob? (db : Database) (job : Option Uuid) : (failedJob? db job).toList.length =
    (decide (statusOf db job = some .dead ∨ statusOf db job = some .failed)).toNat := by
  cases job with
  | none => rfl
  | some u =>
    rw [failedJob?_some]
    by_cases h : statusOf db (some u) = some .dead ∨ statusOf db (some u) = some .failed
    · rw [if_pos h, decide_eq_true h]
      rfl
    · rw [if_neg h, decide_eq_false h]
      rfl

/-- A reset is planned for a message whose job is dead or failed, or not found. -/
theorem countP_plannedIn (db : Database) (ms : List Message) : ms.countP (plannedIn args db) =
    ms.countP (unknownIn args db) + (ms.filterMap (revivedJob? args db)).length := by
  have one : ∀ raw, (plannedIn args db raw).toNat =
      (unknownIn args db raw).toNat + (revivedJob? args db raw).toList.length := by
    intro raw
    unfold plannedIn unknownIn revivedJob?
    split
    · rename_i job hjob
      cases hm : (planOf args db raw job).moves with
      | false => rfl
      | true =>
        have hreset : (planOf args db raw job).resetJob =
            ((statusOf db job).isNone || decide (statusOf db job = some .dead ∨ statusOf db job = some .failed)) := by
          rw [Bool.eq_iff_iff, resetJob_iff hm]
          simp
        rw [if_pos rfl, hreset, length_failedJob?]
        cases statusOf db job with
        | none => rfl
        | some st => simp
    · rfl
  have count : ∀ (p : Message → Bool) (raw : Message) (ms : List Message),
      (raw :: ms).countP p = ms.countP p + (p raw).toNat :=
    fun p raw ms => by cases h : p raw <;> simp [h]
  induction ms with
  | nil => rfl
  | cons raw ms ih =>
    have hlen : ((raw :: ms).filterMap (revivedJob? args db)).length =
        (revivedJob? args db raw).toList.length + (ms.filterMap (revivedJob? args db)).length := by
      cases h : revivedJob? args db raw with
      | none => simp [List.filterMap_cons_none h]
      | some u =>
        rw [List.filterMap_cons_some h]
        simp [Nat.add_comm]
    rw [count, count, hlen, ih, one]
    omega

/-- Two redrives that have received the same messages, one of them without a change, report the same if and only if
the row of each job has been found, and no two messages have the same dead or failed job. -/
theorem Redrives.predicts_iff {ms ms' : List Message} {c c' : RedriveCounts} {qs qs' : List Cmd}
    (h : Redrives { args with dryRun := true } s {} ms (.ok c) s₁ qs)
    (h' : Redrives { args with dryRun := false } s {} ms' (.ok c') s₂ qs') (hp : ms.Perm ms') :
    c = c' ↔ (∀ raw ∈ ms, unknownIn args s.db raw = false) ∧ (ms.filterMap (revivedJob? args s.db)).Nodup := by
  obtain ⟨hm, hs⟩ := h.counts
  obtain ⟨hm', hs'⟩ := h'.counts
  obtain ⟨-, hr⟩ := h.dry_counts rfl
  have hr' := h'.real_counts rfl
  have hmoved : c.moved = c'.moved := by
    rw [hm, hm', ← hp.countP_eq]
    rfl
  have hskipped : c.skipped = c'.skipped := by
    rw [hs, hs', ← hp.countP_eq]
    rfl
  have hreset : c.jobsReset = ms.countP (unknownIn args s.db) + (ms.filterMap (revivedJob? args s.db)).length := by
    rw [hr, ← countP_plannedIn]
    exact Nat.zero_add _
  have hreset' : c'.jobsReset = (ms.filterMap (revivedJob? args s.db)).toFinset.card := by
    rw [hr', List.toFinset_eq_of_perm _ _ (hp.filterMap _)]
    exact Nat.zero_add _
  have hle := List.toFinset_card_le (ms.filterMap (revivedJob? args s.db))
  have heq : c = c' ↔ c.jobsReset = c'.jobsReset := by
    refine ⟨fun h => h ▸ rfl, fun h => ?_⟩
    cases c
    cases c'
    simp_all
  have hnodup : (ms.filterMap (revivedJob? args s.db)).Nodup ↔
      (ms.filterMap (revivedJob? args s.db)).toFinset.card = (ms.filterMap (revivedJob? args s.db)).length :=
    (Multiset.toFinset_card_eq_card_iff_nodup (m := (ms.filterMap (revivedJob? args s.db) : Multiset Uuid))).symm
  have hunknown : (∀ raw ∈ ms, unknownIn args s.db raw = false) ↔ ms.countP (unknownIn args s.db) = 0 := by
    simp [List.countP_eq_zero]
  rw [heq, hreset, hreset', hunknown, hnodup]
  omega

end CM
