import ContentModeration.Framework.Progress
import ContentModeration.Proof.Requests
import ContentModeration.Proof.Service

/-!
# Calls that wait for each other

A statement waits for another call's open transaction if both write the same row or the same unique
key. Calls that wait for each other would wait for good, but there are none: the first row that a
transaction inserts, a content item or a decision, has a unique key (`Anchor`), and everything that
the transaction writes after it belongs to that row. So whoever has written something finds the rest
free (`holder_served`). A call that waits has written nothing, it waits for one that is served
(`waits_for_served`), and the calls that it waits for can end its wait by themselves (`wait_ends`).

How far a transaction has come is read off its requests (`holding`). Only two programs open one:
`persistJob` and `persistEnvelope`. A statement outside a transaction takes its rows in one step
here, so the rows that one UPDATE locks one after another are not part of this.
-/

namespace CM

open Database World

variable {D : Deployment} {s s' : World} {i j : Nat} {u : Uuid} {α β : Type}

/-! ## What a transaction writes -/

/-- The first row that a transaction inserts. -/
inductive Anchor where
  | content (row : ContentItem)
  | decision (row : DecisionRow)

def Anchor.write : Anchor → Write
  | .content row => .content row
  | .decision row => .decision row

/-- A later write of a transaction whose thread has drawn the identifiers `drawn`. -/
def Anchor.Guards (drawn : List Uuid) : Anchor → Write → Prop
  | .content row, .job job => job.id ∈ drawn ∧ job.contentHash = row.contentHash
  | .decision row, .updateJob id _ => id = row.envelope.jobId
  | .decision row, .review review => review.decisionId = row.id
  | _, .audit _ | _, .metric _ => True
  | _, _ => False

/-- A statement that makes only such writes. -/
def Anchor.Allows (drawn : List Uuid) : Anchor → Sql → Prop
  | .content row, .insertJob id _ hash => id ∈ drawn ∧ hash = row.contentHash
  | .decision row, .markSucceeded id => id = row.envelope.jobId
  | .decision row, .insertReview id .. => id = row.id
  | _, .insertAudit _ | _, .insertMetric .. => True
  | _, _ => False

/-- The statements that may be the first of a transaction, and those that only read. -/
def Sql.Opens : Sql → Prop
  | .insertContent _ | .insertDecision _ | .jobByHash _ | .decisionEnvelope _ => True
  | _ => False

theorem Anchor.guards_of_makes {a : Anchor} {drawn : List Uuid} {db : Database} {t : Time} {st : Sql} {w : Write}
    (ha : a.Allows drawn st) (hm : db.Makes t st w) : a.Guards drawn w := by
  cases hm <;> cases a <;> first | exact ha | trivial

/-- The keys of an anchor and of the writes that it guards. -/
theorem Anchor.conflicts_of_guards {a b : Anchor} {drawn drawn' : List Uuid} {w w' : Write}
    (hkeys : a.write.keys.Disjoint b.write.keys) (hdrawn : drawn.Disjoint drawn') (hw : a.Guards drawn w)
    (hw' : w' = b.write ∨ b.Guards drawn' w') (hc : w.conflicts w' = true) :
    ∃ r r', w = .review r ∧ w' = .review r' ∧ r.id = r'.id := by
  rcases hw' with rfl | hw'
  · cases a <;> cases b <;> cases w <;>
      simp_all [Anchor.Guards, Anchor.write, Write.conflicts, Write.sameRow, Write.keys, List.Disjoint]
  · cases a <;> cases b <;> cases w <;> cases w' <;>
      simp_all [Anchor.Guards, Anchor.write, Write.conflicts, Write.sameRow, Write.keys, List.Disjoint]

/-! ## The phases of a transaction -/

/-- How far a call's transaction has come. -/
inductive TxnPhase where
  | outside
  | opened
  | anchored (a : Anchor)
  | failed

/-- The transaction of a call, and the identifiers that the call has drawn. -/
structure Holding where
  drawn : List Uuid := []
  txn : TxnPhase := .outside

namespace Holding

/-- The statements that may be made in the transaction. -/
def AllowsSql (x : Holding) (st : Sql) : Prop :=
  match x.txn with
  | .opened => st.Opens
  | .anchored a => a.Allows x.drawn st
  | .outside | .failed => True

def Allows (x : Holding) : Cmd → Prop
  | .sql st => x.AllowsSql st
  | .commit | .rollback => True
  | _ => x.txn = .outside

/-- The phase after a statement that has answered. -/
def afterSql (x : Holding) : (st : Sql) → st.Ans → Holding
  | .insertContent row, _ => match x.txn with
    | .opened => { x with txn := .anchored (.content row) }
    | _ => x
  | .insertDecision envelope, some id => match x.txn with
    | .opened => { x with txn := .anchored (.decision ⟨id, envelope⟩) }
    | _ => x
  | _, _ => x

/-- A statement that raises in a transaction breaks it. -/
def broken (x : Holding) : Holding :=
  match x.txn with
  | .outside => x
  | _ => { x with txn := .failed }

def after (x : Holding) : (q : Cmd) → Except Exn q.Ans → Holding
  | .begin, .ok _ => { x with txn := .opened }
  | .commit, _ | .rollback, _ => { x with txn := .outside }
  | .uuid4, .ok u => { x with drawn := u :: x.drawn }
  | .sql st, .ok a => x.afterSql st a
  | .sql _, .error _ => x.broken
  | _, _ => x

end Holding

/-- The monitor of transactions. -/
def holding : Monitor iface Exn where
  Phase := Holding
  init := {}
  allows := Holding.Allows
  after := Holding.after

/-! ## What is known in a phase -/

/-- What the phase says of the transaction of thread `i`. -/
def TxnPhase.Known (i : Nat) (drawn : List Uuid) (s : World) : TxnPhase → Prop
  | .outside => s.txn i = none
  | .opened => ∃ t, s.txn i = some (.active t [])
  | .anchored a => ∃ t ws, s.txn i = some (.active t (a.write :: ws)) ∧ ∀ w ∈ ws, a.Guards drawn w
  | .failed => s.txn i = some .aborted

structure Holding.Known (i : Nat) (x : Holding) (s : World) : Prop where
  drawn : ∀ u ∈ x.drawn, (u, i) ∈ s.drawn
  txn : x.txn.Known i x.drawn s

/-- A statement in a transaction raises and breaks it, or adds its writes. -/
theorem runSql_active {st : Sql} {p : Pick} {r : Except Exn st.Ans} {t : Time} {ws : List Write}
    (ht : s.txn i = some (.active t ws)) (hx : s.runSql i st p = some (r, s')) :
    (∃ x, r = .error x ∧ s' = s.setTxn i (some .aborted)) ∨
    ∃ a ws', r = .ok a ∧ st.run (s.db.applyAll ws) t p.fresh = .ok (a, ws') ∧
      s' = s.setTxn i (some (.active t (ws ++ ws'))) := by
  simp only [runSql, ht] at hx
  split at hx
  · rename_i a ws' _ hrun
    split at hx
    · cases hx
    · cases hx
      exact .inr ⟨a, ws', rfl, Sql.run_of_execute hrun, rfl⟩
  all_goals
    cases hx
    exact .inl ⟨_, rfl, rfl⟩

theorem Holding.Known.txn_eq {x : Holding} (h : x.Known i s) (hd : s.drawn ⊆ s'.drawn) (ht : s'.txn i = s.txn i) :
    x.Known i s' := by
  refine ⟨fun u hu => hd (h.drawn u hu), ?_⟩
  have hx := h.txn
  unfold TxnPhase.Known at hx ⊢
  rwa [ht]

theorem Holding.afterSql_of_outside {x : Holding} (h : x.txn = .outside) (st : Sql) (a : st.Ans) :
    x.afterSql st a = x := by
  cases st with
  | insertContent row => simp only [afterSql, h]
  | insertDecision envelope => cases a <;> simp only [afterSql, h]
  | _ => rfl

theorem Holding.broken_eq {x : Holding} (h : x.txn ≠ .outside) : x.broken = { x with txn := .failed } := by
  unfold broken
  split
  · rename_i ho
    exact absurd ho h
  · rfl

theorem Holding.Known.breaks {x : Holding} (h : x.Known i s) (hx : x.txn ≠ .outside) :
    x.broken.Known i (s.setTxn i (some .aborted)) := by
  rw [broken_eq hx]
  exact ⟨h.drawn, txn_setTxn_self ..⟩

/-- A statement leads from what is known in a phase to what is known in the next. -/
theorem Holding.Known.sql {x : Holding} {st : Sql} {p : Pick} {r : Except Exn st.Ans} (h : x.Known i s)
    (ha : x.AllowsSql st) (hx : s.runSql i st p = some (r, s')) : (x.after (.sql st) r).Known i s' := by
  obtain ⟨drawn, txn⟩ := x
  have hk := h.txn
  cases txn with
  | outside =>
    have hsame : s'.drawn = s.drawn ∧ s'.txn i = s.txn i := by
      rcases runSql_idle hk hx with ⟨rfl, -⟩ | ⟨a, ws, -, -, rfl⟩ <;> exact ⟨rfl, rfl⟩
    have hafter : Holding.after ⟨drawn, .outside⟩ (.sql st) r = ⟨drawn, .outside⟩ := by
      cases r with
      | ok a => exact afterSql_of_outside (x := ⟨drawn, .outside⟩) rfl st a
      | error y => rfl
    rw [hafter]
    exact h.txn_eq (by rw [hsame.1]; exact List.Subset.refl _) hsame.2
  | opened =>
    obtain ⟨t, ht⟩ := hk
    rcases runSql_active ht hx with ⟨y, rfl, rfl⟩ | ⟨a, ws', rfl, hrun, rfl⟩
    · exact h.breaks (by simp)
    · have hset := txn_setTxn_self s i (some (.active t ([] ++ ws')))
      cases st with
      | insertContent row =>
        rw [run_insertContent hrun] at hset ⊢
        exact ⟨h.drawn, t, [], hset, fun w hw => by cases hw⟩
      | insertDecision envelope =>
        rcases run_insertDecision hrun with ⟨rfl, hws, -⟩ | ⟨id, rfl, hws, -⟩
        · rw [hws] at hset ⊢
          exact ⟨h.drawn, t, hset⟩
        · rw [hws] at hset ⊢
          exact ⟨h.drawn, t, [], hset, fun w hw => by cases hw⟩
      | jobByHash digest | decisionEnvelope job =>
        cases hrun
        exact ⟨h.drawn, t, hset⟩
      | _ => exact ha.elim
  | anchored a =>
    obtain ⟨t, ws, ht, hws⟩ := hk
    rcases runSql_active ht hx with ⟨y, rfl, rfl⟩ | ⟨b, ws', rfl, hrun, rfl⟩
    · exact h.breaks (by simp)
    · have hafter : Holding.after ⟨drawn, .anchored a⟩ (.sql st) (.ok b) = ⟨drawn, .anchored a⟩ := by
        cases st with
        | insertContent row => cases a <;> exact ha.elim
        | insertDecision envelope => cases a <;> exact ha.elim
        | _ => rfl
      rw [hafter]
      refine ⟨h.drawn, t, ws ++ ws', txn_setTxn_self .., fun w hw => ?_⟩
      rcases List.mem_append.mp hw with hw | hw
      · exact hws w hw
      · exact Anchor.guards_of_makes ha (makes_of_run hrun w hw)
  | failed =>
    have hk : s.txn i = some .aborted := hk
    simp only [runSql, hk] at hx
    cases hx
    exact ⟨h.drawn, hk⟩

/-- So does every request. -/
theorem Holding.Known.own {x : Holding} {q : Cmd} {p : Pick} {r : Except Exn q.Ans} (h : x.Known i s) (hi : Inv s)
    (hc : Contract D i s q) (ha : x.Allows q) (hx : World.exec i q p s = some (r, s')) :
    (x.after q r).Known i s' := by
  have idle : x.txn = .outside → s.txn i = none := fun ho => by
    have := h.txn
    rwa [ho] at this
  have outside : x.txn = .outside → Ordinary q → x.Known i s' := fun ho hq => by
    have hk : Kept i s s' := kept_of_change hi hc (change_of_exec hx) (.inr ⟨hq, idle ho⟩)
    exact h.txn_eq hk.grows.drawn hk.txn
  cases q with
  | sql st => exact h.sql ha hx
  | begin =>
    have ho : x.txn = .outside := ha
    simp only [World.exec] at hx
    split at hx
    · cases hx
      exact ⟨h.drawn, _, txn_setTxn_self ..⟩
    all_goals
      cases hx
      exact h
  | commit =>
    simp only [World.exec, runCommit] at hx
    split at hx <;> cases hx <;> exact ⟨h.drawn, txn_finish_self ..⟩
  | rollback =>
    simp only [World.exec] at hx
    cases hx
    exact ⟨h.drawn, txn_finish_self ..⟩
  | uuid4 =>
    have ho : x.txn = .outside := ha
    simp only [World.exec] at hx
    split at hx
    · cases hx
    · cases hx
      refine ⟨fun u hu => ?_, ?_⟩
      · rcases List.mem_cons.mp hu with rfl | hu
        · exact List.mem_cons_self
        · exact List.mem_cons_of_mem _ (h.drawn u hu)
      · show TxnPhase.Known i _ _ x.txn
        rw [ho]
        exact idle ho
  | utcnow =>
    simp only [World.exec] at hx
    cases hx
    exact h.txn_eq (List.Subset.refl _) rfl
  | _ => exact outside ha trivial

/-! ## Every call follows the phases -/

/-- A request that leaves the phase outside transactions. -/
def Cmd.Plain : Cmd → Prop
  | .begin | .commit | .rollback | .uuid4 => False
  | _ => True

/-- From outside transactions, the program ends outside them, knowing the identifiers it knew. -/
def Anchored (drawn : List Uuid) (p : M α) : Prop :=
  p.Follows holding (fun _ x => x = ⟨drawn, .outside⟩) ⟨drawn, .outside⟩

namespace Anchored

variable {drawn : List Uuid} {p : M α}

theorem of_plain (hp : p.Only Cmd.Plain) : Anchored drawn p := by
  refine Prog.Follows.of_only (hp.mono fun q hq => ?_)
  cases q with
  | sql st =>
    refine ⟨trivial, fun r => ?_⟩
    cases r with
    | ok a => exact Holding.afterSql_of_outside (x := ⟨drawn, .outside⟩) rfl st a
    | error y => rfl
  | begin | commit | rollback | uuid4 => exact hq.elim
  | _ => exact ⟨rfl, fun r => rfl⟩

theorem bind {f : α → M β} (hp : Anchored drawn p) (hf : ∀ a, Anchored drawn (f a)) : Anchored drawn (p >>= f) := by
  refine Prog.Follows.bind (hp.mono fun r x hx => ?_)
  subst hx
  cases r with
  | ok a => exact hf a
  | error y => rfl

theorem attempt (hp : Anchored drawn p) : Anchored drawn p.attempt := Prog.Follows.attempt hp

theorem ask {q : Cmd} (hq : q.Plain) : Anchored drawn (request q) := of_plain (.ask hq)

theorem stmt {st : Sql} : Anchored drawn (sql st) := of_plain (.stmt trivial)

theorem raise (y : Exn) : Anchored drawn (throw y : M α) := rfl

theorem ofExcept (r : Except Exn α) : Anchored drawn (Prog.ofExcept r : M α) := by cases r <;> rfl

/-- A transaction whose body makes only statements that are allowed. -/
theorem transaction (hp : p.Follows holding (fun _ x => x.drawn = drawn) ⟨drawn, .opened⟩) :
    Anchored drawn (transaction p) := by
  refine ⟨rfl, fun r => ?_⟩
  cases r with
  | error y => rfl
  | ok _ =>
    show Prog.Follows holding _ ⟨drawn, .opened⟩ (p.attempt >>= _)
    refine Prog.Follows.bind (Prog.Follows.attempt (hp.mono fun r x hx => ?_))
    have out : ({ x with txn := .outside } : Holding) = ⟨drawn, .outside⟩ := by rw [hx]
    cases r with
    | ok a => exact ⟨trivial, fun r => by cases r <;> exact out⟩
    | error y => exact ⟨trivial, fun r => by cases r <;> exact out⟩

end Anchored

/-! ### The worker -/

/-- A statement of a transaction, and what follows it in the phase that it leads to. -/
theorem follows_stmt {E : Except Exn β → Holding → Prop} {st : Sql} {f : st.Ans → M β} {x : Holding}
    (ha : x.AllowsSql st) (he : ∀ y, E (.error y) x.broken)
    (hf : ∀ a, (f a).Follows holding E (x.afterSql st a)) : (sql st >>= f).Follows holding E x := by
  refine ⟨ha, fun r => ?_⟩
  cases r with
  | ok a => exact hf a
  | error y => exact he y

theorem persistEnvelope_anchored (drawn : List Uuid) (envelope : DecisionEnvelope) :
    Anchored drawn (persistEnvelope envelope) := by
  refine .transaction (follows_stmt trivial (fun _ => rfl) fun found => ?_)
  cases found with
  | none =>
    refine follows_stmt trivial (fun _ => rfl) fun stored => ?_
    cases stored <;> rfl
  | some id =>
    refine follows_stmt rfl (fun _ => rfl) fun _ => follows_stmt trivial (fun _ => rfl) fun _ =>
      follows_stmt trivial (fun _ => rfl) fun _ => ?_
    split
    · exact follows_stmt rfl (fun _ => rfl) fun _ => follows_stmt trivial (fun _ => rfl) fun _ => rfl
    · rfl

variable {drawn : List Uuid}

theorem processJob_anchored (settings : WorkerSettings) (job : JobMessage) :
    Anchored drawn (processJob settings job) := by
  refine .bind (.ask trivial) fun _ => .bind .stmt fun found => ?_
  cases found with
  | some id =>
    refine .bind .stmt fun stored => ?_
    cases stored <;> rfl
  | none =>
    exact .bind .stmt fun _ => .bind (.ask trivial) fun _ => .bind (.ofExcept _) fun _ =>
      .bind (.ask trivial) fun _ =>
      .bind (.ask trivial) fun _ => .bind (.ask trivial) fun _ => .bind (.ofExcept _) fun _ =>
        persistEnvelope_anchored _ _

theorem markFailed_anchored (job : Uuid) (error : String) : Anchored drawn (markFailed job error) := by
  refine .bind .stmt fun found => ?_
  cases found with
  | none => rfl
  | some _ => exact .bind .stmt fun _ => .stmt

theorem handleJob_anchored (settings : WorkerSettings) (job : JobMessage) :
    Anchored drawn (handleJob settings job) := by
  refine .bind (.ask trivial) fun _ => .bind .stmt fun status => ?_
  split
  · rfl
  · refine .bind (processJob_anchored settings job).attempt fun r => ?_
    split
    · rfl
    · exact .bind (markFailed_anchored _ _) fun _ => .bind (.ask trivial) fun _ => .raise _
    · exact .bind (markFailed_anchored _ _) fun _ => .bind (.ask trivial) fun _ => .raise _

theorem handleMessage_anchored (settings : WorkerSettings) (body : Json) :
    Anchored drawn (handleMessage settings body) :=
  .bind (.ofExcept _) fun _ => handleJob_anchored settings _

theorem consume_anchored (settings : WorkerSettings) (b : RawBody) : Anchored drawn (consume settings b) := by
  simp only [consume]
  split
  · exact .raise _
  · exact .raise _
  · exact handleMessage_anchored settings _
  · exact .raise _

theorem deliverAllSqs_anchored (settings : WorkerSettings) (ms : List Message) :
    Anchored drawn (deliverAllSqs settings ms) := by
  induction ms with
  | nil => rfl
  | cons msg ms ih =>
    refine .bind (.bind (Anchored.attempt
      (.bind (consume_anchored settings msg.body) fun _ => .ask trivial)) fun r => ?_)
      fun _ => ih
    split
    · rfl
    · exact .ask trivial
    · rfl

theorem pollSqs_anchored (settings : WorkerSettings) (rounds : Nat) : Anchored drawn (pollSqs settings rounds) := by
  induction rounds with
  | zero => rfl
  | succ rounds ih =>
    refine .bind (Anchored.attempt (.ask trivial)) fun r => ?_
    split
    · exact .bind (.ask trivial) fun _ => ih
    · exact .bind (deliverAllSqs_anchored settings _) fun _ => ih

theorem deliverPubsub_anchored (settings : WorkerSettings) (acks : Acks) (received : List Message) :
    Anchored drawn (deliverPubsub settings acks received) := by
  induction received generalizing acks with
  | nil => rfl
  | cons msg received ih =>
    refine .bind (consume_anchored settings msg.body).attempt fun r => ?_
    split <;> exact ih _

theorem pollPubsub_anchored (settings : WorkerSettings) (rounds : Nat) :
    Anchored drawn (pollPubsub settings rounds) := by
  simp only [pollPubsub]
  split
  · exact .raise _
  · induction rounds with
    | zero => rfl
    | succ rounds ih =>
      refine .bind (Anchored.attempt (.ask trivial)) fun r => ?_
      split
      · split
        · exact ih
        · exact .bind (.ask trivial) fun _ => ih
      · refine .bind (deliverPubsub_anchored settings {} _) fun acks => .bind (.of_plain ?_) fun _ => ih
        exact (settle_only acks).mono fun q hq => by cases q <;> trivial

/-! ### The other calls -/

theorem redrive_anchored (args : RedriveArgs) : Anchored drawn (redrive args) := by
  have message : ∀ counts raw, Anchored drawn (redriveMessage args counts raw) := fun counts raw =>
    .of_plain ((redriveMessage_asks args counts raw).mono fun q hq => by cases hq <;> trivial)
  have messages : ∀ ms counts, Anchored drawn (redriveMessages args counts ms) := by
    intro ms
    induction ms with
    | nil => exact fun _ => rfl
    | cons raw ms ih => exact fun counts => .bind (message counts raw) fun _ => ih _
  have loop : ∀ rounds remaining counts, Anchored drawn (redriveLoop args rounds remaining counts) := by
    intro rounds
    induction rounds with
    | zero => exact fun _ _ => rfl
    | succ rounds ih =>
      intro remaining counts
      simp only [redriveLoop]
      split
      · rfl
      refine .bind (.ask trivial) fun ms => ?_
      split
      · rfl
      · exact .bind (messages _ _) fun _ => ih _ _
  have run : Anchored drawn (do
      let counts ← redriveLoop args args.limit args.limit {}
      return ({ exitCode := 0, counts } : RedriveReport) : M RedriveReport) := .bind (loop _ _ _) fun _ => rfl
  simp only [redrive]
  split
  · rfl
  · refine .bind (.ask trivial) fun _ => .bind (.ask trivial) fun _ => ?_
    split
    · exact run
    · refine .bind (Anchored.attempt (.ask trivial)) fun connected => ?_
      cases connected with
      | error y => rfl
      | ok _ => exact run

theorem releaseExpiredClaims_plain (isolation : Isolation) (now : Time) :
    (releaseExpiredClaims isolation now).Only Cmd.Plain := by
  have audits : ∀ rows, (auditReleased rows).Only Cmd.Plain := by
    intro rows
    induction rows with
    | nil => trivial
    | cons row rows ih => exact .bind (.stmt trivial) fun _ => ih
  refine .bind ?_ fun rows => .bind (audits rows) fun _ => trivial
  cases isolation with
  | atomic => exact .stmt trivial
  | readCommitted => exact .bind (.stmt trivial) fun _ => .stmt trivial

theorem Cmd.Quiet.plain {q : Cmd} (h : q.Quiet) : q.Plain := by
  cases q <;> trivial

theorem listReviews_plain (isolation : Isolation) (req : ListRequest) :
    (listReviews isolation req).Only Cmd.Plain := by
  have rows : ∀ full, (rowsToReviews full).Only Cmd.Plain := fun full =>
    (rowsToReviews_only full).mono fun _ hq => hq.plain
  refine .bind (.ask trivial) fun _ => .bind (.ask trivial) fun now =>
    .bind (releaseExpiredClaims_plain isolation now) fun _ => ?_
  split <;> exact .bind (.stmt trivial) fun full => rows full

theorem claimReview_plain (isolation : Isolation) (reviewId : Uuid) (body : ClaimRequest) :
    (claimReview isolation reviewId body).Only Cmd.Plain := by
  refine .bind (.ask trivial) fun now => .bind ?_ fun acquired => ?_
  · exact (acquireReviewClaim_only _ _ _).mono fun _ hq => hq.plain
  dsimp only
  split
  · refine .bind (.ask trivial) fun _ => .bind (releaseExpiredClaims_plain isolation now) fun _ =>
      .bind (.stmt trivial) fun claimed => ?_
    cases claimed with
    | none =>
      refine .bind ((releaseReviewClaim_only _ _).mono fun _ hq => hq.plain) fun _ =>
        .bind (.stmt trivial) fun found => ?_
      cases found <;> trivial
    | some id =>
      exact .bind (.stmt trivial) fun full => .bind (.stmt trivial) fun _ =>
        (fullToReview_only full).mono fun _ hq => hq.plain
  · trivial

theorem resolveReview_plain (reviewId : Uuid) (body : ResolveRequest) :
    (resolveReview reviewId body).Only Cmd.Plain := by
  refine .bind (.ask trivial) fun now => .bind (.ask trivial) fun owner => ?_
  cases owner with
  | none => trivial
  | some owner =>
    dsimp only
    split
    · trivial
    · refine .bind (.ask trivial) fun _ => .bind (.stmt trivial) fun model => ?_
      cases model with
      | none => trivial
      | some model =>
        dsimp only
        split
        · trivial
        · refine .bind (.stmt trivial) fun resolved => ?_
          cases resolved with
          | none => trivial
          | some id =>
            exact .bind (.stmt trivial) fun _ => .bind (.stmt trivial) fun full =>
              .bind ((releaseReviewClaim_only _ _).mono fun _ hq => hq.plain) fun _ =>
                (fullToReview_only full).mono fun _ hq => hq.plain

theorem persistJob_anchored {content : ContentItem} {jobId : Uuid} (tenantId : String) (h : jobId ∈ drawn) :
    Anchored drawn (persistJob content jobId tenantId) := by
  -- a statement that has failed leads to the handler, whose lookup is allowed then
  have handled : ∀ {f : Option JobRef → M (Option IngestResponse)} (x : Holding) (y : Exn),
      f none = throw y → (∀ j, ∃ r, f (some j) = pure r) → x.drawn = drawn → x.txn = .failed →
      Prog.Follows holding (fun _ z => z.drawn = drawn) x
        (if y.isDuplicate = true then sql (.jobByHash content.contentHash) >>= f else throw y) := by
    intro f x y hnone hsome hd hx
    have hbroken : x.broken.drawn = drawn := by
      rw [Holding.broken_eq (by simp [hx])]
      exact hd
    split
    · refine follows_stmt (by simp [Holding.AllowsSql, hx]) (fun _ => hbroken) fun found => ?_
      cases found with
      | none =>
        rw [hnone]
        exact hd
      | some j =>
        obtain ⟨r, hr⟩ := hsome j
        rw [hr]
        exact hd
    · exact hd
  refine .transaction (Prog.Follows.bind (Prog.Follows.attempt ?_))
  refine follows_stmt trivial (fun y => handled _ y rfl (fun j => ⟨_, rfl⟩) rfl rfl) fun _ =>
    follows_stmt ⟨h, rfl⟩ (fun y => handled _ y rfl (fun j => ⟨_, rfl⟩) rfl rfl) fun _ =>
      follows_stmt trivial (fun y => handled _ y rfl (fun j => ⟨_, rfl⟩) rfl rfl) fun _ => rfl

/-- An identifier is drawn, and known from then on. -/
theorem follows_draw {E : Except Exn β → Holding → Prop} {f : Uuid → M β}
    (he : ∀ y, E (.error y) ⟨drawn, .outside⟩) (hf : ∀ u, (f u).Follows holding E ⟨u :: drawn, .outside⟩) :
    (request .uuid4 >>= f).Follows holding E ⟨drawn, .outside⟩ := by
  refine ⟨rfl, fun r => ?_⟩
  cases r with
  | ok u => exact hf u
  | error y => exact he y

theorem Anchored.ends {p : M α} (h : Anchored drawn p) :
    p.Follows holding (fun _ x => x.txn = .outside) ⟨drawn, .outside⟩ :=
  h.mono fun _ _ hx => by rw [hx]

theorem Anchored.then {p : M α} {f : α → M β} (h : Anchored drawn p)
    (hf : ∀ a, (f a).Follows holding (fun _ x => x.txn = .outside) ⟨drawn, .outside⟩) :
    (p >>= f).Follows holding (fun _ x => x.txn = .outside) ⟨drawn, .outside⟩ := by
  refine Prog.Follows.bind (h.mono fun r x hx => ?_)
  subst hx
  cases r with
  | ok a => exact hf a
  | error y => rfl

theorem sendJob_anchored (settings : ApiSettings) (carrier : List (String × String)) (content : ContentItem)
    (jobId : Uuid) : Anchored drawn (sendJob settings carrier content jobId) := by
  refine .bind (Anchored.attempt (.ask trivial)) fun r => ?_
  split
  · rfl
  · exact .bind (.ask trivial) fun _ => .bind .stmt fun _ => .raise _

theorem acceptImage_anchored (sha256 : Digest) (settings : ApiSettings) (req : IngestRequest) :
    (acceptImage sha256 settings req).Follows holding (fun _ x => x.txn = .outside) ⟨[], .outside⟩ := by
  simp only [acceptImage]
  split
  · rfl
  split
  · rfl
  split
  · rfl
  refine Anchored.then (.ask trivial) fun _ => Anchored.then .stmt fun found => ?_
  cases found with
  | some j => rfl
  | none =>
    refine Anchored.then (.ask trivial) fun acquired => ?_
    split
    · refine follows_draw (fun _ => rfl) fun contentId => follows_draw (fun _ => rfl) fun jobId => ?_
      refine Anchored.then (Anchored.attempt (.ask trivial)) fun stored => ?_
      split
      · rfl
      · refine Anchored.then (.ask trivial) fun _ =>
          Anchored.then (persistJob_anchored _ List.mem_cons_self) fun found => ?_
        split
        · rfl
        · exact (sendJob_anchored ..).ends
    · refine (Anchored.bind (Anchored.ask (q := .connect) trivial) fun _ => .of_plain ?_).ends
      exact (awaitIngest_only _ 20).mono fun q hq => by cases q <;> trivial

/-- Every call follows the phases, and ends outside transactions. -/
theorem code_anchored (D : Deployment) (e : Entry) :
    (e.code D).Follows holding (fun _ x => x.txn = .outside) holding.init := by
  have rest : ∀ {α : Type} {p : M α} {f : α → M Out}, Anchored [] p → (∀ a, Anchored [] (f a)) →
      (p >>= f).Follows holding (fun _ x => x.txn = .outside) ⟨[], .outside⟩ := fun hp hf => (hp.bind hf).ends
  cases e with
  | acceptImage settings req =>
    refine Prog.Follows.bind ((acceptImage_anchored D.sha256 settings req).mono fun r x hx => ?_)
    cases r <;> exact hx
  | handleMessage settings body => exact rest (handleMessage_anchored settings body) fun _ => rfl
  | pollSqs settings rounds => exact rest (pollSqs_anchored settings rounds) fun _ => rfl
  | pollPubsub settings rounds => exact rest (pollPubsub_anchored settings rounds) fun _ => rfl
  | redrive args => exact rest (redrive_anchored args) fun _ => rfl
  | listReviews req => exact rest (.of_plain (listReviews_plain D.isolation req)) fun _ => rfl
  | claimReview reviewId body => exact rest (.of_plain (claimReview_plain D.isolation reviewId body)) fun _ => rfl
  | resolveReview reviewId body => exact rest (.of_plain (resolveReview_plain reviewId body)) fun _ => rfl

/-! ## Runs -/

/-- In every run, each call is in a phase of its transaction. -/
theorem holding_of_run {now : Time} {h : List (service D).Step} {c : (service D).Config}
    (hr : Pool.Run Pool.anything (boot D now) h c) (i : Nat) :
    c.InPhase (M := fun _ => holding) (fun _ _ x => x.txn = .outside) (fun _ x => x.Known i c.world) i := by
  refine hr.follows (fun _ => rfl) (M := fun _ => holding) (G := fun i _ x _ s => x.Known i s)
    (code_anchored D) ?_ ?_ ?_ i
  · intro h c i e c' hr _ hn
    have hs := (sound_of_reachable hr.reachable).thread i
    rw [(Pool.next_start hn).1] at hs
    exact ⟨fun _ hu => (by cases hu), hs.txn⟩
  · intro h c i e q k p r s x hr _ hat hx hp hg
    have hs := sound_of_reachable hr.reachable
    exact hg.own hs.inv (hs.pre_of_at (valid D False) hat).1 hp.1 hx
  · intro h c a c' i e p x hr _ hn hi _ _ hg
    have hk := kept_of_next hr.reachable hn hi
    exact hg.txn_eq hk.grows.drawn hk.txn

/-- A call whose transaction has written something is alive, and its first write guards the others. -/
theorem anchored_of_pending {now : Time} {c : (service D).Config} (hc : Pool.Reachable (boot D now) c) {i : Nat}
    (hw : c.world.pending i ≠ []) : ∃ e q k a drawn t ws, c.At i e q k ∧
      Holding.Allows ⟨drawn, .anchored a⟩ q ∧ (∀ u ∈ drawn, (u, i) ∈ c.world.drawn) ∧
      c.world.txn i = some (.active t (a.write :: ws)) ∧ ∀ w ∈ ws, a.Guards drawn w := by
  obtain ⟨h, hr⟩ := hc
  have idle : c.world.txn i ≠ none := fun hn => hw (pending_of_idle hn)
  cases ht : c.threads i with
  | none =>
    have hs := (sound_of_reachable hr.reachable).thread i
    rw [ht] at hs
    exact absurd hs.txn idle
  | some th =>
    obtain ⟨e, prog⟩ := th
    cases prog with
    | none =>
      refine absurd (hr.dead (verified D False) (admits_anything D) (initial D False now)
        (G := fun i s => World.txn s i = none) (fun i s s' hk _ hn => hk.txn.trans hn) ?_ i e ht) idle
      exact fun _ _ _ _ => txn_setTxn_self ..
    | some p =>
      obtain ⟨x, hp, hx⟩ := holding_of_run hr i e p ht
      obtain ⟨drawn, txn⟩ := x
      cases txn with
      | outside => exact absurd hx.txn idle
      | opened =>
        obtain ⟨t, hn⟩ := hx.txn
        exact absurd (pending_of_txn hn) hw
      | failed => exact absurd (pending_of_aborted hx.txn) hw
      | anchored a =>
        obtain ⟨t, ws, hn, hws⟩ := hx.txn
        cases p with
        | ret b | throw b => cases hp
        | call q k => exact ⟨e, q, k, a, drawn, t, ws, ht, hp.1, hx.drawn, hn, hws⟩

/-! ## Open transactions -/

theorem nodup_setTxn (h : (s.txns.map Prod.fst).Nodup) (i : Nat) (o : Option Txn) :
    ((s.setTxn i o).txns.map Prod.fst).Nodup := by
  have hrest : ((s.txns.filter (·.1 ≠ i)).map Prod.fst).Nodup :=
    h.sublist (List.filter_sublist.map _)
  cases o with
  | none => exact hrest
  | some t =>
    refine List.nodup_cons.mpr ⟨fun hm => ?_, hrest⟩
    obtain ⟨x, hx, hxi⟩ := List.mem_map.mp hm
    exact of_decide_eq_true (List.mem_filter.mp hx).2 hxi

/-- No thread has two transactions. -/
theorem nodup_txns {now : Time} {c : (service D).Config} (hc : Pool.Reachable (boot D now) c) :
    ((World.txns c.world).map Prod.fst).Nodup := by
  refine hc.induction (P := fun c => ((World.txns c.world).map Prod.fst).Nodup) ?_ fun c a c' _ h hn => ?_
  · exact List.nodup_nil
  cases a with
  | start i e =>
    obtain ⟨-, rfl⟩ := Pool.next_start hn
    exact h
  | crash i =>
    obtain ⟨e, q, k, -, rfl⟩ := Pool.next_crash hn
    exact nodup_setTxn h i none
  | env v =>
    obtain ⟨w, hw, rfl⟩ := Pool.next_env hn
    cases v with
    | toDlq id =>
      obtain ⟨m, -, rfl⟩ := Option.map_eq_some_iff.mp hw
      exact h
    | _ =>
      cases hw
      exact h
  | step i p =>
    obtain ⟨e, q, k, r, w, -, hx, rfl⟩ := Pool.next_step hn
    cases change_of_exec hx with
    | pend | abort | begin => exact nodup_setTxn h i _
    | commit | drop => exact nodup_setTxn h i none
    | redisExpire =>
      simp only [World.redisExpire]
      split
      · exact h
      · split <;> exact h
    | @delete queue => cases queue <;> exact h
    | _ => exact h

theorem txn_of_mem (h : (s.txns.map Prod.fst).Nodup) {t : Txn} (hm : (j, t) ∈ s.txns) : s.txn j = some t := by
  unfold World.txn
  generalize s.txns = l at h hm
  induction l with
  | nil => cases hm
  | cons x l ih =>
    obtain ⟨hx, hl⟩ := List.nodup_cons.mp h
    rcases List.mem_cons.mp hm with rfl | hm
    · simp
    · have hne : j ≠ x.1 := fun hj => hx (List.mem_map.mpr ⟨(j, t), hm, hj⟩)
      rw [List.lookup_cons, show (j == x.1) = false by simpa using hne]
      exact ih hl hm

/-- Writes that have to wait conflict with what another call has written. -/
theorem blocker_of_blocked {now : Time} {c : (service D).Config} (hc : Pool.Reachable (boot D now) c) {i : Nat}
    {ws : List Write} (hb : World.blocked c.world i ws = true) :
    ∃ j ≠ i, ∃ w ∈ ws, ∃ w' ∈ World.pending c.world j, w.conflicts w' = true := by
  obtain ⟨⟨j, t⟩, hm, hb⟩ := List.any_eq_true.mp hb
  simp only [Bool.and_eq_true, decide_eq_true_eq, List.any_eq_true] at hb
  obtain ⟨hij, w, hw, w', hw', hconf⟩ := hb
  refine ⟨j, hij, w, hw, w', ?_, hconf⟩
  show w' ∈ (World.txn c.world j).elim [] Txn.writes
  rw [txn_of_mem (nodup_txns hc) hm]
  exact hw'

/-! ## Who waits for whom -/

/-- No other call has an uncommitted review with the identifier. -/
def Unused (i : Nat) (u : Uuid) (s : World) : Prop := ∀ j ≠ i, ∀ w ∈ s.pending j, .reviewId u ∉ w.keys

/-- A statement gives the review that it inserts the identifier that was drawn for it. -/
theorem review_of_run {db : Database} {st : Sql} {t : Time} {u : Uuid} {a : st.Ans} {ws : List Write} {r : ReviewRow}
    (h : st.run db t u = .ok (a, ws)) (hr : .review r ∈ ws) : r.id = u := by
  cases makes_of_run h _ hr with
  | review =>
    simp only [Sql.run] at h
    split at h
    · cases h
      cases hr
    · rw [(insert_ok h).2.1] at hr
      cases List.mem_singleton.mp hr
      rfl

/-- What a call has written protects what it writes next. -/
theorem free_of_anchored {now : Time} {c : (service D).Config} (hc : Pool.Reachable (boot D now) c)
    {i : Nat} {a : Anchor}
    {drawn : List Uuid} {t : Time} {ws ws' : List Write} (hd : ∀ u ∈ drawn, (u, i) ∈ World.drawn c.world)
    (ht : World.txn c.world i = some (.active t (a.write :: ws))) {st : Sql} {u : Uuid} {b : st.Ans}
    (ha : a.Allows drawn st)
    (hrun : st.run ((World.db c.world).applyAll (a.write :: ws)) t u = .ok (b, ws')) (hu : Unused i u c.world) :
    World.blocked c.world i ws' = false := by
  have hinv := inv_of_reachable hc
  refine Bool.eq_false_iff.mpr fun hb => ?_
  obtain ⟨j, hij, w, hw, w', hpend, hconf⟩ := blocker_of_blocked hc hb
  -- the other transaction has an anchor of its own
  obtain ⟨-, -, -, b', drawn', t', ws₁, -, -, hd', ht', hws₁⟩ :=
    anchored_of_pending hc (List.ne_nil_of_mem hpend)
  have hkeys : a.write.keys.Disjoint b'.write.keys := by
    have happ := hinv.stored.apart (Ne.symm hij)
    rw [pending_of_txn ht, pending_of_txn ht'] at happ
    exact fun k hk hk' => happ (List.mem_append_left _ hk) (List.mem_append_left _ hk')
  have hdrawn : drawn.Disjoint drawn' := fun v hv hv' =>
    hij (drawn_unique hinv.drawn (hd' v hv') (hd v hv))
  rw [pending_of_txn ht'] at hpend
  have hguards : w' = b'.write ∨ b'.Guards drawn' w' := (List.mem_cons.mp hpend).imp_right (hws₁ w')
  obtain ⟨r, r', rfl, rfl, hid⟩ := Anchor.conflicts_of_guards hkeys hdrawn
    (Anchor.guards_of_makes ha (makes_of_run hrun w hw)) hguards hconf
  refine hu j hij (.review r') (by rwa [pending_of_txn ht']) ?_
  rw [← review_of_run hrun hw, hid]
  exact List.mem_cons_self

/-- A call whose transaction has written something never waits: its next request is served, whatever comes of it. -/
theorem holder_served {now : Time} {c : (service D).Config} (hc : Pool.Reachable (boot D now) c) {i : Nat}
    (hw : World.pending c.world i ≠ []) {p : Pick} (hp : Unused i p.fresh c.world) :
    ∃ c', Pool.next c (.step i p) = some c' := by
  obtain ⟨e, q, k, a, drawn, t, ws, hat, ha, hd, ht, -⟩ := anchored_of_pending hc hw
  suffices h : ∃ r s, World.exec i q p c.world = some (r, s) by
    obtain ⟨r, s, hx⟩ := h
    exact ⟨_, Pool.next_of_at hat hx⟩
  cases q with
  | commit | rollback => exact ⟨_, _, rfl⟩
  | sql st =>
    simp only [World.exec, runSql, ht]
    split
    · rename_i b ws' _ hrun
      rw [if_neg (by rw [free_of_anchored hc hd ht ha (Sql.run_of_execute hrun) hp]; exact Bool.false_ne_true)]
      exact ⟨_, _, rfl⟩
    all_goals exact ⟨_, _, rfl⟩
  | _ => cases ha

/-- The statement of call `i` has to wait for what call `j` has written. -/
def WaitsFor (c : (service D).Config) (i j : Nat) : Prop :=
  ∃ e st k p, c.At i e (.sql st) k ∧ Unused i p.fresh c.world ∧ World.exec i (.sql st) p c.world = none ∧
    j ≠ i ∧ ∃ a t ws, st.run ((World.db c.world).applyAll (World.pending c.world i)) t p.fresh = .ok (a, ws) ∧
      ∃ w ∈ ws, ∃ w' ∈ World.pending c.world j, w.conflicts w' = true

theorem blocked_of_exec {st : Sql} {p : Pick} (h : World.exec i (.sql st) p s = none) :
    ∃ a t ws, st.run (s.db.applyAll (s.pending i)) t p.fresh = .ok (a, ws) ∧ s.blocked i ws = true := by
  simp only [World.exec, runSql] at h
  split at h
  · rename_i hn
    split at h
    · cases h
    · rename_i a ws hrun
      split at h
      · rename_i hb
        exact ⟨a, s.now, ws, by rw [pending_of_idle hn]; exact Sql.run_of_execute hrun, hb⟩
      · cases h
  · cases h
  · rename_i t ws ht
    split at h
    · rename_i a ws' _ hrun
      split at h
      · rename_i hb
        exact ⟨a, t, ws', by rw [pending_of_txn ht]; exact Sql.run_of_execute hrun, hb⟩
      · cases h
    all_goals cases h

/-- There is no deadlock: a call that has to wait has written nothing, and what it waits for is calls
that wait for nobody, and whose next requests are served. -/
theorem waits_for_served {now : Time} {c : (service D).Config} (hc : Pool.Reachable (boot D now) c)
    {i : Nat} {e : Entry}
    {st : Sql} {k : Except Exn st.Ans → M Out} {p : Pick} (hat : c.At i e (.sql st) k)
    (hu : Unused i p.fresh c.world) (hx : World.exec i (.sql st) p c.world = none) :
    World.pending c.world i = [] ∧ (∃ j, WaitsFor c i j) ∧ ∀ j, WaitsFor c i j →
      (∀ k, ¬ WaitsFor c j k) ∧ ∀ p', Unused j p'.fresh c.world → ∃ c', Pool.next c (.step j p') = some c' := by
  -- a call that holds something never waits
  have holder : ∀ {i}, World.pending c.world i ≠ [] → ∀ k, ¬ WaitsFor c i k := by
    rintro i hw k ⟨e, st, k', p, hat, hu, hx, -⟩
    obtain ⟨c', hn⟩ := holder_served hc hw hu
    obtain ⟨e', q, k'', r, s, hat', hx', -⟩ := Pool.next_step hn
    cases show some _ = some _ from hat.symm.trans hat'
    rw [show World.exec i (.sql st) p c.world = _ from hx'] at hx
    cases hx
  obtain ⟨a, t, ws, hrun, hb⟩ := blocked_of_exec hx
  obtain ⟨j, hij, w, hw, w', hpend, hconf⟩ := blocker_of_blocked hc hb
  have hwait : WaitsFor c i j :=
    ⟨e, st, k, p, hat, hu, hx, hij, a, t, ws, hrun, w, hw, w', hpend, hconf⟩
  refine ⟨by_contra fun hne => holder hne j hwait, ⟨j, hwait⟩, ?_⟩
  rintro j' ⟨-, -, -, -, -, -, -, -, -, -, -, -, -, -, v, hv, -⟩
  have hne : World.pending c.world j' ≠ [] := List.ne_nil_of_mem hv
  exact ⟨holder hne, fun p' hp' => holder_served hc hne hp'⟩

/-! ## Waits end -/

/-- The holders of uncommitted writes can be run until they have none. -/
theorem writers_served (D : Deployment) (now : Time) (u : Uuid) :
    Pool.Served (boot D now) ({ fresh := u } : Pick) (fun s j => World.pending s j ≠ [])
      (fun j c => Unused j u c.world) where
  served hc hu hw := holder_served hc hw hu
  keeps hc hu hn k hk w hw := by
    have hkept := kept_of_next hc hn (fun h => hk (Option.some.inj h).symm)
    exact hu k hk w (by rwa [← pending_congr hkept.txn])
  frame hc hn hk hw := by
    have hkept := kept_of_next hc hn (fun h => hk (Option.some.inj h).symm)
    rwa [pending_congr hkept.txn] at hw
  pass hc hu hw k hk w hm := by
    refine hu k (fun h => hw ?_) w hm
    exact h ▸ List.ne_nil_of_mem hm

/-- A statement that has to wait is served after steps of the calls that have uncommitted writes, and of
no others. -/
theorem wait_ends {now : Time} {c : (service D).Config} (hc : Pool.Reachable (boot D now) c) {i : Nat} {e : Entry}
    {st : Sql} {k : Except Exn st.Ans → M Out} (hat : c.At i e (.sql st) k) {u : Uuid}
    (hu : ∀ j, Unused j u c.world) :
    ∃ js c', (∀ j ∈ js, j ≠ i ∧ World.pending c.world j ≠ []) ∧
      Pool.replay (Pool.steps ({ fresh := u } : Pick) js) c = some c' ∧ c'.At i e (.sql st) k ∧
      ∀ p, ∃ c'', Pool.next c' (.step i p) = some c'' := by
  obtain ⟨js, c', hrep, hjs, hfree, hc', hkeep⟩ :=
    (writers_served D now u).release_all (((World.txns c.world).map Prod.fst).filter (· ≠ i)) hc hu
  have hi : ∀ j ∈ js, j ≠ i := fun j hj => of_decide_eq_true (List.mem_filter.mp (hjs j hj).1).2
  have hat' : c'.At i e (.sql st) k := (Pool.threads_steps hrep fun hm => hi i hm rfl).trans hat
  refine ⟨js, c', fun j hj => ⟨hi j hj, (hjs j hj).2⟩, hrep, hat', fun p => ?_⟩
  suffices h : World.exec i (.sql st) p c'.world ≠ none by
    obtain ⟨⟨r, s⟩, hx⟩ := Option.ne_none_iff_exists'.mp h
    exact ⟨_, Pool.next_of_at hat' hx⟩
  intro hx
  obtain ⟨a, t, ws, -, hb⟩ := blocked_of_exec hx
  obtain ⟨j, hij, -, -, w', hw', -⟩ := blocker_of_blocked hc' hb
  have hpend : World.pending c'.world j ≠ [] := List.ne_nil_of_mem hw'
  -- whoever still holds something held it before, and has been run until it did not
  have hold := hkeep j hpend
  refine hfree j (List.mem_filter.mpr ⟨?_, decide_eq_true hij⟩) hpend
  cases ht : World.txn c.world j with
  | none => exact absurd (pending_of_idle ht) hold
  | some t => exact List.mem_map.mpr ⟨_, mem_of_lookup ht, rfl⟩

/-! ## A wait -/

/-- Thread 0 has inserted the sample's content when its ingest lock expires, and thread 1 is about to insert
it again. -/
def waitSample (D : Deployment) : List (service D).Action :=
  (ingestSample D 0 1 2).take 10 ++ .env (.tick (seconds 121)) :: (ingestSample D 1 3 4).take 9

/-- The statement of thread `i` has to wait, and no transaction has inserted a review `⟨0⟩`. -/
def waits? (c : (service D).Config) (i : Nat) : Bool :=
  (match c.threads i with
  | some ⟨_, some (.call (.sql st) _)⟩ => (World.exec i (.sql st) {} c.world).isNone
  | _ => false) &&
  (World.txns c.world).all fun t => t.2.writes.all fun w => decide (.reviewId ⟨0⟩ ∉ w.keys)

theorem waits_of_check {c : (service D).Config} {i : Nat} (h : waits? c i = true) :
    (∃ e st k, c.At i e (.sql st) k ∧ World.exec i (.sql st) {} c.world = none) ∧ ∀ j, Unused j ⟨0⟩ c.world := by
  simp only [waits?, Bool.and_eq_true, List.all_eq_true, decide_eq_true_eq] at h
  obtain ⟨hat, hfree⟩ := h
  refine ⟨?_, fun j k _ w hw => ?_⟩
  · split at hat
    · rename_i e st k ht
      exact ⟨e, st, k, ht, Option.isNone_iff_eq_none.mp hat⟩
    · cases hat
  · cases ht : World.txn c.world k with
    | none =>
      rw [pending_of_idle ht] at hw
      cases hw
    | some t =>
      have hp : World.pending c.world k = t.writes := by
        show (World.txn c.world k).elim [] Txn.writes = t.writes
        rw [ht]
        rfl
      exact hfree (k, t) (mem_of_lookup ht) w (hp ▸ hw)

theorem exists_wait : ∃ c, Pool.Reachable (boot (sample .atomic) 0) c ∧ waits? c 1 = true := by
  have hrun : (Pool.replay (waitSample (sample .atomic)) (boot (sample .atomic) 0)).any (waits? · 1) = true := by
    decide +kernel
  exact Pool.exists_replay hrun

theorem waits_for_served_sample : ∃ c, Pool.Reachable (boot (sample .atomic) 0) c ∧ World.pending c.world 1 = [] ∧
    ∃ j, WaitsFor c 1 j ∧ (∀ k, ¬ WaitsFor c j k) ∧
      ∀ p, Unused j p.fresh c.world → ∃ c', Pool.next c (.step j p) = some c' := by
  obtain ⟨c, hc, hw⟩ := exists_wait
  obtain ⟨⟨e, st, k, hat, hx⟩, hu⟩ := waits_of_check hw
  obtain ⟨hnone, ⟨j, hj⟩, hall⟩ := waits_for_served hc hat (hu 1) hx
  exact ⟨c, hc, hnone, j, hj, hall j hj⟩

theorem wait_ends_sample : ∃ c e st k, Pool.Reachable (boot (sample .atomic) 0) c ∧ c.At 1 e (.sql st) k ∧
    World.exec 1 (.sql st) {} c.world = none ∧
    ∃ js c', (∀ j ∈ js, j ≠ 1 ∧ World.pending c.world j ≠ []) ∧
      Pool.replay (Pool.steps ({ fresh := ⟨0⟩ } : Pick) js) c = some c' ∧
      ∀ p, ∃ c'', Pool.next c' (.step 1 p) = some c'' := by
  obtain ⟨c, hc, hw⟩ := exists_wait
  obtain ⟨⟨e, st, k, hat, hx⟩, hu⟩ := waits_of_check hw
  obtain ⟨js, c', hjs, hrep, -, hnext⟩ := wait_ends hc hat hu
  exact ⟨c, e, st, k, hc, hat, hx, js, c', hjs, hrep, hnext⟩

end CM
