import ContentModeration.Proof.Valid

/-!
# Specifications of requests

`Spec K p Q`: a thread without a transaction, whose created jobs all have
their messages (`Idle`), runs the program `p` from what it knows, `K`, and ends
with `Q` and idle again. What it knows must be `Steady`, so that no other
thread undoes it. `request_spec` is the rule for a request outside a
transaction, `transaction_spec` that for a transaction.
-/

namespace CM

open Database World

variable {D : Deployment} {A : Prop} {i : Nat} {e : Entry} {α β : Type}

/-- The jobs that thread `i` has created have their messages. -/
def Clear (A : Prop) (i : Nat) (s : World) : Prop :=
  A → ∀ u, (u, i) ∈ s.drawn → s.db.HasJob u → s.JobCovered u

/-- Thread `i` has no transaction, and its jobs have their messages. -/
structure Idle (A : Prop) (i : Nat) (s : World) : Prop where
  txn : s.txn i = none
  clear : Clear A i s

/-- What the other threads keep, and most requests of the thread itself. -/
def Steady (i : Nat) (K : World → Prop) : Prop := ∀ s s', Kept i s s' → K s → K s'

/-- From `K`, the program `p` of an idle thread ends with `Q` and idle. -/
def Spec (D : Deployment) (A : Prop) (i : Nat) (e : Entry) (K : World → Prop) (p : M α)
    (Q : Except Exn α → World → Prop) : Prop :=
  (rules D A).Triple i e (fun s => Idle A i s ∧ K s) p fun r s => Idle A i s ∧ Q r s

variable {K L : World → Prop} {Q : Except Exn α → World → Prop}

/-! ## Steady facts -/

theorem Steady.and (hK : Steady i K) (hL : Steady i L) : Steady i fun s => K s ∧ L s :=
  fun s s' hk h => ⟨hK s s' hk h.1, hL s s' hk h.2⟩

theorem Steady.imp {p : Prop} (hK : Steady i K) : Steady i fun s => p → K s :=
  fun s s' hk h hp => hK s s' hk (h hp)

theorem Steady.all {γ : Sort*} {K : γ → World → Prop} (hK : ∀ x, Steady i (K x)) :
    Steady i fun s => ∀ x, K x s := fun s s' hk h x => hK x s s' hk (h x)

theorem steady_const (p : Prop) : Steady i fun _ => p := fun _ _ _ h => h

theorem steady_clear : Steady i (Clear A i) := fun _ _ hk h hA u hu hj =>
  (h hA u (hk.drawn u hu) (hk.jobs u (hk.drawn u hu) hj)).mono hk.grows

theorem steady_idle : Steady i (Idle A i) := fun s s' hk h =>
  ⟨hk.txn.trans h.txn, steady_clear s s' hk h.clear⟩

theorem steady_decided (job : Uuid) : Steady i fun s => s.db.Decided job :=
  fun _ _ hk h => h.mono hk.grows.db

theorem steady_hasJob (job : Uuid) : Steady i fun s => s.db.HasJob job :=
  fun _ _ hk h => h.mono hk.grows.db

theorem steady_bodyOk (b : RawBody) : Steady i fun s => BodyOk s.db b :=
  fun _ _ hk h => h.mono hk.grows.db

theorem Steady.stable (hK : Steady i K) : (rules D A).Stable i fun s => Idle A i s ∧ K s :=
  fun s s' hk _ h => ⟨steady_idle s s' hk h.1, hK s s' hk h.2⟩

/-! ## Programs -/

theorem Spec.ret {a : α} (hK : Steady i K) (hQ : ∀ s, Inv s → K s → Q (.ok a) s) :
    Spec D A i e K (.ret a) Q :=
  Rules.Triple.ret hK.stable fun s hi h => ⟨h.1, hQ s hi h.2⟩

theorem Spec.throw {x : Exn} (hK : Steady i K) (hQ : ∀ s, Inv s → K s → Q (.error x) s) :
    Spec D A i e K (.throw x) Q :=
  Rules.Triple.throw hK.stable fun s hi h => ⟨h.1, hQ s hi h.2⟩

theorem Spec.mono {Q' : Except Exn α → World → Prop} {p : M α} (h : Spec D A i e K p Q)
    (hK : ∀ s, L s → K s) (hQ : ∀ r s, Q r s → Q' r s) : Spec D A i e L p Q' :=
  Rules.Triple.mono h (fun s _ hs => ⟨hs.1, hK s hs.2⟩) fun r s _ hs => ⟨hs.1, hQ r s hs.2⟩

/-- The rule for a sequence: the first program ends with `P`. -/
theorem Spec.bind {p : M α} {f : α → M β} {P : Except Exn α → World → Prop}
    {Q : Except Exn β → World → Prop} (h : Spec D A i e K p P)
    (he : ∀ x s, P (.error x) s → Q (.error x) s) (hf : ∀ a, Spec D A i e (P (.ok a)) (f a) Q) :
    Spec D A i e K (p >>= f) Q := by
  refine Rules.Triple.bind (valid D A) (M := fun a s => Idle A i s ∧ P (.ok a) s)
    (Rules.Triple.mono h (fun s _ hs => hs) fun r s _ hs => ?_) hf
  cases r with
  | ok a => exact hs
  | error x => exact ⟨hs.1, he x s hs.2⟩

theorem Spec.attempt {p : M α} {Q : Except Exn (Except Exn α) → World → Prop}
    (h : Spec D A i e K p fun r s => Q (.ok r) s) : Spec D A i e K p.attempt Q := Rules.Triple.attempt h

/-- A program whose exceptions are handed over never raises. -/
theorem Spec.attempt_bind {p : M α} {f : Except Exn α → M β} {P : Except Exn α → World → Prop}
    {Q : Except Exn β → World → Prop} (h : Spec D A i e K p P)
    (hf : ∀ r, Spec D A i e (P r) (f r) Q) : Spec D A i e K (p.attempt >>= f) Q :=
  Spec.bind (P := fun r s => match r with
    | .ok r => P r s
    | .error _ => False) (Spec.attempt h) (fun _ _ h => h.elim) hf

theorem Spec.ofExcept {x : Except Exn α} (hK : Steady i K) (hQ : ∀ s, Inv s → K s → Q x s) :
    Spec D A i e K (Prog.ofExcept x) Q := by
  cases x with
  | ok a => exact .ret hK hQ
  | error e => exact .throw hK hQ

/-- What a thread knows of no particular state can be assumed. -/
theorem Spec.assume {p : M α} {fact : Prop} (hf : ∀ s, K s → fact) (h : fact → Spec D A i e K p Q) :
    Spec D A i e K p Q := fun s hi hs => h (hf s hs.2) s hi hs

/-! ## Requests -/

/-- The thread has got the answer `a` to its request `q`, made in some world in
which it knew `K`. -/
def Answered (i : Nat) (K : World → Prop) (q : Cmd) (a : q.Ans) (s : World) : Prop :=
  ∃ s₀ p s₁, Inv s₀ ∧ K s₀ ∧ World.exec i q p s₀ = some (.ok a, s₁) ∧ s₀.txn i = none ∧ Kept i s₀ s₁ ∧
    Kept i s₁ s

theorem steady_answered (q : Cmd) (a : q.Ans) : Steady i (Answered i K q a) :=
  fun _ _ hk ⟨s₀, p, s₁, hi, hK, hx, ht, h₀, h₁⟩ => ⟨s₀, p, s₁, hi, hK, hx, ht, h₀, h₁.trans hk⟩

/-- An exception that a request raises. -/
def Exn.Plain (x : Exn) : Prop := ∃ text, x = .error text

theorem plain_of_answer {p : Pick} {a : α} {s s₁ s' : World} {x : Exn}
    (h : s.answer p a s₁ = (.error x, s')) : x.Plain := by
  simp only [answer] at h
  split at h <;> cases h <;> exact ⟨_, rfl⟩

theorem plain_of_missing {db : Database} {w : Write} {x : Exn} (h : w.missing db = some x) : x.Plain := by
  have one : ∀ {b : Bool} {t c : String} {o : Option Exn},
      (if b then some (foreignKeyViolation t c) else o) = some x → x.Plain ∨ o = some x := by
    intro b t c o h
    split at h
    · cases h
      exact .inl ⟨_, rfl⟩
    · exact .inr h
  cases w with
  | job row => exact (one h).elim (fun h => h) fun h => by cases h
  | decision row =>
    exact (one h).elim (fun h => h) fun h => (one h).elim (fun h => h) fun h => by cases h
  | review row =>
    exact (one h).elim (fun h => h) fun h => (one h).elim (fun h => h) fun h =>
      (one h).elim (fun h => h) fun h => by cases h
  | _ => cases h

theorem plain_of_insert {db : Database} {w : Write} {a : α} {x : Exn} (h : db.insert w a = .error x) :
    x.Plain := by
  simp only [Database.insert] at h
  split at h
  · cases h
    exact ⟨_, rfl⟩
  · split at h
    · rename_i hm
      cases h
      exact plain_of_missing hm
    · cases h

theorem plain_of_run {db : Database} {st : Sql} {now : Time} {u : Uuid} {x : Exn}
    (h : st.run db now u = .error x) : x.Plain := by
  cases st with
  | insertContent | insertJob | insertMetric | insertAudit =>
    simp only [Sql.run] at h
    exact plain_of_insert h
  | insertDecision | insertReview =>
    simp only [Sql.run] at h
    split at h
    · cases h
    · exact plain_of_insert h
  | castJobStatus id | resetJob id | auditRedrive id detail =>
    simp only [Sql.run, castUuid] at h
    split at h
    · cases h
    · cases h
      exact ⟨_, rfl⟩
  | claimReview | resolveReview =>
    simp only [Sql.run] at h
    split at h <;> cases h
  | _ => cases h

theorem plain_of_refusal {st : Sql} {x : Exn} (h : st.refusal = some x) : x.Plain := by
  unfold Sql.refusal at h
  split at h
  · cases h
    exact ⟨_, rfl⟩
  · split at h
    · cases h
      cases st <;> exact ⟨_, rfl⟩
    · cases h

theorem plain_of_execute {db : Database} {st : Sql} {now : Time} {u : Uuid} {x : Exn}
    (h : st.execute db now u = .error x) : x.Plain := by
  unfold Sql.execute at h
  split at h
  · rename_i hr
    cases h
    exact plain_of_refusal hr
  · exact plain_of_run h

theorem plain_of_send {s s' : World} {body : RawBody} {attributes : List (String × String)} {p : Pick} {x : Exn}
    (h : s.runSend body attributes p = (.error x, s')) : x.Plain := by
  simp only [runSend] at h
  split at h
  · exact plain_of_answer h
  · cases h
    exact ⟨_, rfl⟩

theorem plain_of_sql {st : Sql} {p : Pick} {s s' : World} {x : Exn}
    (h : s.runSql i st p = some (.error x, s')) : x.Plain := by
  simp only [runSql] at h
  split at h
  · split at h
    · rename_i hr
      cases h
      exact plain_of_execute hr
    · split at h
      · cases h
      · exact plain_of_answer (Option.some.inj h)
  · cases h
    exact ⟨_, rfl⟩
  · split at h
    · split at h <;> cases h
    · rename_i hr
      cases h
      exact plain_of_execute hr
    all_goals
      cases h
      exact ⟨_, rfl⟩

theorem plain_of_exec {q : Cmd} {p : Pick} {s s' : World} {x : Exn}
    (h : World.exec i q p s = some (.error x, s')) : x.Plain := by
  cases q with
  | sql st => exact plain_of_sql h
  | begin | commit =>
    simp only [World.exec, runCommit] at h
    split at h <;> cases h <;> exact ⟨_, rfl⟩
  | rollback =>
    simp only [World.exec, Option.some.injEq, Prod.mk.injEq] at h
    exact plain_of_answer (Prod.ext h.1 rfl)
  | redisSetNx key value ttl =>
    simp only [World.exec] at h
    split at h
    · cases h
      exact ⟨_, rfl⟩
    · split at h <;> exact plain_of_answer (Option.some.inj h)
  | utcnow | perfCounter | sleep | log => cases h
  | enqueue provider job body attributes =>
    simp only [World.exec] at h
    split at h
    · cases h
      exact ⟨_, rfl⟩
    · exact plain_of_send (Option.some.inj h)
  | sendMessage body attributes => exact plain_of_send (Option.some.inj h)
  | uuid4 =>
    simp only [World.exec] at h
    split at h <;> cases h
  | receive queue max =>
    simp only [World.exec] at h
    split at h
    · obtain ⟨ms, -, hm⟩ := Option.map_eq_some_iff.mp h
      exact plain_of_answer hm
    · cases h
  | acknowledge ackIds =>
    simp only [World.exec] at h
    split at h
    · simp only [Option.some.injEq, Prod.mk.injEq] at h
      exact plain_of_answer (Prod.ext h.1 rfl)
    · exact plain_of_answer (Option.some.inj h)
  | _ => exact plain_of_answer (Option.some.inj h)

/-- A request outside a transaction. -/
theorem request_spec {q : Cmd} (hq : Ordinary q) (hK : Steady i K)
    (hc : ∀ s, Inv s → s.txn i = none → K s → Contract D i s q) :
    Spec D A i e K (request q) fun r s => K s ∧ match r with
      | .ok a => Answered i K q a s
      | .error x => x.Plain := by
  refine Rules.Triple.perform (valid D A) hK.stable (fun s hi h => ⟨hc s hi h.1.txn h.2, ?_⟩) ?_ ?_
  · exact fun hA u hu hj => .inr (h.1.clear hA u hu hj)
  · intro r
    refine Steady.stable (hK.and ?_)
    cases r with
    | ok a => exact steady_answered q a
    | error x => exact steady_const _
  · intro s p r s' hi h _ hx _
    have hk : Kept i s s' := kept_of_change hi (hc s hi h.1.txn h.2) (change_of_exec hx) (.inr ⟨hq, h.1.txn⟩)
    refine ⟨steady_idle s s' hk h.1, hK s s' hk h.2, ?_⟩
    cases r with
    | ok a => exact ⟨s, p, s', hi, h.2, hx, h.1.txn, hk, .refl s'⟩
    | error x => exact plain_of_exec hx

/-- The rule for a sequence that begins with a request outside a transaction. -/
theorem Spec.request {q : Cmd} {f : q.Ans → M α} (hq : Ordinary q) (hK : Steady i K)
    (hc : ∀ s, Inv s → s.txn i = none → K s → Contract D i s q)
    (he : ∀ x s, K s → x.Plain → Q (.error x) s)
    (hf : ∀ a, Spec D A i e (fun s => K s ∧ Answered i K q a s) (f a) Q) :
    Spec D A i e K (CM.request q >>= f) Q := by
  refine Spec.bind (request_spec hq hK hc) (fun x s h => he x s h.1 h.2) hf

/-- The same for a request that is made at any time, and whose answer is not used. -/
theorem Spec.skip {q : Cmd} {f : q.Ans → M α} (hq : Ordinary q) (hK : Steady i K)
    (hc : ∀ s, s.txn i = none → Contract D i s q) (he : ∀ x s, K s → x.Plain → Q (.error x) s)
    (hf : ∀ a, Spec D A i e K (f a) Q) : Spec D A i e K (CM.request q >>= f) Q :=
  Spec.request hq hK (fun s _ ht _ => hc s ht) he fun a => (hf a).mono (fun _ h => h.1) fun _ _ h => h

theorem contract_sql {st : Sql} {s : World} (ht : s.txn i = none) (h : st.Alone D s) :
    Contract D i s (.sql st) := by
  simp only [Contract, ht]
  exact h

/-- A statement that has answered `a` outside a transaction. -/
theorem Answered.sql {st : Sql} {a : st.Ans} {s : World} (h : Answered i K (.sql st) a s) :
    ∃ s₀ u ws, Inv s₀ ∧ K s₀ ∧ st.run s₀.db s₀.now u = .ok (a, ws) ∧
      Kept i { s₀ with db := s₀.db.applyAll ws } s := by
  obtain ⟨s₀, p, s₁, hi, hK, hx, ht, -, hk⟩ := h
  obtain ⟨-, ws, hr, rfl⟩ := runSql_ok ht hx
  exact ⟨s₀, p.fresh, ws, hi, hK, hr, hk⟩

/-! ## Transactions -/

/-- What every step of every thread keeps. -/
def Lasting (K : World → Prop) : Prop := ∀ s s', Grows s s' → K s → K s'

theorem Lasting.steady (hK : Lasting K) : Steady i K := fun s s' hk => hK s s' hk.grows

theorem Lasting.and (hK : Lasting K) (hL : Lasting L) : Lasting fun s => K s ∧ L s :=
  fun s s' hg h => ⟨hK s s' hg h.1, hL s s' hg h.2⟩

/-- A program keeps what every step keeps. -/
theorem Spec.frame {p : M α} (hL : Lasting L) (h : Spec D A i e K p Q) :
    Spec D A i e (fun s => K s ∧ L s) p fun r s => Q r s ∧ L s := by
  have hs : (rules D A).Stable i L := fun s s' hk _ => hL s s' hk.grows
  refine Rules.Triple.mono (Rules.Triple.frame hs (fun {q p r t t'} hi hc _ hx hl => ?_) h)
    (fun _ _ h => ⟨⟨h.1, h.2.1⟩, h.2.2⟩) fun _ _ _ h => ⟨h.1.1, h.1.2, h.2⟩
  · have hk : Kept (i + 1) t t' := kept_of_change hi hc.1 (change_of_exec hx) (.inl (Nat.succ_ne_self i))
    exact hL t t' hk.grows hl

/-- Thread `i` is in a transaction that began at `t` and has made the writes `ws`. -/
structure Open (A : Prop) (i : Nat) (t : Time) (ws : List Write) (s : World) : Prop where
  txn : s.txn i = some (.active t ws)
  clear : Clear A i s

theorem steady_open (t : Time) (ws : List Write) : Steady i (Open A i t ws) := fun s s' hk h =>
  ⟨hk.txn.trans h.txn, steady_clear s s' hk h.clear⟩

/-- A transaction that has failed. -/
structure Broken (A : Prop) (i : Nat) (s : World) : Prop where
  txn : s.txn i = some .aborted
  clear : Clear A i s

theorem steady_broken : Steady i (Broken A i) := fun s s' hk h =>
  ⟨hk.txn.trans h.txn, steady_clear s s' hk h.clear⟩

theorem grows_setTxn (s : World) (t : Option Txn) : s.Grows (s.setTxn i t) :=
  .of_messages (Nat.le_refl _) (.refl _) rfl (Nat.le_refl _) (List.Subset.refl _) (List.Subset.refl _)

theorem grows_finish (s : World) (ws : List Write) : s.Grows (s.finish i ws) :=
  .of_messages (Nat.le_refl _) (extends_applyAll _ _) rfl (Nat.le_refl _) (List.Subset.refl _)
    (List.Subset.refl _)

/-- The statement `st` has answered `a` and written `ws'`, after `ws`. -/
def Ran (i : Nat) (K : World → Prop) (t : Time) (ws ws' : List Write) (st : Sql) (a : st.Ans) (s : World) :
    Prop :=
  ∃ s₀ u, Inv s₀ ∧ K s₀ ∧ s₀.txn i = some (.active t ws) ∧
    st.run (s₀.db.applyAll ws) t u = .ok (a, ws') ∧ s₀.Grows s

theorem lasting_ran {t : Time} {ws ws' : List Write} {st : Sql} {a : st.Ans} :
    Lasting (Ran i K t ws ws' st a) :=
  fun _ _ hg ⟨s₀, u, hi, hK, ht, hr, h₀⟩ => ⟨s₀, u, hi, hK, ht, hr, h₀.trans hg⟩

/-- A statement in a transaction. -/
theorem stmt_spec {st : Sql} {t : Time} {ws : List Write} (hK : Lasting K) (ht : st.InTxn) :
    (rules D A).Triple i e (fun s => Open A i t ws s ∧ K s) (sql st) fun r s => K s ∧ match r with
      | .ok a => ∃ ws', Open A i t (ws ++ ws') s ∧ Ran i K t ws ws' st a s
      | .error x => Broken A i s ∧ x.Plain := by
  refine Rules.Triple.perform (valid D A) (fun s s' hk _ h => ⟨steady_open t ws s s' hk h.1, hK s s' hk.grows h.2⟩)
    (fun s hi h => ⟨?_, ?_⟩) (fun r s s' hk _ h => ⟨hK s s' hk.grows h.1, ?_⟩) ?_
  · simp only [Contract, h.1.txn]
    exact ht
  · exact fun hA u hu hj => .inr (h.1.clear hA u hu hj)
  · cases r with
    | ok a =>
      obtain ⟨ws', ho, hr⟩ := h.2
      exact ⟨ws', steady_open t _ s s' hk ho, lasting_ran s s' hk.grows hr⟩
    | error x => exact ⟨steady_broken s s' hk h.2.1, h.2.2⟩
  · intro s p r s' hi h _ hx _
    have hx' : s.runSql i st p = some (r, s') := hx
    have broken : Broken A i (s.setTxn i (some .aborted)) := ⟨txn_setTxn_self .., h.1.clear⟩
    simp only [runSql, h.1.txn] at hx'
    split at hx'
    · rename_i a ws' _ hr
      split at hx'
      · cases hx'
      · cases hx'
        have hg := grows_setTxn (i := i) s (some (.active t (ws ++ ws')))
        exact ⟨hK _ _ hg h.2, ws', ⟨txn_setTxn_self .., h.1.clear⟩, s, p.fresh, hi, h.2, h.1.txn,
          Sql.run_of_execute hr, hg⟩
    · rename_i hr
      cases hx'
      exact ⟨hK _ _ (grows_setTxn s _) h.2, broken, plain_of_execute hr⟩
    all_goals
      cases hx'
      exact ⟨hK _ _ (grows_setTxn s _) h.2, broken, _, rfl⟩

/-- A statement in a transaction that has failed. -/
theorem stmt_broken {st : Sql} (hK : Lasting K) (ht : st.InTxn) :
    (rules D A).Triple i e (fun s => Broken A i s ∧ K s) (sql st) fun r s => Broken A i s ∧ K s ∧ match r with
      | .ok _ => False
      | .error x => x.Plain := by
  refine Rules.Triple.perform (valid D A) (fun s s' hk _ h => ⟨steady_broken s s' hk h.1, hK s s' hk.grows h.2⟩)
    (fun s hi h => ⟨?_, ?_⟩)
    (fun r s s' hk _ h => ⟨steady_broken s s' hk h.1, hK s s' hk.grows h.2.1, by cases r <;> exact h.2.2⟩) ?_
  · simp only [Contract, h.1.txn]
    exact ht
  · exact fun hA u hu hj => .inr (h.1.clear hA u hu hj)
  · intro s p r s' _ h _ hx _
    have hx' : s.runSql i st p = some (r, s') := hx
    simp only [runSql, h.1.txn] at hx'
    cases hx'
    exact ⟨h.1, h.2, _, rfl⟩

/-- The writes `ws` of thread `i` have been committed. -/
def Committed (A : Prop) (i : Nat) (K : World → Prop) (t : Time) (ws : List Write) (s : World) : Prop :=
  ∃ s₀, Inv s₀ ∧ K s₀ ∧ Open A i t ws s₀ ∧ Kept i (s₀.finish i ws) s

theorem steady_committed {t : Time} {ws : List Write} : Steady i (Committed A i K t ws) :=
  fun _ _ hk ⟨s₀, hi, hK, ho, h₀⟩ => ⟨s₀, hi, hK, ho, h₀.trans hk⟩

/-- Committing writes that create no job leaves the thread's jobs with their messages. -/
theorem clear_finish {s : World} {ws : List Write} (h : Clear A i s) (hj : ∀ j, .job j ∉ ws) :
    Clear A i (s.finish i ws) := by
  intro hA u hu hju
  rcases hasJob_applyAll hju with hju | ⟨j, hw, -⟩
  · exact (h hA u hu hju).mono (grows_finish s ws)
  · exact absurd hw (hj j)

theorem Complete.mono {s s' : World} {ws : List Write} (hg : s.Grows s') (h : Complete i s ws) :
    Complete i s' ws := by
  cases h with
  | nil => exact .nil
  | decision e id reviewId t => exact .decision e id reviewId t
  | ingest c jobId tenantId t hd => exact .ingest c jobId tenantId t (hg.drawn hd)

theorem begin_spec (hK : Lasting K) :
    (rules D A).Triple i e (fun s => Idle A i s ∧ K s) (request .begin) fun r s => K s ∧ match r with
      | .ok _ => ∃ t, Open A i t [] s
      | .error _ => Idle A i s := by
  refine Rules.Triple.perform (valid D A) hK.steady.stable (fun s hi h => ⟨h.1.txn, ?_⟩)
    (fun r s s' hk _ h => ⟨hK s s' hk.grows h.1, ?_⟩) ?_
  · exact fun hA u hu hj => .inr (h.1.clear hA u hu hj)
  · cases r with
    | ok a => exact h.2.imp fun t => steady_open t [] s s' hk
    | error x => exact steady_idle s s' hk h.2
  · intro s p r s' _ h _ hx _
    have hx' : World.exec i .begin p s = some (r, s') := hx
    simp only [World.exec] at hx'
    split at hx' <;> cases hx'
    · exact ⟨hK _ _ (grows_setTxn s _) h.2, s.now, txn_setTxn_self .., h.1.clear⟩
    · exact ⟨h.2, h.1⟩
    · exact ⟨h.2, h.1⟩

/-- COMMIT of complete writes. -/
theorem commit_spec {t : Time} {ws : List Write} (hK : Lasting K)
    (hw : (∀ j, .job j ∉ ws) ∨ ∃ settings req, e = .acceptImage settings req) :
    (rules D A).Triple i e (fun s => Open A i t ws s ∧ Complete i s ws ∧ K s) (request .commit)
      fun r s => K s ∧ match r with
        | .ok _ => Committed A i K t ws s
        | .error _ => Idle A i s := by
  refine Rules.Triple.perform (valid D A)
    (fun s s' hk _ h => ⟨steady_open t ws s s' hk h.1, h.2.1.mono hk.grows, hK s s' hk.grows h.2.2⟩)
    (fun s hi h => ⟨?_, ?_⟩) (fun r s s' hk _ h => ⟨hK s s' hk.grows h.1, ?_⟩) ?_
  · intro t' ws' ht
    rw [h.1.txn] at ht
    cases ht
    exact h.2.1
  · exact fun hA u hu hj => .inr (h.1.clear hA u hu hj)
  · cases r with
    | ok a => exact steady_committed s s' hk h.2
    | error x => exact steady_idle s s' hk h.2
  · intro s p r s' hi h ha hx _
    have hx' : some (s.runCommit i p) = some (r, s') := hx
    simp only [runCommit, h.1.txn, Option.elim, Txn.writes] at hx'
    split at hx' <;> cases hx'
    · exact ⟨hK _ _ (grows_finish s ws) h.2.2, s, hi, h.2.2, h.1, .refl _⟩
    · exact ⟨hK _ _ (grows_finish s []) h.2.2, txn_finish_self .., h.1.clear⟩
    · rename_i hf _
      refine ⟨hK _ _ (grows_finish s ws) h.2.2, txn_finish_self .., fun hA => ?_⟩
      rcases hw with hw | hw
      · exact clear_finish h.1.clear hw hA
      · obtain ⟨settings, req, he⟩ := hw
        exact absurd hf (ha hA settings req he _)

theorem rollback_spec (hK : Lasting K) :
    (rules D A).Triple i e (fun s => Clear A i s ∧ K s) (request .rollback) fun _ s => K s ∧ Idle A i s := by
  refine Rules.Triple.perform (valid D A) (fun s s' hk _ h => ⟨steady_clear s s' hk h.1, hK s s' hk.grows h.2⟩)
    (fun s hi h => ⟨trivial, ?_⟩)
    (fun r s s' hk _ h => ⟨hK s s' hk.grows h.1, steady_idle s s' hk h.2⟩) ?_
  · exact fun hA u hu hj => .inr (h.1 hA u hu hj)
  · intro s p r s' _ h _ hx _
    cases hx
    exact ⟨hK _ _ (grows_finish s []) h.2, txn_finish_self .., h.1⟩

/-- The rule for a transaction: its body ends with complete writes `ws`, knowing
`P`, or raises. If it creates jobs, the call is one of `accept_image`. -/
theorem transaction_spec {body : M α} {P : α → Time → List Write → World → Prop} (hK : Lasting K)
    (hP : ∀ a t ws, Lasting (P a t ws))
    (hw : ∀ a t ws s, P a t ws s → (∀ j, .job j ∉ ws) ∨ ∃ settings req, e = .acceptImage settings req)
    (hb : ∀ t, (rules D A).Triple i e (fun s => Open A i t [] s ∧ K s) body fun r s => match r with
      | .ok a => ∃ ws, Open A i t ws s ∧ Complete i s ws ∧ P a t ws s
      | .error _ => K s ∧ Clear A i s) :
    (rules D A).Triple i e (fun s => Idle A i s ∧ K s) (transaction body) fun r s => match r with
      | .ok a => ∃ t ws, Committed A i (P a t ws) t ws s
      | .error _ => Idle A i s := by
  have hv := valid D A
  refine Rules.Triple.bind hv (M := fun _ s => ∃ t, Open A i t [] s ∧ K s)
    ((begin_spec hK).mono (fun _ _ h => h) fun r s _ h => ?_) fun _ => ?_
  · cases r with
    | ok a => exact h.2.imp fun t ht => ⟨ht, h.1⟩
    | error x => exact h.2
  intro s hi ⟨t, hs⟩
  refine Rules.Triple.bind hv (K := fun s => Open A i t [] s ∧ K s)
    (M := fun r s => match r with
      | .ok a => ∃ ws, Open A i t ws s ∧ Complete i s ws ∧ P a t ws s
      | .error _ => K s ∧ Clear A i s) (Rules.Triple.attempt (hb t)) (fun r => ?_) s hi hs
  cases r with
  | ok a =>
    rintro s hi ⟨ws, hs⟩
    refine Rules.Triple.bind hv (M := fun _ s => Committed A i (P a t ws) t ws s)
      ((commit_spec (hP a t ws) (hw a t ws s hs.2.2)).mono (fun _ _ h => h) fun r s _ h => ?_)
      (fun _ => ?_) s hi hs
    · cases r <;> exact h.2
    · exact Rules.Triple.ret (fun s s' hk _ h => steady_committed s s' hk h) fun s _ h => ⟨t, ws, h⟩
  | error x =>
    rintro s hi ⟨hK', hc⟩
    refine Rules.Triple.bind hv (M := fun _ s => Idle A i s)
      ((rollback_spec hK).mono (fun _ _ h => h) fun r s _ h => ?_) (fun _ => ?_) s hi ⟨hc, hK'⟩
    · cases r <;> exact h.2
    · exact Rules.Triple.throw (fun s s' hk _ h => steady_idle s s' hk h) fun s _ h => h

theorem Committed.idle {t : Time} {ws : List Write} {s : World} (h : Committed A i K t ws s)
    (hj : ∀ j, .job j ∉ ws) : Idle A i s := by
  obtain ⟨s₀, -, -, ho, hk⟩ := h
  exact steady_idle _ s hk ⟨txn_finish_self .., clear_finish ho.clear hj⟩

theorem Committed.extends {t : Time} {ws : List Write} {s : World} (h : Committed A i K t ws s) :
    ∃ s₀, Inv s₀ ∧ K s₀ ∧ (s₀.db.applyAll ws).Extends s.db := by
  obtain ⟨s₀, hi, hK, -, hk⟩ := h
  exact ⟨s₀, hi, hK, hk.grows.db⟩

/-- The rule for a statement in a transaction that answers `a` and writes `ws'`
only if `L a ws'`. -/
theorem stmt_bind {st : Sql} {f : st.Ans → M α} {t : Time} {ws : List Write}
    {L : st.Ans → List Write → World → Prop} (hK : Lasting K) (hL : ∀ a ws', Lasting (L a ws'))
    (ht : st.InTxn)
    (hrun : ∀ s u a ws', Inv s → K s → s.txn i = some (.active t ws) →
      st.run (s.db.applyAll ws) t u = .ok (a, ws') → L a ws' s)
    (he : ∀ x s, Broken A i s → K s → Q (.error x) s)
    (hf : ∀ a ws', (rules D A).Triple i e (fun s => Open A i t (ws ++ ws') s ∧ K s ∧ L a ws' s) (f a) Q) :
    (rules D A).Triple i e (fun s => Open A i t ws s ∧ K s) (sql st >>= f) Q := by
  refine Rules.Triple.bind (valid D A)
    (M := fun a s => ∃ ws', Open A i t (ws ++ ws') s ∧ K s ∧ L a ws' s)
    ((stmt_spec hK ht).mono (fun _ _ h => h) fun r s _ h => ?_) fun a s hi ⟨ws', h⟩ => hf a ws' s hi h
  cases r with
  | ok a =>
    obtain ⟨hKs, ws', ho, s₀, u, hi, hK₀, ht₀, hr, hg⟩ := h
    exact ⟨ws', ho, hKs, hL a ws' _ _ hg (hrun s₀ u a ws' hi hK₀ ht₀ hr)⟩
  | error x => exact he x s h.2.1 h.1

/-- The rule for a statement in a transaction that can only write `w`. -/
theorem stmt_bind_write {st : Sql} {f : st.Ans → M α} {t : Time} {ws : List Write} {w : Uuid → Write}
    (hK : Lasting K) (ht : st.InTxn)
    (hrun : ∀ s u a ws', Inv s → K s → s.txn i = some (.active t ws) →
      st.run (s.db.applyAll ws) t u = .ok (a, ws') → ws' = [w u])
    (he : ∀ x s, Broken A i s → K s → Q (.error x) s)
    (hf : ∀ a u, (rules D A).Triple i e (fun s => Open A i t (ws ++ [w u]) s ∧ K s) (f a) Q) :
    (rules D A).Triple i e (fun s => Open A i t ws s ∧ K s) (sql st >>= f) Q := by
  refine stmt_bind hK (L := fun _ ws' _ => ∃ u, ws' = [w u]) (fun _ _ _ _ _ h => h) ht
    (fun s u a ws' hi hs ht hr => ⟨u, hrun s u a ws' hi hs ht hr⟩) he fun a ws' => ?_
  rintro s hi ⟨ho, hKs, u, rfl⟩
  exact hf a u s hi ⟨ho, hKs⟩

end CM
