import ContentModeration.Impl.Service
import ContentModeration.Proof.Database

/-!
# What requests change

`Change i s q s'` lists what the request `q` of thread `i` can make of the
world `s`, whether it succeeds or raises; `change_of_exec` is proven once, and
what holds of every step is proven by cases on it.
-/

namespace CM

/-! ## Association lists -/

theorem lookup_filter_self {α β : Type} [DecidableEq α] (l : List (α × β)) (a : α) :
    (l.filter (·.1 ≠ a)).lookup a = none := by
  refine List.lookup_eq_none_iff.mpr fun x hx => ?_
  have hne : x.1 ≠ a := by simpa using (List.mem_filter.mp hx).2
  exact bne_iff_ne.mpr hne.symm

theorem lookup_filter_ne {α β : Type} [DecidableEq α] (l : List (α × β)) {a b : α} (h : b ≠ a) :
    (l.filter (·.1 ≠ a)).lookup b = l.lookup b := by
  induction l with
  | nil => rfl
  | cons x l ih =>
    obtain ⟨y, v⟩ := x
    by_cases hx : y = a
    · subst hx
      simp only [ne_eq, not_true_eq_false, decide_false, Bool.false_eq_true, not_false_eq_true,
        List.filter_cons_of_neg, List.lookup_cons, beq_eq_false_iff_ne.mpr h]
      exact ih
    · simp only [List.filter_cons, ne_eq, hx, not_false_eq_true, decide_true, if_true, List.lookup_cons]
      split
      · rfl
      · exact ih

theorem mem_of_lookup {α β : Type} [BEq α] [LawfulBEq α] {l : List (α × β)} {a : α} {b : β}
    (h : l.lookup a = some b) : (a, b) ∈ l := by
  induction l with
  | nil => cases h
  | cons x l ih =>
    obtain ⟨y, v⟩ := x
    rw [List.lookup_cons] at h
    split at h
    · rename_i he
      cases h
      rw [eq_of_beq he]
      exact List.mem_cons_self
    · exact List.mem_cons_of_mem _ (ih h)

namespace World

variable {s s' : World} {i j : Nat}

/-! ## Transactions -/

/-- What thread `i` has written and not yet committed. -/
def pending (s : World) (i : Nat) : List Write := (s.txn i).elim [] Txn.writes

@[simp] theorem txn_setTxn_self (s : World) (i : Nat) (t : Option Txn) : (s.setTxn i t).txn i = t := by
  cases t with
  | none => exact lookup_filter_self _ _
  | some t => simp [txn, setTxn]

theorem txn_setTxn_ne (s : World) (t : Option Txn) (h : j ≠ i) : (s.setTxn i t).txn j = s.txn j := by
  cases t with
  | none => exact lookup_filter_ne _ h
  | some t =>
    simp only [txn, setTxn, List.lookup_cons, beq_eq_false_iff_ne.mpr h]
    exact lookup_filter_ne _ h

@[simp] theorem txn_finish_self (s : World) (i : Nat) (ws : List Write) : (s.finish i ws).txn i = none :=
  s.txn_setTxn_self i none

theorem txn_finish_ne (s : World) (ws : List Write) (h : j ≠ i) : (s.finish i ws).txn j = s.txn j :=
  s.txn_setTxn_ne none h

theorem pending_of_txn {t : Time} {ws : List Write} (h : s.txn i = some (.active t ws)) : s.pending i = ws := by
  simp [pending, h, Txn.writes]

theorem pending_of_idle (h : s.txn i = none) : s.pending i = [] := by
  simp [pending, h]

theorem pending_of_aborted (h : s.txn i = some .aborted) : s.pending i = [] := by
  simp [pending, h, Txn.writes]

theorem pending_congr (h : s'.txn i = s.txn i) : s'.pending i = s.pending i := by
  simp [pending, h]

/-- Writes that need not wait share no unique key with another thread's. -/
theorem disjoint_of_not_blocked {ws : List Write} (h : s.blocked i ws = false) (hj : j ≠ i) :
    (ws.flatMap Write.keys).Disjoint ((s.pending j).flatMap Write.keys) := by
  intro k hk hk'
  obtain ⟨w, hw, hwk⟩ := List.mem_flatMap.mp hk
  obtain ⟨w', hw', hwk'⟩ := List.mem_flatMap.mp hk'
  cases ht : s.txn j with
  | none => simp [pending, ht] at hw'
  | some t =>
    simp only [pending, ht, Option.elim] at hw'
    have hm : (j, t) ∈ s.txns := mem_of_lookup ht
    have hc : w.conflicts w' = true := by
      simp only [Write.conflicts, Bool.or_eq_true, List.any_eq_true, decide_eq_true_eq]
      exact .inl ⟨k, hwk, hwk'⟩
    have : s.blocked i ws = true := by
      simp only [blocked, List.any_eq_true, Bool.and_eq_true, decide_eq_true_eq]
      exact ⟨(j, t), hm, hj, w, hw, w', hw', hc⟩
    rw [h] at this
    cases this

/-! ## Changes -/

/-- What the request `q` of thread `i` can make of the world `s`. -/
inductive Change (i : Nat) (s : World) : Cmd → World → Prop where
  | same {q} : Change i s q s
  /-- A statement outside a transaction. -/
  | write {st u a ws} (idle : s.txn i = none) (run : st.run s.db s.now u = .ok (a, ws))
      (free : s.blocked i ws = false) : Change i s (.sql st) { s with db := s.db.applyAll ws }
  | pend {st u a t ws ws'} (active : s.txn i = some (.active t ws))
      (run : st.run (s.db.applyAll ws) t u = .ok (a, ws')) (free : s.blocked i ws' = false) :
      Change i s (.sql st) (s.setTxn i (some (.active t (ws ++ ws'))))
  | abort {st t ws} (active : s.txn i = some (.active t ws)) :
      Change i s (.sql st) (s.setTxn i (some .aborted))
  | begin : Change i s .begin (s.setTxn i (some (.active s.now [])))
  | commit : Change i s .commit (s.finish i (s.pending i))
  | drop {q} (h : q = .commit ∨ q = .rollback) : Change i s q (s.finish i [])
  | redisSet {key value ttl} (absent : s.redisGet key = none) :
      Change i s (.redisSetNx key value ttl) (s.redisSet key value (s.now + seconds ttl))
  | redisExpire {key ttl} : Change i s (.redisExpire key ttl) (s.redisExpire key ttl)
  | redisDel {key} : Change i s (.redisDel key) (s.redisDel key)
  | clock : Change i s .utcnow { s with clockRead := Function.update s.clockRead i (some s.now) }
  | draw {u} (fresh : ∀ v ∈ s.drawn, v.1 ≠ u) :
      Change i s .uuid4 { s with drawn := (u, i) :: s.drawn }
  | enqueue {provider job body attributes} :
      Change i s (.enqueue provider job body attributes) (s.send (.json body) attributes)
  | sendMessage {body attributes} : Change i s (.sendMessage body attributes) (s.send body attributes)
  | delete {queue receipt} : Change i s (.delete queue receipt) (s.remove queue [receipt])
  | acknowledge {ackIds ids} (h : ids ⊆ ackIds) : Change i s (.acknowledge ackIds) (s.remove .main ids)
  | log {line} : Change i s (.log line) { s with log := s.log ++ [line] }

theorem answer_cases {α : Type} {p : Pick} {a : α} {s₁ : World} {r : Except Exn α}
    (h : s.answer p a s₁ = (r, s')) : s' = s ∨ s' = s₁ := by
  simp only [answer] at h
  split at h <;> cases h <;> simp

theorem answer_ok {α : Type} {p : Pick} {a b : α} {s₁ : World} (h : s.answer p a s₁ = (.ok b, s')) :
    b = a ∧ s' = s₁ := by
  simp only [answer] at h
  split at h <;> simp_all

theorem fault_of_ok {α : Type} {p : Pick} {a b : α} {s₁ : World} (h : s.answer p a s₁ = (.ok b, s')) :
    p.fault = .none := by
  simp only [answer] at h
  split at h
  · assumption
  · cases h
  · cases h

theorem Change.of_answer {α : Type} {q : Cmd} {p : Pick} {a : α} {s₁ : World} {r : Except Exn α}
    (h : some (s.answer p a s₁) = some (r, s')) (hc : Change i s q s₁) : Change i s q s' := by
  rcases answer_cases (Option.some.inj h) with rfl | rfl
  · exact .same
  · exact hc

theorem runSend_cases {body : RawBody} {attributes : List (String × String)} {p : Pick} {r : Except Exn Unit}
    (h : s.runSend body attributes p = (r, s')) : s' = s ∨ s' = s.send body attributes := by
  simp only [runSend] at h
  split at h
  · exact answer_cases h
  · cases h
    exact .inl rfl

/-- A message that is sent is one that the queue takes. -/
theorem runSend_ok {body : RawBody} {attributes : List (String × String)} {p : Pick} {a : Unit}
    (h : s.runSend body attributes p = (.ok a, s')) :
    s.takes body attributes = true ∧ p.fault = .none ∧ s' = s.send body attributes := by
  simp only [runSend] at h
  split at h
  · rename_i ht
    exact ⟨ht, fault_of_ok h, (answer_ok h).2⟩
  · cases h

/-- A statement outside a transaction fails without effect, or takes effect. -/
theorem runSql_idle {st : Sql} {p : Pick} {r : Except Exn st.Ans} (ht : s.txn i = none)
    (h : s.runSql i st p = some (r, s')) :
    (s' = s ∧ ((∃ x, st.execute s.db s.now p.fresh = .error x) ∨ ∃ text, p.fault = .before text)) ∨
    ∃ a ws, st.execute s.db s.now p.fresh = .ok (a, ws) ∧ (∀ text, p.fault ≠ .before text) ∧
      s' = { s with db := s.db.applyAll ws } := by
  simp only [runSql, ht] at h
  split at h
  · rename_i x hr
    cases h
    exact .inl ⟨rfl, .inl ⟨x, hr⟩⟩
  · rename_i a ws hr
    split at h
    · cases h
    · cases hf : p.fault with
      | before text =>
        simp only [answer, hf, Option.some.injEq, Prod.mk.injEq] at h
        exact .inl ⟨h.2.symm, .inr ⟨text, rfl⟩⟩
      | none | after text =>
        simp only [answer, hf, Option.some.injEq, Prod.mk.injEq] at h
        exact .inr ⟨a, ws, hr, fun _ => nofun, h.2.symm⟩

/-- A statement outside a transaction that answers `a` has been run. -/
theorem runSql_ok {st : Sql} {p : Pick} {a : st.Ans} (ht : s.txn i = none)
    (h : s.runSql i st p = some (.ok a, s')) : p.fault = .none ∧
    ∃ ws, st.run s.db s.now p.fresh = .ok (a, ws) ∧ s' = { s with db := s.db.applyAll ws } := by
  simp only [runSql, ht] at h
  split at h
  · cases h
  · rename_i b ws hr
    split at h
    · cases h
    · have hf := fault_of_ok (Option.some.inj h)
      obtain ⟨rfl, rfl⟩ := answer_ok (Option.some.inj h)
      exact ⟨hf, ws, Sql.run_of_execute hr, rfl⟩

/-- A statement that answers has not been refused. -/
theorem taken_of_ok {st : Sql} {p : Pick} {a : st.Ans} (ht : s.txn i = none)
    (h : s.runSql i st p = some (.ok a, s')) : st.refusal = none := by
  simp only [runSql, ht] at h
  split at h
  · cases h
  · rename_i b ws hr
    exact (Sql.execute_ok_iff.mp hr).1

theorem change_of_sql {st : Sql} {p : Pick} {r : Except Exn st.Ans}
    (h : s.runSql i st p = some (r, s')) : Change i s (.sql st) s' := by
  simp only [runSql] at h
  split at h
  · rename_i ht
    split at h
    · cases h
      exact .same
    · rename_i a ws hr
      split at h
      · cases h
      · rename_i hb
        exact .of_answer h (.write ht (Sql.run_of_execute hr) (by simpa using hb))
  · cases h
    exact .same
  · rename_i t ws ht
    split at h
    · rename_i a ws' _ hr
      split at h
      · cases h
      · rename_i hb
        cases h
        exact .pend ht (Sql.run_of_execute hr) (by simpa using hb)
    all_goals
      cases h
      exact .abort ht

theorem change_of_exec {q : Cmd} {p : Pick} {r : Except Exn q.Ans}
    (h : World.exec i q p s = some (r, s')) : Change i s q s' := by
  cases q with
  | sql st => exact change_of_sql h
  | begin =>
    simp only [World.exec] at h
    split at h <;> cases h
    · exact .begin
    · exact .same
    · exact .same
  | commit =>
    simp only [World.exec, runCommit] at h
    split at h <;> cases h
    · exact .commit
    · exact .drop (.inl rfl)
    · exact .commit
  | rollback =>
    simp only [World.exec, Option.some.injEq, Prod.mk.injEq] at h
    exact h.2 ▸ .drop (.inr rfl)
  | redisSetNx key value ttl =>
    simp only [World.exec] at h
    split at h
    · cases h
      exact .same
    · split at h
      · exact .of_answer h .same
      · rename_i hn
        exact .of_answer h (.redisSet (by simpa using hn))
  | redisExpire key ttl => exact .of_answer h .redisExpire
  | redisDel key => exact .of_answer h .redisDel
  | utcnow =>
    cases h
    exact .clock
  | perfCounter | sleep =>
    cases h
    exact .same
  | uuid4 =>
    simp only [World.exec] at h
    split at h
    · cases h
    · rename_i hn
      cases h
      exact .draw fun v hv he => hn (List.any_eq_true.mpr ⟨v, hv, by simpa using he⟩)
  | enqueue provider job body attributes =>
    simp only [World.exec] at h
    split at h
    · cases h
      exact .same
    · rcases runSend_cases (Option.some.inj h) with rfl | rfl
      · exact .same
      · exact .enqueue
  | sendMessage body attributes =>
    rcases runSend_cases (Option.some.inj h) with rfl | rfl
    · exact .same
    · exact .sendMessage
  | receive queue max =>
    simp only [World.exec] at h
    split at h
    · obtain ⟨ms, -, hm⟩ := Option.map_eq_some_iff.mp h
      exact .of_answer (congrArg some hm) .same
    · cases h
  | delete queue receipt => exact .of_answer h .delete
  | acknowledge ackIds =>
    simp only [World.exec] at h
    split at h
    · cases h
      exact .acknowledge List.filter_sublist.subset
    · exact .of_answer h (.acknowledge (List.Subset.refl _))
  | log line =>
    cases h
    exact .log
  | _ => exact .of_answer h .same

end World

end CM
