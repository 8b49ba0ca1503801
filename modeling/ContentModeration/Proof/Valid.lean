import ContentModeration.Proof.Contract

/-!
# The rules are kept

Every request whose contract holds keeps the invariant, and keeps what the
other threads count on (`valid`). The same is true of most requests for the
thread itself (`kept_of_change`), which is what its own reasoning uses.
-/

namespace CM

open Database World

variable {D : Deployment} {A : Prop} {s s' : World} {i j : Nat}

/-! ## Statements outside transactions -/

/-- The writes of a statement outside a transaction. -/
def Write.Plain (w : Write) : Prop :=
  (∃ row, w = .audit row ∧ row.entityType ≠ "decision") ∨
  (∃ id u, w = .updateJob id u ∧ ∀ j, (u.apply j).status ≠ .succeeded) ∨ w.IsReviewUpdate

theorem Write.Plain.keys {w : Write} (h : w.Plain) : w.keys = [] := by
  rcases h with ⟨row, rfl, -⟩ | ⟨id, u, rfl, -⟩ | ⟨id, u, rfl⟩ <;> rfl

theorem plain_of_alone {st : Sql} {db : Database} {now : Time} {w : Write} (ha : st.Alone D s)
    (h : db.Makes now st w) : w.Plain := by
  cases h with
  | content | job | decision | review | metric | succeeded => exact ha.elim
  | audit => exact .inl ⟨_, rfl, ha⟩
  | auditRedrive _ => exact .inl ⟨_, rfl, by simp⟩
  | failed => exact .inr (.inl ⟨_, _, rfl, fun j => by rcases ha with rfl | rfl <;> simp [JobUpdate.apply]⟩)
  | processing | enqueueFailed | reset => exact .inr (.inl ⟨_, _, rfl, fun j => by simp [JobUpdate.apply]⟩)
  | releaseExpired | releaseRows | claim | resolve => exact .inr (.inr ⟨_, _, rfl⟩)

/-- Statements in transactions do not update reviews. -/
theorem kinds_of_inTxn {st : Sql} {db : Database} {now : Time} {w : Write} (ht : st.InTxn)
    (h : db.Makes now st w) : ¬ w.IsReviewUpdate := by
  rintro ⟨id, u, rfl⟩
  cases h <;> exact ht.elim

/-! ## The invariant of the database -/

theorem Stored.congr (h : Stored s) (hd : s'.db = s.db) (ht : ∀ i, s'.txn i = s.txn i) : Stored s' where
  keys i := by rw [hd, pending_congr (ht i)]; exact h.keys i
  apart {i j} hij := by rw [pending_congr (ht i), pending_congr (ht j)]; exact h.apart hij
  fk := hd ▸ h.fk
  refs i := by rw [hd, pending_congr (ht i)]; exact h.refs i
  kinds i := by rw [pending_congr (ht i)]; exact h.kinds i
  decided := hd ▸ h.decided

/-- The transaction of thread `i` changes. -/
theorem Stored.setTxn (h : Stored s) (hd : s'.db = s.db) (ht : ∀ j ≠ i, s'.txn j = s.txn j)
    (hk : (s.db.keys ++ (s'.pending i).flatMap Write.keys).Nodup)
    (ha : ∀ j ≠ i, ((s'.pending i).flatMap Write.keys).Disjoint ((s.pending j).flatMap Write.keys))
    (hr : ∀ w ∈ s'.pending i, (s.db.applyAll (s'.pending i)).Refs w)
    (hu : ∀ w ∈ s'.pending i, ¬ w.IsReviewUpdate) : Stored s' where
  keys j := by
    rw [hd]
    by_cases hj : j = i
    · exact hj ▸ hk
    · rw [pending_congr (ht j hj)]; exact h.keys j
  apart {j k} hjk := by
    by_cases hj : j = i
    · subst hj
      rw [pending_congr (ht k hjk.symm)]; exact ha k hjk.symm
    · rw [pending_congr (ht j hj)]
      by_cases hk : k = i
      · subst hk
        exact fun k hk hk' => ha j hj hk' hk
      · rw [pending_congr (ht k hk)]; exact h.apart hjk
  fk := hd ▸ h.fk
  refs j := by
    rw [hd]
    by_cases hj : j = i
    · exact hj ▸ hr
    · rw [pending_congr (ht j hj)]; exact h.refs j
  kinds j := by
    by_cases hj : j = i
    · exact hj ▸ hu
    · rw [pending_congr (ht j hj)]; exact h.kinds j
  decided := hd ▸ h.decided

/-- The transaction of thread `i` ends, or begins anew. -/
theorem Stored.clearTxn (h : Stored s) (hd : s'.db = s.db) (ht : ∀ j ≠ i, s'.txn j = s.txn j)
    (hi : s'.pending i = []) : Stored s' := by
  have hk := (h.keys i).of_append_left
  refine h.setTxn hd ht ?_ ?_ ?_ ?_ <;> rw [hi]
  · simpa using hk
  · exact fun j _ => List.disjoint_nil_left _
  · exact fun w hw => absurd hw List.not_mem_nil
  · exact fun w hw => absurd hw List.not_mem_nil

/-- A transaction makes one more statement. -/
theorem Stored.pend (h : Stored s) {st : Sql} {u : Uuid} {a : st.Ans} {t : Time} {ws ws' : List Write}
    (ha : s.txn i = some (.active t ws)) (hr : st.run (s.db.applyAll ws) t u = .ok (a, ws'))
    (hf : s.blocked i ws' = false) (ht : st.InTxn) :
    Stored (s.setTxn i (some (.active t (ws ++ ws')))) := by
  have hp := pending_of_txn ha
  have hp' : (s.setTxn i (some (.active t (ws ++ ws')))).pending i = ws ++ ws' :=
    pending_of_txn (txn_setTxn_self ..)
  have hw := writable_of_run hr
  refine h.setTxn (i := i) rfl (fun j hj => txn_setTxn_ne _ _ hj) ?_ ?_ ?_ ?_ <;> rw [hp']
  · rw [List.flatMap_append, ← List.append_assoc]
    have hk := keys_applyAll s.db ws
    refine List.nodup_append'.mpr ⟨hp ▸ h.keys i, hw.nodup, fun k hk₁ hk₂ => ?_⟩
    exact hw.fresh k hk₂ (hk.mem_iff.mpr hk₁)
  · intro j hj
    rw [List.flatMap_append]
    exact List.disjoint_append_left.mpr ⟨hp ▸ h.apart hj.symm, disjoint_of_not_blocked hf hj⟩
  · intro w hm
    rw [applyAll_append]
    rcases List.mem_append.mp hm with hm | hm
    · exact (hp ▸ h.refs i w (hp ▸ hm)).mono (extends_applyAll _ _)
    · exact (hw.refs w hm).mono (extends_applyAll _ _)
  · intro w hm
    rcases List.mem_append.mp hm with hm | hm
    · exact h.kinds i w (hp ▸ hm)
    · exact kinds_of_inTxn ht (makes_of_run hr w hm)

/-- The writes of one thread reach the database, and its transaction ends. -/
theorem Stored.apply (h : Stored s) (ws : List Write) (hd : s'.db = s.db.applyAll ws)
    (ht : ∀ j ≠ i, s'.txn j = s.txn j) (hi : s'.pending i = [])
    (hk : (s.db.keys ++ ws.flatMap Write.keys).Nodup)
    (ha : ∀ j ≠ i, (ws.flatMap Write.keys).Disjoint ((s.pending j).flatMap Write.keys))
    (hr : ∀ w ∈ ws, (s.db.applyAll ws).Refs w)
    (hs : ∀ j ∈ (s.db.applyAll ws).jobs, j.status = .succeeded → (s.db.applyAll ws).Decided j.id) :
    Stored s' := by
  have hp : ∀ j, s'.pending j = if j = i then [] else s.pending j := fun j => by
    split
    · rename_i hj; exact hj ▸ hi
    · rename_i hj; exact pending_congr (ht j hj)
  have hkeys := keys_applyAll s.db ws
  refine ⟨fun j => ?_, fun {j k} hjk => ?_, ?_, fun j => ?_, fun j => ?_, hd ▸ hs⟩
  · rw [hd, hp j]
    refine (hkeys.append_right _).nodup_iff.mpr ?_
    split
    · simpa using hk
    · rename_i hj
      rw [List.append_assoc]
      refine List.nodup_append'.mpr ⟨hk.of_append_left, ?_, ?_⟩
      · exact List.nodup_append'.mpr ⟨hk.of_append_right, (h.keys j).of_append_right, ha j hj⟩
      · exact List.disjoint_append_right.mpr
          ⟨List.disjoint_of_nodup_append hk, List.disjoint_of_nodup_append (h.keys j)⟩
  · rw [hp j, hp k]
    split
    · exact List.disjoint_nil_left _
    · split
      · exact List.disjoint_nil_right _
      · exact h.apart hjk
  · exact hd ▸ h.fk.applyAll hr
  · rw [hd, hp j]
    split
    · exact fun w hw => absurd hw List.not_mem_nil
    · exact fun w hw => (h.refs j w hw).mono ((extends_applyAll s.db ws).applyAll _)
  · rw [hp j]
    split
    · exact fun w hw => absurd hw List.not_mem_nil
    · exact h.kinds j

/-! ## Succeeded jobs have decisions -/

theorem decided_of_plain {db : Database} {ws : List Write} (hw : ∀ w ∈ ws, w.Plain)
    (h : ∀ j ∈ db.jobs, j.status = .succeeded → db.Decided j.id) :
    ∀ j ∈ (db.applyAll ws).jobs, j.status = .succeeded → (db.applyAll ws).Decided j.id := by
  induction ws generalizing db with
  | nil => exact h
  | cons w ws ih =>
    refine ih (fun w' hw' => hw w' (List.mem_cons_of_mem _ hw')) ?_
    rcases hw w List.mem_cons_self with ⟨row, rfl, -⟩ | ⟨id, u, rfl, hu⟩ | ⟨id, u, rfl⟩
    · exact h
    · intro j hj hs
      obtain ⟨j₀, hj₀, rfl⟩ := List.mem_map.mp hj
      split at hs
      · exact absurd hs (hu j₀)
      · rw [if_neg ‹_›]
        exact h j₀ hj₀ hs
    · exact h

theorem jobs_decisionBundle (db : Database) (e : DecisionEnvelope) (id reviewId : Uuid) (t : Time) :
    (db.applyAll (decisionBundle e id reviewId t)).jobs =
      db.jobs.map fun j => if j.id = e.jobId then (JobUpdate.succeeded t).apply j else j := by
  simp only [decisionBundle]
  split <;> rfl

theorem decisions_decisionBundle (db : Database) (e : DecisionEnvelope) (id reviewId : Uuid) (t : Time) :
    (db.applyAll (decisionBundle e id reviewId t)).decisions = db.decisions ++ [⟨id, e⟩] := by
  simp only [decisionBundle]
  split <;> rfl

theorem decided_of_complete {ws : List Write} (hc : Complete i s ws)
    (h : ∀ j ∈ s.db.jobs, j.status = .succeeded → s.db.Decided j.id) :
    ∀ j ∈ (s.db.applyAll ws).jobs, j.status = .succeeded → (s.db.applyAll ws).Decided j.id := by
  cases hc with
  | nil => exact h
  | decision e id reviewId t =>
    intro j hj hs
    rw [jobs_decisionBundle] at hj
    obtain ⟨j₀, hj₀, rfl⟩ := List.mem_map.mp hj
    by_cases hid : j₀.id = e.jobId
    · refine ⟨⟨id, e⟩, ?_, ?_⟩
      · rw [decisions_decisionBundle]
        exact List.mem_append_right _ List.mem_cons_self
      · simp [hid]
    · rw [if_neg hid] at hs ⊢
      exact (h j₀ hj₀ hs).mono (extends_applyAll _ _)
  | ingest c jobId tenantId t _ =>
    intro j hj hs
    rcases List.mem_append.mp hj with hj | hj
    · exact (h j hj hs).mono (extends_applyAll _ _)
    · rw [List.mem_singleton.mp hj] at hs
      cases hs

/-! ## The queues -/

theorem World.Grows.of_messages (hn : s.now ≤ s'.now) (hd : s.db.Extends s'.db) (hm : s'.messages = s.messages)
    (hx : s.nextMsg ≤ s'.nextMsg) (hu : s.drawn ⊆ s'.drawn) (hl : s.log ⊆ s'.log) : s.Grows s' where
  now := hn
  db := hd
  nextMsg := hx
  messages m h := .inl (hm ▸ h)
  drawn := hu
  log := hl
  covered n b hc := by
    rw [Covered, hm]
    exact hc.imp id (.mono hl hd)

theorem Queued.of_messages (h : Queued s) (hd : s.db.Extends s'.db) (hm : s'.messages = s.messages)
    (hx : s.nextMsg ≤ s'.nextMsg) : Queued s' where
  ids := hm ▸ h.ids
  below m hm' := Nat.lt_of_lt_of_le (h.below m (hm ▸ hm')) hx
  bodies m hm' := (h.bodies m (hm ▸ hm')).mono hd

theorem mem_messages_send {body : RawBody} {attributes : List (String × String)} {m : Message} :
    m ∈ (s.send body attributes).messages ↔ m ∈ s.messages ∨ m = ⟨s.nextMsg, body, attributes⟩ := by
  simp only [messages, send, List.mem_append, List.mem_singleton]
  exact or_right_comm

theorem grows_send (body : RawBody) (attributes : List (String × String)) : s.Grows (s.send body attributes) where
  now := Nat.le_refl _
  db := .refl _
  nextMsg := Nat.le_succ _
  messages m hm := (mem_messages_send.mp hm).imp id fun h => by rw [h]
  drawn := List.Subset.refl _
  log := List.Subset.refl _
  covered n b hc := hc.imp (fun ⟨m, hm, h⟩ => ⟨m, mem_messages_send.mpr (.inl hm), h⟩) id

theorem Queued.send (h : Queued s) {body : RawBody} (attributes : List (String × String))
    (hb : BodyOk s.db body) : Queued (s.send body attributes) where
  ids := by
    have hperm : (s.send body attributes).messages.Perm (⟨s.nextMsg, body, attributes⟩ :: s.messages) := by
      simp only [messages, World.send, List.append_assoc]
      exact List.perm_middle
    refine (hperm.map _).nodup_iff.mpr (List.nodup_cons.mpr ⟨fun hm => ?_, h.ids⟩)
    obtain ⟨m, hm, he⟩ := List.mem_map.mp hm
    exact absurd (h.below m hm) (by simp [he])
  below m hm := by
    rcases mem_messages_send.mp hm with hm | rfl
    · exact Nat.lt_succ_of_lt (h.below m hm)
    · exact Nat.lt_succ_self _
  bodies m hm := by
    rcases mem_messages_send.mp hm with hm | rfl
    · exact h.bodies m hm
    · exact hb

theorem sublist_messages_remove (s : World) (q : QueueName) (ids : List Nat) :
    (s.remove q ids).messages.Sublist s.messages := by
  cases q
  · exact List.filter_sublist.append (List.Sublist.refl _)
  · exact (List.Sublist.refl _).append List.filter_sublist

theorem mem_messages_remove {q : QueueName} {ids : List Nat} {m : Message} (hm : m ∈ s.messages)
    (hi : m.id ∉ ids) : m ∈ (s.remove q ids).messages := by
  cases q <;> simp only [messages, remove, List.mem_append, List.mem_filter] at hm ⊢
  · exact hm.imp (fun h => ⟨h, by simpa using hi⟩) id
  · exact hm.imp id fun h => ⟨h, by simpa using hi⟩

@[simp] theorem db_remove (s : World) (q : QueueName) (ids : List Nat) : (s.remove q ids).db = s.db := by
  cases q <;> rfl

@[simp] theorem txn_remove (s : World) (q : QueueName) (ids : List Nat) (i : Nat) :
    (s.remove q ids).txn i = s.txn i := by
  cases q <;> rfl

@[simp] theorem drawn_remove (s : World) (q : QueueName) (ids : List Nat) :
    (s.remove q ids).drawn = s.drawn := by
  cases q <;> rfl

theorem Queued.remove (h : Queued s) (q : QueueName) (ids : List Nat) : Queued (s.remove q ids) where
  ids := ((sublist_messages_remove s q ids).map _).nodup h.ids
  below m hm := by
    have := h.below m ((sublist_messages_remove s q ids).subset hm)
    cases q <;> exact this
  bodies m hm := by
    rw [db_remove]
    exact h.bodies m ((sublist_messages_remove s q ids).subset hm)

@[simp] theorem discharged_remove {q : QueueName} {ids : List Nat} {b : RawBody} :
    (s.remove q ids).Discharged b ↔ s.Discharged b := by
  cases q <;> rfl

/-- Deleting released messages leaves every body covered: the last message with
that body is not deleted, or has done its work. -/
theorem covered_remove (hq : Queued s) {q : QueueName} {ids : List Nat} (hr : ∀ id ∈ ids, s.Released id)
    {n : Nat} {b : RawBody} (hc : s.Covered n b) : (s.remove q ids).Covered n b := by
  have later : ∀ k, ∀ m ∈ s.messages, s.nextMsg - m.id ≤ k → n ≤ m.id → m.body = b →
      (s.remove q ids).Covered n b := by
    intro k
    induction k with
    | zero =>
      intro m hm hk _ _
      have := hq.below m hm
      omega
    | succ k ih =>
      intro m hm hk hn hb
      by_cases hi : m.id ∈ ids
      · obtain ⟨b', hb', hc'⟩ := hr m.id hi
        obtain rfl : b' = b := (hb' m hm rfl).symm.trans hb
        rcases hc' with ⟨m', hm', hn', hb''⟩ | hd
        · exact ih m' hm' (by omega) (by omega) hb''
        · exact .inr (discharged_remove.mpr hd)
      · exact .inl ⟨m, mem_messages_remove hm hi, hn, hb⟩
  rcases hc with ⟨m, hm, hn, hb⟩ | hd
  · exact later _ m hm (Nat.le_refl _) hn hb
  · exact .inr (discharged_remove.mpr hd)

theorem grows_remove (hq : Queued s) {q : QueueName} {ids : List Nat} (hr : ∀ id ∈ ids, s.Released id) :
    s.Grows (s.remove q ids) where
  now := by cases q <;> exact Nat.le_refl _
  db := by rw [db_remove]; exact .refl _
  nextMsg := by cases q <;> exact Nat.le_refl _
  messages m hm := .inl ((sublist_messages_remove s q ids).subset hm)
  drawn := by rw [drawn_remove]; exact List.Subset.refl _
  log := by cases q <;> exact List.Subset.refl _
  covered _ _ := covered_remove hq hr

theorem perm_of_find {l : List Message} (hl : (l.map Message.id).Nodup) {id : Nat} {m : Message}
    (hm : l.find? (·.id = id) = some m) : l.Perm (m :: l.filter (·.id ≠ id)) := by
  induction l with
  | nil => cases hm
  | cons x l ih =>
    rw [List.map_cons, List.nodup_cons] at hl
    rw [List.find?_cons] at hm
    by_cases hx : x.id = id
    · simp only [hx, decide_true, Option.some.injEq] at hm
      have hf : l.filter (·.id ≠ id) = l := List.filter_eq_self.mpr fun y hy => by
        simpa using fun he => hl.1 (List.mem_map.mpr ⟨y, hy, he.trans hx.symm⟩)
      rw [List.filter_cons_of_neg (by simpa using hx), hf, hm]
    · simp only [hx, decide_false] at hm
      rw [List.filter_cons_of_pos (by simpa using hx)]
      exact ((ih hl.2 hm).cons x).trans (.swap ..)

/-- A message that moves to the dead-letter queue is still there. -/
theorem messages_toDlq (hq : Queued s) {id : Nat} {m : Message} (hm : s.main.find? (·.id = id) = some m) :
    (s.main.filter (·.id ≠ id) ++ (s.dlq ++ [m])).Perm s.messages := by
  have hl : (s.main.map Message.id).Nodup := by
    have := hq.ids
    rw [messages, List.map_append] at this
    exact this.of_append_left
  refine List.Perm.trans ?_ ((perm_of_find hl hm).symm.append_right s.dlq)
  rw [← List.append_assoc]
  exact List.perm_append_singleton ..

/-! ## What the others count on -/

theorem hasJob_applyAll {db : Database} {ws : List Write} {u : Uuid} (h : (db.applyAll ws).HasJob u) :
    db.HasJob u ∨ ∃ j, .job j ∈ ws ∧ j.id = u := by
  obtain ⟨j, hj, rfl⟩ := h
  obtain ⟨j₀, he, h₀ | h₀⟩ := link_of_mem_jobs hj
  · exact .inl ⟨j₀, h₀, congrArg (·.1) he⟩
  · exact .inr ⟨j₀, h₀, congrArg (·.1) he⟩

theorem hasJob_of_plain {db : Database} {ws : List Write} {u : Uuid} (hw : ∀ w ∈ ws, w.Plain)
    (h : (db.applyAll ws).HasJob u) : db.HasJob u := by
  rcases hasJob_applyAll h with h | ⟨j, hj, -⟩
  · exact h
  · cases (hw _ hj).keys

/-- The jobs that a transaction creates have been drawn by its thread. -/
theorem drawn_of_complete {ws : List Write} (h : Complete i s ws) {j : Job} (hj : .job j ∈ ws) :
    (j.id, i) ∈ s.drawn := by
  cases h with
  | nil => cases hj
  | decision e id reviewId t =>
    simp only [decisionBundle] at hj
    split at hj <;> simp at hj
  | ingest c jobId tenantId t hd =>
    simp only [ingestBundle, List.mem_cons, Write.job.injEq, reduceCtorEq, false_or, List.not_mem_nil,
      or_false] at hj
    exact hj ▸ hd

/-- Only one thread draws an identifier. -/
theorem drawn_unique (h : (s.drawn.map Prod.fst).Nodup) {u : Uuid} (hi : (u, i) ∈ s.drawn)
    (hj : (u, j) ∈ s.drawn) : i = j := by
  have := List.inj_on_of_nodup_map h hi hj rfl
  exact congrArg Prod.snd this

/-- Requests after which a thread knows what it knew before. -/
def Ordinary : Cmd → Prop
  | .begin | .commit | .rollback | .utcnow | .uuid4 => False
  | _ => True

/-- Changes outside the database and the clock. -/
theorem Kept.of_grows (h : s.Grows s') (hd : s'.db = s.db) (ht : s'.txn j = s.txn j)
    (hu : ∀ u, (u, j) ∈ s'.drawn → (u, j) ∈ s.drawn) (hc : s'.clockRead j = s.clockRead j) :
    Kept j s s' :=
  ⟨h, ht, hu, fun _ _ hj => hd ▸ hj, hc⟩

/-- Changes of transactions, of Redis and of the clock readings. -/
theorem Kept.of_eq (hn : s'.now = s.now) (hd : s'.db = s.db) (hm : s'.messages = s.messages)
    (hx : s'.nextMsg = s.nextMsg) (hu : s'.drawn = s.drawn) (hl : s'.log = s.log)
    (ht : s'.txn j = s.txn j) (hc : s'.clockRead j = s.clockRead j) : Kept j s s' := by
  refine .of_grows (.of_messages hn.ge (hd ▸ .refl _) hm hx.ge ?_ ?_) hd ht (fun u h => hu ▸ h) hc
  · rw [hu]; exact List.Subset.refl _
  · rw [hl]; exact List.Subset.refl _

/-- The transactions to be committed are complete. -/
theorem complete_pending (hc : Contract D i s .commit) : Complete i s (s.pending i) := by
  cases ht : s.txn i with
  | none => rw [pending_of_idle ht]; exact .nil
  | some t =>
    cases t with
    | active t ws => rw [pending_of_txn ht]; exact hc t ws ht
    | aborted => rw [pending_of_aborted ht]; exact .nil

/-- A request whose contract holds keeps what the other threads count on, and
most requests what the thread itself does. -/
theorem kept_of_change {q : Cmd} (hi : Inv s) (hc : Contract D i s q) (h : Change i s q s')
    (hj : j ≠ i ∨ (Ordinary q ∧ s.txn i = none)) : Kept j s s' := by
  cases h with
  | same => exact .refl s
  | @write st u a ws idle run free =>
    simp only [Contract, idle] at hc
    have hw : ∀ w ∈ ws, w.Plain := fun w hw => plain_of_alone hc (makes_of_run run w hw)
    refine ⟨.of_messages (Nat.le_refl _) (extends_applyAll _ _) rfl (Nat.le_refl _) (List.Subset.refl _)
      (List.Subset.refl _), rfl, fun _ h => h, fun _ _ h => hasJob_of_plain hw h, rfl⟩
  | pend active | abort active =>
    rcases hj with hj | ⟨-, hj⟩
    · exact .of_eq rfl rfl rfl rfl rfl rfl (txn_setTxn_ne _ _ hj) rfl
    · rw [hj] at active
      cases active
  | begin =>
    rcases hj with hj | ⟨hj, -⟩
    · exact .of_eq rfl rfl rfl rfl rfl rfl (txn_setTxn_ne _ _ hj) rfl
    · exact hj.elim
  | commit =>
    rcases hj with hj | ⟨hj, -⟩
    · have hcomp := complete_pending hc
      refine ⟨.of_messages (Nat.le_refl _) (extends_applyAll _ _) rfl (Nat.le_refl _) (List.Subset.refl _)
        (List.Subset.refl _), txn_finish_ne _ _ hj, fun _ h => h, fun u hu h => ?_, rfl⟩
      rcases hasJob_applyAll h with h | ⟨j', hj', rfl⟩
      · exact h
      · exact absurd (drawn_unique hi.drawn hu (drawn_of_complete hcomp hj')) hj
    · exact hj.elim
  | drop h =>
    rcases hj with hj | ⟨hj, -⟩
    · exact .of_eq rfl rfl rfl rfl rfl rfl (txn_finish_ne _ _ hj) rfl
    · rcases h with rfl | rfl <;> exact hj.elim
  | redisSet | redisDel => exact .of_eq rfl rfl rfl rfl rfl rfl rfl rfl
  | redisExpire =>
    simp only [World.redisExpire]
    split
    · exact .refl s
    · split <;> exact .of_eq rfl rfl rfl rfl rfl rfl rfl rfl
  | clock =>
    rcases hj with hj | ⟨hj, -⟩
    · exact .of_eq rfl rfl rfl rfl rfl rfl rfl (Function.update_of_ne hj _ _)
    · exact hj.elim
  | draw =>
    rcases hj with hj | ⟨hj, -⟩
    · refine .of_grows (.of_messages (Nat.le_refl _) (.refl _) rfl (Nat.le_refl _)
        (List.subset_cons_self _ _) (List.Subset.refl _)) rfl rfl (fun u h => ?_) rfl
      rcases List.mem_cons.mp h with h | h
      · exact absurd (congrArg Prod.snd h) hj
      · exact h
    · exact hj.elim
  | enqueue | sendMessage => exact .of_grows (grows_send _ _) rfl rfl (fun _ h => h) rfl
  | delete =>
    exact .of_grows (grows_remove hi.queued fun id h => List.mem_singleton.mp h ▸ hc) (db_remove ..)
      (txn_remove ..) (fun _ h => drawn_remove s _ _ ▸ h) (by cases ‹QueueName› <;> rfl)
  | acknowledge hs =>
    exact .of_grows (grows_remove hi.queued fun id h => hc id (hs h)) rfl rfl (fun _ h => h) rfl
  | log =>
    exact .of_grows (.of_messages (Nat.le_refl _) (.refl _) rfl (Nat.le_refl _) (List.Subset.refl _)
      (List.subset_append_left _ _)) rfl rfl (fun _ h => h) rfl

/-! ## The invariant is kept -/

theorem Stored.of_change {q : Cmd} (h : Stored s) (hc : Contract D i s q) (hx : Change i s q s') :
    Stored s' := by
  cases hx with
  | same => exact h
  | @write st u a ws idle run free =>
    simp only [Contract, idle] at hc
    have hw : ∀ w ∈ ws, w.Plain := fun w hw => plain_of_alone hc (makes_of_run run w hw)
    have hk : ws.flatMap Write.keys = [] := by
      simpa using fun w hm => (hw w hm).keys
    refine h.apply (i := i) ws rfl (fun _ _ => rfl) (pending_of_idle idle) ?_ ?_ ?_ ?_
    · rw [hk, List.append_nil]
      exact (h.keys i).of_append_left
    · rw [hk]
      exact fun _ _ => List.disjoint_nil_left _
    · exact fun w hm => ((writable_of_run run).refs w hm).mono (extends_applyAll _ _)
    · exact decided_of_plain hw h.decided
  | pend active run free =>
    simp only [Contract, active] at hc
    exact h.pend active run free hc
  | abort => exact h.clearTxn rfl (fun _ hj => txn_setTxn_ne _ _ hj) (pending_of_aborted (txn_setTxn_self ..))
  | begin => exact h.clearTxn rfl (fun _ hj => txn_setTxn_ne _ _ hj) (pending_of_txn (txn_setTxn_self ..))
  | commit =>
    exact h.apply (i := i) (s.pending i) rfl (fun _ hj => txn_finish_ne _ _ hj)
      (pending_of_idle (txn_finish_self ..)) (h.keys i) (fun _ hj => h.apart hj.symm) (h.refs i)
      (decided_of_complete (complete_pending hc) h.decided)
  | drop => exact h.clearTxn rfl (fun _ hj => txn_finish_ne _ _ hj) (pending_of_idle (txn_finish_self ..))
  | redisExpire =>
    simp only [World.redisExpire]
    split
    · exact h
    · split <;> exact h.congr rfl fun _ => rfl
  | delete => exact h.congr (db_remove ..) fun _ => txn_remove ..
  | _ => exact h.congr rfl fun _ => rfl

theorem Queued.of_change {q : Cmd} (h : Queued s) (hc : Contract D i s q) (hx : Change i s q s') :
    Queued s' := by
  cases hx with
  | same => exact h
  | enqueue => exact h.send _ hc.2.2
  | sendMessage => exact h.send _ hc
  | delete | acknowledge => exact h.remove _ _
  | redisExpire =>
    simp only [World.redisExpire]
    split
    · exact h
    · split <;> exact h.of_messages (.refl _) rfl (Nat.le_refl _)
  | write | commit => exact h.of_messages (extends_applyAll _ _) rfl (Nat.le_refl _)
  | _ => exact h.of_messages (.refl _) rfl (Nat.le_refl _)

theorem Owned.of_links (h : Owned s) (hj : s'.db.jobs.map Job.link ⊆ s.db.jobs.map Job.link)
    (hc : s.db.contents ⊆ s'.db.contents) (hd : s.drawn ⊆ s'.drawn) : Owned s' := by
  intro x hx
  obtain ⟨⟨k, hk⟩, c, hm, h'⟩ := h x (hj hx)
  exact ⟨⟨k, hd hk⟩, c, hc hm, h'⟩

theorem Owned.congr (h : Owned s) (hd : s'.db = s.db) (hr : s.drawn ⊆ s'.drawn) : Owned s' :=
  h.of_links (hd ▸ List.Subset.refl _) (hd ▸ List.Subset.refl _) hr

/-- A job that is committed has been drawn, and is committed with its content. -/
theorem Owned.complete (h : Owned s) {ws : List Write} (hc : Complete i s ws) (hd : s'.db = s.db.applyAll ws)
    (hr : s'.drawn = s.drawn) : Owned s' := by
  intro x hx
  rw [hd, jobs_applyAll JobUpdate.link_apply, List.mem_append] at hx
  rw [hd, hr, contents_applyAll]
  rcases hx with hx | hx
  · obtain ⟨hk, c, hm, h'⟩ := h x hx
    exact ⟨hk, c, List.mem_append_left _ hm, h'⟩
  cases hc with
  | nil => cases hx
  | decision e id reviewId t =>
    simp only [decisionBundle] at hx
    split at hx <;> cases hx
  | ingest c jobId tenantId t hdr =>
    simp only [ingestBundle, List.filterMap_cons, Write.job?, List.filterMap_nil, List.map_cons, List.map_nil,
      List.mem_singleton] at hx
    subst hx
    exact ⟨⟨i, hdr⟩, c, List.mem_append_right _ List.mem_cons_self, rfl, rfl⟩

theorem Owned.of_change {q : Cmd} (h : Owned s) (hc : Contract D i s q) (hx : Change i s q s') :
    Owned s' := by
  cases hx with
  | same => exact h
  | @write st u a ws idle run free =>
    simp only [Contract, idle] at hc
    refine h.of_links ?_ (extends_applyAll _ _).contents (List.Subset.refl _)
    intro x hx
    rw [jobs_applyAll JobUpdate.link_apply, List.mem_append] at hx
    refine hx.elim id fun hx => ?_
    obtain ⟨j, hj, -⟩ := List.mem_map.mp hx
    rcases plain_of_alone hc (makes_of_run run _ (mem_of_filterMap_job hj)) with
      ⟨_, h, -⟩ | ⟨_, _, h, -⟩ | ⟨_, _, h⟩ <;> cases h
  | commit => exact h.complete (complete_pending hc) rfl rfl
  | draw => exact h.congr rfl (List.subset_cons_self _ _)
  | redisExpire =>
    simp only [World.redisExpire]
    split
    · exact h
    · split <;> exact h.congr rfl (List.Subset.refl _)
  | delete => exact h.congr (db_remove ..) (drawn_remove s _ _ ▸ List.Subset.refl _)
  | _ => exact h.congr rfl (List.Subset.refl _)

theorem Inv.of_change {q : Cmd} (h : Inv s) (hc : Contract D i s q) (hx : Change i s q s') : Inv s' := by
  refine ⟨h.stored.of_change hc hx, h.queued.of_change hc hx, ?_, h.owned.of_change hc hx⟩
  have hd := h.drawn
  cases hx with
  | draw fresh =>
    rw [List.map_cons, List.nodup_cons]
    exact ⟨fun hm => by
      obtain ⟨v, hv, he⟩ := List.mem_map.mp hm
      exact fresh v hv he, hd⟩
  | redisExpire =>
    simp only [World.redisExpire]
    split
    · exact hd
    · split <;> exact hd
  | delete => rwa [drawn_remove]
  | _ => exact hd

/-! ## Events and crashes -/

theorem inv_tick (h : Inv s) (d : Nat) : Inv (s.tick d) :=
  ⟨h.stored.congr rfl fun _ => rfl, h.queued.of_messages (.refl _) rfl (Nat.le_refl _), h.drawn, h.owned⟩

theorem kept_tick (s : World) (d : Nat) : Kept j s (s.tick d) :=
  .of_grows (.of_messages (Nat.le_add_right _ _) (.refl _) rfl (Nat.le_refl _) (List.Subset.refl _)
    (List.Subset.refl _)) rfl rfl (fun _ h => h) rfl

theorem event_ok {v : Event} (h : Inv s) (hx : World.event v s = some s') : Inv s' ∧ ∀ j, Kept j s s' := by
  cases v with
  | tick d =>
    cases hx
    exact ⟨inv_tick h d, fun _ => kept_tick s d⟩
  | loseKey key =>
    cases hx
    exact ⟨⟨h.stored.congr rfl fun _ => rfl, h.queued.of_messages (.refl _) rfl (Nat.le_refl _), h.drawn, h.owned⟩,
      fun _ => .of_eq rfl rfl rfl rfl rfl rfl rfl rfl⟩
  | toDlq id =>
    obtain ⟨m, hm, rfl⟩ := Option.map_eq_some_iff.mp hx
    have hp := messages_toDlq h.queued hm
    refine ⟨⟨h.stored.congr rfl fun _ => rfl, ⟨?_, ?_, ?_⟩, h.drawn, h.owned⟩, fun _ => ?_⟩
    · exact (hp.map _).nodup_iff.mpr h.queued.ids
    · exact fun m' hm' => h.queued.below m' (hp.mem_iff.mp hm')
    · exact fun m' hm' => h.queued.bodies m' (hp.mem_iff.mp hm')
    · refine .of_grows ⟨Nat.le_refl _, .refl _, Nat.le_refl _, fun m' hm' => .inl (hp.mem_iff.mp hm'),
        List.Subset.refl _, List.Subset.refl _, fun n b hc => ?_⟩ rfl rfl (fun _ h => h) rfl
      exact hc.imp (fun ⟨m', hm', h'⟩ => ⟨m', hp.mem_iff.mpr hm', h'⟩) fun h => h

theorem crash_ok (h : Inv s) : Inv (s.crash i) ∧ ∀ j ≠ i, Kept j s (s.crash i) :=
  ⟨⟨h.stored.clearTxn rfl (fun _ hj => txn_setTxn_ne _ _ hj) (pending_of_idle (txn_setTxn_self ..)),
    h.queued.of_messages (.refl _) rfl (Nat.le_refl _), h.drawn, h.owned⟩,
  fun _ hj => .of_eq rfl rfl rfl rfl rfl rfl (txn_setTxn_ne _ _ hj) rfl⟩

/-- The rules are kept by every request. -/
theorem valid (D : Deployment) (A : Prop) : (rules D A).Valid where
  refl s := .refl s
  trans h h' := h.trans h'
  step hi hp _ hx :=
    have hc := change_of_exec hx
    ⟨hi.of_change hp.1 hc, fun _ hj => kept_of_change hi hp.1 hc (.inl hj)⟩
  env h hx := event_ok h hx
  crash h := crash_ok h

end CM
