import ContentModeration.Impl.Sql
import Mathlib.Data.List.Perm.Basic

/-!
# Rows after writes

What a list of writes leaves in each table (`contents_applyAll` and its
siblings): the old rows and then the inserted ones; of `jobs` and
`review_queue`, whose rows are also updated, what no update changes
(`Job.link`, `ReviewRow.link`). From these follow that tables only grow
(`Database.Extends`), that the unique keys are those of the old rows and of
the inserted ones (`keys_applyAll`), and that foreign keys keep pointing to
rows (`FkOk`). `run_ok` says what a statement can write.
-/

namespace CM

/-- What no statement changes of a job. -/
def Job.link (j : Job) : Uuid × Uuid × String := (j.id, j.contentId, j.contentHash)

/-- What no statement changes of a review. -/
def ReviewRow.link (r : ReviewRow) : Uuid × Uuid × Uuid × Uuid := (r.id, r.decisionId, r.contentId, r.jobId)

@[simp] theorem JobUpdate.link_apply (u : JobUpdate) (j : Job) : (u.apply j).link = j.link := by
  cases u <;> rfl

@[simp] theorem ReviewUpdate.link_apply (u : ReviewUpdate) (r : ReviewRow) :
    (u.apply r).link = r.link := by
  cases u <;> rfl

@[simp] theorem JobUpdate.id_apply (u : JobUpdate) (j : Job) : (u.apply j).id = j.id := by
  cases u <;> rfl

@[simp] theorem ReviewUpdate.id_apply (u : ReviewUpdate) (r : ReviewRow) : (u.apply r).id = r.id := by
  cases u <;> rfl

namespace Write

/-! ## The inserted rows -/

def content? : Write → Option ContentItem
  | .content row => some row
  | _ => none

def job? : Write → Option Job
  | .job row => some row
  | _ => none

def decision? : Write → Option DecisionRow
  | .decision row => some row
  | _ => none

def review? : Write → Option ReviewRow
  | .review row => some row
  | _ => none

def audit? : Write → Option AuditRow
  | .audit row => some row
  | _ => none

def metric? : Write → Option MetricRow
  | .metric row => some row
  | _ => none

/-- What a write makes of a job that is there. -/
def toJob (w : Write) (j : Job) : Job :=
  match w with
  | .updateJob id u => if j.id = id then u.apply j else j
  | _ => j

theorem toJob_of_other {w : Write} (h : ∀ id u, w ≠ .updateJob id u) : w.toJob = fun j => j := by
  cases w with
  | updateJob id u => exact absurd rfl (h id u)
  | _ => rfl

@[simp] theorem id_toJob (w : Write) (j : Job) : (w.toJob j).id = j.id := by
  cases w with
  | updateJob id u =>
    simp only [toJob]
    split <;> simp
  | _ => rfl

end Write

theorem append_subset_append {α : Type} {l l' : List α} (r : List α) (h : l ⊆ l') : l ++ r ⊆ l' ++ r :=
  List.append_subset.mpr ⟨fun _ hx => List.mem_append_left _ (h hx), List.subset_append_right _ _⟩

namespace Database

variable {db db' db'' : Database} {ws : List Write}

theorem contents_applyAll (db : Database) (ws : List Write) :
    (db.applyAll ws).contents = db.contents ++ ws.filterMap Write.content? := by
  induction ws generalizing db with
  | nil => simp
  | cons w ws ih => cases w <;> simp [ih, apply, Write.content?, List.filterMap_cons]

theorem decisions_applyAll (db : Database) (ws : List Write) :
    (db.applyAll ws).decisions = db.decisions ++ ws.filterMap Write.decision? := by
  induction ws generalizing db with
  | nil => simp
  | cons w ws ih => cases w <;> simp [ih, apply, Write.decision?, List.filterMap_cons]

theorem audit_applyAll (db : Database) (ws : List Write) :
    (db.applyAll ws).audit = db.audit ++ ws.filterMap Write.audit? := by
  induction ws generalizing db with
  | nil => simp
  | cons w ws ih => cases w <;> simp [ih, apply, Write.audit?, List.filterMap_cons]

theorem metrics_applyAll (db : Database) (ws : List Write) :
    (db.applyAll ws).metrics = db.metrics ++ ws.filterMap Write.metric? := by
  induction ws generalizing db with
  | nil => simp
  | cons w ws ih => cases w <;> simp [ih, apply, Write.metric?, List.filterMap_cons]

/-- Of the jobs, what no update changes. -/
theorem jobs_applyAll {α : Type} {f : Job → α} (hf : ∀ (u : JobUpdate) j, f (u.apply j) = f j)
    (db : Database) (ws : List Write) :
    (db.applyAll ws).jobs.map f = db.jobs.map f ++ (ws.filterMap Write.job?).map f := by
  induction ws generalizing db with
  | nil => simp
  | cons w ws ih =>
    cases w with
    | updateJob id u =>
      have : (db.jobs.map fun j => if j.id = id then u.apply j else j).map f = db.jobs.map f := by
        rw [List.map_map]
        refine List.map_congr_left fun j _ => ?_
        simp only [Function.comp]
        split
        · exact hf u j
        · rfl
      simp [ih, apply, Write.job?, List.filterMap_cons, this]
    | _ => simp [ih, apply, Write.job?, List.filterMap_cons]

/-- Of the jobs with an identifier, the first after a write. -/
theorem job?_apply (db : Database) (w : Write) (id : Uuid) :
    (db.apply w).job? id = ((db.job? id).map w.toJob).or (w.job?.filter fun j => j.id = id) := by
  cases w with
  | job row =>
    rw [Write.toJob_of_other (by simp), Option.map_id']
    simp only [job?, apply, List.find?_append, Write.job?, List.find?_singleton, Option.filter_some]
  | updateJob id' u =>
    have hid : ((fun j : Job => decide (j.id = id)) ∘ fun j => if j.id = id' then u.apply j else j) =
        fun j => decide (j.id = id) := by
      funext j
      simp only [Function.comp]
      split <;> simp
    simp only [job?, apply, List.find?_map, hid, Write.job?, Option.filter_none, Option.or_none]
    rfl
  | _ =>
    rw [Write.toJob_of_other (by simp), Option.map_id']
    simp [job?, apply, Write.job?]

theorem find?_of_nodup {α β : Type} [DecidableEq β] {f : α → β} {l : List α} (h : (l.map f).Nodup) {a : α}
    (ha : a ∈ l) :
    l.find? (fun x => decide (f x = f a)) = some a := by
  induction l with
  | nil => cases ha
  | cons b l ih =>
    obtain ⟨hb, hl⟩ := List.nodup_cons.mp h
    rcases List.mem_cons.mp ha with rfl | ha
    · rw [List.find?_cons_of_pos (by simp)]
    · have hne : f b ≠ f a := fun he => hb (he ▸ List.mem_map_of_mem ha)
      rw [List.find?_cons_of_neg (by simpa using hne)]
      exact ih hl ha

/-- A job that is there is the same row after writes, with what they make of it. -/
theorem job?_applyAll {id : Uuid} {j : Job} (h : db.job? id = some j) (ws : List Write) :
    (db.applyAll ws).job? id = some (ws.foldl (fun j w => w.toJob j) j) := by
  induction ws generalizing db j with
  | nil => exact h
  | cons w ws ih =>
    refine ih ?_
    rw [job?_apply, h]
    rfl

/-- Of the reviews, what no update changes. -/
theorem reviews_applyAll {α : Type} {f : ReviewRow → α} (hf : ∀ (u : ReviewUpdate) r, f (u.apply r) = f r)
    (db : Database) (ws : List Write) :
    (db.applyAll ws).reviews.map f = db.reviews.map f ++ (ws.filterMap Write.review?).map f := by
  induction ws generalizing db with
  | nil => simp
  | cons w ws ih =>
    cases w with
    | updateReview id u =>
      have : (db.reviews.map fun r => if r.id = id then u.apply r else r).map f = db.reviews.map f := by
        rw [List.map_map]
        refine List.map_congr_left fun r _ => ?_
        simp only [Function.comp]
        split
        · exact hf u r
        · rfl
      simp [ih, apply, Write.review?, List.filterMap_cons, this]
    | _ => simp [ih, apply, Write.review?, List.filterMap_cons]

/-! ## Tables grow -/

/-- Everything that is in `db` is in `db'`, apart from updates. -/
structure Extends (db db' : Database) : Prop where
  contents : db.contents ⊆ db'.contents
  jobs : db.jobs.map Job.link ⊆ db'.jobs.map Job.link
  decisions : db.decisions ⊆ db'.decisions
  reviews : db.reviews.map ReviewRow.link ⊆ db'.reviews.map ReviewRow.link
  audit : db.audit ⊆ db'.audit

theorem Extends.refl (db : Database) : db.Extends db :=
  ⟨fun _ h => h, fun _ h => h, fun _ h => h, fun _ h => h, fun _ h => h⟩

theorem Extends.trans (h : db.Extends db') (h' : db'.Extends db'') : db.Extends db'' :=
  ⟨List.Subset.trans h.1 h'.1, List.Subset.trans h.2 h'.2, List.Subset.trans h.3 h'.3,
    List.Subset.trans h.4 h'.4, List.Subset.trans h.5 h'.5⟩

theorem extends_applyAll (db : Database) (ws : List Write) : db.Extends (db.applyAll ws) where
  contents := by rw [contents_applyAll]; exact List.subset_append_left _ _
  jobs := by rw [jobs_applyAll JobUpdate.link_apply]; exact List.subset_append_left _ _
  decisions := by rw [decisions_applyAll]; exact List.subset_append_left _ _
  reviews := by rw [reviews_applyAll ReviewUpdate.link_apply]; exact List.subset_append_left _ _
  audit := by rw [audit_applyAll]; exact List.subset_append_left _ _

/-- The same writes keep that one database extends another. -/
theorem Extends.applyAll (h : db.Extends db') (ws : List Write) : (db.applyAll ws).Extends (db'.applyAll ws) where
  contents := by
    simp only [contents_applyAll]
    exact append_subset_append _ h.contents
  jobs := by
    simp only [jobs_applyAll JobUpdate.link_apply]
    exact append_subset_append _ h.jobs
  decisions := by
    simp only [decisions_applyAll]
    exact append_subset_append _ h.decisions
  reviews := by
    simp only [reviews_applyAll ReviewUpdate.link_apply]
    exact append_subset_append _ h.reviews
  audit := by
    simp only [audit_applyAll]
    exact append_subset_append _ h.audit

/-- There is a content item `id`. -/
def HasContent (db : Database) (id : Uuid) : Prop := ∃ c ∈ db.contents, c.id = id

/-- There is a decision `id`. -/
def HasDecision (db : Database) (id : Uuid) : Prop := ∃ d ∈ db.decisions, d.id = id

/-- There is a job `id`. -/
def HasJob (db : Database) (id : Uuid) : Prop := ∃ j ∈ db.jobs, j.id = id

/-- The job `jobId` has a decision. -/
def Decided (db : Database) (jobId : Uuid) : Prop := ∃ d ∈ db.decisions, d.envelope.jobId = jobId

theorem exists_link {j : Job} (h : db.Extends db') (hj : j ∈ db.jobs) :
    ∃ j' ∈ db'.jobs, j'.link = j.link := List.mem_map.mp (h.jobs (List.mem_map_of_mem hj))

theorem exists_review_link {r : ReviewRow} (h : db.Extends db') (hr : r ∈ db.reviews) :
    ∃ r' ∈ db'.reviews, r'.link = r.link := List.mem_map.mp (h.reviews (List.mem_map_of_mem hr))

theorem HasJob.mono {id : Uuid} (h : db.Extends db') (hj : db.HasJob id) : db'.HasJob id := by
  obtain ⟨j, hj, rfl⟩ := hj
  obtain ⟨j', hj', he⟩ := exists_link h hj
  exact ⟨j', hj', congrArg (·.1) he⟩

theorem Decided.mono {jobId : Uuid} (h : db.Extends db') (hd : db.Decided jobId) : db'.Decided jobId := by
  obtain ⟨d, hd, rfl⟩ := hd
  exact ⟨d, h.decisions hd, rfl⟩

theorem HasContent.mono {id : Uuid} (h : db.Extends db') (hc : db.HasContent id) : db'.HasContent id := by
  obtain ⟨c, hc, rfl⟩ := hc
  exact ⟨c, h.contents hc, rfl⟩

theorem HasDecision.mono {id : Uuid} (h : db.Extends db') (hd : db.HasDecision id) :
    db'.HasDecision id := by
  obtain ⟨d, hd, rfl⟩ := hd
  exact ⟨d, h.decisions hd, rfl⟩

theorem job?_isSome {id : Uuid} : (db.job? id).isSome ↔ db.HasJob id := by
  simp [job?, HasJob]

theorem decisionOf?_isSome {jobId : Uuid} : (db.decisionOf? jobId).isSome ↔ db.Decided jobId := by
  simp [decisionOf?, Decided]

theorem content?_isSome {id : Uuid} : (db.content? id).isSome ↔ db.HasContent id := by
  simp [content?, HasContent]

theorem decision?_isSome {id : Uuid} : (db.decision? id).isSome ↔ db.HasDecision id := by
  simp [decision?, HasDecision]

/-! ## Unique keys -/

theorem keys_apply (db : Database) (w : Write) : (db.apply w).keys.Perm (db.keys ++ w.keys) := by
  refine List.perm_iff_count.mpr fun k => ?_
  cases w with
  | updateJob id u =>
    have h₁ := jobs_applyAll (f := fun j => UniqueKey.jobId j.id) (fun u j => by cases u <;> rfl) db [.updateJob id u]
    have h₂ := jobs_applyAll (f := fun j => UniqueKey.jobHash j.contentHash) (fun u j => by cases u <;> rfl)
      db [.updateJob id u]
    simp only [applyAll_cons, applyAll_nil, Write.job?, List.filterMap_cons, List.filterMap_nil, List.map_nil,
      List.append_nil] at h₁ h₂
    simp only [keys, h₁, h₂, Write.keys, List.append_nil]
    rfl
  | updateReview id u =>
    have h₁ := reviews_applyAll (f := fun r => UniqueKey.reviewId r.id) (fun u j => by cases u <;> rfl)
      db [.updateReview id u]
    have h₂ := reviews_applyAll (f := fun r => UniqueKey.reviewDecision r.decisionId)
      (fun u j => by cases u <;> rfl) db [.updateReview id u]
    simp only [applyAll_cons, applyAll_nil, Write.review?, List.filterMap_cons, List.filterMap_nil, List.map_nil,
      List.append_nil] at h₁ h₂
    simp only [keys, h₁, h₂, Write.keys, List.append_nil]
    rfl
  | _ => simp only [keys, apply, Write.keys, List.map_append, List.map_cons, List.map_nil, List.count_append,
      List.count_cons, List.count_nil]; omega

/-- The unique keys are those of the old rows and of the inserted ones. -/
theorem keys_applyAll (db : Database) (ws : List Write) :
    (db.applyAll ws).keys.Perm (db.keys ++ ws.flatMap Write.keys) := by
  induction ws generalizing db with
  | nil => simp
  | cons w ws ih =>
    refine (ih (db.apply w)).trans ?_
    rw [List.flatMap_cons, ← List.append_assoc]
    exact (keys_apply db w).append_right _

/-- No two rows share an identifier or another unique column. -/
structure UniqueRows (db : Database) : Prop where
  contents : (db.contents.map (·.id)).Nodup
  contentHashes : (db.contents.map (·.contentHash)).Nodup
  jobs : (db.jobs.map (·.id)).Nodup
  jobHashes : (db.jobs.map (·.contentHash)).Nodup
  decisions : (db.decisions.map (·.id)).Nodup
  decisionJobs : (db.decisions.map (·.envelope.jobId)).Nodup
  reviews : (db.reviews.map (·.id)).Nodup
  reviewDecisions : (db.reviews.map (·.decisionId)).Nodup

theorem uniqueRows_of_keys (h : db.keys.Nodup) : db.UniqueRows := by
  have column : ∀ {α β : Type} {l : List α} (f : α → β) (g : β → UniqueKey), (l.map fun x => g (f x)).Nodup →
      (l.map f).Nodup := fun f g hn => List.Nodup.of_map g (by rwa [List.map_map])
  simp only [keys, List.append_assoc] at h
  obtain ⟨h₁, h, -⟩ := List.nodup_append'.mp h
  obtain ⟨h₂, h, -⟩ := List.nodup_append'.mp h
  obtain ⟨h₃, h, -⟩ := List.nodup_append'.mp h
  obtain ⟨h₄, h, -⟩ := List.nodup_append'.mp h
  obtain ⟨h₅, h, -⟩ := List.nodup_append'.mp h
  obtain ⟨h₆, h, -⟩ := List.nodup_append'.mp h
  obtain ⟨h₇, h₈, -⟩ := List.nodup_append'.mp h
  exact ⟨column ContentItem.id .contentId h₁, column ContentItem.contentHash .contentHash h₂,
    column Job.id .jobId h₃, column Job.contentHash .jobHash h₄, column DecisionRow.id .decisionId h₅,
    column (fun d : DecisionRow => d.envelope.jobId) .decisionJob h₆, column ReviewRow.id .reviewId h₇,
    column ReviewRow.decisionId .reviewDecision h₈⟩

theorem UniqueRows.job?_of_mem (h : db.UniqueRows) {j : Job} (hj : j ∈ db.jobs) : db.job? j.id = some j :=
  find?_of_nodup h.jobs hj

/-! ## Foreign keys -/

/-- The rows that an inserted row refers to are there. -/
def Refs (db : Database) : Write → Prop
  | .job row => db.HasContent row.contentId
  | .decision row => db.HasJob row.envelope.jobId ∧ db.HasContent row.envelope.contentId
  | .review row => db.HasDecision row.decisionId ∧ db.HasContent row.contentId ∧ db.HasJob row.jobId
  | _ => True

/-- Every foreign key points to a row. -/
structure FkOk (db : Database) : Prop where
  jobs : ∀ j ∈ db.jobs, db.HasContent j.contentId
  decisions : ∀ d ∈ db.decisions, db.HasJob d.envelope.jobId ∧ db.HasContent d.envelope.contentId
  reviews : ∀ r ∈ db.reviews,
    db.HasDecision r.decisionId ∧ db.HasContent r.contentId ∧ db.HasJob r.jobId

theorem Refs.mono {w : Write} (h : db.Extends db') (hw : db.Refs w) : db'.Refs w := by
  cases w with
  | job row => exact HasContent.mono h hw
  | decision row => exact ⟨hw.1.mono h, hw.2.mono h⟩
  | review row => exact ⟨hw.1.mono h, hw.2.1.mono h, hw.2.2.mono h⟩
  | _ => trivial

theorem mem_of_filterMap_job {j : Job} (h : j ∈ ws.filterMap Write.job?) : .job j ∈ ws := by
  obtain ⟨w, hw, he⟩ := List.mem_filterMap.mp h
  cases w <;> simp only [Write.job?, Option.some.injEq, reduceCtorEq] at he
  exact he ▸ hw

theorem mem_of_filterMap_decision {d : DecisionRow} (h : d ∈ ws.filterMap Write.decision?) :
    .decision d ∈ ws := by
  obtain ⟨w, hw, he⟩ := List.mem_filterMap.mp h
  cases w <;> simp only [Write.decision?, Option.some.injEq, reduceCtorEq] at he
  exact he ▸ hw

theorem mem_of_filterMap_review {r : ReviewRow} (h : r ∈ ws.filterMap Write.review?) :
    .review r ∈ ws := by
  obtain ⟨w, hw, he⟩ := List.mem_filterMap.mp h
  cases w <;> simp only [Write.review?, Option.some.injEq, reduceCtorEq] at he
  exact he ▸ hw

/-- A job is an old one or an inserted one, apart from updates. -/
theorem link_of_mem_jobs {j : Job} (h : j ∈ (db.applyAll ws).jobs) :
    ∃ j₀, j₀.link = j.link ∧ (j₀ ∈ db.jobs ∨ .job j₀ ∈ ws) := by
  have := List.mem_map_of_mem (f := Job.link) h
  rw [jobs_applyAll JobUpdate.link_apply, List.mem_append] at this
  rcases this with h | h
  · obtain ⟨j₀, h₀, he⟩ := List.mem_map.mp h
    exact ⟨j₀, he, .inl h₀⟩
  · obtain ⟨j₀, h₀, he⟩ := List.mem_map.mp h
    exact ⟨j₀, he, .inr (mem_of_filterMap_job h₀)⟩

/-- A review is an old one or an inserted one, apart from updates. -/
theorem link_of_mem_reviews {r : ReviewRow} (h : r ∈ (db.applyAll ws).reviews) :
    ∃ r₀, r₀.link = r.link ∧ (r₀ ∈ db.reviews ∨ .review r₀ ∈ ws) := by
  have := List.mem_map_of_mem (f := ReviewRow.link) h
  rw [reviews_applyAll ReviewUpdate.link_apply, List.mem_append] at this
  rcases this with h | h
  · obtain ⟨r₀, h₀, he⟩ := List.mem_map.mp h
    exact ⟨r₀, he, .inl h₀⟩
  · obtain ⟨r₀, h₀, he⟩ := List.mem_map.mp h
    exact ⟨r₀, he, .inr (mem_of_filterMap_review h₀)⟩

/-- Writes keep the foreign keys if what they insert refers to rows. -/
theorem FkOk.applyAll (h : db.FkOk) (hw : ∀ w ∈ ws, (db.applyAll ws).Refs w) : (db.applyAll ws).FkOk := by
  have hx := extends_applyAll db ws
  refine ⟨fun j hj => ?_, fun d hd => ?_, fun r hr => ?_⟩
  · obtain ⟨j₀, he, h₀ | h₀⟩ := link_of_mem_jobs hj
    · have : j₀.contentId = j.contentId := congrArg (·.2.1) he
      exact this ▸ (h.jobs j₀ h₀).mono hx
    · have : j₀.contentId = j.contentId := congrArg (·.2.1) he
      exact this ▸ hw _ h₀
  · rw [decisions_applyAll, List.mem_append] at hd
    rcases hd with hd | hd
    · exact ⟨(h.decisions d hd).1.mono hx, (h.decisions d hd).2.mono hx⟩
    · exact hw _ (mem_of_filterMap_decision hd)
  · obtain ⟨r₀, he, h₀ | h₀⟩ := link_of_mem_reviews hr
    · obtain ⟨h₁, h₂, h₃⟩ := h.reviews r₀ h₀
      simp only [ReviewRow.link, Prod.mk.injEq] at he
      rw [← he.2.1, ← he.2.2.1, ← he.2.2.2]
      exact ⟨h₁.mono hx, h₂.mono hx, h₃.mono hx⟩
    · obtain ⟨h₁, h₂, h₃⟩ := hw _ h₀
      simp only [ReviewRow.link, Prod.mk.injEq] at he
      rw [← he.2.1, ← he.2.2.1, ← he.2.2.2]
      exact ⟨h₁, h₂, h₃⟩

/-! ## What statements write -/

/-- What one statement may write: rows that satisfy the constraints. -/
structure Writable (db : Database) (ws : List Write) : Prop where
  refs : ∀ w ∈ ws, db.Refs w
  fresh : ∀ k ∈ ws.flatMap Write.keys, k ∉ db.keys
  nodup : (ws.flatMap Write.keys).Nodup

theorem refs_of_missing {w : Write} (h : w.missing db = none) : db.Refs w := by
  cases w <;> simp only [Refs, Write.missing] at h ⊢
  case job row =>
    split at h
    · cases h
    · rename_i hc
      exact content?_isSome.mp (Option.isSome_iff_ne_none.mpr (by simpa using hc))
  case decision row =>
    split at h
    · cases h
    · rename_i hj
      split at h
      · cases h
      · rename_i hc
        exact ⟨job?_isSome.mp (Option.isSome_iff_ne_none.mpr (by simpa using hj)),
          content?_isSome.mp (Option.isSome_iff_ne_none.mpr (by simpa using hc))⟩
  case review row =>
    split at h
    · cases h
    · rename_i hd
      split at h
      · cases h
      · rename_i hc
        split at h
        · cases h
        · rename_i hj
          exact ⟨decision?_isSome.mp (Option.isSome_iff_ne_none.mpr (by simpa using hd)),
            content?_isSome.mp (Option.isSome_iff_ne_none.mpr (by simpa using hc)),
            job?_isSome.mp (Option.isSome_iff_ne_none.mpr (by simpa using hj))⟩

theorem insert_ok {α : Type} {w : Write} {a b : α} (h : db.insert w a = .ok (b, ws)) :
    b = a ∧ ws = [w] ∧ db.Writable [w] := by
  simp only [insert] at h
  split at h
  · cases h
  · rename_i hk
    split at h
    · cases h
    · rename_i hm
      simp only [Except.ok.injEq, Prod.mk.injEq] at h
      refine ⟨h.1.symm, h.2.symm, ?_, ?_, ?_⟩
      · intro w' hw'
        rw [List.mem_singleton.mp hw']
        exact refs_of_missing hm
      · simpa using hk
      · cases w <;> simp [Write.keys]

theorem Writable.of_updates (h : ∀ w ∈ ws, (∃ id u, w = .updateJob id u) ∨ ∃ id u, w = .updateReview id u) :
    db.Writable ws := by
  have hk : ∀ w ∈ ws, w.keys = [] := fun w hw => by
    rcases h w hw with ⟨id, u, rfl⟩ | ⟨id, u, rfl⟩ <;> rfl
  have hf : ws.flatMap Write.keys = [] := by simpa using hk
  refine ⟨fun w hw => ?_, by simp [hf], by simp [hf]⟩
  rcases h w hw with ⟨id, u, rfl⟩ | ⟨id, u, rfl⟩ <;> trivial

theorem mem_updateJobIf {id : Uuid} {p : Job → Bool} {u : JobUpdate} {w : Write}
    (h : w ∈ db.updateJobIf id p u) : w = .updateJob id u ∧ ∃ j ∈ db.jobs, j.id = id ∧ p j = true := by
  simp only [updateJobIf] at h
  split at h
  · rename_i hf
    obtain ⟨j, hj⟩ := Option.isSome_iff_exists.mp hf
    have hp := List.find?_some hj
    simp only [Bool.and_eq_true, decide_eq_true_eq] at hp
    exact ⟨List.mem_singleton.mp h, j, List.mem_of_find?_eq_some hj, hp⟩
  · cases h

/-- A statement that does not raise writes rows that satisfy the constraints. -/
theorem writable_of_run {st : Sql} {now : Time} {fresh : Uuid} {a : st.Ans}
    (h : st.run db now fresh = .ok (a, ws)) : db.Writable ws := by
  have none : db.Writable [] := .of_updates (by simp)
  have jobs : ∀ {id p u}, db.Writable (db.updateJobIf id p u) := fun {id p u} =>
    .of_updates fun w hw => .inl ⟨id, u, (mem_updateJobIf hw).1⟩
  have reviews : ∀ {α : Type} (l : List α) (f : α → Uuid) u,
      db.Writable (l.map fun r => .updateReview (f r) u) := fun l f u =>
    .of_updates fun w hw => by
      obtain ⟨r, -, rfl⟩ := List.mem_map.mp hw
      exact .inr ⟨_, _, rfl⟩
  cases st with
  | insertContent | insertJob | insertMetric | insertAudit =>
    simp only [Sql.run] at h
    obtain ⟨-, rfl, hw⟩ := insert_ok h
    exact hw
  | insertDecision envelope =>
    simp only [Sql.run] at h
    split at h
    · simp only [Except.ok.injEq, Prod.mk.injEq] at h
      exact h.2 ▸ none
    · obtain ⟨-, rfl, hw⟩ := insert_ok h
      exact hw
  | insertReview decisionId contentId jobId priority =>
    simp only [Sql.run] at h
    split at h
    · simp only [Except.ok.injEq, Prod.mk.injEq] at h
      exact h.2 ▸ none
    · obtain ⟨-, rfl, hw⟩ := insert_ok h
      exact hw
  | castJobStatus id | resetJob id | auditRedrive id detail =>
    simp only [Sql.run] at h
    cases hc : castUuid id with
    | error e => rw [hc] at h; cases h
    | ok u =>
      rw [hc] at h
      simp only [bind, Except.bind, pure, Except.pure, Except.ok.injEq, Prod.mk.injEq] at h
      obtain ⟨-, rfl⟩ := h
      first
        | exact none
        | exact jobs
        | exact ⟨by simp [Refs], by simp [Write.keys], by simp [Write.keys]⟩
  | claimReview id reviewer now expires =>
    simp only [Sql.run] at h
    split at h <;> simp only [Except.ok.injEq, Prod.mk.injEq] at h <;> rw [← h.2]
    · exact .of_updates fun w hw => .inr ⟨_, _, List.mem_singleton.mp hw⟩
    · exact none
  | resolveReview id status decision notes reviewer now =>
    simp only [Sql.run] at h
    split at h <;> simp only [Except.ok.injEq, Prod.mk.injEq] at h <;> rw [← h.2]
    · exact .of_updates fun w hw => .inr ⟨_, _, List.mem_singleton.mp hw⟩
    · exact none
  | _ =>
    simp only [Sql.run, Except.ok.injEq, Prod.mk.injEq] at h
    obtain ⟨-, rfl⟩ := h
    first
      | exact none
      | exact jobs
      | exact reviews _ _ _

/-- The statement `st`, on the rows `db`, can make the write `w`. -/
inductive Makes (db : Database) (now : Time) : Sql → Write → Prop where
  | content {row} : Makes db now (.insertContent row) (.content row)
  | job {id contentId contentHash} : Makes db now (.insertJob id contentId contentHash)
      (.job { id, contentId, contentHash, status := .queued, enqueuedAt := now })
  | decision {e id} : Makes db now (.insertDecision e) (.decision ⟨id, e⟩)
  | review {decisionId contentId jobId priority id} :
    Makes db now (.insertReview decisionId contentId jobId priority)
      (.review { id, decisionId, contentId, jobId, status := .pending, priority, createdAt := now })
  | metric {eventType payload} : Makes db now (.insertMetric eventType payload) (.metric ⟨eventType, payload⟩)
  | audit {row} : Makes db now (.insertAudit row) (.audit row)
  | auditRedrive {key id detail} (cast : castUuid key = .ok id) :
    Makes db now (.auditRedrive key detail) (.audit ⟨"job", id, "redrive", "redrive-cli", detail⟩)
  | processing {id} : Makes db now (.startProcessing id) (.updateJob id (.processing now))
  | succeeded {id} : Makes db now (.markSucceeded id) (.updateJob id (.succeeded now))
  | failed {id status error} :
    Makes db now (.markFailed id status error) (.updateJob id (.failed status error now))
  | enqueueFailed {id error} : Makes db now (.markEnqueueFailed id error) (.updateJob id (.enqueueFailed error))
  | reset {key id} (cast : castUuid key = .ok id)
      (failed : ∃ j ∈ db.jobs, j.id = id ∧ (j.status = .dead ∨ j.status = .failed)) :
      Makes db now (.resetJob key) (.updateJob id (.queued now))
  | releaseExpired {t r} (expired : r ∈ db.expiredClaims t) :
    Makes db now (.releaseExpired t) (.updateReview r.id .release)
  | releaseRows {rows t r} (mem : r ∈ rows) : Makes db now (.releaseRows rows t) (.updateReview r.1 .release)
  | claim {id reviewer t expires r} (row : db.review? id = some r) (ok : r.claimable reviewer t = true) :
    Makes db now (.claimReview id reviewer t expires) (.updateReview id (.claim reviewer t expires))
  | resolve {id status decision notes reviewer t r} (row : db.review? id = some r)
      (claimed : r.status = .claimed) (owner : r.claimedBy = some reviewer) :
      Makes db now (.resolveReview id status decision notes reviewer t)
        (.updateReview id (.resolve status decision notes reviewer t))

/-- A statement makes no other writes than these. -/
theorem makes_of_run {st : Sql} {now : Time} {fresh : Uuid} {a : st.Ans}
    (h : st.run db now fresh = .ok (a, ws)) : ∀ w ∈ ws, db.Makes now st w := by
  intro w hw
  cases st with
  | insertContent | insertJob | insertMetric | insertAudit =>
    simp only [Sql.run] at h
    obtain ⟨-, rfl, -⟩ := insert_ok h
    rw [List.mem_singleton.mp hw]
    constructor
  | insertDecision | insertReview =>
    simp only [Sql.run] at h
    split at h
    · simp only [Except.ok.injEq, Prod.mk.injEq] at h
      rw [← h.2] at hw
      cases hw
    · obtain ⟨-, rfl, -⟩ := insert_ok h
      rw [List.mem_singleton.mp hw]
      constructor
  | castJobStatus id | resetJob id | auditRedrive id detail =>
    simp only [Sql.run] at h
    cases hc : castUuid id with
    | error e => rw [hc] at h; cases h
    | ok u =>
      rw [hc] at h
      simp only [bind, Except.bind, pure, Except.pure, Except.ok.injEq, Prod.mk.injEq] at h
      obtain ⟨-, rfl⟩ := h
      first
        | exact absurd hw List.not_mem_nil
        | obtain ⟨rfl, j, hj, hid, hs⟩ := mem_updateJobIf hw
          exact .reset hc ⟨j, hj, hid, by simpa using hs⟩
        | rw [List.mem_singleton.mp hw]
          exact .auditRedrive hc
  | releaseExpired t =>
    simp only [Sql.run, Except.ok.injEq, Prod.mk.injEq] at h
    rw [← h.2] at hw
    obtain ⟨r, hr, rfl⟩ := List.mem_map.mp hw
    exact .releaseExpired hr
  | releaseRows rows t =>
    simp only [Sql.run, Except.ok.injEq, Prod.mk.injEq] at h
    rw [← h.2] at hw
    obtain ⟨r, hr, rfl⟩ := List.mem_map.mp hw
    exact .releaseRows hr
  | claimReview id reviewer now expires =>
    simp only [Sql.run] at h
    split at h <;> simp only [Except.ok.injEq, Prod.mk.injEq] at h <;> rw [← h.2] at hw
    · rename_i r hr
      obtain ⟨hr, hc⟩ := Option.filter_eq_some_iff.mp hr
      rw [List.mem_singleton.mp hw]
      exact .claim hr hc
    · cases hw
  | resolveReview id status decision notes reviewer now =>
    simp only [Sql.run] at h
    split at h <;> simp only [Except.ok.injEq, Prod.mk.injEq] at h <;> rw [← h.2] at hw
    · rename_i r hr
      obtain ⟨hr, hc⟩ := Option.filter_eq_some_iff.mp hr
      obtain ⟨hs, ho⟩ := of_decide_eq_true hc
      rw [List.mem_singleton.mp hw]
      exact .resolve hr hs ho
    · cases hw
  | _ =>
    simp only [Sql.run, Except.ok.injEq, Prod.mk.injEq] at h
    rw [← h.2] at hw
    first
      | exact absurd hw List.not_mem_nil
      | obtain ⟨rfl, -⟩ := mem_updateJobIf hw
        constructor

end Database

end CM
