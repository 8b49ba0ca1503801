import ContentModeration.Impl.Harness
import ContentModeration.Proof.Vision
import Mathlib.Algebra.BigOperators.Ring.List
import Mathlib.Algebra.Order.BigOperators.Group.List
import Mathlib.Data.List.Forall2

/-!
# What the eval harness measures

The harness judges a sample as production judges an upload: on the images and captions of uploads of a run
with the local models, it reports exactly the decisions that the workers have stored, and as resolved
automatically exactly those that no human has to review (`harness_of_run`).

Whatever it is run on, its report adds up (`harness_report_sound`): every rate is between 0 and 1, no FLAG
counts as resolved automatically, the F1 of a class leaves the range of its precision and its recall by the
last digit at most, and the accuracy is between the recalls of the classes and between their precisions.
-/

namespace CM

variable {U : Unicode} {pil : Pil} {read : String → Option (List UInt8)} {args : HarnessArgs}

/-! ## The loop -/

/-- What is predicted for a sample. -/
def predicts (U : Unicode) (pil : Pil) (read : String → Option (List UInt8)) (sample : Sample) : Option Route :=
  (read sample.image).map fun imageBytes => predict U pil imageBytes sample.caption

theorem tally_foldlM {samples : List Sample} {rs : List Route} (h : samples.mapM (predicts U pil read) = some rs)
    (tally : Tally) :
    samples.foldlM (Tally.add U pil read) tally = some {
      yTrue := tally.yTrue ++ samples.map (·.label)
      yPred := tally.yPred ++ rs.map (·.decision.value)
      auto := tally.auto + rs.countP (!·.needsHumanReview) } := by
  induction samples generalizing tally rs with
  | nil =>
    obtain rfl : [] = rs := Option.some.inj h
    simp
  | cons sample samples ih =>
    rw [List.mapM_cons] at h
    obtain ⟨r, hr, h⟩ := Option.bind_eq_some_iff.mp h
    obtain ⟨rs', hrs, h⟩ := Option.bind_eq_some_iff.mp h
    obtain rfl : r :: rs' = rs := Option.some.inj h
    obtain ⟨imageBytes, hread, rfl⟩ := Option.map_eq_some_iff.mp hr
    have hadd : tally.add U pil read sample = some {
        yTrue := tally.yTrue ++ [sample.label]
        yPred := tally.yPred ++ [(predict U pil imageBytes sample.caption).decision.value]
        auto := if (predict U pil imageBytes sample.caption).needsHumanReview then tally.auto
            else tally.auto + 1 } := by
      rw [Tally.add, hread]
      rfl
    rw [List.foldlM_cons, hadd, Option.bind_eq_bind, Option.bind_some, ih hrs]
    simp only [List.map_cons, List.append_assoc, List.singleton_append, List.countP_cons, Bool.not_eq_true']
    generalize predict U pil imageBytes sample.caption = r
    cases r.needsHumanReview with
    | true => simp
    | false => simp [Nat.add_assoc, Nat.add_comm]

theorem mapM_of_foldlM {samples : List Sample} {tally tally' : Tally}
    (h : samples.foldlM (Tally.add U pil read) tally = some tally') :
    ∃ rs, samples.mapM (predicts U pil read) = some rs := by
  induction samples generalizing tally with
  | nil => exact ⟨[], rfl⟩
  | cons sample samples ih =>
    rw [List.foldlM_cons] at h
    obtain ⟨tally₁, hadd, h⟩ := Option.bind_eq_some_iff.mp h
    obtain ⟨rs, hrs⟩ := ih h
    obtain ⟨imageBytes, hread, -⟩ := Option.map_eq_some_iff.mp hadd
    refine ⟨predict U pil imageBytes sample.caption :: rs, ?_⟩
    rw [List.mapM_cons, predicts, hread, hrs]
    rfl

/-- A run of the harness that reports, told by the samples and what is predicted for them. -/
theorem harness_ok_iff {manifest : Option (List Sample)} {code : Nat} {r : Report} :
    harness U pil args manifest read = (code, some r) ↔
      code = 0 ∧ ∃ all samples rs, manifest = some all ∧ args.taken all = some samples ∧
        samples.mapM (predicts U pil read) = some rs ∧ args.minN ≤ samples.length ∧
        r = report (samples.map (·.label)) (rs.map (·.decision.value)) (rs.countP (!·.needsHumanReview)) := by
  cases manifest with
  | none => simp [harness]
  | some all =>
    cases htaken : args.taken all with
    | none => simp [harness, htaken]
    | some samples =>
      cases hpredicts : samples.mapM (predicts U pil read) with
      | none =>
        have hfold : samples.foldlM (Tally.add U pil read) {} = none := by
          rw [Option.eq_none_iff_forall_ne_some]
          intro tally hfold
          obtain ⟨rs, hrs⟩ := mapM_of_foldlM hfold
          cases hpredicts.symm.trans hrs
        simp [harness, htaken, hfold, hpredicts]
      | some rs =>
        simp only [harness, htaken, tally_foldlM hpredicts, List.nil_append, Nat.zero_add, List.length_map]
        by_cases hn : (samples.length : Int) < args.minN
        · rw [if_pos hn]
          simp only [Prod.mk.injEq, reduceCtorEq, and_false, false_iff]
          rintro ⟨-, all', samples', rs', hall, htaken', -, hmin, -⟩
          cases hall
          cases htaken.symm.trans htaken'
          omega
        · rw [if_neg hn]
          simp only [Prod.mk.injEq, Option.some.injEq]
          constructor
          · rintro ⟨rfl, rfl⟩
            exact ⟨rfl, all, samples, rs, rfl, htaken, hpredicts, not_lt.mp hn, rfl⟩
          · rintro ⟨rfl, all', samples', rs', hall, htaken', hpredicts', -, rfl⟩
            cases hall
            cases htaken.symm.trans htaken'
            cases hpredicts.symm.trans hpredicts'
            exact ⟨rfl, rfl⟩

/-! ## The harness and production -/

variable {P : Python} {D : Deployment} {now : Time} {h : List (service D).Step} {c : (service D).Config}

/-- The sample is the upload that the decision was made on. -/
def SampleOf (c : (service D).Config) (read : String → Option (List UInt8)) (sample : Sample)
    (d : DecisionRow) : Prop :=
  d ∈ c.world.db.decisions ∧ ∃ i api req, (∃ t, c.threads i = some ⟨.acceptImage api req, t⟩) ∧
    (d.envelope.contentId, i) ∈ c.world.drawn ∧ read sample.image = some req.body ∧ sample.caption = strip req.caption

/-- What is predicted for an upload is what was stored. -/
theorem predicts_of_run (hr : Pool.Run FromQueue (boot D now) h c) (hh : Honest h) (hu : UsesRules U P pil .local h)
    {sample : Sample} {d : DecisionRow} (hs : SampleOf c read sample d) :
    ∃ r, predicts U pil read sample = some r ∧ r.decision = d.envelope.decision ∧
      r.needsHumanReview = d.envelope.needsHumanReview := by
  obtain ⟨hd, i, api, req, ⟨t, hcall⟩, hdrawn, hread, hcaption⟩ := hs
  obtain ⟨i', api', req', ⟨t', hcall'⟩, hdrawn', -, -, ⟨vendors, hvision⟩,
      thresholds, hstandard, hdecision, hreview⟩ :=
    rules_of_run hr hh hu hd
  -- the content was drawn by one call
  obtain rfl := drawn_unique (inv_of_reachable hr.reachable).drawn hdrawn hdrawn'
  cases hcall.symm.trans hcall'
  have hlocal : visionAnalyze U P pil vendors .local req.body (strip req.caption) =
    analyze U pil req.body (strip req.caption) := rfl
  rw [hvision, hlocal] at hdecision hreview
  refine ⟨predict U pil req.body (strip req.caption), ?_, ?_, ?_⟩
  · rw [predicts, hread, hcaption]
    rfl
  · rw [hdecision, hstandard]
    simp only [predict, classifyAndRoute, routeDecision]
  · rw [hreview, hstandard]
    simp only [predict, classifyAndRoute, routeDecision]

theorem predicts_all_of_run (hr : Pool.Run FromQueue (boot D now) h c) (hh : Honest h)
    (hu : UsesRules U P pil .local h)
    {samples : List Sample} {ds : List DecisionRow} (hs : List.Forall₂ (SampleOf c read) samples ds) :
    ∃ rs, samples.mapM (predicts U pil read) = some rs ∧
      rs.map (·.decision.value) = ds.map (·.envelope.decision.value) ∧
      rs.countP (!·.needsHumanReview) = ds.countP (!·.envelope.needsHumanReview) := by
  induction hs with
  | nil => exact ⟨[], rfl, rfl, rfl⟩
  | cons hs _ ih =>
    obtain ⟨r, hpredicts, hdecision, hreview⟩ := predicts_of_run hr hh hu hs
    obtain ⟨rs, hrs, hdecisions, hreviews⟩ := ih
    refine ⟨r :: rs, ?_, ?_, ?_⟩
    · rw [List.mapM_cons, hpredicts, hrs]
      rfl
    · rw [List.map_cons, List.map_cons, hdecision, hdecisions]
    · rw [List.countP_cons, List.countP_cons, hreview, hreviews]

theorem taken_forall₂ {α β : Type} {R : α → β → Prop} {as : List α} {bs bs' : List β} (h : List.Forall₂ R as bs)
    (htaken : args.taken bs = some bs') : ∃ as', args.taken as = some as' ∧ List.Forall₂ R as' bs' := by
  unfold HarnessArgs.taken at htaken ⊢
  cases hlimit : args.limit with
  | none =>
    rw [hlimit] at htaken
    cases htaken
    exact ⟨as, rfl, h⟩
  | some limit =>
    simp only [hlimit] at htaken
    by_cases hlow : limit < 1
    · rw [if_pos hlow] at htaken
      cases htaken
    · rw [if_neg hlow] at htaken
      cases htaken
      exact ⟨as.take limit.toNat, if_neg hlow, List.forall₂_take _ h⟩

/-- On a labelled set of uploads of a run with the local models, the report is that on the stored decisions. -/
theorem harness_of_run (hr : Pool.Run FromQueue (boot D now) h c) (hh : Honest h) (hu : UsesRules U P pil .local h)
    {samples : List Sample} {ds ds' : List DecisionRow} (hs : List.Forall₂ (SampleOf c read) samples ds)
    (htaken : args.taken ds = some ds') (hn : args.minN ≤ ds'.length) :
    ∃ samples', args.taken samples = some samples' ∧ harness U pil args (some samples) read =
      (0, some (report (samples'.map (·.label)) (ds'.map (·.envelope.decision.value))
        (ds'.countP (!·.envelope.needsHumanReview)))) := by
  obtain ⟨samples', hsamples, hs'⟩ := taken_forall₂ hs htaken
  obtain ⟨rs, hrs, hdecisions, hreviews⟩ := predicts_all_of_run hr hh hu hs'
  refine ⟨samples', hsamples, harness_ok_iff.mpr ⟨rfl, samples, samples', rs, rfl, hsamples, hrs, ?_, ?_⟩⟩
  · rw [hs'.length_eq]
    exact hn
  · rw [hdecisions, hreviews]

theorem harness_of_run_sample : ∃ h c, Pool.Run FromQueue (boot (sample .atomic) 0) h c ∧
    ∃ d ∈ c.world.db.decisions, ∃ read sample,
      harness .ascii samplePil {} (some [sample]) read = (0, some (report [sample.label] [d.envelope.decision.value]
        ([d].countP (!·.envelope.needsHumanReview)))) := by
  obtain ⟨h, c, hr, hh, hu, d, hd, -⟩ := exists_ruled (.inr rfl)
  obtain ⟨i, api, req, hcall, hdrawn, -⟩ := rules_of_run hr hh hu hd
  have hs : List.Forall₂ (SampleOf c fun _ => some req.body) [⟨"a.png", strip req.caption, "ALLOW"⟩] [d] :=
    .cons ⟨hd, i, api, req, hcall, hdrawn, rfl, rfl⟩ .nil
  have htaken : ({} : HarnessArgs).taken [d] = some [d] := rfl
  obtain ⟨samples', hsamples, hreport⟩ := harness_of_run hr hh hu hs htaken le_rfl
  cases hsamples
  exact ⟨h, c, hr, d, hd, _, _, hreport⟩

/-! ## Rates -/

theorem ratio_le_ratio {a b c d : Nat} (hb : 0 < b) (hd : 0 < d) (h : a * d ≤ c * b) : ratio a b ≤ ratio c d := by
  rw [ratio, ratio, if_neg hb.ne', if_neg hd.ne']
  refine asFloat_mono (by positivity) ?_
  rw [div_le_div_iff₀ (Nat.cast_pos.mpr hb) (Nat.cast_pos.mpr hd)]
  exact_mod_cast h

theorem ratio_mono {a b n : Nat} (h : a ≤ b) : ratio a n ≤ ratio b n := by
  rcases n.eq_zero_or_pos with rfl | hn
  · rfl
  · exact ratio_le_ratio hn hn (Nat.mul_le_mul_right n h)

/-- Among parts of a whole there is one whose share is at most that of the whole, and one whose share is at
least that. -/
theorem exists_shares {ι : Type} {l : List ι} {t s : ι → Nat} (hts : ∀ i ∈ l, t i ≤ s i) (hpos : 0 < (l.map s).sum) :
    (∃ i ∈ l, 0 < s i ∧ ratio (t i) (s i) ≤ ratio (l.map t).sum (l.map s).sum) ∧
      ∃ i ∈ l, 0 < s i ∧ ratio (l.map t).sum (l.map s).sum ≤ ratio (t i) (s i) := by
  obtain ⟨j, hj, hjpos⟩ : ∃ j ∈ l, 0 < s j := by
    by_contra hnone
    refine hpos.ne' (List.sum_eq_zero fun x hx => ?_)
    obtain ⟨i, hi, rfl⟩ := List.mem_map.mp hx
    exact Nat.eq_zero_of_not_pos fun hs => hnone ⟨i, hi, hs⟩
  have empty {i : ι} (hi : i ∈ l) (hs : ¬ 0 < s i) : s i = 0 ∧ t i = 0 := by
    have := hts i hi
    omega
  have sums : (l.map fun i => (l.map t).sum * s i).sum = (l.map fun i => t i * (l.map s).sum).sum := by
    rw [List.sum_map_mul_left, List.sum_map_mul_right]
  constructor
  · by_contra hnone
    have above {i : ι} (hi : i ∈ l) (hs : 0 < s i) : (l.map t).sum * s i < t i * (l.map s).sum :=
      not_le.mp fun hle => hnone ⟨i, hi, hs, ratio_le_ratio hs hpos hle⟩
    refine absurd sums (List.sum_lt_sum _ _ (fun i hi => ?_) ⟨j, hj, above hj hjpos⟩).ne
    by_cases hs : 0 < s i
    · exact (above hi hs).le
    · simp [empty hi hs]
  · by_contra hnone
    have below {i : ι} (hi : i ∈ l) (hs : 0 < s i) : t i * (l.map s).sum < (l.map t).sum * s i :=
      not_le.mp fun hle => hnone ⟨i, hi, hs, ratio_le_ratio hpos hs hle⟩
    refine absurd sums (List.sum_lt_sum _ _ (fun i hi => ?_) ⟨j, hj, below hj hjpos⟩).ne'
    by_cases hs : 0 < s i
    · exact (below hi hs).le
    · simp [empty hi hs]

/-- A float is off by at most one part in `2 ^ 53`. -/
theorem asFloat_near {q : Rat} (h : 0 ≤ q) :
    q * (1 - 1 / 2 ^ 53) ≤ asFloat q ∧ asFloat q ≤ q * (1 + 1 / 2 ^ 53) := by
  obtain ⟨hlow, hhigh⟩ := abs_le.mp (roundBinary_near (p := 53) h)
  unfold asFloat
  constructor <;> linarith

theorem f1Score_mem {p r : Rat} (hp : 0 ≤ p ∧ p ≤ 1) (hr : 0 ≤ r ∧ r ≤ 1) : 0 ≤ f1Score p r ∧ f1Score p r ≤ 1 := by
  have hprod : 0 ≤ 2 * p * r := mul_nonneg (mul_nonneg zero_le_two hp.1) hr.1
  have hle : 2 * p * r ≤ p + r := by nlinarith
  have htop : asFloat (2 * p * r) ≤ asFloat (p + r) := asFloat_mono hprod hle
  have hnonneg : 0 ≤ asFloat (2 * p * r) := roundBinary_nonneg (by decide) hprod
  simp only [f1Score]
  split
  · exact ⟨le_rfl, zero_le_one⟩
  · exact asFloat_mem (div_nonneg hnonneg (hnonneg.trans htop)) (div_le_one_of_le₀ htop (hnonneg.trans htop))

/-- The harmonic mean is between the two. -/
theorem harmonic_mem {p r : Rat} (hp : 0 ≤ p) (hr : 0 ≤ r) (hpos : 0 < p + r) :
    min p r ≤ 2 * p * r / (p + r) ∧ 2 * p * r / (p + r) ≤ max p r := by
  rw [le_div_iff₀ hpos, div_le_iff₀ hpos]
  rcases le_total p r with h | h
  · rw [min_eq_left h, max_eq_right h]
    exact ⟨by nlinarith [mul_nonneg hp (sub_nonneg.mpr h)], by nlinarith [mul_nonneg hr (sub_nonneg.mpr h)]⟩
  · rw [min_eq_right h, max_eq_left h]
    exact ⟨by nlinarith [mul_nonneg hr (sub_nonneg.mpr h)], by nlinarith [mul_nonneg hp (sub_nonneg.mpr h)]⟩

/-- The F1 is the harmonic mean, but for three roundings. -/
theorem f1Score_near {p r : Rat} (hp : 0 ≤ p ∧ p ≤ 1) (hr : 0 ≤ r ∧ r ≤ 1) :
    min p r - 1 / 1000000 ≤ f1Score p r ∧ f1Score p r ≤ max p r + 1 / 1000000 := by
  rcases (add_nonneg hp.1 hr.1).eq_or_lt with hsum | hpos
  · obtain rfl : p = 0 := by linarith [hp.1, hr.1]
    obtain rfl : r = 0 := by linarith
    have hzero : f1Score 0 0 = 0 := by simp [f1Score, asFloat]
    rw [hzero]
    constructor <;> norm_num
  · obtain ⟨hlow, hhigh⟩ := harmonic_mem hp.1 hr.1 hpos
    have hprod : 0 ≤ 2 * p * r := mul_nonneg (mul_nonneg zero_le_two hp.1) hr.1
    -- the mean `m`, with `2 * p * r = m * (p + r)`
    obtain ⟨m, hm⟩ : ∃ m, m = 2 * p * r / (p + r) := ⟨_, rfl⟩
    rw [← hm] at hlow hhigh
    have hm₀ : 0 ≤ m := hm ▸ div_nonneg hprod hpos.le
    have hm₁ : m ≤ 1 := hhigh.trans (max_le hp.2 hr.2)
    have hmul : 2 * p * r = m * (p + r) := by rw [hm, div_mul_cancel₀ _ hpos.ne']
    obtain ⟨htop, htop'⟩ := asFloat_near hprod
    obtain ⟨hbot, hbot'⟩ := asFloat_near hpos.le
    have hbpos : 0 < asFloat (p + r) := by nlinarith
    have htop₀ : 0 ≤ asFloat (2 * p * r) := roundBinary_nonneg (by decide) hprod
    obtain ⟨hquot, hquot'⟩ := asFloat_near (div_nonneg htop₀ hbpos.le)
    have hupper : asFloat (2 * p * r) / asFloat (p + r) ≤ m + 1 / 10000000 := by
      rw [div_le_iff₀ hbpos]
      nlinarith
    have hlower : m - 1 / 10000000 ≤ asFloat (2 * p * r) / asFloat (p + r) := by
      rw [le_div_iff₀ hbpos]
      nlinarith
    have hf : f1Score p r = asFloat (asFloat (2 * p * r) / asFloat (p + r)) := by
      simp only [f1Score, if_neg hbpos.ne']
    rw [hf]
    constructor <;> nlinarith

-- 129 right of 160 either way
example : round4 (ratio 129 160) = 8063 / 10000 ∧
    round4 (f1Score (ratio 129 160) (ratio 129 160)) = 8062 / 10000 := by
  decide +kernel

theorem round4_mono : Monotone round4 := fun _ _ h => le_round4_mono h le_rfl

/-- Less than a unit of the last digit is rounded to one at most. -/
theorem round4_le_add {p q : Rat} (h : p < q + 1 / 10000) : round4 p ≤ round4 q + 1 / 10000 := by
  obtain ⟨n, hn, -, hn₂⟩ := round4_spec p
  obtain ⟨m, hm, hm₁, -⟩ := round4_spec q
  have hlt : (n : Rat) < m + 2 := by linarith
  have hlt : n < m + 2 := by exact_mod_cast hlt
  have hle : (n : Rat) ≤ m + 1 := by exact_mod_cast (show n ≤ m + 1 by omega)
  rw [hn, hm]
  linarith

/-! ## Counts -/

/-- What has one of the keys is counted under one of them. -/
theorem sum_countP {α : Type} (key : α → String) {labels : List String} (h : labels.Nodup) (xs : List α) :
    (labels.map fun label => xs.countP (key · = label)).sum = xs.countP (key · ∈ labels) := by
  induction labels with
  | nil => simp
  | cons label labels ih =>
    obtain ⟨hnot, hrest⟩ := List.nodup_cons.mp h
    rw [List.map_cons, List.sum_cons, ih hrest,
      List.countP_eq_countP_filter_add xs (fun x => decide (key x ∈ label :: labels))
        (fun x => decide (key x = label)),
      List.countP_filter, List.countP_filter]
    refine congrArg₂ (· + ·) (List.countP_congr fun x _ => ?_) (List.countP_congr fun x _ => ?_)
    · simp +contextual
    · simp only [decide_eq_true_eq, Bool.and_eq_true, Bool.not_eq_true', decide_eq_false_iff_not, List.mem_cons]
      exact ⟨fun hx => ⟨.inr hx, fun he => hnot (he ▸ hx)⟩, fun ⟨hx, hne⟩ => hx.resolve_left hne⟩

theorem countP_and {α : Type} (p q : α → Prop) [DecidablePred p] [DecidablePred q] (xs : List α) :
    xs.countP (fun x => p x ∧ q x) + xs.countP (fun x => p x ∧ ¬ q x) = xs.countP (fun x => p x) := by
  rw [List.countP_eq_countP_filter_add xs (fun x => decide (p x)) (fun x => decide (q x)), List.countP_filter,
    List.countP_filter]
  simp only [Bool.decide_and, decide_not]

/-- The figures of a class: `tp` of the pairs, `support` with its label and `predicted` with its prediction. -/
structure ClassCounts where
  tp : Nat
  support : Nat
  predicted : Nat

def countsOf (pairs : List (String × String)) (label : String) : ClassCounts where
  tp := pairs.countP fun x => x.1 = label ∧ x.2 = label
  support := pairs.countP fun x => x.1 = label
  predicted := pairs.countP fun x => x.2 = label

variable {yTrue yPred : List String}

theorem classReport_eq (hlen : yTrue.length = yPred.length) (label : String) :
    classReport yTrue yPred label =
      let n := countsOf (yTrue.zip yPred) label
      { precision := round4 (ratio n.tp n.predicted)
        recallRate := round4 (ratio n.tp n.support)
        f1 := round4 (f1Score (ratio n.tp n.predicted) (ratio n.tp n.support))
        support := n.support } := by
  have hp : (yTrue.zip yPred).countP (fun x => x.1 = label ∧ x.2 = label) +
      (yTrue.zip yPred).countP (fun x => x.1 ≠ label ∧ x.2 = label) =
      (yTrue.zip yPred).countP (fun x => x.2 = label) := by
    have := countP_and (fun x : String × String => x.2 = label) (fun x => x.1 = label) (yTrue.zip yPred)
    simpa only [and_comm] using this
  have hr : (yTrue.zip yPred).countP (fun x => x.1 = label ∧ x.2 = label) +
      (yTrue.zip yPred).countP (fun x => x.1 = label ∧ x.2 ≠ label) =
      (yTrue.zip yPred).countP (fun x => x.1 = label) :=
    countP_and (fun x : String × String => x.1 = label) (fun x => x.2 = label) (yTrue.zip yPred)
  have hsupport : yTrue.countP (fun a => a = label) = (yTrue.zip yPred).countP (fun x => x.1 = label) := by
    conv_lhs => rw [← List.map_fst_zip hlen.le]
    rw [List.countP_map]
    rfl
  simp only [classReport, hp, hr, hsupport, countsOf]

/-- The pairs that are right are the `tp` of the classes. -/
theorem sum_tp {pairs : List (String × String)} (h : ∀ x ∈ pairs, x.2 ∈ evalLabels) :
    (evalLabels.map fun label => (countsOf pairs label).tp).sum = pairs.countP fun x => x.1 = x.2 := by
  have tp (label : String) : (countsOf pairs label).tp =
      (pairs.filter fun x => decide (x.1 = x.2)).countP fun x => x.2 = label := by
    rw [List.countP_filter]
    refine List.countP_congr fun x _ => ?_
    simp only [decide_eq_true_eq, Bool.and_eq_true]
    exact ⟨fun ⟨ha, hb⟩ => ⟨hb, ha.trans hb.symm⟩, fun ⟨hb, heq⟩ => ⟨heq.trans hb, hb⟩⟩
  simp only [tp]
  rw [sum_countP Prod.snd (by decide), List.countP_filter]
  refine List.countP_congr fun x hx => ?_
  simp only [h x hx, decide_true, Bool.true_and]

theorem sum_predicted {pairs : List (String × String)} (h : ∀ x ∈ pairs, x.2 ∈ evalLabels) :
    (evalLabels.map fun label => (countsOf pairs label).predicted).sum = pairs.length :=
  (sum_countP Prod.snd (by decide) pairs).trans (List.countP_eq_length.mpr fun x hx => decide_eq_true (h x hx))

theorem sum_countOne (counts : List (String × Nat)) (x : String) :
    ((countOne counts x).map (·.2)).sum = (counts.map (·.2)).sum + 1 := by
  induction counts with
  | nil => rfl
  | cons entry counts ih =>
    obtain ⟨y, n⟩ := entry
    rw [countOne]
    by_cases hy : y = x
    · simp only [if_pos hy, List.map_cons, List.sum_cons]
      omega
    · simp only [if_neg hy, List.map_cons, List.sum_cons, ih]
      omega

theorem sum_counter (xs : List String) : ((counter xs).map (·.2)).sum = xs.length := by
  have hsum (counts : List (String × Nat)) :
      ((xs.foldl countOne counts).map (·.2)).sum = (counts.map (·.2)).sum + xs.length := by
    induction xs generalizing counts with
    | nil => rfl
    | cons x xs ih =>
      rw [List.foldl_cons, ih, sum_countOne, List.length_cons]
      omega
  rw [counter, hsum, List.map_nil, List.sum_nil, Nat.zero_add]

/-! ## The report -/

/-- The rates of a report. -/
def Report.rates (r : Report) : List Rat :=
  [r.accuracy, r.macroPrecision, r.macroRecall, r.macroF1, r.autoResolveRate, r.manualReviewReduction] ++
    r.perClass.flatMap fun x => [x.2.precision, x.2.recallRate, x.2.f1]

/-- A figure is the average of those of the classes, whatever small error is made before it is rounded. -/
def Report.HasMean (r : Report) (key : ClassReport → Rat) (figure : Rat) : Prop :=
  ∀ q, |q - macroAverage r.perClass key| < 1 / 60000 → round4 q = figure

/-- The figures of a report fit together. -/
structure Report.AddsUp (r : Report) : Prop where
  pairs : r.pairs.length = r.n
  predicted : ∀ x ∈ r.pairs, x.2 ∈ evalLabels
  classes : r.perClass.map (·.1) = evalLabels
  counts : (r.trueCounts.map (·.2)).sum = r.n ∧ (r.predCounts.map (·.2)).sum = r.n
  support : (r.perClass.map (·.2.support)).sum = r.pairs.countP (·.1 ∈ evalLabels)
  rates : ∀ q ∈ r.rates, 0 ≤ q ∧ q ≤ 1
  auto : r.autoResolveRate ≤ round4 (ratio (r.pairs.countP (·.2 ≠ "FLAG")) r.n)
  f1 : ∀ x ∈ r.perClass, min x.2.precision x.2.recallRate - 1 / 10000 ≤ x.2.f1 ∧
    x.2.f1 ≤ max x.2.precision x.2.recallRate + 1 / 10000
  precisionMean : r.HasMean (·.precision) r.macroPrecision
  recallMean : r.HasMean (·.recallRate) r.macroRecall
  f1Mean : r.HasMean (·.f1) r.macroF1
  recalls : 0 < r.n → (∀ x ∈ r.pairs, x.1 ∈ evalLabels) →
    (∃ x ∈ r.perClass, 0 < x.2.support ∧ x.2.recallRate ≤ r.accuracy) ∧
      ∃ x ∈ r.perClass, 0 < x.2.support ∧ r.accuracy ≤ x.2.recallRate
  precisions : 0 < r.n →
    (∃ x ∈ r.perClass, x.1 ∈ r.pairs.map (·.2) ∧ x.2.precision ≤ r.accuracy) ∧
      ∃ x ∈ r.perClass, x.1 ∈ r.pairs.map (·.2) ∧ r.accuracy ≤ x.2.precision

theorem tp_le (pairs : List (String × String)) (label : String) :
    (countsOf pairs label).tp ≤ (countsOf pairs label).predicted ∧
      (countsOf pairs label).tp ≤ (countsOf pairs label).support :=
  ⟨List.countP_mono_left fun _ _ hx => decide_eq_true (of_decide_eq_true hx).2,
    List.countP_mono_left fun _ _ hx => decide_eq_true (of_decide_eq_true hx).1⟩

theorem classReport_mem (hlen : yTrue.length = yPred.length) (label : String) :
    ∀ q ∈ [(classReport yTrue yPred label).precision, (classReport yTrue yPred label).recallRate,
      (classReport yTrue yPred label).f1], 0 ≤ q ∧ q ≤ 1 := by
  have hp := ratio_mem (tp_le (yTrue.zip yPred) label).1
  have hr := ratio_mem (tp_le (yTrue.zip yPred) label).2
  have hf := f1Score_mem hp hr
  simp only [classReport_eq hlen, List.forall_mem_cons]
  exact ⟨round4_mem hp.1 hp.2, round4_mem hr.1 hr.2, round4_mem hf.1 hf.2, List.forall_mem_nil _⟩

/-- The average of three figures is a third off a half of the last digit, or more. -/
theorem hasMean (key : ClassReport → Rat) (h : ∀ label, ∃ n : Int, key (classReport yTrue yPred label) = n / 10000)
    (auto : Nat) :
    (report yTrue yPred auto).HasMean key (round4 (macroAverage (report yTrue yPred auto).perClass key)) := by
  intro q hq
  obtain ⟨a, ha⟩ := h "ALLOW"
  obtain ⟨b, hb⟩ := h "FLAG"
  obtain ⟨c, hc⟩ := h "BLOCK"
  have hmean : macroAverage (report yTrue yPred auto).perClass key = (a + b + c) / 30000 := by
    simp only [report, macroAverage, evalLabels, List.map_cons, List.map_nil, List.sum_cons, List.sum_nil,
      List.length_cons, List.length_nil, Nat.zero_add, Nat.reduceAdd, Nat.cast_ofNat, ha, hb, hc]
    ring
  rw [hmean] at hq ⊢
  obtain ⟨n, hn, hn₁, hn₂⟩ := round4_spec q
  obtain ⟨m, hm, hm₁, hm₂⟩ := round4_spec ((a + b + c) / 30000)
  obtain ⟨hq₁, hq₂⟩ := abs_lt.mp hq
  -- `m` is a third off the average of the three, or on it
  have hlow : (a + b + c : Int) - 1 ≤ 3 * m := by
    have hlt : (a + b + c : Rat) - 2 < 3 * m := by linarith
    have hlt : a + b + c - 2 < 3 * m := by exact_mod_cast hlt
    omega
  have hhigh : 3 * m ≤ (a + b + c : Int) + 1 := by
    have hlt : (3 * m : Rat) < a + b + c + 2 := by linarith
    have hlt : 3 * m < a + b + c + 2 := by exact_mod_cast hlt
    omega
  have hlow : (a + b + c : Rat) - 1 ≤ 3 * m := by exact_mod_cast hlow
  have hhigh : (3 * m : Rat) ≤ a + b + c + 1 := by exact_mod_cast hhigh
  have hsame : n = m := by
    have h₁ : (n : Rat) < m + 1 := by linarith
    have h₂ : (m : Rat) < n + 1 := by linarith
    have h₁ : n < m + 1 := by exact_mod_cast h₁
    have h₂ : m < n + 1 := by exact_mod_cast h₂
    omega
  rw [hn, hm, hsame]

theorem macroAverage_mem (key : ClassReport → Rat) (h : ∀ label, 0 ≤ key (classReport yTrue yPred label) ∧
    key (classReport yTrue yPred label) ≤ 1) :
    0 ≤ macroAverage (evalLabels.map fun label => (label, classReport yTrue yPred label)) key ∧
      macroAverage (evalLabels.map fun label => (label, classReport yTrue yPred label)) key ≤ 1 := by
  obtain ⟨ha₀, ha₁⟩ := h "ALLOW"
  obtain ⟨hf₀, hf₁⟩ := h "FLAG"
  obtain ⟨hb₀, hb₁⟩ := h "BLOCK"
  simp only [macroAverage, evalLabels, List.map_cons, List.map_nil, List.sum_cons, List.sum_nil, List.length_cons,
    List.length_nil, Nat.zero_add, Nat.reduceAdd, Nat.cast_ofNat]
  constructor
  · positivity
  · rw [div_le_one (by norm_num)]
    linarith

/-- The accuracy is the share of all pairs that are right, and the recalls and precisions are those of the classes. -/
theorem accuracy_between {pairs : List (String × String)} (weight : ClassCounts → Nat)
    (h : ∀ x ∈ pairs, x.2 ∈ evalLabels) (hw : ∀ label, (countsOf pairs label).tp ≤ weight (countsOf pairs label))
    (hsum : (evalLabels.map fun label => weight (countsOf pairs label)).sum = pairs.length)
    (hpos : 0 < pairs.length) :
    let accuracy := round4 (ratio (pairs.countP fun x => x.1 = x.2) pairs.length)
    let share (label : String) := round4 (ratio (countsOf pairs label).tp (weight (countsOf pairs label)))
    (∃ label ∈ evalLabels, 0 < weight (countsOf pairs label) ∧ share label ≤ accuracy) ∧
      ∃ label ∈ evalLabels, 0 < weight (countsOf pairs label) ∧ accuracy ≤ share label := by
  obtain ⟨⟨low, hlow, hlowpos, hle⟩, ⟨high, hhigh, hhighpos, hge⟩⟩ :=
    exists_shares (l := evalLabels) (fun label _ => hw label) (hsum ▸ hpos)
  rw [hsum, sum_tp h] at hle hge
  exact ⟨⟨low, hlow, hlowpos, round4_mono hle⟩, ⟨high, hhigh, hhighpos, round4_mono hge⟩⟩

theorem report_addsUp (hlen : yTrue.length = yPred.length) (hpred : ∀ b ∈ yPred, b ∈ evalLabels) {auto : Nat}
    (hauto : auto ≤ yPred.countP (· ≠ "FLAG")) : (report yTrue yPred auto).AddsUp := by
  have hzip : (yTrue.zip yPred).length = yTrue.length := by
    rw [List.length_zip, hlen, Nat.min_self]
  have hpairs : ∀ x ∈ yTrue.zip yPred, x.2 ∈ evalLabels := fun x hx => hpred _ (List.of_mem_zip hx).2
  have hsure : (yTrue.zip yPred).countP (fun x => x.2 ≠ "FLAG") = yPred.countP (· ≠ "FLAG") := by
    conv_rhs => rw [← List.map_snd_zip hlen.ge]
    rw [List.countP_map]
    rfl
  have hautoN : auto ≤ yTrue.length := hlen ▸ hauto.trans List.countP_le_length
  have hcorrect : (yTrue.zip yPred).countP (fun x => x.1 = x.2) ≤ yTrue.length := hzip ▸ List.countP_le_length
  have hclass := classReport_mem hlen
  have hrate := ratio_mem hautoN
  have hmem {label : String} (h : label ∈ evalLabels) :
      (label, classReport yTrue yPred label) ∈ (report yTrue yPred auto).perClass :=
    List.mem_map_of_mem (f := fun label => (label, classReport yTrue yPred label)) h
  have hdigits (q : Rat) : ∃ n : Int, round4 q = n / 10000 := ⟨_, round4_eq q⟩
  refine ⟨hzip, hpairs, rfl, ⟨sum_counter yTrue, (sum_counter yPred).trans hlen.symm⟩, ?_, ?_, ?_, ?_,
    hasMean (·.precision) (fun _ => hdigits _) auto, hasMean (·.recallRate) (fun _ => hdigits _) auto,
    hasMean (·.f1) (fun _ => hdigits _) auto, fun hn hlabels => ?_, fun hn => ?_⟩
  · rw [show (report yTrue yPred auto).perClass.map (·.2.support) =
      evalLabels.map fun label => (yTrue.zip yPred).countP fun x => x.1 = label by
      simp only [report, List.map_map, Function.comp_def, classReport_eq hlen, countsOf]]
    exact sum_countP Prod.fst (by decide) (yTrue.zip yPred)
  · intro q hq
    simp only [Report.rates, List.mem_append, List.mem_cons, List.not_mem_nil, or_false, List.mem_flatMap] at hq
    have hmean (key : ClassReport → Rat)
        (h : ∀ label, key (classReport yTrue yPred label) ∈ [(classReport yTrue yPred label).precision,
          (classReport yTrue yPred label).recallRate, (classReport yTrue yPred label).f1]) :=
      macroAverage_mem key fun label => hclass label _ (h label)
    rcases hq with (rfl | rfl | rfl | rfl | rfl | rfl) | ⟨x, hx, hq⟩
    · exact round4_mem (ratio_mem hcorrect).1 (ratio_mem hcorrect).2
    · exact (hmean (·.precision) fun _ => by simp).elim round4_mem
    · exact (hmean (·.recallRate) fun _ => by simp).elim round4_mem
    · exact (hmean (·.f1) fun _ => by simp).elim round4_mem
    · exact round4_mem hrate.1 hrate.2
    · exact round4_mem hrate.1 hrate.2
    · obtain ⟨label, -, rfl⟩ := List.mem_map.mp hx
      exact hclass label q (by simpa using hq)
  · exact hsure ▸ round4_mono (ratio_mono hauto)
  · intro x hx
    obtain ⟨label, -, rfl⟩ := List.mem_map.mp hx
    obtain ⟨hlow, hhigh⟩ := f1Score_near (ratio_mem (tp_le (yTrue.zip yPred) label).1)
      (ratio_mem (tp_le (yTrue.zip yPred) label).2)
    simp only [classReport_eq hlen, ← round4_mono.map_min, ← round4_mono.map_max]
    exact ⟨sub_le_iff_le_add.mpr (round4_le_add (by linarith)), round4_le_add (by linarith)⟩
  · have hsupport : (evalLabels.map fun label => (countsOf (yTrue.zip yPred) label).support).sum =
        (yTrue.zip yPred).length := (sum_countP Prod.fst (by decide) _).trans
      (List.countP_eq_length.mpr fun x hx => decide_eq_true (hlabels x hx))
    obtain ⟨⟨low, hlow, hlowpos, hle⟩, ⟨high, hhigh, hhighpos, hge⟩⟩ := accuracy_between ClassCounts.support
      hpairs (fun label => (tp_le _ label).2) hsupport (hzip.symm ▸ hn)
    rw [hzip] at hle hge
    refine ⟨⟨_, hmem hlow, ?_⟩, ⟨_, hmem hhigh, ?_⟩⟩
    · simp only [classReport_eq hlen]
      exact ⟨hlowpos, hle⟩
    · simp only [classReport_eq hlen]
      exact ⟨hhighpos, hge⟩
  · obtain ⟨⟨low, hlow, hlowpos, hle⟩, ⟨high, hhigh, hhighpos, hge⟩⟩ := accuracy_between ClassCounts.predicted
      hpairs (fun label => (tp_le _ label).1) (sum_predicted hpairs) (hzip.symm ▸ hn)
    rw [hzip] at hle hge
    have hused {label : String} (h : 0 < (countsOf (yTrue.zip yPred) label).predicted) :
        label ∈ (yTrue.zip yPred).map (·.2) := by
      obtain ⟨x, hx, hlabel⟩ := List.countP_pos_iff.mp h
      exact List.mem_map.mpr ⟨x, hx, of_decide_eq_true hlabel⟩
    refine ⟨⟨_, hmem hlow, hused hlowpos, ?_⟩, ⟨_, hmem hhigh, hused hhighpos, ?_⟩⟩
    · simp only [classReport_eq hlen]
      exact hle
    · simp only [classReport_eq hlen]
      exact hge

theorem of_predicts {samples : List Sample} {rs : List Route} (h : samples.mapM (predicts U pil read) = some rs) :
    rs.length = samples.length ∧ ∀ r ∈ rs, r.needsHumanReview = false → r.decision ≠ .flag := by
  induction samples generalizing rs with
  | nil =>
    obtain rfl : [] = rs := Option.some.inj h
    exact ⟨rfl, List.forall_mem_nil _⟩
  | cons sample samples ih =>
    rw [List.mapM_cons] at h
    obtain ⟨r, hr, h⟩ := Option.bind_eq_some_iff.mp h
    obtain ⟨rs', hrs, h⟩ := Option.bind_eq_some_iff.mp h
    obtain rfl : r :: rs' = rs := Option.some.inj h
    obtain ⟨imageBytes, -, rfl⟩ := Option.map_eq_some_iff.mp hr
    obtain ⟨hlen, hall⟩ := ih hrs
    refine ⟨congrArg (· + 1) hlen, List.forall_mem_cons.mpr ⟨fun hsure hflag => ?_, hall⟩⟩
    have hreview : (predict U pil imageBytes sample.caption).needsHumanReview = true := review_of_flag hflag
    rw [hsure] at hreview
    cases hreview

/-- The report of the harness adds up, whatever it is run on. -/
theorem harness_report_sound {manifest : Option (List Sample)} {code : Nat} {r : Report}
    (h : harness U pil args manifest read = (code, some r)) :
    code = 0 ∧ args.minN ≤ r.n ∧ (∀ limit ∈ args.limit, 1 ≤ limit ∧ r.n ≤ limit) ∧ r.AddsUp := by
  obtain ⟨rfl, all, samples, rs, -, htaken, hpredicts, hmin, rfl⟩ := harness_ok_iff.mp h
  obtain ⟨hlen, hsure⟩ := of_predicts hpredicts
  have hn : (report (samples.map (·.label)) (rs.map (·.decision.value)) (rs.countP (!·.needsHumanReview))).n =
    samples.length := List.length_map ..
  refine ⟨rfl, hn ▸ hmin, fun limit hlimit => ?_, report_addsUp ?_ ?_ ?_⟩
  · rw [hn]
    obtain hlimit : args.limit = some limit := hlimit
    simp only [HarnessArgs.taken, hlimit] at htaken
    by_cases hlow : limit < 1
    · rw [if_pos hlow] at htaken
      cases htaken
    · rw [if_neg hlow] at htaken
      obtain rfl : all.take limit.toNat = samples := Option.some.inj htaken
      have := List.length_take_le limit.toNat all
      omega
  · rw [List.length_map, List.length_map, hlen]
  · intro b hb
    obtain ⟨r, -, rfl⟩ := List.mem_map.mp hb
    cases r.decision <;> simp [evalLabels, Decision.value]
  · rw [List.countP_map]
    refine List.countP_mono_left fun r hr hreview => ?_
    have hflag := hsure r hr (by simpa using hreview)
    cases hd : r.decision with
    | flag => exact absurd hd hflag
    | allow => simp [hd, Decision.value]
    | block => simp [hd, Decision.value]

def sampleSet : List Sample :=
  [⟨"a.png", "a cat", "ALLOW"⟩, ⟨"b.png", "ocr: csam", "BLOCK"⟩, ⟨"c.png", "hate", "FLAG"⟩]

theorem harness_report_sound_sample :
    ∃ r, harness .ascii samplePil { limit := some 2 } (some sampleSet) (fun _ => some []) = (0, some r) ∧ r.n = 2 ∧
      r.AddsUp := by
  have hrun : (harness .ascii samplePil { limit := some 2 } (some sampleSet) (fun _ => some [])).1 = 0 ∧
      (harness .ascii samplePil { limit := some 2 } (some sampleSet) (fun _ => some [])).2.any (fun r => r.n = 2) =
        true := by
    decide +kernel
  obtain ⟨r, hr, hn⟩ := (Option.any_eq_true _ _).mp hrun.2
  have hreport : harness .ascii samplePil { limit := some 2 } (some sampleSet) (fun _ => some []) = (0, some r) :=
    Prod.ext hrun.1 hr
  exact ⟨r, hreport, of_decide_eq_true hn, (harness_report_sound hreport).2.2.2⟩

end CM
