import ContentModeration.Impl.Routing
import ContentModeration.Impl.Sql

/-!
# Metrics

`app.routes.metrics.fetch_metrics_summary`, evaluated on the rows of one instant. The 95th
percentile of the latencies and the count of the last minute are left out: they read
`decisions.created_at`.
-/

namespace CM

/-- `schemas.MetricsSummary`. -/
structure MetricsSummary where
  queueDepth : Nat
  pendingReviews : Nat
  claimedReviews : Nat
  decisionsTotal : Nat
  decisionsAllow : Nat
  decisionsFlag : Nat
  decisionsBlock : Nat
  autoResolved : Nat
  autoResolveRate : Rat
  deriving DecidableEq

/-- The `WHERE` clause of the count of pending reviews. -/
def ReviewRow.countsAsPending (now : Time) (r : ReviewRow) : Bool :=
  decide (r.status = .pending) ||
  (decide (r.status = .claimed) && r.claimExpiresAt.all fun t => decide (t < now))

/-- The `WHERE` clause of the count of claimed reviews. -/
def ReviewRow.countsAsClaimed (now : Time) (r : ReviewRow) : Bool :=
  decide (r.status = .claimed) && r.claimExpiresAt.any fun t => decide (now ≤ t)

/-- `fetch_metrics_summary`. -/
def fetchMetricsSummary (db : Database) (now : Time) : MetricsSummary :=
  let decided (d : Decision) := db.decisions.countP (·.envelope.decision = d)
  let total := db.decisions.length
  let auto := db.decisions.countP (·.envelope.needsHumanReview = false)
  { queueDepth := db.jobs.countP fun j => decide (j.status = .queued ∨ j.status = .processing)
    pendingReviews := db.reviews.countP (·.countsAsPending now)
    claimedReviews := db.reviews.countP (·.countsAsClaimed now)
    decisionsTotal := total
    decisionsAllow := decided .allow
    decisionsFlag := decided .flag
    decisionsBlock := decided .block
    autoResolved := auto
    autoResolveRate := round4 (ratio auto total) }

/-! ## Statement by statement -/

/-- What each statement of `fetch_metrics_summary` sees: they share no transaction, so each has its own
snapshot and its own `now()`. -/
structure MetricsReads where
  pending : Database × Time
  claimed : Database × Time
  queuedJobs : Database × Time
  totals : Database × Time

/-- `fetch_metrics_summary`, each of its fields as of the statement that counts it. -/
def fetchMetrics (reads : MetricsReads) : MetricsSummary :=
  { fetchMetricsSummary reads.totals.1 reads.totals.2 with
    pendingReviews := (fetchMetricsSummary reads.pending.1 reads.pending.2).pendingReviews
    claimedReviews := (fetchMetricsSummary reads.claimed.1 reads.claimed.2).claimedReviews
    queueDepth := (fetchMetricsSummary reads.queuedJobs.1 reads.queuedJobs.2).queueDepth }

end CM
