import ContentModeration.Framework.Rules
import ContentModeration.Framework.Monitor
import ContentModeration.Framework.Regex
import ContentModeration.Framework.JsonText
import ContentModeration.Framework.Rounding
import ContentModeration.Impl.Service
import ContentModeration.Impl.Adapters
import ContentModeration.Impl.OpenAi
import ContentModeration.Proof.Changes
import ContentModeration.Proof.Specs
import ContentModeration.Proof.Worker
import ContentModeration.Proof.Redrive
import ContentModeration.Proof.Ingest
import ContentModeration.Proof.Review
import ContentModeration.Proof.Service
import ContentModeration.Proof.Requests
import ContentModeration.Proof.Decisions
import ContentModeration.Proof.Messages
import ContentModeration.Proof.Lives
import ContentModeration.Proof.Releases
import ContentModeration.Proof.Resolutions
import ContentModeration.Proof.Locks
import ContentModeration.Proof.Classification
import ContentModeration.Framework.Isolation
import ContentModeration.Impl.RateLimit
import ContentModeration.Proof.ContentHash
import ContentModeration.Proof.RateLimit
import ContentModeration.Proof.UrlFetch
import ContentModeration.Proof.Fetch
import ContentModeration.Proof.Track
import ContentModeration.Proof.AuditLog
import ContentModeration.Proof.Provenance
import ContentModeration.Proof.Transitions
import ContentModeration.Proof.Recovery
import ContentModeration.Proof.Severity
import ContentModeration.Proof.Expiry
import ContentModeration.Proof.Claims
import ContentModeration.Proof.Races
import ContentModeration.Proof.Attempts
import ContentModeration.Proof.Redrives
import ContentModeration.Proof.DeadLetters
import ContentModeration.Proof.Retry
import ContentModeration.Proof.OpenAi
import ContentModeration.Proof.Tenants
import ContentModeration.Proof.TraceContext
import ContentModeration.Proof.Replay
import ContentModeration.Proof.Deadlock
import ContentModeration.Proof.Verdicts
import ContentModeration.Proof.Duties
import ContentModeration.Framework.Refinement
import ContentModeration.Proof.Moderation
import ContentModeration.Proof.Lifecycle
import ContentModeration.Framework.Ranking
import ContentModeration.Proof.Desk
import ContentModeration.Framework.JsonDump
import ContentModeration.Proof.QueueText
import ContentModeration.Framework.Blame
import ContentModeration.Proof.Drain
import ContentModeration.Proof.Vision
import ContentModeration.Proof.Harness
import ContentModeration.Proof.Redelivery
import ContentModeration.Proof.Validation
