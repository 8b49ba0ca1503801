import ContentModeration.Impl.Sql
import ContentModeration.Framework.Pool

/-!
# The world of the services

The database with its open transactions, Redis, the main queue and its
dead-letter queue, and one clock. `Cmd` is a request to one of them,
`World.exec` what it does; a `Pick` settles what is left open: whether the
request fails, before or after it has taken effect, and what outside services
answer.

A statement outside a transaction commits at once. In a transaction it sees
the committed rows with the writes of the transaction, which take effect
together when it commits (`World.runSql`). A statement waits (`none`) for another
transaction that has written the same row or unique key; when it raises, its
transaction is aborted, and every further statement of it raises.

Redis keys vanish when their time is up and may be lost at any time. Queues
hand out any of their messages, visible or not, so a message may be delivered
any number of times, to several receivers at once, and moved to the
dead-letter queue at any moment; they lose only what they are told to delete.
They take a message unless `takes` says that its size or its characters are
beyond their limits.
-/

namespace CM

/-! ## Requests -/

/-- The two queues of SQS. -/
inductive QueueName where
  | main
  | dlq
  deriving DecidableEq

/-- The lines that the worker logs about a failed job. -/
inductive LogLine where
  | validationFailed (job : Uuid) (err : String)
  | jobFailed (job : Uuid)
  deriving DecidableEq

inductive Cmd where
  | connect
  | sql (st : Sql)
  | begin
  | commit
  | rollback
  | redisGet (key : String)
  | redisSetNx (key value : String) (ttl : Nat)
  | redisExpire (key : String) (ttl : Nat)
  | redisDel (key : String)
  | utcnow
  | perfCounter
  | sleep
  | uuid4
  | putObject (key : String) (body : List UInt8) (contentType : String)
  | fetchObject (key : String)
  | signedUrl (key : String)
  | analyze (image : List UInt8) (caption : String)
  | classify (caption : String) (vision : VisionSignals)
  | enqueue (provider : QueueProvider) (job : Uuid) (body : Json) (attributes : List (String × String))
  | sendMessage (body : RawBody) (attributes : List (String × String))
  | receive (queue : QueueName) (max : Nat)
  | delete (queue : QueueName) (receipt : Nat)
  | acknowledge (ackIds : List Nat)
  | modifyAckDeadline (ackIds : List Nat)
  | queueStats (queue : QueueName)
  | log (line : LogLine)

@[reducible] def Cmd.Ans : Cmd → Type
  | .sql st => st.Ans
  | .redisGet _ => Option String
  | .redisSetNx .. => Bool
  | .utcnow | .perfCounter => Time
  | .uuid4 => Uuid
  | .fetchObject _ => List UInt8 × String
  | .signedUrl _ => String
  | .analyze .. => VisionSignals
  | .classify .. => Decision × LlmSignals
  | .receive .. => List Message
  | _ => Unit

abbrev iface : Iface := ⟨Cmd, Cmd.Ans⟩

/-- A program of the services. -/
abbrev M (α : Type) := Prog iface Exn α

/-! ## The state -/

/-- A transaction: the time it began and its writes, or that it has failed. -/
inductive Txn where
  | active (started : Time) (writes : List Write)
  | aborted

def Txn.writes : Txn → List Write
  | .active _ ws => ws
  | .aborted => []

structure World where
  now : Time
  db : Database := {}
  txns : List (Nat × Txn) := []
  /-- The keys of Redis, with their values and the ends of their times to live. -/
  redis : List (String × String × Time) := []
  main : List Message := []
  dlq : List Message := []
  nextMsg : Nat := 0
  /-- The identifiers that were drawn, with the threads that drew them. -/
  drawn : List (Uuid × Nat) := []
  log : List LogLine := []
  /-- What each thread last read from the clock. -/
  clockRead : Nat → Option Time := fun _ => none
  /-- The messages that the queue takes; this never changes. -/
  takes : RawBody → List (String × String) → Bool := fun _ _ => true

/-- Whether a request fails, before or after it has taken effect. -/
inductive Fault where
  | none
  | before (text : String)
  | after (text : String)
  deriving DecidableEq

/-- What settles a request; each request uses the fields it needs. -/
structure Pick where
  fault : Fault := .none
  /-- `uuid4()` and `gen_random_uuid()`. -/
  fresh : Uuid := ⟨0⟩
  image : List UInt8 := []
  contentType : String := ""
  vision : VisionSignals := {}
  suggested : Decision := .allow
  llm : LlmSignals := {}
  url : String := ""
  /-- The messages that are received, or that were acknowledged by a request that failed. -/
  ids : List Nat := []

namespace World

variable (s : World)

/-- The request takes effect, giving `s'`, and answers `a`, unless it fails. -/
def answer {α : Type} (p : Pick) (a : α) (s' : World) : Except Exn α × World :=
  match p.fault with
  | .none => (.ok a, s')
  | .before text => (.error (.error text), s)
  | .after text => (.error (.error text), s')

/-! ### The database -/

/-- The transaction that thread `i` has open. -/
def txn (i : Nat) : Option Txn := s.txns.lookup i

def setTxn (i : Nat) (t : Option Txn) : World :=
  let rest := s.txns.filter (·.1 ≠ i)
  { s with txns := match t with
    | some t => (i, t) :: rest
    | none => rest }

/-- Writes of thread `i` have to wait for another thread's transaction. -/
def blocked (i : Nat) (ws : List Write) : Bool :=
  s.txns.any fun (j, t) => decide (j ≠ i) && ws.any fun w => t.writes.any w.conflicts

def inFailedTransaction : Exn :=
  .error "current transaction is aborted, commands ignored until end of transaction block"

/-- A statement of thread `i`. -/
def runSql (i : Nat) (st : Sql) (p : Pick) : Option (Except Exn st.Ans × World) :=
  match s.txn i with
  | none =>
    match st.execute s.db s.now p.fresh with
    | .error e => some (.error e, s)
    | .ok (a, ws) =>
      if s.blocked i ws then none else some (s.answer p a { s with db := s.db.applyAll ws })
  | some .aborted => some (.error inFailedTransaction, s)
  | some (.active t ws) =>
    match p.fault, st.execute (s.db.applyAll ws) t p.fresh with
    | .none, .ok (a, ws') =>
      if s.blocked i ws' then none else some (.ok a, s.setTxn i (some (.active t (ws ++ ws'))))
    | .none, .error e => some (.error e, s.setTxn i (some .aborted))
    | .before text, _ | .after text, _ => some (.error (.error text), s.setTxn i (some .aborted))

/-- The end of thread `i`'s transaction with the writes `ws`. -/
def finish (i : Nat) (ws : List Write) : World :=
  { s.setTxn i none with db := s.db.applyAll ws }

/-- COMMIT; the commit of a failed transaction rolls it back. -/
def runCommit (i : Nat) (p : Pick) : Except Exn Unit × World :=
  match p.fault with
  | .none => (.ok (), s.finish i ((s.txn i).elim [] Txn.writes))
  | .before text => (.error (.error text), s.finish i [])
  | .after text => (.error (.error text), s.finish i ((s.txn i).elim [] Txn.writes))

/-! ### Redis -/

def redisGet (key : String) : Option String := (s.redis.lookup key).map (·.1)

def redisSet (key value : String) (deadline : Time) : World :=
  { s with redis := (key, value, deadline) :: s.redis.filter (·.1 ≠ key) }

def redisDel (key : String) : World := { s with redis := s.redis.filter (·.1 ≠ key) }

/-- `EXPIRE key ttl`; a time to live of 0 deletes the key. -/
def redisExpire (key : String) (ttl : Nat) : World :=
  match s.redisGet key with
  | none => s
  | some value => if ttl = 0 then s.redisDel key else s.redisSet key value (s.now + seconds ttl)

/-! ### Queues -/

def queue : QueueName → List Message
  | .main => s.main
  | .dlq => s.dlq

/-- The messages of both queues. -/
def messages : List Message := s.main ++ s.dlq

def send (body : RawBody) (attributes : List (String × String)) : World :=
  { s with main := s.main ++ [⟨s.nextMsg, body, attributes⟩], nextMsg := s.nextMsg + 1 }

def messageRefused : Exn := .error "InvalidParameterValue"

/-- A message is sent, unless the queue does not take it. -/
def runSend (body : RawBody) (attributes : List (String × String)) (p : Pick) : Except Exn Unit × World :=
  if s.takes body attributes then s.answer p () (s.send body attributes) else (.error messageRefused, s)

def remove (q : QueueName) (ids : List Nat) : World :=
  match q with
  | .main => { s with main := s.main.filter (·.id ∉ ids) }
  | .dlq => { s with dlq := s.dlq.filter (·.id ∉ ids) }

/-- The messages `ids` of a queue, if they are there. -/
def pick (q : QueueName) (ids : List Nat) : Option (List Message) :=
  ids.mapM fun id => (s.queue q).find? (·.id = id)

end World

/-! ## What requests do -/

/-- The request `q` of thread `i`. -/
def World.exec (i : Nat) (q : Cmd) (p : Pick) (s : World) : Option (Except Exn q.Ans × World) :=
  match q with
  | .connect | .putObject .. | .modifyAckDeadline _ | .queueStats _ => some (s.answer p () s)
  | .sql st => s.runSql i st p
  | .begin =>
    match p.fault with
    | .none => some (.ok (), s.setTxn i (some (.active s.now [])))
    | .before text | .after text => some (.error (.error text), s)
  | .commit => some (s.runCommit i p)
  | .rollback =>
    let r := s.answer p () s
    some (r.1, s.finish i [])
  | .redisGet key => some (s.answer p (s.redisGet key) s)
  | .redisSetNx key value ttl =>
    if ttl = 0 then some (.error (.error "invalid expire time in 'set' command"), s)
    else if (s.redisGet key).isSome then some (s.answer p false s)
    else some (s.answer p true (s.redisSet key value (s.now + seconds ttl)))
  | .redisExpire key ttl => some (s.answer p () (s.redisExpire key ttl))
  | .redisDel key => some (s.answer p () (s.redisDel key))
  | .utcnow => some (.ok s.now, { s with clockRead := Function.update s.clockRead i (some s.now) })
  | .perfCounter => some (.ok s.now, s)
  | .sleep => some (.ok (), s)
  | .uuid4 =>
    if s.drawn.any (·.1 = p.fresh) then none
    else some (.ok p.fresh, { s with drawn := (p.fresh, i) :: s.drawn })
  | .fetchObject _ => some (s.answer p (p.image, p.contentType) s)
  | .signedUrl _ => some (s.answer p p.url s)
  | .analyze .. => some (s.answer p p.vision s)
  | .classify .. => some (s.answer p (p.suggested, p.llm) s)
  | .enqueue provider _ body attributes =>
    if provider = .pubsub "" then
      some (.error (.error "GCP_PROJECT is required when QUEUE_PROVIDER=pubsub"), s)
    else some (s.runSend (.json body) attributes p)
  | .sendMessage body attributes => some (s.runSend body attributes p)
  | .receive q max =>
    if p.ids.length ≤ max then (s.pick q p.ids).map fun ms => s.answer p ms s else none
  | .delete q receipt => some (s.answer p () (s.remove q [receipt]))
  | .acknowledge ackIds =>
    let r := s.answer p () (s.remove .main ackIds)
    match p.fault with
    | .after _ => some (r.1, s.remove .main (ackIds.filter (· ∈ p.ids)))
    | _ => some r
  | .log line => some (.ok (), { s with log := s.log ++ [line] })

/-- What happens by itself. -/
inductive Event where
  | tick (d : Nat)
  | loseKey (key : String)
  | toDlq (id : Nat)

/-- Time passes, and the keys whose time is up vanish. -/
def World.tick (s : World) (d : Nat) : World :=
  { s with now := s.now + d, redis := s.redis.filter fun e => decide (s.now + d ≤ e.2.2) }

def World.event (e : Event) (s : World) : Option World :=
  match e with
  | .tick d => some (s.tick d)
  | .loseKey key => some (s.redisDel key)
  | .toDlq id =>
    (s.main.find? (·.id = id)).map fun m =>
      { s with main := s.main.filter (·.id ≠ id), dlq := s.dlq ++ [m] }

/-- The death of thread `i`: its transaction is rolled back. -/
def World.crash (i : Nat) (s : World) : World := s.setTxn i none

end CM
