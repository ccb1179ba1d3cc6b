import PostTrade.Queue.RedisStream
import PostTrade.Storage
import PostTrade.Lib.Machine

/-!
# Workers on one consumer group

`workers/worker.py` and `workers/worker_pool.py` as a machine.  Its state is the stream, the tick
store and the processes; an action is a publish, the next step of one process, a signal, a crash,
or the passing of time.  Any order of actions is a run, so a run is an interleaving.

A process runs `run_worker`, or it is a recovery consumer that calls `claim_stale`, writes and
acknowledges.  What a process does between two steps it keeps to itself, and a step touches the
shared state at most once: one `XREADGROUP`, one `COPY`, one `XACK`.  A crash can fall between any
two steps.

`History` records which messages were handed to whom, who wrote them and which ids were
acknowledged.  No step looks at it.
-/

set_option autoImplicit false

namespace PostTrade

/-! ## Processes -/

/-- The arguments of `run_worker` that decide what it does. -/
structure RunWorkerArgs where
  maxMessages : Option ℤ := none
  maxIdleReads : Option ℤ := none
  readBatchSize : ℤ := 500
  deriving DecidableEq

/-- Where a process stands. -/
inductive Phase
  /-- Before its `StreamConsumer` exists. -/
  | starting
  /-- At the head of the loop. -/
  | looping
  /-- About to write the batch. -/
  | writing (batch : List ConsumedMessage)
  /-- The batch is written, and about to be acknowledged. -/
  | acking (batch : List ConsumedMessage)
  /-- The batch is acknowledged; the gauges and the log line are next. -/
  | reporting (batch : List ConsumedMessage)
  /-- It has returned. -/
  | stopped
  /-- It has ended with an exception of its own. -/
  | raised
  /-- It was killed. -/
  | crashed
  deriving DecidableEq

/-- What a process runs. -/
inductive Role
  | worker (args : RunWorkerArgs)
  | recovery
  deriving DecidableEq

/-- A process: the local variables of `run_worker`. -/
structure Process where
  consumerName : Str
  role : Role
  phase : Phase := .starting
  running : Bool := true
  processed : ℕ := 0
  idleReads : ℕ := 0
  deriving DecidableEq

/-- `l[:stop]`: a negative `stop` counts from the end. -/
def sliceTo {α : Type*} (l : List α) (stop : ℤ) : List α :=
  l.take (if stop < 0 then l.length + stop else stop).toNat

/-- The part of the batch that `max_messages` still allows. -/
def limitBatch (maxMessages : Option ℤ) (processed : ℕ) (messages : List ConsumedMessage) :
    List ConsumedMessage :=
  match maxMessages with
  | none => messages
  | some limit =>
    if processed + messages.length > limit then sliceTo messages (limit - processed) else messages

theorem limitBatch_sublist (maxMessages : Option ℤ) (processed : ℕ)
    (messages : List ConsumedMessage) :
    (limitBatch maxMessages processed messages).Sublist messages := by
  cases maxMessages with
  | none => exact List.Sublist.refl _
  | some limit =>
    rw [limitBatch]
    split
    · exact List.take_sublist _ _
    · exact List.Sublist.refl _

/-- The counter has reached the limit. -/
def limitReached (maxMessages : Option ℤ) (processed : ℕ) : Bool :=
  match maxMessages with
  | none => false
  | some limit => decide (limit ≤ processed)

/-- The messages the process has been handed and not yet acknowledged. -/
def Phase.batch : Phase → List ConsumedMessage
  | .writing batch => batch
  | .acking batch => batch
  | _ => []

/-- The messages the process is about to write. -/
def Phase.toWrite : Phase → List ConsumedMessage
  | .writing batch => batch
  | _ => []

/-- The messages the process has written and is about to acknowledge. -/
def Phase.toAck : Phase → List ConsumedMessage
  | .acking batch => batch
  | _ => []

/-- The process takes no further step. -/
def Phase.Ended : Phase → Prop
  | .stopped => True
  | .raised => True
  | .crashed => True
  | _ => False

instance : DecidablePred Phase.Ended
  | .stopped | .raised | .crashed => inferInstanceAs (Decidable True)
  | .starting | .looping | .writing _ | .acking _ | .reporting _ =>
    inferInstanceAs (Decidable False)

/-! ## The pool -/

/-- A message and the consumer it was handed to, or that wrote it. -/
abbrev Handled := ConsumedMessage × Str

/-- What happened so far. -/
structure History where
  /-- What `XREADGROUP` delivered. -/
  delivered : List Handled := []
  /-- What `claim_stale` returned. -/
  claimed : List Handled := []
  /-- What was written to the store, in order. -/
  written : List Handled := []
  /-- The ids passed to `XACK`. -/
  acked : List ℕ := []
  deriving DecidableEq

/-- The state of the machine. -/
structure Pool where
  stream : TickStream := {}
  store : TickStore := []
  processes : List Process := []
  now : ℕ := 0
  history : History := {}
  deriving DecidableEq

inductive Action
  | publish (tick : Tick)
  /-- A process is started. -/
  | spawn (consumerName : Str) (role : Role)
  /-- The process takes its next step. -/
  | work (i : ℕ)
  /-- The recovery consumer calls `claim_stale`. -/
  | claim (i : ℕ) (minIdleMs count : ℤ)
  /-- SIGTERM or SIGINT reaches the process. -/
  | signal (i : ℕ)
  | crash (i : ℕ)
  | wait (ms : ℕ)
  deriving DecidableEq

namespace Pool

variable (s : Pool)

/-- The machine before anything happened: whatever the store holds, and no stream. -/
def initial (store : TickStore) : Pool where
  store := store

/-- Process `i` has become `p`. -/
def setProcess (i : ℕ) (p : Process) : Pool := { s with processes := s.processes.set i p }

/-- `publish`. -/
def publish (tick : Tick) : Pool := { s with stream := (StreamPublisher.publish s.stream tick).1 }

/-- The constructor of the consumer. -/
def createConsumer (i : ℕ) (p : Process) : Pool :=
  { s with stream := StreamConsumer.create s.stream }.setProcess i { p with phase := .looping }

/-- The head of the loop of `run_worker`, down to the truncated batch. -/
def readMessages (i : ℕ) (p : Process) (args : RunWorkerArgs) : Pool :=
  if p.running = false then s.setProcess i { p with phase := .stopped }
  else
    match StreamConsumer.read s.stream p.consumerName args.readBatchSize s.now with
    | .error _ => s.setProcess i { p with phase := .raised }
    | .ok (stream, messages) =>
      if messages = [] then
        let idleReads := p.idleReads + 1
        let phase : Phase := if limitReached args.maxIdleReads idleReads then .stopped else .looping
        { s with stream }.setProcess i { p with idleReads, phase }
      else
        { s with
          stream
          history.delivered :=
            s.history.delivered ++ messages.map fun m ↦ (m, p.consumerName) }.setProcess i
          { p with
            idleReads := 0
            phase := .writing (limitBatch args.maxMessages p.processed messages) }

/-- `store.write_ticks_batch(ticks, worker=consumer_name)`. -/
def writeBatch (i : ℕ) (p : Process) (batch : List ConsumedMessage) : Pool :=
  { s with
    store := s.store.writeTicksBatch (batch.map ConsumedMessage.tick) (some p.consumerName)
    history.written := s.history.written ++ batch.map fun m ↦ (m, p.consumerName) }.setProcess i
    { p with phase := .acking batch }

/-- `consumer.ack_batch(…)`, and the count of processed messages.  A recovery consumer then
starts over. -/
def ackBatch (i : ℕ) (p : Process) (batch : List ConsumedMessage) : Pool :=
  { s with
    stream := StreamConsumer.ackBatch s.stream (batch.map ConsumedMessage.messageId)
    history.acked := s.history.acked ++ batch.map ConsumedMessage.messageId }.setProcess i
    { p with
      processed := p.processed + batch.length
      phase :=
        match p.role with
        | .worker _ => .reporting batch
        | .recovery => .looping }

/-- The end of the loop body.  The log line reads the first message of the batch, which raises
where the batch is empty. -/
def report (i : ℕ) (p : Process) (args : RunWorkerArgs) (batch : List ConsumedMessage) : Pool :=
  if batch = [] then s.setProcess i { p with phase := .raised }
  else
    s.setProcess i
      { p with
        phase := .looping
        running := p.running && !limitReached args.maxMessages p.processed }

/-- The recovery consumer's call of `claim_stale`; with nothing returned there is nothing to
write. -/
def claimMessages (i : ℕ) (p : Process) (minIdleMs count : ℤ) : Pool :=
  match StreamConsumer.claimStale s.stream p.consumerName minIdleMs count s.now with
  | .error _ => s.setProcess i { p with phase := .raised }
  | .ok (stream, messages) =>
    { s with
      stream
      history.claimed :=
        s.history.claimed ++ messages.map fun m ↦ (m, p.consumerName) }.setProcess i
      { p with phase := if messages = [] then .looping else .writing messages }

/-- The next step of process `i`.  `none` when it has none of its own to take. -/
def work (i : ℕ) (p : Process) : Option Pool :=
  match p.phase, p.role with
  | .starting, _ => some (s.createConsumer i p)
  | .looping, .worker args => some (s.readMessages i p args)
  | .writing batch, _ => some (s.writeBatch i p batch)
  | .acking batch, _ => some (s.ackBatch i p batch)
  | .reporting batch, .worker args => some (s.report i p args batch)
  | _, _ => none

/-- One step of the machine. -/
def step : Action → Option Pool
  | .publish tick => some (s.publish tick)
  | .spawn consumerName role =>
    some { s with processes := s.processes ++ [{ consumerName, role }] }
  | .work i => s.processes[i]?.bind fun p ↦ s.work i p
  | .claim i minIdleMs count =>
    s.processes[i]?.bind fun p ↦
      if p.role = .recovery ∧ p.phase = .looping then some (s.claimMessages i p minIdleMs count)
      else none
  | .signal i =>
    s.processes[i]?.bind fun p ↦
      if p.phase = .starting ∨ p.phase.Ended then none
      else some (s.setProcess i { p with running := false })
  | .crash i =>
    s.processes[i]?.bind fun p ↦
      if p.phase.Ended then none else some (s.setProcess i { p with phase := .crashed })
  | .wait ms => some { s with now := s.now + ms }

/-- `run_worker_pool`: the processes it starts. -/
def runWorkerPool (size : ℕ) (args : RunWorkerArgs) : List Action :=
  (List.range size).map fun i ↦ .spawn ("worker-".toList ++ (toString i).toList) (.worker args)

end Pool

end PostTrade
