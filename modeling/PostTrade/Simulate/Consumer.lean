import PostTrade.Queue.RedisStream
import PostTrade.Simulate.TradeBookSimulator
import PostTrade.Lib.Machine

/-!
# Simulators on their consumer group

`TradeBookSimulator.run` as a machine: any number of simulator processes on one consumer group and
one set of stores, beside a publisher and the workers that write to the tick store.

A process acknowledges a message before it handles it, and it acknowledges one message at a time.

A step touches the stream at most once.  Writing the fill is one step, and what follows the fill
(the log, the position, the deletion of ticks) is another; a crash falls between any two steps.
-/

set_option autoImplicit false

namespace PostTrade

/-! ## Processes -/

/-- What a simulator keeps in memory, and loses when it ends. -/
structure Memory where
  truePosition : Str → Option ℚ := fun _ ↦ none
  avgPrice : Str → Option ℚ := fun _ ↦ none
  lastPrice : Str → Option ℚ := fun _ ↦ none
  recentSequences : Str → List ℤ := fun _ ↦ []
  fillSequences : Str → ℤ := fun _ ↦ 1
  orderIds : ℕ := 1
  fillsEmitted : ℕ := 0
  anomaliesPlanted : AnomalyType → ℕ := fun _ ↦ 0

/-- The simulator that has this memory and these stores. -/
def Memory.attach (m : Memory) (tickStore : TickStore) (bookStore : BookStore) : Simulator :=
  { m with tickStore, bookStore }

/-- The memory of the simulator. -/
def Simulator.memory (s : Simulator) : Memory := { s with }

@[simp] theorem Simulator.attach_memory (s : Simulator) :
    s.memory.attach s.tickStore s.bookStore = s := rfl

/-- Where a simulator stands in `run`. -/
inductive SimulatorPhase
  /-- Before its `StreamConsumer` exists. -/
  | starting
  /-- At the head of the loop. -/
  | looping
  /-- About to acknowledge the message, with the rest of the read to come. -/
  | consuming (message : ConsumedMessage) (rest : List ConsumedMessage)
  /-- The message is acknowledged, and about to be tracked. -/
  | handling (message : ConsumedMessage) (rest : List ConsumedMessage)
  /-- The fill that answers the message is written. -/
  | settling (message : ConsumedMessage) (draws : Draws) (rest : List ConsumedMessage)
  /-- It has returned. -/
  | stopped
  /-- It has ended with an exception of its own. -/
  | raised

namespace SimulatorPhase

/-- The loop over the messages of a read goes on with these. -/
def next : List ConsumedMessage → SimulatorPhase
  | [] => .looping
  | message :: rest => .consuming message rest

/-- The messages read and not yet acknowledged. -/
def waiting : SimulatorPhase → List ConsumedMessage
  | .consuming message rest => message :: rest
  | .handling _ rest => rest
  | .settling _ _ rest => rest
  | _ => []

/-- The message acknowledged and not yet handled. -/
def inHand : SimulatorPhase → List ConsumedMessage
  | .handling message _ => [message]
  | _ => []

instance (phase : SimulatorPhase) : Decidable (phase = .stopped) :=
  match phase with
  | .stopped => isTrue rfl
  | .starting | .looping | .consuming _ _ | .handling _ _ | .settling _ _ _ | .raised =>
    isFalse nofun

@[simp] theorem waiting_next (rest : List ConsumedMessage) : (next rest).waiting = rest := by
  cases rest with
  | nil => rfl
  | cons message rest => rfl

@[simp] theorem inHand_next (rest : List ConsumedMessage) : (next rest).inHand = [] := by
  cases rest with
  | nil => rfl
  | cons message rest => rfl

end SimulatorPhase

/-- A simulator process: the arguments of `run`, and where it stands. -/
structure SimulatorProcess where
  consumerName : Str
  config : SimulatorConfig
  maxFills : Option ℤ
  maxIdleReads : Option ℤ
  phase : SimulatorPhase := .starting
  /-- Whether it was killed. -/
  alive : Bool := true
  idle : ℤ := 0
  memory : Memory := {}

/-! ## The machine -/

/-- What happened so far. -/
structure SimulationHistory where
  /-- The ids passed to `XACK`. -/
  acked : List ℕ := []
  /-- The messages handled. -/
  handled : List ConsumedMessage := []
  /-- The messages answered with a fill. -/
  filled : List ConsumedMessage := []

/-- The state of the machine.  The stream is the one of the ticks, with the simulators' group. -/
structure Simulation where
  stream : TickStream
  tickStore : TickStore
  bookStore : BookStore
  simulators : List SimulatorProcess := []
  now : ℕ := 0
  history : SimulationHistory := {}

inductive SimulationAction
  | publish (tick : Tick)
  /-- A worker writes to the tick store. -/
  | write (ticks : List Tick) (worker : Option Str)
  /-- A simulator is started. -/
  | spawn (consumerName : Str) (config : SimulatorConfig) (maxFills maxIdleReads : Option ℤ)
  /-- The simulator takes its next step; the draws are those of the message it handles. -/
  | work (i : ℕ) (draws : Draws)
  | crash (i : ℕ)
  | wait (ms : ℕ)

namespace StreamConsumer

/-- `ack`. -/
def ack (stream : TickStream) (messageId : ℕ) : TickStream := stream.xack [messageId]

end StreamConsumer

namespace Simulation

open ConsumerGroup Machine

variable (s : Simulation)

/-- The simulator process `i` has become `p`. -/
def setSimulator (i : ℕ) (p : SimulatorProcess) : Simulation :=
  { s with simulators := s.simulators.set i p }

/-- The constructor of the consumer. -/
def createConsumer (i : ℕ) (p : SimulatorProcess) : Simulation :=
  { s with stream := StreamConsumer.create s.stream }.setSimulator i { p with phase := .looping }

/-- The head of the loop of `run`. -/
def readMessages (i : ℕ) (p : SimulatorProcess) : Simulation :=
  match StreamConsumer.read s.stream p.consumerName 20 s.now with
  | .error _ => s.setSimulator i { p with phase := .raised }
  | .ok (stream, []) =>
    let idle := p.idle + 1
    let stop := p.maxIdleReads.any fun m ↦ decide (m ≤ idle)
    { s with stream }.setSimulator i { p with idle, phase := if stop then .stopped else .looping }
  | .ok (stream, message :: rest) =>
    { s with stream }.setSimulator i { p with idle := 0, phase := .consuming message rest }

/-- `self.consumer.ack(msg.message_id)`. -/
def ackMessage (i : ℕ) (p : SimulatorProcess) (message : ConsumedMessage)
    (rest : List ConsumedMessage) : Simulation :=
  { s with
    stream := StreamConsumer.ack s.stream message.messageId
    history.acked := s.history.acked ++ [message.messageId] }.setSimulator i
    { p with phase := .handling message rest }

/-- The message is tracked; if it is traded on, the fill is written. -/
def handleMessage (i : ℕ) (p : SimulatorProcess) (message : ConsumedMessage)
    (rest : List ConsumedMessage) (draws : Draws) : Simulation :=
  let tracked := (p.memory.attach s.tickStore s.bookStore).trackSequence message.tick
  let s := { s with history.handled := s.history.handled ++ [message] }
  if draws.tradeRoll < p.config.tradeProbability then
    let booked := tracked.bookFill p.config draws message.tick
    { s with
      bookStore := booked.bookStore
      history.filled := s.history.filled ++ [message] }.setSimulator i
      { p with memory := booked.memory, phase := .settling message draws rest }
  else s.setSimulator i { p with memory := tracked.memory, phase := .next rest }

/-- The rest of `_generate_fill`, and the test of `max_fills`. -/
def settleMessage (i : ℕ) (p : SimulatorProcess) (message : ConsumedMessage) (draws : Draws)
    (rest : List ConsumedMessage) : Simulation :=
  let settled := (p.memory.attach s.tickStore s.bookStore).settleFill p.config draws message.tick
  let stop := p.maxFills.any fun m ↦ decide (m ≤ (settled.fillsEmitted : ℤ))
  { s with tickStore := settled.tickStore, bookStore := settled.bookStore }.setSimulator i
    { p with memory := settled.memory, phase := if stop then .stopped else .next rest }

/-- The next step of simulator `i`.  `none` when it takes none. -/
def work (i : ℕ) (p : SimulatorProcess) (draws : Draws) : Option Simulation :=
  if p.alive = false then none
  else
    match p.phase with
    | .starting => some (s.createConsumer i p)
    | .looping => some (s.readMessages i p)
    | .consuming message rest => some (s.ackMessage i p message rest)
    | .handling message rest => some (s.handleMessage i p message rest draws)
    | .settling message draws rest => some (s.settleMessage i p message draws rest)
    | .stopped => none
    | .raised => none

/-- One step of the machine. -/
def step : SimulationAction → Option Simulation
  | .publish tick => some { s with stream := (StreamPublisher.publish s.stream tick).1 }
  | .write ticks worker => some { s with tickStore := s.tickStore.writeTicksBatch ticks worker }
  | .spawn consumerName config maxFills maxIdleReads =>
    some { s with
      simulators := s.simulators ++ [{ consumerName, config, maxFills, maxIdleReads }] }
  | .work i draws => s.simulators[i]?.bind fun p ↦ s.work i p draws
  | .crash i => s.simulators[i]?.map fun p ↦ s.setSimulator i { p with alive := false }
  | .wait ms => some { s with now := s.now + ms }

/-- Before any simulator runs. -/
def initial (stream : TickStream) (tickStore : TickStore) (bookStore : BookStore) : Simulation where
  stream := stream
  tickStore := tickStore
  bookStore := bookStore

/-! ## What a step can do -/

/-- The messages by their ids. -/
def messageIds (messages : List ConsumedMessage) : List ℕ := messages.map ConsumedMessage.messageId

@[simp] theorem messageIds_append (messages more : List ConsumedMessage) :
    messageIds (messages ++ more) = messageIds messages ++ messageIds more := List.map_append

/-- The effect of a step on the group and on what its processes have. -/
inductive Effect (s : Simulation) : Simulation → Prop
  /-- Something outside the simulators. -/
  | outside (s' : Simulation) (entries : s.stream.entries <+: s'.stream.entries)
    (hcreated : s'.stream.created = s.stream.created)
    (hcursor : s'.stream.cursor = s.stream.cursor) (hpel : s'.stream.pelIds = s.stream.pelIds)
    (hsimulators : s'.simulators = s.simulators) (hhistory : s'.history = s.history)
    (hfills : s'.bookStore.fills = s.bookStore.fills) : Effect s s'
  | spawn (p : SimulatorProcess) (hstarting : p.phase = .starting) :
    Effect s { s with simulators := s.simulators ++ [p] }
  | crash (i : ℕ) (p : SimulatorProcess) (hp : s.simulators[i]? = some p) :
    Effect s (s.setSimulator i { p with alive := false })
  /-- A process moves on without a message in hand; it may give up what it waits to handle. -/
  | move (s' : Simulation) (i : ℕ) (p p' : SimulatorProcess) (hp : s.simulators[i]? = some p)
    (hlive : p.alive = true) (hinHand : p.phase.inHand = [] ∧ p'.phase.inHand = [])
    (hwaiting : p'.phase.waiting = p.phase.waiting ∨ p'.phase.waiting = [])
    (hentries : s'.stream.entries = s.stream.entries)
    (hcursor : s'.stream.cursor = s.stream.cursor) (hpel : s'.stream.pelIds = s.stream.pelIds)
    (hsimulators : s'.simulators = s.simulators.set i p') (hhistory : s'.history = s.history)
    (hfills : s'.bookStore.fills = s.bookStore.fills) : Effect s s'
  | read (i : ℕ) (p p' : SimulatorProcess) (stream : TickStream) (messages : List ConsumedMessage)
    (hp : s.simulators[i]? = some p) (hlive : p.alive = true) (hlooping : p.phase = .looping)
    (hread : StreamConsumer.read s.stream p.consumerName 20 s.now = .ok (stream, messages))
    (hinHand : p'.phase.inHand = []) (hwaiting : p'.phase.waiting = messages) :
    Effect s ({ s with stream }.setSimulator i p')
  | ack (i : ℕ) (p : SimulatorProcess) (message : ConsumedMessage) (rest : List ConsumedMessage)
    (hp : s.simulators[i]? = some p) (hlive : p.alive = true)
    (hphase : p.phase = .consuming message rest) : Effect s (s.ackMessage i p message rest)
  | handle (i : ℕ) (p : SimulatorProcess) (message : ConsumedMessage)
    (rest : List ConsumedMessage) (draws : Draws) (hp : s.simulators[i]? = some p)
    (hlive : p.alive = true) (hphase : p.phase = .handling message rest) :
    Effect s (s.handleMessage i p message rest draws)

section Effect

variable {s s' : Simulation} {i : ℕ} {p : SimulatorProcess}

/-- Settling a fill writes no other. -/
theorem fills_settleFill (config : SimulatorConfig) (draws : Draws) (tick : Tick)
    (sim : Simulator) :
    (sim.settleFill config draws tick).bookStore.fills = sim.bookStore.fills := by
  rw [Simulator.settleFill]
  split
  · rfl
  · rfl
  · exact (Simulator.plantSequenceGap_frame draws _ _ _).1
  · rfl

theorem effect_readMessages (hp : s.simulators[i]? = some p) (hlive : p.alive = true)
    (hlooping : p.phase = .looping) : Effect s (s.readMessages i p) := by
  have hidle : p.phase.inHand = [] ∧ p.phase.waiting = [] := by
    rw [hlooping]
    exact ⟨rfl, rfl⟩
  rw [readMessages]
  split
  · exact .move _ i p _ hp hlive ⟨hidle.1, rfl⟩ (.inr rfl) rfl rfl rfl rfl rfl rfl
  · rename_i stream hread
    refine .read i p _ stream [] hp hlive hlooping hread ?_ ?_
    · dsimp only
      split
      · rfl
      · rfl
    · dsimp only
      split
      · rfl
      · rfl
  · rename_i stream message rest hread
    exact .read i p _ stream (message :: rest) hp hlive hlooping hread rfl rfl

/-- Handling a message, with or without a fill, takes it out of the process's hands. -/
theorem handleMessage_spec (message : ConsumedMessage) (rest : List ConsumedMessage)
    (draws : Draws) :
    let s' := s.handleMessage i p message rest draws
    s'.stream = s.stream ∧ s'.history.acked = s.history.acked ∧
      s'.history.handled = s.history.handled ++ [message] ∧
      ∃ p', s'.simulators = s.simulators.set i p' ∧ p'.phase.waiting = rest ∧
        p'.phase.inHand = [] := by
  intro s'
  simp only [s', handleMessage]
  split
  · exact ⟨rfl, rfl, rfl, _, rfl, rfl, rfl⟩
  · exact ⟨rfl, rfl, rfl, _, rfl, SimulatorPhase.waiting_next rest,
      SimulatorPhase.inHand_next rest⟩

theorem effect_settleMessage {message : ConsumedMessage} {draws : Draws}
    {rest : List ConsumedMessage} (hp : s.simulators[i]? = some p) (hlive : p.alive = true)
    (hphase : p.phase = .settling message draws rest) :
    Effect s (s.settleMessage i p message draws rest) := by
  refine .move _ i p _ hp hlive ⟨by rw [hphase]; rfl, ?_⟩ ?_ rfl rfl rfl rfl rfl
    (fills_settleFill _ _ _ _)
  · dsimp only
    split
    · rfl
    · exact SimulatorPhase.inHand_next rest
  · dsimp only
    split
    · exact .inr rfl
    · rw [SimulatorPhase.waiting_next, hphase]
      exact .inl rfl

theorem effect_work {draws : Draws} (hp : s.simulators[i]? = some p)
    (h : s.work i p draws = some s') : Effect s s' := by
  rw [work] at h
  split at h
  · cases h
  · rename_i hlive
    rw [Bool.not_eq_false] at hlive
    split at h
    · rename_i hphase
      cases h
      exact .move _ i p _ hp hlive ⟨by rw [hphase]; rfl, rfl⟩ (.inr rfl)
        (GroupStream.xgroupCreate_entries _) (GroupStream.xgroupCreate_cursor _)
        (congrArg (List.map Pending.id) (GroupStream.xgroupCreate_pel _)) rfl rfl rfl
    · rename_i hphase
      cases h
      exact effect_readMessages hp hlive hphase
    · rename_i message rest hphase
      cases h
      exact .ack i p message rest hp hlive hphase
    · rename_i message rest hphase
      cases h
      exact .handle i p message rest draws hp hlive hphase
    · rename_i message draws rest hphase
      cases h
      exact effect_settleMessage hp hlive hphase
    · cases h
    · cases h

/-- **Every step is one of these.** -/
theorem effect_of_step {a : SimulationAction} (h : s.step a = some s') : Effect s s' := by
  cases a with
  | publish tick =>
    cases h
    exact .outside _ (List.prefix_append _ _) rfl rfl rfl rfl rfl rfl
  | write ticks worker =>
    cases h
    exact .outside _ (List.prefix_refl _) rfl rfl rfl rfl rfl rfl
  | spawn consumerName config maxFills maxIdleReads =>
    cases h
    exact .spawn _ rfl
  | work i draws =>
    obtain ⟨p, hp, hwork⟩ := Option.bind_eq_some_iff.mp h
    exact effect_work hp hwork
  | crash i =>
    obtain ⟨p, hp, hcrash⟩ := Option.map_eq_some_iff.mp h
    cases hcrash
    exact .crash i p hp
  | wait ms =>
    cases h
    exact .outside _ (List.prefix_refl _) rfl rfl rfl rfl rfl rfl

end Effect

end Simulation

end PostTrade
