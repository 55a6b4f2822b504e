import BlockGossip.Session.Handle
import BlockGossip.Simulation.Config
import BlockGossip.Simulation.Queue

/-!
# Simulations

A network of sessions on one event queue. The simulation carries out the
actions that sessions ask for: frames go to the network and come back as events
of their receivers, timers go to the queue. Blocks are mined on a schedule of
random delays by miners chosen at random. All randomness comes from two
sources, one for the schedule and one inside the network.
-/

namespace BlockGossip

structure SimulationStats where
  eventsProcessed : UInt64
  actionsGenerated : UInt64
  blocksMinted : UInt64
  timersSet : UInt64
  timersCancelled : UInt64
deriving DecidableEq, Repr, Inhabited

structure Simulation (σ : Type) where
  config : SimulationConfig
  /-- The sessions, by ascending node. -/
  sessions : Table NodeId Session
  miners : List NodeId
  queue : EventQueue
  network : Network σ
  random : σ
  /-- The scheduled mining, if it is still to come. -/
  nextMine : Option EventKey
  eventsProcessed : UInt64
  actionsGenerated : UInt64
  blocksMinted : UInt64

namespace Simulation

variable {σ : Type}

def now (sim : Simulation σ) : Time := sim.queue.now

def stats (sim : Simulation σ) : SimulationStats :=
  ⟨sim.eventsProcessed, sim.actionsGenerated, sim.blocksMinted, sim.queue.timersSet,
    sim.queue.timersCancelled⟩

def traffic (sim : Simulation σ) : TrafficStats := sim.network.stats

def session? (sim : Simulation σ) (node : NodeId) : Option Session := sim.sessions.get? node

def nodes (sim : Simulation σ) : List NodeId := sim.sessions.keys

def scheduleDelivery (q : EventQueue) (d : Delivery) : EventQueue :=
  (q.schedule d.receiver d.time (.node (.bytesReceived d.sender d.bytes))).2

variable [Random.Source σ]

/-- Carries out one action of a node. A frame to a node that is not here is
dropped. -/
def perform (node : NodeId) (sim : Simulation σ) : Action → Simulation σ
  | .send receiver _ frame wireBytes =>
    if sim.sessions.contains receiver then
      let sent := (sim.network.setTime sim.now).send node receiver frame wireBytes
      let (deliveries, network) := sent.drain
      { sim with network, queue := deliveries.foldl scheduleDelivery sim.queue }
    else sim
  | .setTimer timer after => { sim with queue := sim.queue.setTimer node timer after }
  | .cancelTimer timer => { sim with queue := sim.queue.cancelTimer node timer }

/-- Gives an event to a node. One for a node that is not here is dropped. -/
def dispatch (sim : Simulation σ) (node : NodeId) (event : Event) : Simulation σ :=
  match sim.session? node with
  | none => sim
  | some session =>
    let (session, actions) := (session.setTime sim.now).handle event
    let sim := { sim with
      sessions := sim.sessions.insert node session
      actionsGenerated := sim.actionsGenerated + UInt64.ofNat actions.length }
    actions.foldl (perform node) sim

/-- The delay until the next block, for a fraction drawn. -/
def miningDelay (interval : Duration) (u : Float) : Float :=
  -(Float.log (1.0 - u)) * interval.toSeconds

/-- Schedules the next mining, unless enough blocks were minted. -/
def scheduleNextMine (sim : Simulation σ) : Simulation σ :=
  let sim := { sim with nextMine := none }
  if sim.config.blocksToMint ≤ sim.blocksMinted then sim
  else
    match Random.choose sim.miners sim.random with
    | (none, _) => sim
    | (some miner, random) =>
      let (u, random) := Random.fraction random
      let time := sim.now + miningDelay sim.config.blockInterval u
      let (key, queue) := sim.queue.schedule miner time .mine
      { sim with random, queue, nextMine := some key }

/-- The block that a miner adds to its top: its parent field is what the linkage
rule asks for, and it carries the first transactions still pending. -/
def candidate (config : SimulationConfig) (session : Session) (miner : NodeId) (nonce : UInt64)
    (time : Time) : Block :=
  let top := session.ledger.top
  let carried := session.pool.pending config.transactionsPerBlock.toNat
  { height := top.height + 1
    minerId := miner
    nonce := nonce
    parentMinerId := config.linkage.parentField top
    sizeBytes := config.blockSizeBytes + carried.foldl (fun total tx => total + tx.sizeBytes) 0
    timestamp := time
    receivedAt := 0.0
    origin := none
    transactions := carried }

/-- A node mines. The nonce is drawn first; a node that does not run, or is not
here, mines nothing. -/
def mine (sim : Simulation σ) (miner : NodeId) : Simulation σ :=
  let (nonce, random) := Random.word64 sim.random
  let sim := { sim with random }
  match sim.session? miner with
  | none => sim
  | some session =>
    if session.running then
      let block := candidate sim.config session miner nonce sim.now
      { sim with blocksMinted := sim.blocksMinted + 1 }.dispatch miner (.blockMinted block)
    else sim

/-- Handles an event taken from the queue. Only the scheduled mining schedules
the next. -/
def process (sim : Simulation σ) (key : EventKey) : ScheduledEvent → Simulation σ
  | .node event => sim.dispatch key.node event
  | .mine =>
    let mined := sim.mine key.node
    if sim.nextMine = some key then mined.scheduleNextMine else mined

def step? (sim : Simulation σ) (limit : Time) : Option (Simulation σ) :=
  match sim.queue.popUntil limit with
  | none => none
  | some ((key, event), queue) =>
    some ({ sim with queue, eventsProcessed := sim.eventsProcessed + 1 }.process key event)

def runSteps (limit : Time) : Nat → Simulation σ → Simulation σ
  | 0, sim => sim
  | fuel + 1, sim =>
    match sim.step? limit with
    | none => sim
    | some sim => runSteps limit fuel sim

/-- More events than any run handles. -/
def eventLimit : Nat := 1000000000000000000

/-- Handles every event until the end, and moves the clock there. -/
def runUntil (sim : Simulation σ) (limit : Time) : Simulation σ :=
  let sim := runSteps limit eventLimit sim
  { sim with queue := sim.queue.advanceTo limit }

def inject (sim : Simulation σ) (node : NodeId) (time : Time) (event : Event) : Simulation σ :=
  { sim with queue := (sim.queue.schedule node time (.node event)).2 }

/-- Has a node mine at a time, beside the schedule. -/
def mineAt (sim : Simulation σ) (miner : NodeId) (time : Time) : Simulation σ :=
  { sim with queue := (sim.queue.schedule miner time .mine).2 }

def start (sim : Simulation σ) : Simulation σ :=
  (sim.nodes.foldl (fun sim node => sim.inject node sim.now .start) sim).scheduleNextMine

/-- Ends the mining schedule, and stops every node at once. -/
def stopAll (sim : Simulation σ) : Simulation σ :=
  let sim := match sim.nextMine with
    | some key => { sim with nextMine := none, queue := (sim.queue.cancel key).2 }
    | none => sim
  sim.nodes.foldl (fun sim node => sim.dispatch node .stop) sim

def run (sim : Simulation σ) : Simulation σ :=
  let started := sim.start
  (started.runUntil (started.now + sim.config.duration.toSeconds)).stopAll

-- ---------------------------------------------------------------------------
-- Views
-- ---------------------------------------------------------------------------

/-- The sessions that take part in the block gossip. -/
def inventorySessions (sim : Simulation σ) : List (NodeId × Session) :=
  sim.sessions.entries.filter fun entry => entry.2.setup.role.handlesInventory

def tops (sim : Simulation σ) : List (NodeId × BlockId) :=
  sim.inventorySessions.map fun entry => (entry.1, entry.2.ledger.top.id)

def allHold (sim : Simulation σ) (id : BlockId) : Bool :=
  sim.inventorySessions.all fun entry => entry.2.ledger.contains id

end Simulation

end BlockGossip
