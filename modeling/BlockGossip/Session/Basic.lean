import BlockGossip.Inventory
import BlockGossip.Ledger.Promotion
import BlockGossip.Pool
import BlockGossip.Session.Event
import BlockGossip.Setup
import BlockGossip.Staging
import BlockGossip.Wire.FrameDecoder

/-!
# Sessions

The whole state of one node, and the steps every handler is made of: counting
bytes, sending, and arming timers. A handler takes a session to a session and
the actions it asks for, in order; `foldActions` runs one over a list.
-/

namespace BlockGossip

structure SessionConfig where
  invTimeout : Duration
  maxRequestAttempts : UInt32
  /-- How long a received block waits for its validation. -/
  validationDelay : Duration
  wire : WireSizes
  ledger : LedgerConfig
  transactions : TransactionConfig
deriving DecidableEq, Repr

namespace SessionConfig

def usual : SessionConfig :=
  ⟨.ofSeconds 120, 3, ⟨0⟩, .usual, ⟨.minerIdentity⟩, .usual⟩

def brisk : SessionConfig := { usual with invTimeout := .ofSeconds 5, transactions := .brisk }

instance : Inhabited SessionConfig := ⟨usual⟩

end SessionConfig

structure Session where
  setup : Setup
  config : SessionConfig
  ledger : Ledger
  orphans : OrphanPool
  staging : Staging
  inventory : Inventory BlockId
  frames : FrameDecoder
  pool : Pool
  /-- The counters since the last start; means and totals as of the last stop. -/
  counted : NodeStatistics
  blockReceive : RunningMean
  blockPropagation : RunningMean
  blockSize : RunningMean
  previousReceive : Time
  /-- The timers that run, without repetition. -/
  armed : List TimerId
  running : Bool
  now : Time
deriving Repr

/-- What a step leads to: the next state and the actions asked for. -/
abbrev Outcome (σ : Type) := σ × List Action

/-- Runs a step for each item; the actions follow one another. -/
def foldActions {σ α : Type} (step : σ → α → Outcome σ) (s : σ) : List α → Outcome σ
  | [] => (s, [])
  | x :: xs =>
    let (s, first) := step s x
    let (s, rest) := foldActions step s xs
    (s, first ++ rest)

namespace MessageKind

/-- Adds a charge to the counter of the kind; transactions and requests for
blocks share one, and three kinds are not counted. -/
def addTo (k : MessageKind) (add : ByteCounter → ByteCounter) (s : NodeStatistics) :
    NodeStatistics :=
  match k with
  | inv => { s with inv := add s.inv }
  | getHeaders => { s with getHeaders := add s.getHeaders }
  | headers => { s with headers := add s.headers }
  | getData | requestTrans | replyTrans => { s with getData := add s.getData }
  | block => { s with block := add s.block }
  | noMessage | msgTrans | resultTrans => s

end MessageKind

namespace Session

def fresh (setup : Setup) (config : SessionConfig) : Session where
  setup := setup
  config := config
  ledger := .genesis config.ledger.linkage
  orphans := .empty
  staging := .empty
  inventory := .empty
  frames := .empty
  pool := .empty setup.node setup.role config.transactions
  counted := .fresh setup.node setup.role.code
  blockReceive := .zero
  blockPropagation := .zero
  blockSize := .zero
  previousReceive := 0.0
  armed := []
  running := false
  now := 0.0

def setTime (s : Session) (now : Time) : Session := { s with now }

def armedTimers (s : Session) : List TimerId := s.armed.mergeSort TimerId.before

def statistics (s : Session) : NodeStatistics :=
  { s.counted with
    meanBlockReceiveTime := s.blockReceive.mean
    meanBlockPropagationTime := s.blockPropagation.mean
    meanBlockSize := s.blockSize.mean
    totalBlocks := UInt64.ofNat s.ledger.size
    blocksInForks := UInt64.ofNat s.ledger.blocksInForks
    longestFork := UInt64.ofNat s.ledger.longestFork
    nodeGeneratedTransaction := s.pool.generated
    meanEndorsementTime := s.pool.endorsement.mean
    meanOrderingTime := s.pool.ordering.mean
    meanValidationTime := s.pool.validation.mean }

/-- The block is stored, parked as an orphan, or waits for its validation. -/
def isKnown (s : Session) (id : BlockId) : Bool :=
  s.ledger.contains id || s.orphans.contains id || s.staging.isReceived id

def charge (s : Session) (kind : MessageKind) (items : Nat) (blockBytes : UInt64) : UInt64 :=
  s.config.wire.messageBytes kind items blockBytes

def countReceived (s : Session) (kind : MessageKind) (bytes : UInt64) : Session :=
  { s with counted := kind.addTo (·.addReceived bytes) s.counted }

/-- The actions that send an envelope to each of the receivers; none where the
envelope is not encoded. -/
def sendActions (receivers : List NodeId) (e : Envelope) (bytes : UInt64) : List Action :=
  match e.kind?, e.encode with
  | some kind, .ok frame => receivers.map fun receiver => .send receiver kind frame bytes
  | _, _ => []

/-- Sends an envelope of a kind to each of the receivers, and counts its charge
for each of them. -/
def sendAll (s : Session) (kind : MessageKind) (receivers : List NodeId) (e : Envelope)
    (bytes : UInt64) : Outcome Session :=
  let total := bytes * UInt64.ofNat receivers.length
  ({ s with counted := kind.addTo (·.addSent total) s.counted }, sendActions receivers e bytes)

/-- Arms a timer; one that runs already is cancelled before. -/
def armTimer (s : Session) (timer : TimerId) (after : Duration) : Outcome Session :=
  if s.armed.contains timer then (s, [.cancelTimer timer, .setTimer timer after])
  else ({ s with armed := s.armed ++ [timer] }, [.setTimer timer after])

def cancelTimer (s : Session) (timer : TimerId) : Outcome Session :=
  if s.armed.contains timer then
    ({ s with armed := s.armed.erase timer }, [.cancelTimer timer])
  else (s, [])

end Session

end BlockGossip
