import BlockGossip.Block
import BlockGossip.Role
import BlockGossip.Statistics
import BlockGossip.Table

/-!
# Transaction pool

The transactions a node holds, the executions it made, and the executions
others reported. What happens to an offered transaction depends on the node's
role. A held transaction is never dropped; validation marks the held copy, an
execution is stamped on a copy of its own.
-/

namespace BlockGossip

structure TransactionConfig where
  transactionSizeBytes : UInt64
  creatingInterval : Duration
deriving DecidableEq, Repr

namespace TransactionConfig

def usual : TransactionConfig := ⟨Transaction.usualSize, .ofSeconds 1⟩

def brisk : TransactionConfig := { usual with creatingInterval := .ofMilliseconds 100 }

instance : Inhabited TransactionConfig := ⟨usual⟩

def durationToJson (d : Duration) : Json.Node :=
  Json.record [("secs", Json.ofNat d.seconds), ("nanos", Json.ofNat d.subseconds)]

/-- Reads a duration: no other field may stand beside the two, and nanoseconds
beyond a second carry. -/
def duration? (n : Json.Node) : Option Duration := do
  match ← n.exactFields? ["secs", "nanos"] with
  | [secs, nanos] =>
    let seconds ← Json.required (Json.Node.nat? UInt64.size) secs
    let nanoseconds ← Json.required (Json.Node.nat? UInt32.size) nanos
    let total := seconds * Duration.perSecond + nanoseconds
    if total < UInt64.size * Duration.perSecond then pure ⟨total⟩ else none
  | _ => none

def toJson (c : TransactionConfig) : Json.Node :=
  Json.record
    [("transaction_size_bytes", Json.ofNat c.transactionSizeBytes.toNat),
     ("creating_interval", durationToJson c.creatingInterval)]

def ofJson? (n : Json.Node) : Option TransactionConfig := do
  match ← n.fields? ["transaction_size_bytes", "creating_interval"] with
  | [size, interval] =>
    pure ⟨← Json.required Json.Node.word64? size, ← Json.required duration? interval⟩
  | _ => none

end TransactionConfig

inductive RequestOutcome where
  | ignored
  | alreadyHeld
  | executed (transaction : Transaction)
  | forward (transaction : Transaction)
deriving DecidableEq, Repr

inductive ReplyDisposition where
  | duplicate
  | record
  | ownOrigin
deriving DecidableEq, Repr

/-- An execution is known by its transaction and by who executed it. -/
abbrev ExecutionId := TransactionId × NodeId

structure Pool where
  node : NodeId
  role : Role
  config : TransactionConfig
  held : Table TransactionId Transaction
  executed : List Transaction
  replies : Table ExecutionId Transaction
  nextNumber : UInt64
  generated : UInt64
  endorsement : RunningMean
  ordering : RunningMean
  validation : RunningMean
deriving Repr

namespace Pool

def empty (node : NodeId) (role : Role) (config : TransactionConfig) : Pool :=
  ⟨node, role, config, .empty, [], .empty, 1, 0, .zero, .zero, .zero⟩

def get? (p : Pool) (id : TransactionId) : Option Transaction := p.held.get? id

def holds (p : Pool) (id : TransactionId) : Bool := p.held.contains id

def hasReply (p : Pool) (id : TransactionId) (execution : NodeId) : Bool :=
  p.replies.contains (id, execution)

def hasValidated (p : Pool) (id : TransactionId) : Bool :=
  (p.get? id).any (·.validated)

def heldCount (p : Pool) : Nat := p.held.size

def replyCount (p : Pool) : Nat := p.replies.size

def setRole (p : Pool) (role : Role) : Pool := { p with role }

/-- Offers a transaction of another node. The copy that is kept is a fresh one:
of the offered one only the id and the creation time count. -/
def request (p : Pool) (offered : Transaction) (now : Time) : RequestOutcome × Pool :=
  if !p.role.acceptsRequests then (.ignored, p)
  else if p.holds offered.id then (.alreadyHeld, p)
  else
    let fresh : Transaction :=
      { Transaction.create offered.nodeId offered.transId offered.timestamp with
        sizeBytes := p.config.transactionSizeBytes }
    let p := { p with held := p.held.insert fresh.id fresh }
    let age := now - fresh.timestamp
    if p.role.executes then
      let executed := fresh.setExecution p.node
      (.executed executed,
        { p with endorsement := p.endorsement.fold age, executed := p.executed ++ [executed] })
    else if p.role = .order then (.forward fresh, { p with ordering := p.ordering.fold age })
    else (.forward fresh, p)

def reply (p : Pool) (reported : Transaction) : ReplyDisposition × Pool :=
  let key : ExecutionId := (reported.id, reported.execution)
  if p.replies.contains key then (.duplicate, p)
  else if reported.nodeId = p.node then (.ownOrigin, p)
  else (.record, { p with replies := p.replies.insert key reported })

def create (p : Pool) (now : Time) : Transaction × Pool :=
  let fresh : Transaction :=
    { Transaction.create p.node p.nextNumber now with sizeBytes := p.config.transactionSizeBytes }
  (fresh,
    { p with
      nextNumber := p.nextNumber + 1
      generated := p.generated + 1
      held := p.held.insert fresh.id fresh })

/-- Marks one held transaction; the flag says whether it was held and unmarked. -/
def validate (p : Pool) (id : TransactionId) (now : Time) : Bool × Pool :=
  match p.get? id with
  | none => (false, p)
  | some held =>
    if held.validated then (false, p)
    else
      (true,
        { p with
          held := p.held.insert id held.markValidated
          validation := p.validation.fold (now - held.timestamp) })

/-- Marks the held transactions of a list and counts those newly marked. -/
def validateAll (p : Pool) (now : Time) : List Transaction → Nat × Pool
  | [] => (0, p)
  | carried :: rest =>
    let (marked, p) := p.validate carried.id now
    let (count, p) := p.validateAll now rest
    (count + marked.toNat, p)

/-- Marks the held transactions that a stored block carries, in the roles that do. -/
def validateFromBlock (p : Pool) (b : Block) (now : Time) : Nat × Pool :=
  if p.role.validates then p.validateAll now b.transactions else (0, p)

/-- The held transactions not yet validated, by id, at most so many. -/
def pending (p : Pool) (limit : Nat) : List Transaction :=
  ((p.held.values.filter fun t => !t.validated).mergeSort fun a b => a.id.before b.id).take limit

end Pool

end BlockGossip
