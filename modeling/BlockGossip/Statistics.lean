import BlockGossip.BlockId
import BlockGossip.Json.Record

/-!
# Statistics of a node

Means that are folded one sample at a time, byte counters in two directions,
and the record a node reports. Counters are 64-bit words.
-/

namespace BlockGossip

structure RunningMean where
  mean : Float
  count : UInt64
deriving DecidableEq, Repr

namespace RunningMean

def zero : RunningMean := ⟨0.0, 0⟩

instance : Inhabited RunningMean := ⟨zero⟩

/-- Folds a sample in: the old mean is weighed with the old count. -/
def fold (m : RunningMean) (sample : Float) : RunningMean :=
  let n := Float.ofNat (m.count + 1).toNat
  ⟨(m.mean * (n - 1.0) + sample) / n, m.count + 1⟩

def toJson (m : RunningMean) : Json.Node :=
  Json.record [("mean", Json.ofFloat m.mean), ("count", Json.ofNat m.count.toNat)]

def ofJson? (n : Json.Node) : Option RunningMean := do
  match ← n.fields? ["mean", "count"] with
  | [mean, count] =>
    pure ⟨← Json.required Json.Node.float? mean, ← Json.required Json.Node.word64? count⟩
  | _ => none

end RunningMean

structure ByteCounter where
  sent : UInt64
  received : UInt64
deriving DecidableEq, Repr, Inhabited

namespace ByteCounter

def zero : ByteCounter := ⟨0, 0⟩

def addSent (c : ByteCounter) (bytes : UInt64) : ByteCounter := { c with sent := c.sent + bytes }

def addReceived (c : ByteCounter) (bytes : UInt64) : ByteCounter :=
  { c with received := c.received + bytes }

def toJson (c : ByteCounter) : Json.Node :=
  Json.record [("sent", Json.ofNat c.sent.toNat), ("received", Json.ofNat c.received.toNat)]

def ofJson? (n : Json.Node) : Option ByteCounter := do
  match ← n.fields? ["sent", "received"] with
  | [sent, received] =>
    pure ⟨← Json.required Json.Node.word64? sent, ← Json.required Json.Node.word64? received⟩
  | _ => none

end ByteCounter

structure NodeStatistics where
  nodeId : NodeId
  nodeType : UInt8
  connections : UInt64
  meanBlockReceiveTime : Float
  meanBlockPropagationTime : Float
  meanBlockSize : Float
  totalBlocks : UInt64
  blocksInForks : UInt64
  longestFork : UInt64
  blockTimeouts : UInt64
  inv : ByteCounter
  getHeaders : ByteCounter
  headers : ByteCounter
  getData : ByteCounter
  block : ByteCounter
  nodeGeneratedTransaction : UInt64
  meanEndorsementTime : Float
  meanOrderingTime : Float
  meanValidationTime : Float
  /-- Reported, and never measured. -/
  meanLatency : Float
deriving DecidableEq, Repr

namespace NodeStatistics

def fresh (node : NodeId) (kind : UInt8) : NodeStatistics :=
  { nodeId := node, nodeType := kind, connections := 0
    meanBlockReceiveTime := 0.0, meanBlockPropagationTime := 0.0, meanBlockSize := 0.0
    totalBlocks := 0, blocksInForks := 0, longestFork := 0, blockTimeouts := 0
    inv := .zero, getHeaders := .zero, headers := .zero, getData := .zero, block := .zero
    nodeGeneratedTransaction := 0
    meanEndorsementTime := 0.0, meanOrderingTime := 0.0, meanValidationTime := 0.0
    meanLatency := 0.0 }

instance : Inhabited NodeStatistics := ⟨fresh 0 0⟩

def counters (s : NodeStatistics) : List ByteCounter :=
  [s.inv, s.getHeaders, s.headers, s.getData, s.block]

def totalSent (s : NodeStatistics) : UInt64 :=
  s.counters.foldl (fun total c => total + c.sent) 0

def totalReceived (s : NodeStatistics) : UInt64 :=
  s.counters.foldl (fun total c => total + c.received) 0

def fieldNames : List String :=
  ["nodeId", "nodeType", "connections", "meanBlockReceiveTime", "meanBlockPropagationTime",
   "meanBlockSize", "totalBlocks", "blocksInForks", "longestFork", "blockTimeouts", "inv",
   "getHeaders", "headers", "getData", "block", "nodeGeneratedTransaction",
   "meanEndorsementTime", "meanOrderingTime", "meanValidationTime", "meanLatency"]

def toJson (s : NodeStatistics) : Json.Node :=
  Json.record (fieldNames.zip
    [Json.ofNat s.nodeId.toNat, Json.ofNat s.nodeType.toNat, Json.ofNat s.connections.toNat,
     Json.ofFloat s.meanBlockReceiveTime, Json.ofFloat s.meanBlockPropagationTime,
     Json.ofFloat s.meanBlockSize, Json.ofNat s.totalBlocks.toNat,
     Json.ofNat s.blocksInForks.toNat, Json.ofNat s.longestFork.toNat,
     Json.ofNat s.blockTimeouts.toNat, s.inv.toJson, s.getHeaders.toJson, s.headers.toJson,
     s.getData.toJson, s.block.toJson, Json.ofNat s.nodeGeneratedTransaction.toNat,
     Json.ofFloat s.meanEndorsementTime, Json.ofFloat s.meanOrderingTime,
     Json.ofFloat s.meanValidationTime, Json.ofFloat s.meanLatency])

def ofJson? (n : Json.Node) : Option NodeStatistics := do
  match ← n.fields? fieldNames with
  | [nodeId, nodeType, connections, receive, propagation, size, total, inForks, longest, timeouts,
     inv, getHeaders, headers, getData, block, generated, endorsement, ordering, validation,
     latency] =>
    pure {
      nodeId := ← Json.required Json.Node.word32? nodeId
      nodeType := ← Json.required Json.Node.word8? nodeType
      connections := ← Json.required Json.Node.word64? connections
      meanBlockReceiveTime := ← Json.required Json.Node.float? receive
      meanBlockPropagationTime := ← Json.required Json.Node.float? propagation
      meanBlockSize := ← Json.required Json.Node.float? size
      totalBlocks := ← Json.required Json.Node.word64? total
      blocksInForks := ← Json.required Json.Node.word64? inForks
      longestFork := ← Json.required Json.Node.word64? longest
      blockTimeouts := ← Json.required Json.Node.word64? timeouts
      inv := ← Json.required ByteCounter.ofJson? inv
      getHeaders := ← Json.required ByteCounter.ofJson? getHeaders
      headers := ← Json.required ByteCounter.ofJson? headers
      getData := ← Json.required ByteCounter.ofJson? getData
      block := ← Json.required ByteCounter.ofJson? block
      nodeGeneratedTransaction := ← Json.required Json.Node.word64? generated
      meanEndorsementTime := ← Json.required Json.Node.float? endorsement
      meanOrderingTime := ← Json.required Json.Node.float? ordering
      meanValidationTime := ← Json.required Json.Node.float? validation
      meanLatency := ← Json.required Json.Node.float? latency }
  | _ => none

end NodeStatistics

end BlockGossip
