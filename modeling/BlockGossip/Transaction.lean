import BlockGossip.BlockId
import BlockGossip.Json.Record
import BlockGossip.Time

/-!
# Transactions

A transaction is known by the node that created it and its number there. What
crosses the wire is its id, its creation time, whether it is validated and
which node executed it; its size is local and takes its usual value on arrival.
-/

namespace BlockGossip

structure TransactionId where
  node : NodeId
  number : UInt64
deriving DecidableEq, Repr, Inhabited

namespace TransactionId

def text (id : TransactionId) : String :=
  Numeral.text id.node.toNat ++ ":" ++ Numeral.text id.number.toNat

/-- Ids in order: by node, then by number. -/
def before (a b : TransactionId) : Bool :=
  a.node < b.node || (a.node == b.node && a.number ≤ b.number)

end TransactionId

structure Transaction where
  nodeId : NodeId
  transId : UInt64
  timestamp : Time
  validated : Bool
  /-- The node that executed it, zero before. -/
  execution : NodeId
  /-- Local: never on the wire. -/
  sizeBytes : UInt64
deriving BEq, DecidableEq, Repr

namespace Transaction

def usualSize : UInt64 := 100

def create (node : NodeId) (number : UInt64) (timestamp : Time) : Transaction :=
  ⟨node, number, timestamp, false, 0, usualSize⟩

instance : Inhabited Transaction := ⟨create 0 0 0.0⟩

def id (t : Transaction) : TransactionId := ⟨t.nodeId, t.transId⟩

def setExecution (t : Transaction) (executor : NodeId) : Transaction :=
  { t with execution := executor }

def markValidated (t : Transaction) : Transaction := { t with validated := true }

def toJson (t : Transaction) : Json.Node :=
  Json.record
    [("nodeId", Json.ofNat t.nodeId.toNat),
     ("transId", Json.ofNat t.transId.toNat),
     ("timestamp", Json.ofFloat t.timestamp),
     ("validation", .bool t.validated),
     ("execution", Json.ofNat t.execution.toNat)]

def ofJson? (n : Json.Node) : Option Transaction := do
  match ← n.fields? ["nodeId", "transId", "timestamp", "validation", "execution"] with
  | [nodeId, transId, timestamp, validated, execution] =>
    pure {
      nodeId := ← Json.required Json.Node.word32? nodeId
      transId := ← Json.required Json.Node.word64? transId
      timestamp := ← Json.required Json.Node.float? timestamp
      validated := ← Json.optional Json.Node.bool? false validated
      execution := ← Json.optional Json.Node.word32? 0 execution
      sizeBytes := usualSize }
  | _ => none

end Transaction

end BlockGossip
