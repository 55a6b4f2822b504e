import BlockGossip.Transaction

/-!
# Blocks

A block names its own miner and, by the linkage rule in force, something about
its parent's. When it arrived and from whom is local and never on the wire. The
genesis block has every field zero.
-/

namespace BlockGossip

structure Block where
  height : UInt64
  minerId : NodeId
  nonce : UInt64
  parentMinerId : NodeId
  sizeBytes : UInt64
  timestamp : Time
  /-- Local: when the block arrived here. -/
  receivedAt : Time
  /-- Local: the peer that delivered the block; none if it was minted here. -/
  origin : Option NodeId
  transactions : List Transaction
deriving BEq, DecidableEq, Repr

namespace Block

def genesis : Block := ⟨0, 0, 0, 0, 0, 0.0, 0.0, none, []⟩

instance : Inhabited Block := ⟨genesis⟩

def id (b : Block) : BlockId := ⟨b.height, b.minerId⟩

def isGenesis (b : Block) : Bool := b.height == 0

def header (b : Block) : Block := { b with transactions := [] }

def received (b : Block) (sender : NodeId) (time : Time) : Block :=
  { b with origin := some sender, receivedAt := time }

def minted (b : Block) (time : Time) : Block := { b with origin := none, receivedAt := time }

def carries (b : Block) (id : TransactionId) : Bool := b.transactions.any (·.id == id)

def addTransaction (b : Block) (t : Transaction) : Block :=
  { b with transactions := b.transactions ++ [t] }

def toJson (b : Block) : Json.Node :=
  Json.record
    [("height", Json.ofNat b.height.toNat),
     ("minerId", Json.ofNat b.minerId.toNat),
     ("nonce", Json.ofNat b.nonce.toNat),
     ("parentMinerId", Json.ofNat b.parentMinerId.toNat),
     ("sizeBytes", Json.ofNat b.sizeBytes.toNat),
     ("timestamp", Json.ofFloat b.timestamp),
     ("transactions", Json.ofList Transaction.toJson b.transactions)]

def ofJson? (n : Json.Node) : Option Block := do
  match ← n.fields?
      ["height", "minerId", "nonce", "parentMinerId", "sizeBytes", "timestamp", "transactions"] with
  | [height, minerId, nonce, parentMinerId, sizeBytes, timestamp, transactions] =>
    pure {
      height := ← Json.required Json.Node.word64? height
      minerId := ← Json.required Json.Node.word32? minerId
      nonce := ← Json.required Json.Node.word64? nonce
      parentMinerId := ← Json.required Json.Node.word32? parentMinerId
      sizeBytes := ← Json.required Json.Node.word64? sizeBytes
      timestamp := ← Json.required Json.Node.float? timestamp
      receivedAt := 0.0
      origin := none
      transactions := ← Json.optional (Json.Node.list? Transaction.ofJson?) [] transactions }
  | _ => none

end Block

end BlockGossip
