import BlockGossip.Session.Request

/-!
# Accepting blocks

From the arrival of a block to its place in the ledger. A received block waits
for its validation; then it is stored if its parent is, and parked as an orphan
if not. Whenever a block is stored, the orphans that descend from it are stored
with it, and each stored block is advertised to every peer but the one that
delivered it.
-/

namespace BlockGossip.Session

/-- Receives one block: a request for it ends, and it waits for its validation. -/
def receiveBlock (sender : NodeId) (s : Session) (record : Block) : Outcome Session :=
  let id := record.id
  if s.isKnown id then (s, [])
  else
    let (entry, inventory) := s.inventory.resolve id
    let (s, cancelled) :=
      if entry.isSome then { s with inventory }.cancelTimer (.inventoryTimeout id)
      else (s, [])
    let s := { s with staging := (s.staging.stage (record.received sender s.now)).2 }
    let (s, set) := s.armTimer (.validation id) s.config.validationDelay
    (s, cancelled ++ set)

def onBlock (s : Session) (sender : NodeId) (e : Envelope) : Outcome Session :=
  if !s.setup.role.handlesInventory then (s, [])
  else
    let records := e.blockRecords
    let s := s.countReceived .block (s.charge .block records.length (payloadBytes records))
    foldActions (receiveBlock sender) s records

/-- Counts a stored block in: its transactions are validated, and if a peer
delivered it, the means of receiving are folded. -/
def recordStored (s : Session) (b : Block) : Session :=
  let s := { s with pool := (s.pool.validateFromBlock b s.now).2 }
  match b.origin with
  | none => s
  | some _ =>
    { s with
      blockReceive := s.blockReceive.fold (s.now - s.previousReceive)
      previousReceive := s.now
      blockPropagation := s.blockPropagation.fold (s.now - b.timestamp)
      blockSize := s.blockSize.fold (Float.ofNat b.sizeBytes.toNat) }

/-- Advertises a stored block to every peer but its origin. -/
def advertise (s : Session) (b : Block) : Outcome Session :=
  let receivers := s.setup.peers.filter fun peer => some peer != b.origin
  match s.setup.protocol with
  | .standard => s.sendAll .inv receivers (Envelope.announce [b.id]) (s.charge .inv 1 0)
  | .sendHeaders =>
    s.sendAll .headers receivers (Envelope.headers [b.header]) (s.charge .headers 1 0)

/-- Accepts a block: stores it and its waiting descendants, or parks it. -/
def acceptBlock (s : Session) (b : Block) : Outcome Session :=
  if s.ledger.contains b.id || s.orphans.contains b.id then (s, [])
  else if !s.ledger.hasParent b then ({ s with orphans := (s.orphans.add b).2 }, [])
  else
    match s.ledger.add b with
    | (false, _) => (s, [])
    | (true, ledger) =>
      let promotion := promoteOrphans ledger s.orphans b
      let stored := b :: promotion.promoted
      let s := { s with ledger := promotion.ledger, orphans := promotion.orphans }
      foldActions advertise (stored.foldl recordStored s) stored

def onBlockMinted (s : Session) (b : Block) : Outcome Session := s.acceptBlock (b.minted s.now)

def onValidation (s : Session) (id : BlockId) : Outcome Session :=
  match s.staging.take id with
  | (none, _) => (s, [])
  | (some b, staging) => { s with staging }.acceptBlock b

end BlockGossip.Session
