import BlockGossip.Session.Basic

/-!
# Requesting blocks

From an announcement to the request for the block, and what happens when the
request's time runs out. A block is requested of the first peer that announces
it; the others are asked in turn as requests run out.
-/

namespace BlockGossip.Session

/-- The ids among keys; what is no key is passed over. -/
def parseKeys (keys : List String) : List BlockId :=
  keys.filterMap fun key => (BlockId.parse key).toOption

def startRequest (peer : NodeId) (s : Session) (id : BlockId) : Outcome Session :=
  { s with inventory := s.inventory.markRequested id peer }.armTimer (.inventoryTimeout id)
    s.config.invTimeout

def requestBlocks (s : Session) (peer : NodeId) (ids : List BlockId) (withHeaders : Bool) :
    Outcome Session :=
  if ids.isEmpty then (s, [])
  else
    let (s, timers) := foldActions (startRequest peer) s ids
    let (s, headers) :=
      if withHeaders then
        s.sendAll .getHeaders [peer] (Envelope.getHeaders ids) (s.charge .getHeaders ids.length 0)
      else (s, [])
    let (s, data) :=
      s.sendAll .getData [peer] (Envelope.getData ids) (s.charge .getData ids.length 0)
    (s, timers ++ headers ++ data)

/-- A peer announces a block; the flag says whether it is to be requested. -/
def announced (s : Session) (peer : NodeId) (id : BlockId) : Bool × Session :=
  match s.inventory.announce id peer with
  | (.request, inventory) => (true, { s with inventory })
  | (.alreadyTracked, inventory) => (false, { s with inventory })

def announceAll (peer : NodeId) (s : Session) : List BlockId → Session × List BlockId
  | [] => (s, [])
  | id :: ids =>
    if s.isKnown id then announceAll peer s ids
    else
      let (isNew, s) := s.announced peer id
      let (s, requests) := announceAll peer s ids
      (s, if isNew then id :: requests else requests)

def onInv (s : Session) (sender : NodeId) (e : Envelope) : Outcome Session :=
  if !s.setup.role.handlesInventory then (s, [])
  else
    let s := s.countReceived .inv (s.charge .inv e.inv.length 0)
    let (s, requests) := announceAll sender s (parseKeys e.inv)
    s.requestBlocks sender requests true

/-- Notes a header, and under the protocol that announces by headers takes it as
an announcement; the flag says whether the block is to be requested. -/
def noteHeader (peer : NodeId) (s : Session) (header : Block) : Bool × Session :=
  let s := { s with staging := (s.staging.recordHeader header.header).2 }
  match s.setup.protocol with
  | .standard => (false, s)
  | .sendHeaders => s.announced peer header.id

def noteHeaders (peer : NodeId) (s : Session) : List Block → Session × List BlockId
  | [] => (s, [])
  | header :: rest =>
    if s.isKnown header.id then noteHeaders peer s rest
    else
      let (isNew, s) := noteHeader peer s header
      let (s, requests) := noteHeaders peer s rest
      (s, if isNew then header.id :: requests else requests)

def onHeaders (s : Session) (sender : NodeId) (e : Envelope) : Outcome Session :=
  if !s.setup.role.handlesInventory then (s, [])
  else
    let s := s.countReceived .headers (s.charge .headers e.blockRecords.length 0)
    let (s, requests) := noteHeaders sender s e.blockRecords
    s.requestBlocks sender requests false

/-- A request for headers is answered with those of the stored blocks. -/
def onGetHeaders (s : Session) (sender : NodeId) (e : Envelope) : Outcome Session :=
  let s := s.countReceived .getHeaders (s.charge .getHeaders e.blockKeys.length 0)
  let headers := ((parseKeys e.blockKeys).filterMap s.ledger.get?).map Block.header
  if headers.isEmpty then (s, [])
  else
    s.sendAll .headers [sender] (Envelope.headers headers) (s.charge .headers headers.length 0)

def payloadBytes (blocks : List Block) : UInt64 :=
  blocks.foldl (fun total b => total + b.sizeBytes) 0

def onGetData (s : Session) (sender : NodeId) (e : Envelope) : Outcome Session :=
  let s := s.countReceived .getData (s.charge .getData e.blockKeys.length 0)
  let blocks := (parseKeys e.blockKeys).filterMap s.ledger.get?
  if blocks.isEmpty then (s, [])
  else
    s.sendAll .block [sender] (Envelope.block blocks)
      (s.charge .block blocks.length (payloadBytes blocks))

def countTimeout (s : Session) : Session :=
  { s with counted := { s.counted with blockTimeouts := s.counted.blockTimeouts + 1 } }

def onInventoryTimeout (s : Session) (id : BlockId) : Outcome Session :=
  if s.isKnown id then ({ s with inventory := (s.inventory.resolve id).2 }, [])
  else
    match s.inventory.expire id s.config.maxRequestAttempts with
    | (.stale, inventory) => ({ s with inventory }, [])
    | (.retry peer, inventory) =>
      { s with inventory }.countTimeout.requestBlocks peer [id] true
    | (.abandoned, inventory) => ({ s with inventory }.countTimeout, [])

end BlockGossip.Session
