import BlockGossip.Session.Accept
import BlockGossip.Session.Transactions

/-!
# Handling events

One event takes a session to its next state and asks for actions. A session
that does not run takes no notice of anything but a start. Stopping drops what
is in progress (timers, requests, received blocks, partial frames) and keeps
what is settled (ledger, orphans, bare headers, transactions).
-/

namespace BlockGossip.Session

def onStart (s : Session) : Outcome Session :=
  if s.running then (s, [])
  else
    let counted := { NodeStatistics.fresh s.setup.node s.setup.role.code with
      connections := UInt64.ofNat s.setup.peers.length }
    let s := { s with running := true, counted }
    if s.setup.role.originates then
      s.armTimer .nextTransaction s.pool.config.creatingInterval
    else (s, [])

def onStop (s : Session) : Outcome Session :=
  if !s.running then (s, [])
  else
    let stopped := { s with
      running := false
      armed := []
      inventory := s.inventory.clear.2
      staging := s.staging.clearReceived.2
      frames := .empty }
    ({ stopped with counted := stopped.statistics }, s.armedTimers.map .cancelTimer)

/-- One message of a peer; numbers of no kind, and kinds nobody handles, are
passed over. -/
def onEnvelope (sender : NodeId) (s : Session) (e : Envelope) : Outcome Session :=
  match e.kind? with
  | none => (s, [])
  | some .inv => s.onInv sender e
  | some .getHeaders => s.onGetHeaders sender e
  | some .headers => s.onHeaders sender e
  | some .getData => s.onGetData sender e
  | some .block => s.onBlock sender e
  | some .requestTrans => s.onRequestTrans sender e
  | some .replyTrans => (s.onReplyTrans e, [])
  | some .noMessage | some .msgTrans | some .resultTrans => (s, [])

/-- Bytes of a peer: every frame they complete is handled in turn. -/
def onBytes (s : Session) (sender : NodeId) (bytes : Bytes) : Outcome Session :=
  let (envelopes, frames) := s.frames.feed sender bytes
  foldActions (onEnvelope sender) { s with frames } envelopes

/-- A timer fired; one that does not run is passed over. -/
def onTimer (s : Session) (timer : TimerId) : Outcome Session :=
  if !s.armed.contains timer then (s, [])
  else
    let s := { s with armed := s.armed.erase timer }
    match timer with
    | .inventoryTimeout id => s.onInventoryTimeout id
    | .validation id => s.onValidation id
    | .nextTransaction => s.onNextTransaction

def handle (s : Session) : Event → Outcome Session
  | .start => s.onStart
  | .stop => s.onStop
  | .bytesReceived sender bytes => if s.running then s.onBytes sender bytes else (s, [])
  | .timerFired timer => if s.running then s.onTimer timer else (s, [])
  | .blockMinted b => if s.running then s.onBlockMinted b else (s, [])

end BlockGossip.Session
