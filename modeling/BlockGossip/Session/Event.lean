import BlockGossip.Block
import BlockGossip.Wire.Message

/-!
# Events and actions

A session is driven by events and answers each with actions: frames to send
and timers to set or cancel. Nothing else passes between a session and the
world around it.
-/

namespace BlockGossip

inductive TimerId where
  /-- The time of a request for a block. -/
  | inventoryTimeout (block : BlockId)
  /-- The time a received block waits for its validation. -/
  | validation (block : BlockId)
  | nextTransaction
deriving DecidableEq, Repr, Inhabited

/-- Timers in order: requests, then validations, each by block, then the next
transaction. -/
def TimerId.before : TimerId → TimerId → Bool
  | .inventoryTimeout a, .inventoryTimeout b => a.before b
  | .inventoryTimeout _, _ => true
  | .validation _, .inventoryTimeout _ => false
  | .validation a, .validation b => a.before b
  | .validation _, .nextTransaction => true
  | .nextTransaction, .nextTransaction => true
  | .nextTransaction, _ => false

inductive Event where
  | start
  | stop
  | bytesReceived (sender : NodeId) (bytes : Bytes)
  | timerFired (timer : TimerId)
  | blockMinted (block : Block)
deriving Repr, Inhabited

inductive Action where
  /-- Sends a frame; it is charged `wireBytes`, whatever its encoded length. -/
  | send (receiver : NodeId) (kind : MessageKind) (frame : Bytes) (wireBytes : UInt64)
  | setTimer (timer : TimerId) (after : Duration)
  | cancelTimer (timer : TimerId)
deriving DecidableEq, Repr, Inhabited

end BlockGossip
