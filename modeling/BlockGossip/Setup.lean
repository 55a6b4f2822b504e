import BlockGossip.Role
import BlockGossip.BlockId
import BlockGossip.Table
import BlockGossip.Time

/-!
# Nodes and their links

What a node is before it runs: its role and protocol, its peers in order, and
how fast it and they can send and receive.
-/

namespace BlockGossip

/-- Speeds in megabits a second. -/
structure InternetSpeed where
  download : Float
  upload : Float
deriving DecidableEq, Repr

namespace InternetSpeed

def symmetric (speed : Float) : InternetSpeed := ⟨speed, speed⟩

def usual : InternetSpeed := symmetric 8.0

instance : Inhabited InternetSpeed := ⟨usual⟩

def downloadBytesPerSecond (s : InternetSpeed) : Float := s.download * 1000000.0 / 8.0

def uploadBytesPerSecond (s : InternetSpeed) : Float := s.upload * 1000000.0 / 8.0

/-- The bytes a second from one node to another: the slower of the two ends. -/
def rate (sender receiver : InternetSpeed) : Float :=
  Time.smaller sender.uploadBytesPerSecond receiver.downloadBytesPerSecond

end InternetSpeed

structure Setup where
  node : NodeId
  role : Role
  peers : List NodeId
  protocol : Protocol
  speed : InternetSpeed
  peerSpeeds : Table NodeId InternetSpeed
deriving Repr

/-- The bytes a second to a peer; a peer of unknown speed does not slow the link. -/
def Setup.linkRate (s : Setup) (peer : NodeId) : Float :=
  match s.peerSpeeds.get? peer with
  | some speed => s.speed.rate speed
  | none => s.speed.uploadBytesPerSecond

end BlockGossip
