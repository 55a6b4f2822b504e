import BlockGossip.Random.Source
import BlockGossip.Setup
import BlockGossip.Text.Bytes

/-!
# The network

Frames take their time. A link sends one frame after another at the rate of its
slower end; a frame arrives in chunks, spread evenly over its transmission and
each delayed by the latency of the frame, which varies at random. A chunk never
arrives before the one sent before it on the same link.
-/

namespace BlockGossip

structure NetworkConfig where
  latency : Duration
  /-- How far the latency varies, as a part of itself; taken from zero to one. -/
  jitterFraction : Float
  chunkSize : UInt64
deriving DecidableEq, Repr

namespace NetworkConfig

def usual : NetworkConfig := ⟨.ofMilliseconds 50, 0.1, 1024⟩

instance : Inhabited NetworkConfig := ⟨usual⟩

end NetworkConfig

structure Delivery where
  sender : NodeId
  receiver : NodeId
  time : Time
  bytes : Bytes
deriving Repr, Inhabited

structure TrafficStats where
  messagesSent : UInt64
  chunksSent : UInt64
  wireBytes : UInt64
  encodedBytes : UInt64
deriving DecidableEq, Repr, Inhabited

/-- A link, from its sender to its receiver. -/
abbrev Link := NodeId × NodeId

structure Network (σ : Type) where
  config : NetworkConfig
  speeds : Table NodeId InternetSpeed
  /-- Until when each link sends what it was given. -/
  busyUntil : Table Link Time
  lastArrival : Table Link Time
  /-- Chunks sent and not yet collected. -/
  outbox : List Delivery
  random : σ
  now : Time
  stats : TrafficStats

/-- Cuts bytes into pieces of a positive size, the last one perhaps shorter. The
fuel is at least the number of bytes. -/
def chunksOf (size : Nat) : Nat → Bytes → List Bytes
  | _, [] => []
  | 0, _ => []
  | fuel + 1, b :: bs => (b :: bs).take size :: chunksOf size fuel ((b :: bs).drop size)

namespace Network

variable {σ : Type}

def create (config : NetworkConfig) (random : σ) : Network σ where
  config := config
  speeds := .empty
  busyUntil := .empty
  lastArrival := .empty
  outbox := []
  random := random
  now := 0.0
  stats := ⟨0, 0, 0, 0⟩

def setSpeed (n : Network σ) (node : NodeId) (speed : InternetSpeed) : Network σ :=
  { n with speeds := n.speeds.insert node speed }

/-- The speed of a node; one that was never set is the usual one. -/
def speed (n : Network σ) (node : NodeId) : InternetSpeed :=
  (n.speeds.get? node).getD .usual

def setTime (n : Network σ) (now : Time) : Network σ := { n with now }

def linkRate (n : Network σ) (sender receiver : NodeId) : Float :=
  (n.speed sender).rate (n.speed receiver)

def drain (n : Network σ) : List Delivery × Network σ := (n.outbox, { n with outbox := [] })

def jitterShare (config : NetworkConfig) : Float :=
  let f := config.jitterFraction
  if f < 0.0 then 0.0 else if f > 1.0 then 1.0 else f

def sampleLatency [Random.Source σ] (n : Network σ) : Time × Network σ :=
  let base := n.config.latency.toSeconds
  let jitter := base * jitterShare n.config
  if jitter > 0.0 then
    let (offset, random) := Random.symmetric jitter n.random
    (base + offset, { n with random })
  else (base, n)

/-- The arrival times of the chunks of a frame, behind those already sent: each
at its share of the transmission, and none before the last arrival. -/
def arrivals (start transmission latency count : Float) (last : Time) :
    Nat → List Bytes → List (Time × Bytes) × Time
  | _, [] => ([], last)
  | i, chunk :: rest =>
    let share := start + transmission * (Float.ofNat i + 1.0) / count + latency
    let time := Time.later share last
    let (later, last) := arrivals start transmission latency count time (i + 1) rest
    ((time, chunk) :: later, last)

/-- Sends a frame, charged `wireBytes`, over a link. -/
def send [Random.Source σ] (n : Network σ) (sender receiver : NodeId) (frame : Bytes)
    (wireBytes : UInt64) : Network σ :=
  let link : Link := (sender, receiver)
  let rate := n.linkRate sender receiver
  let transmission := if rate > 0.0 then Float.ofNat wireBytes.toNat / rate else 0.0
  let start := Time.later ((n.busyUntil.get? link).getD 0.0) n.now
  let (latency, n) := n.sampleLatency
  let chunks := chunksOf (max n.config.chunkSize.toNat 1) frame.length frame
  let count := Float.ofNat (max chunks.length 1)
  let (arriving, last) :=
    arrivals start transmission latency count ((n.lastArrival.get? link).getD 0.0) 0 chunks
  { n with
    busyUntil := n.busyUntil.insert link (start + transmission)
    lastArrival := n.lastArrival.insert link last
    outbox := n.outbox ++ arriving.map fun (time, chunk) => ⟨sender, receiver, time, chunk⟩
    stats := {
      messagesSent := n.stats.messagesSent + 1
      chunksSent := n.stats.chunksSent + UInt64.ofNat chunks.length
      wireBytes := n.stats.wireBytes + wireBytes
      encodedBytes := n.stats.encodedBytes + UInt64.ofNat frame.length } }

end Network

end BlockGossip
