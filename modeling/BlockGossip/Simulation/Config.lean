import BlockGossip.Decimal.Plain
import BlockGossip.Session.Basic
import BlockGossip.Simulation.Network

/-!
# Configurations

What a simulation is run with, and what makes a configuration invalid. Sums of
node counts are taken in naturals, so no count can wrap.
-/

namespace BlockGossip

inductive ConfigError where
  | invalidValue (key value : String)
  | tooFewNodes (nodes : Nat)
  | noCommitters (nodes : Nat)
  | tooManyMiners (miners committers : Nat)
  | connections (got max : Nat)
  | bandwidth (megabits : Float)
deriving DecidableEq, Repr

def ConfigError.message : ConfigError → String
  | .invalidValue key value => key ++ "=" ++ value ++ " is not a valid value"
  | .tooFewNodes nodes => "A network needs at least 2 nodes, got " ++ Numeral.text nodes
  | .noCommitters nodes =>
    "Role mix leaves no committer among " ++ Numeral.text nodes ++ " nodes"
  | .tooManyMiners miners committers =>
    Numeral.text miners ++ " miners requested but only " ++ Numeral.text committers ++
      " committers exist"
  | .connections got max =>
    "Connections per node must be between 1 and " ++ Numeral.text max ++ ", got " ++
      Numeral.text got
  | .bandwidth megabits =>
    "Bandwidth must be positive, got " ++ Decimal.plain megabits ++ " Mbps"

structure SimulationConfig where
  nodes : UInt32
  connections : UInt64
  orderers : UInt32
  endorsers : UInt32
  clients : UInt32
  miners : UInt32
  protocol : Protocol
  linkage : Linkage
  speed : InternetSpeed
  network : NetworkConfig
  blockInterval : Duration
  /-- The size of a block without transactions. -/
  blockSizeBytes : UInt64
  transactionsPerBlock : UInt64
  blocksToMint : UInt64
  duration : Duration
  seed : UInt64
  session : SessionConfig
deriving DecidableEq, Repr

namespace SimulationConfig

def usual : SimulationConfig where
  nodes := 16
  connections := 4
  orderers := 1
  endorsers := 2
  clients := 2
  miners := 2
  protocol := .standard
  linkage := .minerIdentity
  speed := .usual
  network := .usual
  blockInterval := .ofSeconds 10
  blockSizeBytes := 100000
  transactionsPerBlock := 50
  blocksToMint := 20
  duration := .ofSeconds 600
  seed := 42
  session := .usual

def brisk : SimulationConfig :=
  { usual with
    nodes := 6
    connections := 2
    orderers := 0
    endorsers := 1
    clients := 1
    miners := 1
    network := ⟨.ofMilliseconds 10, 0.0, 256⟩
    blockInterval := .ofSeconds 5
    blockSizeBytes := 10000
    blocksToMint := 5
    duration := .ofSeconds 120
    session := .brisk }

instance : Inhabited SimulationConfig := ⟨usual⟩

/-- The nodes with a role of their own, as many as 32 bits can count. -/
def nonCommitters (c : SimulationConfig) : Nat :=
  min (c.orderers.toNat + c.endorsers.toNat + c.clients.toNat) (UInt32.size - 1)

def committers (c : SimulationConfig) : Nat := c.nodes.toNat - c.nonCommitters

/-- Why the configuration is invalid, if it is; the first reason counts. -/
def fault? (c : SimulationConfig) : Option ConfigError :=
  let most := c.nodes.toNat - 1
  if c.nodes < 2 then some (.tooFewNodes c.nodes.toNat)
  else if c.nodes.toNat ≤ c.nonCommitters then some (.noCommitters c.nodes.toNat)
  else if c.miners = 0 ∨ c.committers < c.miners.toNat then
    some (.tooManyMiners c.miners.toNat c.committers)
  else if c.connections = 0 ∨ most < c.connections.toNat then
    some (.connections c.connections.toNat most)
  else if !(c.speed.download > 0.0 && c.speed.upload > 0.0) then
    some (.bandwidth (Time.smaller c.speed.download c.speed.upload))
  else none

def validate (c : SimulationConfig) : Except ConfigError Unit :=
  match c.fault? with
  | some e => .error e
  | none => .ok ()

end SimulationConfig

end BlockGossip
