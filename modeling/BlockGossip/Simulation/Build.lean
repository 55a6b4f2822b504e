import BlockGossip.Random.ChaCha
import BlockGossip.Simulation.State
import BlockGossip.Simulation.Topology

/-!
# Building simulations

From a configuration to a network of fresh sessions: the links are drawn, the
roles are dealt out over a random order of the nodes, and the miners are the
committers with the smallest numbers. A network may also be given node by node.
-/

namespace BlockGossip

namespace Simulation

variable {σ : Type}

/-- Deals the special roles to the first nodes of the order; the others are
committers. -/
def dealRoles (config : SimulationConfig) (order : List NodeId) : List (NodeId × Role) :=
  order.zip
    (List.replicate config.orderers.toNat Role.order ++
      List.replicate config.endorsers.toNat Role.endorser ++
      List.replicate config.clients.toNat Role.client ++
      List.replicate order.length Role.committer)

def dealtRole (roles : List (NodeId × Role)) (node : NodeId) : Role :=
  ((roles.find? (·.1 == node)).map (·.2)).getD .committer

def drawnSetups (config : SimulationConfig) (links : Links) (roles : List (NodeId × Role)) :
    List Setup :=
  links.map fun (node, peers) =>
    { node, peers
      role := dealtRole roles node
      protocol := config.protocol
      speed := config.speed
      peerSpeeds := .empty }

/-- Puts a session at its place by ascending node; a later one replaces. -/
def insertSession (node : NodeId) (session : Session) :
    List (NodeId × Session) → List (NodeId × Session)
  | [] => [(node, session)]
  | (n, s) :: rest =>
    if node < n then (node, session) :: (n, s) :: rest
    else if node = n then (node, session) :: rest
    else (n, s) :: insertSession node session rest

/-- A simulation of the given nodes. Every session follows the linkage rule of
the simulation, and each node learns the speeds of its peers. -/
def ofSetups (config : SimulationConfig) (setups : List Setup) (random networkRandom : σ) :
    Except ConfigError (Simulation σ) :=
  if setups.length < 2 then .error (.tooFewNodes setups.length)
  else
    let sessionConfig := { config.session with ledger := ⟨config.linkage⟩ }
    let network := setups.foldl (fun network setup => network.setSpeed setup.node setup.speed)
      (Network.create config.network networkRandom)
    let sessions := setups.foldl
      (fun sessions setup =>
        let peerSpeeds := Table.ofList (setup.peers.map fun peer => (peer, network.speed peer))
        insertSession setup.node (.fresh { setup with peerSpeeds } sessionConfig) sessions) []
    let committers :=
      (sessions.filter fun entry => entry.2.setup.role = .committer).map (·.1)
    let miners := committers.take config.miners.toNat
    if miners.isEmpty then .error (.tooManyMiners config.miners.toNat committers.length)
    else
      .ok {
        config, network, random, miners
        sessions := ⟨sessions⟩
        queue := .empty
        nextMine := none
        eventsProcessed := 0
        actionsGenerated := 0
        blocksMinted := 0 }

def draw (shuffle : Shuffler σ) (config : SimulationConfig) (random networkRandom : σ) :
    Except ConfigError (Simulation σ) :=
  match config.fault? with
  | some e => .error e
  | none =>
    let (links, random) := Links.build shuffle config.nodes.toNat config.connections.toNat random
    let (order, random) := shuffle (links.map (·.1)) random
    ofSetups config (drawnSetups config links (dealRoles config order)) random networkRandom

def ofConfig (config : SimulationConfig) : Except ConfigError (Simulation Random.ChaCha) :=
  draw Random.shuffle config (.ofSeed config.seed) (.ofSeed config.seed)

def ofNodes (config : SimulationConfig) (setups : List Setup) :
    Except ConfigError (Simulation Random.ChaCha) :=
  ofSetups config setups (.ofSeed config.seed) (.ofSeed config.seed)

end Simulation

end BlockGossip
