import BlockGossip.Simulation.State

/-!
# Reports

What a simulation has to show: how long it ran, what it counted, and the
statistics of each node by ascending number.
-/

namespace BlockGossip

def SimulationStats.toJson (s : SimulationStats) : Json.Node :=
  Json.record
    [("eventsProcessed", Json.ofNat s.eventsProcessed.toNat),
     ("actionsGenerated", Json.ofNat s.actionsGenerated.toNat),
     ("blocksMinted", Json.ofNat s.blocksMinted.toNat),
     ("timersSet", Json.ofNat s.timersSet.toNat),
     ("timersCancelled", Json.ofNat s.timersCancelled.toNat)]

def TrafficStats.toJson (s : TrafficStats) : Json.Node :=
  Json.record
    [("messagesSent", Json.ofNat s.messagesSent.toNat),
     ("chunksSent", Json.ofNat s.chunksSent.toNat),
     ("wireBytes", Json.ofNat s.wireBytes.toNat),
     ("encodedBytes", Json.ofNat s.encodedBytes.toNat)]

structure SimulationReport where
  simulatedSeconds : Time
  stats : SimulationStats
  traffic : TrafficStats
  nodes : List NodeStatistics
deriving Repr

def Simulation.report {σ : Type} (sim : Simulation σ) : SimulationReport :=
  ⟨sim.now, sim.stats, sim.traffic, sim.sessions.values.map Session.statistics⟩

namespace SimulationReport

/-- The mean of the positive propagation means of the nodes; zero where none is. -/
def meanPropagation (r : SimulationReport) : Float :=
  let samples := (r.nodes.map (·.meanBlockPropagationTime)).filter (· > 0.0)
  if samples.isEmpty then 0.0 else samples.foldl (· + ·) 0.0 / Float.ofNat samples.length

def totalTimeouts (r : SimulationReport) : UInt64 :=
  r.nodes.foldl (fun total s => total + s.blockTimeouts) 0

def toJson (r : SimulationReport) : Json.Node :=
  Json.record
    [("simulatedSeconds", Json.ofFloat r.simulatedSeconds),
     ("stats", r.stats.toJson),
     ("traffic", r.traffic.toJson),
     ("nodes", Json.ofList NodeStatistics.toJson r.nodes)]

end SimulationReport

end BlockGossip
