import BlockGossip.Main
import BlockGossip.Proofs.Ledger.Levels
import BlockGossip.Proofs.Ledger.Promotion
import BlockGossip.Proofs.Ledger.Anchored
import BlockGossip.Proofs.Ledger.Acceptance
import BlockGossip.Proofs.Session.Core
import BlockGossip.Proofs.Session.Effects
import BlockGossip.Proofs.Session.Reachable
import BlockGossip.Proofs.Session.Pending
import BlockGossip.Proofs.Session.Holdings
import BlockGossip.Proofs.Session.Heard
import BlockGossip.Proofs.Session.Arrival
import BlockGossip.Proofs.Json.Strings
import BlockGossip.Proofs.Json.Numbers
import BlockGossip.Proofs.Json.RoundTrip
import BlockGossip.Proofs.Json.Fields
import BlockGossip.Proofs.Json.Words
import BlockGossip.Proofs.Json.Hashless
import BlockGossip.Proofs.Text.Keys
import BlockGossip.Proofs.Wire.Reread
import BlockGossip.Proofs.Wire.Frames
import BlockGossip.Proofs.Session.Sends
import BlockGossip.Proofs.Mesh.Basic
import BlockGossip.Proofs.Mesh.Agreement
import BlockGossip.Proofs.Mesh.Convergence
import BlockGossip.Proofs.Mesh.Mining
import BlockGossip.Proofs.Wire.Crossing
import BlockGossip.Proofs.Wire.Streams
import BlockGossip.Proofs.Session.Requesting
import BlockGossip.Proofs.Session.Requests
import BlockGossip.Proofs.Session.Kinds
import BlockGossip.Proofs.Session.Advertising
import BlockGossip.Proofs.Session.Apart
import BlockGossip.Proofs.Session.Custody
import BlockGossip.Proofs.Pool.Held
import BlockGossip.Proofs.Session.Validated
import BlockGossip.Proofs.Session.Budget
import BlockGossip.Proofs.Session.Spending
import BlockGossip.Proofs.Mesh.Extinction
import BlockGossip.Proofs.Time.Order
import BlockGossip.Proofs.Time.Sums
import BlockGossip.Proofs.Simulation.Queue
import BlockGossip.Proofs.Simulation.Timers
import BlockGossip.Proofs.Simulation.Conservation
import BlockGossip.Proofs.Session.Cutting
import BlockGossip.Proofs.Simulation.Reception
import BlockGossip.Proofs.Simulation.Traffic
import BlockGossip.Proofs.Ledger.Descent
import BlockGossip.Proofs.Session.Retrying
import BlockGossip.Proofs.Session.Flooding
import BlockGossip.Proofs.Pool.Tally
import BlockGossip.Proofs.Simulation.Assignment
import BlockGossip.Proofs.Text.KeyGrammar
import BlockGossip.Proofs.Ledger.Forks
import BlockGossip.Proofs.Ledger.Navigation
import BlockGossip.Proofs.Simulation.Loading
import BlockGossip.Proofs.Simulation.Minings
import BlockGossip.Proofs.Simulation.Schedule
import BlockGossip.Proofs.Ledger.Bottom
