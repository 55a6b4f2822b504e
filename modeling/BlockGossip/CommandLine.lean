import BlockGossip.Json.Pretty
import BlockGossip.Simulation.Build
import BlockGossip.Simulation.Environment
import BlockGossip.Simulation.Report

/-!
# The command

A simulation is configured by variables, run, and reported as an indented
document. A refused configuration is explained; a block interval that no
duration can hold ends the command without a word of its own.
-/

namespace BlockGossip.CommandLine

/-- What the command leaves behind: its exit status and what it wrote. -/
structure Outcome where
  status : UInt8
  output : String
  errors : String
deriving DecidableEq, Repr

/-- Puts every line after the first as far in as the first. -/
def indented (message : String) : String :=
  String.ofList (message.toList.flatMap fun c =>
    if c = '\n' then ['\n', ' ', ' ', ' ', ' '] else [c])

def explain (failure cause : String) : String :=
  "Error: " ++ failure ++ "\n\nCaused by:\n    " ++ indented cause ++ "\n"

def reportText (report : SimulationReport) : String :=
  ((Bytes.toText? (report.toJson.pretty 0)).getD "") ++ "\n"

def command (vars : Variables) : Outcome :=
  match SimulationConfig.ofVariables vars with
  | .error (.refused e) => ⟨1, "", explain "invalid simulation configuration" e.message⟩
  | .error (.intervalOverflow _) => ⟨101, "", ""⟩
  | .ok config =>
    match Simulation.ofConfig config with
    | .error e => ⟨1, "", explain "failed to build simulation" e.message⟩
    | .ok sim => ⟨0, reportText sim.run.report, ""⟩

end BlockGossip.CommandLine
