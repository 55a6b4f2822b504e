import BlockGossip.CommandLine

/-!
# Entry point

Reads the environment, runs the command, and writes what it leaves behind. All
variables are read before anything is decided.
-/

namespace BlockGossip.CommandLine

def variableNames : List String :=
  ["GL_NODES", "GL_CONNECTIONS", "GL_ORDERERS", "GL_ENDORSERS", "GL_CLIENTS", "GL_MINERS",
   "GL_PROTOCOL", "GL_LINKAGE", "GL_BANDWIDTH_MBPS", "GL_LATENCY_MS", "GL_CHUNK_SIZE",
   "GL_BLOCK_INTERVAL_SECS", "GL_BLOCK_SIZE", "GL_BLOCKS", "GL_DURATION_SECS",
   "GL_INV_TIMEOUT_SECS", "GL_SEED"]

end BlockGossip.CommandLine

open BlockGossip.CommandLine

def main : IO UInt32 := do
  let values ← variableNames.mapM fun name => do
    pure (name, ← IO.getEnv name)
  let outcome := command fun key => ((values.find? (·.1 == key)).map (·.2)).join
  IO.print outcome.output
  IO.eprint outcome.errors
  pure outcome.status.toUInt32
