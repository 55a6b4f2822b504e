import BlockGossip.Simulation.Config

/-!
# Configurations from variables

Each setting is read from a variable of its own; a variable that is missing or
blank leaves the usual value. The first variable, in reading order, with a
value outside its range is blamed; only then is the configuration as a whole
looked at. One value passes its own check and still has no duration to stand
for: an interval of 2^64 seconds or more.
-/

namespace BlockGossip

inductive LoadError where
  | refused (error : ConfigError)
  /-- The block interval, in seconds, is too long to be a duration. -/
  | intervalOverflow (seconds : Float)
deriving DecidableEq, Repr

abbrev Variables := String → Option String

namespace SimulationConfig

/-- The trimmed value of a variable, unless it is missing or blank. -/
def setting (vars : Variables) (key : String) : Option String :=
  ((vars key).map Text.trim).filter fun value => !value.isEmpty

/-- Reads one variable into the configuration, if it is set. -/
def load (vars : Variables) (key : String) (read : String → Option α)
    (put : SimulationConfig → α → SimulationConfig) (c : SimulationConfig) :
    Except LoadError SimulationConfig :=
  match setting vars key with
  | none => .ok c
  | some value =>
    match read value with
    | some a => .ok (put c a)
    | none => .error (.refused (.invalidValue key value))

/-- Reads a linkage rule's name; the case of ASCII letters, hyphens and
underscores do not count. -/
def linkage? (value : String) : Option Linkage :=
  match Text.joined (Text.lower value) with
  | "mineridentity" => some .minerIdentity
  | "miner" => some .minerIdentity
  | "sharedparent" => some .sharedParent
  | "parent" => some .sharedParent
  | _ => none

def protocol? (value : String) : Option Protocol := (Protocol.parse value).toOption

/-- Reads the block interval: a finite positive number of seconds. -/
def loadInterval (vars : Variables) (c : SimulationConfig) : Except LoadError SimulationConfig :=
  let key := "GL_BLOCK_INTERVAL_SECS"
  match setting vars key with
  | none => .ok c
  | some value =>
    match (Decimal.read? value).filter fun x => x.isFinite && x > 0.0 with
    | none => .error (.refused (.invalidValue key value))
    | some seconds =>
      match Duration.ofPositiveSeconds? seconds with
      | some interval => .ok { c with blockInterval := interval }
      | none => .error (.intervalOverflow seconds)

def seconds? (value : String) : Option Duration :=
  (Numeral.word64? value).map fun n => .ofSeconds n.toNat

def milliseconds? (value : String) : Option Duration :=
  (Numeral.word64? value).map fun n => .ofMilliseconds n.toNat

/-- The settings as the variables give them, not yet looked at as a whole. -/
def loadAll (vars : Variables) : Except LoadError SimulationConfig := do
  let c := usual
  let c ← load vars "GL_NODES" Numeral.word32? (fun c nodes => { c with nodes }) c
  let c ← load vars "GL_CONNECTIONS" Numeral.word64?
    (fun c connections => { c with connections }) c
  let c ← load vars "GL_ORDERERS" Numeral.word32? (fun c orderers => { c with orderers }) c
  let c ← load vars "GL_ENDORSERS" Numeral.word32? (fun c endorsers => { c with endorsers }) c
  let c ← load vars "GL_CLIENTS" Numeral.word32? (fun c clients => { c with clients }) c
  let c ← load vars "GL_MINERS" Numeral.word32? (fun c miners => { c with miners }) c
  let c ← load vars "GL_PROTOCOL" protocol? (fun c protocol => { c with protocol }) c
  let c ← load vars "GL_LINKAGE" linkage? (fun c linkage => { c with linkage }) c
  let c ← load vars "GL_BANDWIDTH_MBPS" Decimal.read?
    (fun c megabits => { c with speed := .symmetric megabits }) c
  let c ← load vars "GL_LATENCY_MS" milliseconds?
    (fun c latency => { c with network := { c.network with latency } }) c
  let c ← load vars "GL_CHUNK_SIZE" Numeral.word64?
    (fun c chunkSize => { c with network := { c.network with chunkSize } }) c
  let c ← loadInterval vars c
  let c ← load vars "GL_BLOCK_SIZE" Numeral.word64?
    (fun c blockSizeBytes => { c with blockSizeBytes }) c
  let c ← load vars "GL_BLOCKS" Numeral.word64? (fun c blocksToMint => { c with blocksToMint }) c
  let c ← load vars "GL_DURATION_SECS" seconds? (fun c duration => { c with duration }) c
  let c ← load vars "GL_INV_TIMEOUT_SECS" seconds?
    (fun c invTimeout => { c with session := { c.session with invTimeout } }) c
  let c ← load vars "GL_SEED" Numeral.word64? (fun c seed => { c with seed }) c
  pure { c with session := { c.session with ledger := ⟨c.linkage⟩ } }

def ofVariables (vars : Variables) : Except LoadError SimulationConfig := do
  let c ← loadAll vars
  match c.fault? with
  | some e => throw (.refused e)
  | none => pure c

end SimulationConfig

end BlockGossip
