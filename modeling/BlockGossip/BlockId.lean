import BlockGossip.Text.Blank
import BlockGossip.Text.Numeral

/-!
# Block identity

A block is known by its height and its miner, and nothing else: two blocks of
one miner at one height are the same block to every node. Peers write an id as
a key, height and miner with a slash between them.
-/

namespace BlockGossip

abbrev NodeId := UInt32

/-- A node as messages for people show it. -/
def peerName (node : NodeId) : String := "peer-" ++ Numeral.text node.toNat

structure BlockId where
  height : UInt64
  miner : NodeId
deriving DecidableEq, Repr, Inhabited

/-- Why a text is no key. The halves are kept as they stood, blanks included. -/
inductive KeyError where
  | missingSeparator (text : String)
  | invalidHeight (half : String)
  | invalidMiner (half : String)
deriving DecidableEq, Repr

def KeyError.message : KeyError → String
  | .missingSeparator text => "Missing '/' in inventory key: " ++ text
  | .invalidHeight half => "Invalid block height: " ++ half
  | .invalidMiner half => "Invalid miner id: " ++ half

namespace BlockId

def key (id : BlockId) : String :=
  Numeral.text id.height.toNat ++ "/" ++ Numeral.text id.miner.toNat

/-- Reads a key: the text is cut at its first slash and each half trimmed. -/
def parse (s : String) : Except KeyError BlockId :=
  let left := s.toList.takeWhile (· != '/')
  match s.toList.dropWhile (· != '/') with
  | [] => .error (.missingSeparator s)
  | _ :: right =>
    match Numeral.read? UInt64.size (Text.trimList left) with
    | none => .error (.invalidHeight (String.ofList left))
    | some height =>
      match Numeral.read? UInt32.size (Text.trimList right) with
      | none => .error (.invalidMiner (String.ofList right))
      | some miner => .ok ⟨UInt64.ofNat height, UInt32.ofNat miner⟩

/-- Ids in order: by height, then by miner. -/
def before (a b : BlockId) : Bool :=
  a.height < b.height || (a.height == b.height && a.miner ≤ b.miner)

end BlockId

end BlockGossip
