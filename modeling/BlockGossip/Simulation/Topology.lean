import BlockGossip.BlockId
import BlockGossip.Random.Source

/-!
# Random networks

Which node is linked to which. The nodes form a ring; then each node in turn
looks, in random order, for further peers among those it is not linked to, as
long as both have fewer than they look for. The random order is a parameter, so
laws about the result hold for every order.
-/

namespace BlockGossip

/-- The peers of each node, by node. Both lists ascend. -/
abbrev Links := List (NodeId × List NodeId)

abbrev Shuffler (σ : Type) := List NodeId → σ → List NodeId × σ

namespace Links

def peers (links : Links) (node : NodeId) : List NodeId :=
  ((links.find? (·.1 == node)).map (·.2)).getD []

def degree (links : Links) (node : NodeId) : Nat := (links.peers node).length

/-- Puts a node at its place in an ascending list, once. -/
def insertPeer (node : NodeId) : List NodeId → List NodeId
  | [] => [node]
  | x :: xs =>
    if node < x then node :: x :: xs
    else if node = x then x :: xs
    else x :: insertPeer node xs

def addPeer (links : Links) (node peer : NodeId) : Links :=
  links.map fun entry =>
    if entry.1 = node then (entry.1, insertPeer peer entry.2) else entry

/-- Links two nodes; a node is not linked to itself. -/
def connect (links : Links) (a b : NodeId) : Links :=
  if a = b then links else (links.addPeer a b).addPeer b a

def connectChain (links : Links) : List NodeId → Links
  | a :: b :: rest => connectChain (links.connect a b) (b :: rest)
  | _ => links

def ring (ids : List NodeId) : Links :=
  let links := connectChain (ids.map fun id => (id, [])) ids
  match ids with
  | first :: _ :: _ :: _ => links.connect (ids.getLastD first) first
  | _ => links

/-- Links a node to the candidates in turn, while both have fewer than `wanted` peers. -/
def seek (wanted : Nat) (node : NodeId) (links : Links) : List NodeId → Links
  | [] => links
  | other :: rest =>
    if wanted ≤ links.degree node then links
    else if links.degree other < wanted then seek wanted node (links.connect node other) rest
    else seek wanted node links rest

def seekAll (shuffle : Shuffler σ) (wanted : Nat) (ids : List NodeId) :
    List NodeId → Links → σ → Links × σ
  | [], links, s => (links, s)
  | node :: rest, links, s =>
    let candidates := ids.filter fun other => other != node && !(links.peers node).contains other
    let (order, s) := shuffle candidates s
    seekAll shuffle wanted ids rest (seek wanted node links order) s

def nodeIds (nodes : Nat) : List NodeId := (List.range nodes).map fun i => UInt32.ofNat (i + 1)

def build (shuffle : Shuffler σ) (nodes wanted : Nat) (s : σ) : Links × σ :=
  let ids := nodeIds nodes
  seekAll shuffle wanted ids ids (ring ids) s

end Links

end BlockGossip
