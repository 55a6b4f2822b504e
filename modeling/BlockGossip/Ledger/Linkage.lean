import BlockGossip.Block

/-!
# Linkage

Which block is the parent of which. A parent stands one height below its
child; the rule says what the child's parent field must name.
-/

namespace BlockGossip

inductive Linkage where
  /-- The child names the miner of its parent. -/
  | minerIdentity
  /-- The child names the same parent miner as its parent does. -/
  | sharedParent
deriving DecidableEq, Repr, Inhabited

namespace Linkage

/-- What a child of the block has in its parent field. -/
def parentField : Linkage → Block → NodeId
  | minerIdentity, parent => parent.minerId
  | sharedParent, parent => parent.parentMinerId

def isParent (rule : Linkage) (parent child : Block) : Bool :=
  parent.height.toNat + 1 == child.height.toNat && child.parentMinerId == rule.parentField parent

def isChild (rule : Linkage) (child parent : Block) : Bool := rule.isParent parent child

theorem isParent_iff {rule : Linkage} {parent child : Block} :
    rule.isParent parent child = true ↔
      parent.height.toNat + 1 = child.height.toNat ∧
        child.parentMinerId = rule.parentField parent := by
  simp [isParent]

def variant : Linkage → String
  | minerIdentity => "MinerIdentity"
  | sharedParent => "SharedParent"

def toJson (rule : Linkage) : Json.Node := Json.ofText rule.variant

def ofJson? (n : Json.Node) : Option Linkage :=
  n.variant?.bind fun v => [minerIdentity, sharedParent].find? (·.variant == v)

end Linkage

structure LedgerConfig where
  linkage : Linkage
deriving DecidableEq, Repr, Inhabited

namespace LedgerConfig

def toJson (c : LedgerConfig) : Json.Node := Json.record [("linkage", c.linkage.toJson)]

def ofJson? (n : Json.Node) : Option LedgerConfig := do
  match ← n.fields? ["linkage"] with
  | [linkage] => pure ⟨← Json.required Linkage.ofJson? linkage⟩
  | _ => none

end LedgerConfig

end BlockGossip
