import BlockGossip.Ledger.Basic
import BlockGossip.Ledger.Orphans

/-!
# Promotion of orphans

When a block is stored, the orphans that descend from it can be stored too. They
are taken breadth first: the children of the block in the order of the pool,
then the children of the first of those, and so on. Every orphan enters the
frontier at most once, which bounds the walk.
-/

namespace BlockGossip

/-- A ledger, its orphans and the blocks promoted so far. -/
structure Promotion where
  ledger : Ledger
  orphans : OrphanPool
  promoted : List Block
deriving Repr

namespace Promotion

/-- Stores one taken orphan; one whose id is already stored is dropped. -/
def store (p : Promotion) (child : Block) : Promotion :=
  match p.ledger.add child with
  | (true, ledger) => { p with ledger, promoted := p.promoted ++ [child] }
  | (false, _) => p

/-- Stores the children of one block; the blocks newly promoted come last. -/
def adopt (p : Promotion) (parent : Block) : Promotion :=
  let (children, orphans) := p.orphans.takeChildren p.ledger.linkage parent
  children.foldl store { p with orphans }

/-- Walks the frontier: its first block adopts its children, which join the
frontier's end. The fuel is at least the length of the frontier and the number
of orphans together. -/
def walk : Nat → Promotion → List Block → Promotion
  | 0, p, _ => p
  | _ + 1, p, [] => p
  | fuel + 1, p, parent :: frontier =>
    let next := p.adopt parent
    walk fuel next (frontier ++ next.promoted.drop p.promoted.length)

end Promotion

/-- Stores every orphan that descends from the root through orphans, and lists
them in the order in which they were stored. -/
def promoteOrphans (ledger : Ledger) (orphans : OrphanPool) (root : Block) : Promotion :=
  Promotion.walk (orphans.size + 1) ⟨ledger, orphans, []⟩ [root]

end BlockGossip
