import BlockGossip.Ledger.Linkage

/-!
# Orphans

Blocks without a stored parent, in the order in which they came. No two share
an id.
-/

namespace BlockGossip

structure OrphanPool where
  blocks : List Block
deriving Repr

namespace OrphanPool

def empty : OrphanPool := ⟨[]⟩

def size (p : OrphanPool) : Nat := p.blocks.length

def isEmpty (p : OrphanPool) : Bool := p.blocks.isEmpty

def get? (p : OrphanPool) (id : BlockId) : Option Block := p.blocks.find? (·.id == id)

def contains (p : OrphanPool) (id : BlockId) : Bool := p.blocks.any (·.id == id)

/-- Adds a block, unless its id is present. The flag says whether it was added. -/
def add (p : OrphanPool) (b : Block) : Bool × OrphanPool :=
  if p.contains b.id then (false, p) else (true, ⟨p.blocks ++ [b]⟩)

def remove (p : OrphanPool) (id : BlockId) : Option Block × OrphanPool :=
  (p.get? id, ⟨p.blocks.eraseP (·.id == id)⟩)

def children (p : OrphanPool) (rule : Linkage) (parent : Block) : List Block :=
  p.blocks.filter (rule.isParent parent)

/-- Takes the children of a block out; both lists keep their order. -/
def takeChildren (p : OrphanPool) (rule : Linkage) (parent : Block) :
    List Block × OrphanPool :=
  (p.children rule parent, ⟨p.blocks.filter fun b => !rule.isParent parent b⟩)

end OrphanPool

end BlockGossip
