import BlockGossip.Ledger.Linkage

/-!
# The ledger

Blocks in the order in which they were stored, and beside them the levels: for
each height the places of its blocks, in the same order. A block is looked up
through its level. Storing a block above the top opens the levels in between,
which may stay empty.

The ledger itself does not ask for a parent; whoever stores a block does.
-/

namespace BlockGossip

structure Ledger where
  linkage : Linkage
  /-- All blocks, in the order in which they were stored. -/
  blocks : Array Block
  /-- For each height the places of its blocks. -/
  levels : List (List Nat)
deriving Repr

namespace Ledger

def genesis (linkage : Linkage) : Ledger := ⟨linkage, #[Block.genesis], [[0]]⟩

def size (l : Ledger) : Nat := l.blocks.size

def height (l : Ledger) : Nat := l.levels.length - 1

/-- The blocks at a height, in the order in which they were stored. -/
def level (l : Ledger) (height : Nat) : List Block :=
  (l.levels.getD height []).filterMap (l.blocks[·]?)

def get? (l : Ledger) (id : BlockId) : Option Block :=
  (l.level id.height.toNat).find? (·.minerId == id.miner)

def contains (l : Ledger) (id : BlockId) : Bool := (l.get? id).isSome

def getOrGenesis (l : Ledger) (id : BlockId) : Block := (l.get? id).getD .genesis

/-- The first stored parent of a block; a block at height zero has none. -/
def parent? (l : Ledger) (b : Block) : Option Block :=
  match b.height.toNat with
  | 0 => none
  | below + 1 => (l.level below).find? (l.linkage.isChild b ·)

def hasParent (l : Ledger) (b : Block) : Bool := (l.parent? b).isSome

def children (l : Ledger) (b : Block) : List Block :=
  (l.level (b.height.toNat + 1)).filter (l.linkage.isParent b)

/-- The first block of the top level. -/
def top (l : Ledger) : Block := ((l.level l.height).head?).getD .genesis

/-- Stores a block, unless its id is present. The flag says whether it was stored. -/
def add (l : Ledger) (b : Block) : Bool × Ledger :=
  if l.contains b.id then (false, l)
  else
    let height := b.height.toNat
    let levels := l.levels ++ List.replicate (height + 1 - l.levels.length) []
    (true, { l with
      blocks := l.blocks.push b
      levels := levels.modify height (· ++ [l.blocks.size]) })

/-- The blocks that share their height with an earlier one. -/
def blocksInForks (l : Ledger) : Nat :=
  l.levels.foldl (fun total slots => total + (slots.length - 1)) 0

/-- The longest run of consecutive levels with at least two blocks, among the
levels given, a run of `current` levels right before them, and a run of
`longest` levels anywhere before. -/
def longestRun (longest current : Nat) : List (List Nat) → Nat
  | [] => longest
  | slots :: rest =>
    if 1 < slots.length then longestRun (max longest (current + 1)) (current + 1) rest
    else longestRun longest 0 rest

/-- The longest run of consecutive heights with at least two blocks each. -/
def longestFork (l : Ledger) : Nat := longestRun 0 0 l.levels

end Ledger

end BlockGossip
