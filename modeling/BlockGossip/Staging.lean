import BlockGossip.Block
import BlockGossip.Table

/-!
# Staged blocks

Blocks between arrival and acceptance: those received in full wait for their
validation, and of others only the header is known. A block received in full
has no entry among the bare headers.
-/

namespace BlockGossip

structure Staging where
  received : Table BlockId Block
  headers : Table BlockId Block
deriving Repr

namespace Staging

def empty : Staging := ⟨.empty, .empty⟩

def isReceived (s : Staging) (id : BlockId) : Bool := s.received.contains id

def hasHeader (s : Staging) (id : BlockId) : Bool := s.headers.contains id

def receivedCount (s : Staging) : Nat := s.received.size

def headerCount (s : Staging) : Nat := s.headers.size

/-- Holds a full block; a later copy replaces nothing. The flag says whether it
is held now and was not before. -/
def stage (s : Staging) (b : Block) : Bool × Staging :=
  if s.isReceived b.id then (false, s)
  else (true, ⟨s.received.insert b.id b, s.headers.erase b.id⟩)

def take (s : Staging) (id : BlockId) : Option Block × Staging :=
  (s.received.get? id, { s with received := s.received.erase id })

/-- Drops every full block and counts them; the bare headers stay. -/
def clearReceived (s : Staging) : Nat × Staging :=
  (s.received.size, { s with received := .empty })

/-- Remembers a header whose block has not arrived. -/
def recordHeader (s : Staging) (b : Block) : Bool × Staging :=
  if s.hasHeader b.id || s.isReceived b.id then (false, s)
  else (true, { s with headers := s.headers.insert b.id b })

end Staging

end BlockGossip
