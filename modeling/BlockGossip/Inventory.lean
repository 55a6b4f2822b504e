import BlockGossip.BlockId
import BlockGossip.Table

/-!
# Announced items

What is known of each item that peers have announced and this node does not
have: who announced it, in order, whom it was last asked of, how often, and
whether that request still runs. Only the first announcement asks for a
request; later announcers are kept for retries, which go through them in order.
-/

namespace BlockGossip

structure InventoryEntry where
  /-- The peers that announced the item, in the order in which they first did. -/
  announcers : List NodeId
  requestedFrom : Option NodeId
  attempts : UInt32
  timerArmed : Bool
deriving DecidableEq, Repr, Inhabited

inductive AnnounceOutcome where
  | request
  | alreadyTracked
deriving DecidableEq, Repr

inductive ExpiryOutcome where
  | stale
  | retry (peer : NodeId)
  | abandoned
deriving DecidableEq, Repr

structure Inventory (κ : Type) where
  entries : Table κ InventoryEntry
deriving Repr

namespace Inventory

variable {κ : Type} [DecidableEq κ]

def empty : Inventory κ := ⟨.empty⟩

def get? (inv : Inventory κ) (k : κ) : Option InventoryEntry := inv.entries.get? k

def isTracked (inv : Inventory κ) (k : κ) : Bool := inv.entries.contains k

def size (inv : Inventory κ) : Nat := inv.entries.size

def outstanding (inv : Inventory κ) : Nat := inv.entries.values.countP (·.timerArmed)

def announce (inv : Inventory κ) (k : κ) (peer : NodeId) : AnnounceOutcome × Inventory κ :=
  match inv.get? k with
  | none => (.request, ⟨inv.entries.insert k ⟨[peer], none, 0, false⟩⟩)
  | some entry =>
    if entry.announcers.contains peer then (.alreadyTracked, inv)
    else
      (.alreadyTracked,
        ⟨inv.entries.insert k { entry with announcers := entry.announcers ++ [peer] }⟩)

def markRequested (inv : Inventory κ) (k : κ) (peer : NodeId) : Inventory κ :=
  match inv.get? k with
  | none => inv
  | some entry =>
    ⟨inv.entries.insert k
      { entry with requestedFrom := some peer, attempts := entry.attempts + 1, timerArmed := true }⟩

/-- The item is here: it is forgotten. -/
def resolve (inv : Inventory κ) (k : κ) : Option InventoryEntry × Inventory κ :=
  (inv.get? k, ⟨inv.entries.erase k⟩)

/-- The request's time ran out: the first announcer not yet asked is next, as
long as fewer than `limit` requests were made; otherwise the item is forgotten. -/
def expire (inv : Inventory κ) (k : κ) (limit : UInt32) : ExpiryOutcome × Inventory κ :=
  match inv.get? k with
  | none => (.stale, inv)
  | some entry =>
    match entry.announcers[entry.attempts.toNat]? with
    | some peer =>
      if entry.attempts < limit then
        (.retry peer, ⟨inv.entries.insert k { entry with timerArmed := false }⟩)
      else (.abandoned, ⟨inv.entries.erase k⟩)
    | none => (.abandoned, ⟨inv.entries.erase k⟩)

/-- Forgets everything, and lists the items that had a running request. -/
def clear (inv : Inventory κ) : List κ × Inventory κ :=
  ((inv.entries.entries.filter (·.2.timerArmed)).map (·.1), empty)

end Inventory

end BlockGossip
