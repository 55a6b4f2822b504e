import BlockGossip.Session.Event
import BlockGossip.Table
import Std.Data.TreeMap

/-!
# The event queue

What is to happen, in order of time, then node, then order of scheduling. The
clock is the time of the last event taken; nothing is scheduled before it. A
node's timers are events that can be found again: setting one that is set
replaces it, and a cancelled one never comes.
-/

namespace BlockGossip

/-- The place of an event. The sequence numbers count the events that were
scheduled, without a bound. A counter of 64 bits shows the same numbers until it
goes round, after 2 ^ 64 events. -/
structure EventKey where
  time : Time
  node : NodeId
  sequence : Nat
deriving DecidableEq, Repr, Inhabited

instance : Ord EventKey where
  compare := compareLex (compareOn fun key => Time.rank key.time)
    (compareLex (compareOn EventKey.node) (compareOn EventKey.sequence))

inductive ScheduledEvent where
  | node (event : Event)
  | mine
deriving Repr, Inhabited

structure EventQueue where
  events : Std.TreeMap EventKey ScheduledEvent
  timers : Table (NodeId × TimerId) EventKey
  /-- How many events were scheduled: the last sequence number used. -/
  sequence : Nat
  now : Time
  timersSet : UInt64
  timersCancelled : UInt64

namespace EventQueue

def empty : EventQueue := ⟨∅, .empty, 0, 0.0, 0, 0⟩

instance : Inhabited EventQueue := ⟨empty⟩

def size (q : EventQueue) : Nat := q.events.size

def isEmpty (q : EventQueue) : Bool := q.events.isEmpty

/-- Schedules an event at a time, or now if the time is past. -/
def schedule (q : EventQueue) (node : NodeId) (time : Time) (event : ScheduledEvent) :
    EventKey × EventQueue :=
  let key : EventKey := ⟨Time.later time q.now, node, q.sequence + 1⟩
  (key, { q with sequence := q.sequence + 1, events := q.events.insert key event })

def scheduleAfter (q : EventQueue) (node : NodeId) (delay : Duration) (event : ScheduledEvent) :
    EventKey × EventQueue :=
  q.schedule node (q.now + delay.toSeconds) event

/-- Forgets the timer that an event is, if it is the one that was set last. -/
def forgetTimer (q : EventQueue) (key : EventKey) : ScheduledEvent → EventQueue
  | .node (.timerFired timer) =>
    if q.timers.get? (key.node, timer) = some key then
      { q with timers := q.timers.erase (key.node, timer) }
    else q
  | _ => q

/-- Takes the first event, if it is not after the end. -/
def popUntil (q : EventQueue) (limit : Time) : Option ((EventKey × ScheduledEvent) × EventQueue) :=
  match q.events.minEntry? with
  | none => none
  | some (key, event) =>
    if key.time > limit then none
    else
      some ((key, event),
        ({ q with events := q.events.erase key, now := key.time }).forgetTimer key event)

/-- Takes an event out; the flag says whether it was there. -/
def cancel (q : EventQueue) (key : EventKey) : Bool × EventQueue :=
  (q.events.contains key, { q with events := q.events.erase key })

/-- Moves the clock forward, never back. -/
def advanceTo (q : EventQueue) (time : Time) : EventQueue :=
  if time > q.now then { q with now := time } else q

def isArmed (q : EventQueue) (node : NodeId) (timer : TimerId) : Bool :=
  q.timers.contains (node, timer)

def removeNode (q : EventQueue) (node : NodeId) : EventQueue :=
  { q with
    events := q.events.filter fun key _ => key.node != node
    timers := q.timers.retain fun owner => owner.1 != node }

/-- Sets a timer; one that is set already is replaced. -/
def setTimer (q : EventQueue) (node : NodeId) (timer : TimerId) (after : Duration) : EventQueue :=
  let q := match q.timers.get? (node, timer) with
    | some previous => { q with events := q.events.erase previous }
    | none => q
  let (key, q) := q.scheduleAfter node after (.node (.timerFired timer))
  { q with timers := q.timers.insert (node, timer) key, timersSet := q.timersSet + 1 }

def cancelTimer (q : EventQueue) (node : NodeId) (timer : TimerId) : EventQueue :=
  match q.timers.get? (node, timer) with
  | some key =>
    { q with
      events := q.events.erase key
      timers := q.timers.erase (node, timer)
      timersCancelled := q.timersCancelled + 1 }
  | none => q

end EventQueue

end BlockGossip
