import BlockGossip.Proofs.Simulation.Queue
import Mathlib.Data.List.Iterate
import Mathlib.Data.List.Nodup

/-!
# Calls of a queue

The calls of a queue are recorded, each with the queue that it finds. What one
call does is said once: what it schedules, which timer it sets, and what it
takes out. Events may be scheduled that look like timers and are none, so the
table of timers cannot be read off the events alone; it holds, for each timer
of a node, the key of its last setting in the record as long as that is queued.
The events are numbered as they are scheduled, and a counter of 64 bits numbers
them alike until it goes round.
-/

namespace BlockGossip.EventQueue

-- ---------------------------------------------------------------------------
-- Calls
-- ---------------------------------------------------------------------------

inductive Call where
  | schedule (node : NodeId) (time : Time) (event : ScheduledEvent)
  | scheduleAfter (node : NodeId) (delay : Duration) (event : ScheduledEvent)
  | setTimer (node : NodeId) (timer : TimerId) (after : Duration)
  | cancelTimer (node : NodeId) (timer : TimerId)
  | cancel (key : EventKey)
  | popUntil (limit : Time)
  | advanceTo (time : Time)
  | removeNode (node : NodeId)

namespace Call

/-- The queue that the call leaves behind. -/
def next (q : EventQueue) : Call → EventQueue
  | schedule node time event => (q.schedule node time event).2
  | scheduleAfter node delay event => (q.scheduleAfter node delay event).2
  | setTimer node timer after => q.setTimer node timer after
  | cancelTimer node timer => q.cancelTimer node timer
  | cancel key => (q.cancel key).2
  | popUntil limit => ((q.popUntil limit).map (·.2)).getD q
  | advanceTo time => q.advanceTo time
  | removeNode node => q.removeNode node

/-- The event that the call schedules, under its key. -/
def scheduled? (q : EventQueue) : Call → Option (EventKey × ScheduledEvent)
  | schedule node time event => some ((q.schedule node time event).1, event)
  | scheduleAfter node delay event => some ((q.scheduleAfter node delay event).1, event)
  | setTimer node timer after =>
    some ((q.scheduleAfter node after (.node (.timerFired timer))).1, .node (.timerFired timer))
  | _ => none

/-- The key that the call returns; that of a timer is not returned. -/
def returned? (q : EventQueue) : Call → Option EventKey
  | schedule node time event => some (q.schedule node time event).1
  | scheduleAfter node delay event => some (q.scheduleAfter node delay event).1
  | _ => none

/-- The key of the event with which the call sets the timer of a node. -/
def sets? (node : NodeId) (timer : TimerId) (q : EventQueue) : Call → Option EventKey
  | setTimer n i after =>
    if n = node ∧ i = timer then some (q.scheduleAfter n after (.node (.timerFired i))).1 else none
  | _ => none

def popped? (q : EventQueue) : Call → Option (EventKey × ScheduledEvent)
  | popUntil limit => (q.popUntil limit).map (·.1)
  | _ => none

/-- The call takes the event out, if it is queued. -/
def Removes (q : EventQueue) (k : EventKey) : Call → Prop
  | setTimer node timer _ | cancelTimer node timer => q.timers.get? (node, timer) = some k
  | cancel key => key = k
  | popUntil limit => ∃ event rest, q.popUntil limit = some ((k, event), rest)
  | removeNode node => k.node = node
  | _ => False

end Call

/-- A call, and the queue that it finds. -/
structure Step where
  found : EventQueue
  call : Call

/-- The event is queued, and after the call it is not. -/
def Step.Takes (t : Step) (key : EventKey) : Prop :=
  (∃ event, t.found.events[key]? = some event) ∧ (t.call.next t.found).events[key]? = none

/-- The events that were scheduled, in order of their scheduling. -/
def scheduled (log : List Step) : List (EventKey × ScheduledEvent) :=
  log.filterMap fun t => t.call.scheduled? t.found

def returned (log : List Step) : List EventKey := log.filterMap fun t => t.call.returned? t.found

/-- The events that came out, in the order in which they came. -/
def popped (log : List Step) : List (EventKey × ScheduledEvent) :=
  log.filterMap fun t => t.call.popped? t.found

/-- The key of the event with which the timer of a node was set last. -/
def lastSet (log : List Step) (node : NodeId) (timer : TimerId) : Option EventKey :=
  log.foldl (fun last t => (t.call.sets? node timer t.found).or last) none

/-- What a new queue becomes under calls, and the record of them. Keys are
cancelled only where a caller was given them. -/
inductive Called : EventQueue → List Step → Prop
  | new : Called .empty []
  | step {q : EventQueue} {log : List Step} (h : Called q log) (call : Call)
    (hcancel : ∀ key, call = .cancel key → key ∈ returned log) :
    Called (call.next q) (log ++ [⟨q, call⟩])

variable {q q' rest : EventQueue} {log : List Step} {t : Step} {key k : EventKey}
  {event e : ScheduledEvent} {node : NodeId} {timer : TimerId}

theorem scheduled_snoc (log : List Step) (q : EventQueue) (call : Call) :
    scheduled (log ++ [⟨q, call⟩]) = scheduled log ++ (call.scheduled? q).toList := by
  rw [scheduled, List.filterMap_append]
  cases h : call.scheduled? q <;> simp [scheduled, h]

theorem returned_snoc (log : List Step) (q : EventQueue) (call : Call) :
    returned (log ++ [⟨q, call⟩]) = returned log ++ (call.returned? q).toList := by
  rw [returned, List.filterMap_append]
  cases h : call.returned? q <;> simp [returned, h]

theorem popped_snoc (log : List Step) (q : EventQueue) (call : Call) :
    popped (log ++ [⟨q, call⟩]) = popped log ++ (call.popped? q).toList := by
  rw [popped, List.filterMap_append]
  cases h : call.popped? q <;> simp [popped, h]

theorem lastSet_snoc (log : List Step) (q : EventQueue) (call : Call) (node : NodeId)
    (timer : TimerId) :
    lastSet (log ++ [⟨q, call⟩]) node timer =
      (call.sets? node timer q).or (lastSet log node timer) := by
  simp [lastSet]

-- ---------------------------------------------------------------------------
-- What one call does
-- ---------------------------------------------------------------------------

theorem unset_now (q : EventQueue) (node : NodeId) (timer : TimerId) :
    (q.unset node timer).now = q.now := by
  unfold unset
  split <;> rfl

theorem unset_sequence (q : EventQueue) (node : NodeId) (timer : TimerId) :
    (q.unset node timer).sequence = q.sequence := by
  unfold unset
  split <;> rfl

theorem unset_getElem? (q : EventQueue) (node : NodeId) (timer : TimerId) (k : EventKey) :
    (q.unset node timer).events[k]? =
      if q.timers.get? (node, timer) = some k then none else q.events[k]? := by
  unfold unset
  split
  · rename_i previous hset
    simp only [getElem?_erase, hset, Option.some_inj]
  · rename_i hset
    simp only [hset, reduceCtorEq, if_false]

/-- A timer gets the key that any event would get. -/
theorem unset_scheduleAfter (q : EventQueue) (node : NodeId) (timer : TimerId) (after : Duration)
    (event : ScheduledEvent) :
    ((q.unset node timer).scheduleAfter node after event).1 =
      (q.scheduleAfter node after event).1 := by
  simp only [scheduleAfter, schedule, unset_now, unset_sequence]

theorem removeNode_getElem? (q : EventQueue) (node : NodeId) (k : EventKey) :
    (q.removeNode node).events[k]? = if k.node = node then none else q.events[k]? := by
  rw [removeNode, Std.TreeMap.getElem?_filter']
  by_cases hk : k.node = node
  · rw [if_pos hk]
    cases q.events[k]? <;> simp [hk]
  · rw [if_neg hk]
    cases q.events[k]? <;> simp [hk]

namespace Call

variable {call : Call}

/-- What is scheduled gets the next number, and is queued. -/
theorem scheduled?_some (h : call.scheduled? q = some (key, event)) :
    key.sequence = q.sequence + 1 ∧ (call.next q).sequence = q.sequence + 1 ∧
      (call.next q).events[key]? = some event := by
  cases call with
  | schedule node time e =>
    obtain ⟨rfl, rfl⟩ := Prod.mk.inj (Option.some.inj h)
    exact ⟨rfl, rfl, getElem?_insert.trans (if_pos rfl)⟩
  | scheduleAfter node delay e =>
    obtain ⟨rfl, rfl⟩ := Prod.mk.inj (Option.some.inj h)
    exact ⟨rfl, rfl, getElem?_insert.trans (if_pos rfl)⟩
  | setTimer node timer after =>
    obtain ⟨rfl, rfl⟩ := Prod.mk.inj (Option.some.inj h)
    refine ⟨rfl, ?_, ?_⟩
    · rw [next, setTimer_eq]
      exact congrArg (· + 1) (unset_sequence q node timer)
    · rw [next, setTimer_eq, ← unset_scheduleAfter q node timer]
      exact getElem?_insert.trans (if_pos rfl)
  | _ => exact nomatch h

theorem scheduled?_none (h : call.scheduled? q = none) : (call.next q).sequence = q.sequence := by
  cases call with
  | schedule | scheduleAfter | setTimer => exact nomatch h
  | cancelTimer node timer =>
    rw [next, EventQueue.cancelTimer]
    split <;> rfl
  | cancel key => rfl
  | popUntil limit =>
    rw [next]
    cases hpop : q.popUntil limit with
    | none => rfl
    | some popped =>
      obtain ⟨⟨key, event⟩, rest⟩ := popped
      obtain ⟨-, -, rfl⟩ := popUntil_some hpop
      exact forgetTimer_sequence
  | advanceTo time => exact q.advanceTo_sequence time
  | removeNode node => rfl

theorem insert_other (hne : key ≠ k) (event : ScheduledEvent) :
    (q.events.insert key event)[k]? = q.events[k]? := getElem?_insert.trans (if_neg hne)

/-- What is in the queue stays there unless the call takes it out. -/
theorem next_getElem? (hnew : ∀ e, call.scheduled? q ≠ some (k, e)) :
    (call.Removes q k → (call.next q).events[k]? = none) ∧
      (¬call.Removes q k → (call.next q).events[k]? = q.events[k]?) := by
  have hother {key : EventKey} {e : ScheduledEvent} (h : call.scheduled? q = some (key, e)) :
      key ≠ k := by
    rintro rfl
    exact hnew e h
  cases call with
  | schedule node time e => exact ⟨False.elim, fun _ => insert_other (hother rfl) e⟩
  | scheduleAfter node delay e => exact ⟨False.elim, fun _ => insert_other (hother rfl) e⟩
  | setTimer node timer after =>
    have hget : (q.setTimer node timer after).events[k]? = (q.unset node timer).events[k]? := by
      have hne := hother rfl
      rw [← unset_scheduleAfter q node timer] at hne
      rw [setTimer_eq]
      exact insert_other hne _
    rw [next, hget, unset_getElem?]
    exact ⟨fun h => if_pos h, fun h => if_neg h⟩
  | cancelTimer node timer =>
    rw [next, EventQueue.cancelTimer, Removes]
    cases hset : q.timers.get? (node, timer) with
    | none => exact ⟨nofun, fun _ => rfl⟩
    | some key =>
      dsimp only
      rw [getElem?_erase, Option.some_inj]
      exact ⟨fun h => if_pos h, fun h => if_neg h⟩
  | cancel key =>
    rw [next, EventQueue.cancel, getElem?_erase]
    exact ⟨fun h => if_pos h, fun h => if_neg h⟩
  | popUntil limit =>
    rw [next, Removes]
    cases hpop : q.popUntil limit with
    | none => exact ⟨nofun, fun _ => rfl⟩
    | some popped =>
      obtain ⟨⟨key, event⟩, rest⟩ := popped
      show (_ → rest.events[k]? = none) ∧ (_ → rest.events[k]? = _)
      rw [popUntil_getElem? hpop]
      refine ⟨fun ⟨e, _, he⟩ => if_pos ?_, fun h => if_neg ?_⟩
      · exact (Prod.mk.inj (Prod.mk.inj (Option.some.inj he)).1).1
      · rintro rfl
        exact h ⟨event, rest, rfl⟩
  | advanceTo time =>
    refine ⟨False.elim, fun _ => ?_⟩
    rw [next, advanceTo_events]
  | removeNode node =>
    rw [next, removeNode_getElem?]
    exact ⟨fun h => if_pos h, fun h => if_neg h⟩

theorem sets?_some (h : call.sets? node timer q = some key) :
    (call.next q).timers.get? (node, timer) = some key ∧ key.node = node ∧
      call.scheduled? q = some (key, .node (.timerFired timer)) ∧ call.returned? q = none := by
  cases call with
  | setTimer n i after =>
    rw [sets?] at h
    split at h
    · rename_i hsame
      obtain ⟨rfl, rfl⟩ := hsame
      obtain rfl := Option.some.inj h
      refine ⟨?_, rfl, rfl, rfl⟩
      rw [next, setTimer_eq, ← unset_scheduleAfter q n i]
      exact (Table.get?_insert ..).trans (if_pos rfl)
    · exact nomatch h
  | _ => exact nomatch h

theorem scheduled?_of_returned? (h : call.returned? q = some key) :
    ∃ event, call.scheduled? q = some (key, event) := by
  cases call with
  | schedule node time e => exact ⟨e, congrArg (fun k => some (k, e)) (Option.some.inj h)⟩
  | scheduleAfter node delay e => exact ⟨e, congrArg (fun k => some (k, e)) (Option.some.inj h)⟩
  | _ => exact nomatch h

section
variable (hown : ∀ n i k, q.timers.get? (n, i) = some k →
  k.node = n ∧ q.events[k]? = some (.node (.timerFired i)))
include hown

/-- The event of a timer is that of no other one. -/
theorem timer_unique {n n' : NodeId} {i i' : TimerId} (h : q.timers.get? (n, i) = some k)
    (h' : q.timers.get? (n', i') = some k) : (n, i) = (n', i') := by
  obtain ⟨rfl, he⟩ := hown n i k h
  obtain ⟨rfl, he'⟩ := hown n' i' k h'
  rw [Event.timerFired.inj (ScheduledEvent.node.inj (Option.some.inj (he.symm.trans he')))]

theorem popUntil_timers {limit : Time} (h : q.popUntil limit = some ((key, event), rest)) :
    rest.timers.get? (node, timer) = some k ↔ q.timers.get? (node, timer) = some k ∧ key ≠ k := by
  have hkey := popUntil_mem h
  obtain ⟨-, -, rfl⟩ := popUntil_some h
  have hkept (hnot : q.timers.get? (node, timer) ≠ some key) :
      q.timers.get? (node, timer) = some k ↔
        q.timers.get? (node, timer) = some k ∧ key ≠ k :=
    ⟨fun hk => ⟨hk, fun he => hnot (he ▸ hk)⟩, And.left⟩
  have hfires (hset : q.timers.get? (node, timer) = some key) :
      key.node = node ∧ event = .node (.timerFired timer) :=
    (hown node timer key hset).imp_right fun he => Option.some.inj (hkey.symm.trans he)
  unfold forgetTimer
  split
  · rename_i i
    dsimp only
    split
    · rename_i hset
      rw [Table.get?_erase]
      by_cases hsame : (key.node, i) = (node, timer)
      · rw [if_pos hsame, ← hsame, hset, Option.some_inj]
        simp
      · rw [if_neg hsame]
        exact hkept fun hk => hsame (timer_unique hown hset hk)
    · rename_i hset
      refine hkept fun hk => hset ?_
      obtain ⟨rfl, he⟩ := hfires hk
      rw [Event.timerFired.inj (ScheduledEvent.node.inj he)]
      exact hk
  · rename_i hother
    exact hkept fun hk => hother timer (hfires hk).2

/-- A timer that is not set stays set unless its event is taken out. -/
theorem sets?_none (hcancel : ∀ key, call = .cancel key → ∀ n i, q.timers.get? (n, i) ≠ some key)
    (h : call.sets? node timer q = none) :
    (call.next q).timers.get? (node, timer) = some k ↔
      q.timers.get? (node, timer) = some k ∧ ¬call.Removes q k := by
  cases call with
  | schedule | scheduleAfter => exact (and_iff_left id).symm
  | setTimer n i after =>
    have hne : (n, i) ≠ (node, timer) := by
      intro he
      obtain ⟨rfl, rfl⟩ := Prod.mk.inj he
      rw [sets?, if_pos ⟨rfl, rfl⟩] at h
      exact nomatch h
    have hget : (q.setTimer n i after).timers.get? (node, timer) =
        q.timers.get? (node, timer) := by
      rw [setTimer_eq]
      exact ((Table.get?_insert ..).trans (if_neg hne)).trans
        (congrArg (Table.get? · (node, timer)) (unset_timers q n i))
    rw [next, hget]
    exact (and_iff_left_of_imp fun hk hi => hne (timer_unique hown hi hk)).symm
  | cancelTimer n i =>
    rw [next, EventQueue.cancelTimer, Removes]
    cases hset : q.timers.get? (n, i) with
    | none => exact (and_iff_left nofun).symm
    | some key =>
      dsimp only
      rw [Table.get?_erase, Option.some_inj]
      by_cases hsame : (n, i) = (node, timer)
      · rw [if_pos hsame, ← hsame, hset, Option.some_inj]
        simp
      · rw [if_neg hsame]
        refine (and_iff_left_of_imp fun hk he => hsame ?_).symm
        exact timer_unique hown (he ▸ hset) hk
  | cancel key =>
    refine (and_iff_left_of_imp fun hk (he : key = k) => hcancel key rfl node timer ?_).symm
    exact he ▸ hk
  | popUntil limit =>
    rw [next, Removes]
    cases hpop : q.popUntil limit with
    | none => exact (and_iff_left nofun).symm
    | some popped =>
      obtain ⟨⟨key, event⟩, rest⟩ := popped
      refine (popUntil_timers hown hpop).trans (and_congr_right fun _ => not_congr ?_)
      constructor
      · rintro rfl
        exact ⟨event, rest, rfl⟩
      · rintro ⟨e, r, he⟩
        exact (Prod.mk.inj (Prod.mk.inj (Option.some.inj he)).1).1
  | advanceTo time =>
    rw [next, advanceTo_timers]
    exact (and_iff_left id).symm
  | removeNode n =>
    rw [next, EventQueue.removeNode, Table.get?_retain, Removes]
    by_cases hn : node = n
    · subst hn
      rw [if_neg (by simp)]
      exact ⟨nofun, fun ⟨hk, hnot⟩ => absurd (hown _ _ _ hk).1 hnot⟩
    · rw [if_pos (by simpa using hn)]
      refine (and_iff_left_of_imp fun hk he => hn ?_).symm
      exact (hown _ _ _ hk).1.symm.trans he

end

end Call

-- ---------------------------------------------------------------------------
-- What the record says of the queue
-- ---------------------------------------------------------------------------

/-- The invariant of a queue and its record. -/
structure Recorded (q : EventQueue) (log : List Step) : Prop where
  rising : (scheduled log).Pairwise fun a b => a.1.sequence < b.1.sequence
  bound : ∀ x ∈ scheduled log, x.1.sequence ≤ q.sequence
  held : ∀ (k : EventKey) e, q.events[k]? = some e → (k, e) ∈ scheduled log
  past : ∀ t ∈ log, ∀ (k : EventKey) e, t.found.events[k]? = some e → (k, e) ∈ scheduled log
  /-- A timer is set for its node, and its key is given to no caller. -/
  set : ∀ node timer k, lastSet log node timer = some k →
    k.node = node ∧ (k, .node (.timerFired timer)) ∈ scheduled log ∧ k ∉ returned log
  given : ∀ k ∈ returned log, ∃ e, (k, e) ∈ scheduled log
  table : ∀ node timer k, q.timers.get? (node, timer) = some k ↔
    lastSet log node timer = some k ∧ q.events[k]? = some (.node (.timerFired timer))

theorem empty_recorded : Recorded .empty [] where
  rising := .nil
  bound := nofun
  held k e h := absurd h (by simp [empty])
  past := nofun
  set := nofun
  given := nofun
  table node timer k := ⟨nofun, fun h => nomatch h.1⟩

namespace Recorded

variable {call : Call}

theorem own (h : Recorded q log) (node : NodeId) (timer : TimerId) (k : EventKey)
    (hk : q.timers.get? (node, timer) = some k) :
    k.node = node ∧ q.events[k]? = some (.node (.timerFired timer)) :=
  let ⟨hset, hheld⟩ := (h.table node timer k).mp hk
  ⟨(h.set node timer k hset).1, hheld⟩

/-- A new key is later than all that were issued. -/
theorem fresh (h : Recorded q log) (hnew : call.scheduled? q = some (key, event))
    {x : EventKey × ScheduledEvent} (hx : x ∈ scheduled log) : x.1.sequence < key.sequence := by
  have hle := h.bound x hx
  have := (Call.scheduled?_some hnew).1
  omega

theorem distinct (h : Recorded q log) : ((scheduled log).map (·.1)).Nodup :=
  List.pairwise_map.mpr (h.rising.imp fun hlt heq =>
    Nat.ne_of_lt hlt (congrArg EventKey.sequence heq))

/-- One event was scheduled under a key. -/
theorem unique (h : Recorded q log) (hk : (k, e) ∈ scheduled log)
    (hk' : (k, event) ∈ scheduled log) : e = event :=
  congrArg Prod.snd (List.inj_on_of_nodup_map h.distinct hk hk' rfl)

theorem not_new (h : Recorded q log) (call : Call) (hk : (k, e) ∈ scheduled log)
    (e' : ScheduledEvent) : call.scheduled? q ≠ some (k, e') :=
  fun hnew => Nat.lt_irrefl _ (h.fresh hnew hk)

/-- Where nothing new stands under a key, what stands there was there before. -/
theorem held_before (hnew : ∀ e, call.scheduled? q ≠ some (k, e))
    (hk : (call.next q).events[k]? = some e) :
    q.events[k]? = some e ∧ ¬call.Removes q k := by
  obtain ⟨hgone, hkept⟩ := Call.next_getElem? hnew
  have hnot : ¬call.Removes q k := fun hr => nomatch (hgone hr).symm.trans hk
  exact ⟨(hkept hnot).symm.trans hk, hnot⟩

/-- What was scheduled and is gone does not come back. -/
theorem gone (h : Recorded q log) (hk : (k, e) ∈ scheduled log) (hgone : q.events[k]? = none) :
    (call.next q).events[k]? = none := by
  obtain ⟨hremoved, hkept⟩ := Call.next_getElem? (h.not_new call hk)
  by_cases hremoves : call.Removes q k
  · exact hremoved hremoves
  · exact (hkept hremoves).trans hgone

theorem held_step (h : Recorded q log) (hk : (call.next q).events[k]? = some e) :
    (k, e) ∈ scheduled (log ++ [⟨q, call⟩]) := by
  rw [scheduled_snoc, List.mem_append, Option.mem_toList]
  by_cases hnew : ∃ e', call.scheduled? q = some (k, e')
  · obtain ⟨e', hnew⟩ := hnew
    obtain rfl := Option.some.inj ((Call.scheduled?_some hnew).2.2.symm.trans hk)
    exact .inr hnew
  · exact .inl (h.held k e (held_before (fun e' he => hnew ⟨e', he⟩) hk).1)

theorem set_step (h : Recorded q log) {node : NodeId} {timer : TimerId}
    (hk : lastSet (log ++ [⟨q, call⟩]) node timer = some k) :
    k.node = node ∧ (k, .node (.timerFired timer)) ∈ scheduled (log ++ [⟨q, call⟩]) ∧
      k ∉ returned (log ++ [⟨q, call⟩]) := by
  rw [lastSet_snoc] at hk
  rw [scheduled_snoc, returned_snoc, List.mem_append, List.mem_append, Option.mem_toList,
    Option.mem_toList]
  cases hsets : call.sets? node timer q with
  | some key =>
    rw [hsets, Option.some_or] at hk
    obtain rfl := Option.some.inj hk
    obtain ⟨-, hnode, hnew, hreturned⟩ := Call.sets?_some hsets
    refine ⟨hnode, .inr hnew, ?_⟩
    rw [hreturned]
    rintro (hk | hk)
    · obtain ⟨e, he⟩ := h.given key hk
      exact h.not_new call he _ hnew
    · exact nomatch hk
  | none =>
    rw [hsets, Option.none_or] at hk
    obtain ⟨hnode, hscheduled, hreturned⟩ := h.set node timer k hk
    refine ⟨hnode, .inl hscheduled, ?_⟩
    rintro (hk | hk)
    · exact hreturned hk
    · obtain ⟨e, he⟩ := Call.scheduled?_of_returned? hk
      exact h.not_new call hscheduled e he

theorem table_step (h : Recorded q log)
    (hcancel : ∀ key, call = .cancel key → key ∈ returned log) (node : NodeId) (timer : TimerId)
    (k : EventKey) :
    (call.next q).timers.get? (node, timer) = some k ↔
      lastSet (log ++ [⟨q, call⟩]) node timer = some k ∧
        (call.next q).events[k]? = some (.node (.timerFired timer)) := by
  rw [lastSet_snoc]
  cases hsets : call.sets? node timer q with
  | some key =>
    obtain ⟨hget, -, hnew, -⟩ := Call.sets?_some hsets
    rw [hget, Option.some_or, Option.some_inj]
    exact (and_iff_left_of_imp fun he => he ▸ (Call.scheduled?_some hnew).2.2).symm
  | none =>
    have hmanual (key : EventKey) (hcall : call = .cancel key) (n : NodeId) (i : TimerId) :
        q.timers.get? (n, i) ≠ some key := fun hk =>
      (h.set n i key ((h.table n i key).mp hk).1).2.2 (hcancel key hcall)
    rw [Call.sets?_none h.own hmanual hsets, Option.none_or, h.table, and_assoc]
    refine and_congr_right fun hlast => ?_
    have hnew := h.not_new call (h.set node timer k hlast).2.1
    refine ⟨fun ⟨hk, hnot⟩ => ?_, held_before hnew⟩
    rw [(Call.next_getElem? hnew).2 hnot, hk]

/-- The record goes on with the queue. -/
theorem step (h : Recorded q log) (hcancel : ∀ key, call = .cancel key → key ∈ returned log) :
    Recorded (call.next q) (log ++ [⟨q, call⟩]) where
  rising := by
    rw [scheduled_snoc, List.pairwise_append]
    refine ⟨h.rising, ?_, fun x hx y hy => h.fresh (Option.mem_toList.mp hy) hx⟩
    cases call.scheduled? q <;> simp
  bound x hx := by
    rw [scheduled_snoc, List.mem_append, Option.mem_toList] at hx
    cases hnew : call.scheduled? q with
    | none =>
      rw [Call.scheduled?_none hnew]
      exact h.bound x (hx.resolve_right fun hx => nomatch hnew.symm.trans hx)
    | some new =>
      obtain ⟨key, event⟩ := new
      obtain ⟨hnumber, hnext, -⟩ := Call.scheduled?_some hnew
      rw [hnext]
      rcases hx with hx | hx
      · exact Nat.le_succ_of_le (h.bound x hx)
      · obtain rfl := Option.some.inj (hnew.symm.trans hx)
        exact Nat.le_of_eq hnumber
  held k e hk := h.held_step hk
  past t ht k e hk := by
    rw [scheduled_snoc]
    refine List.mem_append_left _ ?_
    rcases List.mem_append.mp ht with ht | ht
    · exact h.past t ht k e hk
    · rw [List.mem_singleton.mp ht] at hk
      exact h.held k e hk
  set node timer k hk := h.set_step hk
  given k hk := by
    rw [returned_snoc, List.mem_append, Option.mem_toList] at hk
    simp only [scheduled_snoc, List.mem_append, Option.mem_toList]
    rcases hk with hk | hk
    · obtain ⟨e, he⟩ := h.given k hk
      exact ⟨e, .inl he⟩
    · obtain ⟨e, he⟩ := Call.scheduled?_of_returned? hk
      exact ⟨e, .inr he⟩
  table := h.table_step hcancel

end Recorded

theorem Called.recorded (h : Called q log) : Recorded q log := by
  induction h with
  | new => exact empty_recorded
  | step h call hcancel ih => exact ih.step hcancel

-- ---------------------------------------------------------------------------
-- The numbers
-- ---------------------------------------------------------------------------

/-- The events are numbered one after another. -/
theorem Called.numbered (h : Called q log) :
    q.sequence = (scheduled log).length ∧
      (scheduled log).map (·.1.sequence) = List.range' 1 (scheduled log).length := by
  induction h with
  | new => exact ⟨rfl, rfl⟩
  | @step q log h call hcancel ih =>
    obtain ⟨hsequence, hnumbers⟩ := ih
    rw [scheduled_snoc]
    cases hnew : call.scheduled? q with
    | none => simpa [Call.scheduled?_none hnew] using ⟨hsequence, hnumbers⟩
    | some new =>
      obtain ⟨key, event⟩ := new
      obtain ⟨hnumber, hnext, -⟩ := Call.scheduled?_some hnew
      constructor
      · simp [hnext, hsequence]
      · simp [hnumbers, hnumber, hsequence, List.range'_1_concat, Nat.add_comm 1]

/-- As words, numbers that follow one another are those of a counter of 64 bits. -/
theorem map_ofNat_range' (first count : Nat) :
    (List.range' first count).map UInt64.ofNat =
      List.iterate (· + 1) (UInt64.ofNat first) count := by
  induction count generalizing first with
  | zero => rfl
  | succ count ih =>
    rw [List.range'_succ, List.map_cons, ih, List.iterate, UInt64.ofNat_add]
    rfl

/-- As words, the numbers of the events are those of a counter of 64 bits. -/
theorem Called.counter (h : Called q log) :
    (scheduled log).map (·.1.word) = List.iterate (· + 1) 1 (scheduled log).length := by
  have hwords := congrArg (List.map UInt64.ofNat) h.numbered.2
  rw [List.map_map, map_ofNat_range'] at hwords
  exact hwords

/-- Until the counter goes round, it shows the numbers themselves. -/
theorem Called.word_toNat (h : Called q log) (hroom : (scheduled log).length < UInt64.size)
    {x : EventKey × ScheduledEvent} (hx : x ∈ scheduled log) : x.1.word.toNat = x.1.sequence := by
  have hbound := h.recorded.bound x hx
  rw [h.numbered.1] at hbound
  exact EventKey.word_toNat (Nat.lt_of_le_of_lt hbound hroom)

theorem Called.words_distinct (h : Called q log) (hroom : (scheduled log).length < UInt64.size) :
    ((scheduled log).map (·.1.word)).Nodup := by
  refine List.pairwise_map.mpr (h.recorded.rising.imp_of_mem fun {a b} ha hb hlt heq => ?_)
  rw [← h.word_toNat hroom ha, ← h.word_toNat hroom hb, heq] at hlt
  exact Nat.lt_irrefl _ hlt

end BlockGossip.EventQueue
