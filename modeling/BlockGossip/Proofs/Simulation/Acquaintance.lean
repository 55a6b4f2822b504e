import BlockGossip.Proofs.Session.Contacts
import BlockGossip.Proofs.Simulation.Links

/-!
# Nobody writes to a stranger

In a run that is given no bytes from outside, all bytes come from nodes that are
here. If all peers are here too, then so is everyone whom a node writes to: no
frame is dropped for want of a receiver.
-/

namespace BlockGossip

variable {P : NodeId → Prop}

def ScheduledEvent.From (P : NodeId → Prop) : ScheduledEvent → Prop
  | .node event => event.From P
  | .mine => True

theorem Event.NoBytes.from {event : Event} (h : event.NoBytes) (P : NodeId → Prop) :
    event.From P := by
  cases event with
  | bytesReceived sender bytes => exact absurd rfl (h sender bytes)
  | _ => trivial

-- ---------------------------------------------------------------------------
-- What is in the queue
-- ---------------------------------------------------------------------------

namespace EventQueue

variable {q q' : EventQueue} {limit : Time} {key : EventKey} {event : ScheduledEvent}

/-- All bytes that the queue holds are of senders with the property. -/
def From (P : NodeId → Prop) (q : EventQueue) : Prop :=
  ∀ (key : EventKey) event, q.events[key]? = some event → event.From P

namespace From

theorem of_events (h : q.From P)
    (hevents : ∀ (k : EventKey) e, q'.events[k]? = some e → q.events[k]? = some e) : q'.From P :=
  fun k e he => h k e (hevents k e he)

theorem schedule (h : q.From P) (node : NodeId) (time : Time) (hevent : event.From P) :
    (q.schedule node time event).2.From P := by
  intro k e he
  rw [EventQueue.schedule, getElem?_insert] at he
  split at he
  · exact Option.some.inj he ▸ hevent
  · exact h k e he

theorem erase (h : q.From P) (key : EventKey) :
    From P { q with events := q.events.erase key } :=
  h.of_events fun k e he => by
    rw [getElem?_erase] at he
    split at he
    · exact nomatch he
    · exact he

theorem setTimer (h : q.From P) (node : NodeId) (timer : TimerId) (after : Duration) :
    (q.setTimer node timer after).From P := by
  have hunset : (q.unset node timer).From P := by
    unfold unset
    split
    · exact h.erase _
    · exact h
  have hfiring : ScheduledEvent.From P (.node (.timerFired timer)) := trivial
  rw [setTimer_eq]
  exact hunset.schedule node ((q.unset node timer).now + after.toSeconds) hfiring

theorem cancelTimer (h : q.From P) (node : NodeId) (timer : TimerId) :
    (q.cancelTimer node timer).From P := by
  unfold EventQueue.cancelTimer
  split
  · exact h.erase _
  · exact h

theorem advanceTo (h : q.From P) (time : Time) : (q.advanceTo time).From P :=
  h.of_events fun _ _ he => q.advanceTo_events time ▸ he

theorem pop (h : q.From P) (hpop : q.popUntil limit = some ((key, event), q')) :
    event.From P ∧ q'.From P := by
  refine ⟨h key event (popUntil_mem hpop), h.of_events fun k e he => ?_⟩
  rw [popUntil_getElem? hpop] at he
  split at he
  · exact nomatch he
  · exact he

theorem deliver (h : q.From P) {ds : List Delivery} (hds : ∀ d ∈ ds, P d.sender) :
    (ds.foldl Simulation.scheduleDelivery q).From P := by
  induction ds generalizing q with
  | nil => exact h
  | cons d ds ih =>
    refine ih (h.schedule d.receiver d.time ?_) fun d' hd' => hds d' (List.mem_cons_of_mem _ hd')
    exact hds d (List.mem_cons_self ..)

end From

end EventQueue

-- ---------------------------------------------------------------------------
-- Runs
-- ---------------------------------------------------------------------------

namespace Simulation

variable {σ : Type} [Random.Source σ] {sim sim₀ sim' : Simulation σ} {node : NodeId}
  {log turns : List Turn} {event : Event} {s : Session}

/-- The property is that of the nodes, and only they write to one another. -/
structure Acquainted (P : NodeId → Prop) (sim : Simulation σ) : Prop where
  here : ∀ node, P node ↔ sim.sessions.contains node = true
  sessions : ∀ node s, sim.session? node = some s → s.Acquainted P
  queue : sim.queue.From P
  outbox : sim.network.outbox = []

theorem perform_acquainted (h : sim.Acquainted P) (hnode : P node) (a : Action) :
    (perform node sim a).Acquainted P := by
  have hsessions := perform_sessions node sim a
  suffices hrest : (perform node sim a).queue.From P ∧ (perform node sim a).network.outbox = [] from
    ⟨hsessions ▸ h.here,
      fun n s hs => h.sessions n s ((congrArg (·.get? n) hsessions).symm.trans hs),
      hrest.1, hrest.2⟩
  cases a with
  | setTimer timer after => exact ⟨h.queue.setTimer node timer after, h.outbox⟩
  | cancelTimer timer => exact ⟨h.queue.cancelTimer node timer, h.outbox⟩
  | send receiver kind frame wireBytes =>
    cases hr : sim.sessions.contains receiver with
    | false =>
      rw [perform_dropped hr]
      exact ⟨h.queue, h.outbox⟩
    | true =>
      rw [perform_send hr]
      refine ⟨h.queue.deliver fun d hd => ?_, rfl⟩
      obtain ⟨start, transmission, latency, count, chunks, -, -, houtbox, -⟩ :=
        (sim.network.setTime sim.now).send_spec (node, receiver) frame wireBytes
      have hbox : (sim.network.setTime sim.now).outbox = [] := h.outbox
      rw [hbox, List.nil_append] at houtbox
      have hd : d ∈ (sim.sent node receiver frame wireBytes).outbox := hd
      rw [sent, houtbox] at hd
      obtain ⟨arrival, -, rfl⟩ := List.mem_map.mp hd
      exact hnode

theorem performAll_acquainted (h : sim.Acquainted P) (hnode : P node) (actions : List Action) :
    (actions.foldl (perform node) sim).Acquainted P := by
  induction actions generalizing sim with
  | nil => exact h
  | cons a actions ih => exact ih (perform_acquainted h hnode a)

omit [Random.Source σ] in
/-- Handling an event makes no strangers. -/
theorem handled_acquainted (h : sim.Acquainted P) (hs : sim.session? node = some s)
    (hevent : event.From P) : (sim.handled node s event).Acquainted P := by
  refine ⟨fun n => handled_contains hs n ▸ h.here n, fun n t ht => ?_, h.queue, h.outbox⟩
  · rw [handled_session?] at ht
    split at ht
    · obtain rfl := Option.some.inj ht
      exact Session.handle_acquainted ((h.sessions node s hs).setTime sim.now) hevent
    · exact h.sessions n t ht

theorem dispatch_acquainted (h : sim.Acquainted P) (hevent : event.From P) :
    (sim.dispatch node event).Acquainted P := by
  cases hs : sim.session? node with
  | none => rwa [dispatch_none hs]
  | some s =>
    rw [dispatch_some hs]
    exact performAll_acquainted (handled_acquainted h hs hevent)
      ((h.here node).mpr (Option.isSome_of_eq_some hs)) _

theorem Change.acquainted (h : Change Event.NoBytes sim sim' turns) (hs : sim.Acquainted P) :
    sim'.Acquainted P := by
  have hqueue {queue : EventQueue} (hfrom : queue.From P) : ({ sim with queue }).Acquainted P :=
    ⟨hs.here, hs.sessions, hfrom, hs.outbox⟩
  cases h with
  | aside hqueue hsessions hnetwork =>
    exact ⟨hsessions ▸ hs.here,
      fun n t ht => hs.sessions n t ((congrArg (·.get? n) hsessions).symm.trans ht),
      hqueue ▸ hs.queue, hnetwork ▸ hs.outbox⟩
  | scheduled node time event hevent =>
    refine hqueue (hs.queue.schedule node time ?_)
    cases event with
    | mine => trivial
    | node event =>
      rcases hevent event rfl with rfl | hallowed
      · trivial
      · exact hallowed.from P
  | taken hpop => exact hqueue (hs.queue.pop hpop).2
  | given hpop =>
    obtain ⟨hevent, hrest⟩ := hs.queue.pop hpop
    exact dispatch_acquainted (hqueue hrest) hevent
  | called node hevent =>
    refine dispatch_acquainted hs ?_
    rcases hevent with rfl | ⟨b, rfl⟩ <;> trivial
  | advanced hend => exact hqueue (hs.queue.advanceTo _)
  | cancelled hkey => exact hqueue (hs.queue.erase _)

omit [Random.Source σ] in
theorem Built.acquainted (h : Built sim₀)
    (hpeers : ∀ s ∈ sim₀.sessions.values, ∀ peer ∈ s.setup.peers,
      sim₀.sessions.contains peer = true) :
    sim₀.Acquainted fun node => sim₀.sessions.contains node = true where
  here _ := Iff.rfl
  sessions node s hs := by
    have hmem := mem_of_find hs
    obtain ⟨setup, config, rfl, -⟩ := h.entries (node, s) hmem
    exact ⟨hpeers _ (List.mem_map.mpr ⟨_, hmem, rfl⟩), .empty⟩
  queue key event he := by
    rw [h.fields.1] at he
    exact absurd he (by simp [EventQueue.empty])
  outbox := h.network.1

theorem Course.acquainted (h : Course Event.NoBytes sim₀ sim log) (hs : sim₀.Acquainted P) :
    sim.Acquainted P := by
  induction h with
  | nil => exact hs
  | snoc _ hchange ih => exact hchange.acquainted ih

end Simulation

end BlockGossip
