import BlockGossip.Proofs.Session.Transcript
import BlockGossip.Proofs.Simulation.Queue
import BlockGossip.Simulation.Build

/-!
# Runs of a simulation

A simulation is driven from outside: it is started, told to mine, given events
of nodes, run up to a time and stopped. Between those calls it handles one
event after another. A run is recorded as its turns: which session was given
which event, at what time. What any call does to the queue, the sessions and
the network is a course of a few kinds of changes; an invariant is proved for
each kind of change and holds in every run.
-/

namespace BlockGossip.Simulation

variable {σ : Type}

/-- A session is given an event. -/
structure Turn where
  node : NodeId
  /-- The session as it is found, told the time. -/
  found : Session
  event : Event

namespace Turn

def next (t : Turn) : Session := (t.found.handle t.event).1

def actions (t : Turn) : List Action := (t.found.handle t.event).2

end Turn

/-- The turn of an event; none where the node is not here. -/
def turns (sim : Simulation σ) (node : NodeId) (event : Event) : List Turn :=
  match sim.session? node with
  | none => []
  | some session => [⟨node, session.setTime sim.now, event⟩]

theorem turns_none {sim : Simulation σ} {node : NodeId} {event : Event}
    (h : sim.session? node = none) : sim.turns node event = [] := by
  unfold turns
  rw [h]

theorem turns_some {sim : Simulation σ} {node : NodeId} {event : Event} {s : Session}
    (h : sim.session? node = some s) :
    sim.turns node event = [⟨node, s.setTime sim.now, event⟩] := by
  unfold turns
  rw [h]

/-- A simulation as it is built, from whatever configuration and nodes. -/
def Built (sim : Simulation σ) : Prop :=
  ∃ config setups random networkRandom, ofSetups config setups random networkRandom = .ok sim

/-- The first half of stopping: the mining schedule ends. -/
def unscheduled (sim : Simulation σ) : Simulation σ :=
  match sim.nextMine with
  | some key => { sim with nextMine := none, queue := (sim.queue.cancel key).2 }
  | none => sim

section
variable [Random.Source σ]

/-- The turn of a miner; none where it does not run, or is not here. -/
def mintTurns (sim : Simulation σ) (miner : NodeId) : List Turn :=
  match sim.session? miner with
  | none => []
  | some session =>
    if session.running then
      sim.turns miner (.blockMinted
        (candidate sim.config session miner (Random.word64 sim.random).1 sim.now))
    else []

def processTurns (sim : Simulation σ) (key : EventKey) : ScheduledEvent → List Turn
  | .node event => sim.turns key.node event
  | .mine => sim.mintTurns key.node

/-- The turns of a step: one at most. -/
def stepTurns (sim : Simulation σ) (limit : Time) : List Turn :=
  match sim.queue.popUntil limit with
  | none => []
  | some ((key, event), queue) => { sim with queue }.processTurns key event

/-- What a simulation becomes under calls, with the turns taken so far. Running
up to a time is a number of steps, and then the clock goes there; stopping ends
the schedule and then stops one node after another. -/
inductive Driven (allowed : Event → Prop) (sim₀ : Simulation σ) : Simulation σ → List Turn → Prop
  | built : Driven allowed sim₀ sim₀ []
  | started {sim log} (h : Driven allowed sim₀ sim log) : Driven allowed sim₀ sim.start log
  | injected {sim log} (h : Driven allowed sim₀ sim log) (node : NodeId) (time : Time)
    (event : Event) (hallowed : allowed event) :
    Driven allowed sim₀ (sim.inject node time event) log
  | mineAt {sim log} (h : Driven allowed sim₀ sim log) (miner : NodeId) (time : Time) :
    Driven allowed sim₀ (sim.mineAt miner time) log
  | stepped {sim log sim'} (h : Driven allowed sim₀ sim log) (limit : Time)
    (hstep : sim.step? limit = some sim') :
    Driven allowed sim₀ sim' (log ++ sim.stepTurns limit)
  | advanced {sim log} (h : Driven allowed sim₀ sim log) (limit : Time)
    (hend : sim.step? limit = none) :
    Driven allowed sim₀ { sim with queue := sim.queue.advanceTo limit } log
  | unscheduled {sim log} (h : Driven allowed sim₀ sim log) :
    Driven allowed sim₀ sim.unscheduled log
  | stopped {sim log} (h : Driven allowed sim₀ sim log) (node : NodeId) :
    Driven allowed sim₀ (sim.dispatch node .stop) (log ++ sim.turns node .stop)

variable {allowed : Event → Prop} {sim₀ sim sim' : Simulation σ} {log log' : List Turn}
  {node : NodeId} {s : Session} {event : Event}

-- ---------------------------------------------------------------------------
-- Calls
-- ---------------------------------------------------------------------------

theorem Driven.runSteps (h : Driven allowed sim₀ sim log) (limit : Time) (fuel : Nat) :
    ∃ more, Driven allowed sim₀ (sim.runSteps limit fuel) (log ++ more) := by
  induction fuel generalizing sim log with
  | zero => exact ⟨[], by rw [List.append_nil]; exact h⟩
  | succ fuel ih =>
    rw [Simulation.runSteps]
    cases hstep : sim.step? limit with
    | none => exact ⟨[], by rw [List.append_nil]; exact h⟩
    | some next =>
      obtain ⟨more, hmore⟩ := ih (h.stepped limit hstep)
      exact ⟨_, by rw [← List.append_assoc]; exact hmore⟩

/-- Running up to a time, where it comes to an end, is a part of a run. -/
theorem Driven.runUntil (h : Driven allowed sim₀ sim log) (limit : Time)
    (hend : (sim.runSteps limit eventLimit).step? limit = none) :
    ∃ more, Driven allowed sim₀ (sim.runUntil limit) (log ++ more) := by
  obtain ⟨more, hmore⟩ := h.runSteps limit eventLimit
  exact ⟨more, hmore.advanced limit hend⟩

theorem stopAll_eq (sim : Simulation σ) :
    sim.stopAll = sim.nodes.foldl (fun sim node => sim.dispatch node .stop) sim.unscheduled := by
  unfold stopAll unscheduled nodes
  cases sim.nextMine <;> rfl

theorem Driven.stopNodes (h : Driven allowed sim₀ sim log) (nodes : List NodeId) :
    ∃ more, Driven allowed sim₀ (nodes.foldl (fun sim node => sim.dispatch node .stop) sim)
        (log ++ more) := by
  induction nodes generalizing sim log with
  | nil => exact ⟨[], by rw [List.append_nil]; exact h⟩
  | cons node nodes ih =>
    obtain ⟨more, hmore⟩ := ih (h.stopped node)
    exact ⟨_, by rw [← List.append_assoc]; exact hmore⟩

theorem Driven.stopAll (h : Driven allowed sim₀ sim log) :
    ∃ more, Driven allowed sim₀ sim.stopAll (log ++ more) := by
  rw [stopAll_eq]
  exact h.unscheduled.stopNodes sim.nodes

-- ---------------------------------------------------------------------------
-- Evaluation
-- ---------------------------------------------------------------------------

/-- So many steps of a run and their turns, in a form that reduces in the logic. -/
def runFirst (limit : Time) : Nat → Simulation σ → Simulation σ × List Turn
  | 0, sim => (sim, [])
  | fuel + 1, sim =>
    match sim.queue.popFirst limit with
    | none => (sim, [])
    | some ((key, event), queue) =>
      let next := { sim with queue, eventsProcessed := sim.eventsProcessed + 1 }.process key event
      ((runFirst limit fuel next).1,
        { sim with queue }.processTurns key event ++ (runFirst limit fuel next).2)

theorem runFirst_fst (sim : Simulation σ) (limit : Time) (fuel : Nat) :
    (sim.runFirst limit fuel).1 = sim.runSteps limit fuel := by
  induction fuel generalizing sim with
  | zero => rfl
  | succ fuel ih =>
    rw [runFirst, runSteps, step?, EventQueue.popUntil_eq_popFirst]
    cases sim.queue.popFirst limit with
    | none => rfl
    | some popped => exact ih _

theorem Driven.runFirst (h : Driven allowed sim₀ sim log) (limit : Time) (fuel : Nat) :
    Driven allowed sim₀ (sim.runFirst limit fuel).1 (log ++ (sim.runFirst limit fuel).2) := by
  induction fuel generalizing sim log with
  | zero => rwa [Simulation.runFirst, List.append_nil]
  | succ fuel ih =>
    rw [Simulation.runFirst]
    cases hpop : sim.queue.popFirst limit with
    | none => rwa [List.append_nil]
    | some popped =>
      obtain ⟨⟨key, event⟩, queue⟩ := popped
      rw [← EventQueue.popUntil_eq_popFirst] at hpop
      have hstep : sim.step? limit =
          some ({ sim with queue, eventsProcessed := sim.eventsProcessed + 1 }.process
            key event) := by
        rw [step?, hpop]
      have hturns : sim.stepTurns limit = { sim with queue }.processTurns key event := by
        rw [stepTurns, hpop]
      have hnext := ih (h.stepped limit hstep)
      rwa [hturns, List.append_assoc] at hnext

theorem Driven.startFirst (allowed : Event → Prop) (sim : Simulation σ) (limit : Time)
    (fuel : Nat) :
    Driven allowed sim (sim.start.runFirst limit fuel).1 (sim.start.runFirst limit fuel).2 := by
  have hstarted : Driven allowed sim sim.start [] := Driven.built.started
  have := hstarted.runFirst limit fuel
  rwa [List.nil_append] at this

-- ---------------------------------------------------------------------------
-- Dispatch
-- ---------------------------------------------------------------------------

/-- The network once it has taken a frame, and what it will deliver. -/
def sent (sim : Simulation σ) (sender receiver : NodeId) (frame : Bytes) (wireBytes : UInt64) :
    Network σ :=
  (sim.network.setTime sim.now).send sender receiver frame wireBytes

theorem perform_send {receiver : NodeId} (h : sim.sessions.contains receiver = true)
    (kind : MessageKind) (frame : Bytes) (wireBytes : UInt64) :
    perform node sim (.send receiver kind frame wireBytes) =
      { sim with
        network := (sim.sent node receiver frame wireBytes).drain.2
        queue := (sim.sent node receiver frame wireBytes).drain.1.foldl scheduleDelivery
          sim.queue } := if_pos h

theorem perform_dropped {receiver : NodeId} (h : sim.sessions.contains receiver = false)
    (kind : MessageKind) (frame : Bytes) (wireBytes : UInt64) :
    perform node sim (.send receiver kind frame wireBytes) = sim :=
  if_neg (Bool.eq_false_iff.mp h)

theorem perform_sessions (node : NodeId) (sim : Simulation σ) (a : Action) :
    (perform node sim a).sessions = sim.sessions := by
  cases a with
  | send receiver kind frame wireBytes =>
    cases h : sim.sessions.contains receiver with
    | true => rw [perform_send h]
    | false => rw [perform_dropped h]
  | setTimer => rfl
  | cancelTimer => rfl

theorem perform_nextMine (node : NodeId) (sim : Simulation σ) (a : Action) :
    (perform node sim a).nextMine = sim.nextMine := by
  cases a with
  | send receiver kind frame wireBytes =>
    cases h : sim.sessions.contains receiver with
    | true => rw [perform_send h]
    | false => rw [perform_dropped h]
  | setTimer => rfl
  | cancelTimer => rfl

theorem scheduleDelivery_now (ds : List Delivery) (q : EventQueue) :
    (ds.foldl scheduleDelivery q).now = q.now := by
  induction ds generalizing q with
  | nil => rfl
  | cons d ds ih => exact ih _

theorem perform_now (node : NodeId) (sim : Simulation σ) (a : Action) :
    (perform node sim a).now = sim.now := by
  cases a with
  | send receiver kind frame wireBytes =>
    cases h : sim.sessions.contains receiver with
    | true =>
      rw [perform_send h]
      exact scheduleDelivery_now _ sim.queue
    | false => rw [perform_dropped h]
  | setTimer timer after => exact EventQueue.setTimer_now ..
  | cancelTimer timer => exact EventQueue.cancelTimer_now ..

theorem performAll_sessions (node : NodeId) (actions : List Action) (sim : Simulation σ) :
    (actions.foldl (perform node) sim).sessions = sim.sessions := by
  induction actions generalizing sim with
  | nil => rfl
  | cons a actions ih => rw [List.foldl_cons, ih, perform_sessions]

theorem performAll_nextMine (node : NodeId) (actions : List Action) (sim : Simulation σ) :
    (actions.foldl (perform node) sim).nextMine = sim.nextMine := by
  induction actions generalizing sim with
  | nil => rfl
  | cons a actions ih => rw [List.foldl_cons, ih, perform_nextMine]

/-- The simulation in which a session has handled an event and its actions are
yet to be carried out. -/
def handled (sim : Simulation σ) (node : NodeId) (s : Session) (event : Event) : Simulation σ :=
  { sim with
    sessions := sim.sessions.insert node (s.after sim.now event)
    actionsGenerated := sim.actionsGenerated + UInt64.ofNat (s.answer sim.now event).length }

omit [Random.Source σ] in
theorem handled_session? (sim : Simulation σ) (node : NodeId) (s : Session) (event : Event)
    (n : NodeId) :
    (sim.handled node s event).session? n =
      if node = n then some (s.after sim.now event) else sim.session? n :=
  Table.get?_insert ..

omit [Random.Source σ] in
theorem handled_contains (h : sim.session? node = some s) (n : NodeId) :
    (sim.handled node s event).sessions.contains n = sim.sessions.contains n := by
  show ((sim.handled node s event).session? n).isSome = (sim.session? n).isSome
  rw [handled_session?]
  split
  · rename_i hn
    rw [← hn, h]
    rfl
  · rfl

theorem dispatch_none (h : sim.session? node = none) : sim.dispatch node event = sim := by
  unfold dispatch
  rw [h]

theorem dispatch_some (h : sim.session? node = some s) :
    sim.dispatch node event =
      (s.answer sim.now event).foldl (perform node) (sim.handled node s event) := by
  unfold dispatch
  rw [h]
  rfl

theorem dispatch_nextMine : (sim.dispatch node event).nextMine = sim.nextMine := by
  cases h : sim.session? node with
  | none => rw [dispatch_none h]
  | some s =>
    rw [dispatch_some h, performAll_nextMine]
    rfl

theorem dispatch_session? (h : sim.session? node = some s) (n : NodeId) :
    (sim.dispatch node event).session? n =
      if node = n then some (s.after sim.now event) else sim.session? n := by
  rw [dispatch_some h, ← handled_session?]
  unfold session?
  rw [performAll_sessions]

theorem scheduleDelivery_evolves (ds : List Delivery) (q : EventQueue) :
    EventQueue.Evolves q (ds.foldl scheduleDelivery q) := by
  induction ds generalizing q with
  | nil => exact .refl q
  | cons d ds ih => exact (EventQueue.schedule_evolves q _ _ _).trans (ih _)

theorem perform_evolves (node : NodeId) (sim : Simulation σ) (a : Action) :
    EventQueue.Evolves sim.queue (perform node sim a).queue := by
  cases a with
  | send receiver kind frame wireBytes =>
    cases h : sim.sessions.contains receiver with
    | true =>
      rw [perform_send h]
      exact scheduleDelivery_evolves _ sim.queue
    | false =>
      rw [perform_dropped h]
      exact .refl _
  | setTimer timer after => exact EventQueue.setTimer_evolves ..
  | cancelTimer timer => exact EventQueue.cancelTimer_evolves ..

theorem performAll_evolves (node : NodeId) (actions : List Action) (sim : Simulation σ) :
    EventQueue.Evolves sim.queue (actions.foldl (perform node) sim).queue := by
  induction actions generalizing sim with
  | nil => exact .refl _
  | cons a actions ih => exact (perform_evolves node sim a).trans (ih _)

theorem dispatch_evolves (sim : Simulation σ) (node : NodeId) (event : Event) :
    EventQueue.Evolves sim.queue (sim.dispatch node event).queue := by
  cases h : sim.session? node with
  | none =>
    rw [dispatch_none h]
    exact .refl _
  | some s =>
    rw [dispatch_some h]
    exact performAll_evolves node _ (sim.handled node s event)

-- ---------------------------------------------------------------------------
-- Changes
-- ---------------------------------------------------------------------------

/-- The kinds of changes that every call is made of, with their turns. -/
inductive Change (allowed : Event → Prop) : Simulation σ → Simulation σ → List Turn → Prop
  /-- Queue, sessions and network stay as they are. -/
  | aside {sim sim' : Simulation σ} (hqueue : sim'.queue = sim.queue)
    (hsessions : sim'.sessions = sim.sessions) (hnetwork : sim'.network = sim.network) :
    Change allowed sim sim' []
  | scheduled (sim : Simulation σ) (node : NodeId) (time : Time) (event : ScheduledEvent)
    (hevent : ∀ e, event = .node e → e = .start ∨ allowed e) :
    Change allowed sim { sim with queue := (sim.queue.schedule node time event).2 } []
  /-- The time to mine has come. -/
  | taken {sim : Simulation σ} {limit : Time} {key : EventKey} {queue : EventQueue}
    (hpop : sim.queue.popUntil limit = some ((key, .mine), queue)) :
    Change allowed sim { sim with queue } []
  /-- An event of the queue is given to its node. -/
  | given {sim : Simulation σ} {limit : Time} {key : EventKey} {event : Event}
    {queue : EventQueue} (hpop : sim.queue.popUntil limit = some ((key, .node event), queue)) :
    Change allowed sim ({ sim with queue }.dispatch key.node event)
      ({ sim with queue }.turns key.node event)
  /-- A node is stopped, or mines. -/
  | called (sim : Simulation σ) (node : NodeId) {event : Event}
    (hevent : event = .stop ∨ ∃ b, event = .blockMinted b) :
    Change allowed sim (sim.dispatch node event) (sim.turns node event)
  | advanced {sim : Simulation σ} {limit : Time} (hend : sim.queue.popUntil limit = none) :
    Change allowed sim { sim with queue := sim.queue.advanceTo limit } []
  /-- The scheduled mining is cancelled. -/
  | cancelled (sim : Simulation σ) {key : EventKey}
    (hkey : ∀ e, sim.queue.events[key]? = some e → e = .mine) :
    Change allowed sim { sim with queue := (sim.queue.cancel key).2 } []

theorem Change.evolves (h : Change allowed sim sim' log) :
    EventQueue.Evolves sim.queue sim'.queue := by
  cases h with
  | aside hqueue => exact hqueue ▸ .refl _
  | scheduled node time event => exact EventQueue.schedule_evolves ..
  | taken hpop => exact EventQueue.popUntil_evolves hpop
  | @given _ key event queue hpop =>
    exact (EventQueue.popUntil_evolves hpop).trans
      (dispatch_evolves { sim with queue } key.node event)
  | called node => exact dispatch_evolves ..
  | advanced => exact EventQueue.advanceTo_evolves ..
  | cancelled => exact EventQueue.cancel_evolves ..

/-- One change after another, with all their turns. -/
inductive Course (allowed : Event → Prop) (sim₀ : Simulation σ) : Simulation σ → List Turn → Prop
  | nil : Course allowed sim₀ sim₀ []
  | snoc {sim sim' log turns} (h : Course allowed sim₀ sim log)
    (hchange : Change allowed sim sim' turns) : Course allowed sim₀ sim' (log ++ turns)

/-- A change in which no session has a turn. -/
theorem Course.quiet (h : Course allowed sim₀ sim log) (hchange : Change allowed sim sim' []) :
    Course allowed sim₀ sim' log := by
  have := h.snoc hchange
  rwa [List.append_nil] at this

-- ---------------------------------------------------------------------------
-- Every call is a course of changes
-- ---------------------------------------------------------------------------

/-- The keys of the queue are numbered, and that of the scheduled mining is the
key of no event of a node. -/
structure Keyed (sim : Simulation σ) : Prop where
  numbered : sim.queue.Numbered
  mining : ∀ key, sim.nextMine = some key →
    key.sequence ≤ sim.queue.sequence ∧ ∀ e, sim.queue.events[key]? = some e → e = .mine

omit [Random.Source σ] in
theorem Keyed.evolves (h : Keyed sim) (hqueue : EventQueue.Evolves sim.queue sim'.queue)
    (hnext : sim'.nextMine = sim.nextMine) : Keyed sim' where
  numbered := hqueue.numbered h.numbered
  mining key hkey := by
    obtain ⟨hle, hmine⟩ := h.mining key (hnext ▸ hkey)
    refine ⟨Nat.le_trans hle hqueue.sequence, fun e he => ?_⟩
    rcases hqueue.held key e he with he | ⟨hlt, -⟩
    · exact hmine e he
    · omega

/-- A course of changes that leaves the keys in order. -/
structure Ordered (allowed : Event → Prop) (sim₀ sim : Simulation σ) (log : List Turn) :
    Prop where
  course : Course allowed sim₀ sim log
  keyed : Keyed sim

namespace Ordered

theorem snoc (h : Ordered allowed sim₀ sim log) (hchange : Change allowed sim sim' log')
    (hnext : sim'.nextMine = sim.nextMine) : Ordered allowed sim₀ sim' (log ++ log') :=
  ⟨h.course.snoc hchange, h.keyed.evolves hchange.evolves hnext⟩

theorem quiet (h : Ordered allowed sim₀ sim log) (hchange : Change allowed sim sim' [])
    (hnext : sim'.nextMine = sim.nextMine) : Ordered allowed sim₀ sim' log :=
  ⟨h.course.quiet hchange, h.keyed.evolves hchange.evolves hnext⟩

theorem inject (h : Ordered allowed sim₀ sim log) (node : NodeId) (time : Time)
    (hevent : event = .start ∨ allowed event) :
    Ordered allowed sim₀ (sim.inject node time event) log :=
  h.quiet (.scheduled sim node time (.node event) fun _ he => by
    obtain rfl := ScheduledEvent.node.inj he
    exact hevent) rfl

/-- What is drawn and counted beside the queue is no change. -/
theorem aside (h : Ordered allowed sim₀ sim log) (hqueue : sim'.queue = sim.queue)
    (hsessions : sim'.sessions = sim.sessions) (hnetwork : sim'.network = sim.network)
    (hnext : sim'.nextMine = sim.nextMine) : Ordered allowed sim₀ sim' log :=
  h.quiet (.aside hqueue hsessions hnetwork) hnext

/-- The mining that is scheduled last is the next. -/
theorem expect (h : Ordered allowed sim₀ sim log) (node : NodeId) (time : Time) :
    Ordered allowed sim₀
      { sim with
        queue := (sim.queue.schedule node time .mine).2
        nextMine := some (sim.queue.schedule node time .mine).1 } log where
  course := (h.course.quiet (.scheduled sim node time .mine nofun)).quiet (.aside rfl rfl rfl)
  keyed := by
    refine ⟨(EventQueue.schedule_evolves ..).numbered h.keyed.numbered, fun key hkey => ?_⟩
    obtain rfl := Option.some.inj hkey
    refine ⟨Nat.le_refl _, fun e he => ?_⟩
    rw [EventQueue.schedule, getElem?_insert, if_pos rfl] at he
    exact (Option.some.inj he).symm

theorem scheduleNextMine (h : Ordered allowed sim₀ sim log) :
    Ordered allowed sim₀ sim.scheduleNextMine log := by
  have hnone : Ordered allowed sim₀ { sim with nextMine := none } log :=
    ⟨h.course.quiet (.aside rfl rfl rfl), h.keyed.numbered, nofun⟩
  unfold Simulation.scheduleNextMine
  dsimp only
  split
  · exact hnone
  · split
    · exact hnone
    · rename_i miner random _
      have hdrawn : Ordered allowed sim₀
          { sim with nextMine := none, random := (Random.fraction random).2 } log :=
        hnone.aside rfl rfl rfl rfl
      exact hdrawn.expect miner _

theorem mine (h : Ordered allowed sim₀ sim log) (miner : NodeId) :
    Ordered allowed sim₀ (sim.mine miner) (log ++ sim.mintTurns miner) := by
  have hdrawn : Ordered allowed sim₀ { sim with random := (Random.word64 sim.random).2 } log :=
    h.aside rfl rfl rfl rfl
  unfold Simulation.mine mintTurns
  cases hs : sim.session? miner with
  | none =>
    have hs : ({ sim with random := (Random.word64 sim.random).2 }).session? miner = none := hs
    dsimp only
    rw [hs, List.append_nil]
    exact hdrawn
  | some session =>
    have hs' : ({ sim with random := (Random.word64 sim.random).2 }).session? miner =
        some session := hs
    dsimp only
    rw [hs']
    dsimp only
    split
    · have hminted : Ordered allowed sim₀
          { sim with
            random := (Random.word64 sim.random).2
            blocksMinted := sim.blocksMinted + 1 } log := hdrawn.aside rfl rfl rfl rfl
      exact hminted.snoc (.called _ miner (.inr ⟨_, rfl⟩)) dispatch_nextMine
    · rw [List.append_nil]
      exact hdrawn

theorem start (h : Ordered allowed sim₀ sim log) : Ordered allowed sim₀ sim.start log := by
  refine scheduleNextMine ?_
  generalize sim.nodes = nodes
  induction nodes generalizing sim with
  | nil => exact h
  | cons node nodes ih => exact ih (h.inject node _ (.inl rfl))

theorem step (h : Ordered allowed sim₀ sim log) {limit : Time}
    (hstep : sim.step? limit = some sim') :
    Ordered allowed sim₀ sim' (log ++ sim.stepTurns limit) := by
  unfold step? at hstep
  unfold stepTurns
  cases hpop : sim.queue.popUntil limit with
  | none => exact nomatch (hpop ▸ hstep)
  | some popped =>
    obtain ⟨⟨key, event⟩, queue⟩ := popped
    rw [hpop] at hstep
    obtain rfl := Option.some.inj hstep
    have hcounted : Ordered allowed sim₀
        { sim with eventsProcessed := sim.eventsProcessed + 1 } log := h.aside rfl rfl rfl rfl
    cases event with
    | node event => exact hcounted.snoc (.given hpop) dispatch_nextMine
    | mine =>
      have hmined := (hcounted.quiet (.taken hpop) rfl).mine key.node
      show Ordered allowed sim₀ (if _ then _ else _) _
      split
      · exact hmined.scheduleNextMine
      · exact hmined

theorem unscheduled (h : Ordered allowed sim₀ sim log) :
    Ordered allowed sim₀ sim.unscheduled log := by
  unfold Simulation.unscheduled
  split
  · rename_i key hkey
    exact ⟨(h.course.quiet (.cancelled sim (h.keyed.mining key hkey).2)).quiet (.aside rfl rfl rfl),
      (EventQueue.cancel_evolves ..).numbered h.keyed.numbered, nofun⟩
  · exact h

end Ordered

omit [Random.Source σ] in
theorem Built.fields (h : Built sim₀) :
    sim₀.queue = .empty ∧ sim₀.nextMine = none := by
  obtain ⟨config, setups, random, networkRandom, h⟩ := h
  unfold ofSetups at h
  split at h
  · exact nomatch h
  · dsimp only at h
    split at h
    · exact nomatch h
    · obtain rfl := Except.ok.inj h
      exact ⟨rfl, rfl⟩

omit [Random.Source σ] in
/-- The network that a simulation is built with has carried nothing. -/
theorem Built.network (h : Built sim₀) :
    sim₀.network.outbox = [] ∧ sim₀.network.lastArrival = .empty ∧
      sim₀.network.stats = ⟨0, 0, 0, 0⟩ := by
  have hspeeds (setups : List Setup) (n : Network σ) :
      let n' := setups.foldl (fun n setup => n.setSpeed setup.node setup.speed) n
      n'.outbox = n.outbox ∧ n'.lastArrival = n.lastArrival ∧ n'.stats = n.stats := by
    induction setups generalizing n with
    | nil => exact ⟨rfl, rfl, rfl⟩
    | cons setup setups ih => exact ih (n.setSpeed setup.node setup.speed)
  obtain ⟨config, setups, random, networkRandom, h⟩ := h
  unfold ofSetups at h
  split at h
  · exact nomatch h
  · extract_lets _ sessionConfig network sessions committers miners at h
    split at h
    · exact nomatch h
    · obtain rfl := Except.ok.inj h
      exact hspeeds setups (.create config.network networkRandom)

theorem ordered_built (h : Built sim₀) : Ordered allowed sim₀ sim₀ [] := by
  obtain ⟨hqueue, hnext⟩ := h.fields
  exact ⟨.nil, hqueue ▸ EventQueue.empty_numbered, fun key hkey => nomatch hnext.symm.trans hkey⟩

/-- Every run is a course of changes. -/
theorem Driven.ordered (hbuilt : Built sim₀) (h : Driven allowed sim₀ sim log) :
    Ordered allowed sim₀ sim log := by
  induction h with
  | built => exact ordered_built hbuilt
  | started _ ih => exact ih.start
  | injected _ node time event hallowed ih => exact ih.inject node time (.inr hallowed)
  | @mineAt sim log _ miner time ih => exact ih.quiet (.scheduled sim miner time .mine nofun) rfl
  | stepped _ limit hstep ih => exact ih.step hstep
  | @advanced sim log _ limit hend ih =>
    refine ih.quiet (.advanced ?_) rfl
    unfold step? at hend
    cases hpop : sim.queue.popUntil limit with
    | none => rfl
    | some popped => exact nomatch (hpop ▸ hend)
  | unscheduled _ ih => exact ih.unscheduled
  | @stopped sim log _ node ih => exact ih.snoc (.called sim node (.inl rfl)) dispatch_nextMine

-- ---------------------------------------------------------------------------
-- Sessions
-- ---------------------------------------------------------------------------

/-- A change gives an event to one session, or leaves all sessions alone. -/
theorem Change.session? (h : Change allowed sim sim' log) :
    (log = [] ∧ ∀ n, sim'.session? n = sim.session? n) ∨
      ∃ node s now event, log = [⟨node, s.setTime now, event⟩] ∧ sim.session? node = some s ∧
        ∀ n, sim'.session? n = if node = n then some (s.after now event) else sim.session? n := by
  have hdispatch (sim : Simulation σ) (node : NodeId) (event : Event) :
      (sim.turns node event = [] ∧ ∀ n, (sim.dispatch node event).session? n = sim.session? n) ∨
        ∃ m s now e, sim.turns node event = [⟨m, s.setTime now, e⟩] ∧ sim.session? m = some s ∧
          ∀ n, (sim.dispatch node event).session? n =
            if m = n then some (s.after now e) else sim.session? n := by
    cases hs : sim.session? node with
    | none => exact .inl ⟨turns_none hs, fun n => by rw [dispatch_none hs]⟩
    | some s => exact .inr ⟨node, s, sim.now, event, turns_some hs, hs, dispatch_session? hs⟩
  cases h with
  | aside _ hsessions => exact .inl ⟨rfl, fun n => congrArg (·.get? n) hsessions⟩
  | @given _ key event queue _ => exact hdispatch { sim with queue } key.node event
  | called node => exact hdispatch sim node _
  | _ => exact .inl ⟨rfl, fun _ => rfl⟩

omit [Random.Source σ] in
theorem mem_insertSession {entries : List (NodeId × Session)} {entry : NodeId × Session}
    (h : entry ∈ insertSession node s entries) : entry = (node, s) ∨ entry ∈ entries := by
  induction entries with
  | nil => exact .inl (List.mem_singleton.mp h)
  | cons head rest ih =>
    unfold insertSession at h
    split at h
    · exact List.mem_cons.mp h
    · split at h
      · exact (List.mem_cons.mp h).imp_right (List.mem_cons_of_mem _)
      · rcases List.mem_cons.mp h with rfl | h
        · exact .inr (List.mem_cons_self ..)
        · exact (ih h).imp_right (List.mem_cons_of_mem _)

omit [Random.Source σ] in
/-- What holds of every session that is put in holds of all. -/
theorem foldl_insertSession {P : NodeId → Session → Prop} {build : Setup → Session}
    (hbuild : ∀ setup, P setup.node (build setup)) (setups : List Setup)
    {entries : List (NodeId × Session)} (h : ∀ entry ∈ entries, P entry.1 entry.2) :
    ∀ entry ∈ setups.foldl
      (fun sessions setup => insertSession setup.node (build setup) sessions) entries,
      P entry.1 entry.2 := by
  induction setups generalizing entries with
  | nil => exact h
  | cons setup setups ih =>
    refine ih fun entry hentry => ?_
    rcases mem_insertSession hentry with rfl | hentry
    · exact hbuild setup
    · exact h entry hentry

omit [Random.Source σ] in
theorem mem_of_find {α : Type} {entries : List (NodeId × α)} {a : α}
    (h : Table.find node entries = some a) : (node, a) ∈ entries := by
  induction entries with
  | nil => exact nomatch h
  | cons entry rest ih =>
    unfold Table.find at h
    split at h
    · rename_i hk
      obtain rfl := Option.some.inj h
      exact hk ▸ List.mem_cons_self ..
    · exact List.mem_cons_of_mem _ (ih h)

omit [Random.Source σ] in
/-- The sessions that a simulation is built with are fresh. -/
theorem Built.entries (h : Built sim₀) : ∀ entry ∈ sim₀.sessions.entries,
    ∃ setup config, entry.2 = .fresh setup config ∧ setup.node = entry.1 := by
  obtain ⟨config, setups, random, networkRandom, h⟩ := h
  unfold ofSetups at h
  split at h
  · exact nomatch h
  · extract_lets _ sessionConfig network sessions committers miners at h
    split at h
    · exact nomatch h
    · obtain rfl := Except.ok.inj h
      show ∀ entry ∈ sessions, _
      refine foldl_insertSession
        (P := fun node s => ∃ setup config, s = Session.fresh setup config ∧ setup.node = node)
        (fun setup => ?_) setups fun _ hmem => absurd hmem List.not_mem_nil
      exact ⟨_, sessionConfig, rfl, rfl⟩

/-- Every session has come from a fresh one, under the number of its node. -/
def Populated (sim : Simulation σ) : Prop :=
  ∀ node s, sim.session? node = some s →
    ∃ setup config, setup.node = node ∧ Session.Reachable setup config s

theorem Course.populated (hbuilt : Built sim₀) (h : Course allowed sim₀ sim log) :
    Populated sim := by
  induction h with
  | nil =>
    intro node s hs
    obtain ⟨setup, config, rfl, hnode⟩ := hbuilt.entries (node, s) (mem_of_find hs)
    exact ⟨setup, config, hnode, .fresh⟩
  | snoc _ hchange ih =>
    intro n t ht
    rcases hchange.session? with ⟨-, hsame⟩ | ⟨node, s, now, event, -, hs, hnext⟩
    · exact ih n t (hsame n ▸ ht)
    · rw [hnext] at ht
      split at ht
      · rename_i hn
        subst hn
        obtain rfl := Option.some.inj ht
        obtain ⟨setup, config, hnode, hreachable⟩ := ih node s hs
        exact ⟨setup, config, hnode, hreachable.step now event⟩
      · exact ih n t ht

/-- Each turn finds a session that has come from a fresh one. -/
theorem Course.found (hbuilt : Built sim₀) (h : Course allowed sim₀ sim log) :
    ∀ t ∈ log, ∃ setup config s now, setup.node = t.node ∧ Session.Reachable setup config s ∧
      t.found = s.setTime now := by
  induction h with
  | nil => exact fun _ ht => absurd ht List.not_mem_nil
  | snoc h hchange ih =>
    intro t ht
    rcases List.mem_append.mp ht with ht | ht
    · exact ih t ht
    · rcases hchange.session? with ⟨rfl, -⟩ | ⟨node, s, now, event, rfl, hs, -⟩
      · exact absurd ht List.not_mem_nil
      · obtain rfl := List.mem_singleton.mp ht
        obtain ⟨setup, config, hnode, hreachable⟩ := h.populated hbuilt node s hs
        exact ⟨setup, config, s, now, hnode, hreachable, rfl⟩

end

-- ---------------------------------------------------------------------------
-- A couple of nodes
-- ---------------------------------------------------------------------------

/-- A network that is given node by node is built. -/
theorem built_of_ofNodes {config : SimulationConfig} {setups : List Setup}
    {sim : Simulation Random.ChaCha} (h : (ofNodes config setups).toOption = some sim) :
    Built sim := by
  refine ⟨config, setups, .ofSeed config.seed, .ofSeed config.seed, ?_⟩
  change ofNodes config setups = .ok sim
  cases hmade : ofNodes config setups with
  | error e => rw [hmade] at h; cases h
  | ok made => rw [hmade] at h; exact congrArg _ (Option.some.inj h)

def coupleConfig : SimulationConfig :=
  { SimulationConfig.usual with
    nodes := 2
    miners := 1
    blocksToMint := 0
    network := ⟨.ofMilliseconds 50, 0.0, 16⟩ }

def coupleSetups : List Setup :=
  [⟨1, .committer, [2], .standard, .usual, .empty⟩, ⟨2, .client, [1], .standard, .usual, .empty⟩]

/-- A client that sends its transactions to a committer, in chunks of 16 bytes. -/
def couple : Simulation Random.ChaCha :=
  (ofNodes coupleConfig coupleSetups).toOption.get (by decide +kernel)

theorem couple_built : Built couple := built_of_ofNodes (Option.some_get _).symm

end BlockGossip.Simulation
