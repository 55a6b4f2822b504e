import BlockGossip.Proofs.Simulation.Minings
import BlockGossip.Proofs.Simulation.Runs

/-!
# The mining schedule

A simulation knows the next mining of its schedule by the key alone, and tells
it from those that were asked for when it is taken. With one start that is
enough: a mining mints one block at most, and the schedule goes on exactly while
blocks are wanted, whoever is stopped when its turn comes
(`commanded_onSchedule`).
-/

namespace BlockGossip

namespace Random

variable {σ : Type} [Source σ]

/-- Where there is something to choose from, something is chosen. -/
theorem choose_of_ne_nil {α : Type} {xs : List α} (h : xs ≠ []) (s : σ) :
    ∃ x ∈ xs, ∃ s', choose xs s = (some x, s') := by
  have hlt : (index xs.length s).1 < xs.length := index_lt (List.length_pos_iff.mpr h) s
  refine ⟨xs[(index xs.length s).1], List.getElem_mem hlt, (index xs.length s).2, ?_⟩
  simp [choose, h, hlt]

end Random

namespace Simulation

variable {σ : Type}

-- ---------------------------------------------------------------------------
-- Commands
-- ---------------------------------------------------------------------------

/-- What the schedule is told from outside: that it begins, that a mining is
put beside it, under a key, and that it ends. -/
inductive Command where
  | start
  | mine (key : EventKey)
  | stop
deriving DecidableEq

/-- The schedule has begun, and was not ended since. -/
def Command.goes (going : Bool) : Command → Bool
  | .start => true
  | .mine _ => going
  | .stop => false

def going (commands : List Command) : Bool := commands.foldl Command.goes false

def Command.key? : Command → Option EventKey
  | .mine key => some key
  | _ => none

/-- The keys of the minings that were asked for. -/
def askedKeys (commands : List Command) : List EventKey := commands.filterMap Command.key?

@[simp] theorem going_nil : going [] = false := rfl

@[simp] theorem going_snoc (commands : List Command) (c : Command) :
    going (commands ++ [c]) = c.goes (going commands) := by
  simp [going]

@[simp] theorem askedKeys_nil : askedKeys [] = [] := rfl

@[simp] theorem askedKeys_snoc (commands : List Command) (c : Command) :
    askedKeys (commands ++ [c]) = askedKeys commands ++ c.key?.toList := by
  cases c <;> simp [askedKeys, Command.key?]

/-- The minings queued that were not asked for: those of the schedule. -/
def unasked (sim : Simulation σ) (commands : List Command) : List EventKey :=
  sim.queue.minings.filter (· ∉ askedKeys commands)

variable [Random.Source σ]

/-- What a simulation becomes, event by event, while it is started, told to mine
and stopped. What is injected into it and how far it runs is no command. -/
inductive Commanded (sim₀ : Simulation σ) : Simulation σ → List Command → Prop
  | built : Commanded sim₀ sim₀ []
  | started {sim commands} (h : Commanded sim₀ sim commands) :
    Commanded sim₀ sim.start (commands ++ [.start])
  | mineAt {sim commands} (h : Commanded sim₀ sim commands) (miner : NodeId) (time : Time) :
    Commanded sim₀ (sim.mineAt miner time)
      (commands ++ [.mine (sim.queue.schedule miner time .mine).1])
  | stopped {sim commands} (h : Commanded sim₀ sim commands) :
    Commanded sim₀ sim.stopAll (commands ++ [.stop])
  | injected {sim commands} (h : Commanded sim₀ sim commands) (node : NodeId) (time : Time)
    (event : Event) : Commanded sim₀ (sim.inject node time event) commands
  | stepped {sim sim' commands} (h : Commanded sim₀ sim commands) (limit : Time)
    (hstep : sim.step? limit = some sim') : Commanded sim₀ sim' commands
  | advanced {sim commands} (h : Commanded sim₀ sim commands) (limit : Time) :
    Commanded sim₀ { sim with queue := sim.queue.advanceTo limit } commands

variable {sim₀ sim sim' sim'' : Simulation σ} {commands : List Command} {node miner : NodeId}
  {event : Event} {cap : UInt64} {limit : Time}

theorem Commanded.runSteps (h : Commanded sim₀ sim commands) (limit : Time) (fuel : Nat) :
    Commanded sim₀ (sim.runSteps limit fuel) commands := by
  induction fuel generalizing sim with
  | zero => exact h
  | succ fuel ih =>
    rw [Simulation.runSteps]
    cases hstep : sim.step? limit with
    | none => exact h
    | some next => exact ih (h.stepped limit hstep)

/-- Running up to a time is a number of steps, and then the clock goes there. -/
theorem Commanded.runUntil (h : Commanded sim₀ sim commands) (limit : Time) :
    Commanded sim₀ (sim.runUntil limit) commands :=
  (h.runSteps limit eventLimit).advanced limit

-- ---------------------------------------------------------------------------
-- Beside the schedule
-- ---------------------------------------------------------------------------

/-- Whatever else becomes of a simulation, its schedule stays as it is. -/
structure Steady (sim sim' : Simulation σ) : Prop where
  queue : EventQueue.Spared sim.queue sim'.queue
  nextMine : sim'.nextMine = sim.nextMine
  config : sim'.config = sim.config
  miners : sim'.miners = sim.miners

/-- What becomes of a simulation is no matter of its schedule. -/
structure Beside (sim sim' : Simulation σ) : Prop extends Steady sim sim' where
  minted : sim'.blocksMinted = sim.blocksMinted

/-- A node has mined: one block was minted at most. -/
structure Mined (sim sim' : Simulation σ) : Prop extends Steady sim sim' where
  minted : sim'.blocksMinted = sim.blocksMinted ∨ sim'.blocksMinted = sim.blocksMinted + 1

namespace Beside

omit [Random.Source σ] in
/-- Only the queue changes, and leaves the minings alone. -/
theorem of_queue {q : EventQueue} (h : EventQueue.Spared sim.queue q) :
    Beside sim { sim with queue := q } := ⟨⟨h, rfl, rfl, rfl⟩, rfl⟩

omit [Random.Source σ] in
theorem refl (h : sim.queue.Issued) : Beside sim sim := .of_queue (.refl h)

omit [Random.Source σ] in
theorem trans (h : Beside sim sim') (h' : Beside sim' sim'') : Beside sim sim'' :=
  ⟨⟨h.queue.trans h'.queue, h'.nextMine.trans h.nextMine, h'.config.trans h.config,
    h'.miners.trans h.miners⟩, h'.minted.trans h.minted⟩

omit [Random.Source σ] in
/-- One after another. -/
theorem foldl {α : Type} {f : Simulation σ → α → Simulation σ}
    (hf : ∀ {sim : Simulation σ}, sim.queue.Issued → ∀ a, Beside sim (f sim a))
    (h : sim.queue.Issued) (xs : List α) : Beside sim (xs.foldl f sim) := by
  induction xs generalizing sim with
  | nil => exact .refl h
  | cons x xs ih =>
    have hfirst := hf h x
    exact hfirst.trans (ih hfirst.queue.issued)

end Beside

omit [Random.Source σ] in
theorem deliver_spared {q : EventQueue} (h : q.Issued) (ds : List Delivery) :
    EventQueue.Spared q (ds.foldl scheduleDelivery q) := by
  induction ds generalizing q with
  | nil => exact .refl h
  | cons d ds ih =>
    have hfirst := EventQueue.schedule_spared h d.receiver d.time (.bytesReceived d.sender d.bytes)
    exact hfirst.trans (ih hfirst.issued)

theorem perform_beside (h : sim.queue.Issued) (node : NodeId) (a : Action) :
    Beside sim (perform node sim a) := by
  cases a with
  | send receiver kind frame wireBytes =>
    cases hr : sim.sessions.contains receiver with
    | true =>
      rw [perform_send hr]
      exact ⟨⟨deliver_spared h _, rfl, rfl, rfl⟩, rfl⟩
    | false =>
      rw [perform_dropped hr]
      exact .refl h
  | setTimer timer after => exact .of_queue (EventQueue.setTimer_spared h node timer after)
  | cancelTimer timer => exact .of_queue (EventQueue.cancelTimer_spared h node timer)

theorem dispatch_beside (h : sim.queue.Issued) (node : NodeId) (event : Event) :
    Beside sim (sim.dispatch node event) := by
  cases hs : sim.session? node with
  | none =>
    rw [dispatch_none hs]
    exact .refl h
  | some s =>
    have hhandled : Beside sim (sim.handled node s event) := ⟨⟨.refl h, rfl, rfl, rfl⟩, rfl⟩
    rw [dispatch_some hs]
    exact hhandled.trans (.foldl (perform_beside · node ·) hhandled.queue.issued _)

theorem mine_mined (h : sim.queue.Issued) (miner : NodeId) : Mined sim (sim.mine miner) := by
  unfold mine
  dsimp only
  split
  · exact ⟨⟨.refl h, rfl, rfl, rfl⟩, .inl rfl⟩
  · split
    · have hdispatched := dispatch_beside
        (show ({ sim with
          random := (Random.word64 sim.random).2
          blocksMinted := sim.blocksMinted + 1 }).queue.Issued from h) miner
      exact ⟨⟨(hdispatched _).queue, (hdispatched _).nextMine, (hdispatched _).config,
        (hdispatched _).miners⟩, .inr (hdispatched _).minted⟩
    · exact ⟨⟨.refl h, rfl, rfl, rfl⟩, .inl rfl⟩

omit [Random.Source σ] in
theorem Mined.minted_le (h : Mined sim sim') :
    sim'.blocksMinted.toNat ≤ sim.blocksMinted.toNat + 1 := by
  rcases h.minted with heq | heq
  · rw [heq]
    exact Nat.le_succ _
  · rw [heq, UInt64.toNat_add]
    exact Nat.mod_le _ _

omit [Random.Source σ] in
theorem Mined.le_minted (h : Mined sim sim')
    (hfits : sim.blocksMinted.toNat + 1 < UInt64.size) :
    sim.blocksMinted ≤ sim'.blocksMinted := by
  rcases h.minted with heq | heq
  · rw [heq]
    exact UInt64.le_refl _
  · have hsum : (sim.blocksMinted.toNat + 1) % UInt64.size = sim.blocksMinted.toNat + 1 :=
      Nat.mod_eq_of_lt hfits
    rw [heq, UInt64.le_iff_toNat_le, UInt64.toNat_add]
    exact hsum.symm ▸ Nat.le_succ _

-- ---------------------------------------------------------------------------
-- The plan
-- ---------------------------------------------------------------------------

/-- The queue is as planned, and a next mining is missing only where the
schedule does not go on or enough blocks were minted. The count of blocks is a
word; it has gone round at the earliest when as many minings as that were asked
for. -/
structure Planned (cap : UInt64) (sim : Simulation σ) (commands : List Command) : Prop where
  queue : sim.queue.Planned cap.toNat (askedKeys commands) sim.blocksMinted.toNat sim.nextMine
  config : sim.config.blocksToMint = cap
  manned : sim.miners ≠ []
  ended : going commands = false → sim.nextMine = none
  enough : going commands = true → cap.toNat + (askedKeys commands).length < UInt64.size →
    sim.nextMine = none → cap ≤ sim.blocksMinted

namespace Planned

omit [Random.Source σ] in
theorem issued (h : Planned cap sim commands) : sim.queue.Issued := h.queue.issued

omit [Random.Source σ] in
theorem beside (h : Planned cap sim commands) (hbeside : Beside sim sim') :
    Planned cap sim' commands where
  queue := by
    rw [hbeside.minted, hbeside.nextMine]
    exact h.queue.spared hbeside.queue
  config := hbeside.config ▸ h.config
  manned := hbeside.miners ▸ h.manned
  ended := hbeside.nextMine ▸ h.ended
  enough := by
    rw [hbeside.minted, hbeside.nextMine]
    exact h.enough

/-- The next mining is scheduled, or enough blocks were minted. -/
theorem scheduleNextMine
    (h : sim.queue.Planned cap.toNat (askedKeys commands) sim.blocksMinted.toNat none)
    (hconfig : sim.config.blocksToMint = cap) (hmanned : sim.miners ≠ [])
    (hgoing : going commands = true) : Planned cap sim.scheduleNextMine commands := by
  obtain ⟨miner, -, random, hchosen⟩ := Random.choose_of_ne_nil hmanned sim.random
  unfold Simulation.scheduleNextMine
  dsimp only
  split
  · rename_i hfull
    exact ⟨h, hconfig, hmanned, fun _ => rfl, fun _ _ _ => hconfig ▸ hfull⟩
  · rename_i hwanted
    rw [hconfig, UInt64.not_le, UInt64.lt_iff_toNat_lt] at hwanted
    rw [hchosen]
    exact ⟨h.expect hwanted miner _, hconfig, hmanned,
      fun hstopped => absurd (hstopped.symm.trans hgoing) Bool.false_ne_true, nofun⟩

theorem start (h : Planned cap sim commands) (hfirst : going commands = false) :
    Planned cap sim.start (commands ++ [.start]) := by
  have hstarted : Planned cap (sim.nodes.foldl (fun sim node => sim.inject node sim.now .start) sim)
      commands :=
    h.beside (.foldl (fun h node => .of_queue (EventQueue.schedule_spared h node _ .start))
      h.issued _)
  have hqueue := hstarted.queue
  rw [hstarted.ended hfirst] at hqueue
  refine scheduleNextMine ?_ hstarted.config hstarted.manned (going_snoc ..)
  simpa [Command.key?] using hqueue

omit [Random.Source σ] in
theorem mineAt (h : Planned cap sim commands) (miner : NodeId) (time : Time) :
    Planned cap (sim.mineAt miner time)
      (commands ++ [.mine (sim.queue.schedule miner time .mine).1]) where
  queue := by
    rw [askedKeys_snoc]
    exact h.queue.ask miner time
  config := h.config
  manned := h.manned
  ended := by
    rw [going_snoc]
    exact h.ended
  enough hgoing hroom hnone := by
    simp only [going_snoc, Command.goes] at hgoing
    simp only [askedKeys_snoc, Command.key?, Option.toList_some, List.length_append,
      List.length_singleton] at hroom
    exact h.enough hgoing (by omega) hnone

theorem stopAll (h : Planned cap sim commands) : Planned cap sim.stopAll (commands ++ [.stop]) := by
  have hended : Planned cap sim.unscheduled (commands ++ [.stop]) := by
    unfold Simulation.unscheduled
    split
    · rename_i key hnext
      have hqueue := h.queue
      rw [hnext] at hqueue
      refine ⟨?_, h.config, h.manned, fun _ => rfl, by simp [Command.goes]⟩
      simpa [Command.key?] using hqueue.cancel
    · rename_i hnone
      refine ⟨?_, h.config, h.manned, fun _ => hnone, by simp [Command.goes]⟩
      simpa [Command.key?] using h.queue
  rw [stopAll_eq]
  exact hended.beside (.foldl (dispatch_beside · · .stop) hended.issued _)

/-- A mining is taken from the queue: that of the schedule is followed by the next. -/
theorem take (h : Planned cap sim commands) {key : EventKey} {queue : EventQueue}
    (hpop : sim.queue.popUntil limit = some ((key, .mine), queue)) {processed : UInt64}
    (hmined : Mined { sim with queue, eventsProcessed := processed } sim') :
    Planned cap (if sim.nextMine = some key then sim'.scheduleNextMine else sim') commands := by
  obtain ⟨hspared, hnext, hconfig, hminers⟩ := hmined.toSteady
  dsimp only at hspared hnext hconfig hminers
  have hplanned := ((h.queue.pop hpop).spared hspared).mono hmined.minted_le
  have hcap : sim'.config.blocksToMint = cap := hconfig ▸ h.config
  have hmanned : sim'.miners ≠ [] := hminers ▸ h.manned
  split
  · rename_i hscheduled
    have hgoing : going commands = true := by
      by_contra hstopped
      rw [h.ended (Bool.not_eq_true _ ▸ hstopped)] at hscheduled
      cases hscheduled
    rw [if_pos hscheduled] at hplanned
    exact scheduleNextMine hplanned hcap hmanned hgoing
  · rename_i hbeside
    rw [if_neg hbeside, ← hnext] at hplanned
    refine ⟨hplanned, hcap, hmanned, hnext ▸ h.ended, fun hgoing hroom hnone => ?_⟩
    -- What is taken is one of the minings, so the count has room for its block.
    have hbudget := h.queue.budget
    have hlength := congrArg List.length (EventQueue.popUntil_minings hpop)
    have hfits : sim.blocksMinted.toNat + 1 < UInt64.size := by
      simp only [EventQueue.miningKey?, Option.toList_some, List.length_append,
        List.length_singleton] at hlength
      omega
    exact UInt64.le_trans (h.enough hgoing hroom (hnext.symm.trans hnone)) (hmined.le_minted hfits)

theorem step (h : Planned cap sim commands) (hstep : sim.step? limit = some sim') :
    Planned cap sim' commands := by
  unfold step? at hstep
  cases hpop : sim.queue.popUntil limit with
  | none => simp [hpop] at hstep
  | some popped =>
    obtain ⟨⟨key, event⟩, queue⟩ := popped
    rw [hpop] at hstep
    obtain rfl := Option.some.inj hstep
    cases event with
    | node event =>
      have hspared := EventQueue.popUntil_spared h.issued hpop
      have htaken : Beside sim { sim with queue, eventsProcessed := sim.eventsProcessed + 1 } :=
        ⟨⟨hspared, rfl, rfl, rfl⟩, rfl⟩
      exact h.beside (htaken.trans (dispatch_beside hspared.issued key.node event))
    | mine => exact h.take hpop (mine_mined (h.queue.pop hpop).issued key.node)

end Planned

omit [Random.Source σ] in
/-- A simulation that is built has minted nothing, and has miners. -/
theorem Built.manned (h : Built sim₀) : sim₀.blocksMinted = 0 ∧ sim₀.miners ≠ [] := by
  obtain ⟨config, setups, random, networkRandom, h⟩ := h
  unfold ofSetups at h
  split at h
  · exact nomatch h
  · dsimp only at h
    split at h
    · exact nomatch h
    · rename_i hsome
      obtain rfl := Except.ok.inj h
      exact ⟨rfl, fun hnil => hsome (List.isEmpty_iff.mpr hnil)⟩

omit [Random.Source σ] in
theorem planned_built (h : Built sim₀) : Planned sim₀.config.blocksToMint sim₀ [] := by
  obtain ⟨hqueue, hnext⟩ := h.fields
  obtain ⟨hminted, hmanned⟩ := h.manned
  have hminings : sim₀.queue.minings = [] := by
    rw [hqueue]
    rfl
  refine ⟨⟨hqueue ▸ EventQueue.empty_issued, nofun, fun key => ?_, ?_⟩, rfl, hmanned,
    fun _ => hnext, nofun⟩
  · simp [hminings, hnext]
  · simp [hminings, hminted]

omit [Random.Source σ] in
/-- Before the first start the schedule does not go on. -/
theorem going_of_count (h : commands.count .start = 0) : going commands = false := by
  induction commands using List.reverseRecOn with
  | nil => rfl
  | append_singleton commands c ih =>
    rw [List.count_append, Nat.add_eq_zero_iff] at h
    cases c with
    | start => simp at h
    | mine => simpa [Command.goes] using ih h.1
    | stop => simp [Command.goes]

/-- Started once at most, a simulation keeps to the plan. -/
theorem Commanded.planned (hbuilt : Built sim₀) (h : Commanded sim₀ sim commands)
    (hone : commands.count .start ≤ 1) : Planned sim₀.config.blocksToMint sim commands := by
  induction h with
  | built => exact planned_built hbuilt
  | started _ ih =>
    rw [List.count_append, List.count_singleton_self] at hone
    exact (ih (by omega)).start (going_of_count (by omega))
  | mineAt _ miner time ih =>
    rw [List.count_append] at hone
    exact (ih (by omega)).mineAt miner time
  | stopped _ ih =>
    rw [List.count_append] at hone
    exact (ih (by omega)).stopAll
  | injected _ node time event ih =>
    have hplan := ih hone
    exact hplan.beside (.of_queue (EventQueue.schedule_spared hplan.issued node time event))
  | stepped _ _ hstep ih => exact (ih hone).step hstep
  | advanced _ limit ih =>
    have hplan := ih hone
    exact hplan.beside (.of_queue (EventQueue.advanceTo_spared hplan.issued limit))

/-- What holds of the schedule of a simulation after its commands: of the
minings queued only the next was not asked for, none is left of a schedule that
does not go on, the blocks minted are no more than those wanted and those asked
for, and a schedule that goes on ends with the blocks that were wanted, unless
so many were asked for that the count may go round. -/
structure OnSchedule (sim₀ sim : Simulation σ) (commands : List Command) : Prop where
  next : sim.unasked commands = sim.nextMine.toList
  ended : going commands = false → sim.unasked commands = []
  bounded : sim.blocksMinted.toNat ≤
    sim₀.config.blocksToMint.toNat + (askedKeys commands).length
  lasting : going commands = true →
    sim₀.config.blocksToMint.toNat + (askedKeys commands).length < UInt64.size →
      sim.unasked commands = [] → sim₀.config.blocksToMint ≤ sim.blocksMinted

/-- Started once, a simulation mines on schedule, whatever it is told besides,
whatever is drawn, and whoever is stopped when its turn to mine comes. -/
theorem commanded_onSchedule (hbuilt : Built sim₀) (h : Commanded sim₀ sim commands)
    (hone : commands.count .start ≤ 1) : OnSchedule sim₀ sim commands := by
  have hplan := h.planned hbuilt hone
  have hnext : sim.unasked commands = sim.nextMine.toList := hplan.queue.unasked
  refine ⟨hnext, fun hended => ?_, ?_, fun hgoing hroom hnone => ?_⟩
  · rw [hnext, hplan.ended hended]
    rfl
  · exact Nat.le_trans (Nat.le_add_right ..) hplan.queue.budget
  · refine hplan.enough hgoing hroom (Option.toList_eq_nil_iff.mp ?_)
    exact hnext.symm.trans hnone

/-- A couple of nodes that wants two blocks. -/
def busy : Simulation Random.ChaCha :=
  (ofNodes { coupleConfig with blocksToMint := 2 } coupleSetups).toOption.get (by decide +kernel)

/-- One block was asked for and minted before the start, which schedules the
next. Run and stopped, the couple has minted three at most and nothing is left of
its schedule. -/
theorem busy_onSchedule :
    let sim := (((busy.inject 1 0.0 .start).mineAt 1 0.0).runFirst 60.0 2).1
    let stopped := (sim.start.runUntil 60.0).stopAll
    ∃ key, sim.start.blocksMinted = 1 ∧ (sim.start.unasked [.mine key, .start]).length = 1 ∧
      stopped.unasked [.mine key, .start, .stop] = [] ∧ stopped.blocksMinted.toNat ≤ 3 := by
  intro sim stopped
  have hbuilt : Built busy := built_of_ofNodes (Option.some_get _).symm
  have hasked : Commanded busy _ _ := ((Commanded.built.injected 1 0.0 .start).mineAt 1 0.0)
  have hrun := hasked.runSteps 60.0 2
  rw [← runFirst_fst] at hrun
  have hstopped := (hrun.started.runUntil 60.0).stopped
  have hstart := commanded_onSchedule hbuilt hrun.started (by decide +kernel)
  have hstop := commanded_onSchedule hbuilt hstopped (by decide +kernel)
  have hnext : sim.start.nextMine.toList.length = 1 := by decide +kernel
  refine ⟨_, by decide +kernel, ?_, hstop.ended rfl, hstop.bounded⟩
  rw [← hnext]
  exact congrArg List.length hstart.next

end Simulation

end BlockGossip
