import BlockGossip.Proofs.Session.Synchrony
import BlockGossip.Proofs.Simulation.Runs

/-!
# The queue holds the timers that run

A timer of a session is an event of the queue, and each of the two keeps its
own account of the timers that run. The accounts agree between any two turns of
a run: the actions of a turn set none that runs and cancel none that does not,
an event that is taken ends its timer on both sides, and nothing else sets or
ends one.
-/

namespace BlockGossip

/-- When a timer is due after an action; none where it is not set. -/
def Action.dueAfter (timer : TimerId) (now : Time) (due : Option Time) : Action → Option Time
  | .setTimer other after =>
    if other = timer then some (Time.later (now + after.toSeconds) now) else due
  | .cancelTimer other => if other = timer then none else due
  | .send .. => due

/-- When a timer is due while an event is handled: one that fires is due no more. -/
def Event.spares (timer : TimerId) (due : Option Time) : Event → Option Time
  | .timerFired other => if other = timer then none else due
  | _ => due

def ScheduledEvent.fires (timer : TimerId) : ScheduledEvent → Bool
  | .node (.timerFired other) => other = timer
  | _ => false

/-- The event is no timer that fires. -/
def Event.NoFiring (event : Event) : Prop := ∀ timer, event ≠ .timerFired timer

theorem ScheduledEvent.fires_iff {timer : TimerId} {event : ScheduledEvent} :
    event.fires timer = true ↔ event = .node (.timerFired timer) := by
  cases event with
  | mine => simp [fires]
  | node event => cases event <;> simp [fires]

-- ---------------------------------------------------------------------------
-- The account of the queue
-- ---------------------------------------------------------------------------

namespace EventQueue

variable {q q' : EventQueue} {due due' : NodeId → TimerId → Option Time}
  {armed armed' : NodeId → List TimerId} {node : NodeId} {timer : TimerId} {key : EventKey}
  {event : ScheduledEvent} {limit : Time}

/-- The events of a timer that are to come. -/
def firings (q : EventQueue) (node : NodeId) (timer : TimerId) : List EventKey :=
  (q.events.toList.filter fun entry => entry.1.node = node ∧ entry.2.fires timer).map (·.1)

/-- The queue holds the timers that run, each once, at the time it is due. -/
structure Timed (q : EventQueue) (due : NodeId → TimerId → Option Time)
    (armed : NodeId → List TimerId) : Prop where
  numbered : q.Numbered
  keyed : ∀ node timer key, q.timers.get? (node, timer) = some key ↔
    key.node = node ∧ q.events[key]? = some (.node (.timerFired timer))
  due_eq : ∀ node timer, due node timer = (q.timers.get? (node, timer)).map (·.time)
  armed_iff : ∀ node timer, (q.timers.get? (node, timer)).isSome ↔ timer ∈ armed node
  distinct : ∀ node, (armed node).Nodup

namespace Timed

/-- Other events come and go, and the timers stay as they are. -/
theorem other (h : Timed q due armed) (hnumbered : q'.Numbered) (htimers : q'.timers = q.timers)
    (hevents : ∀ (key : EventKey) timer, q'.events[key]? = some (.node (.timerFired timer)) ↔
      q.events[key]? = some (.node (.timerFired timer))) : Timed q' due armed where
  numbered := hnumbered
  keyed node timer key := by rw [htimers, hevents]; exact h.keyed node timer key
  due_eq node timer := by rw [htimers]; exact h.due_eq node timer
  armed_iff node timer := by rw [htimers]; exact h.armed_iff node timer
  distinct := h.distinct

theorem congr (h : Timed q due armed) (hdue : ∀ n t, due' n t = due n t)
    (harmed : ∀ n, armed' n = armed n) : Timed q due' armed' where
  numbered := h.numbered
  keyed := h.keyed
  due_eq n t := (hdue n t).trans (h.due_eq n t)
  armed_iff n t := harmed n ▸ h.armed_iff n t
  distinct n := harmed n ▸ h.distinct n

theorem schedule (h : Timed q due armed) (node : NodeId) (time : Time)
    (hevent : ∀ timer, event ≠ .node (.timerFired timer)) :
    Timed (q.schedule node time event).2 due armed := by
  refine h.other ((schedule_evolves ..).numbered h.numbered) rfl fun key timer => ?_
  have hfresh := schedule_fresh h.numbered node time event
  rw [EventQueue.schedule, getElem?_insert]
  split
  · rename_i hk
    subst hk
    exact ⟨fun he => absurd (Option.some.inj he) (hevent timer),
      fun he => by cases hfresh.symm.trans he⟩
  · rfl

/-- Taking out an event that is no timer. -/
theorem erase (h : Timed q due armed) (key : EventKey)
    (hkey : ∀ timer, q.events[key]? ≠ some (.node (.timerFired timer))) (now : Time) :
    Timed { q with events := q.events.erase key, now } due armed := by
  refine h.other (((evolves_erase q key).of_eq rfl rfl).numbered h.numbered) rfl fun k timer => ?_
  rw [getElem?_erase]
  split
  · rename_i hk
    subst hk
    exact ⟨nofun, fun he => absurd he (hkey timer)⟩
  · rfl

theorem advanceTo (h : Timed q due armed) (time : Time) : Timed (q.advanceTo time) due armed :=
  h.other ((advanceTo_evolves q time).numbered h.numbered) (advanceTo_timers q time)
    fun _ _ => by rw [advanceTo_events]

theorem pop_other (h : Timed q due armed) (hpop : q.popUntil limit = some ((key, event), q'))
    (hevent : ∀ timer, event ≠ .node (.timerFired timer)) : Timed q' due armed := by
  have hheld := popUntil_mem hpop
  obtain ⟨-, -, rfl⟩ := popUntil_some hpop
  have herased := h.erase key
    (fun timer heq => hevent timer (Option.some.inj (hheld.symm.trans heq))) key.time
  unfold forgetTimer
  split
  · exact absurd rfl (hevent _)
  · exact herased

end Timed

theorem setTimer_of_none (h : q.timers.get? (node, timer) = none) (after : Duration) :
    (q.setTimer node timer after).events = q.events.insert
        (q.schedule node (q.now + after.toSeconds) (.node (.timerFired timer))).1
        (.node (.timerFired timer)) ∧
      (q.setTimer node timer after).timers = q.timers.insert (node, timer)
        (q.schedule node (q.now + after.toSeconds) (.node (.timerFired timer))).1 := by
  unfold setTimer
  rw [h]
  exact ⟨rfl, rfl⟩

namespace Timed

theorem isSome_of_armed (h : Timed q due armed) (hmem : timer ∈ armed node) :
    ∃ key, q.timers.get? (node, timer) = some key :=
  Option.isSome_iff_exists.mp ((h.armed_iff node timer).mpr hmem)

theorem none_of_not_armed (h : Timed q due armed) (hnot : timer ∉ armed node) :
    q.timers.get? (node, timer) = none :=
  Option.not_isSome_iff_eq_none.mp (mt (h.armed_iff node timer).mp hnot)

/-- A timer is taken off both accounts. -/
theorem drop (h : Timed q due armed) (hset : q.timers.get? (node, timer) = some key)
    (hevents : q'.events = q.events.erase key) (hsequence : q'.sequence = q.sequence)
    (htimers : q'.timers = q.timers.erase (node, timer))
    (hdue : ∀ n t, due' n t = if (node, timer) = (n, t) then none else due n t)
    (harmed : ∀ n, armed' n = if node = n then (armed n).erase timer else armed n) :
    Timed q' due' armed' where
  numbered := ((evolves_erase q key).of_eq hevents hsequence).numbered h.numbered
  keyed n t k := by
    rw [htimers, Table.get?_erase, hevents, getElem?_erase]
    obtain ⟨hnode, hheld⟩ := (h.keyed node timer key).mp hset
    by_cases hsame : (node, timer) = (n, t)
    · obtain ⟨rfl, rfl⟩ := Prod.mk.inj hsame
      rw [if_pos rfl]
      refine ⟨nofun, fun ⟨hk, he⟩ => ?_⟩
      split at he
      · exact nomatch he
      · rename_i hne
        have hother := (h.keyed node timer k).mpr ⟨hk, he⟩
        exact absurd (Option.some.inj (hset.symm.trans hother)) hne
    · rw [if_neg hsame, h.keyed n t k]
      refine and_congr_right fun hk => ?_
      split
      · rename_i hkey
        subst hkey
        refine ⟨fun he => absurd ?_ hsame, nofun⟩
        have hevent := Option.some.inj (hheld.symm.trans he)
        rw [← hk, ← hnode, Event.timerFired.inj (ScheduledEvent.node.inj hevent)]
      · rfl
  due_eq n t := by
    rw [hdue, htimers, Table.get?_erase]
    split
    · rfl
    · exact h.due_eq n t
  armed_iff n t := by
    rw [harmed, htimers, Table.get?_erase]
    by_cases hn : node = n
    · subst hn
      rw [if_pos rfl, (h.distinct node).mem_erase_iff]
      by_cases ht : timer = t
      · subst ht
        simp
      · rw [if_neg fun heq => ht (Prod.mk.inj heq).2, h.armed_iff]
        exact ⟨fun hmem => ⟨Ne.symm ht, hmem⟩, And.right⟩
    · rw [if_neg fun heq => hn (Prod.mk.inj heq).1, if_neg hn, h.armed_iff]
  distinct n := by
    rw [harmed]
    split
    · exact (h.distinct n).erase timer
    · exact h.distinct n

/-- A timer that fires was armed, and due at this time. -/
theorem fire (h : Timed q due armed)
    (hpop : q.popUntil limit = some ((key, .node (.timerFired timer)), q')) :
    timer ∈ armed key.node ∧ due key.node timer = some q'.now ∧
      Timed q' (fun n t => if (key.node, timer) = (n, t) then none else due n t)
        fun n => if key.node = n then (armed n).erase timer else armed n := by
  have hset := (h.keyed key.node timer key).mpr ⟨rfl, popUntil_mem hpop⟩
  obtain ⟨-, -, rfl⟩ := popUntil_some hpop
  refine ⟨(h.armed_iff _ _).mp (by rw [hset]; rfl), ?_, ?_⟩
  · rw [h.due_eq, hset, forgetTimer_now]
    rfl
  · refine h.drop hset forgetTimer_events forgetTimer_sequence ?_ (fun _ _ => rfl) fun _ => rfl
    unfold forgetTimer
    dsimp only
    rw [if_pos hset]

theorem cancelTimer (h : Timed q due armed) (hmem : timer ∈ armed node)
    (hdue : ∀ n t, due' n t = if (node, timer) = (n, t) then none else due n t)
    (harmed : ∀ n, armed' n = if node = n then (armed n).erase timer else armed n) :
    Timed (q.cancelTimer node timer) due' armed' := by
  obtain ⟨key, hset⟩ := h.isSome_of_armed hmem
  unfold EventQueue.cancelTimer
  rw [hset]
  exact h.drop hset rfl rfl rfl hdue harmed

theorem setTimer (h : Timed q due armed) (hnot : timer ∉ armed node) {after : Duration}
    (hdue : ∀ n t, due' n t =
      if (node, timer) = (n, t) then some (Time.later (q.now + after.toSeconds) q.now)
      else due n t)
    (harmed : ∀ n, armed' n = if node = n then armed n ++ [timer] else armed n) :
    Timed (q.setTimer node timer after) due' armed' := by
  have hnone := h.none_of_not_armed hnot
  obtain ⟨hevents, htimers⟩ := setTimer_of_none hnone after
  have hfresh := schedule_fresh h.numbered node (q.now + after.toSeconds)
    (.node (.timerFired timer))
  generalize hkey : (q.schedule node (q.now + after.toSeconds) (.node (.timerFired timer))).1 = key
    at hevents htimers hfresh
  have hnode : key.node = node := hkey ▸ rfl
  have htime : key.time = Time.later (q.now + after.toSeconds) q.now := hkey ▸ rfl
  refine ⟨(setTimer_evolves q node timer after).numbered h.numbered, fun n t k => ?_,
    fun n t => ?_, fun n t => ?_, fun n => ?_⟩
  · rw [htimers, Table.get?_insert, hevents, getElem?_insert]
    by_cases hsame : (node, timer) = (n, t)
    · obtain ⟨rfl, rfl⟩ := Prod.mk.inj hsame
      rw [if_pos rfl]
      refine ⟨fun heq => ?_, fun ⟨hk, he⟩ => ?_⟩
      · obtain rfl := Option.some.inj heq
        exact ⟨hnode, if_pos rfl⟩
      · split at he
        · rename_i heq
          rw [heq]
        · exact nomatch hnone.symm.trans ((h.keyed node timer k).mpr ⟨hk, he⟩)
    · rw [if_neg hsame, h.keyed n t k]
      refine and_congr_right fun hk => ?_
      split
      · rename_i heq
        subst heq
        refine ⟨fun he => (nomatch hfresh.symm.trans he), fun he => absurd ?_ hsame⟩
        rw [← hk, hnode, Event.timerFired.inj (ScheduledEvent.node.inj (Option.some.inj he))]
      · rfl
  · rw [hdue, htimers, Table.get?_insert]
    split
    · exact congrArg some htime.symm
    · exact h.due_eq n t
  · rw [harmed, htimers, Table.get?_insert]
    by_cases hn : node = n
    · subst hn
      by_cases ht : timer = t
      · subst ht
        simp
      · simp [ht, Ne.symm ht, h.armed_iff]
    · simp [hn, h.armed_iff]
  · rw [harmed]
    split
    · rename_i hn
      subst hn
      exact (h.distinct node).append (List.nodup_singleton timer)
        (List.disjoint_singleton.mpr hnot)
    · exact h.distinct n

end Timed

end EventQueue

namespace Simulation

variable {σ : Type}

/-- The timers that the session of a node has; none where it is not here. -/
def armedAt (sim : Simulation σ) (node : NodeId) : List TimerId :=
  match sim.session? node with
  | none => []
  | some session => session.armed

/-- When a timer of a node is due after a turn. -/
def Turn.dueAfter (node : NodeId) (timer : TimerId) (due : Option Time) (t : Turn) : Option Time :=
  if t.node = node then
    t.actions.foldl (Action.dueAfter timer t.found.now) (t.event.spares timer due)
  else due

/-- When a timer of a node is due, by the record of the turns alone: it is as
the last action that sets it says, unless it was cancelled or has fired since. -/
def dueAt (log : List Turn) (node : NodeId) (timer : TimerId) : Option Time :=
  log.foldl (Turn.dueAfter node timer) none

theorem dueAt_snoc (log : List Turn) (t : Turn) (node : NodeId) (timer : TimerId) :
    dueAt (log ++ [t]) node timer = t.dueAfter node timer (dueAt log node timer) := by
  rw [dueAt, List.foldl_append]
  rfl

variable [Random.Source σ] {sim sim₀ sim' : Simulation σ} {node : NodeId} {log turns : List Turn}
  {due due' : NodeId → TimerId → Option Time} {armed armed' : NodeId → List TimerId}
  {a : Action} {actions : List Action} {l l' : List TimerId} {s : Session} {event : Event}

-- ---------------------------------------------------------------------------
-- Actions
-- ---------------------------------------------------------------------------

omit [Random.Source σ] in
theorem scheduleDelivery_timed {q : EventQueue} (h : q.Timed due armed) (ds : List Delivery) :
    (ds.foldl scheduleDelivery q).Timed due armed := by
  induction ds generalizing q with
  | nil => exact h
  | cons d ds ih => exact ih (h.schedule d.receiver d.time nofun)

/-- An action is carried out on both accounts. -/
theorem perform_timed (h : sim.queue.Timed due armed)
    (hreplay : replayAction (armed node) a = some l) :
    (perform node sim a).queue.Timed
      (fun n t => if node = n then a.dueAfter t sim.now (due n t) else due n t)
      fun n => if node = n then l else armed n := by
  cases a with
  | send receiver kind frame wireBytes =>
    obtain rfl := Option.some.inj hreplay
    have hsent :
        (perform node sim (.send receiver kind frame wireBytes)).queue.Timed due armed := by
      cases hr : sim.sessions.contains receiver with
      | true =>
        rw [perform_send hr]
        exact scheduleDelivery_timed h _
      | false =>
        rw [perform_dropped hr]
        exact h
    refine hsent.congr (fun n t => ?_) fun n => ?_
    · split <;> rfl
    · split
      · rename_i hn
        rw [hn]
      · rfl
  | setTimer timer after =>
    rw [replayAction] at hreplay
    split at hreplay
    · cases hreplay
    · rename_i hnot
      obtain rfl := Option.some.inj hreplay
      refine h.setTimer hnot (fun n t => ?_) fun n => ?_
      · by_cases hn : node = n
        · simp only [hn, Action.dueAfter, Prod.mk.injEq, true_and, if_true]
          rfl
        · simp [hn]
      · split
        · rename_i hn
          rw [hn]
        · rfl
  | cancelTimer timer =>
    rw [replayAction] at hreplay
    split at hreplay
    · rename_i hmem
      obtain rfl := Option.some.inj hreplay
      refine h.cancelTimer hmem (fun n t => ?_) fun n => ?_
      · by_cases hn : node = n
        · simp only [hn, Action.dueAfter, Prod.mk.injEq, true_and, if_true]
        · simp [hn]
      · split
        · rename_i hn
          rw [hn]
        · rfl
    · cases hreplay

theorem performAll_timed (h : sim.queue.Timed due armed)
    (hreplay : actions.foldlM replayAction (armed node) = some l) :
    (actions.foldl (perform node) sim).queue.Timed
      (fun n t => if node = n then actions.foldl (Action.dueAfter t sim.now) (due n t) else due n t)
      fun n => if node = n then l else armed n := by
  induction actions generalizing sim due armed with
  | nil =>
    obtain rfl := Option.some.inj hreplay
    refine h.congr (fun n t => ?_) fun n => ?_
    · split <;> rfl
    · split
      · rename_i hn
        rw [hn]
      · rfl
  | cons a actions ih =>
    rw [List.foldlM_cons, Option.bind_eq_bind, Option.bind_eq_some_iff] at hreplay
    obtain ⟨l₁, ha, hrest⟩ := hreplay
    refine (ih (perform_timed h ha) ?_).congr (fun n t => ?_) fun n => ?_
    · rw [if_pos rfl]
      exact hrest
    · rw [perform_now]
      split <;> rfl
    · split <;> rfl

-- ---------------------------------------------------------------------------
-- Turns
-- ---------------------------------------------------------------------------

omit [Random.Source σ] in
theorem armedAt_some (h : sim.session? node = some s) : sim.armedAt node = s.armed := by
  unfold armedAt
  rw [h]

/-- A session handles an event, and both accounts follow its answer. -/
theorem dispatch_timed (hpopulated : Populated sim) (hs : sim.session? node = some s)
    (h : sim.queue.Timed
      (fun n t => if node = n then event.spares t (dueAt log n t) else dueAt log n t)
      fun n => if node = n then event.leaves (sim.armedAt n) else sim.armedAt n) :
    (sim.dispatch node event).queue.Timed (dueAt (log ++ sim.turns node event))
      (sim.dispatch node event).armedAt := by
  obtain ⟨setup, config, -, hreachable⟩ := hpopulated node s hs
  have hreplay : (s.answer sim.now event).foldlM replayAction
      (if node = node then event.leaves (sim.armedAt node) else sim.armedAt node) =
        some (s.after sim.now event).armed := by
    rw [if_pos rfl, armedAt_some hs]
    exact hreachable.replayed sim.now event
  have hhandled : (sim.handled node s event).queue.Timed _ _ := h
  have hperformed := performAll_timed hhandled hreplay
  rw [← dispatch_some hs] at hperformed
  rw [turns_some hs]
  refine hperformed.congr (fun n t => ?_) fun n => ?_
  · rw [dueAt_snoc, Turn.dueAfter]
    by_cases hn : node = n
    · simp only [hn, if_true]
      rfl
    · simp only [hn, if_false]
  · unfold armedAt
    rw [dispatch_session? hs]
    by_cases hn : node = n
    · simp only [hn, if_true]
    · simp only [hn, if_false]

/-- Both accounts agree after the turns so far. -/
def Accounted (sim : Simulation σ) (log : List Turn) : Prop :=
  sim.queue.Timed (dueAt log) sim.armedAt

/-- An event that is no timer ends none. -/
theorem Accounted.dispatch (h : sim.Accounted log) (hpopulated : Populated sim)
    (hevent : event.NoFiring) :
    (sim.dispatch node event).Accounted (log ++ sim.turns node event) := by
  cases hs : sim.session? node with
  | none =>
    rw [dispatch_none hs, turns_none hs, List.append_nil]
    exact h
  | some s =>
    refine dispatch_timed hpopulated hs (h.congr (fun n t => ?_) fun n => ?_)
    · cases event with
      | timerFired timer => exact absurd rfl (hevent timer)
      | _ => exact ite_self _
    · cases event with
      | timerFired timer => exact absurd rfl (hevent timer)
      | _ => exact ite_self _

/-- Every timer that has fired was one that its session had armed, due at that
time by what the turns before it say. -/
def Heeded (log : List Turn) : Prop :=
  ∀ before t after timer, log = before ++ t :: after → t.event = .timerFired timer →
    t.found.running = true ∧ timer ∈ t.found.armed ∧
      dueAt before t.node timer = some t.found.now

theorem split_snoc {α : Type} {xs before after : List α} {x y : α}
    (h : xs ++ [y] = before ++ x :: after) :
    before = xs ∧ x = y ∨ ∃ rest, xs = before ++ x :: rest := by
  rcases List.eq_nil_or_concat after with rfl | ⟨rest, z, rfl⟩
  · obtain ⟨hxs, hx⟩ := List.append_inj' h rfl
    exact .inl ⟨hxs.symm, (List.singleton_inj.mp hx).symm⟩
  · rw [List.concat_eq_append, ← List.cons_append, ← List.append_assoc] at h
    exact .inr ⟨rest, (List.append_inj' h rfl).1⟩

theorem Heeded.snoc {t : Turn} (h : Heeded log)
    (ht : ∀ timer, t.event = .timerFired timer → t.found.running = true ∧
      timer ∈ t.found.armed ∧ dueAt log t.node timer = some t.found.now) :
    Heeded (log ++ [t]) := by
  intro before u after timer hsplit hu
  rcases split_snoc hsplit with ⟨rfl, rfl⟩ | ⟨rest, hrest⟩
  · exact ht timer hu
  · exact h before u rest timer hrest hu

/-- A timer that fires is one that its session has armed. -/
theorem Accounted.fire (h : sim.Accounted log) (hpopulated : Populated sim) {limit : Time}
    {key : EventKey} {timer : TimerId} {queue : EventQueue}
    (hpop : sim.queue.popUntil limit = some ((key, .node (.timerFired timer)), queue)) :
    ∃ s, sim.session? key.node = some s ∧ s.running = true ∧ timer ∈ s.armed ∧
      dueAt log key.node timer = some queue.now ∧
      ({ sim with queue }.dispatch key.node (.timerFired timer)).Accounted
        (log ++ { sim with queue }.turns key.node (.timerFired timer)) := by
  obtain ⟨harmed, hdue, hfired⟩ := EventQueue.Timed.fire h hpop
  cases hs : sim.session? key.node with
  | none =>
    unfold armedAt at harmed
    rw [hs] at harmed
    exact absurd harmed List.not_mem_nil
  | some s =>
    rw [armedAt_some hs] at harmed
    obtain ⟨setup, config, -, hreachable⟩ := hpopulated key.node s hs
    refine ⟨s, rfl, Session.running_of_armed hreachable.resting harmed, harmed, hdue, ?_⟩
    have hpopped : Populated { sim with queue } := hpopulated
    refine dispatch_timed hpopped hs (hfired.congr (fun n t => ?_) fun n => rfl)
    by_cases hn : key.node = n
    · simp only [hn, Prod.mk.injEq, true_and, if_true]
      rfl
    · simp [hn]

omit [Random.Source σ] in
theorem turns_heeded {sim : Simulation σ} (hheeded : Heeded log) (hevent : event.NoFiring) :
    Heeded (log ++ sim.turns node event) := by
  cases hs : sim.session? node with
  | none =>
    rw [turns_none hs, List.append_nil]
    exact hheeded
  | some s =>
    rw [turns_some hs]
    exact hheeded.snoc fun timer heq => absurd heq (hevent timer)

theorem Change.accounted (h : Change Event.NoFiring sim sim' turns) (hpopulated : Populated sim)
    (haccounted : sim.Accounted log) (hheeded : Heeded log) :
    sim'.Accounted (log ++ turns) ∧ Heeded (log ++ turns) := by
  cases h with
  | aside hqueue hsessions =>
    rw [List.append_nil]
    unfold Accounted armedAt Simulation.session?
    rw [hqueue, hsessions]
    exact ⟨haccounted, hheeded⟩
  | scheduled node time event hevent =>
    rw [List.append_nil]
    refine ⟨haccounted.schedule node time fun timer heq => ?_, hheeded⟩
    rcases hevent _ heq with hstart | hallowed
    · exact nomatch hstart
    · exact hallowed timer rfl
  | taken hpop =>
    rw [List.append_nil]
    exact ⟨haccounted.pop_other hpop nofun, hheeded⟩
  | @given limit key event queue hpop =>
    by_cases hfires : ∃ timer, event = .timerFired timer
    · obtain ⟨timer, rfl⟩ := hfires
      obtain ⟨s, hs, hr, harmed, hdue, hnext⟩ := haccounted.fire hpopulated hpop
      refine ⟨hnext, ?_⟩
      have hpopped : ({ sim with queue }).session? key.node = some s := hs
      rw [turns_some hpopped]
      refine hheeded.snoc fun other heq => ?_
      obtain rfl := Event.timerFired.inj heq
      exact ⟨hr, harmed, hdue⟩
    · have hevent : event.NoFiring := fun timer heq => hfires ⟨timer, heq⟩
      have hpopped : Accounted { sim with queue } log :=
        haccounted.pop_other hpop fun timer heq => hevent timer (ScheduledEvent.node.inj heq)
      exact ⟨hpopped.dispatch hpopulated hevent, turns_heeded hheeded hevent⟩
  | @called node event hevent =>
    have hno : event.NoFiring := fun timer heq => by
      rcases hevent with rfl | ⟨b, rfl⟩
      · exact nomatch heq
      · exact nomatch heq
    exact ⟨haccounted.dispatch hpopulated hno, turns_heeded hheeded hno⟩
  | advanced =>
    rw [List.append_nil]
    exact ⟨haccounted.advanceTo _, hheeded⟩
  | @cancelled key hkey =>
    rw [List.append_nil]
    exact ⟨haccounted.erase key (fun timer heq => nomatch hkey _ heq) sim.queue.now, hheeded⟩

omit [Random.Source σ] in
theorem Built.accounted (h : Built sim₀) : sim₀.Accounted [] := by
  have hqueue := h.fields.1
  have harmed (node : NodeId) : sim₀.armedAt node = [] := by
    unfold armedAt
    cases hs : sim₀.session? node with
    | none => rfl
    | some s =>
      obtain ⟨setup, config, hfresh, -⟩ := h.entries (node, s) (mem_of_find hs)
      exact congrArg Session.armed hfresh
  refine ⟨hqueue ▸ EventQueue.empty_numbered, fun node timer key => ?_, fun node timer => ?_,
    fun node timer => ?_, fun node => ?_⟩
  · rw [hqueue]
    simp [EventQueue.empty]
  · rw [hqueue]
    rfl
  · rw [hqueue, harmed]
    simp [EventQueue.empty]
  · rw [harmed]
    exact List.nodup_nil

theorem Course.accounted (hbuilt : Built sim₀) (h : Course Event.NoFiring sim₀ sim log) :
    sim.Accounted log ∧ Heeded log := by
  induction h with
  | nil => exact ⟨hbuilt.accounted, fun before t after timer h => by simp at h⟩
  | snoc h hchange ih => exact hchange.accounted (h.populated hbuilt) ih.1 ih.2

end Simulation

-- ---------------------------------------------------------------------------
-- Agreement
-- ---------------------------------------------------------------------------

namespace EventQueue

variable {q : EventQueue} {due : NodeId → TimerId → Option Time}
  {armed : NodeId → List TimerId} {node : NodeId} {timer : TimerId}

theorem Timed.isArmed_iff (h : Timed q due armed) :
    q.isArmed node timer = true ↔ timer ∈ armed node := h.armed_iff node timer

/-- A timer that runs is one event of the queue, and one that does not is none. -/
theorem Timed.firings_length (h : Timed q due armed) (node : NodeId) (timer : TimerId) :
    (q.firings node timer).length = if timer ∈ armed node then 1 else 0 := by
  have hmem (k : EventKey) (e : ScheduledEvent) :
      (k, e) ∈ (q.events.toList.filter fun entry => entry.1.node = node ∧ entry.2.fires timer) ↔
        q.timers.get? (node, timer) = some k ∧ e = .node (.timerFired timer) := by
    rw [List.mem_filter, Std.TreeMap.mem_toList_iff_getElem?_eq_some, decide_eq_true_iff,
      ScheduledEvent.fires_iff, h.keyed]
    constructor
    · rintro ⟨hheld, hnode, rfl⟩
      exact ⟨⟨hnode, hheld⟩, rfl⟩
    · rintro ⟨⟨hnode, hheld⟩, rfl⟩
      exact ⟨hheld, hnode, rfl⟩
  unfold firings
  rw [List.length_map]
  split
  · rename_i harmed
    obtain ⟨key, hset⟩ := h.isSome_of_armed harmed
    have hone : (q.events.toList.filter fun entry => entry.1.node = node ∧ entry.2.fires timer) =
        [(key, .node (.timerFired timer))] := by
      refine (Std.TreeMap.ordered_keys_toList.filter _).eq_of_mem_iff
        (List.pairwise_singleton ..) fun (k, e) => ?_
      rw [hmem, hset, List.mem_singleton, Option.some_inj, Prod.mk.injEq]
      exact and_congr_left fun _ => eq_comm
    rw [hone]
    rfl
  · rename_i hnot
    rw [List.length_eq_zero_iff, List.eq_nil_iff_forall_not_mem]
    intro (k, e) hin
    exact nomatch (h.none_of_not_armed hnot).symm.trans ((hmem k e).mp hin).1

end EventQueue

namespace Simulation

variable {σ : Type} [Random.Source σ] {sim sim₀ : Simulation σ} {log : List Turn} {node : NodeId}

/-- A node that is stopped, or was stopped already, does not run. -/
theorem stopNodes_running (nodes : List NodeId) {s : Session}
    (hnode : node ∈ nodes ∨ ∀ t, sim.session? node = some t → t.running = false)
    (hs : (nodes.foldl (fun sim node => sim.dispatch node .stop) sim).session? node = some s) :
    s.running = false := by
  induction nodes generalizing sim with
  | nil => exact hnode.resolve_left List.not_mem_nil s hs
  | cons n nodes ih =>
    refine ih ?_ hs
    by_cases hn : n = node
    · subst hn
      refine .inr fun t (ht : (sim.dispatch n .stop).session? n = some t) => ?_
      cases hold : sim.session? n with
      | none =>
        rw [dispatch_none hold] at ht
        exact nomatch hold.symm.trans ht
      | some u =>
        rw [dispatch_session? hold, if_pos rfl] at ht
        exact Option.some.inj ht ▸ (Session.stopped_after u sim.now).running
    · refine hnode.imp (fun hmem => (List.mem_cons.mp hmem).resolve_left (Ne.symm hn))
        fun hstopped t (ht : (sim.dispatch n .stop).session? node = some t) => ?_
      cases hold : sim.session? n with
      | none =>
        rw [dispatch_none hold] at ht
        exact hstopped t ht
      | some u =>
        rw [dispatch_session? hold, if_neg hn] at ht
        exact hstopped t ht

theorem stopAll_running {s : Session} (hs : sim.stopAll.session? node = some s) :
    s.running = false := by
  rw [stopAll_eq] at hs
  have hsame : sim.unscheduled.session? node = sim.session? node := by
    unfold unscheduled
    split <;> rfl
  refine stopNodes_running sim.nodes ?_ hs
  rw [hsame]
  cases hold : sim.session? node with
  | none => exact .inr fun t ht => nomatch ht
  | some t => exact .inl (List.mem_map.mpr ⟨(node, t), mem_of_find hold, rfl⟩)

/-- Scheduler and sessions agree on the timers between any two turns of a run
that is given no timers from outside: the queue has a timer armed exactly if
its session has, and then holds one event of it, else none. So each timer that
is dispatched is one that its session has armed, and it comes at the time that
its last setting says, never after it was cancelled or replaced. When all nodes
have been stopped, no timer is left. -/
theorem driven_timers (hbuilt : Built sim₀) (h : Driven Event.NoFiring sim₀ sim log) :
    (∀ node timer, sim.queue.isArmed node timer = true ↔ timer ∈ sim.armedAt node) ∧
      (∀ node timer, (sim.queue.firings node timer).length =
        if timer ∈ sim.armedAt node then 1 else 0) ∧
      (∀ before t after timer, log = before ++ t :: after → t.event = .timerFired timer →
        t.found.running = true ∧ timer ∈ t.found.armed ∧
          dueAt before t.node timer = some t.found.now) ∧
      ∀ node timer, sim.stopAll.queue.firings node timer = [] := by
  obtain ⟨haccounted, hheeded⟩ := (h.ordered hbuilt).course.accounted hbuilt
  refine ⟨fun node timer => haccounted.isArmed_iff, haccounted.firings_length, hheeded,
    fun node timer => ?_⟩
  obtain ⟨more, hstopped⟩ := h.stopAll
  have hcourse := (hstopped.ordered hbuilt).course
  have hnone : sim.stopAll.armedAt node = [] := by
    unfold armedAt
    cases hs : sim.stopAll.session? node with
    | none => rfl
    | some s =>
      obtain ⟨setup, config, -, hreachable⟩ := hcourse.populated hbuilt node s hs
      exact (hreachable.resting (stopAll_running hs)).armed
  have hlength := (hcourse.accounted hbuilt).1.firings_length node timer
  rw [hnone, if_neg List.not_mem_nil] at hlength
  exact List.eq_nil_of_length_eq_zero hlength

/-- The client of a couple of nodes has fired the timer of its first transaction
and armed that of the next. -/
theorem couple_timers :
    let sim := (couple.start.runFirst 60.0 3).1
    Driven Event.NoFiring couple sim (couple.start.runFirst 60.0 3).2 ∧
      .nextTransaction ∈ sim.armedAt 2 ∧ sim.queue.isArmed 2 .nextTransaction = true ∧
      (sim.queue.firings 2 .nextTransaction).length = 1 ∧
      sim.stopAll.queue.firings 2 .nextTransaction = [] := by
  intro sim
  have hdriven : Driven Event.NoFiring couple sim _ := Driven.startFirst _ couple 60.0 3
  have harmed : .nextTransaction ∈ sim.armedAt 2 := by decide +kernel
  obtain ⟨hagree, hone, -, hstopped⟩ := driven_timers couple_built hdriven
  exact ⟨hdriven, harmed, (hagree 2 _).mpr harmed, by rw [hone, if_pos harmed], hstopped 2 _⟩

end Simulation

end BlockGossip
