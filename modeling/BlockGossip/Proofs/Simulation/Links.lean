import BlockGossip.Proofs.Session.Cutting
import BlockGossip.Proofs.Session.Sends
import BlockGossip.Proofs.Simulation.Runs
import BlockGossip.Proofs.Time.Sums

/-!
# A link is a stream of bytes

The chunks of the frames that one node sends another are events of the
receiver. None is scheduled before the one that was scheduled before it, and
events of one time keep the order in which they were scheduled; so the chunks
are taken in the order of the frames. What was sent over a link is at any time
what has arrived and what is still in the queue.
-/

namespace BlockGossip

open Time (rank later)

theorem flatten_chunksOf {size : Nat} (hsize : 0 < size) {fuel : Nat} {bs : Bytes}
    (hfuel : bs.length ≤ fuel) : (chunksOf size fuel bs).flatten = bs := by
  induction fuel generalizing bs with
  | zero =>
    obtain rfl := List.eq_nil_of_length_eq_zero (Nat.le_zero.mp hfuel)
    rfl
  | succ fuel ih =>
    cases bs with
    | nil => rfl
    | cons b bs =>
      rw [chunksOf, List.flatten_cons, ih, List.take_append_drop]
      rw [List.length_drop, List.length_cons]
      rw [List.length_cons] at hfuel
      omega

/-- The bytes that come from a peer. -/
def Event.bytesFrom? (sender : NodeId) : Event → Option Bytes
  | .bytesReceived peer bytes => if peer = sender then some bytes else none
  | _ => none

/-- The event brings no bytes. -/
def Event.NoBytes (event : Event) : Prop := ∀ sender bytes, event ≠ .bytesReceived sender bytes

theorem Event.NoBytes.bytesFrom? {event : Event} (h : event.NoBytes) (sender : NodeId) :
    event.bytesFrom? sender = none := by
  cases event with
  | bytesReceived peer bytes => exact absurd rfl (h peer bytes)
  | _ => rfl

/-- The chunk that an entry of the queue delivers over a link. -/
def chunk? (link : Link) (entry : EventKey × ScheduledEvent) : Option Bytes :=
  match entry.2 with
  | .node event => if entry.1.node = link.2 then event.bytesFrom? link.1 else none
  | .mine => none

-- ---------------------------------------------------------------------------
-- The chunks in the queue
-- ---------------------------------------------------------------------------

namespace EventQueue

variable {q q' q'' : EventQueue} {link : Link} {last limit : Time} {key : EventKey}
  {event : ScheduledEvent} {node : NodeId}

/-- The chunks of a link that are to come, in order. -/
def chunksOn (q : EventQueue) (link : Link) : List Bytes := q.events.toList.filterMap (chunk? link)

/-- No event is before the clock, but for a zero and a minus zero; keys of
timers are those of no other events; and no chunk of the link is behind the
last arrival or the clock, whichever is later. -/
structure Carries (q : EventQueue) (link : Link) (last : Time) : Prop where
  numbered : q.Numbered
  now_isNaN : q.now.isNaN = false
  keyed : ∀ (key : EventKey) event, q.events[key]? = some event →
    key.time.isNaN = false ∧ rank q.now ≤ max 0 (rank key.time)
  timed : ∀ owner (key : EventKey), q.timers.get? owner = some key →
    key.sequence ≤ q.sequence ∧
      ∀ event, q.events[key]? = some event → ∃ timer, event = .node (.timerFired timer)
  last_isNaN : last.isNaN = false
  last_rank : 0 ≤ rank last
  bounded : ∀ (key : EventKey) event, q.events[key]? = some event →
    (chunk? link (key, event)).isSome → rank key.time ≤ max (rank last) (rank q.now)

/-- The queue goes on to carry what it carries on the link. -/
def Leaves (link : Link) (q q' : EventQueue) : Prop :=
  ∀ last, q.Carries link last → q'.Carries link last ∧ q'.chunksOn link = q.chunksOn link

theorem Leaves.refl (q : EventQueue) : Leaves link q q := fun _ h => ⟨h, rfl⟩

theorem Leaves.trans (h : Leaves link q q') (h' : Leaves link q' q'') : Leaves link q q'' := by
  intro last hq
  obtain ⟨hmid, heq⟩ := h last hq
  obtain ⟨hlast, heq'⟩ := h' last hmid
  exact ⟨hlast, heq'.trans heq⟩

theorem empty_carries (link : Link) : empty.Carries link 0.0 where
  numbered := empty_numbered
  now_isNaN := by decide +kernel
  keyed key event h := absurd h (by simp [empty])
  timed owner key h := nomatch h
  last_isNaN := by decide +kernel
  last_rank := by decide +kernel
  bounded key event h := absurd h (by simp [empty])

namespace Carries

/-- Once an event is scheduled, a bound on the chunks is all there is to show. -/
theorem scheduled (h : q.Carries link last) (node : NodeId) (time : Time) {last' : Time}
    (hlast : last'.isNaN = false) (hrank : 0 ≤ rank last')
    (hbounded : ∀ (k : EventKey) e, (q.schedule node time event).2.events[k]? = some e →
      (chunk? link (k, e)).isSome → rank k.time ≤ max (rank last') (rank q.now)) :
    (q.schedule node time event).2.Carries link last' where
  numbered := (schedule_evolves ..).numbered h.numbered
  now_isNaN := h.now_isNaN
  keyed k e he := by
    rw [EventQueue.schedule, getElem?_insert] at he
    split at he
    · rename_i hk
      subst hk
      exact ⟨Time.later_isNaN h.now_isNaN, Time.rank_le_max_rank_later h.now_isNaN⟩
    · exact h.keyed k e he
  timed owner k hk := by
    obtain ⟨hle, hevent⟩ := h.timed owner k hk
    refine ⟨Nat.le_succ_of_le hle, fun e he => ?_⟩
    rw [EventQueue.schedule, getElem?_insert] at he
    split at he
    · rename_i hsame
      subst hsame
      exact absurd hle (Nat.not_succ_le_self _)
    · exact hevent e he
  last_isNaN := hlast
  last_rank := hrank
  bounded := hbounded

theorem erase (h : q.Carries link last) (key : EventKey)
    (hkey : ∀ e, q.events[key]? = some e → chunk? link (key, e) = none) :
    Carries { q with events := q.events.erase key } link last ∧
      chunksOn { q with events := q.events.erase key } link = q.chunksOn link := by
  have hheld (k : EventKey) (e : ScheduledEvent) (he : (q.events.erase key)[k]? = some e) :
      q.events[k]? = some e := by
    rw [getElem?_erase] at he
    split at he
    · exact nomatch he
    · exact he
  refine ⟨?_, filterMap_erase_other hkey⟩
  exact {
    numbered := (evolves_erase q key).numbered h.numbered
    now_isNaN := h.now_isNaN
    keyed := fun k e he => h.keyed k e (hheld k e he)
    timed := fun owner k hk =>
      ⟨(h.timed owner k hk).1, fun e he => (h.timed owner k hk).2 e (hheld k e he)⟩
    last_isNaN := h.last_isNaN
    last_rank := h.last_rank
    bounded := fun k e he => h.bounded k e (hheld k e he) }

/-- The timers that are known may be forgotten. -/
theorem forget (h : q.Carries link last) (hevents : q'.events = q.events)
    (hsequence : q'.sequence = q.sequence) (hnow : q'.now = q.now)
    (htimers : ∀ owner (key : EventKey), q'.timers.get? owner = some key →
      q.timers.get? owner = some key) :
    q'.Carries link last where
  numbered k e he := hsequence ▸ h.numbered k e (hevents ▸ he)
  now_isNaN := hnow ▸ h.now_isNaN
  keyed k e he := hnow ▸ h.keyed k e (hevents ▸ he)
  timed owner k hk := by
    rw [hsequence, hevents]
    exact h.timed owner k (htimers owner k hk)
  last_isNaN := h.last_isNaN
  last_rank := h.last_rank
  bounded k e he := hnow ▸ h.bounded k e (hevents ▸ he)

/-- A chunk is scheduled behind all others of its link. -/
theorem deliver (h : q.Carries link last) {share : Time} (hshare : rank share ≠ -1)
    (chunk : Bytes) :
    (q.schedule link.2 (later share last) (.node (.bytesReceived link.1 chunk))).2.Carries link
        (later share last) ∧
      (q.schedule link.2 (later share last)
          (.node (.bytesReceived link.1 chunk))).2.chunksOn link =
        q.chunksOn link ++ [chunk] := by
  have hle := Time.rank_le_rank_later h.last_isNaN hshare
  have hlast : (later share last).isNaN = false := Time.later_isNaN h.last_isNaN
  have hpositive := h.last_rank
  have htime := Time.rank_later hlast h.now_isNaN (by omega)
  have hsome : chunk? link ((q.schedule link.2 (later share last)
      (.node (.bytesReceived link.1 chunk))).1, .node (.bytesReceived link.1 chunk)) =
      some chunk := by
    simp [chunk?, EventQueue.schedule, Event.bytesFrom?]
  refine ⟨h.scheduled link.2 (later share last) hlast (by omega) fun k e he hk => ?_,
    filterMap_insert_last
      (schedule_fresh h.numbered link.2 _ (.node (.bytesReceived link.1 chunk))) hsome ?_⟩
  · rw [EventQueue.schedule, getElem?_insert] at he
    split at he
    · rename_i hsame
      subst hsame
      exact Int.le_of_eq htime
    · have := h.bounded k e he hk
      omega
  · rintro ⟨k, e⟩ hmem hk
    have he := Std.TreeMap.mem_toList_iff_getElem?_eq_some.mp hmem
    have hnode : k.node = link.2 := by
      unfold chunk? at hk
      cases e with
      | mine => cases hk
      | node event =>
        by_contra hne
        simp [hne] at hk
    have hbound := h.bounded k e he hk
    have hnumber := h.numbered k e he
    refine (EventKey.lt_of_node_eq hnode).mpr ?_
    show rank k.time < rank (later (later share last) q.now) ∨
      rank k.time = rank (later (later share last) q.now) ∧ k.sequence < q.sequence + 1
    omega

end Carries

theorem schedule_leaves (node : NodeId) (time : Time) (event : ScheduledEvent)
    (hnone : ∀ key, key.node = node → chunk? link (key, event) = none) :
    Leaves link q (q.schedule node time event).2 := by
  intro last h
  refine ⟨h.scheduled node time h.last_isNaN h.last_rank fun k e he hk => ?_,
    filterMap_insert_other (schedule_fresh h.numbered node time event) (hnone _ rfl)⟩
  rw [EventQueue.schedule, getElem?_insert] at he
  split at he
  · rename_i hsame
    subst hsame
    obtain rfl := Option.some.inj he
    rw [hnone _ rfl] at hk
    cases hk
  · exact h.bounded k e he hk

theorem unset_leaves (node : NodeId) (timer : TimerId) : Leaves link q (q.unset node timer) := by
  intro last h
  unfold unset
  split
  · rename_i previous hset
    refine h.erase previous fun e he => ?_
    obtain ⟨other, rfl⟩ := (h.timed _ _ hset).2 e he
    exact ite_self _
  · exact ⟨h, rfl⟩

theorem setTimer_leaves (node : NodeId) (timer : TimerId) (after : Duration) :
    Leaves link q (q.setTimer node timer after) := by
  intro last h
  obtain ⟨hset, hchunks⟩ := ((unset_leaves node timer).trans
    (schedule_leaves node ((q.unset node timer).now + after.toSeconds)
      (.node (.timerFired timer)) fun _ _ => ite_self _)) last h
  rw [setTimer_eq]
  refine ⟨⟨hset.numbered, hset.now_isNaN, hset.keyed, fun owner k hk => ?_, hset.last_isNaN,
    hset.last_rank, hset.bounded⟩, hchunks⟩
  dsimp only [scheduleAfter] at hk ⊢
  rw [Table.get?_insert] at hk
  split at hk
  · obtain rfl := Option.some.inj hk
    refine ⟨Nat.le_refl _, fun e he => ⟨timer, ?_⟩⟩
    rw [EventQueue.schedule, getElem?_insert, if_pos rfl] at he
    exact (Option.some.inj he).symm
  · exact hset.timed owner k hk

theorem cancelTimer_leaves (node : NodeId) (timer : TimerId) :
    Leaves link q (q.cancelTimer node timer) := by
  intro last h
  unfold EventQueue.cancelTimer
  split
  · rename_i key hset
    obtain ⟨herased, hchunks⟩ := h.erase key fun e he => by
      obtain ⟨other, rfl⟩ := (h.timed _ _ hset).2 e he
      exact ite_self _
    refine ⟨herased.forget rfl rfl rfl fun owner k hk => ?_, hchunks⟩
    rw [Table.get?_erase] at hk
    split at hk
    · cases hk
    · exact hk
  · exact ⟨h, rfl⟩

theorem advanceTo_leaves (hend : q.popUntil limit = none) :
    Leaves link q (q.advanceTo limit) := by
  intro last h
  unfold EventQueue.advanceTo
  split
  · rename_i hlt
    have hrank := Time.rank_lt_of_lt hlt
    exact ⟨{
      numbered := h.numbered
      now_isNaN := (Time.not_isNaN_of_lt hlt).2
      keyed := fun k e he => by
        have := popUntil_none hend he
        exact ⟨(h.keyed k e he).1, by dsimp only; omega⟩
      timed := h.timed
      last_isNaN := h.last_isNaN
      last_rank := h.last_rank
      bounded := fun k e he hk => by
        have := h.bounded k e he hk
        dsimp only
        omega }, rfl⟩
  · exact ⟨h, rfl⟩

theorem popUntil_timers (hpop : q.popUntil limit = some ((key, event), q'))
    {owner : NodeId × TimerId} {k : EventKey} (h : q'.timers.get? owner = some k) :
    q.timers.get? owner = some k := by
  obtain ⟨-, -, rfl⟩ := popUntil_some hpop
  unfold forgetTimer at h
  split at h
  · split at h
    · rw [Table.get?_erase] at h
      split at h
      · cases h
      · exact h
    · exact h
  · exact h

theorem popUntil_now (hpop : q.popUntil limit = some ((key, event), q')) : q'.now = key.time := by
  obtain ⟨-, -, rfl⟩ := popUntil_some hpop
  exact forgetTimer_now

/-- The event that is taken is the next chunk of the link, or none of its chunks. -/
theorem Carries.pop (h : q.Carries link last)
    (hpop : q.popUntil limit = some ((key, event), q')) :
    q'.Carries link last ∧
      q.chunksOn link = (chunk? link (key, event)).toList ++ q'.chunksOn link := by
  have hheld := popUntil_mem hpop
  obtain ⟨hnan, hnow⟩ := h.keyed key event hheld
  have hbefore (k : EventKey) (e : ScheduledEvent) (he : q'.events[k]? = some e) :
      q.events[k]? = some e := by
    rw [popUntil_getElem? hpop] at he
    split at he
    · exact nomatch he
    · exact he
  have hclock := popUntil_now hpop
  have hpositive := h.last_rank
  refine ⟨?_, ?_⟩
  · exact {
      numbered := (popUntil_evolves hpop).numbered h.numbered
      now_isNaN := hclock ▸ hnan
      keyed := fun k e he => by
        have := popUntil_first hpop he
        rw [hclock]
        exact ⟨(h.keyed k e (hbefore k e he)).1, by omega⟩
      timed := fun owner k hk => by
        obtain ⟨hle, hevent⟩ := h.timed owner k (popUntil_timers hpop hk)
        exact ⟨Nat.le_trans hle (popUntil_evolves hpop).sequence,
          fun e he => hevent e (hbefore k e he)⟩
      last_isNaN := h.last_isNaN
      last_rank := h.last_rank
      bounded := fun k e he hk => by
        have := h.bounded k e (hbefore k e he) hk
        rw [hclock]
        omega }
  · unfold chunksOn
    rw [popUntil_entries hpop]
    cases hc : chunk? link (key, event) with
    | none => rw [List.filterMap_cons_none hc]; rfl
    | some chunk => rw [List.filterMap_cons_some hc]; rfl

end EventQueue

-- ---------------------------------------------------------------------------
-- Frames
-- ---------------------------------------------------------------------------

namespace Network

variable {σ : Type} [Random.Source σ] {n : Network σ} {link : Link}

omit [Random.Source σ] in
/-- When the last chunk that was sent over a link arrives. -/
def lastOn (n : Network σ) (link : Link) : Time := (n.lastArrival.get? link).getD 0.0

/-- Drawing a latency moves the source of randomness alone. -/
theorem sampleLatency_eq (n : Network σ) :
    ∃ latency random, n.sampleLatency = (latency, { n with random }) ∧ rank latency ≠ -1 := by
  have hbase := Time.rank_toSeconds n.config.latency
  unfold sampleLatency
  dsimp only
  split
  · exact ⟨_, _, rfl, Time.rank_add (.inl hbase)⟩
  · exact ⟨_, n.random, rfl, hbase⟩

/-- A frame is cut into chunks, each with its arrival, and nothing else is sent. -/
theorem send_spec (n : Network σ) (link : Link) (frame : Bytes) (wireBytes : UInt64) :
    ∃ start transmission latency count chunks, rank latency ≠ -1 ∧ chunks.flatten = frame ∧
      (n.send link.1 link.2 frame wireBytes).outbox =
        n.outbox ++ (arrivals start transmission latency count (n.lastOn link) 0 chunks).1.map
          (fun (time, chunk) => ⟨link.1, link.2, time, chunk⟩) ∧
      (n.send link.1 link.2 frame wireBytes).lastArrival =
        n.lastArrival.insert link
          (arrivals start transmission latency count (n.lastOn link) 0 chunks).2 := by
  obtain ⟨latency, random, hsample, hlatency⟩ := n.sampleLatency_eq
  let rate := n.linkRate link.1 link.2
  let chunks := chunksOf (max n.config.chunkSize.toNat 1) frame.length frame
  refine ⟨later ((n.busyUntil.get? link).getD 0.0) n.now,
    if rate > 0.0 then Float.ofNat wireBytes.toNat / rate else 0.0, latency,
    Float.ofNat (max chunks.length 1), chunks, hlatency,
    flatten_chunksOf (by omega) (Nat.le_refl _), ?_⟩
  unfold send
  rw [hsample]
  exact ⟨rfl, rfl⟩

end Network

namespace EventQueue

variable {q : EventQueue} {link : Link} {last : Time}

/-- The chunks of a frame are scheduled in their order, each behind the last. -/
theorem Carries.deliverAll (h : q.Carries link last) {latency : Time} (hlatency : rank latency ≠ -1)
    (start transmission count : Float) (i : Nat) (chunks : List Bytes) :
    let arriving := Network.arrivals start transmission latency count last i chunks
    let deliveries := arriving.1.map fun (time, chunk) => ⟨link.1, link.2, time, chunk⟩
    (deliveries.foldl Simulation.scheduleDelivery q).Carries link arriving.2 ∧
      (deliveries.foldl Simulation.scheduleDelivery q).chunksOn link =
        q.chunksOn link ++ chunks := by
  induction chunks generalizing q last i with
  | nil => exact ⟨h, (List.append_nil _).symm⟩
  | cons chunk chunks ih =>
    have hshare : rank (start + transmission * (Float.ofNat i + 1.0) / count + latency) ≠ -1 :=
      Time.rank_add (.inr hlatency)
    obtain ⟨hnext, hchunk⟩ := h.deliver hshare chunk
    obtain ⟨hrest, hchunks⟩ := ih hnext (i + 1)
    refine ⟨hrest, hchunks.trans ?_⟩
    rw [hchunk, List.append_assoc]
    rfl

/-- Deliveries of another link do not matter. -/
theorem deliveries_leaves {ds : List Delivery} (hother : ∀ d ∈ ds, (d.sender, d.receiver) ≠ link) :
    Leaves link q (ds.foldl Simulation.scheduleDelivery q) := by
  induction ds generalizing q with
  | nil => exact .refl q
  | cons d ds ih =>
    refine .trans (schedule_leaves d.receiver d.time _ fun key hkey => ?_)
      (ih fun d' hd' => hother d' (List.mem_cons_of_mem _ hd'))
    have hne := hother d (List.mem_cons_self ..)
    unfold chunk?
    dsimp only
    split
    · rename_i hreceiver
      refine if_neg fun hsender => hne ?_
      rw [hsender, ← hkey, hreceiver]
    · rfl

end EventQueue

-- ---------------------------------------------------------------------------
-- Turns
-- ---------------------------------------------------------------------------

/-- The frame that an action of a node sends over a link. -/
def Action.frameOn? (link : Link) (node : NodeId) : Action → Option Bytes
  | .send receiver _ frame _ => if (node, receiver) = link then some frame else none
  | _ => none

namespace Simulation

variable {σ : Type} {link : Link}

/-- The frames that a turn sends over a link. -/
def Turn.sentOn (link : Link) (t : Turn) : List Bytes :=
  t.actions.filterMap (Action.frameOn? link t.node)

/-- The bytes that a turn takes from a link. -/
def Turn.arrivedOn? (link : Link) (t : Turn) : Option Bytes :=
  if t.node = link.2 then t.event.bytesFrom? link.1 else none

/-- The frames sent over a link, in the order of sending. -/
def sentOn (link : Link) (log : List Turn) : List Bytes := log.flatMap (Turn.sentOn link)

/-- The bytes that have come over a link, in the order in which they came. -/
def arrivedOn (link : Link) (log : List Turn) : List Bytes := log.filterMap (Turn.arrivedOn? link)

variable [Random.Source σ] {sim sim₀ sim' : Simulation σ} {node : NodeId} {log turns : List Turn}
  {event : Event} {s : Session}

/-- The network holds nothing back, and the queue carries what was sent. -/
structure Flows (sim : Simulation σ) (link : Link) : Prop where
  outbox : sim.network.outbox = []
  carries : sim.queue.Carries link (sim.network.lastOn link)

/-- A frame goes to the end of its link. -/
theorem send_flows (h : sim.Flows link) (sender receiver : NodeId) (frame : Bytes)
    (wireBytes : UInt64) :
    let network := (sim.sent sender receiver frame wireBytes).drain
    let queue := network.1.foldl scheduleDelivery sim.queue
    network.2.outbox = [] ∧ queue.Carries link (network.2.lastOn link) ∧
      (queue.chunksOn link).flatten = (sim.queue.chunksOn link).flatten ++
        if (sender, receiver) = link then frame else [] := by
  intro network queue
  obtain ⟨start, transmission, latency, count, chunks, hlatency, hflatten, houtbox, hlast⟩ :=
    (sim.network.setTime sim.now).send_spec (sender, receiver) frame wireBytes
  have hbox : (sim.network.setTime sim.now).outbox = [] := h.outbox
  rw [hbox, List.nil_append] at houtbox
  have hqueue : queue = _ := congrArg (List.foldl scheduleDelivery sim.queue) houtbox
  have hlastOn : network.2.lastOn link = _ :=
    congrArg (fun t : Table Link Time => (t.get? link).getD 0.0) hlast
  rw [Table.get?_insert] at hlastOn
  rw [hqueue, hlastOn]
  refine ⟨rfl, ?_⟩
  by_cases hlink : (sender, receiver) = link
  · subst hlink
    obtain ⟨hcarries, hchunks⟩ := h.carries.deliverAll hlatency start transmission count 0 chunks
    rw [if_pos rfl, if_pos rfl]
    refine ⟨hcarries, (congrArg List.flatten hchunks).trans ?_⟩
    rw [List.flatten_append, hflatten]
  · have hother : ∀ d ∈ ((Network.arrivals start transmission latency count
        ((sim.network.setTime sim.now).lastOn (sender, receiver)) 0 chunks).1.map
          fun (time, chunk) => ⟨sender, receiver, time, chunk⟩ : List Delivery),
        (d.sender, d.receiver) ≠ link := by
      intro d hd
      obtain ⟨_, -, rfl⟩ := List.mem_map.mp hd
      exact hlink
    obtain ⟨hcarries, hchunks⟩ := EventQueue.deliveries_leaves hother _ h.carries
    rw [if_neg hlink, if_neg hlink, List.append_nil]
    exact ⟨hcarries, congrArg List.flatten hchunks⟩

theorem perform_flows (h : sim.Flows link) (hreceiver : sim.sessions.contains link.2 = true)
    (node : NodeId) (a : Action) :
    (perform node sim a).Flows link ∧
      ((perform node sim a).queue.chunksOn link).flatten =
        (sim.queue.chunksOn link).flatten ++ (a.frameOn? link node).toList.flatten := by
  have hquiet {queue : EventQueue} (hleaves : EventQueue.Leaves link sim.queue queue) :
      ({ sim with queue }).Flows link ∧ (queue.chunksOn link).flatten =
        (sim.queue.chunksOn link).flatten ++ [] := by
    obtain ⟨hcarries, hchunks⟩ := hleaves _ h.carries
    exact ⟨⟨h.outbox, hcarries⟩, by rw [hchunks, List.append_nil]⟩
  cases a with
  | setTimer timer after => exact hquiet (EventQueue.setTimer_leaves node timer after)
  | cancelTimer timer => exact hquiet (EventQueue.cancelTimer_leaves node timer)
  | send receiver kind frame wireBytes =>
    cases hr : sim.sessions.contains receiver with
    | false =>
      have hne : (node, receiver) ≠ link := fun heq => by
        rw [← heq] at hreceiver
        exact nomatch hreceiver.symm.trans hr
      rw [perform_dropped hr, Action.frameOn?, if_neg hne]
      exact ⟨h, (List.append_nil _).symm⟩
    | true =>
      obtain ⟨hbox, hcarries, hchunks⟩ := send_flows h node receiver frame wireBytes
      rw [perform_send hr]
      refine ⟨⟨hbox, hcarries⟩, hchunks.trans ?_⟩
      rw [Action.frameOn?]
      split
      · exact congrArg _ (List.append_nil frame).symm
      · rfl

/-- All frames of an answer go to the end of the link, one after another. -/
theorem performAll_flows (h : sim.Flows link) (hreceiver : sim.sessions.contains link.2 = true)
    (node : NodeId) (actions : List Action) :
    (actions.foldl (perform node) sim).Flows link ∧
      ((actions.foldl (perform node) sim).queue.chunksOn link).flatten =
        (sim.queue.chunksOn link).flatten ++
          (actions.filterMap (Action.frameOn? link node)).flatten := by
  induction actions generalizing sim with
  | nil => exact ⟨h, (List.append_nil _).symm⟩
  | cons a actions ih =>
    obtain ⟨hnext, hchunks⟩ := perform_flows h hreceiver node a
    obtain ⟨hrest, hmore⟩ := ih hnext (by rwa [perform_sessions])
    refine ⟨hrest, hmore.trans ?_⟩
    have hcons : (a :: actions).filterMap (Action.frameOn? link node) =
        (a.frameOn? link node).toList ++ actions.filterMap (Action.frameOn? link node) := by
      rw [List.filterMap_cons]
      cases a.frameOn? link node <;> rfl
    rw [hchunks, List.append_assoc, hcons, List.flatten_append]

/-- What was sent over a link is what has come and what is still to come. -/
structure Streams (sim : Simulation σ) (link : Link) (log : List Turn) : Prop where
  flows : sim.Flows link
  receiver : sim.sessions.contains link.2 = true
  balance : (sentOn link log).flatten =
    (arrivedOn link log).flatten ++ (sim.queue.chunksOn link).flatten

/-- A session handles an event: what it takes from the link has left the queue
just before, and what it sends goes there. -/
theorem dispatch_streams (hflows : sim.Flows link)
    (hreceiver : sim.sessions.contains link.2 = true) {event : Event}
    (hbalance : (sentOn link log).flatten = (arrivedOn link log).flatten ++
      (if node = link.2 then event.bytesFrom? link.1 else none).toList.flatten ++
        (sim.queue.chunksOn link).flatten) :
    (sim.dispatch node event).Streams link (log ++ sim.turns node event) := by
  cases hs : sim.session? node with
  | none =>
    have hne : node ≠ link.2 := fun heq => by
      have hthere : (sim.session? link.2).isSome = true := hreceiver
      rw [← heq, hs] at hthere
      exact nomatch hthere
    rw [if_neg hne] at hbalance
    rw [dispatch_none hs, turns_none hs, List.append_nil]
    exact ⟨hflows, hreceiver, hbalance.trans (by simp)⟩
  | some s =>
    have hthere : (sim.handled node s event).sessions.contains link.2 = true :=
      (handled_contains hs _).trans hreceiver
    have hhandled : (sim.handled node s event).Flows link := ⟨hflows.outbox, hflows.carries⟩
    obtain ⟨hnext, hchunks⟩ := performAll_flows hhandled hthere node (s.answer sim.now event)
    rw [dispatch_some hs, turns_some hs]
    refine ⟨hnext, by rwa [performAll_sessions], ?_⟩
    have hsent : sentOn link (log ++ [⟨node, s.setTime sim.now, event⟩]) =
        sentOn link log ++ (s.answer sim.now event).filterMap (Action.frameOn? link node) := by
      rw [sentOn, List.flatMap_append, List.flatMap_singleton]
      rfl
    have harrived : arrivedOn link (log ++ [⟨node, s.setTime sim.now, event⟩]) =
        arrivedOn link log ++ (if node = link.2 then event.bytesFrom? link.1 else none).toList := by
      have hturn : Turn.arrivedOn? link ⟨node, s.setTime sim.now, event⟩ =
          if node = link.2 then event.bytesFrom? link.1 else none := rfl
      rw [arrivedOn, List.filterMap_append, List.filterMap_cons, hturn]
      cases (if node = link.2 then event.bytesFrom? link.1 else none) <;> rfl
    have hqueue : (sim.handled node s event).queue = sim.queue := rfl
    rw [hsent, harrived, hchunks, hqueue, List.flatten_append, List.flatten_append, hbalance,
      List.append_assoc, List.append_assoc]

-- ---------------------------------------------------------------------------
-- Runs
-- ---------------------------------------------------------------------------

theorem Streams.dispatch (h : sim.Streams link log) (node : NodeId) (hevent : event.NoBytes) :
    (sim.dispatch node event).Streams link (log ++ sim.turns node event) := by
  refine dispatch_streams h.flows h.receiver ?_
  rw [hevent.bytesFrom?, ite_self]
  exact h.balance.trans (by simp)

omit [Random.Source σ] in
/-- The queue may change in what is not carried on the link. -/
theorem Streams.leaves (h : sim.Streams link log) {queue : EventQueue}
    (hleaves : EventQueue.Leaves link sim.queue queue) :
    ({ sim with queue }).Streams link log := by
  obtain ⟨hcarries, hchunks⟩ := hleaves _ h.flows.carries
  exact ⟨⟨h.flows.outbox, hcarries⟩, h.receiver, by dsimp only; rw [hchunks]; exact h.balance⟩

theorem Change.streams (h : Change Event.NoBytes sim sim' turns) (hs : sim.Streams link log) :
    sim'.Streams link (log ++ turns) := by
  cases h with
  | aside hqueue hsessions hnetwork =>
    rw [List.append_nil]
    refine ⟨⟨hnetwork ▸ hs.flows.outbox, ?_⟩, hsessions ▸ hs.receiver, hqueue ▸ hs.balance⟩
    rw [hqueue, hnetwork]
    exact hs.flows.carries
  | scheduled node time event hevent =>
    rw [List.append_nil]
    refine hs.leaves (EventQueue.schedule_leaves node time event fun key _ => ?_)
    cases event with
    | mine => rfl
    | node event =>
      have hno : event.NoBytes := by
        rcases hevent event rfl with rfl | hallowed
        · exact fun _ _ => nofun
        · exact hallowed
      unfold chunk?
      dsimp only
      rw [hno.bytesFrom?, ite_self]
  | taken hpop =>
    rw [List.append_nil]
    obtain ⟨hcarries, hchunks⟩ := hs.flows.carries.pop hpop
    exact ⟨⟨hs.flows.outbox, hcarries⟩, hs.receiver, hs.balance.trans (by rw [hchunks]; rfl)⟩
  | @given limit key event queue hpop =>
    obtain ⟨hcarries, hchunks⟩ := hs.flows.carries.pop hpop
    have hpopped : ({ sim with queue }).Flows link := ⟨hs.flows.outbox, hcarries⟩
    refine dispatch_streams hpopped hs.receiver ?_
    rw [hs.balance, hchunks, List.flatten_append, ← List.append_assoc]
    rfl
  | called node hevent =>
    refine hs.dispatch node fun sender bytes heq => ?_
    rcases hevent with rfl | ⟨b, rfl⟩
    · exact nomatch heq
    · exact nomatch heq
  | advanced hend =>
    rw [List.append_nil]
    exact hs.leaves (EventQueue.advanceTo_leaves hend)
  | @cancelled key hkey =>
    rw [List.append_nil]
    refine hs.leaves fun last h => h.erase key fun e he => ?_
    rw [hkey e he]
    rfl

omit [Random.Source σ] in
theorem Built.streams (h : Built sim₀) (hreceiver : sim₀.sessions.contains link.2 = true) :
    sim₀.Streams link [] := by
  obtain ⟨houtbox, harrival, -⟩ := h.network
  have hqueue := h.fields.1
  refine ⟨⟨houtbox, ?_⟩, hreceiver, ?_⟩
  · rw [hqueue, Network.lastOn, harrival]
    exact EventQueue.empty_carries link
  · rw [hqueue]
    simp [sentOn, arrivedOn, EventQueue.chunksOn, EventQueue.empty]

theorem Course.streams (hbuilt : Built sim₀) (h : Course Event.NoBytes sim₀ sim log)
    (link : Link) (hreceiver : sim₀.sessions.contains link.2 = true) : sim.Streams link log := by
  induction h with
  | nil => exact hbuilt.streams hreceiver
  | snoc _ hchange ih => exact hchange.streams ih

end Simulation

end BlockGossip
