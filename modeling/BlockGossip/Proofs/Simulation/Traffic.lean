import BlockGossip.Proofs.Pool.Held
import BlockGossip.Proofs.Session.Charges
import BlockGossip.Proofs.Simulation.Acquaintance
import BlockGossip.Simulation.Report

/-!
# Sender, network and receiver charge the same bytes

What a session's actions are charged its counters hold, its receivers count, and
the network adds up: the traffic of a run is the sum of what its nodes have sent
(`charged_alike`).
-/

namespace BlockGossip

-- ---------------------------------------------------------------------------
-- Sums over a table
-- ---------------------------------------------------------------------------

/-- Putting something in the place of an entry leaves the others as they are. -/
theorem Table.sum_put {κ α : Type} [DecidableEq κ] {k : κ} {a : α} {entries : List (κ × α)}
    (h : Table.find k entries = some a) (f : α → Nat) :
    ∃ others, (entries.map fun entry => f entry.2).sum = f a + others ∧
      ∀ b, ((Table.put k b entries).map fun entry => f entry.2).sum = f b + others := by
  obtain ⟨before, after, rfl, hput⟩ := Table.put_present h
  refine ⟨(before.map fun entry => f entry.2).sum + (after.map fun entry => f entry.2).sum, ?_,
    fun b => ?_⟩
  · simp only [List.map_append, List.map_cons, List.sum_append, List.sum_cons, Nat.add_left_comm]
  · simp only [hput, List.map_append, List.map_cons, List.sum_append, List.sum_cons,
      Nat.add_left_comm]

namespace Network

variable {σ : Type} [Random.Source σ]

theorem send_stats (n : Network σ) (sender receiver : NodeId) (frame : Bytes)
    (wireBytes : UInt64) :
    (n.send sender receiver frame wireBytes).stats.messagesSent = n.stats.messagesSent + 1 ∧
      (n.send sender receiver frame wireBytes).stats.wireBytes = n.stats.wireBytes + wireBytes := by
  obtain ⟨latency, random, hsample, -⟩ := n.sampleLatency_eq
  unfold send
  rw [hsample]
  exact ⟨rfl, rfl⟩

end Network

namespace Simulation

variable {σ : Type}

def Turn.starts (t : Turn) : Bool := t.found.restarts t.event

/-- No node starts a second time. -/
def StartsOnce (log : List Turn) : Prop := ((log.filter Turn.starts).map Turn.node).Nodup

instance (log : List Turn) : Decidable (StartsOnce log) :=
  inferInstanceAs (Decidable (List.Nodup _))

/-- All actions of a run. -/
def asked (log : List Turn) : List Action := log.flatMap Turn.actions

/-- What the nodes report to have sent. -/
def totalSent (sim : Simulation σ) : Nat :=
  (sim.report.nodes.map fun n => n.totalSent.toNat).sum

variable [Random.Source σ] {sim sim₀ sim' : Simulation σ} {node : NodeId} {log turns : List Turn}
  {event : Event} {s : Session} {P : NodeId → Prop}

-- ---------------------------------------------------------------------------
-- The network
-- ---------------------------------------------------------------------------

theorem perform_traffic (node : NodeId) {a : Action}
    (hhere : ∀ n, P n → sim.sessions.contains n = true) (h : a.To P) :
    (perform node sim a).traffic.wireBytes = sim.traffic.wireBytes + UInt64.ofNat a.charged ∧
      (perform node sim a).traffic.messagesSent =
        sim.traffic.messagesSent + UInt64.ofNat ([a].countP Action.isSend) := by
  cases a with
  | send receiver kind frame wireBytes =>
    obtain ⟨hmessages, hbytes⟩ :=
      (sim.network.setTime sim.now).send_stats node receiver frame wireBytes
    rw [perform_send (hhere receiver h)]
    refine ⟨hbytes.trans ?_, hmessages⟩
    rw [Action.charged, UInt64.ofNat_toNat]
    rfl
  | setTimer => exact ⟨(UInt64.add_zero _).symm, (UInt64.add_zero _).symm⟩
  | cancelTimer => exact ⟨(UInt64.add_zero _).symm, (UInt64.add_zero _).symm⟩

/-- The network adds up what the actions are charged. -/
theorem performAll_traffic (node : NodeId) {actions : List Action}
    (hhere : ∀ n, P n → sim.sessions.contains n = true) (h : ∀ a ∈ actions, a.To P) :
    (actions.foldl (perform node) sim).traffic.wireBytes =
        sim.traffic.wireBytes + UInt64.ofNat (charged actions) ∧
      (actions.foldl (perform node) sim).traffic.messagesSent =
        sim.traffic.messagesSent + UInt64.ofNat (actions.countP Action.isSend) := by
  induction actions generalizing sim with
  | nil => exact ⟨(UInt64.add_zero _).symm, (UInt64.add_zero _).symm⟩
  | cons a actions ih =>
    obtain ⟨hbytes, hmessages⟩ := perform_traffic node hhere (h a (List.mem_cons_self ..))
    obtain ⟨hmore, hothers⟩ := @ih (perform node sim a) (perform_sessions node sim a ▸ hhere)
      fun b hb => h b (List.mem_cons_of_mem _ hb)
    rw [List.foldl_cons, hmore, hothers, hbytes, hmessages, UInt64.add_assoc, UInt64.add_assoc,
      ← UInt64.ofNat_add, ← UInt64.ofNat_add, ← List.countP_append]
    exact ⟨rfl, rfl⟩

-- ---------------------------------------------------------------------------
-- Turns
-- ---------------------------------------------------------------------------

/-- The network and the nodes have counted what the actions are charged, and a
node that has not started has counted nothing. -/
structure Metered (sim : Simulation σ) (log : List Turn) : Prop where
  bytes : sim.traffic.wireBytes = UInt64.ofNat (charged (asked log))
  messages : sim.traffic.messagesSent = UInt64.ofNat ((asked log).countP Action.isSend)
  total : charged (asked log) < UInt64.size → sim.totalSent = charged (asked log)
  unstarted : ∀ node s, sim.session? node = some s →
    (∀ t ∈ log, t.node = node → t.starts = false) →
      s.running = false ∧ s.statistics.totalSent = 0

omit [Random.Source σ] in
theorem Metered.of_eq (h : sim.Metered log) (hsessions : sim'.sessions = sim.sessions)
    (hnetwork : sim'.network = sim.network) : sim'.Metered log where
  bytes := (congrArg (·.stats.wireBytes) hnetwork).trans h.bytes
  messages := (congrArg (·.stats.messagesSent) hnetwork).trans h.messages
  total hfits := by
    rw [← h.total hfits]
    unfold totalSent report
    rw [hsessions]
  unstarted node s hs := h.unstarted node s ((congrArg (·.get? node) hsessions).symm.trans hs)

theorem asked_snoc (log : List Turn) (t : Turn) : asked (log ++ [t]) = asked log ++ t.actions := by
  simp [asked]

omit [Random.Source σ] in
theorem totalSent_eq (sim : Simulation σ) :
    sim.totalSent =
      (sim.sessions.entries.map fun entry => entry.2.statistics.totalSent.toNat).sum := by
  simp [totalSent, report, Table.values, Function.comp_def]

omit [Random.Source σ] in
/-- The first start of a node finds it without anything sent. -/
theorem total_before (h : sim.Metered log) (hs : sim.session? node = some s) {now : Time}
    (honce : StartsOnce (log ++ [⟨node, s.setTime now, event⟩])) :
    (if (s.setTime now).restarts event then 0 else s.statistics.totalSent) =
      s.statistics.totalSent := by
  split
  · rename_i hstarts
    refine ((h.unstarted node s hs fun t ht hnode => ?_).2).symm
    by_contra hearlier
    have hearlier : t.starts = true := by simpa using hearlier
    unfold StartsOnce at honce
    rw [List.filter_append, List.map_append] at honce
    have hdisjoint := List.disjoint_of_nodup_append honce
    refine hdisjoint (List.mem_map.mpr ⟨t, List.mem_filter.mpr ⟨ht, hearlier⟩, hnode⟩) ?_
    have hturn : Turn.starts ⟨node, s.setTime now, event⟩ = true := hstarts
    simp [hturn]
  · rfl

omit [Random.Source σ] in
/-- A node's total grows by what its actions are charged, as long as that fits. -/
theorem total_after (h : sim.Metered log) (hs : sim.session? node = some s)
    (honce : StartsOnce (log ++ [⟨node, s.setTime sim.now, event⟩]))
    (hfits : s.statistics.totalSent.toNat + charged (s.answer sim.now event) < UInt64.size) :
    (s.after sim.now event).statistics.totalSent.toNat =
      s.statistics.totalSent.toNat + charged (s.answer sim.now event) := by
  have htotal : (s.after sim.now event).statistics.totalSent =
      (if (s.setTime sim.now).restarts event then 0 else s.statistics.totalSent) +
        UInt64.ofNat (charged (s.answer sim.now event)) :=
    Session.handle_totalSent (s.setTime sim.now) event
  rw [htotal, total_before h hs honce, UInt64.toNat_add, UInt64.toNat_ofNat', Nat.add_mod_mod]
  exact Nat.mod_eq_of_lt hfits

omit [Random.Source σ] in
/-- A node that has not started counts nothing. -/
theorem unstarted_after (h : sim.Metered log) (hs : sim.session? node = some s)
    (hnone : ∀ t ∈ log ++ [⟨node, s.setTime sim.now, event⟩], t.node = node → t.starts = false) :
    (s.after sim.now event).running = false ∧
      (s.after sim.now event).statistics.totalSent = 0 := by
  obtain ⟨hr, htotal⟩ := h.unstarted node s hs fun t ht => hnone t (List.mem_append_left _ ht)
  have hquiet : (s.setTime sim.now).restarts event = false :=
    hnone _ (List.mem_append_right _ (List.mem_singleton_self _)) rfl
  have hidle : event ≠ .start := by
    rintro rfl
    simp [Session.restarts, Session.setTime, hr] at hquiet
  have hsame : s.after sim.now event = s.setTime sim.now :=
    congrArg Prod.fst (Session.handle_stopped (s := s.setTime sim.now) hr hidle)
  rw [hsame]
  exact ⟨hr, htotal⟩

theorem dispatch_metered (h : sim.Metered log) (hacquainted : sim.Acquainted P)
    (hevent : event.From P) (honce : StartsOnce (log ++ sim.turns node event)) :
    (sim.dispatch node event).Metered (log ++ sim.turns node event) := by
  cases hs : sim.session? node with
  | none => rwa [dispatch_none hs, turns_none hs, List.append_nil]
  | some s =>
    let t : Turn := ⟨node, s.setTime sim.now, event⟩
    rw [turns_some hs] at honce ⊢
    have hfound := (hacquainted.sessions node s hs).setTime sim.now
    obtain ⟨hbytes, hmessages⟩ := performAll_traffic node
      (fun n => ((handled_acquainted hacquainted hs hevent).here n).mp)
      (Session.handle_reaches hfound hevent)
    have hcharged : charged (asked (log ++ [t])) = charged (asked log) + charged t.actions := by
      rw [asked_snoc, charged_append]
    refine ⟨?_, ?_, fun hfits => ?_, fun n u hu hnone => ?_⟩
    · rw [dispatch_some hs, hcharged, UInt64.ofNat_add, ← h.bytes]
      exact hbytes
    · rw [dispatch_some hs, asked_snoc, List.countP_append, UInt64.ofNat_add, ← h.messages]
      exact hmessages
    · rw [hcharged] at hfits ⊢
      have hbefore := h.total (by omega)
      -- Among the nodes only this one has its total changed.
      obtain ⟨others, hold, hput⟩ := Table.sum_put hs fun u => u.statistics.totalSent.toNat
      rw [totalSent_eq, hold] at hbefore
      have hafter : (s.after sim.now event).statistics.totalSent.toNat =
          s.statistics.totalSent.toNat + charged t.actions :=
        total_after h hs honce (by
          show _ + charged t.actions < _
          omega)
      rw [totalSent_eq, dispatch_some hs, performAll_sessions]
      refine (hput _).trans ?_
      rw [hafter]
      omega
    · rw [dispatch_session? hs] at hu
      split at hu
      · rename_i hn
        subst hn
        obtain rfl := Option.some.inj hu
        exact unstarted_after h hs hnone
      · exact h.unstarted n u hu fun t ht => hnone t (List.mem_append_left _ ht)

-- ---------------------------------------------------------------------------
-- Runs
-- ---------------------------------------------------------------------------

theorem Change.metered (h : Change Event.NoBytes sim sim' turns) (hs : sim.Metered log)
    (hacquainted : sim.Acquainted P) (honce : StartsOnce (log ++ turns)) :
    sim'.Metered (log ++ turns) := by
  cases h with
  | given hpop =>
    obtain ⟨hevent, hrest⟩ := hacquainted.queue.pop hpop
    exact dispatch_metered (hs.of_eq rfl rfl)
      ⟨hacquainted.here, hacquainted.sessions, hrest, hacquainted.outbox⟩ hevent honce
  | called node hevent =>
    refine dispatch_metered hs hacquainted ?_ honce
    rcases hevent with rfl | ⟨b, rfl⟩ <;> trivial
  | aside _ hsessions hnetwork =>
    rw [List.append_nil]
    exact hs.of_eq hsessions hnetwork
  | _ =>
    rw [List.append_nil]
    exact hs.of_eq rfl rfl

omit [Random.Source σ] in
theorem Built.metered (h : Built sim₀) : sim₀.Metered [] := by
  have hfresh : ∀ entry ∈ sim₀.sessions.entries,
      entry.2.running = false ∧ entry.2.statistics.totalSent = 0 := by
    intro entry hentry
    obtain ⟨setup, config, hentry, -⟩ := h.entries entry hentry
    rw [hentry]
    exact ⟨rfl, rfl⟩
  have hstats := h.network.2.2
  refine ⟨?_, ?_, fun _ => ?_, fun node s hs _ => hfresh _ (mem_of_find hs)⟩
  · exact congrArg TrafficStats.wireBytes hstats
  · exact congrArg TrafficStats.messagesSent hstats
  · rw [totalSent_eq]
    refine List.sum_eq_zero fun n hn => ?_
    obtain ⟨entry, hentry, rfl⟩ := List.mem_map.mp hn
    rw [(hfresh entry hentry).2]
    rfl

theorem Course.metered (hbuilt : Built sim₀) (h : Course Event.NoBytes sim₀ sim log)
    (hacquainted : sim₀.Acquainted P) (honce : StartsOnce log) : sim.Metered log := by
  induction h with
  | nil => exact hbuilt.metered
  | snoc hcourse hchange ih =>
    refine hchange.metered (ih ?_) (hcourse.acquainted hacquainted) honce
    unfold StartsOnce at honce ⊢
    rw [List.filter_append, List.map_append] at honce
    exact honce.of_append_left

-- ---------------------------------------------------------------------------
-- Both ends and the network
-- ---------------------------------------------------------------------------

omit [Random.Source σ] in
/-- Sender, network and receiver charge the same bytes, as long as no counter
wraps around. What a session has sent since it last started its counters hold,
and each message of an event is sent to each of its receivers. A frame whose
times can be read is counted by its receiver at what its sender was charged. And
where all peers are here and no node starts twice, the network has counted what
its nodes have. -/
theorem charged_alike :
    (∀ {setup config s log}, Session.Logged setup config s log →
      (∀ c, chargedOn c (sinceStart log) < UInt64.size →
        (s.statistics.counter c).sent.toNat = chargedOn c (sinceStart log)) ∧
      ∀ now e,
        (s.answer now e).filter Action.isSend =
          ((s.setTime now).posts e).flatMap (Post.actions config.wire) ∧
        (∀ p ∈ (s.setTime now).posts e,
          p.message.envelope.encode = .ok p.message.envelope.frame) ∧
        ∀ receiver kind frame wireBytes,
          .send receiver kind frame wireBytes ∈ s.answer now e →
          (∃ m : Envelope, m.encode = .ok frame ∧ m.Readable) →
          ∃ c, kind.counter? = some c ∧ Session.CountedAs config.wire c frame wireBytes) ∧
    ∀ {σ} [Random.Source σ] {sim₀ sim : Simulation σ} {log}, Built sim₀ →
      (∀ s ∈ sim₀.sessions.values, ∀ peer ∈ s.setup.peers, sim₀.sessions.contains peer = true) →
      Driven Event.NoBytes sim₀ sim log → StartsOnce log →
      (charged (asked log) < UInt64.size → sim.traffic.wireBytes.toNat = sim.totalSent) ∧
      ((asked log).countP Action.isSend < UInt64.size →
        sim.traffic.messagesSent.toNat = (asked log).countP Action.isSend) := by
  refine ⟨fun {setup config s log} h => ⟨fun c hfits => ?_, fun now e => ?_⟩,
    fun hbuilt hpeers hrun honce => ?_⟩
  · rw [Session.statistics_counter, h.sent c]
    exact UInt64.toNat_ofNat_of_lt hfits
  · have hconfig : (s.setTime now).config = config := h.reachable.sound.config_eq
    have hposts := Session.handle_posts (s.setTime now) e
    have hcounted := @Session.handle_countedAs (s.setTime now) e
    rw [hconfig] at hposts hcounted
    exact ⟨hposts, fun p _ => p.message.encode_envelope, fun _ _ _ _ => hcounted⟩
  · have hcourse := (hrun.ordered hbuilt).course
    have hmetered := hcourse.metered hbuilt (hbuilt.acquainted hpeers) honce
    refine ⟨fun hfits => ?_, fun hfits => ?_⟩
    · rw [hmetered.bytes, hmetered.total hfits]
      exact UInt64.toNat_ofNat_of_lt hfits
    · rw [hmetered.messages]
      exact UInt64.toNat_ofNat_of_lt hfits

/-- A client sends its first transaction: it and its receiver, who gets it in two
pieces, count 130 bytes. A couple of nodes has sent as much as its network has
counted, in two messages. -/
theorem charged_alike_couple :
    let starting (setup : Setup) := (Session.fresh setup .usual).after 0.0 .start
    let client := starting ⟨2, .client, [1], .standard, .usual, .empty⟩
    let committer := starting ⟨1, .committer, [2], .standard, .usual, .empty⟩
    let message := Message.requestTrans [((client.setTime 1.0).pool.create 1.0).1]
    let frame := message.envelope.frame
    let sent := client.after 1.0 (.timerFired .nextTransaction)
    let fed := committer.fed 2 [(1.0, frame.take 16), (2.0, frame.drop 16)]
    let sim := (couple.start.runFirst 60.0 12).1
    (sent.statistics.counter .getData).sent.toNat = 130 ∧
      (fed.statistics.counter .getData).received = 130 ∧
      sim.traffic.wireBytes.toNat = sim.totalSent ∧ sim.traffic.messagesSent.toNat = 2 := by
  intro starting client committer message frame sent fed sim
  let log := (couple.start.runFirst 60.0 12).2
  obtain ⟨hsessions, hruns⟩ := charged_alike
  have hlogged : Session.Logged client.setup .usual client _ := .step .fresh 0.0 .start
  refine ⟨?_, ?_, ?_⟩
  · have hsent := (hsessions (hlogged.step 1.0 (.timerFired .nextTransaction))).1 .getData
      (by decide +kernel)
    refine hsent.trans ?_
    decide +kernel
  · obtain ⟨-, -, hcounted⟩ := (hsessions hlogged).2 1.0 (.timerFired .nextTransaction)
    obtain ⟨c, hc, hcounted⟩ := hcounted 1 .requestTrans frame 130 (by decide +kernel)
      ⟨message.envelope, message.encode_envelope, by unfold Envelope.Readable; decide +kernel⟩
    obtain rfl := Option.some.inj hc
    exact hcounted committer 2 _ (by decide +kernel) (by decide +kernel) rfl (by decide +kernel)
      (by simp) .getData
  · have hrun : Driven Event.NoBytes couple sim log := Driven.startFirst _ couple 60.0 12
    have hpeers :
        (couple.sessions.values.all fun s => s.setup.peers.all couple.sessions.contains) =
          true := by decide +kernel
    obtain ⟨hbytes, hmessages⟩ := hruns couple_built
      (fun s hs => List.all_eq_true.mp (List.all_eq_true.mp hpeers s hs)) hrun (by decide +kernel)
    refine ⟨hbytes (by decide +kernel), (hmessages (by decide +kernel)).trans ?_⟩
    decide +kernel

end Simulation

end BlockGossip
