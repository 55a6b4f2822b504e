import BlockGossip.Proofs.Simulation.Topology
import BlockGossip.Simulation.Build
import Mathlib.Data.List.Count
import Mathlib.Data.List.Perm.Basic

/-!
# Valid configurations can run

A configuration is found valid exactly when there are enough nodes for its
roles, its miners and its links (`Sound`); and then a network is built from it,
whatever the random orders, in which each role has as many nodes as it should
(`validate_sound`).
-/

namespace BlockGossip

-- ---------------------------------------------------------------------------
-- Random orders
-- ---------------------------------------------------------------------------

namespace Random

variable {σ α : Type} [Source σ]

theorem swapIfInBounds_perm (xs : Array α) (i j : Nat) : (xs.swapIfInBounds i j).Perm xs := by
  unfold Array.swapIfInBounds
  split
  · split
    · exact Array.swap_perm ..
    · exact .refl xs
  · exact .refl xs

theorem shuffleDown_perm (xs : Array α) (last : Nat) (s : σ) : (shuffleDown xs last s).1.Perm xs := by
  induction last generalizing xs s with
  | zero => exact .refl xs
  | succ i ih => exact (ih _ _).trans (swapIfInBounds_perm ..)

/-- A shuffle gives the same elements, whatever is drawn. -/
theorem shuffle_perm (xs : List α) (s : σ) : (shuffle xs s).1.Perm xs :=
  Array.perm_iff_toList_perm.mp (shuffleDown_perm xs.toArray (xs.length - 1) s)

end Random

-- ---------------------------------------------------------------------------
-- Validity
-- ---------------------------------------------------------------------------

namespace SimulationConfig

variable {c : SimulationConfig}

/-- How many nodes have a role of their own; no sum wraps. -/
def special (c : SimulationConfig) : Nat :=
  c.orderers.toNat + c.endorsers.toNat + c.clients.toNat

/-- The counts are those of a network that can run. -/
structure Sound (c : SimulationConfig) : Prop where
  nodes : 2 ≤ c.nodes.toNat
  special : c.special < c.nodes.toNat
  miners : 1 ≤ c.miners.toNat ∧ c.miners.toNat ≤ c.nodes.toNat - c.special
  connections : 1 ≤ c.connections.toNat ∧ c.connections.toNat ≤ c.nodes.toNat - 1

/-- Sums that do not fit 32 bits are larger than any number of nodes. -/
theorem nonCommitters_eq (c : SimulationConfig) :
    c.nonCommitters = min c.special (UInt32.size - 1) := rfl

theorem fault?_none_iff (hdown : c.speed.download > 0.0) (hup : c.speed.upload > 0.0) :
    c.fault? = none ↔ c.Sound := by
  have hnodes : c.nodes.toNat < UInt32.size := c.nodes.toNat_lt
  have hminers : c.miners = 0 ↔ c.miners.toNat = 0 := UInt32.toNat_inj.symm
  have hconnections : c.connections = 0 ↔ c.connections.toNat = 0 := UInt64.toNat_inj.symm
  have htwo : c.nodes < 2 ↔ c.nodes.toNat < 2 := UInt32.lt_iff_toNat_lt
  have hspecial := c.nonCommitters_eq
  unfold fault? committers
  simp only [htwo, hminers, hconnections]
  split
  · refine ⟨nofun, fun h => absurd h.nodes ?_⟩
    omega
  · split
    · refine ⟨nofun, fun h => absurd h.special ?_⟩
      omega
    · split
      · refine ⟨nofun, fun h => absurd h.miners ?_⟩
        omega
      · split
        · refine ⟨nofun, fun h => absurd h.connections ?_⟩
          omega
        · rw [decide_eq_true hdown, decide_eq_true hup]
          refine ⟨fun _ => ⟨?_, ?_, ?_, ?_⟩, fun _ => rfl⟩
          all_goals omega

theorem validate_ok_iff_fault : c.validate = .ok () ↔ c.fault? = none := by
  unfold validate
  cases c.fault? <;> simp

end SimulationConfig

-- ---------------------------------------------------------------------------
-- Dealing roles
-- ---------------------------------------------------------------------------

namespace Simulation

variable {config : SimulationConfig} {order nodes : List NodeId} {role : Role}

/-- The roles that are dealt first, in order. -/
def specialRoles (config : SimulationConfig) : List Role :=
  List.replicate config.orderers.toNat .order ++ List.replicate config.endorsers.toNat .endorser ++
    List.replicate config.clients.toNat .client

theorem specialRoles_length (config : SimulationConfig) :
    (specialRoles config).length = config.special := by
  simp only [specialRoles, List.length_append, List.length_replicate]
  rfl

theorem dealtRole_cons (node other : NodeId) (role : Role) (roles : List (NodeId × Role)) :
    dealtRole ((node, role) :: roles) other = if node = other then role else dealtRole roles other := by
  unfold dealtRole
  rw [List.find?_cons]
  by_cases h : node = other
  · rw [if_pos h, beq_iff_eq.mpr h]
    rfl
  · rw [if_neg h, beq_false_of_ne h]

/-- In the order in which roles are dealt, each node gets the next. -/
theorem map_dealtRole_zip (hdistinct : order.Nodup) {roles : List Role}
    (hlength : order.length ≤ roles.length) :
    order.map (dealtRole (order.zip roles)) = roles.take order.length := by
  induction order generalizing roles with
  | nil => rfl
  | cons node order ih =>
    cases roles with
    | nil => exact absurd hlength (Nat.not_succ_le_zero _)
    | cons role roles =>
      obtain ⟨hnot, hdistinct⟩ := List.nodup_cons.mp hdistinct
      rw [List.zip_cons_cons, List.map_cons, dealtRole_cons, if_pos rfl, List.length_cons,
        List.take_succ_cons, ← ih hdistinct (Nat.le_of_succ_le_succ hlength)]
      refine congrArg (role :: ·) (List.map_congr_left fun other hother => ?_)
      have hne : node ≠ other := fun he => hnot (he ▸ hother)
      rw [dealtRole_cons, if_neg hne]

/-- Whatever the order, the special roles are all dealt, and the rest are committers. -/
theorem dealt_perm (hperm : order.Perm nodes) (hdistinct : nodes.Nodup)
    (hspecial : config.special ≤ nodes.length) :
    (nodes.map (dealtRole (dealRoles config order))).Perm
      (specialRoles config ++ List.replicate (nodes.length - config.special) .committer) := by
  have hlength := specialRoles_length config
  -- Counted in the order of dealing, the roles are those dealt, one after another.
  refine (hperm.map _).symm.trans (List.Perm.of_eq ?_)
  rw [dealRoles, ← specialRoles, map_dealtRole_zip (hperm.nodup_iff.mpr hdistinct)]
  · rw [hperm.length_eq, List.take_append, List.take_of_length_le (hlength ▸ hspecial),
      List.take_replicate, Nat.min_eq_left (Nat.sub_le ..), hlength]
  · rw [List.length_append, List.length_replicate]
    exact Nat.le_add_left ..

-- ---------------------------------------------------------------------------
-- Sessions
-- ---------------------------------------------------------------------------

variable {σ : Type} {sim : Simulation σ} {setups : List Setup} {build : Setup → Session}

theorem insertSession_last {entries : List (NodeId × Session)} {node : NodeId}
    (h : ∀ entry ∈ entries, entry.1 < node) (s : Session) :
    insertSession node s entries = entries ++ [(node, s)] := by
  induction entries with
  | nil => rfl
  | cons entry entries ih =>
    obtain ⟨hlt, hrest⟩ := List.forall_mem_cons.mp h
    have hne : node ≠ entry.1 := fun he => UInt32.lt_irrefl node (he ▸ hlt)
    rw [insertSession, if_neg (UInt32.lt_asymm hlt), if_neg hne, ih hrest]
    rfl

/-- Nodes that come in ascending order are put one behind the other. -/
theorem foldl_insertSession_ascending (build : Setup → Session)
    (hascends : setups.Pairwise fun a b => a.node < b.node) {entries : List (NodeId × Session)}
    (hentries : ∀ entry ∈ entries, ∀ setup ∈ setups, entry.1 < setup.node) :
    setups.foldl (fun sessions setup => insertSession setup.node (build setup) sessions) entries =
      entries ++ setups.map fun setup => (setup.node, build setup) := by
  induction setups generalizing entries with
  | nil => exact (List.append_nil _).symm
  | cons setup setups ih =>
    obtain ⟨hfirst, hrest⟩ := List.pairwise_cons.mp hascends
    have hlast := insertSession_last (fun entry he => hentries entry he setup (.head _)) (build setup)
    rw [List.foldl_cons, hlast, ih hrest, List.append_assoc]
    · rfl
    · intro entry hentry later hlater
      rcases List.mem_append.mp hentry with hentry | hentry
      · exact hentries entry hentry later (.tail _ hlater)
      · obtain rfl := List.mem_singleton.mp hentry
        exact hfirst later hlater

/-- The nodes with a role, by ascending node. -/
def inRole (sim : Simulation σ) (role : Role) : List NodeId :=
  (sim.sessions.entries.filter fun entry => entry.2.setup.role = role).map (·.1)

/-- There is one session for each node that was given, and the first committers
are miners. -/
structure Staffed (config : SimulationConfig) (setups : List Setup) (sim : Simulation σ) : Prop where
  sessions : ∃ build : Setup → Session,
    (∀ setup, (build setup).setup.node = setup.node ∧ (build setup).setup.role = setup.role) ∧
      sim.sessions.entries = setups.map fun setup => (setup.node, build setup)
  miners : sim.miners = (sim.inRole .committer).take config.miners.toNat

theorem Staffed.inRole_length (h : Staffed config setups sim) (role : Role) :
    (sim.inRole role).length = (setups.map (·.role)).count role := by
  obtain ⟨build, hbuild, hentries⟩ := h.sessions
  rw [inRole, hentries, List.length_map, ← List.countP_eq_length_filter, List.countP_map,
    List.count_eq_countP, List.countP_map]
  refine List.countP_congr fun setup _ => ?_
  simp [(hbuild setup).2]

theorem ofSetups_staffed (hlength : 2 ≤ setups.length)
    (hascends : setups.Pairwise fun a b => a.node < b.node) (hminers : 1 ≤ config.miners.toNat)
    (hcommitters : .committer ∈ setups.map (·.role)) (random networkRandom : σ) :
    ∃ sim, ofSetups config setups random networkRandom = .ok sim ∧ Staffed config setups sim := by
  unfold ofSetups
  rw [if_neg (Nat.not_lt.mpr hlength)]
  extract_lets _ sessionConfig network sessions committers miners
  let build (setup : Setup) : Session :=
    .fresh { setup with
      peerSpeeds := Table.ofList (setup.peers.map fun peer => (peer, network.speed peer)) }
      sessionConfig
  have hsessions : sessions = setups.map fun setup => (setup.node, build setup) :=
    foldl_insertSession_ascending build hascends fun _ hentry => absurd hentry List.not_mem_nil
  have hstaffed (sim : Simulation σ) (hentries : sim.sessions.entries = sessions)
      (hsim : sim.miners = miners) : Staffed config setups sim := by
    refine ⟨⟨build, fun setup => ⟨rfl, rfl⟩, hentries.trans hsessions⟩, ?_⟩
    rw [hsim, inRole, hentries]
  have hsome : ¬miners.isEmpty := by
    obtain ⟨setup, hsetup, hrole⟩ := List.mem_map.mp hcommitters
    have hmem : setup.node ∈ committers := by
      refine List.mem_map.mpr ⟨(setup.node, build setup), List.mem_filter.mpr ⟨?_, ?_⟩, rfl⟩
      · rw [hsessions]
        exact List.mem_map_of_mem hsetup
      · exact decide_eq_true hrole
    rw [List.isEmpty_iff, List.take_eq_nil_iff]
    rintro (hzero | hnil)
    · omega
    · exact List.not_mem_nil (hnil ▸ hmem)
  rw [if_neg hsome]
  exact ⟨_, rfl, hstaffed _ rfl rfl⟩

-- ---------------------------------------------------------------------------
-- Networks that are drawn
-- ---------------------------------------------------------------------------

/-- There are as many nodes as there should be, as many in each role, and as many
miners; and these are the first committers, each of them once. -/
structure Cast (config : SimulationConfig) (sim : Simulation σ) : Prop where
  nodes : sim.nodes.map UInt32.toNat = List.range' 1 config.nodes.toNat
  own : ∀ entry ∈ sim.sessions.entries, entry.2.setup.node = entry.1
  orderers : (sim.inRole .order).length = config.orderers.toNat
  endorsers : (sim.inRole .endorser).length = config.endorsers.toNat
  clients : (sim.inRole .client).length = config.clients.toNat
  committers : (sim.inRole .committer).length = config.nodes.toNat - config.special
  miners : sim.miners.length = config.miners.toNat
  first : sim.miners = (sim.inRole .committer).take config.miners.toNat
  ascending : sim.miners.Pairwise (· < ·)
  committed : sim.miners ⊆ sim.inRole .committer
  smallest : ∀ a ∈ sim.miners, ∀ b ∈ sim.inRole .committer, b ∉ sim.miners → a < b

theorem Staffed.nodes_eq (h : Staffed config setups sim) : sim.nodes = setups.map (·.node) := by
  obtain ⟨build, -, hentries⟩ := h.sessions
  rw [nodes, Table.keys, hentries, List.map_map]
  rfl

theorem Staffed.own (h : Staffed config setups sim) :
    ∀ entry ∈ sim.sessions.entries, entry.2.setup.node = entry.1 := by
  obtain ⟨build, hbuild, hentries⟩ := h.sessions
  intro entry hentry
  rw [hentries] at hentry
  obtain ⟨setup, -, rfl⟩ := List.mem_map.mp hentry
  exact (hbuild setup).1

/-- The nodes of a role are among all nodes, in the same order. -/
theorem inRole_sublist (sim : Simulation σ) (role : Role) : (sim.inRole role).Sublist sim.nodes :=
  List.filter_sublist.map _

section
variable (hmine : sim.miners = (sim.inRole .committer).take config.miners.toNat)
  (hascends : sim.nodes.Pairwise (· < ·))
include hmine hascends

theorem miners_ascending : sim.miners.Pairwise (· < ·) := by
  have hcommitters := hascends.sublist (inRole_sublist sim .committer)
  rw [hmine]
  exact hcommitters.sublist (List.take_sublist ..)

/-- The miners are those committers that come before all others. -/
theorem miners_smallest {a b : NodeId} (ha : a ∈ sim.miners) (hb : b ∈ sim.inRole .committer)
    (hnot : b ∉ sim.miners) : a < b := by
  have hcommitters := hascends.sublist (inRole_sublist sim .committer)
  rw [← List.take_append_drop config.miners.toNat (sim.inRole .committer), ← hmine] at hb hcommitters
  exact (List.pairwise_append.mp hcommitters).2.2 a ha b ((List.mem_append.mp hb).resolve_left hnot)

end

variable {links : Links}

theorem drawnSetups_nodes (config : SimulationConfig) (links : Links)
    (roles : List (NodeId × Role)) :
    (drawnSetups config links roles).map (·.node) = links.map (·.1) := by
  simp [drawnSetups, Function.comp_def]

theorem drawnSetups_roles (config : SimulationConfig) (links : Links)
    (roles : List (NodeId × Role)) :
    (drawnSetups config links roles).map (·.role) = (links.map (·.1)).map (dealtRole roles) := by
  simp [drawnSetups, Function.comp_def]

/-- Nodes that are numbered one after another ascend. -/
theorem ascending_of_toNat {count : Nat} (h : nodes.map UInt32.toNat = List.range' 1 count) :
    nodes.Pairwise (· < ·) := by
  have hrange : (List.range' 1 count).Pairwise (· < ·) := List.pairwise_lt_range'
  rw [← h, List.pairwise_map] at hrange
  exact hrange

section
variable (hsound : config.Sound)
  (hnodes : (links.map (·.1)).map UInt32.toNat = List.range' 1 config.nodes.toNat)
  (horder : order.Perm (links.map (·.1)))
include hsound hnodes horder

/-- The roles of drawn nodes are the special ones, and committers otherwise. -/
theorem drawnSetups_perm :
    ((drawnSetups config links (dealRoles config order)).map (·.role)).Perm
      (specialRoles config ++ List.replicate (config.nodes.toNat - config.special) .committer) := by
  have hlength : (links.map (·.1)).length = config.nodes.toNat := by
    simpa using congrArg List.length hnodes
  have hdistinct : (links.map (·.1)).Nodup := (ascending_of_toNat hnodes).imp UInt32.ne_of_lt
  have hspecial : config.special ≤ (links.map (·.1)).length := hlength ▸ Nat.le_of_lt hsound.special
  rw [drawnSetups_roles]
  exact hlength ▸ dealt_perm horder hdistinct hspecial

theorem Staffed.cast (h : Staffed config (drawnSetups config links (dealRoles config order)) sim) :
    Cast config sim := by
  have hkeys : sim.nodes = links.map (·.1) := h.nodes_eq.trans (drawnSetups_nodes ..)
  have hascends : sim.nodes.Pairwise (· < ·) := hkeys ▸ ascending_of_toNat hnodes
  have hcount (role : Role) : (sim.inRole role).length = List.count role
      (specialRoles config ++ List.replicate (config.nodes.toNat - config.special) .committer) :=
    (h.inRole_length role).trans ((drawnSetups_perm hsound hnodes horder).count_eq role)
  have hcommitters : (sim.inRole .committer).length = config.nodes.toNat - config.special := by
    simp [hcount, specialRoles, List.count_replicate]
  refine
    { nodes := hkeys ▸ hnodes
      own := h.own
      orderers := by simp [hcount, specialRoles, List.count_replicate]
      endorsers := by simp [hcount, specialRoles, List.count_replicate]
      clients := by simp [hcount, specialRoles, List.count_replicate]
      committers := hcommitters
      miners := ?_
      first := h.miners
      ascending := miners_ascending h.miners hascends
      committed := h.miners ▸ List.take_subset ..
      smallest := fun a ha b => miners_smallest h.miners hascends ha }
  rw [h.miners, List.length_take, hcommitters]
  exact Nat.min_eq_left hsound.miners.2

end

/-- A sound configuration is drawn from, whatever the random orders. -/
theorem draw_cast (hsound : config.Sound) (hfault : config.fault? = none) {shuffle : Shuffler σ}
    (hshuffle : ∀ xs s, (shuffle xs s).1.Perm xs) (random networkRandom : σ) :
    ∃ sim, draw shuffle config random networkRandom = .ok sim ∧ Cast config sim := by
  have hmeshed := Links.build_meshed hshuffle config.nodes config.connections.toNat random
  unfold draw
  rw [hfault]
  dsimp only
  generalize Links.build shuffle config.nodes.toNat config.connections.toNat random = drawn at *
  have horder := hshuffle (drawn.1.map (·.1)) drawn.2
  generalize shuffle (drawn.1.map (·.1)) drawn.2 = dealt at *
  have hnodes : (drawn.1.map (·.1)).map UInt32.toNat = List.range' 1 config.nodes.toNat := by
    rw [List.map_map]
    exact hmeshed.nodes
  have hkeys := drawnSetups_nodes config drawn.1 (dealRoles config dealt.1)
  have hroles := drawnSetups_perm hsound hnodes horder
  have hlength := congrArg List.length hnodes
  have hascends := ascending_of_toNat hnodes
  rw [← hkeys, List.pairwise_map] at hascends
  rw [← hkeys, List.length_map, List.length_map, List.length_range'] at hlength
  have hcommitter : .committer ∈ (drawnSetups config drawn.1 (dealRoles config dealt.1)).map
      (·.role) := by
    refine hroles.mem_iff.mpr (List.mem_append_right _ (List.mem_replicate.mpr ⟨?_, rfl⟩))
    have := hsound.special
    omega
  obtain ⟨sim, hsim, hstaffed⟩ := ofSetups_staffed (hlength ▸ hsound.nodes) hascends
    hsound.miners.1 hcommitter dealt.2 networkRandom
  exact ⟨sim, hsim, hstaffed.cast hsound hnodes horder⟩

end Simulation

namespace SimulationConfig

/-- With positive speeds, a configuration is valid exactly when it is sound; a valid
one is built from, whatever the seed and the random orders. -/
theorem validate_sound (c : SimulationConfig) (hdown : c.speed.download > 0.0)
    (hup : c.speed.upload > 0.0) :
    (c.validate = .ok () ↔ c.Sound) ∧
      (c.validate = .ok () →
        (∃ sim, Simulation.ofConfig c = .ok sim ∧ sim.Cast c) ∧
          ∀ (σ : Type) (shuffle : Shuffler σ), (∀ xs s, (shuffle xs s).1.Perm xs) →
            ∀ random networkRandom, ∃ sim,
              Simulation.draw shuffle c random networkRandom = .ok sim ∧ sim.Cast c) := by
  have hiff := validate_ok_iff_fault.trans (fault?_none_iff hdown hup)
  refine ⟨hiff, fun hvalid => ?_⟩
  have hsound := hiff.mp hvalid
  have hfault := validate_ok_iff_fault.mp hvalid
  exact ⟨Simulation.draw_cast hsound hfault Random.shuffle_perm _ _,
    fun _ _ hshuffle random networkRandom =>
      Simulation.draw_cast hsound hfault hshuffle random networkRandom⟩

/-- Six nodes, three of them committers, of which the first two mine. Here the
roles are dealt from the first node up, so the committers are the last. -/
theorem validate_sound_six :
    let c : SimulationConfig := { usual with
      nodes := 6, connections := 5, orderers := 1, endorsers := 1, clients := 1, miners := 2 }
    let shuffle : Shuffler Unit := fun xs s => (xs, s)
    c.speed.download > 0.0 ∧ c.speed.upload > 0.0 ∧ c.validate = .ok () ∧
      ∃ sim, Simulation.draw shuffle c () () = .ok sim ∧ sim.Cast c ∧ sim.miners = [4, 5] ∧
        sim.inRole .committer = [4, 5, 6] ∧ sim.inRole .order = [1] ∧
        sim.inRole .endorser = [2] ∧ sim.inRole .client = [3] := by
  intro c shuffle
  have hrun : (Simulation.draw shuffle c () ()).toOption.map (fun sim =>
      (sim.miners, sim.inRole .committer, sim.inRole .order, sim.inRole .endorser,
        sim.inRole .client)) = some ([4, 5], [4, 5, 6], [1], [2], [3]) := by
    decide +kernel
  have hdown : c.speed.download > 0.0 := by decide +kernel
  have hup : c.speed.upload > 0.0 := by decide +kernel
  obtain ⟨-, hbuilt⟩ := validate_sound c hdown hup
  have hvalid : c.validate = .ok () := by decide +kernel
  obtain ⟨sim, hsim, hcast⟩ := (hbuilt hvalid).2 Unit shuffle (fun xs _ => .refl xs) () ()
  refine ⟨hdown, hup, hvalid, sim, hsim, hcast, ?_⟩
  rw [hsim] at hrun
  simpa [Except.toOption] using hrun

/-- A sum that does not fit 32 bits is no small sum. -/
example : ({ usual with clients := 4294967295, endorsers := 4294967295 }).validate =
    .error (.noCommitters 16) := by
  decide +kernel

end SimulationConfig

end BlockGossip
