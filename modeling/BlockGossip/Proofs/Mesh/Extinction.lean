import Mathlib.Order.OrderIsoNat
import BlockGossip.Proofs.Mesh.Convergence
import BlockGossip.Proofs.Session.Spending

/-!
# Gossip dies out

Frames that are delivered and timers that fire cause frames and timers, but not
without end: the budget of a mesh, its sessions' and that of the frames on their
way, is less after each of these steps (`Step.budget_lt`). Budgets are well
founded, so no run of such steps is infinite, and each leads to a mesh in which
nothing is left to do.
-/

namespace BlockGossip

/-- The parcel holds a whole frame, which asks nobody to take transactions. -/
structure Parcel.Plain (p : Parcel) : Prop where
  whole : Whole p.frame
  no_request : ∀ e ∈ (pullAll p.frame).1, e.kind? ≠ some .requestTrans

namespace Mesh

variable {sites : NodeId → Option Site} {m m' : Mesh} {n : NodeId} {s t : Session} {now : Time}
  {e : Event} {p : Parcel}

-- ---------------------------------------------------------------------------
-- Steps
-- ---------------------------------------------------------------------------

/-- A posted frame is delivered and gone, or a timer that runs fires. -/
inductive Step : Mesh → Mesh → Prop
  | delivered {m : Mesh} (now : Time) {p : Parcel} (hp : p ∈ m.posted) :
    Step m ((m.without p).act p.receiver now (.bytesReceived p.sender p.frame))
  | fired {m : Mesh} (now : Time) {n : NodeId} {s : Session} {timer : TimerId}
    (hn : m.node? n = some s) (ht : timer ∈ s.armed) : Step m (m.act n now (.timerFired timer))

/-- The meshes that started nodes come to by such steps and by minting, any
block at any node. -/
inductive Alive (sites : NodeId → Option Site) : Mesh → Prop
  | started (now : NodeId → Time) : Alive sites (.started sites now)
  | step {m m' : Mesh} (h : Alive sites m) (hstep : Step m m') : Alive sites m'
  | minted {m : Mesh} (h : Alive sites m) (now : Time) (n : NodeId) (b : Block) :
    Alive sites ((m.minting b).act n now (.blockMinted b))

-- ---------------------------------------------------------------------------
-- What such meshes keep to
-- ---------------------------------------------------------------------------

structure Lively (sites : NodeId → Option Site) (m : Mesh) : Prop where
  reachable : ∀ n s, m.node? n = some s →
    ∃ site, sites n = some site ∧ Session.Reachable site.setup site.config s
  running : ∀ n s, m.node? n = some s → s.running = true
  idle : ∀ n s, m.node? n = some s → s.frames.Idle
  posted : ∀ p ∈ m.posted, p.Plain

namespace Lively

theorem without (h : m.Lively sites) (p : Parcel) : (m.without p).Lively sites where
  reachable := h.reachable
  running := h.running
  idle := h.idle
  posted q hq := h.posted q (List.mem_of_mem_erase hq)

/-- What a session sends is plain, if it asks nobody to take transactions. -/
theorem plain_of_sends {kinds : List MessageKind} (ha : Anchored s.ledger s.orphans)
    (hsends : Sends kinds (s.handle e).2) (hkinds : .requestTrans ∉ kinds) :
    ∀ p ∈ parcelsOf n (s.handle e).2, p.Plain := by
  intro p hp
  obtain ⟨-, bytes, ha'⟩ := mem_parcelsOf.mp hp
  obtain ⟨message, hk, hencode, -⟩ := Session.handle_tells ha e _ ha'
  refine ⟨Envelope.encode_whole hencode, fun read hread hrequest => ?_⟩
  rw [Envelope.pullAll_encode hencode, Option.mem_toList] at hread
  rw [Envelope.reread?_kind hread, hk] at hrequest
  exact hkinds (Option.some.inj hrequest ▸ hsends _ ha' p.kind rfl)

theorem act (h : m.Lively sites) (hn : m.node? n = some s) (now : Time) (he : e ≠ .stop)
    (hwhole : ∀ sender bytes, e = .bytesReceived sender bytes → Whole bytes)
    {kinds : List MessageKind} (hsends : Sends kinds ((s.setTime now).handle e).2)
    (hkinds : .requestTrans ∉ kinds) : (m.act n now e).Lively sites := by
  obtain ⟨site, hsite, hreachable⟩ := h.reachable n s hn
  constructor
  · intro i t ht
    rcases node?_of_act hn ht with ⟨rfl, rfl⟩ | ⟨-, ht⟩
    · exact ⟨site, hsite, hreachable.step now e⟩
    · exact h.reachable i t ht
  · intro i t ht
    rcases node?_of_act hn ht with ⟨-, rfl⟩ | ⟨-, ht⟩
    · exact Session.handle_running (s := s.setTime now) (h.running n s hn) he
    · exact h.running i t ht
  · intro i t ht
    rcases node?_of_act hn ht with ⟨-, rfl⟩ | ⟨-, ht⟩
    · exact Session.handle_idle (s := s.setTime now) (h.idle n s hn) hwhole
    · exact h.idle i t ht
  · intro p hp
    rw [act_posted hn] at hp
    rcases List.mem_append.mp hp with hp | hp
    · exact h.posted p hp
    · exact plain_of_sends (s := s.setTime now) hreachable.sound.anchored hsends hkinds p hp

/-- The messages of a posted frame are those that its receiver takes from it. -/
theorem feed (h : m.Lively sites) (hp : p ∈ m.posted) (hn : m.node? n = some s) (now : Time)
    (sender : NodeId) :
    ((s.setTime now).frames.feed sender p.frame).1 = (pullAll p.frame).1 :=
  ((h.idle n s hn).feed (h.posted p hp).whole sender).1

theorem deliver (h : m.Lively sites) (hp : p ∈ m.posted) (now : Time) :
    ((m.without p).act p.receiver now (.bytesReceived p.sender p.frame)).Lively sites := by
  have hrest := h.without p
  cases hn : (m.without p).node? p.receiver with
  | none => rwa [act_absent hn]
  | some s =>
    refine hrest.act hn now nofun (fun _ _ he => ?_)
      (Session.handle_received_sends fun read hread => ?_) (by decide)
    · exact (Event.bytesReceived.inj he).2 ▸ (h.posted p hp).whole
    · rw [h.feed hp hn now] at hread
      exact (h.posted p hp).no_request read hread

theorem mint (h : m.Lively sites) (now : Time) (n : NodeId) (b : Block) :
    ((m.minting b).act n now (.blockMinted b)).Lively sites := by
  have hminting : (m.minting b).Lively sites := ⟨h.reachable, h.running, h.idle, h.posted⟩
  cases hn : (m.minting b).node? n with
  | none => rwa [act_absent hn]
  | some s =>
    exact hminting.act hn now nofun nofun (Session.handle_sends _ _) (by simp [Event.sends])

section
variable (hroles : ∀ n site, sites n = some site → site.setup.role ≠ .client)
include hroles

/-- Where nobody is a client, nobody is about to offer a transaction. -/
theorem armed_ne (h : m.Lively sites) (hn : m.node? n = some s) {timer : TimerId}
    (ht : timer ∈ s.armed) : timer ≠ .nextTransaction := by
  rintro rfl
  obtain ⟨site, hsite, hreachable⟩ := h.reachable n s hn
  obtain ⟨-, horiginates⟩ := hreachable.strict.next.mp ht
  rw [hreachable.sound.setup_eq] at horiginates
  exact hroles n site hsite (by simpa [Role.originates] using horiginates)

theorem fire (h : m.Lively sites) (hn : m.node? n = some s) (now : Time) {timer : TimerId}
    (ht : timer ∈ s.armed) : (m.act n now (.timerFired timer)).Lively sites := by
  have hne := h.armed_ne hroles hn ht
  refine h.act hn now nofun nofun (Session.handle_sends _ _) ?_
  cases timer with
  | nextTransaction => exact absurd rfl hne
  | inventoryTimeout => simp [Event.sends]
  | validation => simp [Event.sends]

end

end Lively

theorem started_lively (now : NodeId → Time) : (started sites now).Lively sites where
  reachable n s hn := by
    obtain ⟨site, hsite, rfl⟩ := started_node? hn
    exact ⟨site, hsite, .step .fresh (now n) .start⟩
  running n s hn := by
    obtain ⟨site, -, rfl⟩ := started_node? hn
    exact congrArg Core.running (Session.onStart_core _)
  idle n s hn := by
    obtain ⟨site, -, rfl⟩ := started_node? hn
    exact Session.handle_idle FrameDecoder.empty_idle nofun
  posted := nofun

-- ---------------------------------------------------------------------------
-- Budgets
-- ---------------------------------------------------------------------------

noncomputable def budget (m : Mesh) : Budget :=
  ∑ n, (m.node? n).elim 0 Session.budget + (m.posted.map fun p => frameBudget p.frame).sum

theorem parcels_budget (n : NodeId) (actions : List Action) :
    ((parcelsOf n actions).map fun p => frameBudget p.frame).sum = spent actions := by
  induction actions with
  | nil => rfl
  | cons a actions ih =>
    have hcons : spent (a :: actions) = a.budget + spent actions := List.sum_cons
    rw [hcons, ← ih]
    cases a with
    | send receiver kind frame bytes => exact List.sum_cons
    | setTimer => exact (zero_add _).symm
    | cancelTimer => exact (zero_add _).symm

/-- What a node does is paid for by its session and by what is added to the mesh. -/
theorem act_budget (hn : m.node? n = some s) (now : Time) (e : Event) :
    (m.act n now e).budget + s.budget =
      m.budget + ((s.after now e).budget + spent ((s.setTime now).handle e).2) := by
  have hsum := sum_change (f := fun i => (m.node? i).elim 0 Session.budget)
    (g := fun i => ((m.act n now e).node? i).elim 0 Session.budget) (k := n)
    fun i hi => by rw [act_node? hn, if_neg hi]
  simp only [act_self hn, hn, Option.elim_some] at hsum
  rw [budget, budget, act_posted hn, List.map_append, List.sum_append, parcels_budget]
  rw [add_right_comm, hsum]
  ac_rfl

theorem without_budget (hp : p ∈ m.posted) :
    (m.without p).budget + frameBudget p.frame = m.budget := by
  have hperm := ((List.perm_cons_erase hp).map fun p => frameBudget p.frame).sum_eq
  rw [budget, budget, hperm, List.map_cons, List.sum_cons]
  exact (add_assoc _ _ _).trans (congrArg _ (add_comm _ _))

/-- Each step of gossip leaves less to be done. -/
theorem Step.budget_lt (hroles : ∀ n site, sites n = some site → site.setup.role ≠ .client)
    (h : m.Lively sites) (hstep : Step m m') : m'.budget < m.budget := by
  cases hstep with
  | @delivered now p hp =>
    have hless : ((pullAll p.frame).1.map Envelope.budget).sum < frameBudget p.frame :=
      lt_add_of_pos_left _ (Budget.lt_iff.mpr (by decide))
    rw [← without_budget hp]
    cases hn : (m.without p).node? p.receiver with
    | none =>
      rw [act_absent hn]
      exact lt_add_of_pos_right _ (lt_of_le_of_lt (Budget.zero_le _) hless)
    | some s =>
      obtain ⟨site, -, hreachable⟩ := h.reachable p.receiver s hn
      have hfeed := h.feed hp hn now p.sender
      have haffords := Session.handle_received_affords
        (hreachable.strict.of_core (Session.setTime_core s now))
        (hfeed ▸ (h.posted p hp).no_request)
      rw [hfeed] at haffords
      refine lt_of_add_lt_add_right (a := s.budget) ?_
      rw [act_budget hn]
      calc (m.without p).budget + (_ + _)
          ≤ (m.without p).budget + (s.budget + ((pullAll p.frame).1.map Envelope.budget).sum) :=
            add_le_add_right haffords _
        _ < (m.without p).budget + (s.budget + frameBudget p.frame) :=
            add_lt_add_right (add_lt_add_right hless _) _
        _ = (m.without p).budget + frameBudget p.frame + s.budget := by ac_rfl
  | @fired now n s timer hn ht =>
    obtain ⟨site, -, hreachable⟩ := h.reachable n s hn
    have hspends := Session.handle_fired_spends (s := s.setTime now)
      (hreachable.strict.of_core (Session.setTime_core s now)) hreachable.sound.anchored
      hreachable.staged (h.running n s hn) ht (h.armed_ne hroles hn ht)
    refine lt_of_add_lt_add_right (a := s.budget) ?_
    rw [act_budget hn]
    exact add_lt_add_right hspends _

-- ---------------------------------------------------------------------------
-- Runs
-- ---------------------------------------------------------------------------

theorem Alive.lively (hroles : ∀ n site, sites n = some site → site.setup.role ≠ .client)
    (h : Alive sites m) : m.Lively sites := by
  induction h with
  | started now => exact started_lively now
  | step _ hstep ih =>
    cases hstep with
    | delivered now hp => exact ih.deliver hp now
    | fired now hn ht => exact ih.fire hroles hn now ht
  | minted _ now n b ih => exact ih.mint now n b

/-- Gossip that cannot go on is quiet. -/
theorem quiet_of_still (h : ∀ m', ¬Step m m') : m.Quiet where
  parcels _ hp := absurd (Step.delivered 0.0 hp) (h _)
  timers _ _ hn _ := ⟨fun ht => h _ (.fired 0.0 hn ht), fun ht => h _ (.fired 0.0 hn ht)⟩

/-- Gossip can always be left to come to a rest. -/
theorem Alive.quiet_reached (hroles : ∀ n site, sites n = some site → site.setup.role ≠ .client)
    (h : Alive sites m) : ∃ m', Relation.ReflTransGen Step m m' ∧ m'.Quiet := by
  induction hb : m.budget using WellFoundedLT.induction generalizing m with
  | ind x ih =>
    by_cases hstill : ∀ m', ¬Step m m'
    · exact ⟨m, .refl, quiet_of_still hstill⟩
    · obtain ⟨m', hstep⟩ := not_forall_not.mp hstill
      obtain ⟨rest, hruns, hquiet⟩ := ih m'.budget
        (hb ▸ hstep.budget_lt hroles (h.lively hroles)) (h.step hstep) rfl
      exact ⟨rest, .head hstep hruns, hquiet⟩

/-- Gossip dies out: each step that a mesh without clients may come to take
leaves a lesser budget, and budgets do not decrease for ever, so no run of such
steps is infinite. -/
theorem gossip_dies_out (hroles : ∀ n site, sites n = some site → site.setup.role ≠ .client)
    (h : Alive sites m) :
    (∀ m', Step m m' → m'.budget < m.budget) ∧
      WellFounded (fun x y : Budget => x < y) ∧
      ¬∃ run : ℕ → Mesh, run 0 = m ∧ ∀ k, Step (run k) (run (k + 1)) := by
  refine ⟨fun m' hstep => hstep.budget_lt hroles (h.lively hroles), wellFounded_lt, ?_⟩
  rintro ⟨run, rfl, hrun⟩
  have halive (k : ℕ) : Alive sites (run k) := by
    induction k with
    | zero => exact h
    | succ k ih => exact ih.step (hrun k)
  have hless (k : ℕ) : (run (k + 1)).budget < (run k).budget :=
    (hrun k).budget_lt hroles ((halive k).lively hroles)
  exact not_strictAnti_of_wellFoundedLT (fun k => (run k).budget) (strictAnti_nat_of_succ_lt hless)

/-- A block minted at one of two peers is announced, and that is not repeated
for ever. -/
theorem gossip_dies_out_pair :
    let b := { Block.genesis with height := 1, minerId := 1 }
    let m := ((started (pair .usual) fun _ => 0.0).minting b).act 1 1.0 (.blockMinted b)
    m.posted.map Parcel.kind = [.inv] ∧
      (∀ m', Step m m' → m'.budget < m.budget) ∧
      ¬∃ run : ℕ → Mesh, run 0 = m ∧ ∀ k, Step (run k) (run (k + 1)) := by
  intro b m
  have halive : Alive (pair .usual) m := .minted (.started fun _ => 0.0) 1.0 1 b
  have hroles n site (h : pair .usual n = some site) : site.setup.role ≠ .client := by
    rw [(eq_of_pair h).2.2.2]
    nofun
  obtain ⟨hless, -, hfinite⟩ := gossip_dies_out hroles halive
  exact ⟨by decide +kernel, hless, hfinite⟩

end Mesh

end BlockGossip
