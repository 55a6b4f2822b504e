import BlockGossip.Proofs.Session.Sends

/-!
# Meshes

Sessions that gossip with each other: the state of each node, the frames that
were posted, and what was minted. A node acts by handling one event; what it
sends is posted. Which events may come, and whether a delivered frame stays
posted, is for the runs to say.
-/

namespace BlockGossip

structure Parcel where
  sender : NodeId
  receiver : NodeId
  kind : MessageKind
  frame : Bytes
deriving DecidableEq, Repr

/-- The frames that a node's actions send. -/
def parcelsOf (sender : NodeId) (actions : List Action) : List Parcel :=
  actions.filterMap fun
    | .send receiver kind frame _ => some ⟨sender, receiver, kind, frame⟩
    | _ => none

theorem mem_parcelsOf {sender : NodeId} {actions : List Action} {p : Parcel} :
    p ∈ parcelsOf sender actions ↔
      p.sender = sender ∧ ∃ bytes, .send p.receiver p.kind p.frame bytes ∈ actions := by
  rw [parcelsOf, List.mem_filterMap]
  constructor
  · rintro ⟨a, ha, hp⟩
    cases a with
    | send receiver kind frame bytes =>
      obtain rfl := Option.some.inj hp
      exact ⟨rfl, bytes, ha⟩
    | setTimer => exact nomatch hp
    | cancelTimer => exact nomatch hp
  · rintro ⟨rfl, bytes, ha⟩
    exact ⟨_, ha, rfl⟩

/-- What a node is set up with. -/
structure Site where
  setup : Setup
  config : SessionConfig

structure Mesh where
  node? : NodeId → Option Session
  posted : List Parcel
  minted : List Block
  /-- The requests that were given up, with the nodes that gave them up. -/
  abandoned : List (NodeId × BlockId)

namespace Mesh

variable {m m' : Mesh} {n i : NodeId} {s t : Session} {now : Time} {e : Event} {b : Block}
  {id : BlockId}

/-- A node handles an event. Nothing happens where there is no such node. -/
def act (m : Mesh) (n : NodeId) (now : Time) (e : Event) : Mesh :=
  match m.node? n with
  | none => m
  | some s =>
    { m with
      node? := fun i => if i = n then some (s.after now e) else m.node? i
      posted := m.posted ++ parcelsOf n ((s.setTime now).handle e).2
      abandoned := m.abandoned ++ ((s.setTime now).abandoned? e).toList.map (n, ·) }

def minting (m : Mesh) (b : Block) : Mesh := { m with minted := m.minted ++ [b] }

theorem act_absent (hn : m.node? n = none) (now : Time) (e : Event) : m.act n now e = m := by
  rw [act, hn]

theorem act_node? (hn : m.node? n = some s) (now : Time) (e : Event) (i : NodeId) :
    (m.act n now e).node? i = if i = n then some (s.after now e) else m.node? i := by
  rw [act, hn]

theorem act_self (hn : m.node? n = some s) (now : Time) (e : Event) :
    (m.act n now e).node? n = some (s.after now e) := by
  rw [act_node? hn, if_pos rfl]

theorem act_posted (hn : m.node? n = some s) (now : Time) (e : Event) :
    (m.act n now e).posted = m.posted ++ parcelsOf n ((s.setTime now).handle e).2 := by
  rw [act, hn]

theorem act_minted (m : Mesh) (n : NodeId) (now : Time) (e : Event) :
    (m.act n now e).minted = m.minted := by
  unfold act
  split <;> rfl

theorem act_abandoned (hn : m.node? n = some s) (now : Time) (e : Event) :
    (m.act n now e).abandoned =
      m.abandoned ++ ((s.setTime now).abandoned? e).toList.map (n, ·) := by
  rw [act, hn]

/-- A node after an event is the one that handled it, or as it was. -/
theorem node?_of_act (hn : m.node? n = some s) (ht : (m.act n now e).node? i = some t) :
    (i = n ∧ t = s.after now e) ∨ (i ≠ n ∧ m.node? i = some t) := by
  rw [act_node? hn] at ht
  split at ht
  · rename_i hi
    exact .inl ⟨hi, (Option.some.inj ht).symm⟩
  · rename_i hi
    exact .inr ⟨hi, ht⟩

-- ---------------------------------------------------------------------------
-- What a mesh holds
-- ---------------------------------------------------------------------------

/-- A node has stored the block. -/
def Holds (m : Mesh) (n : NodeId) (id : BlockId) : Prop :=
  ∃ s, m.node? n = some s ∧ s.ledger.contains id = true

/-- The blocks that all others are copies of. -/
def originals (m : Mesh) : List Block := .genesis :: m.minted

/-- Originals and stored blocks stay. -/
structure Grown (m m' : Mesh) : Prop where
  originals : ∀ o ∈ m.originals, o ∈ m'.originals
  holds : ∀ n id, m.Holds n id → m'.Holds n id

theorem minting_grown (m : Mesh) (b : Block) : Grown m (m.minting b) where
  originals o ho := by
    rcases List.mem_cons.mp ho with rfl | ho
    · exact List.mem_cons_self ..
    · exact List.mem_cons_of_mem _ (List.mem_append_left _ ho)
  holds _ _ h := h

theorem act_grown (hn : m.node? n = some s) (ha : Anchored s.ledger s.orphans) (now : Time)
    (e : Event) : Grown m (m.act n now e) where
  originals o ho := by rwa [originals, act_minted]
  holds i id h := by
    obtain ⟨t, ht, hid⟩ := h
    by_cases hi : i = n
    · subst hi
      obtain rfl := Option.some.inj (hn.symm.trans ht)
      refine ⟨s.after now e, act_self hn now e, ?_⟩
      obtain ⟨b, hb, hid⟩ := (Ledger.contains_iff ha.indexed).mp hid
      have hafter := Session.acceptance_anchored (s := s.setTime now) ha e
      rw [Session.after, Session.handle_ledger, Ledger.contains_iff hafter.indexed,
        Session.acceptance_toList (s := s.setTime now) ha e]
      exact ⟨b, List.mem_append_left _ hb, hid⟩
    · exact ⟨t, by rwa [act_node? hn, if_neg hi], hid⟩

end Mesh

/-- Two nodes that are each other's only peers. -/
def pair (config : SessionConfig) : NodeId → Option Site := fun n =>
  if n = 1 then some ⟨⟨1, .committer, [2], .standard, .usual, .empty⟩, config⟩
  else if n = 2 then some ⟨⟨2, .committer, [1], .standard, .usual, .empty⟩, config⟩
  else none

theorem eq_of_pair {config : SessionConfig} {n : NodeId} {site : Site}
    (h : pair config n = some site) :
    (n = 1 ∨ n = 2) ∧ site.config = config ∧ site.setup.protocol = .standard ∧
      site.setup.role = .committer := by
  unfold pair at h
  split at h
  · rename_i hn
    obtain rfl := Option.some.inj h
    exact ⟨.inl hn, rfl, rfl, rfl⟩
  · split at h
    · rename_i hn
      obtain rfl := Option.some.inj h
      exact ⟨.inr hn, rfl, rfl, rfl⟩
    · exact nomatch h

end BlockGossip
