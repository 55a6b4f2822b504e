import BlockGossip.Simulation.Topology
import Mathlib.Data.List.Count
import Mathlib.Data.List.Nodup
import Mathlib.Logic.Relation

/-!
# Random networks are connected and full

A network is drawn by adding links one at a time, and no link is taken away
(`Grows`); so it is connected because the ring is, and a node that found no
more peers will find none later (`Settled`). All of this holds for every order
in which the candidates are tried (`build_meshed`).
-/

namespace BlockGossip.Links

variable {links links' links'' : Links} {ids xs : List NodeId} {a b c d node : NodeId}
  {wanted : Nat}

-- ---------------------------------------------------------------------------
-- Ascending lists of peers
-- ---------------------------------------------------------------------------

theorem mem_insertPeer : a ∈ insertPeer node xs ↔ a = node ∨ a ∈ xs := by
  induction xs with
  | nil => rw [insertPeer, List.mem_singleton, or_iff_left List.not_mem_nil]
  | cons x xs ih =>
    rw [insertPeer]
    split
    · exact List.mem_cons
    · split
      · rename_i he
        exact (or_iff_right_of_imp fun h => h ▸ he ▸ List.mem_cons_self ..).symm
      · rw [List.mem_cons, ih, List.mem_cons, or_left_comm]

theorem insertPeer_ascends (h : xs.Pairwise (· < ·)) :
    (insertPeer node xs).Pairwise (· < ·) := by
  induction xs with
  | nil => exact List.pairwise_singleton ..
  | cons x xs ih =>
    obtain ⟨hx, hxs⟩ := List.pairwise_cons.mp h
    rw [insertPeer]
    split
    · rename_i hlt
      refine List.pairwise_cons.mpr ⟨fun y hy => ?_, h⟩
      rcases List.mem_cons.mp hy with rfl | hy
      · exact hlt
      · exact UInt32.lt_trans hlt (hx y hy)
    · split
      · exact h
      · rename_i hnot hne
        refine List.pairwise_cons.mpr ⟨fun y hy => ?_, ih hxs⟩
        rcases mem_insertPeer.mp hy with rfl | hy
        · exact UInt32.lt_of_le_of_ne (UInt32.not_lt.mp hnot) (Ne.symm hne)
        · exact hx y hy

theorem sublist_insertPeer (node : NodeId) (xs : List NodeId) : xs.Sublist (insertPeer node xs) := by
  induction xs with
  | nil => exact List.nil_sublist _
  | cons x xs ih =>
    rw [insertPeer]
    split
    · exact List.sublist_cons_self ..
    · split
      · exact .refl _
      · exact ih.cons_cons x

theorem length_insertPeer_le (node : NodeId) (xs : List NodeId) :
    (insertPeer node xs).length ≤ xs.length + 1 := by
  induction xs with
  | nil => exact Nat.le_refl _
  | cons x xs ih =>
    rw [insertPeer]
    split
    · exact Nat.le_refl _
    · split
      · exact Nat.le_succ _
      · exact Nat.succ_le_succ ih

-- ---------------------------------------------------------------------------
-- Adding links
-- ---------------------------------------------------------------------------

/-- The second node is a peer of the first. -/
def Linked (links : Links) (a b : NodeId) : Prop := b ∈ links.peers a

/-- Nothing is taken from the peers of a node. -/
def Grows (links links' : Links) : Prop := ∀ a, (links.peers a).Sublist (links'.peers a)

namespace Grows

theorem refl (links : Links) : links.Grows links := fun _ => .refl _

theorem trans (h : links.Grows links') (h' : links'.Grows links'') : links.Grows links'' :=
  fun a => (h a).trans (h' a)

theorem degree (h : links.Grows links') (a : NodeId) : links.degree a ≤ links'.degree a :=
  (h a).length_le

theorem linked (h : links.Grows links') (hab : links.Linked a b) : links'.Linked a b :=
  (h a).subset hab

end Grows

theorem peers_cons (entry : NodeId × List NodeId) (links : Links) (a : NodeId) :
    peers (entry :: links) a = if entry.1 = a then entry.2 else links.peers a := by
  unfold peers
  rw [List.find?_cons]
  by_cases h : entry.1 = a
  · rw [if_pos h, beq_iff_eq.mpr h]
    rfl
  · rw [if_neg h, beq_false_of_ne h]

theorem peers_unlinked (ids : List NodeId) (a : NodeId) :
    peers (ids.map fun id => (id, [])) a = [] := by
  induction ids with
  | nil => rfl
  | cons id ids ih => rw [List.map_cons, peers_cons, ih, ite_self]

theorem addPeer_nodes (links : Links) (a b : NodeId) :
    (links.addPeer a b).map (·.1) = links.map (·.1) := by
  rw [addPeer, List.map_map]
  refine List.map_congr_left fun entry _ => ?_
  dsimp only [Function.comp_apply]
  split <;> rfl

theorem peers_addPeer_other (links : Links) (b : NodeId) (h : a ≠ c) :
    (links.addPeer a b).peers c = links.peers c := by
  induction links with
  | nil => rfl
  | cons entry links ih =>
    rw [addPeer, List.map_cons, ← addPeer, peers_cons, peers_cons, ih]
    split
    · split
      · rename_i ha hc
        exact absurd (ha.symm.trans hc) h
      · rfl
    · rfl

theorem peers_addPeer (ha : a ∈ links.map (·.1)) (b : NodeId) :
    (links.addPeer a b).peers a = insertPeer b (links.peers a) := by
  induction links with
  | nil => exact absurd ha List.not_mem_nil
  | cons entry links ih =>
    rw [addPeer, List.map_cons, ← addPeer, peers_cons, peers_cons]
    by_cases he : entry.1 = a
    · rw [if_pos he, if_pos he, if_pos he]
    · rw [if_neg he, if_neg he, if_neg he]
      exact ih ((List.mem_cons.mp ha).resolve_left (Ne.symm he))

/-- What linking two nodes does to the peers of each node. -/
theorem peers_connect (ha : a ∈ links.map (·.1)) (hb : b ∈ links.map (·.1)) (hab : a ≠ b)
    (c : NodeId) : (links.connect a b).peers c =
      if c = a then insertPeer b (links.peers a)
      else if c = b then insertPeer a (links.peers b) else links.peers c := by
  rw [connect, if_neg hab]
  split
  · rename_i hc
    rw [hc, peers_addPeer_other _ a hab.symm, peers_addPeer ha]
  · rename_i hca
    split
    · rename_i hcb
      rw [hcb, peers_addPeer (addPeer_nodes links a b ▸ hb), peers_addPeer_other links b hab]
    · rename_i hcb
      rw [peers_addPeer_other _ a (Ne.symm hcb), peers_addPeer_other links b (Ne.symm hca)]

/-- The links are between different nodes of the given ones, and go both ways. -/
structure Between (ids : List NodeId) (links : Links) : Prop where
  nodes : links.map (·.1) = ids
  ascending : ∀ a, (links.peers a).Pairwise (· < ·)
  others : ∀ a b, links.Linked a b → b ∈ ids ∧ a ≠ b
  both : ∀ a b, links.Linked a b → links.Linked b a

namespace Between

theorem unlinked (ids : List NodeId) : Between ids (ids.map fun id => (id, [])) where
  nodes := by
    rw [List.map_map]
    exact List.map_id' ids
  ascending a := by
    rw [peers_unlinked]
    exact .nil
  others a b h := by
    rw [Linked, peers_unlinked] at h
    exact absurd h List.not_mem_nil
  both a b h := by
    rw [Linked, peers_unlinked] at h
    exact absurd h List.not_mem_nil

variable (h : Between ids links) (ha : a ∈ ids) (hb : b ∈ ids)
include h ha hb

theorem peers_connect (hab : a ≠ b) (c : NodeId) : (links.connect a b).peers c =
    if c = a then insertPeer b (links.peers a)
    else if c = b then insertPeer a (links.peers b) else links.peers c :=
  Links.peers_connect (h.nodes ▸ ha) (h.nodes ▸ hb) hab c

theorem connect_linked (hab : a ≠ b) : (links.connect a b).Linked c d ↔
    links.Linked c d ∨ c = a ∧ d = b ∨ c = b ∧ d = a := by
  rw [Linked, h.peers_connect ha hb hab]
  split
  · rename_i hc
    subst hc
    rw [mem_insertPeer, or_comm, Linked]
    simp [hab]
  · rename_i hca
    split
    · rename_i hcb
      subst hcb
      rw [mem_insertPeer, or_comm, Linked]
      simp [hca]
    · rename_i hcb
      rw [Linked]
      simp [hca, hcb]

theorem linked (hab : a ≠ b) : (links.connect a b).Linked a b :=
  (h.connect_linked ha hb hab).mpr (.inr (.inl ⟨rfl, rfl⟩))

theorem connect_grows (hab : a ≠ b) : links.Grows (links.connect a b) := by
  intro c
  rw [h.peers_connect ha hb hab]
  split
  · rename_i hc
    exact hc ▸ sublist_insertPeer b _
  · split
    · rename_i hc
      exact hc ▸ sublist_insertPeer a _
    · exact .refl _

theorem connect (hab : a ≠ b) : Between ids (links.connect a b) where
  nodes := by
    rw [Links.connect, if_neg hab, addPeer_nodes, addPeer_nodes]
    exact h.nodes
  ascending c := by
    rw [h.peers_connect ha hb hab]
    split
    · exact insertPeer_ascends (h.ascending a)
    · split
      · exact insertPeer_ascends (h.ascending b)
      · exact h.ascending c
  others c d hcd := by
    rcases (h.connect_linked ha hb hab).mp hcd with hcd | ⟨rfl, rfl⟩ | ⟨rfl, rfl⟩
    · exact h.others c d hcd
    · exact ⟨hb, hab⟩
    · exact ⟨ha, hab.symm⟩
  both c d hcd := by
    rw [h.connect_linked ha hb hab] at hcd ⊢
    rcases hcd with hcd | ⟨rfl, rfl⟩ | ⟨rfl, rfl⟩
    · exact .inl (h.both c d hcd)
    · exact .inr (.inr ⟨rfl, rfl⟩)
    · exact .inr (.inl ⟨rfl, rfl⟩)

/-- A link counts for both of its nodes. -/
theorem connect_degree (hab : a ≠ b) (c : NodeId) : (links.connect a b).degree c ≤
    links.degree c + [a].count c + [b].count c := by
  rw [degree, h.peers_connect ha hb hab, degree]
  split
  · rename_i hc
    subst hc
    rw [List.count_singleton_self]
    exact Nat.le_add_right_of_le (length_insertPeer_le b _)
  · split
    · rename_i hc
      subst hc
      rw [List.count_singleton_self]
      exact Nat.le_trans (length_insertPeer_le a _) (by omega)
    · omega

end Between

-- ---------------------------------------------------------------------------
-- The ring
-- ---------------------------------------------------------------------------

open Relation (ReflTransGen)

/-- The nodes are linked one after another. -/
structure Chained (ids xs : List NodeId) (links links' : Links) : Prop where
  between : Between ids links'
  grows : links.Grows links'
  degree : ∀ c, links'.degree c ≤ links.degree c + xs.dropLast.count c + xs.tail.count c
  reaches : ∀ a ∈ xs.head?, ∀ b ∈ xs, ReflTransGen links'.Linked a b

theorem connectChain_chained (h : Between ids links) (hsub : xs ⊆ ids) (hdistinct : xs.Nodup) :
    Chained ids xs links (connectChain links xs) := by
  induction links, xs using connectChain.induct with
  | case1 links a b rest ih =>
    obtain ⟨ha, hsub'⟩ := List.cons_subset.mp hsub
    obtain ⟨hnot, hdistinct'⟩ := List.nodup_cons.mp hdistinct
    have hb : b ∈ ids := hsub' (List.mem_cons_self ..)
    have hab : a ≠ b := fun he => hnot (he ▸ List.mem_cons_self ..)
    have hrest := ih (h.connect ha hb hab) hsub' hdistinct'
    rw [connectChain]
    refine ⟨hrest.between, (h.connect_grows ha hb hab).trans hrest.grows, fun c => ?_, ?_⟩
    · have hchain := hrest.degree c
      have hlink := h.connect_degree ha hb hab c
      rw [List.tail_cons] at hchain
      rw [List.count_singleton, List.count_singleton] at hlink
      rw [List.dropLast_cons_cons, List.count_cons, List.tail_cons, List.count_cons (l := rest)]
      omega
    · rintro _ ⟨⟩ c hc
      rcases List.mem_cons.mp hc with rfl | hc
      · exact .refl
      · exact .head (hrest.grows.linked (h.linked ha hb hab)) (hrest.reaches b rfl c hc)
  | case2 xs links hshort =>
    have hsame : connectChain links xs = links := by
      rcases xs with - | ⟨a, - | ⟨b, rest⟩⟩
      · rfl
      · rfl
      · exact (hshort a b rest rfl).elim
    rw [hsame]
    refine ⟨h, .refl links, fun c => Nat.le_add_right_of_le (Nat.le_add_right ..), ?_⟩
    rintro a ha b hb
    rcases xs with - | ⟨a', - | ⟨b', rest⟩⟩
    · exact nomatch ha
    · obtain rfl := List.mem_singleton.mp hb
      obtain rfl := Option.some.inj ha
      exact .refl
    · exact (hshort a' b' rest rfl).elim

/-- What the ring is, and what is kept from it: links between the given nodes that
connect all of them. -/
structure Connects (ids : List NodeId) (links : Links) : Prop where
  between : Between ids links
  connected : ∀ a ∈ ids, ∀ b ∈ ids, ReflTransGen links.Linked a b

theorem Connects.grows (h : Connects ids links) (hbetween : Between ids links')
    (hgrows : links.Grows links') : Connects ids links' where
  between := hbetween
  connected a ha b hb :=
    ReflTransGen.mono (fun _ _ hab => hgrows.linked hab) a b (h.connected a ha b hb)

theorem Chained.connects (h : Chained ids ids links links') : Connects ids links' where
  between := h.between
  connected a ha b hb := by
    cases ids with
    | nil => exact absurd ha List.not_mem_nil
    | cons first rest =>
      have hback : ReflTransGen links'.Linked a first :=
        ReflTransGen.mono (fun c d => h.between.both d c) a first (h.reaches first rfl a ha).swap
      exact hback.trans (h.reaches first rfl b hb)

theorem ring_connects (hdistinct : ids.Nodup) :
    Connects ids (ring ids) ∧ ∀ a, (ring ids).degree a ≤ 2 := by
  have hchain := connectChain_chained (.unlinked ids) (List.Subset.refl ids) hdistinct
  -- A node is the first end of at most one link of the ring, and the second of at most one.
  have honce := List.nodup_iff_count_le_one.mp hdistinct
  have hdegree (c : NodeId) : (connectChain (ids.map fun id => (id, [])) ids).degree c ≤
      ids.dropLast.count c + ids.tail.count c := by
    have := hchain.degree c
    rwa [degree, degree, peers_unlinked, List.length_nil, Nat.zero_add] at this
  unfold ring
  dsimp only
  split
  · rename_i ids first x y rest
    generalize hlast : (first :: x :: y :: rest).getLastD first = last
    have hconcat : (first :: x :: y :: rest).dropLast ++ [last] = first :: x :: y :: rest := by
      rw [← hlast]
      exact List.dropLast_concat_getLast (List.cons_ne_nil first (x :: y :: rest))
    have hne : last ≠ first := fun he => by
      have hmem : first ∈ (first :: x :: y :: rest).dropLast := List.mem_cons_self ..
      rw [← hconcat, List.nodup_append, he] at hdistinct
      exact hdistinct.2.2 first hmem first (List.mem_singleton_self first) rfl
    have hmem : last ∈ first :: x :: y :: rest := by
      rw [← hconcat]
      exact List.mem_append_right _ (List.mem_singleton_self last)
    have hfirst : first ∈ first :: x :: y :: rest := List.mem_cons_self ..
    have hring := hchain.between
    refine ⟨hchain.connects.grows (hring.connect hmem hfirst hne)
      (hring.connect_grows hmem hfirst hne), fun c => ?_⟩
    have hclose := hring.connect_degree hmem hfirst hne c
    have hsum := hdegree c
    have hout := honce c
    have hin := honce c
    rw [← hconcat, List.count_append] at hout
    rw [← List.singleton_append, List.count_append] at hin
    rw [List.tail_cons] at hsum
    omega
  · refine ⟨hchain.connects, fun c => ?_⟩
    have hdrop := (List.dropLast_sublist ids).count_le c
    have htail := (List.tail_sublist ids).count_le c
    have := hdegree c
    have := honce c
    omega

-- ---------------------------------------------------------------------------
-- Further links
-- ---------------------------------------------------------------------------

/-- Links are added, and no node gets more than `wanted` peers by it. -/
structure Extends (ids : List NodeId) (wanted : Nat) (links links' : Links) : Prop where
  between : Between ids links'
  grows : links.Grows links'
  capped : ∀ c, links'.degree c ≤ max (links.degree c) wanted

namespace Extends

theorem refl (h : Between ids links) : Extends ids wanted links links where
  between := h
  grows := .refl links
  capped _ := Nat.le_max_left ..

theorem trans (h : Extends ids wanted links links') (h' : Extends ids wanted links' links'') :
    Extends ids wanted links links'' where
  between := h'.between
  grows := h.grows.trans h'.grows
  capped c := by
    have := h.capped c
    have := h'.capped c
    omega

theorem connect (h : Between ids links) (ha : a ∈ ids) (hb : b ∈ ids) (hab : a ≠ b)
    (hdega : links.degree a < wanted) (hdegb : links.degree b < wanted) :
    Extends ids wanted links (links.connect a b) where
  between := h.connect ha hb hab
  grows := h.connect_grows ha hb hab
  capped c := by
    have hlink := h.connect_degree ha hb hab c
    rw [List.count_singleton, List.count_singleton] at hlink
    by_cases hca : a = c
    · subst hca
      rw [if_pos (beq_self_eq_true a), if_neg (by simpa using hab.symm)] at hlink
      omega
    · rw [if_neg (by simpa using hca)] at hlink
      by_cases hcb : b = c
      · subst hcb
        rw [if_pos (beq_self_eq_true b)] at hlink
        omega
      · rw [if_neg (by simpa using hcb)] at hlink
        omega

end Extends

/-- The first node is linked to the second, or one of them has enough peers. -/
def Settled (wanted : Nat) (links : Links) (a b : NodeId) : Prop :=
  links.degree a < wanted → links.degree b < wanted → links.Linked a b

theorem Settled.grows (h : Settled wanted links a b) (hgrows : links.Grows links') :
    Settled wanted links' a b := fun ha hb =>
  hgrows.linked (h (Nat.lt_of_le_of_lt (hgrows.degree a) ha)
    (Nat.lt_of_le_of_lt (hgrows.degree b) hb))

theorem seek_extends (wanted : Nat) (h : Between ids links) (hnode : node ∈ ids)
    (hxs : ∀ x ∈ xs, x ∈ ids ∧ node ≠ x) :
    Extends ids wanted links (seek wanted node links xs) ∧
      ∀ x ∈ xs, Settled wanted (seek wanted node links xs) node x := by
  induction xs generalizing links with
  | nil => exact ⟨.refl h, nofun⟩
  | cons x xs ih =>
    obtain ⟨⟨hx, hne⟩, hrest⟩ := List.forall_mem_cons.mp hxs
    rw [seek]
    split
    · rename_i henough
      exact ⟨.refl h, fun _ _ hdegree => absurd hdegree (Nat.not_lt.mpr henough)⟩
    · rename_i hseeks
      split
      · rename_i hseeked
        have hlink := Extends.connect h hnode hx hne (Nat.lt_of_not_le hseeks) hseeked
        obtain ⟨hextends, hsettled⟩ := ih hlink.between hrest
        refine ⟨hlink.trans hextends, List.forall_mem_cons.mpr ⟨fun _ _ => ?_, hsettled⟩⟩
        exact hextends.grows.linked (h.linked hnode hx hne)
      · rename_i henough
        obtain ⟨hextends, hsettled⟩ := ih h hrest
        have hfull : Settled wanted links node x := fun _ hdegree => absurd hdegree henough
        exact ⟨hextends, List.forall_mem_cons.mpr ⟨hfull.grows hextends.grows, hsettled⟩⟩

variable {σ : Type} {shuffle : Shuffler σ}

theorem seekAll_extends (hshuffle : ∀ xs s, (shuffle xs s).1.Perm xs) (wanted : Nat)
    (h : Between ids links) (hxs : xs ⊆ ids) (s : σ) :
    Extends ids wanted links (seekAll shuffle wanted ids xs links s).1 ∧
      ∀ a ∈ xs, ∀ b ∈ ids, a ≠ b →
        Settled wanted (seekAll shuffle wanted ids xs links s).1 a b := by
  induction xs generalizing links s with
  | nil => exact ⟨.refl h, nofun⟩
  | cons node rest ih =>
    obtain ⟨hnode, hrest⟩ := List.cons_subset.mp hxs
    rw [seekAll]
    dsimp only
    generalize hcandidates :
      (ids.filter fun other => other != node && !(links.peers node).contains other) = candidates
    have horder := hshuffle candidates s
    generalize shuffle candidates s = drawn at horder ⊢
    have hmem (x : NodeId) : x ∈ drawn.1 ↔ x ∈ ids ∧ node ≠ x ∧ ¬links.Linked node x := by
      rw [horder.mem_iff, ← hcandidates, List.mem_filter, Linked, ne_comm (a := node)]
      simp
    have hfound : ∀ x ∈ drawn.1, x ∈ ids ∧ node ≠ x := fun x hx =>
      ⟨((hmem x).mp hx).1, ((hmem x).mp hx).2.1⟩
    obtain ⟨hseek, hsought⟩ := seek_extends wanted h hnode hfound
    obtain ⟨hextends, hsettled⟩ := ih hseek.between hrest drawn.2
    refine ⟨hseek.trans hextends, List.forall_mem_cons.mpr ⟨fun b hb hne => ?_, hsettled⟩⟩
    -- The candidates are listed before the search: whoever is left out was linked by then.
    by_cases hlinked : links.Linked node b
    · exact fun _ _ => (hseek.trans hextends).grows.linked hlinked
    · exact (hsought b ((hmem b).mpr ⟨hb, hne, hlinked⟩)).grows hextends.grows

-- ---------------------------------------------------------------------------
-- Networks
-- ---------------------------------------------------------------------------

theorem nodeIds_toNat {nodes : Nat} (h : nodes < UInt32.size) :
    (nodeIds nodes).map UInt32.toNat = List.range' 1 nodes := by
  rw [nodeIds, List.map_map, List.range'_eq_map_range]
  refine List.map_congr_left fun i hi => ?_
  have hlt := List.mem_range.mp hi
  rw [Function.comp_apply, UInt32.toNat_ofNat_of_lt' (by omega), Nat.add_comm]

theorem nodeIds_distinct {nodes : Nat} (h : nodes < UInt32.size) : (nodeIds nodes).Nodup := by
  refine List.Nodup.of_map UInt32.toNat ?_
  rw [nodeIds_toNat h]
  exact List.nodup_range'

/-- A network of the nodes from one on: all of them are connected, none has too
many peers, and no two that look for more could be linked. -/
structure Meshed (nodes wanted : Nat) (links : Links) : Prop where
  nodes : links.map (·.1.toNat) = List.range' 1 nodes
  between : Between (links.map (·.1)) links
  connected : ∀ a ∈ links.map (·.1), ∀ b ∈ links.map (·.1), ReflTransGen links.Linked a b
  capped : ∀ a, links.degree a ≤ max 2 wanted
  full : ∀ a ∈ links.map (·.1), ∀ b ∈ links.map (·.1), a ≠ b → links.degree a < wanted →
    links.degree b < wanted → links.Linked a b

/-- Whatever the order in which peers are looked for, the network is well formed. -/
theorem build_meshed (hshuffle : ∀ xs s, (shuffle xs s).1.Perm xs) (nodes : UInt32)
    (wanted : Nat) (s : σ) :
    Meshed nodes.toNat wanted (build shuffle nodes.toNat wanted s).1 := by
  have hdistinct := nodeIds_distinct nodes.toNat_lt
  obtain ⟨hring, htwo⟩ := ring_connects hdistinct
  obtain ⟨hextends, hsettled⟩ := seekAll_extends hshuffle wanted hring.between
    (List.Subset.refl _) s
  have hnodes := hextends.between.nodes
  rw [← build] at hnodes hextends hsettled
  refine ⟨?_, hnodes ▸ hextends.between, hnodes ▸ ?_, fun a => ?_, hnodes ▸ hsettled⟩
  · rw [← nodeIds_toNat nodes.toNat_lt, ← hnodes, List.map_map]
    rfl
  · exact (hring.grows hextends.between hextends.grows).connected
  · have := hextends.capped a
    have := htwo a
    omega

/-- Six nodes look for three peers each, and try the last candidates first: the
third and the fourth have only two, and are linked. -/
theorem build_meshed_reverse :
    let shuffle : Shuffler Unit := fun xs s => (xs.reverse, s)
    let links := (build shuffle 6 3 ()).1
    (∀ xs s, (shuffle xs s).1.Perm xs) ∧ Meshed 6 3 links ∧
      links = [(1, [2, 5, 6]), (2, [1, 3, 6]), (3, [2, 4]), (4, [3, 5]), (5, [1, 4, 6]),
        (6, [1, 2, 5])] := by
  intro shuffle links
  have hshuffle : ∀ xs s, (shuffle xs s).1.Perm xs := fun xs _ => List.reverse_perm xs
  exact ⟨hshuffle, build_meshed hshuffle 6 3 (), by decide +kernel⟩

end BlockGossip.Links
