import BlockGossip.Proofs.Ledger.Filing
import BlockGossip.Proofs.Ledger.Anchored

/-!
# Promotion takes the descendants of its root

An orphan descends from the root if a chain of orphans links it to the root.
`Descent` is what a walk over the frontier keeps: the root and what was
promoted are the blocks that were asked for their children and those that still
stand in the frontier, in this order; no remaining orphan is a child of a block
that was asked; and the frontier spans at most two heights, the lower one
first. Nothing is asked of the ledger but that it shares no id with the orphans.
-/

namespace BlockGossip

/-- A chain of orphans links the orphan to the root. -/
inductive Descends (rule : Linkage) (pool : OrphanPool) (root : Block) : Block → Prop where
  | child : o ∈ pool.blocks → rule.isParent root o = true → Descends rule pool root o
  | next : Descends rule pool root a → o ∈ pool.blocks → rule.isParent a o = true →
      Descends rule pool root o

namespace Promotion

open Linkage (isParent)

/-- The walk without a bound on its steps: it ends when the frontier is empty. -/
inductive Ends : Promotion → List Block → Promotion → Prop where
  | nil : Ends p [] p
  | cons {frontier : List Block} : Ends (p.adopt parent)
      (frontier ++ (p.adopt parent).promoted.drop p.promoted.length) q →
      Ends p (parent :: frontier) q

structure Descent (start : Ledger) (pool : OrphanPool) (root : Block) (p : Promotion)
    (done frontier : List Block) : Prop where
  queue : done ++ frontier = root :: p.promoted
  ledger : p.ledger = start.storedAll p.promoted
  shared : (p.promoted ++ p.orphans.blocks).Perm pool.blocks
  remaining : p.orphans.blocks =
    pool.blocks.filter fun o => o.id ∉ p.promoted.map Block.id
  fed : ∀ b ∈ done, ∀ o ∈ p.orphans.blocks, start.linkage.isParent b o = false
  descends : ∀ b ∈ p.promoted, Descends start.linkage pool root b
  parents : ∀ i b, p.promoted[i]? = some b →
    ∃ a ∈ root :: p.promoted.take i, start.linkage.isParent a b = true
  heights : (root :: p.promoted).Pairwise (·.height.toNat ≤ ·.height.toNat)
  spread : ∀ a ∈ frontier, ∀ b ∈ root :: p.promoted, b.height.toNat ≤ a.height.toNat + 1

namespace Descent

theorem atStart (l : Ledger) (pool : OrphanPool) (root : Block) :
    Descent l pool root ⟨l, pool, []⟩ [] [root] where
  queue := rfl
  ledger := rfl
  shared := .refl _
  remaining := by simp
  fed := by simp
  descends := by simp
  parents := by simp
  heights := by simp
  spread := by simp

variable {start : Ledger} {pool : OrphanPool} {root parent b : Block} {p : Promotion}
  {done frontier : List Block}

theorem orphan_mem (h : Descent start pool root p done frontier) (hb : b ∈ p.orphans.blocks) :
    b ∈ pool.blocks :=
  h.shared.subset (List.mem_append_right _ hb)

section
variable (hs : start.Indexed) (hd : ((start.toList ++ pool.blocks).map Block.id).Nodup)
include hd

theorem mem_of_id_mem {xs : List Block} {o : Block} (ho : o ∈ pool.blocks)
    (hx : ∀ b ∈ xs, b ∈ pool.blocks) : o.id ∈ xs.map Block.id ↔ o ∈ xs := by
  refine ⟨fun h => ?_, List.mem_map_of_mem⟩
  obtain ⟨b, hb, hid⟩ := List.mem_map.mp h
  rw [List.map_append, List.nodup_append] at hd
  exact List.inj_on_of_nodup_map hd.2.1 (hx b hb) ho hid ▸ hb

/-- Wherever its blocks stand by now, no id stands there twice. -/
theorem distinct (h : Descent start pool root p done frontier) :
    ((start.toList ++ (p.promoted ++ p.orphans.blocks)).map Block.id).Nodup :=
  ((h.shared.append_left start.toList).map Block.id).nodup_iff.mpr hd

include hs

theorem stored (h : Descent start pool root p done frontier) :
    p.ledger.Indexed ∧ p.ledger.toList = start.toList ++ p.promoted := by
  rw [h.ledger]
  refine Ledger.storedAll_indexed hs ((h.distinct hd).sublist (List.Sublist.map _ ?_))
  exact (List.sublist_append_left _ _).append_left _

theorem adopt_eq (h : Descent start pool root p done frontier) (parent : Block) :
    p.adopt parent =
      { ledger := start.storedAll (p.promoted ++ p.orphans.children start.linkage parent)
        orphans := (p.orphans.takeChildren start.linkage parent).2
        promoted := p.promoted ++ p.orphans.children start.linkage parent } := by
  obtain ⟨hindexed, hlist⟩ := h.stored hs hd
  have hlinkage : p.ledger.linkage = start.linkage := by
    rw [h.ledger, Ledger.storedAll_linkage]
  have hsub : (p.ledger.toList ++ p.orphans.children start.linkage parent).Sublist
      (start.toList ++ (p.promoted ++ p.orphans.blocks)) := by
    rw [hlist, List.append_assoc]
    exact (List.filter_sublist.append_left _).append_left _
  have hfold := foldl_store
    { p with orphans := (p.orphans.takeChildren start.linkage parent).2 } _ hindexed
    ((h.distinct hd).sublist (hsub.map _))
  simp only [adopt, hlinkage]
  refine hfold.trans ?_
  simp only [h.ledger, Ledger.storedAll, List.foldl_append]

omit hd hs in
theorem parent_mem (h : Descent start pool root p done (parent :: frontier)) :
    parent ∈ root :: p.promoted := by
  rw [← h.queue]
  exact List.mem_append_right _ (List.mem_cons_self ..)

omit hd hs in
theorem parent_le (h : Descent start pool root p done (parent :: frontier)) :
    ∀ a ∈ frontier, parent.height.toNat ≤ a.height.toNat := by
  have hpair := h.heights
  rw [← h.queue, List.pairwise_append] at hpair
  exact (List.pairwise_cons.mp hpair.2.1).1

omit hs in
theorem remaining_adopt (h : Descent start pool root p done frontier) (parent : Block) :
    (p.orphans.takeChildren start.linkage parent).2.blocks =
      pool.blocks.filter fun o => o.id ∉
        (p.promoted ++ p.orphans.children start.linkage parent).map Block.id := by
  have hsub : ∀ b ∈ p.orphans.children start.linkage parent, b ∈ pool.blocks := fun b hb =>
    h.orphan_mem (List.mem_of_mem_filter hb)
  simp only [OrphanPool.takeChildren, h.remaining, List.filter_filter]
  refine List.filter_congr fun o ho => ?_
  have htaken : o.id ∈ (p.orphans.children start.linkage parent).map Block.id ↔
      o.id ∉ p.promoted.map Block.id ∧ start.linkage.isParent parent o = true := by
    rw [mem_of_id_mem hd ho hsub, OrphanPool.children, h.remaining]
    simp [ho, and_comm]
  by_cases hold : o.id ∈ p.promoted.map Block.id <;> simp [hold, htaken]

/-- One step of the walk: the first block of the frontier is asked for its
children, which join the promoted blocks and the frontier's end. -/
theorem adopt (h : Descent start pool root p done (parent :: frontier)) :
    Descent start pool root (p.adopt parent) (done ++ [parent])
      (frontier ++ (p.adopt parent).promoted.drop p.promoted.length) := by
  have hremaining := h.remaining_adopt hd parent
  have hshared := children_append_rest p.orphans start.linkage parent
  have hchild : ∀ b ∈ p.orphans.children start.linkage parent,
      b ∈ p.orphans.blocks ∧ start.linkage.isParent parent b = true := fun b hb =>
    List.mem_filter.mp hb
  rw [h.adopt_eq hs hd parent]
  generalize p.orphans.children start.linkage parent = children at hremaining hshared hchild
  have hheight : ∀ b ∈ children, b.height.toNat = parent.height.toNat + 1 := fun b hb =>
    (Linkage.isParent_iff.mp (hchild b hb).2).1.symm
  have hbelow : ∀ b ∈ root :: p.promoted, b.height.toNat ≤ parent.height.toNat + 1 :=
    h.spread parent (List.mem_cons_self ..)
  simp only [List.drop_left]
  refine ⟨?queue, rfl, ?shared, hremaining, ?fed, ?descends, ?parents, ?heights, ?spread⟩
  case queue => simpa using congrArg (· ++ children) h.queue
  case shared =>
    rw [List.append_assoc]
    exact (hshared.append_left _).trans h.shared
  case fed =>
    intro b hb o ho
    obtain ⟨ho, hno⟩ := List.mem_filter.mp ho
    rcases List.mem_append.mp hb with hb | hb
    · exact h.fed b hb o ho
    · rw [List.mem_singleton.mp hb]
      exact (Bool.not_eq_true' _).mp hno
  case descends =>
    intro b hb
    rcases List.mem_append.mp hb with hb | hb
    · exact h.descends b hb
    · obtain ⟨ho, hlink⟩ := hchild b hb
      rcases List.mem_cons.mp h.parent_mem with rfl | hparent
      · exact .child (h.orphan_mem ho) hlink
      · exact .next (h.descends parent hparent) (h.orphan_mem ho) hlink
  case parents =>
    intro i b hi
    rcases Nat.lt_or_ge i p.promoted.length with hlt | hge
    · rw [List.getElem?_append_left hlt] at hi
      rw [List.take_append_of_le_length (Nat.le_of_lt hlt)]
      exact h.parents i b hi
    · rw [List.getElem?_append_right hge] at hi
      refine ⟨parent, ?_, (hchild b (List.mem_of_getElem? hi)).2⟩
      rw [List.take_append, List.take_of_length_le hge]
      exact List.mem_append_left _ h.parent_mem
  case heights =>
    rw [← List.cons_append]
    refine List.pairwise_append.mpr ⟨h.heights, ?_, fun a ha b hb => ?_⟩
    · refine List.pairwise_of_forall_mem_list fun a ha b hb => ?_
      exact Nat.le_of_eq ((hheight a ha).trans (hheight b hb).symm)
    · rw [hheight b hb]
      exact hbelow a ha
  case spread =>
    intro a ha b hb
    have hfar : parent.height.toNat ≤ a.height.toNat := by
      rcases List.mem_append.mp ha with ha | ha
      · exact h.parent_le a ha
      · rw [hheight a ha]
        exact Nat.le_succ _
    refine Nat.le_trans ?_ (Nat.add_le_add_right hfar 1)
    rcases List.mem_append.mp (List.cons_append ▸ hb) with hb | hb
    · exact hbelow b hb
    · exact Nat.le_of_eq (hheight b hb)

/-- What leaves the orphans joins the frontier. -/
theorem length_adopt (h : Descent start pool root p done (parent :: frontier)) :
    (frontier ++ (p.adopt parent).promoted.drop p.promoted.length).length +
      (p.adopt parent).orphans.size = frontier.length + p.orphans.size := by
  have hlen := (children_append_rest p.orphans start.linkage parent).length_eq
  rw [h.adopt_eq hs hd parent]
  simp only [List.drop_left, List.length_append, OrphanPool.size] at hlen ⊢
  omega

/-- With fuel for the frontier and the orphans the walk ends, and everything
that was promoted has been asked for its children. -/
theorem walk {fuel : Nat} (h : Descent start pool root p done frontier)
    (hf : frontier.length + p.orphans.size ≤ fuel) :
    Ends p frontier (walk fuel p frontier) ∧
      ∃ done, Descent start pool root (Promotion.walk fuel p frontier) done [] := by
  induction fuel generalizing p done frontier with
  | zero =>
    have hempty : frontier = [] := List.eq_nil_of_length_eq_zero (by omega)
    subst hempty
    exact ⟨.nil, done, h⟩
  | succ fuel ih =>
    cases frontier with
    | nil => exact ⟨.nil, done, h⟩
    | cons parent frontier =>
      have hfuel : (frontier ++ (p.adopt parent).promoted.drop p.promoted.length).length +
          (p.adopt parent).orphans.size ≤ fuel := by
        rw [h.length_adopt hs hd]
        simp only [List.length_cons] at hf
        omega
      obtain ⟨hends, hdescent⟩ := ih (h.adopt hs hd) hfuel
      exact ⟨.cons hends, hdescent⟩

end

/-- Once the frontier is empty no descendant is left among the orphans. -/
theorem mem_promoted_iff (h : Descent start pool root p done []) :
    b ∈ p.promoted ↔ Descends start.linkage pool root b := by
  have hdone : done = root :: p.promoted := by simpa using h.queue
  have htaken {a o : Block} (ha : a ∈ root :: p.promoted) (ho : o ∈ pool.blocks)
      (hlink : start.linkage.isParent a o = true) : o ∈ p.promoted := by
    by_contra hstays
    have hwaits : o ∈ p.orphans.blocks :=
      (List.mem_append.mp (h.shared.symm.subset ho)).resolve_left hstays
    rw [h.fed a (hdone ▸ ha) o hwaits] at hlink
    exact Bool.false_ne_true hlink
  refine ⟨h.descends b, fun hb => ?_⟩
  induction hb with
  | child ho hlink => exact htaken (List.mem_cons_self ..) ho hlink
  | next _ ho hlink ih => exact htaken (List.mem_cons_of_mem _ ih) ho hlink

end Descent

end Promotion

/-- What promotion makes of a ledger, its orphans and a root. -/
structure Promoted (l : Ledger) (pool : OrphanPool) (root : Block) (p : Promotion) : Prop where
  ends : Promotion.Ends ⟨l, pool, []⟩ [root] p
  descendants : ∀ b, b ∈ p.promoted ↔ Descends l.linkage pool root b
  ledger : p.ledger = l.storedAll p.promoted
  /-- Behind the blocks that were stored before, in the order of the list. -/
  stored : p.ledger.toList = l.toList ++ p.promoted
  untouched : ∀ id, l.contains id = true → p.ledger.get? id = l.get? id
  moved : ∀ b ∈ p.promoted, p.ledger.get? b.id = some b ∧ p.orphans.contains b.id = false
  remaining : p.orphans.blocks = pool.blocks.filter fun o => o.id ∉ p.promoted.map Block.id
  heights : (p.promoted.map Block.height).Pairwise (· ≤ ·)
  distinct : (p.promoted.map Block.id).Nodup
  parents : ∀ i b, p.promoted[i]? = some b →
    ∃ a ∈ root :: p.promoted.take i, l.linkage.isParent a b = true

/-- Where the ledger holds none of the orphans, promotion stores those that
descend from the root, parents first, and leaves the others where they were. -/
theorem promoteOrphans_promoted (rule : Linkage) (added : List Block) (pool : OrphanPool)
    (root : Block) (hpool : (pool.blocks.map Block.id).Nodup)
    (hnew : ∀ o ∈ pool.blocks, ((Ledger.genesis rule).storedAll added).contains o.id = false) :
    Promoted ((Ledger.genesis rule).storedAll added) pool root
      (promoteOrphans ((Ledger.genesis rule).storedAll added) pool root) := by
  have hl := Ledger.genesis_storedAll_mirrors rule added
  generalize (Ledger.genesis rule).storedAll added = l at hl hnew
  have hd : ((l.toList ++ pool.blocks).map Block.id).Nodup := by
    rw [List.map_append, List.nodup_append]
    refine ⟨hl.distinct, hpool, fun id hid id' hid' => ?_⟩
    rintro rfl
    obtain ⟨o, ho, rfl⟩ := List.mem_map.mp hid'
    rw [← Ledger.contains_iff_mem hl.indexed, hnew o ho] at hid
    exact Bool.false_ne_true hid
  have hfuel : [root].length + pool.size ≤ pool.size + 1 := Nat.le_of_eq (Nat.add_comm ..)
  obtain ⟨hends, done, h⟩ := (Promotion.Descent.atStart l pool root).walk hl.indexed hd hfuel
  change Promotion.Ends _ _ (promoteOrphans l pool root) at hends
  change Promotion.Descent l pool root (promoteOrphans l pool root) done [] at h
  obtain ⟨hindexed, hstored⟩ := h.stored hl.indexed hd
  have hall := h.distinct hd
  generalize promoteOrphans l pool root = p at hends h hindexed hstored hall
  rw [← List.append_assoc, ← hstored] at hall
  have hledger : (p.ledger.toList.map Block.id).Nodup := by
    rw [List.map_append] at hall
    exact (List.nodup_append.mp hall).1
  exact {
    ends := hends
    descendants := fun b => h.mem_promoted_iff
    ledger := h.ledger
    stored := hstored
    untouched := fun id hid => by
      rw [Ledger.contains, Ledger.get?_eq hl.indexed] at hid
      rw [Ledger.get?_eq hindexed, hstored, List.find?_append, Option.or_of_isSome hid,
        Ledger.get?_eq hl.indexed]
    moved := fun b hb => by
      have hin : b ∈ p.ledger.toList := hstored ▸ List.mem_append_right _ hb
      refine ⟨Ledger.get?_of_mem hindexed hledger hin, OrphanPool.not_contains_iff.mpr ?_⟩
      intro o ho hid
      rw [List.map_append, List.nodup_append] at hall
      exact hall.2.2 _ (List.mem_map_of_mem hin) _ (List.mem_map_of_mem ho) hid.symm
    remaining := h.remaining
    heights := List.pairwise_map.mpr
      ((List.pairwise_cons.mp h.heights).2.imp UInt64.le_iff_toNat_le.mpr)
    distinct := by
      rw [hstored, List.map_append] at hledger
      exact (List.nodup_append.mp hledger).2.1
    parents := h.parents }

/-- Two siblings, a block that either may be the parent of, and a stranger. -/
def forest : OrphanPool where
  blocks :=
    [{ Block.genesis with height := 2, minerId := 5 },
      { Block.genesis with height := 1, minerId := 7, parentMinerId := 7 },
      { Block.genesis with height := 1, minerId := 3 },
      { Block.genesis with height := 1, minerId := 2 }]

theorem promoteOrphans_promoted_forest :
    let l := (Ledger.genesis .sharedParent).storedAll []
    ((forest.blocks.map Block.id).Nodup ∧ ∀ o ∈ forest.blocks, l.contains o.id = false) ∧
      (promoteOrphans l forest .genesis).promoted.map Block.id = [⟨1, 3⟩, ⟨1, 2⟩, ⟨2, 5⟩] ∧
      Promoted l forest .genesis (promoteOrphans l forest .genesis) := by
  have hready : (forest.blocks.map Block.id).Nodup ∧ ∀ o ∈ forest.blocks,
      ((Ledger.genesis .sharedParent).storedAll []).contains o.id = false := by decide +kernel
  exact ⟨hready, by decide +kernel,
    promoteOrphans_promoted .sharedParent [] forest .genesis hready.1 hready.2⟩

end BlockGossip
