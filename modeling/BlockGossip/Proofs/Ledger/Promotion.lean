import BlockGossip.Ledger.Promotion
import BlockGossip.Proofs.Ledger.Levels

/-!
# Promotion leaves no child behind

`Walking` is what holds between two blocks of the frontier: stored blocks and
orphans share no id, what was promoted came out of the pool, and an orphan has
a stored parent only if that parent still stands in the frontier. Adopting one
parent keeps it, the fuel outlasts the frontier, and once the frontier is
empty no remaining orphan has a stored parent.
-/

namespace BlockGossip

-- ---------------------------------------------------------------------------
-- Storing a list
-- ---------------------------------------------------------------------------

namespace Ledger

variable {l : Ledger} {bs : List Block}

/-- The ledger with blocks stored one after another. -/
def storedAll (l : Ledger) (bs : List Block) : Ledger := bs.foldl stored l

@[simp] theorem storedAll_linkage (l : Ledger) (bs : List Block) :
    (l.storedAll bs).linkage = l.linkage := by
  induction bs generalizing l with
  | nil => rfl
  | cons b bs ih => exact (ih (l.stored b)).trans (stored_linkage l b)

theorem not_contains_head (hl : l.Indexed)
    (hd : ((l.toList ++ b :: bs).map Block.id).Nodup) : l.contains b.id = false := by
  rw [← Bool.not_eq_true, contains_iff_mem hl]
  intro hb
  rw [List.map_append, List.nodup_append] at hd
  exact hd.2.2 _ hb _ (by simp) rfl

theorem storedAll_indexed (hl : l.Indexed) (hd : ((l.toList ++ bs).map Block.id).Nodup) :
    (l.storedAll bs).Indexed ∧ (l.storedAll bs).toList = l.toList ++ bs := by
  induction bs generalizing l with
  | nil => exact ⟨hl, by simp [storedAll]⟩
  | cons b bs ih =>
    have hb := not_contains_head hl hd
    have htail : ((l.stored b).toList ++ bs) = l.toList ++ b :: bs := by
      rw [stored_toList hb]; simp
    obtain ⟨hi, ht⟩ := ih (stored_indexed hl hb) (by rw [htail]; exact hd)
    exact ⟨hi, ht.trans htail⟩

end Ledger

namespace Promotion

open Linkage (isParent)

-- ---------------------------------------------------------------------------
-- One parent
-- ---------------------------------------------------------------------------

theorem foldl_store (p : Promotion) (children : List Block) (hl : p.ledger.Indexed)
    (hd : ((p.ledger.toList ++ children).map Block.id).Nodup) :
    children.foldl store p =
      { p with
        ledger := p.ledger.storedAll children
        promoted := p.promoted ++ children } := by
  induction children generalizing p with
  | nil => simp [Ledger.storedAll]
  | cons b bs ih =>
    have hb := Ledger.not_contains_head hl hd
    have hstore : p.store b =
        { p with ledger := p.ledger.stored b, promoted := p.promoted ++ [b] } := by
      simp [store, Ledger.add_of_not_contains hb]
    rw [List.foldl_cons, hstore, ih _ (Ledger.stored_indexed hl hb)]
    · simp [Ledger.storedAll]
    · rw [Ledger.stored_toList hb]
      simpa using hd

structure Walking (start : Ledger) (pool : OrphanPool) (root : Block) (p : Promotion)
    (frontier : List Block) : Prop where
  indexed : p.ledger.Indexed
  linkage : p.ledger.linkage = start.linkage
  stored : p.ledger.toList = start.toList ++ p.promoted
  shared : (p.promoted ++ p.orphans.blocks).Perm pool.blocks
  distinct : ((p.ledger.toList ++ p.orphans.blocks).map Block.id).Nodup
  reached : ∀ b ∈ frontier, b ∈ root :: p.promoted
  waiting : ∀ o ∈ p.orphans.blocks, ∀ b ∈ p.ledger.toList,
    start.linkage.isParent b o = true → b ∈ frontier
  linked : ∀ b ∈ p.promoted, ∃ a ∈ root :: p.promoted, start.linkage.isParent a b = true

section
variable {start : Ledger} {pool : OrphanPool} {root : Block} {p : Promotion}

theorem children_append_rest (p : OrphanPool) (rule : Linkage) (b : Block) :
    (p.children rule b ++ (p.takeChildren rule b).2.blocks).Perm p.blocks :=
  List.filter_append_perm _ _

/-- What adopting one parent leads to. -/
theorem adopt_eq {frontier : List Block} (hp : Walking start pool root p frontier)
    (parent : Block) :
    p.adopt parent =
      { ledger := p.ledger.storedAll (p.orphans.children start.linkage parent)
        orphans := (p.orphans.takeChildren start.linkage parent).2
        promoted := p.promoted ++ p.orphans.children start.linkage parent } := by
  have hsub : (p.ledger.toList ++ p.orphans.children start.linkage parent).Sublist
      (p.ledger.toList ++ p.orphans.blocks) :=
    (List.Sublist.refl _).append List.filter_sublist
  simp only [adopt, hp.linkage]
  exact foldl_store _ _ hp.indexed (hp.distinct.sublist (hsub.map _))

theorem Walking.adopt {parent : Block} {frontier : List Block}
    (hp : Walking start pool root p (parent :: frontier)) :
    Walking start pool root (p.adopt parent)
      (frontier ++ (p.adopt parent).promoted.drop p.promoted.length) := by
  rw [adopt_eq hp parent]
  generalize hc : p.orphans.children start.linkage parent = children
  have hperm := children_append_rest p.orphans start.linkage parent
  rw [hc] at hperm
  have hall : (p.ledger.toList ++ children ++
      (p.orphans.takeChildren start.linkage parent).2.blocks).Perm
      (p.ledger.toList ++ p.orphans.blocks) := by
    rw [List.append_assoc]
    exact hperm.append_left _
  have hd := (hall.map Block.id).nodup_iff.mpr hp.distinct
  have hd' : ((p.ledger.toList ++ children).map Block.id).Nodup := by
    rw [List.map_append] at hd
    exact (List.nodup_append.mp hd).1
  obtain ⟨hindexed, hlist⟩ := Ledger.storedAll_indexed hp.indexed hd'
  have hmem : ∀ b ∈ children, b ∈ p.orphans.blocks ∧ start.linkage.isParent parent b = true := by
    intro b hb
    rw [← hc] at hb
    exact List.mem_filter.mp hb
  refine ⟨hindexed, ?_, ?_, ?_, ?_, ?_, ?_, ?_⟩
  · rw [Ledger.storedAll_linkage, hp.linkage]
  · rw [hlist, hp.stored, List.append_assoc]
  · rw [List.append_assoc]
    exact (hperm.append_left _).trans hp.shared
  · rwa [hlist]
  · intro b hb
    simp only [List.drop_left, List.mem_append] at hb
    rcases hb with hb | hb
    · have := hp.reached b (List.mem_cons_of_mem _ hb)
      simp only [List.mem_cons, List.mem_append] at this ⊢
      tauto
    · simp [hb]
  · -- a remaining orphan is no child of the parent just adopted from
    intro o ho b hb hparent
    simp only [OrphanPool.takeChildren, List.mem_filter, Bool.not_eq_true'] at ho
    simp only [hlist, List.mem_append, List.drop_left] at hb ⊢
    rcases hb with hb | hb
    · rcases List.mem_cons.mp (hp.waiting o ho.1 b hb hparent) with rfl | hf
      · rw [ho.2] at hparent
        exact absurd hparent Bool.false_ne_true
      · exact .inl hf
    · exact .inr hb
  · intro b hb
    rcases List.mem_append.mp hb with hb | hb
    · obtain ⟨a, ha, hab⟩ := hp.linked b hb
      refine ⟨a, ?_, hab⟩
      simp only [List.mem_cons, List.mem_append] at ha ⊢
      tauto
    · refine ⟨parent, ?_, (hmem b hb).2⟩
      have := hp.reached parent (List.mem_cons_self ..)
      simp only [List.mem_cons, List.mem_append] at this ⊢
      tauto

/-- A parent leaves the frontier and its children come to it out of the pool. -/
theorem adopt_fuel {parent : Block} {frontier : List Block}
    (hp : Walking start pool root p (parent :: frontier)) :
    (frontier ++ (p.adopt parent).promoted.drop p.promoted.length).length +
      (p.adopt parent).orphans.size = frontier.length + p.orphans.size := by
  have hlen := (children_append_rest p.orphans start.linkage parent).length_eq
  rw [adopt_eq hp parent]
  simp only [List.drop_left, List.length_append, OrphanPool.size] at hlen ⊢
  omega

-- ---------------------------------------------------------------------------
-- The whole walk
-- ---------------------------------------------------------------------------

theorem Walking.walk {fuel : Nat} {frontier : List Block}
    (hp : Walking start pool root p frontier) (hf : frontier.length + p.orphans.size ≤ fuel) :
    Walking start pool root (walk fuel p frontier) [] := by
  induction fuel generalizing p frontier with
  | zero =>
    have : frontier = [] := List.eq_nil_of_length_eq_zero (by omega)
    subst this
    exact hp
  | succ fuel ih =>
    cases frontier with
    | nil => exact hp
    | cons parent frontier =>
      refine ih hp.adopt ?_
      rw [adopt_fuel hp]
      simp only [List.length_cons] at hf
      omega

/-- The blocks whose children a walk takes, in order. -/
def asked : Nat → Promotion → List Block → List Block
  | 0, _, _ => []
  | _ + 1, _, [] => []
  | fuel + 1, p, parent :: frontier =>
    let next := p.adopt parent
    parent :: asked fuel next (frontier ++ next.promoted.drop p.promoted.length)

theorem promoted_prefix_store (p : Promotion) (children : List Block) :
    p.promoted <+: (children.foldl store p).promoted := by
  induction children generalizing p with
  | nil => exact List.prefix_rfl
  | cons b bs ih =>
    refine List.IsPrefix.trans ?_ (ih _)
    unfold store
    split
    · exact List.prefix_append ..
    · exact List.prefix_rfl

theorem promoted_prefix_adopt (p : Promotion) (parent : Block) :
    p.promoted <+: (p.adopt parent).promoted :=
  promoted_prefix_store
    { p with orphans := (p.orphans.takeChildren p.ledger.linkage parent).2 } _

theorem promoted_prefix_walk (fuel : Nat) (p : Promotion) (frontier : List Block) :
    p.promoted <+: (Promotion.walk fuel p frontier).promoted := by
  induction fuel generalizing p frontier with
  | zero => exact List.prefix_rfl
  | succ fuel ih =>
    cases frontier with
    | nil => exact List.prefix_rfl
    | cons parent frontier =>
      exact (promoted_prefix_adopt p parent).trans (ih _ _)

/-- A walk asks only for children of the root and of blocks it promotes. -/
theorem Walking.asked {fuel : Nat} {frontier : List Block}
    (hp : Walking start pool root p frontier) :
    ∀ b ∈ asked fuel p frontier, b ∈ root :: (Promotion.walk fuel p frontier).promoted := by
  induction fuel generalizing p frontier with
  | zero => simp [Promotion.asked]
  | succ fuel ih =>
    cases frontier with
    | nil => simp [Promotion.asked]
    | cons parent frontier =>
      intro b hb
      rcases List.mem_cons.mp hb with rfl | hb
      · have hsub := (promoted_prefix_walk (fuel + 1) p (b :: frontier)).subset
        rcases List.mem_cons.mp (hp.reached b (List.mem_cons_self ..)) with h | h
        · exact h ▸ List.mem_cons_self ..
        · exact List.mem_cons_of_mem _ (hsub h)
      · exact ih hp.adopt b hb

end

end Promotion

/-- A root without children among the orphans promotes nothing. -/
theorem promoteOrphans_childless {l : Ledger} {pool : OrphanPool} {root : Block}
    (h : pool.children l.linkage root = []) :
    (promoteOrphans l pool root).ledger = l := by
  have hadopt : (Promotion.mk l pool []).adopt root =
      ⟨l, (pool.takeChildren l.linkage root).2, []⟩ := by
    rw [Promotion.adopt, OrphanPool.takeChildren, h]
    rfl
  rw [promoteOrphans, Promotion.walk, hadopt]
  cases pool.size <;> rfl

/-- Promotion starts from a stored root where every orphan with a stored parent
is a child of the root. -/
theorem Promotion.Walking.start {l : Ledger} {pool : OrphanPool} {root : Block} (hl : l.Indexed)
    (hd : ((l.toList ++ pool.blocks).map Block.id).Nodup)
    (hw : ∀ o ∈ pool.blocks, ∀ b ∈ l.toList, l.linkage.isParent b o = true → b = root) :
    Walking l pool root ⟨l, pool, []⟩ [root] :=
  ⟨hl, rfl, by simp, by simp, hd, by simp,
    fun o ho b hb hparent => List.mem_singleton.mpr (hw o ho b hb hparent), by simp⟩

/-- The fuel of promotion is enough. -/
theorem promoteOrphans_walking {l : Ledger} {pool : OrphanPool} {root : Block}
    (h : Promotion.Walking l pool root ⟨l, pool, []⟩ [root]) :
    Promotion.Walking l pool root (promoteOrphans l pool root) [] :=
  h.walk (by simp only [List.length_singleton]; omega)

end BlockGossip
