import BlockGossip.Proofs.Ledger.Anchored

/-!
# Accepting a block into a ledger

`accept` is what becomes of a block beside a ledger and its orphans, apart
from the session around them: nothing if its id is there, parked if its parent
is not, else stored with the orphans that descend from it. Anchored ledgers
stay anchored, no block is lost, and the linkage stays.
-/

namespace BlockGossip

/-- A ledger, its orphans, and the blocks an acceptance stored, in order. -/
structure Acceptance where
  ledger : Ledger
  orphans : OrphanPool
  stored : List Block

def accept (l : Ledger) (pool : OrphanPool) (b : Block) : Acceptance :=
  if l.contains b.id || pool.contains b.id then ⟨l, pool, []⟩
  else if !l.hasParent b then ⟨l, ⟨pool.blocks ++ [b]⟩, []⟩
  else
    let promotion := promoteOrphans (l.stored b) pool b
    ⟨promotion.ledger, promotion.orphans, b :: promotion.promoted⟩

variable {l : Ledger} {pool : OrphanPool} {b c : Block} {id : BlockId}

-- ---------------------------------------------------------------------------
-- The three outcomes
-- ---------------------------------------------------------------------------

theorem accept_held (h : (l.contains b.id || pool.contains b.id) = true) :
    accept l pool b = ⟨l, pool, []⟩ := by
  simp only [accept, h, if_true]

theorem accept_parked (h : (l.contains b.id || pool.contains b.id) = false)
    (hp : l.hasParent b = false) : accept l pool b = ⟨l, ⟨pool.blocks ++ [b]⟩, []⟩ := by
  simp [accept, h, hp]

theorem accept_stored (h : (l.contains b.id || pool.contains b.id) = false)
    (hp : l.hasParent b = true) :
    accept l pool b =
      ⟨(promoteOrphans (l.stored b) pool b).ledger, (promoteOrphans (l.stored b) pool b).orphans,
        b :: (promoteOrphans (l.stored b) pool b).promoted⟩ := by
  simp [accept, h, hp]

-- ---------------------------------------------------------------------------
-- What acceptance keeps
-- ---------------------------------------------------------------------------

namespace Anchored

theorem accept (h : Anchored l pool) (b : Block) :
    Anchored (accept l pool b).ledger (accept l pool b).orphans := by
  cases hk : l.contains b.id || pool.contains b.id with
  | true => rwa [accept_held hk]
  | false =>
    obtain ⟨hl, ho⟩ := Bool.or_eq_false_iff.mp hk
    cases hp : l.hasParent b with
    | false =>
      rw [accept_parked hk hp]
      exact h.park hl ho hp
    | true =>
      rw [accept_stored hk hp]
      exact h.store hl ho hp

theorem accept_linkage (h : Anchored l pool) (b : Block) :
    (BlockGossip.accept l pool b).ledger.linkage = l.linkage := by
  cases hk : l.contains b.id || pool.contains b.id with
  | true => rw [accept_held hk]
  | false =>
    obtain ⟨hl, ho⟩ := Bool.or_eq_false_iff.mp hk
    cases hp : l.hasParent b with
    | false => rw [accept_parked hk hp]
    | true =>
      rw [accept_stored hk hp]
      exact (h.walking hl ho).linkage.trans (Ledger.stored_linkage l b)

/-- Stored blocks stay where they are, and the new ones come behind them. -/
theorem accept_toList (h : Anchored l pool) (b : Block) :
    (BlockGossip.accept l pool b).ledger.toList =
      l.toList ++ (BlockGossip.accept l pool b).stored := by
  cases hk : l.contains b.id || pool.contains b.id with
  | true => simp [accept_held hk]
  | false =>
    obtain ⟨hl, ho⟩ := Bool.or_eq_false_iff.mp hk
    cases hp : l.hasParent b with
    | false => simp [accept_parked hk hp]
    | true =>
      rw [accept_stored hk hp]
      simp [(h.walking hl ho).stored, Ledger.stored_toList hl]

/-- Nothing is lost and nothing but the accepted block comes in. -/
theorem mem_accept (h : Anchored l pool) (b c : Block) :
    c ∈ (BlockGossip.accept l pool b).ledger.toList ∨
        c ∈ (BlockGossip.accept l pool b).orphans.blocks ↔
      c ∈ l.toList ∨ c ∈ pool.blocks ∨
        (c = b ∧ (l.contains b.id || pool.contains b.id) = false) := by
  cases hk : l.contains b.id || pool.contains b.id with
  | true => simp [accept_held hk]
  | false =>
    obtain ⟨hl, ho⟩ := Bool.or_eq_false_iff.mp hk
    cases hp : l.hasParent b with
    | false => simp [accept_parked hk hp]
    | true =>
      have hw := h.walking hl ho
      have hshared := hw.shared.mem_iff (a := c)
      rw [List.mem_append] at hshared
      rw [accept_stored hk hp]
      simp only [hw.stored, Ledger.stored_toList hl, List.mem_append, List.mem_singleton,
        ← hshared]
      tauto

/-- After its acceptance the id of a block is held, in one place or the other. -/
theorem accept_holds (h : Anchored l pool) (id : BlockId) :
    ((BlockGossip.accept l pool b).ledger.contains id = true ∨
        (BlockGossip.accept l pool b).orphans.contains id = true) ↔
      l.contains id = true ∨ pool.contains id = true ∨ b.id = id := by
  have hm := h.mem_accept b
  rw [Ledger.contains_iff (h.accept b).indexed, Ledger.contains_iff h.indexed,
    OrphanPool.contains_iff, OrphanPool.contains_iff]
  constructor
  · rintro (⟨c, hc, hid⟩ | ⟨c, hc, hid⟩)
    · rcases (hm c).mp (.inl hc) with hc | hc | ⟨rfl, -⟩
      · exact .inl ⟨c, hc, hid⟩
      · exact .inr (.inl ⟨c, hc, hid⟩)
      · exact .inr (.inr hid)
    · rcases (hm c).mp (.inr hc) with hc | hc | ⟨rfl, -⟩
      · exact .inl ⟨c, hc, hid⟩
      · exact .inr (.inl ⟨c, hc, hid⟩)
      · exact .inr (.inr hid)
  · have hback (c : Block) (hid : c.id = id)
        (hc : c ∈ l.toList ∨ c ∈ pool.blocks ∨
          (c = b ∧ (l.contains b.id || pool.contains b.id) = false)) :
        (∃ c ∈ (BlockGossip.accept l pool b).ledger.toList, c.id = id) ∨
          ∃ c ∈ (BlockGossip.accept l pool b).orphans.blocks, c.id = id := by
      rcases (hm c).mpr hc with hc | hc
      · exact .inl ⟨c, hc, hid⟩
      · exact .inr ⟨c, hc, hid⟩
    rintro (⟨c, hc, hid⟩ | ⟨c, hc, hid⟩ | hid)
    · exact hback c hid (.inl hc)
    · exact hback c hid (.inr (.inl hc))
    · cases hk : l.contains b.id || pool.contains b.id with
      | false => exact hback b hid (.inr (.inr ⟨rfl, hk⟩))
      | true =>
        rw [Bool.or_eq_true, Ledger.contains_iff h.indexed, OrphanPool.contains_iff] at hk
        rcases hk with ⟨c, hc, hcid⟩ | ⟨c, hc, hcid⟩
        · exact hback c (hcid.trans hid) (.inl hc)
        · exact hback c (hcid.trans hid) (.inr (.inl hc))

-- ---------------------------------------------------------------------------
-- The top after a block above it
-- ---------------------------------------------------------------------------

section
variable (h : Anchored l pool) (hk : (l.contains b.id || pool.contains b.id) = false)
  (hp : l.hasParent b = true)
include h hk hp

theorem mem_accept_stored : b ∈ (BlockGossip.accept l pool b).ledger.toList := by
  rw [h.accept_toList, accept_stored hk hp]
  exact List.mem_append_right _ (List.mem_cons_self ..)

/-- A block that is stored above the top and has no child among the orphans is
the new top. -/
theorem accept_top (habove : l.height < b.height.toNat)
    (hchildren : ∀ o ∈ pool.blocks, l.linkage.isParent b o = false) :
    (BlockGossip.accept l pool b).ledger.top = b := by
  have hnone : pool.children (l.stored b).linkage b = [] := by
    rw [OrphanPool.children, Ledger.stored_linkage, List.filter_eq_nil_iff]
    intro o ho
    simp [hchildren o ho]
  rw [accept_stored hk hp, promoteOrphans_childless hnone]
  exact Ledger.top_stored_above h.indexed (Bool.or_eq_false_iff.mp hk).1 habove

/-- If an orphan is a child of the block, the new top is one of the orphans. -/
theorem accept_top_of_child (habove : l.height < b.height.toNat) {o : Block}
    (ho : o ∈ pool.blocks) (hchild : l.linkage.isParent b o = true) :
    (BlockGossip.accept l pool b).ledger.top ∈ pool.blocks ∧
      b.height.toNat < (BlockGossip.accept l pool b).ledger.top.height.toNat := by
  have hafter := h.accept b
  have hb := h.mem_accept_stored hk hp
  obtain ⟨htop, hheight⟩ := Ledger.top_mem hafter.indexed
  have hstored : o ∈ (BlockGossip.accept l pool b).ledger.toList := by
    refine ((h.mem_accept b o).mpr (.inr (.inl ho))).resolve_right fun hwaits => ?_
    have hnot := (Ledger.hasParent_eq_false_iff hafter.indexed).mp (hafter.waiting o hwaits) b hb
    rw [h.accept_linkage, hchild] at hnot
    exact Bool.noConfusion hnot
  have hle := Ledger.height_le hafter.indexed hstored
  have hstep := (Linkage.isParent_iff.mp hchild).1
  refine ⟨?_, by omega⟩
  rcases (h.mem_accept b _).mp (.inl htop) with hold | hpool | ⟨heq, -⟩
  · have := Ledger.height_le h.indexed hold
    omega
  · exact hpool
  · rw [heq] at hheight
    omega

end

end Anchored

end BlockGossip
