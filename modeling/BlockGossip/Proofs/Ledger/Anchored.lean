import BlockGossip.Proofs.Ledger.Promotion
import Mathlib.Data.List.Perm.Subperm

/-!
# Ledgers anchored at the genesis block

`Anchored` is what every node keeps of its ledger and its orphans: the genesis
block comes first, every other stored block has a stored parent, no id stands
twice in the two together, and no orphan has a stored parent. Parking a block
without a parent keeps it, and so does storing a block with one, together with
the orphans that promotion moves. From it the chain of parents of every stored
block ends at the genesis block, and no level is empty.
-/

namespace BlockGossip

structure Anchored (l : Ledger) (pool : OrphanPool) : Prop where
  indexed : l.Indexed
  first : l.toList.head? = some Block.genesis
  linked : ∀ b ∈ l.toList.tail, l.hasParent b = true
  distinct : ((l.toList ++ pool.blocks).map Block.id).Nodup
  waiting : ∀ b ∈ pool.blocks, l.hasParent b = false

namespace OrphanPool

theorem contains_iff {p : OrphanPool} {id : BlockId} :
    p.contains id = true ↔ ∃ b ∈ p.blocks, b.id = id := by
  simp [contains]

theorem not_contains_iff {p : OrphanPool} {id : BlockId} :
    p.contains id = false ↔ ∀ b ∈ p.blocks, b.id ≠ id := by
  rw [← Bool.not_eq_true, contains_iff]
  simp

end OrphanPool

theorem genesis_anchored (rule : Linkage) : Anchored (.genesis rule) .empty where
  indexed := Ledger.genesis_indexed rule
  first := rfl
  linked := by simp
  distinct := by simp [OrphanPool.empty]
  waiting := by simp [OrphanPool.empty]

namespace Anchored

variable {l : Ledger} {pool : OrphanPool} {b : Block}

-- ---------------------------------------------------------------------------
-- Stored blocks and their parents
-- ---------------------------------------------------------------------------

theorem genesis_mem (h : Anchored l pool) : Block.genesis ∈ l.toList :=
  List.mem_of_mem_head? h.first

theorem toList_eq (h : Anchored l pool) : l.toList = Block.genesis :: l.toList.tail :=
  (List.cons_head?_tail h.first).symm

theorem ledger_distinct (h : Anchored l pool) : (l.toList.map Block.id).Nodup := by
  have := h.distinct
  rw [List.map_append] at this
  exact (List.nodup_append.mp this).1

theorem pool_distinct (h : Anchored l pool) : (pool.blocks.map Block.id).Nodup := by
  have := h.distinct
  rw [List.map_append] at this
  exact (List.nodup_append.mp this).2.1

theorem not_contains_orphan (h : Anchored l pool) (hb : b ∈ pool.blocks) :
    l.contains b.id = false := by
  have hd := h.distinct
  rw [List.map_append, List.nodup_append] at hd
  rw [← Bool.not_eq_true, Ledger.contains_iff_mem h.indexed]
  intro hc
  exact hd.2.2 _ hc _ (List.mem_map_of_mem hb) rfl

theorem genesis_or_hasParent (h : Anchored l pool) (hb : b ∈ l.toList) :
    b = Block.genesis ∨ l.hasParent b = true := by
  rw [h.toList_eq] at hb
  rcases List.mem_cons.mp hb with rfl | hb
  · exact .inl rfl
  · exact .inr (h.linked b hb)

theorem height_pos_of_hasParent (h : Anchored l pool) (hp : l.hasParent b = true) :
    0 < b.height.toNat := by
  obtain ⟨p, -, hp⟩ := (Ledger.hasParent_iff h.indexed).mp hp
  have := (Linkage.isParent_iff.mp hp).1
  omega

theorem eq_genesis_of_height (h : Anchored l pool) (hb : b ∈ l.toList)
    (h0 : b.height.toNat = 0) : b = Block.genesis := by
  rcases h.genesis_or_hasParent hb with hg | hp
  · exact hg
  · have := h.height_pos_of_hasParent hp
    omega

/-- The stored parent that a look-up reports, one height below. -/
theorem parent?_of_ne_genesis (h : Anchored l pool) (hb : b ∈ l.toList)
    (hg : b ≠ Block.genesis) :
    ∃ p ∈ l.toList, l.parent? b = some p ∧ p.height.toNat + 1 = b.height.toNat := by
  have hp := (h.genesis_or_hasParent hb).resolve_left hg
  obtain ⟨p, hp⟩ := Option.isSome_iff_exists.mp hp
  have hfind := hp
  rw [Ledger.parent?_eq h.indexed] at hfind
  exact ⟨p, List.mem_of_find?_eq_some hfind, hp,
    (Linkage.isParent_iff.mp (List.find?_some (p := (l.linkage.isParent · b)) hfind)).1⟩

theorem level_zero (h : Anchored l pool) : l.level 0 = [Block.genesis] := by
  have htail : l.toList.tail.filter (Ledger.atHeight 0) = [] := by
    refine List.filter_eq_nil_iff.mpr fun b hb => ?_
    have := h.height_pos_of_hasParent (h.linked b hb)
    simp only [Ledger.atHeight_iff]
    omega
  rw [Ledger.level_eq h.indexed, h.toList_eq, List.filter_cons, htail]
  rfl

end Anchored

-- ---------------------------------------------------------------------------
-- Chains of parents
-- ---------------------------------------------------------------------------

/-- The block reached by going to the parent so many times. -/
def Ledger.ancestor (l : Ledger) : Nat → Block → Option Block
  | 0, b => some b
  | n + 1, b => (l.parent? b).bind (l.ancestor n)

namespace Anchored

variable {l : Ledger} {pool : OrphanPool} {b : Block}

/-- Every step up the chain of parents goes down by one height. -/
theorem ancestor_height (h : Anchored l pool) (hb : b ∈ l.toList) {k : Nat}
    (hk : k ≤ b.height.toNat) :
    ∃ c ∈ l.toList, l.ancestor k b = some c ∧ c.height.toNat + k = b.height.toNat := by
  induction k generalizing b with
  | zero => exact ⟨b, hb, rfl, rfl⟩
  | succ k ih =>
    have hg : b ≠ Block.genesis := by
      rintro rfl
      simp [Block.genesis] at hk
    obtain ⟨p, hp, hparent, hheight⟩ := h.parent?_of_ne_genesis hb hg
    obtain ⟨c, hc, hanc, hch⟩ := ih hp (by omega)
    refine ⟨c, hc, ?_, by omega⟩
    simp [Ledger.ancestor, hparent, hanc]

theorem level_ne_nil (h : Anchored l pool) {k : Nat} (hk : k ≤ l.height) : l.level k ≠ [] := by
  obtain ⟨ht, hth⟩ := Ledger.top_mem h.indexed
  obtain ⟨c, hc, -, hch⟩ := h.ancestor_height ht (k := l.height - k) (by omega)
  exact List.ne_nil_of_mem ((Ledger.mem_level h.indexed).mpr ⟨hc, by omega⟩)

/-- Each height up to the top has a block of its own. -/
theorem height_lt_size (h : Anchored l pool) : l.height < l.size := by
  have hsub : List.range (l.height + 1) ⊆ l.toList.map (·.height.toNat) := by
    intro k hk
    have hk := List.mem_range.mp hk
    obtain ⟨b, hb⟩ := List.exists_mem_of_ne_nil _ (h.level_ne_nil (k := k) (by omega))
    obtain ⟨hb, hbk⟩ := (Ledger.mem_level h.indexed).mp hb
    exact List.mem_map.mpr ⟨b, hb, hbk⟩
  have hlen := (List.Nodup.subperm List.nodup_range hsub).length_le
  simp only [List.length_range, List.length_map, Ledger.length_toList] at hlen
  omega

theorem height_succ_le_size (h : Anchored l pool) (hb : b ∈ l.toList) :
    b.height.toNat + 1 ≤ l.size := by
  have := Ledger.height_le h.indexed hb
  have := h.height_lt_size
  omega

-- ---------------------------------------------------------------------------
-- Accepting a block
-- ---------------------------------------------------------------------------

/-- A block known to neither takes no id that is taken. -/
theorem distinct_snoc (h : Anchored l pool) (hl : l.contains b.id = false)
    (ho : pool.contains b.id = false) :
    ((l.toList ++ pool.blocks ++ [b]).map Block.id).Nodup := by
  rw [List.map_append]
  refine List.nodup_append.mpr ⟨h.distinct, by simp, ?_⟩
  rintro id hid _ hb rfl
  simp only [List.map_cons, List.map_nil, List.mem_singleton] at hb
  subst hb
  rcases List.mem_append.mp (List.map_append ▸ hid) with hid | hid
  · rw [(Ledger.contains_iff_mem h.indexed).mpr hid] at hl
    exact Bool.noConfusion hl
  · obtain ⟨c, hc, hid⟩ := List.mem_map.mp hid
    exact OrphanPool.not_contains_iff.mp ho c hc hid

theorem park (h : Anchored l pool) (hl : l.contains b.id = false)
    (ho : pool.contains b.id = false) (hp : l.hasParent b = false) :
    Anchored l ⟨pool.blocks ++ [b]⟩ where
  indexed := h.indexed
  first := h.first
  linked := h.linked
  distinct := by
    rw [← List.append_assoc]
    exact h.distinct_snoc hl ho
  waiting c hc := by
    rcases List.mem_append.mp hc with hc | hc
    · exact h.waiting c hc
    · rwa [List.mem_singleton.mp hc]

/-- Once a block is stored beside anchored orphans, promotion can start from it. -/
theorem starting (h : Anchored l pool) (hl : l.contains b.id = false)
    (ho : pool.contains b.id = false) :
    Promotion.Walking (l.stored b) pool b ⟨l.stored b, pool, []⟩ [b] := by
  have hlist := Ledger.stored_toList hl
  refine .start (Ledger.stored_indexed h.indexed hl) ?_ ?_
  · have hperm : (l.toList ++ pool.blocks ++ [b]).Perm ((l.stored b).toList ++ pool.blocks) := by
      rw [hlist, List.append_assoc, List.append_assoc]
      exact List.perm_append_comm.append_left _
    exact (hperm.map Block.id).nodup_iff.mp (h.distinct_snoc hl ho)
  · intro o hoo c hc hparent
    rw [hlist] at hc
    rw [Ledger.stored_linkage] at hparent
    rcases List.mem_append.mp hc with hc | hc
    · have := (Ledger.hasParent_eq_false_iff h.indexed).mp (h.waiting o hoo) c hc
      rw [this] at hparent
      exact absurd hparent Bool.false_ne_true
    · exact List.mem_singleton.mp hc

theorem walking (h : Anchored l pool) (hl : l.contains b.id = false)
    (ho : pool.contains b.id = false) :
    Promotion.Walking (l.stored b) pool b (promoteOrphans (l.stored b) pool b) [] :=
  promoteOrphans_walking (h.starting hl ho)

theorem store (h : Anchored l pool) (hl : l.contains b.id = false)
    (ho : pool.contains b.id = false) (hp : l.hasParent b = true) :
    Anchored (promoteOrphans (l.stored b) pool b).ledger
      (promoteOrphans (l.stored b) pool b).orphans := by
  have hw := h.walking hl ho
  generalize promoteOrphans (l.stored b) pool b = p at hw
  have hlist : p.ledger.toList = Block.genesis :: (l.toList.tail ++ b :: p.promoted) := by
    rw [hw.stored, Ledger.stored_toList hl, h.toList_eq]
    simp
  have hlinkage : p.ledger.linkage = l.linkage := by
    rw [hw.linkage, Ledger.stored_linkage]
  have hgrow {c : Block} (hc : l.hasParent c = true) : p.ledger.hasParent c = true := by
    obtain ⟨a, ha, hac⟩ := (Ledger.hasParent_iff h.indexed).mp hc
    refine (Ledger.hasParent_iff hw.indexed).mpr ⟨a, ?_, by rwa [hlinkage]⟩
    rw [hw.stored, Ledger.stored_toList hl]
    simp [ha]
  refine ⟨hw.indexed, by simp [hlist], ?_, hw.distinct, ?_⟩
  · intro c hc
    simp only [hlist, List.tail_cons, List.mem_append, List.mem_cons] at hc
    rcases hc with hc | rfl | hc
    · exact hgrow (h.linked c hc)
    · exact hgrow hp
    · obtain ⟨a, ha, hac⟩ := hw.linked c hc
      rw [Ledger.stored_linkage, ← hlinkage] at hac
      refine (Ledger.hasParent_iff hw.indexed).mpr ⟨a, ?_, hac⟩
      simp only [hlist, List.mem_cons, List.mem_append] at ha ⊢
      tauto
  · intro o ho'
    refine (Ledger.hasParent_eq_false_iff hw.indexed).mpr fun c hc => ?_
    rw [← Bool.not_eq_true, hw.linkage]
    exact fun hparent => absurd (hw.waiting o ho' c hc hparent) List.not_mem_nil

end Anchored

end BlockGossip
