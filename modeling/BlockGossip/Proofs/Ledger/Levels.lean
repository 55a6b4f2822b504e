import BlockGossip.Ledger.Basic
import Mathlib.Data.List.Induction
import Mathlib.Data.List.Nodup

/-!
# The levels index the blocks

`Indexed` says that the level of a height lists the places of its blocks, in
order, and that the last level is not empty. A new ledger is indexed and
storing a block keeps it so. From it every query reads as a search through
the blocks in the order in which they were stored, and nothing later opens
the levels again.
-/

namespace BlockGossip

-- ---------------------------------------------------------------------------
-- Places in a list
-- ---------------------------------------------------------------------------

/-- The places of the items that pass. -/
def placesOf (p : α → Bool) (xs : List α) : List Nat :=
  (List.range xs.length).filter fun i => xs[i]?.any p

theorem placesOf_snoc (p : α → Bool) (xs : List α) (x : α) :
    placesOf p (xs ++ [x]) = placesOf p xs ++ if p x then [xs.length] else [] := by
  have hold : (List.range xs.length).filter (fun i => (xs ++ [x])[i]?.any p) = placesOf p xs := by
    refine List.filter_congr fun i hi => ?_
    rw [List.getElem?_append_left (List.mem_range.mp hi)]
  simp only [placesOf, List.length_append, List.length_singleton, List.range_succ,
    List.filter_append, hold]
  congr 1
  cases hp : p x <;> simp [hp]

theorem mem_placesOf {p : α → Bool} {xs : List α} {i : Nat} (hi : i ∈ placesOf p xs) :
    i < xs.length := by
  simp only [placesOf, List.mem_filter, List.mem_range] at hi
  exact hi.1

/-- The items at the places are the items that pass. -/
theorem placesOf_items (p : α → Bool) (xs : List α) :
    (placesOf p xs).filterMap (xs[·]?) = xs.filter p := by
  suffices h : ∀ ys rest : List α, ys ++ rest = xs →
      (placesOf p ys).filterMap (xs[·]?) = ys.filter p from h xs [] (by simp)
  intro ys
  induction ys using List.reverseRecOn with
  | nil => simp [placesOf]
  | append_singleton ys y ih =>
    intro rest hxs
    have hy : xs[ys.length]? = some y := by rw [← hxs]; simp
    rw [placesOf_snoc, List.filterMap_append, ih (y :: rest) (by simpa using hxs),
      List.filter_append]
    congr 1
    cases hp : p y <;> simp [hp, hy]

namespace Ledger

variable {l : Ledger} {b : Block} {id : BlockId}

/-- The stored blocks, in the order in which they were stored. -/
def toList (l : Ledger) : List Block := l.blocks.toList

def atHeight (height : Nat) (b : Block) : Bool := b.height.toNat == height

@[simp] theorem atHeight_iff : atHeight h b = true ↔ b.height.toNat = h := by simp [atHeight]

structure Indexed (l : Ledger) : Prop where
  slots : ∀ h, l.levels.getD h [] = placesOf (atHeight h) l.toList
  top : l.levels.getD l.height [] ≠ []

@[simp] theorem length_toList (l : Ledger) : l.toList.length = l.size := by simp [toList, size]

@[simp] theorem genesis_toList (rule : Linkage) : (genesis rule).toList = [Block.genesis] := rfl

@[simp] theorem genesis_linkage (rule : Linkage) : (genesis rule).linkage = rule := rfl

theorem genesis_indexed (rule : Linkage) : (genesis rule).Indexed where
  slots h := by
    cases h with
    | zero => rfl
    | succ h =>
      have hp : placesOf (atHeight (h + 1)) [Block.genesis] = [] := by
        simp [placesOf, List.range_succ, atHeight, Block.genesis]
      simp [genesis, hp, toList]
  top := by simp [genesis, height]

-- ---------------------------------------------------------------------------
-- Queries
-- ---------------------------------------------------------------------------

theorem level_eq (hl : l.Indexed) (h : Nat) : l.level h = l.toList.filter (atHeight h) := by
  have hget (i : Nat) : l.blocks[i]? = l.toList[i]? := by simp [toList]
  simp only [level, hl.slots, hget, placesOf_items]

theorem mem_level (hl : l.Indexed) : b ∈ l.level h ↔ b ∈ l.toList ∧ b.height.toNat = h := by
  simp [level_eq hl]

theorem get?_eq (hl : l.Indexed) (id : BlockId) : l.get? id = l.toList.find? (·.id == id) := by
  rw [get?, level_eq hl, List.find?_filter]
  congr 1
  funext b
  rw [Bool.eq_iff_iff]
  simp only [atHeight, Block.id, decide_eq_true_eq, beq_iff_eq, UInt64.toNat_inj]
  constructor
  · rintro ⟨hh, hm⟩; rw [hh, hm]
  · rintro rfl; exact ⟨rfl, rfl⟩

theorem mem_of_get? (hl : l.Indexed) (h : l.get? id = some b) : b ∈ l.toList ∧ b.id = id := by
  rw [get?_eq hl] at h
  exact ⟨List.mem_of_find?_eq_some h, by simpa using List.find?_some h⟩

theorem contains_iff (hl : l.Indexed) : l.contains id = true ↔ ∃ b ∈ l.toList, b.id = id := by
  simp [contains, get?_eq hl, List.find?_isSome]

theorem contains_iff_mem (hl : l.Indexed) :
    l.contains id = true ↔ id ∈ l.toList.map Block.id := by
  simp [contains_iff hl]

theorem contains_of_mem (hl : l.Indexed) (hb : b ∈ l.toList) : l.contains b.id = true :=
  (contains_iff hl).mpr ⟨b, hb, rfl⟩

/-- Where no two stored blocks share an id, a look-up finds the block itself. -/
theorem get?_of_mem (hl : l.Indexed) (hd : (l.toList.map Block.id).Nodup) (hb : b ∈ l.toList) :
    l.get? b.id = some b := by
  obtain ⟨c, hc⟩ := Option.isSome_iff_exists.mp (contains_of_mem hl hb)
  obtain ⟨hm, hid⟩ := mem_of_get? hl hc
  rw [hc, (List.inj_on_of_nodup_map hd) hm hb hid]

theorem parent?_eq (hl : l.Indexed) (b : Block) :
    l.parent? b = l.toList.find? (l.linkage.isParent · b) := by
  unfold parent?
  split
  · rename_i h0
    refine (List.find?_eq_none.mpr fun p _ hp => ?_).symm
    have := (Linkage.isParent_iff.mp hp).1
    omega
  · rename_i below hb
    rw [level_eq hl, List.find?_filter]
    congr 1
    funext p
    rw [Bool.eq_iff_iff]
    simp only [Linkage.isChild, decide_eq_true_eq, atHeight_iff]
    refine ⟨fun h => h.2, fun h => ⟨?_, h⟩⟩
    have := (Linkage.isParent_iff.mp h).1
    omega

theorem hasParent_iff (hl : l.Indexed) :
    l.hasParent b = true ↔ ∃ p ∈ l.toList, l.linkage.isParent p b = true := by
  simp [hasParent, parent?_eq hl, List.find?_isSome]

theorem hasParent_eq_false_iff (hl : l.Indexed) :
    l.hasParent b = false ↔ ∀ p ∈ l.toList, l.linkage.isParent p b = false := by
  rw [← Bool.not_eq_true, hasParent_iff hl]
  simp

-- ---------------------------------------------------------------------------
-- The top
-- ---------------------------------------------------------------------------

theorem height_le (hl : l.Indexed) (hb : b ∈ l.toList) : b.height.toNat ≤ l.height := by
  have hm : b ∈ l.level b.height.toNat := (mem_level hl).mpr ⟨hb, rfl⟩
  have hlt : b.height.toNat < l.levels.length := by
    rcases Nat.lt_or_ge b.height.toNat l.levels.length with h | h
    · exact h
    · simp [level, List.getD_eq_getElem?_getD, List.getElem?_eq_none h] at hm
  unfold height
  omega

theorem level_height_ne_nil (hl : l.Indexed) : l.level l.height ≠ [] := by
  obtain ⟨i, hi⟩ := List.exists_mem_of_ne_nil _ hl.top
  rw [hl.slots] at hi
  have hlt := mem_placesOf hi
  rw [level_eq hl]
  simp only [placesOf, List.mem_filter, List.getElem?_eq_getElem hlt, Option.any_some] at hi
  exact List.ne_nil_of_mem (List.mem_filter.mpr ⟨List.getElem_mem hlt, hi.2⟩)

/-- The top is stored, at the height of the ledger. -/
theorem top_mem (hl : l.Indexed) : l.top ∈ l.toList ∧ l.top.height.toNat = l.height := by
  have h : l.top = (l.level l.height).head (level_height_ne_nil hl) := by
    simp [top, List.head?_eq_some_head (level_height_ne_nil hl)]
  rw [h, ← mem_level hl]
  exact List.head_mem _

-- ---------------------------------------------------------------------------
-- Storing
-- ---------------------------------------------------------------------------

/-- The ledger with a block stored behind the others. -/
def stored (l : Ledger) (b : Block) : Ledger := (l.add b).2

theorem add_of_not_contains (h : l.contains b.id = false) : l.add b = (true, l.stored b) := by
  simp [stored, add, h]

theorem stored_toList (h : l.contains b.id = false) : (l.stored b).toList = l.toList ++ [b] := by
  simp [stored, add, h, toList]

@[simp] theorem stored_linkage (l : Ledger) (b : Block) : (l.stored b).linkage = l.linkage := by
  simp only [stored, add]
  split <;> rfl

/-- Levels opened up to a height: those there stay, the new ones are empty. -/
theorem getD_opened (levels : List (List Nat)) (k j : Nat) :
    (levels ++ List.replicate k []).getD j [] = levels.getD j [] := by
  simp only [List.getD_eq_getElem?_getD]
  rcases Nat.lt_or_ge j levels.length with h | h
  · rw [List.getElem?_append_left h]
  · rw [List.getElem?_append_right h, List.getElem?_eq_none h, List.getElem?_replicate]
    split <;> rfl

theorem stored_levels (h : l.contains b.id = false) (j : Nat) :
    (l.stored b).levels.getD j [] =
      l.levels.getD j [] ++ if b.height.toNat = j then [l.size] else [] := by
  have hopen := getD_opened l.levels (b.height.toNat + 1 - l.levels.length) j
  have hlen : b.height.toNat <
      (l.levels ++ List.replicate (b.height.toNat + 1 - l.levels.length) []).length := by
    simp only [List.length_append, List.length_replicate]
    omega
  simp only [stored, add, h, Bool.false_eq_true, if_false]
  rw [List.getD_eq_getElem?_getD, List.getElem?_modify]
  by_cases hj : b.height.toNat = j
  · subst hj
    rw [List.getD_eq_getElem?_getD, List.getElem?_eq_getElem hlen] at hopen
    simp only [Option.getD_some] at hopen
    simp [List.getElem?_eq_getElem hlen, hopen, size]
  · rw [← hopen]
    simp [hj, List.getD_eq_getElem?_getD]

theorem stored_height (h : l.contains b.id = false) :
    (l.stored b).height = max l.height b.height.toNat := by
  simp only [stored, add, h, Bool.false_eq_true, if_false, height, List.length_modify,
    List.length_append, List.length_replicate]
  omega

theorem stored_indexed (hl : l.Indexed) (h : l.contains b.id = false) : (l.stored b).Indexed where
  slots j := by
    rw [stored_levels h, hl.slots, stored_toList h, placesOf_snoc]
    simp
  top := by
    rw [stored_height h, stored_levels h]
    rcases Nat.le_total b.height.toNat l.height with hb | hb
    · rw [Nat.max_eq_left hb]
      exact List.append_ne_nil_of_left_ne_nil hl.top _
    · simp [Nat.max_eq_right hb]

/-- A block stored above the top is the new top. -/
theorem top_stored_above (hl : l.Indexed) (h : l.contains b.id = false)
    (hb : l.height < b.height.toNat) : (l.stored b).top = b := by
  have hold : l.toList.filter (atHeight b.height.toNat) = [] := by
    refine List.filter_eq_nil_iff.mpr fun c hc => ?_
    have := height_le hl hc
    simp only [atHeight_iff]
    omega
  have hlevel : (l.stored b).level (l.stored b).height = [b] := by
    rw [level_eq (stored_indexed hl h), stored_height h, stored_toList h,
      Nat.max_eq_right (Nat.le_of_lt hb), List.filter_append, hold]
    simp
  simp [top, hlevel]

end Ledger

end BlockGossip
