import BlockGossip.Proofs.Ledger.Filing
import Mathlib.Algebra.BigOperators.Group.Finset.Piecewise
import Mathlib.Algebra.Order.BigOperators.Group.Finset
import Mathlib.Data.List.Perm.Subperm
import Mathlib.Order.Bounds.Basic

/-!
# What is counted of forks

The fork statistics of a ledger against their definitions: the blocks in forks
are those beyond one for each height that holds a block, and the longest fork is
the longest run of heights with two blocks or more. The scan that finds the run
is followed by what it knows of the levels behind it (`Scanned`). All counts
grow with the set of ids (`Within`), so neither the order of additions nor an
addition that is refused matters, and none of them ever falls.
-/

namespace BlockGossip.Ledger

variable {l l' : Ledger} {arrivals arrivals' : List Block}

-- ---------------------------------------------------------------------------
-- Runs
-- ---------------------------------------------------------------------------

/-- The lengths of the runs of heights that all have the property. -/
def runs (p : Nat → Prop) : Set Nat := {k | ∃ start, ∀ i < k, p (start + i)}

theorem runs_mono {p q : Nat → Prop} (h : ∀ i, p i → q i) : runs p ⊆ runs q := by
  rintro k ⟨start, hrun⟩
  exact ⟨start, fun i hi => h _ (hrun i hi)⟩

/-- What the scan knows behind it: the longest run there, and how far the run
goes back that ends where it stands. -/
structure Scanned (p : Nat → Prop) (seen longest current : Nat) : Prop where
  below : ∀ i, p i → i < seen
  greatest : IsGreatest (runs p) longest
  le_seen : current ≤ seen
  ending : ∀ i < current, p (seen - current + i)
  stopped : current = seen ∨ ¬p (seen - current - 1)

namespace Scanned

variable {p : Nat → Prop} {seen longest current : Nat}

/-- Nothing seen yet. -/
theorem start (h : ∀ i, ¬p i) : Scanned p 0 0 0 where
  below i hi := absurd hi (h i)
  greatest := by
    refine ⟨⟨0, fun i hi => absurd hi (Nat.not_lt_zero i)⟩, ?_⟩
    rintro k ⟨start, hrun⟩
    by_contra hk
    exact h _ (hrun 0 (by omega))
  le_seen := Nat.le_refl 0
  ending i hi := absurd hi (Nat.not_lt_zero i)
  stopped := .inl rfl

/-- One more height, with the property: the run at the end grows. -/
theorem forward (h : Scanned p seen longest current) :
    Scanned (fun i => p i ∨ i = seen) (seen + 1) (max longest (current + 1)) (current + 1) where
  below i hi := by
    rcases hi with hi | rfl
    · have := h.below i hi
      omega
    · omega
  greatest := by
    have hle := h.le_seen
    constructor
    · rcases Nat.le_total longest (current + 1) with hmax | hmax
      · rw [Nat.max_eq_right hmax]
        refine ⟨seen - current, fun i hi => ?_⟩
        rcases Nat.lt_or_eq_of_le (Nat.le_of_lt_succ hi) with hi | rfl
        · exact .inl (h.ending i hi)
        · exact .inr (by omega)
      · rw [Nat.max_eq_left hmax]
        exact runs_mono (fun _ => .inl) h.greatest.1
    · rintro k ⟨start, hrun⟩
      have hend : k = 0 ∨ start + k ≤ seen ∨ start + k = seen + 1 := by
        by_contra hk
        rcases hrun (k - 1) (by omega) with hlast | hlast
        · have := h.below _ hlast
          omega
        · omega
      rcases hend with rfl | hend | hend
      · exact Nat.zero_le _
      · -- A run that ends before the new height was there before.
        have hold : k ∈ runs p := ⟨start, fun i hi => (hrun i hi).resolve_right (by omega)⟩
        exact Nat.le_trans (h.greatest.2 hold) (Nat.le_max_left ..)
      · -- A run that ends with it goes back no further than the run at the end.
        refine Nat.le_trans ?_ (Nat.le_max_right ..)
        rcases h.stopped with hall | hstop
        · omega
        · by_contra hk
          have hbefore := hrun (seen - current - 1 - start) (by omega)
          rw [Nat.add_sub_cancel' (by omega)] at hbefore
          exact hstop (hbefore.resolve_right (by omega))
  le_seen := Nat.succ_le_succ h.le_seen
  ending i hi := by
    have hle := h.le_seen
    rw [Nat.add_sub_add_right]
    rcases Nat.lt_or_eq_of_le (Nat.le_of_lt_succ hi) with hi | rfl
    · exact .inl (h.ending i hi)
    · exact .inr (by omega)
  stopped := by
    rw [Nat.add_sub_add_right]
    rcases h.stopped with hall | hstop
    · exact .inl (by omega)
    · by_cases hall : current = seen
      · exact .inl (by omega)
      · have hle := h.le_seen
        refine .inr ?_
        rintro (hbefore | hbefore)
        · exact hstop hbefore
        · omega

/-- One more height, without it: the run at the end is over. -/
theorem reset (h : Scanned p seen longest current) : Scanned p (seen + 1) longest 0 where
  below i hi := Nat.lt_succ_of_lt (h.below i hi)
  greatest := h.greatest
  le_seen := Nat.zero_le _
  ending i hi := absurd hi (Nat.not_lt_zero i)
  stopped := .inr fun hlast => by
    have := h.below _ hlast
    omega

end Scanned

/-- The level of the height has two slots or more. -/
def ForkedAt (levels : List (List Nat)) (height : Nat) : Prop :=
  1 < (levels.getD height []).length

theorem forkedAt_snoc (levels : List (List Nat)) (slots : List Nat) (i : Nat) :
    ForkedAt (levels ++ [slots]) i ↔
      ForkedAt levels i ∨ i = levels.length ∧ 1 < slots.length := by
  unfold ForkedAt
  simp only [List.getD_eq_getElem?_getD]
  rcases Nat.lt_trichotomy i levels.length with h | rfl | h
  · rw [List.getElem?_append_left h]
    simp [Nat.ne_of_lt h]
  · simp
  · rw [List.getElem?_append_right (Nat.le_of_lt h)]
    simp [List.getElem?_eq_none (Nat.le_of_lt h), Nat.ne_of_gt h, Nat.sub_eq_zero_iff_le,
      Nat.not_le_of_gt h]

/-- The scan goes on from what it knows and finds the longest run of all. -/
theorem longestRun_greatest {levels rest : List (List Nat)} {longest current : Nat}
    (h : Scanned (ForkedAt levels) levels.length longest current) :
    IsGreatest (runs (ForkedAt (levels ++ rest))) (longestRun longest current rest) := by
  induction rest generalizing levels longest current with
  | nil => simpa [longestRun] using h.greatest
  | cons slots rest ih =>
    have hrest := List.append_cons levels slots rest
    rw [longestRun, hrest]
    by_cases hforked : 1 < slots.length
    · have hstep : ForkedAt (levels ++ [slots]) = fun i => ForkedAt levels i ∨ i = levels.length :=
        funext fun i => propext (by simp [forkedAt_snoc, hforked])
      rw [if_pos hforked]
      exact ih (by simpa [hstep] using h.forward)
    · have hstep : ForkedAt (levels ++ [slots]) = ForkedAt levels :=
        funext fun i => propext (by simp [forkedAt_snoc, hforked])
      rw [if_neg hforked]
      exact ih (by simpa [hstep] using h.reset)

-- ---------------------------------------------------------------------------
-- Levels as sets of blocks
-- ---------------------------------------------------------------------------

/-- The heights that hold a block. -/
def heights (l : Ledger) : Finset Nat := (l.toList.map (·.height.toNat)).toFinset

theorem length_slots (hl : l.Indexed) (h : Nat) :
    (l.levels.getD h []).length = (l.level h).length := by
  rw [level_eq hl, ← placesOf_items, hl.slots, List.length_filterMap_eq_countP, eq_comm,
    List.countP_eq_length]
  intro i hi
  simp [List.getElem?_eq_getElem (mem_placesOf hi)]

theorem levels_length (hl : l.Indexed) : l.levels.length = l.height + 1 := by
  obtain ⟨slots, hlast, -⟩ := hl.last
  have hpos : 0 < l.levels.length := by
    rw [List.length_pos_iff]
    rintro hnil
    simp [hnil] at hlast
  rw [height]
  omega

/-- A sum over the levels is one over the heights. -/
theorem sum_levels (hl : l.Indexed) (f : Nat → Nat) :
    (l.levels.map fun slots => f slots.length).sum =
      ∑ h ∈ Finset.range (l.height + 1), f (l.level h).length := by
  have hrange : Finset.range (l.height + 1) = (List.range (l.height + 1)).toFinset := by
    ext h
    simp
  rw [hrange, List.sum_toFinset _ List.nodup_range, ← levels_length hl]
  refine congrArg List.sum (List.ext_getElem (by simp) fun i hi _ => ?_)
  have hi : i < l.levels.length := by simpa using hi
  simp [← length_slots hl, hi]

theorem size_eq_sum (hl : l.Mirrors arrivals) :
    l.size = ∑ h ∈ Finset.range (l.height + 1), (l.level h).length :=
  hl.total.symm.trans (sum_levels hl.indexed id)

theorem blocksInForks_eq_sum (hl : l.Indexed) :
    l.blocksInForks = ∑ h ∈ Finset.range (l.height + 1), ((l.level h).length - 1) := by
  rw [← sum_levels hl (· - 1), blocksInForks, List.sum_eq_foldl, List.foldl_map]

theorem mem_heights (hl : l.Indexed) (h : Nat) : h ∈ l.heights ↔ (l.level h).length ≠ 0 := by
  simp [heights, level_eq hl]

theorem heights_card (hl : l.Indexed) :
    l.heights.card = ∑ h ∈ Finset.range (l.height + 1), if (l.level h).length ≠ 0 then 1 else 0 := by
  rw [← Finset.card_filter]
  congr 1
  ext h
  rw [Finset.mem_filter, mem_heights hl, Finset.mem_range, iff_and_self]
  intro hne
  obtain ⟨b, hb⟩ := List.exists_mem_of_length_pos (Nat.pos_of_ne_zero hne)
  obtain ⟨hm, rfl⟩ := (mem_level hl).mp hb
  exact Nat.lt_succ_of_le (height_le hl hm)

/-- The blocks beyond one for each height. -/
theorem blocksInForks_add_card (hl : l.Mirrors arrivals) :
    l.blocksInForks + l.heights.card = l.size := by
  rw [blocksInForks_eq_sum hl.indexed, heights_card hl.indexed, ← Finset.sum_add_distrib,
    size_eq_sum hl]
  refine Finset.sum_congr rfl fun h _ => ?_
  split <;> omega

theorem longestFork_greatest (hl : l.Indexed) :
    IsGreatest (runs fun h => 2 ≤ (l.level h).length) l.longestFork := by
  have hforked : ForkedAt l.levels = fun h => 2 ≤ (l.level h).length :=
    funext fun h => propext (by rw [ForkedAt, length_slots hl]; rfl)
  have hstart : Scanned (ForkedAt []) 0 0 0 := .start fun i => by simp [ForkedAt]
  rw [← hforked]
  exact @longestRun_greatest [] l.levels 0 0 hstart

-- ---------------------------------------------------------------------------
-- More ids, larger counts
-- ---------------------------------------------------------------------------

/-- No count of the first ledger is larger than that of the second. -/
structure Within (l l' : Ledger) : Prop where
  blocksInForks : l.blocksInForks ≤ l'.blocksInForks
  longestFork : l.longestFork ≤ l'.longestFork
  height : l.height ≤ l'.height
  size : l.size ≤ l'.size

/-- What holds no id twice holds no more blocks than another that has all its ids. -/
theorem subperm_of_ids (hl : l.Mirrors arrivals) (hl' : l'.Mirrors arrivals')
    (hids : ∀ b ∈ arrivals, ∃ b' ∈ arrivals', b'.id = b.id) :
    (l.toList.map Block.id).Subperm (l'.toList.map Block.id) := by
  refine hl.distinct.subperm fun id hid => ?_
  obtain ⟨b, hb, rfl⟩ := List.mem_map.mp hid
  obtain ⟨c, hc, hcid⟩ := (hl.mem_ids b.id).mp ⟨b, hb, rfl⟩
  obtain ⟨c', hc', hcid'⟩ := hids c hc
  obtain ⟨b', hb', hbid'⟩ := (hl'.mem_ids b.id).mpr ⟨c', hc', hcid'.trans hcid⟩
  exact hbid' ▸ List.mem_map_of_mem hb'

theorem length_level_eq (hl : l.Indexed) (h : Nat) :
    (l.level h).length = (l.toList.map Block.id).countP (·.height.toNat == h) := by
  rw [level_eq hl, ← List.countP_eq_length_filter, List.countP_map]
  rfl

theorem within_of_ids (hl : l.Mirrors arrivals) (hl' : l'.Mirrors arrivals')
    (hids : ∀ b ∈ arrivals, ∃ b' ∈ arrivals', b'.id = b.id) : Within l l' := by
  have hsub := subperm_of_ids hl hl' hids
  have hlevel (h : Nat) : (l.level h).length ≤ (l'.level h).length := by
    rw [length_level_eq hl.indexed, length_level_eq hl'.indexed]
    exact hsub.countP_le _
  have hheight : l.height ≤ l'.height := by
    obtain ⟨b, hb, hbheight⟩ := hl.height_attained
    obtain ⟨b', hb', hid⟩ := hids b hb
    have hsame : b'.height = b.height := congrArg BlockId.height hid
    exact hbheight ▸ hsame ▸ hl'.height_le b' hb'
  refine ⟨?_, ?_, hheight, ?_⟩
  · rw [blocksInForks_eq_sum hl.indexed, blocksInForks_eq_sum hl'.indexed]
    calc ∑ h ∈ Finset.range (l.height + 1), ((l.level h).length - 1)
      _ ≤ ∑ h ∈ Finset.range (l.height + 1), ((l'.level h).length - 1) :=
        Finset.sum_le_sum fun h _ => Nat.sub_le_sub_right (hlevel h) 1
      _ ≤ ∑ h ∈ Finset.range (l'.height + 1), ((l'.level h).length - 1) :=
        Finset.sum_le_sum_of_subset (Finset.range_mono (Nat.succ_le_succ hheight))
  · exact (longestFork_greatest hl.indexed).mono (longestFork_greatest hl'.indexed)
      (runs_mono fun h hforked => Nat.le_trans hforked (hlevel h))
  · simpa using hsub.length_le

/-- The counts of a ledger after the blocks were added to a new one. -/
structure Counted (added : List Block) (l : Ledger) : Prop where
  /-- All blocks but one for each height that holds a block are in forks. -/
  blocksInForks : l.blocksInForks + l.heights.card = l.size
  /-- The longest fork is the longest run of heights with two blocks or more. -/
  longestFork : IsGreatest {k | ∃ start, ∀ i < k, 2 ≤ (l.level (start + i)).length} l.longestFork
  /-- The counts follow from the set of ids that were added. -/
  unordered : ∀ rule others, (∀ id, (∃ b ∈ others, b.id = id) ↔ ∃ b ∈ added, b.id = id) →
    let l' := (genesis rule).storedAll others
    l'.blocksInForks = l.blocksInForks ∧ l'.longestFork = l.longestFork ∧
      l'.height = l.height ∧ l'.size = l.size
  rising : ∀ b, Within l (l.add b).2

theorem genesis_storedAll_counted (rule : Linkage) (added : List Block) :
    ((genesis rule).storedAll added).Counted added := by
  have hl := genesis_storedAll_mirrors rule added
  generalize (genesis rule).storedAll added = l at hl
  refine ⟨blocksInForks_add_card hl, longestFork_greatest hl.indexed, fun rule others hids => ?_,
    fun b => ?_⟩
  · have hl' := genesis_storedAll_mirrors rule others
    have hsame (xs ys : List Block) (h : ∀ id, (∃ b ∈ xs, b.id = id) → ∃ b ∈ ys, b.id = id) :
        ∀ b ∈ Block.genesis :: xs, ∃ b' ∈ Block.genesis :: ys, b'.id = b.id := by
      rintro b (_ | ⟨_, hb⟩)
      · exact ⟨_, .head _, rfl⟩
      · obtain ⟨b', hb', hid⟩ := h b.id ⟨b, hb, rfl⟩
        exact ⟨b', .tail _ hb', hid⟩
    have hle := within_of_ids hl' hl (hsame _ _ fun id => (hids id).mp)
    have hge := within_of_ids hl hl' (hsame _ _ fun id => (hids id).mpr)
    exact ⟨hle.blocksInForks.antisymm hge.blocksInForks, hle.longestFork.antisymm hge.longestFork,
      hle.height.antisymm hge.height, hle.size.antisymm hge.size⟩
  · exact within_of_ids hl (hl.stored b) fun c hc => ⟨c, List.mem_append_left _ hc, rfl⟩

end BlockGossip.Ledger
