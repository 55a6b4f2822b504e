import BlockGossip.Proofs.Ledger.Promotion
import Mathlib.Algebra.GroupWithZero.Nat

/-!
# A ledger is the file of what was added to it

`Mirrors` relates a ledger to everything that was ever added, duplicates
included: no id is stored twice, and a search by id or by height finds the same
block in both. A new ledger mirrors the genesis block and each `add` keeps
pace with one more arrival. What the queries of a ledger answer after any
sequence of additions is read off that, and `Filed` collects it.
-/

namespace BlockGossip.Ledger

variable {l : Ledger} {b : Block} {arrivals : List Block}

-- ---------------------------------------------------------------------------
-- Sizes of the levels
-- ---------------------------------------------------------------------------

theorem sum_length_modify_snoc (levels : List (List Nat)) {h : Nat} (hh : h < levels.length)
    (i : Nat) : ((levels.modify h (· ++ [i])).map List.length).sum =
      (levels.map List.length).sum + 1 := by
  induction levels generalizing h with
  | nil => simp at hh
  | cons slots levels ih =>
    cases h with
    | zero =>
      simp only [List.modify_zero_cons, List.map_cons, List.sum_cons, List.length_append,
        List.length_singleton]
      omega
    | succ h =>
      simp only [List.modify_succ_cons, List.map_cons, List.sum_cons,
        ih (Nat.lt_of_succ_lt_succ hh)]
      omega

theorem stored_total (h : l.contains b.id = false) :
    ((l.stored b).levels.map List.length).sum = (l.levels.map List.length).sum + 1 := by
  simp only [stored, add, h, Bool.false_eq_true, if_false]
  rw [sum_length_modify_snoc]
  · simp
  · simp only [List.length_append, List.length_replicate]
    omega

theorem stored_size (h : l.contains b.id = false) : (l.stored b).size = l.size + 1 := by
  simp [← length_toList, stored_toList h]

theorem add_of_contains (h : l.contains b.id = true) : l.add b = (false, l) := by simp [add, h]

theorem stored_of_contains (h : l.contains b.id = true) : l.stored b = l := by
  simp [stored, add_of_contains h]

theorem height_le_of_contains (hl : l.Indexed) (h : l.contains b.id = true) :
    b.height.toNat ≤ l.height := by
  obtain ⟨c, hc, hid⟩ := (contains_iff hl).mp h
  have hheight : c.height = b.height := congrArg BlockId.height hid
  exact hheight ▸ height_le hl hc

-- ---------------------------------------------------------------------------
-- Arrivals
-- ---------------------------------------------------------------------------

structure Mirrors (arrivals : List Block) (l : Ledger) : Prop where
  indexed : l.Indexed
  distinct : (l.toList.map Block.id).Nodup
  total : (l.levels.map List.length).sum = l.size
  found : ∀ p : BlockId → Bool,
    l.toList.find? (fun b => p b.id) = arrivals.find? (fun b => p b.id)

theorem genesis_mirrors (rule : Linkage) : (genesis rule).Mirrors [.genesis] where
  indexed := genesis_indexed rule
  distinct := by simp
  total := rfl
  found _ := rfl

/-- Adding a block adds it to the arrivals, whether it is stored or refused: a
refused block comes behind the one that is stored under its id. -/
theorem Mirrors.stored (hl : l.Mirrors arrivals) (b : Block) :
    (l.stored b).Mirrors (arrivals ++ [b]) := by
  cases hb : l.contains b.id with
  | true =>
    rw [stored_of_contains hb]
    refine ⟨hl.indexed, hl.distinct, hl.total, fun p => ?_⟩
    rw [List.find?_append, ← hl.found p]
    cases hp : p b.id with
    | false => simp [hp]
    | true =>
      obtain ⟨c, hc, hid⟩ := (contains_iff hl.indexed).mp hb
      have hsome : (l.toList.find? fun b => p b.id).isSome = true :=
        List.find?_isSome.mpr ⟨c, hc, by rw [hid, hp]⟩
      rw [Option.or_of_isSome hsome]
  | false =>
    refine ⟨stored_indexed hl.indexed hb, ?_, ?_, fun p => ?_⟩
    · rw [stored_toList hb, List.map_append, List.map_singleton, List.nodup_append]
      refine ⟨hl.distinct, List.nodup_singleton _, fun id hid id' hid' => ?_⟩
      rintro rfl
      rw [List.mem_singleton.mp hid', ← contains_iff_mem hl.indexed, hb] at hid
      exact Bool.false_ne_true hid
    · rw [stored_total hb, stored_size hb, hl.total]
    · rw [stored_toList hb, List.find?_append, List.find?_append, hl.found p]

theorem Mirrors.storedAll (hl : l.Mirrors arrivals) (bs : List Block) :
    (l.storedAll bs).Mirrors (arrivals ++ bs) := by
  induction bs generalizing l arrivals with
  | nil => simpa [Ledger.storedAll] using hl
  | cons b bs ih => simpa [Ledger.storedAll] using ih (hl.stored b)

theorem genesis_storedAll_mirrors (rule : Linkage) (bs : List Block) :
    ((genesis rule).storedAll bs).Mirrors (.genesis :: bs) :=
  (genesis_mirrors rule).storedAll bs

section
variable (hl : l.Mirrors arrivals)
include hl

theorem Mirrors.get? (id : BlockId) : l.get? id = arrivals.find? (·.id == id) := by
  rw [get?_eq hl.indexed]
  exact hl.found (· == id)

theorem Mirrors.contains (id : BlockId) : l.contains id = true ↔ ∃ b ∈ arrivals, b.id = id := by
  simp [Ledger.contains, hl.get?, List.find?_isSome]

theorem Mirrors.mem_ids (id : BlockId) : (∃ b ∈ l.toList, b.id = id) ↔ ∃ b ∈ arrivals, b.id = id :=
  (contains_iff hl.indexed).symm.trans (hl.contains id)

/-- Two blocks of one miner at one height would share their id. -/
theorem Mirrors.miners (h : Nat) : ((l.level h).map Block.minerId).Nodup := by
  rw [level_eq hl.indexed, List.nodup_map_iff_inj_on (hl.distinct.of_map.filter _)]
  intro a ha b hb hm
  simp only [List.mem_filter, atHeight_iff] at ha hb
  refine List.inj_on_of_nodup_map hl.distinct ha.1 hb.1 ?_
  simp only [Block.id, BlockId.mk.injEq, ← UInt64.toNat_inj]
  exact ⟨ha.2.trans hb.2.symm, hm⟩

theorem Mirrors.height_le : ∀ b ∈ arrivals, b.height.toNat ≤ l.height := by
  intro b hb
  exact height_le_of_contains hl.indexed ((hl.contains b.id).mpr ⟨b, hb, rfl⟩)

theorem Mirrors.height_attained : ∃ b ∈ arrivals, b.height.toNat = l.height := by
  obtain ⟨hm, hh⟩ := top_mem hl.indexed
  obtain ⟨b, hb, hid⟩ := (hl.mem_ids l.top.id).mp ⟨_, hm, rfl⟩
  exact ⟨b, hb, hh ▸ congrArg UInt64.toNat (congrArg BlockId.height hid)⟩

/-- The top is the first arrival at its height. -/
theorem Mirrors.top : arrivals.find? (atHeight l.height) = some l.top := by
  have hfound := hl.found fun id => id.height.toNat == l.height
  have hne := level_height_ne_nil hl.indexed
  rw [level_eq hl.indexed] at hne
  have hsome : (l.toList.filter (atHeight l.height)).head? = some l.top := by
    rw [Ledger.top, level_eq hl.indexed, List.head?_eq_some_head hne]
    rfl
  rw [← hsome, List.head?_filter]
  exact hfound.symm

theorem Mirrors.stored_top (b : Block) :
    (l.stored b).top = if l.height < b.height.toNat then b else l.top := by
  cases hb : l.contains b.id with
  | true =>
    have hle := height_le_of_contains hl.indexed hb
    rw [stored_of_contains hb, if_neg (Nat.not_lt.mpr hle)]
  | false =>
    split
    · rename_i habove
      exact top_stored_above hl.indexed hb habove
    · rename_i hle
      have htop := (hl.stored b).top
      rw [stored_height hb, Nat.max_eq_left (Nat.le_of_not_lt hle), List.find?_append,
        hl.top] at htop
      exact (Option.some.inj htop).symm

theorem Mirrors.stored_height (b : Block) : (l.stored b).height = max l.height b.height.toNat := by
  cases hb : l.contains b.id with
  | false => exact Ledger.stored_height hb
  | true =>
    rw [stored_of_contains hb, Nat.max_eq_left (height_le_of_contains hl.indexed hb)]

end

-- ---------------------------------------------------------------------------
-- The levels
-- ---------------------------------------------------------------------------

theorem Indexed.mem_slots (hl : l.Indexed) (h i : Nat) :
    i ∈ l.levels.getD h [] ↔ ∃ b, l.blocks[i]? = some b ∧ b.height.toNat = h := by
  have hget : l.blocks[i]? = l.toList[i]? := by simp [toList]
  rw [hl.slots, hget]
  simp only [placesOf, List.mem_filter, List.mem_range, Option.any_eq_true, atHeight_iff]
  refine and_iff_right_of_imp ?_
  rintro ⟨b, hb, -⟩
  exact (List.getElem?_eq_some_iff.mp hb).1

theorem Indexed.ascending (hl : l.Indexed) (h : Nat) : (l.levels.getD h []).Pairwise (· < ·) := by
  rw [hl.slots]
  exact List.pairwise_lt_range.filter _

theorem Indexed.last (hl : l.Indexed) : ∃ slots, l.levels.getLast? = some slots ∧ slots ≠ [] := by
  have htop := hl.top
  rw [height, List.getD_eq_getElem?_getD, ← List.getLast?_eq_getElem?] at htop
  cases hlast : l.levels.getLast? with
  | none => simp [hlast] at htop
  | some slots => exact ⟨slots, rfl, by simpa [hlast] using htop⟩

/-- A ledger after the blocks were added to a new one, one call each. -/
structure Filed (added : List Block) (l : Ledger) : Prop where
  /-- A slot stands in the level of its block's height, and nowhere else. -/
  placed : ∀ h i, i ∈ l.levels.getD h [] ↔ ∃ b, l.blocks[i]? = some b ∧ b.height.toNat = h
  ascending : ∀ h, (l.levels.getD h []).Pairwise (· < ·)
  miners : ∀ h, ((l.level h).map Block.minerId).Nodup
  last : ∃ slots, l.levels.getLast? = some slots ∧ slots ≠ []
  total : l.size = (l.levels.map List.length).sum
  present : ∀ id, l.contains id = true ↔ id = ⟨0, 0⟩ ∨ ∃ b ∈ added, b.id = id
  first : ∀ id, l.get? id = (Block.genesis :: added).find? (·.id == id)
  refused : ∀ b, (l.add b).1 = false ↔ l.contains b.id = true
  unchanged : ∀ b, (l.add b).2 = l ↔ l.contains b.id = true
  highest : (∃ b ∈ Block.genesis :: added, b.height.toNat = l.height) ∧
    ∀ b ∈ Block.genesis :: added, b.height.toNat ≤ l.height
  rising : ∀ b, (l.add b).2.height = max l.height b.height.toNat
  top : (Block.genesis :: added).find? (·.height.toNat == l.height) = some l.top
  topped : ∀ b, (l.add b).2.top = if l.height < b.height.toNat then b else l.top

/-- Whatever is added to a new ledger, in whatever order and however often. -/
theorem genesis_storedAll_filed (rule : Linkage) (added : List Block) :
    ((genesis rule).storedAll added).Filed added := by
  have hl := genesis_storedAll_mirrors rule added
  generalize (genesis rule).storedAll added = l at hl
  have hflag (b : Block) : (l.add b).1 = false ↔ l.contains b.id = true := by
    cases hb : l.contains b.id <;> simp [Ledger.add, hb]
  have hsame (b : Block) : (l.add b).2 = l ↔ l.contains b.id = true := by
    refine ⟨fun hadd => ?_, stored_of_contains⟩
    by_contra hb
    have hsize := stored_size (Bool.eq_false_iff.mpr hb)
    rw [Ledger.stored, hadd] at hsize
    omega
  exact {
    placed := hl.indexed.mem_slots
    ascending := hl.indexed.ascending
    miners := hl.miners
    last := hl.indexed.last
    total := hl.total.symm
    present := fun id => by
      rw [hl.contains, List.exists_mem_cons_iff]
      exact or_congr_left ⟨Eq.symm, Eq.symm⟩
    first := hl.get?
    refused := hflag
    unchanged := hsame
    highest := ⟨hl.height_attained, hl.height_le⟩
    rising := hl.stored_height
    top := hl.top
    topped := hl.stored_top }

end BlockGossip.Ledger
