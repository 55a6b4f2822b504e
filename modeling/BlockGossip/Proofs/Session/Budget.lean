import Mathlib
import BlockGossip.Proofs.Session.Kinds

/-!
# What gossip can still cost

A budget says how much gossip a session may still bring about. It counts, in
this order of weight, the blocks that may still come, the announcers that may
still be asked for a block that is missing, and what is left to do for the
blocks that are asked for. Messages are worth what their receipt may add to the
budget, and each frame on its way one unit beside.

An announcement by key is worth two chances for each key: one for the announcer
that it adds, and one for the request for headers that it may cause, which is
itself answered by headers that announce.
-/

namespace BlockGossip

-- ---------------------------------------------------------------------------
-- Sums over all ids
-- ---------------------------------------------------------------------------

instance : Finite NodeId := .of_injective UInt32.toFin fun _ _ => UInt32.toFin_inj.mp

noncomputable instance : Fintype NodeId := .ofFinite _

instance : Finite BlockId := by
  have : Finite UInt64 := .of_injective UInt64.toFin fun _ _ => UInt64.toFin_inj.mp
  refine .of_injective (fun id : BlockId => (id.height, id.miner)) fun a b h => ?_
  obtain ⟨hheight, hminer⟩ := Prod.mk.inj h
  cases a
  cases b
  simp_all

noncomputable instance : Fintype BlockId := .ofFinite _

/-- Two sums that differ in one term. -/
theorem sum_change {ι M : Type*} [Fintype ι] [DecidableEq ι] [AddCommMonoid M] {f g : ι → M}
    {k : ι} (h : ∀ i, i ≠ k → g i = f i) : ∑ i, g i + f k = ∑ i, f i + g k := by
  have hrest : ∑ i ∈ Finset.univ.erase k, g i = ∑ i ∈ Finset.univ.erase k, f i :=
    Finset.sum_congr rfl fun i hi => h i (Finset.ne_of_mem_erase hi)
  calc ∑ i, g i + f k
      = g k + ∑ i ∈ Finset.univ.erase k, g i + f k := by
        rw [Finset.add_sum_erase _ g (Finset.mem_univ k)]
    _ = f k + ∑ i ∈ Finset.univ.erase k, f i + g k := by
        rw [hrest, add_right_comm, add_comm (g k), add_right_comm]
    _ = ∑ i, f i + g k := by rw [Finset.add_sum_erase _ f (Finset.mem_univ k)]

-- ---------------------------------------------------------------------------
-- Budgets
-- ---------------------------------------------------------------------------

/-- Blocks, chances and work; compared by blocks first, then by chances. -/
abbrev Budget := ℕ ×ₗ ℕ ×ₗ ℕ

namespace Budget

variable {a b c a' b' c' : ℕ}

def of (blocks chances work : ℕ) : Budget := toLex (blocks, toLex (chances, work))

theorem of_add (a b c a' b' c' : ℕ) : of a b c + of a' b' c' = of (a + a') (b + b') (c + c') := rfl

theorem lt_iff :
    of a b c < of a' b' c' ↔ a < a' ∨ a = a' ∧ (b < b' ∨ b = b' ∧ c < c') := by
  simp [of, Prod.Lex.toLex_lt_toLex]

theorem le_iff :
    of a b c ≤ of a' b' c' ↔ a < a' ∨ a = a' ∧ (b < b' ∨ b = b' ∧ c ≤ c') := by
  simp [of, Prod.Lex.toLex_le_toLex]

theorem of_le (ha : a ≤ a') (hb : b ≤ b') (hc : c ≤ c') : of a b c ≤ of a' b' c' :=
  le_iff.mpr (by omega)

theorem zero_le (x : Budget) : 0 ≤ x := by
  obtain ⟨a, b, c⟩ := x
  exact le_iff.mpr (by omega)

/-- The budget counts no blocks. -/
def Blockless (x : Budget) : Prop := ∃ chances work, x = of 0 chances work

theorem Blockless.sum {xs : List Budget} (h : ∀ x ∈ xs, x.Blockless) : xs.sum.Blockless := by
  induction xs with
  | nil => exact ⟨0, 0, rfl⟩
  | cons x xs ih =>
    obtain ⟨hx, hxs⟩ := List.forall_mem_cons.mp h
    obtain ⟨b, c, rfl⟩ := hx
    obtain ⟨b', c', hsum⟩ := ih hxs
    exact ⟨b + b', c + c', by rw [List.sum_cons, hsum, of_add]⟩

end Budget

-- ---------------------------------------------------------------------------
-- The tracker
-- ---------------------------------------------------------------------------

namespace InventoryEntry

variable {e : InventoryEntry} {peer : NodeId}

/-- The announcers that may still be asked. -/
def chances (e : InventoryEntry) : ℕ := e.announcers.length - e.attempts.toNat

/-- The nodes that have not announced the item. -/
noncomputable def strangers (e : InventoryEntry) : ℕ :=
  (Finset.univ.filter fun peer : NodeId => peer ∉ e.announcers).card

noncomputable def work (e : InventoryEntry) : ℕ := 5 * (1 + 2 * e.strangers + e.chances)

def announcedBy (e : InventoryEntry) (peer : NodeId) : InventoryEntry :=
  { e with announcers := e.announcers ++ [peer] }

def requested (e : InventoryEntry) (peer : NodeId) : InventoryEntry :=
  { e with requestedFrom := some peer, attempts := e.attempts + 1, timerArmed := true }

theorem strangers_announcedBy (h : peer ∉ e.announcers) :
    (e.announcedBy peer).strangers + 1 = e.strangers := by
  have hmem : peer ∈ Finset.univ.filter fun p : NodeId => p ∉ e.announcers := by simpa using h
  have herase : (Finset.univ.filter fun p : NodeId => p ∉ (e.announcedBy peer).announcers) =
      (Finset.univ.filter fun p : NodeId => p ∉ e.announcers).erase peer := by
    ext p
    simp only [announcedBy, List.mem_append, List.mem_singleton, not_or, Finset.mem_erase,
      Finset.mem_filter, Finset.mem_univ, true_and]
    exact and_comm
  rw [strangers, herase]
  exact Finset.card_erase_add_one hmem

theorem chances_announcedBy (e : InventoryEntry) (peer : NodeId) :
    (e.announcedBy peer).chances ≤ e.chances + 1 := by
  simp only [chances, announcedBy, List.length_append, List.length_singleton]
  omega

/-- A new announcer is a chance more and a stranger less. -/
theorem work_announcedBy (h : peer ∉ e.announcers) : (e.announcedBy peer).work ≤ e.work := by
  have hstrangers := strangers_announcedBy h
  have hchances := e.chances_announcedBy peer
  simp only [work]
  omega

/-- An announcer may be asked for the item, and the attempt be counted. -/
structure Due (e : InventoryEntry) : Prop where
  asked : e.attempts.toNat < e.announcers.length
  counted : e.attempts.toNat + 1 < UInt32.size

theorem Due.first (peer : NodeId) : Due ⟨[peer], none, 0, false⟩ where
  asked := Nat.one_pos
  counted := show 0 + 1 < UInt32.size by decide

theorem Due.announcedBy (h : e.Due) (peer : NodeId) : (e.announcedBy peer).Due where
  asked := by
    have hasked := h.asked
    simp only [InventoryEntry.announcedBy, List.length_append]
    omega
  counted := h.counted

theorem Due.chances_requested (h : e.Due) (peer : NodeId) :
    (e.requested peer).chances + 1 = e.chances := by
  obtain ⟨hasked, hcounted⟩ := h
  have hattempts : (e.attempts + 1).toNat = e.attempts.toNat + 1 := by
    rw [UInt32.toNat_add]
    exact Nat.mod_eq_of_lt hcounted
  simp only [chances, requested, hattempts]
  omega

theorem Due.work_requested (h : e.Due) (peer : NodeId) : (e.requested peer).work + 5 = e.work := by
  have hchances := h.chances_requested peer
  have hstrangers : (e.requested peer).strangers = e.strangers := rfl
  simp only [work]
  omega

end InventoryEntry

namespace Inventory

variable {inv inv' : Inventory BlockId} {k i : BlockId} {peer : NodeId} {entry : InventoryEntry}
  {value : InventoryEntry → ℕ} {known : BlockId → Bool} {ks : List BlockId}

/-- What is tracked, each entry at its value. -/
noncomputable def total (value : InventoryEntry → ℕ) (inv : Inventory BlockId) : ℕ :=
  ∑ id, (inv.get? id).elim 0 value

theorem total_change (inv inv' : Inventory BlockId) (h : ∀ i, i ≠ k → inv'.get? i = inv.get? i)
    (value : InventoryEntry → ℕ) :
    inv'.total value + (inv.get? k).elim 0 value = inv.total value + (inv'.get? k).elim 0 value :=
  sum_change (f := fun i => (inv.get? i).elim 0 value) (g := fun i => (inv'.get? i).elim 0 value)
    fun i hi => congrArg (·.elim 0 value) (h i hi)

theorem total_insert (inv : Inventory BlockId) (k : BlockId) (entry : InventoryEntry)
    (value : InventoryEntry → ℕ) :
    total value ⟨inv.entries.insert k entry⟩ + (inv.get? k).elim 0 value =
      inv.total value + value entry := by
  have hget (i : BlockId) : get? ⟨inv.entries.insert k entry⟩ i =
      if k = i then some entry else inv.get? i := Table.get?_insert ..
  have hchange := total_change (k := k) inv ⟨inv.entries.insert k entry⟩
    (fun i hi => by rw [hget, if_neg (Ne.symm hi)]) value
  rwa [hget, if_pos rfl] at hchange

theorem total_resolve (inv : Inventory BlockId) (k : BlockId) (value : InventoryEntry → ℕ) :
    (inv.resolve k).2.total value + (inv.get? k).elim 0 value = inv.total value := by
  have hget (i : BlockId) : (inv.resolve k).2.get? i = if k = i then none else inv.get? i :=
    Table.get?_erase ..
  have hchange := total_change (k := k) inv (inv.resolve k).2
    (fun i hi => by rw [hget, if_neg (Ne.symm hi)]) value
  rwa [hget, if_pos rfl] at hchange

def Due (inv : Inventory BlockId) (k : BlockId) : Prop := ∃ e, inv.get? k = some e ∧ e.Due

-- ---------------------------------------------------------------------------
-- Announcements
-- ---------------------------------------------------------------------------

theorem announce_new (h : inv.get? k = none) (peer : NodeId) :
    inv.announce k peer = (.request, ⟨inv.entries.insert k ⟨[peer], none, 0, false⟩⟩) := by
  rw [announce, h]

theorem announce_tracked (h : inv.get? k = some entry) (peer : NodeId) :
    inv.announce k peer =
      (.alreadyTracked,
        if peer ∈ entry.announcers then inv
        else ⟨inv.entries.insert k (entry.announcedBy peer)⟩) := by
  rw [announce, h]
  by_cases hp : peer ∈ entry.announcers <;> simp [hp, InventoryEntry.announcedBy]

theorem announce_chances (inv : Inventory BlockId) (k : BlockId) (peer : NodeId) :
    (inv.announce k peer).2.total InventoryEntry.chances ≤
      inv.total InventoryEntry.chances + 1 := by
  cases hk : inv.get? k with
  | none =>
    have htotal := inv.total_insert k ⟨[peer], none, 0, false⟩ InventoryEntry.chances
    have hnew : InventoryEntry.chances ⟨[peer], none, 0, false⟩ = 1 := rfl
    rw [announce_new hk]
    simp only
    omega
  | some entry =>
    have htotal := inv.total_insert k (entry.announcedBy peer) InventoryEntry.chances
    have hentry := entry.chances_announcedBy peer
    rw [hk, Option.elim_some] at htotal
    rw [announce_tracked hk]
    split
    · exact Nat.le_succ _
    · simp only
      omega

theorem announce_work (h : inv.isTracked k = true) (peer : NodeId) :
    (inv.announce k peer).2.total InventoryEntry.work ≤ inv.total InventoryEntry.work := by
  obtain ⟨entry, hk⟩ := Option.isSome_iff_exists.mp h
  have hk : inv.get? k = some entry := hk
  have htotal := inv.total_insert k (entry.announcedBy peer) InventoryEntry.work
  rw [hk, Option.elim_some] at htotal
  rw [announce_tracked hk]
  split
  · exact Nat.le_refl _
  · rename_i hp
    have hentry := InventoryEntry.work_announcedBy hp
    simp only
    omega

theorem announce_due (h : inv.isTracked k = false) (peer : NodeId) :
    (inv.announce k peer).2.Due k := by
  have hk : inv.get? k = none := Option.isSome_eq_false_iff.mp h |> Option.isNone_iff_eq_none.mp
  rw [announce_new hk]
  exact ⟨_, by simp [get?], .first peer⟩

theorem Due.announce (h : inv.Due i) (k : BlockId) (peer : NodeId) :
    (inv.announce k peer).2.Due i := by
  obtain ⟨e, hi, hdue⟩ := h
  by_cases he : k = i
  · subst he
    rw [announce_tracked hi]
    split
    · exact ⟨e, hi, hdue⟩
    · exact ⟨e.announcedBy peer, by simp [get?], hdue.announcedBy peer⟩
  · refine ⟨e, ?_, hdue⟩
    cases hk : inv.get? k with
    | none =>
      rw [announce_new hk]
      simpa [get?, he] using hi
    | some entry =>
      rw [announce_tracked hk]
      split
      · exact hi
      · simpa [get?, he] using hi

/-- The tracker once a peer has announced the items, and those to be requested;
nothing is done about the known ones. -/
def announceEach (known : BlockId → Bool) (peer : NodeId) (inv : Inventory BlockId) :
    List BlockId → Inventory BlockId × List BlockId
  | [] => (inv, [])
  | k :: ks =>
    if known k then announceEach known peer inv ks
    else
      let rest := announceEach known peer (inv.announce k peer).2 ks
      (rest.1, if inv.isTracked k then rest.2 else k :: rest.2)

theorem announceEach_known (h : known k = true) :
    announceEach known peer inv (k :: ks) = announceEach known peer inv ks := by
  rw [announceEach, if_pos h]

theorem announceEach_unknown (h : known k = false) :
    announceEach known peer inv (k :: ks) =
      ((announceEach known peer (inv.announce k peer).2 ks).1,
        if inv.isTracked k then (announceEach known peer (inv.announce k peer).2 ks).2
        else k :: (announceEach known peer (inv.announce k peer).2 ks).2) := by
  rw [announceEach, if_neg (Bool.eq_false_iff.mp h)]

theorem announceEach_chances (known : BlockId → Bool) (peer : NodeId) (inv : Inventory BlockId)
    (ks : List BlockId) :
    (announceEach known peer inv ks).1.total InventoryEntry.chances ≤
      inv.total InventoryEntry.chances + ks.length := by
  induction ks generalizing inv with
  | nil => exact Nat.le_refl _
  | cons k ks ih =>
    rw [List.length_cons]
    cases hk : known k with
    | true =>
      rw [announceEach_known hk]
      exact (ih inv).trans (by omega)
    | false =>
      have hfirst := inv.announce_chances k peer
      rw [announceEach_unknown hk]
      exact (ih _).trans (by omega)

/-- Announcements that ask for no request add no work. -/
theorem announceEach_work (h : (announceEach known peer inv ks).2 = []) :
    (announceEach known peer inv ks).1.total InventoryEntry.work ≤
      inv.total InventoryEntry.work := by
  induction ks generalizing inv with
  | nil => exact Nat.le_refl _
  | cons k ks ih =>
    cases hk : known k with
    | true =>
      rw [announceEach_known hk] at h ⊢
      exact ih h
    | false =>
      rw [announceEach_unknown hk] at h ⊢
      cases htracked : inv.isTracked k with
      | false => simp [htracked] at h
      | true =>
        rw [htracked, if_pos rfl] at h
        exact (ih h).trans (announce_work htracked peer)

/-- What is due stays due, and what is to be requested is. -/
theorem announceEach_due (h : inv.Due i ∨ i ∈ (announceEach known peer inv ks).2) :
    (announceEach known peer inv ks).1.Due i := by
  induction ks generalizing inv with
  | nil => exact h.resolve_right List.not_mem_nil
  | cons k ks ih =>
    cases hk : known k with
    | true =>
      rw [announceEach_known hk] at h ⊢
      exact ih h
    | false =>
      rw [announceEach_unknown hk] at h ⊢
      rcases h with h | h
      · exact ih (.inl (h.announce k peer))
      · cases htracked : inv.isTracked k with
        | false =>
          rw [htracked, if_neg Bool.false_ne_true] at h
          rcases List.mem_cons.mp h with rfl | h
          · exact ih (.inl (announce_due htracked peer))
          · exact ih (.inr h)
        | true =>
          rw [htracked, if_pos rfl] at h
          exact ih (.inr h)

-- ---------------------------------------------------------------------------
-- Requests
-- ---------------------------------------------------------------------------

theorem markRequested_tracked (h : inv.get? k = some entry) (peer : NodeId) :
    inv.markRequested k peer = ⟨inv.entries.insert k (entry.requested peer)⟩ := by
  rw [markRequested, h]
  rfl

/-- A request uses up a chance. -/
theorem Due.total_markRequested (h : inv.Due k) (peer : NodeId) :
    (inv.markRequested k peer).total InventoryEntry.chances + 1 =
        inv.total InventoryEntry.chances ∧
      (inv.markRequested k peer).total InventoryEntry.work + 5 =
        inv.total InventoryEntry.work := by
  obtain ⟨entry, hk, hdue⟩ := h
  have hchances := inv.total_insert k (entry.requested peer) InventoryEntry.chances
  have hwork := inv.total_insert k (entry.requested peer) InventoryEntry.work
  have hentry := hdue.chances_requested peer
  have hentry' := hdue.work_requested peer
  rw [hk, Option.elim_some] at hchances hwork
  rw [markRequested_tracked hk]
  omega

theorem Due.markRequested (h : inv.Due i) (hne : k ≠ i) (peer : NodeId) :
    (inv.markRequested k peer).Due i := by
  obtain ⟨entry, hi, hdue⟩ := h
  cases hk : inv.get? k with
  | none => exact ⟨entry, by rwa [Inventory.markRequested, hk], hdue⟩
  | some other =>
    rw [markRequested_tracked hk]
    exact ⟨entry, by simpa [get?, hne] using hi, hdue⟩

/-- Requests use up a chance each. -/
theorem total_markEach (hdue : ∀ k ∈ ks, inv.Due k) (hd : ks.Nodup) (peer : NodeId) :
    (ks.foldl (·.markRequested · peer) inv).total InventoryEntry.chances + ks.length =
        inv.total InventoryEntry.chances ∧
      (ks.foldl (·.markRequested · peer) inv).total InventoryEntry.work + 5 * ks.length =
        inv.total InventoryEntry.work := by
  induction ks generalizing inv with
  | nil => exact ⟨rfl, rfl⟩
  | cons k ks ih =>
    obtain ⟨hk, hks⟩ := List.forall_mem_cons.mp hdue
    obtain ⟨hnot, hd⟩ := List.nodup_cons.mp hd
    have hfirst := hk.total_markRequested peer
    have hrest := ih (fun i hi => (hks i hi).markRequested (by rintro rfl; exact hnot hi) peer) hd
    rw [List.foldl_cons, List.length_cons]
    omega

-- ---------------------------------------------------------------------------
-- Expiry
-- ---------------------------------------------------------------------------

/-- A retry finds its item due, and changes the total of nothing. -/
theorem expire_retry {limit : UInt32} (h : inv.expire k limit = (.retry peer, inv')) :
    inv'.Due k ∧ inv'.total InventoryEntry.chances = inv.total InventoryEntry.chances ∧
      inv'.total InventoryEntry.work = inv.total InventoryEntry.work := by
  unfold expire at h
  split at h
  · cases h
  · rename_i entry hk
    split at h
    · rename_i announcer hannouncer
      split at h
      · rename_i hlimit
        obtain ⟨-, rfl⟩ := Prod.mk.inj h
        have hdue : InventoryEntry.Due { entry with timerArmed := false } := by
          refine ⟨(List.getElem?_eq_some_iff.mp hannouncer).1, ?_⟩
          exact Nat.lt_of_le_of_lt (Nat.succ_le_of_lt hlimit) limit.toNat_lt
        have hchances := inv.total_insert k { entry with timerArmed := false }
          InventoryEntry.chances
        have hwork := inv.total_insert k { entry with timerArmed := false } InventoryEntry.work
        rw [hk, Option.elim_some] at hchances hwork
        exact ⟨⟨_, by simp [get?], hdue⟩, Nat.add_right_cancel hchances,
          Nat.add_right_cancel hwork⟩
      · cases h
    · cases h

/-- What is forgotten was worth some work. -/
theorem resolve_spends (h : inv.isTracked k = true) :
    (inv.resolve k).2.total InventoryEntry.chances ≤ inv.total InventoryEntry.chances ∧
      (inv.resolve k).2.total InventoryEntry.work < inv.total InventoryEntry.work := by
  obtain ⟨entry, hk⟩ := Option.isSome_iff_exists.mp h
  have hk : inv.get? k = some entry := hk
  have hchances := inv.total_resolve k InventoryEntry.chances
  have hwork := inv.total_resolve k InventoryEntry.work
  rw [hk, Option.elim_some] at hchances hwork
  have hentry : 0 < entry.work := by
    rw [InventoryEntry.work]
    omega
  omega

end Inventory

end BlockGossip
