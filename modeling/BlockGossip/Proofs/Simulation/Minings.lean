import BlockGossip.Proofs.Simulation.Queue
import Mathlib.Data.List.Nodup

/-!
# Minings in the queue

The minings of the schedule and those that were asked for stand in one queue
beside the events of the nodes. What a node does to the queue leaves them alone.
Of the minings in it all but one were asked for, and that one is the next of the
schedule (`EventQueue.Planned`).
-/

namespace BlockGossip

-- ---------------------------------------------------------------------------
-- The minings that are to come
-- ---------------------------------------------------------------------------

namespace EventQueue

variable {q q' q'' : EventQueue} {key k : EventKey} {event : ScheduledEvent} {node : NodeId}
  {time limit : Time} {timer : TimerId}

/-- The key of an entry that is a mining. -/
def miningKey? : EventKey × ScheduledEvent → Option EventKey
  | (key, .mine) => some key
  | (_, .node _) => none

/-- The keys of the minings that are to come. -/
def minings (q : EventQueue) : List EventKey := q.events.toList.filterMap miningKey?

theorem mem_minings : key ∈ q.minings ↔ q.events[key]? = some .mine := by
  unfold minings
  rw [List.mem_filterMap]
  constructor
  · rintro ⟨⟨k, e⟩, hmem, hk⟩
    cases e with
    | node => exact nomatch hk
    | mine =>
      obtain rfl := Option.some.inj hk
      exact Std.TreeMap.mem_toList_iff_getElem?_eq_some.mp hmem
  · exact fun h => ⟨_, Std.TreeMap.mem_toList_iff_getElem?_eq_some.mpr h, rfl⟩

theorem minings_nodup (q : EventQueue) : q.minings.Nodup := by
  refine Std.TreeMap.ordered_keys_toList.filterMap _ ?_
  rintro ⟨a, e⟩ ⟨b, f⟩ hlt k hk k' hk' rfl
  cases e with
  | node => exact nomatch hk
  | mine =>
    cases f with
    | node => exact nomatch hk'
    | mine =>
      rw [Option.some.inj hk, Option.some.inj hk'] at hlt
      exact nomatch hlt.symm.trans Std.ReflCmp.compare_self

/-- A mining that is queued then was queued before, or its key is new. -/
theorem Evolves.mining (h : Evolves q q') (hk : k ∈ q'.minings) :
    k ∈ q.minings ∨ q.sequence < k.sequence := by
  rw [mem_minings] at hk ⊢
  exact (h.held k .mine hk).imp_right And.left

/-- The keys in use were issued, and none of a timer is that of a mining. -/
structure Issued (q : EventQueue) : Prop where
  numbered : q.Numbered
  timers : ∀ owner key, q.timers.get? owner = some key →
    key.sequence ≤ q.sequence ∧ key ∉ q.minings

theorem empty_issued : Issued empty := ⟨empty_numbered, nofun⟩

/-- Where no timer is set, the keys of the timers stay apart from new minings. -/
theorem Issued.evolves (h : q.Issued) (hevolves : Evolves q q')
    (htimers : ∀ owner key, q'.timers.get? owner = some key → q.timers.get? owner = some key) :
    q'.Issued where
  numbered := hevolves.numbered h.numbered
  timers owner key hkey := by
    obtain ⟨hle, hnot⟩ := h.timers owner key (htimers owner key hkey)
    refine ⟨Nat.le_trans hle hevolves.sequence, fun hmining => ?_⟩
    rcases hevolves.mining hmining with hold | hnew
    · exact hnot hold
    · omega

/-- A change of the queue that leaves the minings alone. -/
structure Spared (q q' : EventQueue) : Prop where
  issued : q'.Issued
  evolves : Evolves q q'
  minings : q'.minings = q.minings

theorem Spared.refl (h : q.Issued) : Spared q q := ⟨h, .refl q, rfl⟩

theorem Spared.trans (h : Spared q q') (h' : Spared q' q'') : Spared q q'' :=
  ⟨h'.issued, h.evolves.trans h'.evolves, h'.minings.trans h.minings⟩

theorem schedule_spared (h : q.Issued) (node : NodeId) (time : Time) (event : Event) :
    Spared q (q.schedule node time (.node event)).2 where
  issued := h.evolves (schedule_evolves ..) fun _ _ hkey => hkey
  evolves := schedule_evolves ..
  minings := filterMap_insert_other (schedule_fresh h.numbered node time (.node event)) rfl

/-- What is no mining may be taken out. -/
theorem erase_minings (hkey : key ∉ q.minings) :
    ({ q with events := q.events.erase key }).minings = q.minings := by
  refine filterMap_erase_other fun e he => ?_
  cases e with
  | node => rfl
  | mine => exact absurd (mem_minings.mpr he) hkey

theorem unset_spared (h : q.Issued) (node : NodeId) (timer : TimerId) :
    Spared q (q.unset node timer) where
  issued := h.evolves (unset_evolves ..) fun _ _ hkey => unset_timers q node timer ▸ hkey
  evolves := unset_evolves ..
  minings := by
    unfold unset
    split
    · rename_i hset
      exact erase_minings (h.timers _ _ hset).2
    · rfl

theorem setTimer_spared (h : q.Issued) (node : NodeId) (timer : TimerId) (after : Duration) :
    Spared q (q.setTimer node timer after) := by
  have hset := (unset_spared h node timer).trans (schedule_spared
    (unset_spared h node timer).issued node
    ((q.unset node timer).now + after.toSeconds) (.timerFired timer))
  rw [setTimer_eq]
  refine ⟨⟨hset.issued.numbered, fun owner key hkey => ?_⟩, hset.evolves.of_eq rfl rfl, hset.minings⟩
  rw [Table.get?_insert] at hkey
  split at hkey
  · obtain rfl := Option.some.inj hkey
    refine ⟨Nat.le_refl _, fun hmining => ?_⟩
    rw [mem_minings] at hmining
    cases (getElem?_insert.trans (if_pos rfl)).symm.trans hmining
  · exact hset.issued.timers owner key hkey

theorem cancelTimer_spared (h : q.Issued) (node : NodeId) (timer : TimerId) :
    Spared q (q.cancelTimer node timer) where
  issued := h.evolves (cancelTimer_evolves ..) fun owner key hkey => by
    unfold cancelTimer at hkey
    split at hkey
    · rw [Table.get?_erase] at hkey
      split at hkey
      · cases hkey
      · exact hkey
    · exact hkey
  evolves := cancelTimer_evolves ..
  minings := by
    unfold cancelTimer
    split
    · rename_i hset
      exact erase_minings (h.timers _ _ hset).2
    · rfl

theorem forgetTimer_timers {owner : NodeId × TimerId}
    (h : (q.forgetTimer key event).timers.get? owner = some k) :
    q.timers.get? owner = some k := by
  unfold forgetTimer at h
  split at h
  · split at h
    · rw [Table.get?_erase] at h
      split at h
      · cases h
      · exact h
    · exact h
  · exact h

theorem popUntil_issued (h : q.Issued) (hpop : q.popUntil limit = some ((key, event), q')) :
    q'.Issued := by
  refine h.evolves (popUntil_evolves hpop) fun owner k hk => ?_
  obtain ⟨-, -, rfl⟩ := popUntil_some hpop
  have hkept := forgetTimer_timers hk
  exact hkept

/-- The minings before are the one that is taken, if one is, and those left. -/
theorem popUntil_minings (hpop : q.popUntil limit = some ((key, event), q')) :
    q.minings = (miningKey? (key, event)).toList ++ q'.minings := by
  unfold minings
  rw [popUntil_entries hpop]
  cases event <;> rfl

theorem popUntil_spared {event : Event} (h : q.Issued)
    (hpop : q.popUntil limit = some ((key, .node event), q')) : Spared q q' :=
  ⟨popUntil_issued h hpop, popUntil_evolves hpop, (popUntil_minings hpop).symm⟩

theorem advanceTo_spared (h : q.Issued) (time : Time) : Spared q (q.advanceTo time) where
  issued := h.evolves (advanceTo_evolves ..) fun _ _ hkey => advanceTo_timers q time ▸ hkey
  evolves := advanceTo_evolves ..
  minings := by unfold minings; rw [advanceTo_events]

/-- A mining that is scheduled joins the others. -/
theorem schedule_minings (h : q.Numbered) (node : NodeId) (time : Time) :
    (q.schedule node time .mine).2.minings.Perm
      ((q.schedule node time .mine).1 :: q.minings) := by
  obtain ⟨before, after, hold, hnew⟩ := toList_insert (schedule_fresh h node time .mine) .mine
  have hold' : q.minings = (before ++ after).filterMap miningKey? := congrArg _ hold
  have hnew' : (q.schedule node time .mine).2.minings =
      (before ++ ((q.schedule node time .mine).1, .mine) :: after).filterMap miningKey? :=
    congrArg _ hnew
  rw [hold', hnew', List.filterMap_append, List.filterMap_append,
    List.filterMap_cons_some (rfl : miningKey? (_, .mine) = some _)]
  exact List.perm_middle

-- ---------------------------------------------------------------------------
-- The minings asked for, and the next
-- ---------------------------------------------------------------------------

/-- Of the minings in the queue all but the next were asked for, and with the
blocks that were minted they are no more than the blocks wanted and asked for. -/
structure Planned (cap : Nat) (asked : List EventKey) (q : EventQueue) (minted : Nat)
    (next : Option EventKey) : Prop where
  issued : q.Issued
  past : ∀ key ∈ asked, key.sequence ≤ q.sequence
  next_iff : ∀ key, key ∈ q.minings ∧ key ∉ asked ↔ next = some key
  budget : minted + q.minings.length ≤ cap + asked.length

namespace Planned

variable {cap minted minted' : Nat} {asked : List EventKey} {next : Option EventKey}

theorem spared (h : Planned cap asked q minted next) (hspared : Spared q q') :
    Planned cap asked q' minted next where
  issued := hspared.issued
  past key hkey := Nat.le_trans (h.past key hkey) hspared.evolves.sequence
  next_iff := hspared.minings ▸ h.next_iff
  budget := hspared.minings ▸ h.budget

theorem mono (h : Planned cap asked q minted next) (hle : minted' ≤ minted) :
    Planned cap asked q minted' next :=
  { h with budget := Nat.le_trans (Nat.add_le_add_right hle _) h.budget }

/-- The minings that were not asked for are the next one alone. -/
theorem unasked (h : Planned cap asked q minted next) :
    q.minings.filter (· ∉ asked) = next.toList := by
  have hmem (k : EventKey) : k ∈ q.minings.filter (· ∉ asked) ↔ next = some k := by
    rw [List.mem_filter, decide_eq_true_iff]
    exact h.next_iff k
  cases hnext : next with
  | none =>
    rw [Option.toList_none, List.eq_nil_iff_forall_not_mem]
    exact fun k hk => nomatch hnext.symm.trans ((hmem k).mp hk)
  | some key =>
    rw [Option.toList_some, ← List.perm_singleton,
      List.perm_ext_iff_of_nodup (q.minings_nodup.filter _) (List.nodup_singleton key)]
    intro k
    rw [hmem, hnext, Option.some_inj, List.mem_singleton]
    exact eq_comm

theorem length_le (h : Planned cap asked q minted none) : q.minings.length ≤ asked.length := by
  refine (q.minings_nodup.subperm fun key hkey => ?_).length_le
  by_contra hnot
  exact nomatch (h.next_iff key).mp ⟨hkey, hnot⟩

/-- A key that is issued now is none of those in use. -/
theorem fresh (h : Planned cap asked q minted next) (node : NodeId) (time : Time) :
    (q.schedule node time .mine).1 ∉ q.minings ∧ (q.schedule node time .mine).1 ∉ asked := by
  constructor
  · intro hmining
    exact Nat.not_succ_le_self _ (h.issued.numbered _ _ (mem_minings.mp hmining))
  · exact fun hasked => Nat.not_succ_le_self _ (h.past _ hasked)

/-- A mining is asked for. -/
theorem ask (h : Planned cap asked q minted next) (node : NodeId) (time : Time) :
    Planned cap (asked ++ [(q.schedule node time .mine).1]) (q.schedule node time .mine).2 minted
      next where
  issued := h.issued.evolves (schedule_evolves ..) fun _ _ hkey => hkey
  past key hkey := by
    rcases List.mem_append.mp hkey with hkey | hkey
    · exact Nat.le_succ_of_le (h.past key hkey)
    · rw [List.mem_singleton.mp hkey]
      exact Nat.le_refl _
  next_iff key := by
    have hfresh := (h.fresh node time).1
    rw [(schedule_minings h.issued.numbered node time).mem_iff, ← h.next_iff key, List.mem_cons,
      List.mem_append, List.mem_singleton]
    constructor
    · rintro ⟨hmining, hnot⟩
      exact ⟨hmining.resolve_left fun heq => hnot (.inr heq), fun hasked => hnot (.inl hasked)⟩
    · rintro ⟨hmining, hnot⟩
      exact ⟨.inr hmining, fun hasked => hasked.elim hnot fun heq => hfresh (heq ▸ hmining)⟩
  budget := by
    have hlength := (schedule_minings h.issued.numbered node time).length_eq
    have hbudget := h.budget
    rw [List.length_cons] at hlength
    rw [hlength, List.length_append, List.length_singleton]
    omega

/-- The next mining is scheduled while blocks are wanted. -/
theorem expect (h : Planned cap asked q minted none) (hwanted : minted < cap) (node : NodeId)
    (time : Time) : Planned cap asked (q.schedule node time .mine).2 minted
      (some (q.schedule node time .mine).1) where
  issued := h.issued.evolves (schedule_evolves ..) fun _ _ hkey => hkey
  past key hkey := Nat.le_succ_of_le (h.past key hkey)
  next_iff key := by
    have hfresh := (h.fresh node time).2
    rw [(schedule_minings h.issued.numbered node time).mem_iff, List.mem_cons, Option.some_inj]
    constructor
    · rintro ⟨heq | hmining, hnot⟩
      · exact heq.symm
      · exact nomatch (h.next_iff key).mp ⟨hmining, hnot⟩
    · rintro rfl
      exact ⟨.inl rfl, hfresh⟩
  budget := by
    have hlength := (schedule_minings h.issued.numbered node time).length_eq
    have hasked := h.length_le
    rw [List.length_cons] at hlength
    omega

/-- A mining is taken, and may mint a block. -/
theorem pop (h : Planned cap asked q minted next)
    (hpop : q.popUntil limit = some ((key, .mine), q')) :
    Planned cap asked q' (minted + 1) (if next = some key then none else next) := by
  have hminings : q.minings = key :: q'.minings := popUntil_minings hpop
  have hnot : key ∉ q'.minings := (List.nodup_cons.mp (hminings ▸ q.minings_nodup)).1
  refine ⟨popUntil_issued h.issued hpop, fun k hk => ?_, fun k => ?_, ?_⟩
  · exact Nat.le_trans (h.past k hk) (popUntil_evolves hpop).sequence
  · have hiff := h.next_iff k
    rw [hminings, List.mem_cons] at hiff
    split
    · rename_i hnext
      refine ⟨fun ⟨hmining, hasked⟩ => ?_, nofun⟩
      obtain rfl := Option.some.inj (hnext.symm.trans (hiff.mp ⟨.inr hmining, hasked⟩))
      exact absurd hmining hnot
    · rename_i hnext
      rw [← hiff]
      refine ⟨fun ⟨hmining, hasked⟩ => ⟨.inr hmining, hasked⟩, fun ⟨hmining, hasked⟩ => ⟨?_, hasked⟩⟩
      refine hmining.resolve_left ?_
      rintro rfl
      exact hnext (hiff.mp ⟨.inl rfl, hasked⟩)
  · have hbudget := h.budget
    rw [hminings, List.length_cons] at hbudget
    omega

/-- The next mining is cancelled. -/
theorem cancel (h : Planned cap asked q minted (some key)) :
    Planned cap asked (q.cancel key).2 minted none where
  issued := h.issued.evolves (cancel_evolves ..) fun _ _ hkey => hkey
  past := h.past
  next_iff k := by
    rw [mem_minings, EventQueue.cancel, getElem?_erase]
    refine ⟨fun ⟨hmining, hnot⟩ => ?_, nofun⟩
    split at hmining
    · exact nomatch hmining
    · rename_i hne
      exact absurd (Option.some.inj ((h.next_iff k).mp ⟨mem_minings.mpr hmining, hnot⟩)) hne
  budget := by
    have hsublist : (q.cancel key).2.minings.Sublist q.minings := by
      unfold minings EventQueue.cancel
      rw [toList_erase]
      exact List.filter_sublist.filterMap _
    have hlength := hsublist.length_le
    have hbudget := h.budget
    omega

end Planned

end EventQueue

end BlockGossip
