import BlockGossip.Proofs.Time.Order
import BlockGossip.Simulation.Queue
import Mathlib.Data.List.Sort
import Std.Data.DTreeMap.Internal.WF.Lemmas
import Std.Data.TreeMap.Lemmas

/-!
# The queue as a sorted list

The entries of an event queue stand in order of their keys; taking one takes
the first, and scheduling puts one where its key belongs. Its sequence number is
above all that were used, so what the queue holds it held before, or it was
scheduled since.
-/

namespace BlockGossip

-- ---------------------------------------------------------------------------
-- Keys
-- ---------------------------------------------------------------------------

namespace EventKey

variable {a b : EventKey}

theorem compare_eq (a b : EventKey) :
    compare a b = (compare a.time.rank b.time.rank).then
      ((compare a.node b.node).then (compare a.sequence b.sequence)) := rfl

instance : Std.TransOrd EventKey := by
  show Std.TransCmp (compareLex _ (compareLex _ _))
  infer_instance

instance : Std.LawfulEqOrd EventKey where
  eq_of_compare {a b} h := by
    rw [compare_eq, Ordering.then_eq_eq, Ordering.then_eq_eq, Int.compare_eq_eq,
      Nat.compare_eq_eq] at h
    obtain ⟨htime, hnode, hsequence⟩ := h
    obtain ⟨⟨⟨x, _⟩⟩, n, i⟩ := a
    obtain ⟨⟨⟨y, _⟩⟩, m, j⟩ := b
    obtain rfl : x = y := Time.rank_injective htime
    obtain rfl : n = m := Std.LawfulEqCmp.eq_of_compare hnode
    obtain rfl : i = j := hsequence
    rfl

/-- Among the events of one node the time decides, and then the sequence number. -/
theorem lt_of_node_eq (hnode : a.node = b.node) :
    compare a b = .lt ↔
      a.time.rank < b.time.rank ∨ a.time.rank = b.time.rank ∧ a.sequence < b.sequence := by
  have hn : compare a.node b.node = .eq := by rw [hnode]; exact Std.ReflCmp.compare_self
  rw [compare_eq, hn, Ordering.then_eq_lt, Int.compare_eq_lt, Int.compare_eq_eq]
  show _ ∨ _ ∧ compare a.sequence b.sequence = .lt ↔ _
  rw [Nat.compare_eq_lt]

/-- The earlier of two keys is not of a later time. -/
theorem rank_le_of_lt (h : compare a b = .lt) : a.time.rank ≤ b.time.rank := by
  rw [compare_eq, Ordering.then_eq_lt, Int.compare_eq_lt, Int.compare_eq_eq] at h
  omega

/-- The number as a counter of 64 bits shows it. -/
def word (key : EventKey) : UInt64 := UInt64.ofNat key.sequence

theorem word_toNat {key : EventKey} (h : key.sequence < UInt64.size) :
    key.word.toNat = key.sequence := UInt64.toNat_ofNat_of_lt' h

end EventKey

-- ---------------------------------------------------------------------------
-- Sorted entries
-- ---------------------------------------------------------------------------

section
variable {α β γ : Type} {cmp : α → α → Ordering}

open Std.DTreeMap.Internal in
theorem minEntry?_eq_head? (t : Std.TreeMap α β cmp) : t.minEntry? = t.toList.head? := by
  show Impl.Const.minEntry? t.inner.inner = (Impl.Const.toList t.inner.inner).head?
  rw [Impl.Const.toList_eq_toListModel_map]
  generalize t.inner.inner = tree
  induction tree using Impl.Const.minEntry?.induct_unfolding with
  | case1 => rfl
  | case2 => simp [Impl.toListModel]
  | case3 => simp_all [Impl.toListModel]

end

variable {t : Std.TreeMap EventKey ScheduledEvent} {key k : EventKey} {event e : ScheduledEvent}
  {entries rest : List (EventKey × ScheduledEvent)}

/-- One entry stands before another. -/
abbrev Before (a b : EventKey × ScheduledEvent) : Prop := compare a.1 b.1 = .lt

instance : Std.Irrefl Before where
  irrefl a h := by
    have heq : compare a.1 a.1 = .eq := Std.ReflCmp.compare_self
    exact nomatch heq.symm.trans h

instance : Std.Antisymm Before where
  antisymm _ _ h h' := nomatch (Std.OrientedCmp.gt_of_lt h').symm.trans h

/-- A list in order with the entries of a map is the list of its entries. -/
theorem toList_eq (hentries : entries.Pairwise Before)
    (h : ∀ k e, (k, e) ∈ entries ↔ t[k]? = some e) : t.toList = entries :=
  Std.TreeMap.ordered_keys_toList.eq_of_mem_iff hentries fun (k, e) => by
    rw [h, Std.TreeMap.mem_toList_iff_getElem?_eq_some]

theorem getElem?_insert : (t.insert key event)[k]? = if key = k then some event else t[k]? := by
  rw [Std.TreeMap.getElem?_insert]
  simp only [Std.LawfulEqCmp.compare_eq_iff_eq]

theorem getElem?_erase : (t.erase key)[k]? = if key = k then none else t[k]? := by
  rw [Std.TreeMap.getElem?_erase]
  simp only [Std.LawfulEqCmp.compare_eq_iff_eq]

/-- A new entry goes between those before it and those behind it. -/
theorem toList_insert (hfresh : t[key]? = none) (event : ScheduledEvent) :
    ∃ before after, t.toList = before ++ after ∧
      (t.insert key event).toList = before ++ (key, event) :: after := by
  have hmem : (key, event) ∈ (t.insert key event).toList := by
    rw [Std.TreeMap.mem_toList_iff_getElem?_eq_some, getElem?_insert, if_pos rfl]
  obtain ⟨before, after, hsplit⟩ := List.append_of_mem hmem
  have hsorted : (before ++ (key, event) :: after).Pairwise Before :=
    hsplit ▸ Std.TreeMap.ordered_keys_toList
  refine ⟨before, after, toList_eq (hsorted.sublist (by simp)) fun k e => ?_, hsplit⟩
  have hiff : (k, e) ∈ before ++ (key, event) :: after ↔
      (if key = k then some event else t[k]?) = some e := by
    rw [← hsplit, Std.TreeMap.mem_toList_iff_getElem?_eq_some, getElem?_insert]
  obtain ⟨-, hafter, hbetween⟩ := List.pairwise_append.mp hsorted
  by_cases hk : key = k
  · subst hk
    refine ⟨fun h => ?_, fun h => nomatch hfresh.symm.trans h⟩
    have hself : Before (key, e) (key, event) ∨ Before (key, event) (key, e) := by
      rcases List.mem_append.mp h with h | h
      · exact .inl (hbetween _ h _ (List.mem_cons_self ..))
      · exact .inr (List.rel_of_pairwise_cons hafter h)
    rcases hself with h | h <;> exact absurd h (Std.Irrefl.irrefl (r := Before) (key, e))
  · rw [if_neg hk] at hiff
    rw [← hiff]
    have hne : (k, e) ≠ (key, event) := fun h => hk (congrArg Prod.fst h).symm
    simp [hne]

theorem toList_erase : (t.erase key).toList = t.toList.filter (·.1 ≠ key) := by
  refine toList_eq (Std.TreeMap.ordered_keys_toList.filter _) fun k e => ?_
  rw [getElem?_erase, List.mem_filter, Std.TreeMap.mem_toList_iff_getElem?_eq_some]
  by_cases hk : key = k
  · simp [hk]
  · simp [hk, Ne.symm hk]

theorem toList_erase_head (h : t.toList = (key, event) :: rest) : (t.erase key).toList = rest := by
  have hsorted : ((key, event) :: rest).Pairwise Before := h ▸ Std.TreeMap.ordered_keys_toList
  rw [toList_erase, h, List.filter_cons_of_neg (by simp), List.filter_eq_self]
  intro entry hentry
  have hlt := List.rel_of_pairwise_cons hsorted hentry
  refine decide_eq_true fun heq => ?_
  rw [Before, heq] at hlt
  have hsame : compare key key = .eq := Std.ReflCmp.compare_self
  exact nomatch hsame.symm.trans hlt

section
variable {γ : Type} {f : EventKey × ScheduledEvent → Option γ}

/-- A new entry that is not looked for changes nothing that is. -/
theorem filterMap_insert_other (hfresh : t[key]? = none) (hnone : f (key, event) = none) :
    (t.insert key event).toList.filterMap f = t.toList.filterMap f := by
  obtain ⟨before, after, hold, hnew⟩ := toList_insert hfresh event
  rw [hold, hnew, List.filterMap_append, List.filterMap_append, List.filterMap_cons_none hnone]

/-- A new entry behind all that are looked for comes last of them. -/
theorem filterMap_insert_last {c : γ} (hfresh : t[key]? = none) (hsome : f (key, event) = some c)
    (hlast : ∀ entry ∈ t.toList, (f entry).isSome → compare entry.1 key = .lt) :
    (t.insert key event).toList.filterMap f = t.toList.filterMap f ++ [c] := by
  obtain ⟨before, after, hold, hnew⟩ := toList_insert hfresh event
  have hsorted : (before ++ (key, event) :: after).Pairwise Before :=
    hnew ▸ Std.TreeMap.ordered_keys_toList
  have hafter : after.filterMap f = [] := by
    rw [List.filterMap_eq_nil_iff]
    intro entry hentry
    by_contra hne
    have hlt := hlast entry (hold ▸ List.mem_append_right _ hentry)
      (Option.isSome_iff_ne_none.mpr hne)
    have hgt := List.rel_of_pairwise_cons (List.pairwise_append.mp hsorted).2.1 hentry
    exact nomatch (Std.OrientedCmp.gt_of_lt hgt).symm.trans hlt
  rw [hold, hnew, List.filterMap_append, List.filterMap_append, List.filterMap_cons_some hsome,
    hafter, List.append_nil]

/-- What is taken out and not looked for is not missed. -/
theorem filterMap_erase_other (hnone : ∀ e, t[key]? = some e → f (key, e) = none) :
    (t.erase key).toList.filterMap f = t.toList.filterMap f := by
  rw [toList_erase, List.filterMap_filter]
  refine List.filterMap_congr fun (k, e) hentry => ?_
  by_cases hk : k = key
  · subst hk
    simp [hnone e (Std.TreeMap.mem_toList_iff_getElem?_eq_some.mp hentry)]
  · simp [hk]

end

-- ---------------------------------------------------------------------------
-- Operations
-- ---------------------------------------------------------------------------

namespace EventQueue

variable {q q' q'' : EventQueue} {limit time : Time} {node : NodeId}

@[simp] theorem forgetTimer_events : (q.forgetTimer key event).events = q.events := by
  unfold forgetTimer
  split
  · split <;> rfl
  · rfl

@[simp] theorem forgetTimer_now : (q.forgetTimer key event).now = q.now := by
  unfold forgetTimer
  split
  · split <;> rfl
  · rfl

@[simp] theorem forgetTimer_sequence : (q.forgetTimer key event).sequence = q.sequence := by
  unfold forgetTimer
  split
  · split <;> rfl
  · rfl

theorem popUntil_some (h : q.popUntil limit = some ((key, event), q')) :
    q.events.toList.head? = some (key, event) ∧ ¬key.time > limit ∧
      q' = ({ q with events := q.events.erase key, now := key.time }).forgetTimer key event := by
  unfold popUntil at h
  rw [minEntry?_eq_head?] at h
  split at h
  · exact nomatch h
  · rename_i hhead
    split at h
    · exact nomatch h
    · rename_i hlimit
      obtain ⟨⟨rfl, rfl⟩, rfl⟩ := Option.some.inj h
      exact ⟨hhead, hlimit, rfl⟩

/-- The first entry is taken: it was in the queue, and the others stay. -/
theorem popUntil_entries (h : q.popUntil limit = some ((key, event), q')) :
    q.events.toList = (key, event) :: q'.events.toList := by
  obtain ⟨hhead, -, rfl⟩ := popUntil_some h
  obtain ⟨rest, hrest⟩ := List.head?_eq_some_iff.mp hhead
  rw [forgetTimer_events]
  dsimp only
  rw [toList_erase_head hrest, hrest]

theorem popUntil_mem (h : q.popUntil limit = some ((key, event), q')) :
    q.events[key]? = some event := by
  rw [← Std.TreeMap.mem_toList_iff_getElem?_eq_some, popUntil_entries h]
  exact List.mem_cons_self ..

theorem popUntil_getElem? (h : q.popUntil limit = some ((key, event), q')) (k : EventKey) :
    q'.events[k]? = if key = k then none else q.events[k]? := by
  obtain ⟨-, -, rfl⟩ := popUntil_some h
  rw [forgetTimer_events, getElem?_erase]

/-- None is left before the one that is taken. -/
theorem popUntil_first (h : q.popUntil limit = some ((key, event), q'))
    (hk : q'.events[k]? = some e) : key.time.rank ≤ k.time.rank := by
  have hsorted : q.events.toList.Pairwise Before := Std.TreeMap.ordered_keys_toList
  rw [popUntil_entries h] at hsorted
  exact EventKey.rank_le_of_lt (List.rel_of_pairwise_cons hsorted
    (Std.TreeMap.mem_toList_iff_getElem?_eq_some.mpr hk))

/-- Where none is taken, all are after the end. -/
theorem popUntil_none (h : q.popUntil limit = none) (hk : q.events[k]? = some e) :
    limit.rank < k.time.rank := by
  have hmem := Std.TreeMap.mem_toList_iff_getElem?_eq_some.mpr hk
  have hsorted : q.events.toList.Pairwise Before := Std.TreeMap.ordered_keys_toList
  unfold popUntil at h
  rw [minEntry?_eq_head?] at h
  split at h
  · rename_i hhead
    rw [List.head?_eq_none_iff.mp hhead] at hmem
    exact absurd hmem List.not_mem_nil
  · rename_i key event hhead
    split at h
    · rename_i hlimit
      have hlt := Time.rank_lt_of_lt hlimit
      obtain ⟨rest, hrest⟩ := List.head?_eq_some_iff.mp hhead
      rw [hrest] at hmem hsorted
      rcases List.mem_cons.mp hmem with heq | hmem
      · obtain ⟨rfl, rfl⟩ := Prod.mk.inj heq
        exact hlt
      · exact Int.lt_of_lt_of_le hlt
          (EventKey.rank_le_of_lt (List.rel_of_pairwise_cons hsorted hmem))
    · exact nomatch h

/-- The first event as the list of all gives it. The search for the smallest key
of a map does not reduce in the logic; this does, so runs can be evaluated. -/
def popFirst (q : EventQueue) (limit : Time) : Option ((EventKey × ScheduledEvent) × EventQueue) :=
  match q.events.toList with
  | [] => none
  | (key, event) :: _ =>
    if key.time > limit then none
    else
      some ((key, event),
        ({ q with events := q.events.erase key, now := key.time }).forgetTimer key event)

theorem popUntil_eq_popFirst (q : EventQueue) (limit : Time) :
    q.popUntil limit = q.popFirst limit := by
  unfold popUntil popFirst
  rw [minEntry?_eq_head?]
  cases q.events.toList <;> rfl

theorem setTimer_now (q : EventQueue) (node : NodeId) (timer : TimerId) (after : Duration) :
    (q.setTimer node timer after).now = q.now := by
  unfold setTimer
  split <;> rfl

theorem cancelTimer_now (q : EventQueue) (node : NodeId) (timer : TimerId) :
    (q.cancelTimer node timer).now = q.now := by
  unfold cancelTimer
  split <;> rfl

-- ---------------------------------------------------------------------------
-- Keys are not issued twice
-- ---------------------------------------------------------------------------

/-- The numbers of all keys in the queue were used. -/
def Numbered (q : EventQueue) : Prop :=
  ∀ (key : EventKey) event, q.events[key]? = some event → key.sequence ≤ q.sequence

theorem empty_numbered : Numbered empty := by
  intro key event h
  exact absurd h (by simp [empty])

/-- What a queue may become: what it holds then it held before, or it was
scheduled since. -/
structure Evolves (q q' : EventQueue) : Prop where
  sequence : q.sequence ≤ q'.sequence
  held : ∀ (key : EventKey) event, q'.events[key]? = some event →
    q.events[key]? = some event ∨ q.sequence < key.sequence ∧ key.sequence ≤ q'.sequence

theorem Evolves.refl (q : EventQueue) : Evolves q q := ⟨Nat.le_refl _, fun _ _ h => .inl h⟩

theorem Evolves.trans (h : Evolves q q') (h' : Evolves q' q'') : Evolves q q'' where
  sequence := Nat.le_trans h.sequence h'.sequence
  held key event hheld := by
    have hle := h.sequence
    have hle' := h'.sequence
    rcases h'.held key event hheld with hheld | ⟨hlt, hbound⟩
    · exact (h.held key event hheld).imp_right fun ⟨hlt, hbound⟩ => ⟨hlt, by omega⟩
    · exact .inr ⟨by omega, hbound⟩

theorem Evolves.numbered (h : Evolves q q') (hq : q.Numbered) : q'.Numbered := by
  intro key event hheld
  have hle := h.sequence
  rcases h.held key event hheld with hheld | ⟨-, hbound⟩
  · exact Nat.le_trans (hq key event hheld) hle
  · exact hbound

theorem evolves_erase (q : EventQueue) (key : EventKey) :
    Evolves q { q with events := q.events.erase key } where
  sequence := Nat.le_refl _
  held k e h := by
    rw [getElem?_erase] at h
    split at h
    · exact nomatch h
    · exact .inl h

/-- Only what is in the queue and its counter matter. -/
theorem Evolves.of_eq (h : Evolves q q') (hevents : q''.events = q'.events)
    (hsequence : q''.sequence = q'.sequence) : Evolves q q'' where
  sequence := hsequence ▸ h.sequence
  held key event hheld := by
    rw [hevents] at hheld
    rw [hsequence]
    exact h.held key event hheld

theorem schedule_evolves (q : EventQueue) (node : NodeId) (time : Time) (event : ScheduledEvent) :
    Evolves q (q.schedule node time event).2 where
  sequence := Nat.le_succ _
  held k e h := by
    rw [schedule, getElem?_insert] at h
    split at h
    · rename_i hk
      subst hk
      exact .inr ⟨Nat.lt_succ_self _, Nat.le_refl _⟩
    · exact .inl h

theorem schedule_fresh (h : q.Numbered) (node : NodeId) (time : Time) (event : ScheduledEvent) :
    q.events[(q.schedule node time event).1]? = none := by
  rw [Option.eq_none_iff_forall_ne_some]
  intro e hheld
  exact absurd (h _ e hheld) (Nat.not_succ_le_self _)

theorem popUntil_evolves (h : q.popUntil limit = some ((key, event), q')) : Evolves q q' := by
  obtain ⟨-, -, rfl⟩ := popUntil_some h
  exact (q.evolves_erase key).of_eq forgetTimer_events forgetTimer_sequence

theorem cancel_evolves (q : EventQueue) (key : EventKey) : Evolves q (q.cancel key).2 :=
  q.evolves_erase key

theorem advanceTo_events (q : EventQueue) (time : Time) : (q.advanceTo time).events = q.events := by
  unfold advanceTo
  split <;> rfl

theorem advanceTo_sequence (q : EventQueue) (time : Time) :
    (q.advanceTo time).sequence = q.sequence := by
  unfold advanceTo
  split <;> rfl

theorem advanceTo_timers (q : EventQueue) (time : Time) : (q.advanceTo time).timers = q.timers := by
  unfold advanceTo
  split <;> rfl

theorem advanceTo_evolves (q : EventQueue) (time : Time) : Evolves q (q.advanceTo time) :=
  (Evolves.refl q).of_eq (q.advanceTo_events time) (q.advanceTo_sequence time)

theorem cancelTimer_evolves (q : EventQueue) (node : NodeId) (timer : TimerId) :
    Evolves q (q.cancelTimer node timer) := by
  unfold cancelTimer
  split
  · rename_i key _
    exact (q.evolves_erase key).of_eq rfl rfl
  · exact .refl q

/-- The queue without the event of a timer that is set. -/
def unset (q : EventQueue) (node : NodeId) (timer : TimerId) : EventQueue :=
  match q.timers.get? (node, timer) with
  | some previous => { q with events := q.events.erase previous }
  | none => q

theorem setTimer_eq (q : EventQueue) (node : NodeId) (timer : TimerId) (after : Duration) :
    q.setTimer node timer after =
      let (key, set) := (q.unset node timer).scheduleAfter node after (.node (.timerFired timer))
      { set with timers := set.timers.insert (node, timer) key, timersSet := set.timersSet + 1 } :=
  rfl

theorem unset_timers (q : EventQueue) (node : NodeId) (timer : TimerId) :
    (q.unset node timer).timers = q.timers := by
  unfold unset
  split <;> rfl

theorem unset_evolves (q : EventQueue) (node : NodeId) (timer : TimerId) :
    Evolves q (q.unset node timer) := by
  unfold unset
  split
  · exact q.evolves_erase _
  · exact .refl q

theorem setTimer_evolves (q : EventQueue) (node : NodeId) (timer : TimerId) (after : Duration) :
    Evolves q (q.setTimer node timer after) := by
  rw [setTimer_eq]
  exact ((q.unset_evolves node timer).trans (schedule_evolves _ node _ _)).of_eq rfl rfl

end EventQueue

end BlockGossip
