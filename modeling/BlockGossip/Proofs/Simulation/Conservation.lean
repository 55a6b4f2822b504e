import BlockGossip.Proofs.Simulation.Calls
import Mathlib.Data.List.Sort

/-!
# What becomes of scheduled events

Whatever the calls of a queue, an event gets a key of its own, stays until one
call takes it out, and never comes back. The least key comes out first. What is
cancelled, by its key or with its timer, what is replaced, and what belongs to a
node that is removed, is gone with that call (`called_conserved`).
-/

namespace BlockGossip.EventQueue

variable {q q' rest : EventQueue} {log : List Step} {t : Step} {key k : EventKey}
  {event e : ScheduledEvent} {node : NodeId} {timer : TimerId}

-- ---------------------------------------------------------------------------
-- Leaving
-- ---------------------------------------------------------------------------

/-- Why an event leaves the queue: it is popped, or cancelled by its key; or it
is that of the last setting of a timer which is cancelled, or set again; or its
node is removed. -/
inductive Releases (earlier : List Step) : Step → EventKey → ScheduledEvent → Prop
  | popped {q rest : EventQueue} {limit : Time} {key : EventKey} {event : ScheduledEvent}
    (h : q.popUntil limit = some ((key, event), rest)) :
    Releases earlier ⟨q, .popUntil limit⟩ key event
  | cancelled {q : EventQueue} {key : EventKey} {event : ScheduledEvent} :
    Releases earlier ⟨q, .cancel key⟩ key event
  | disarmed {q : EventQueue} {key : EventKey} {timer : TimerId}
    (h : lastSet earlier key.node timer = some key) :
    Releases earlier ⟨q, .cancelTimer key.node timer⟩ key (.node (.timerFired timer))
  | replaced {q : EventQueue} {key : EventKey} {timer : TimerId} {after : Duration}
    (h : lastSet earlier key.node timer = some key) :
    Releases earlier ⟨q, .setTimer key.node timer after⟩ key (.node (.timerFired timer))
  | removed {q : EventQueue} {key : EventKey} {event : ScheduledEvent} :
    Releases earlier ⟨q, .removeNode key.node⟩ key event

/-- What a call removes from the queue, it removes for a reason. -/
theorem Recorded.releases {call : Call} (h : Recorded q log) (hk : q.events[k]? = some e)
    (hremoves : call.Removes q k) : Releases log ⟨q, call⟩ k e := by
  have htimer {node : NodeId} {timer : TimerId} (hset : q.timers.get? (node, timer) = some k) :
      k.node = node ∧ e = .node (.timerFired timer) ∧ lastSet log node timer = some k := by
    obtain ⟨hnode, he⟩ := h.own node timer k hset
    exact ⟨hnode, Option.some.inj (hk.symm.trans he), ((h.table node timer k).mp hset).1⟩
  cases call with
  | schedule | scheduleAfter | advanceTo => exact hremoves.elim
  | setTimer node timer after =>
    obtain ⟨rfl, rfl, hlast⟩ := htimer hremoves
    exact .replaced hlast
  | cancelTimer node timer =>
    obtain ⟨rfl, rfl, hlast⟩ := htimer hremoves
    exact .disarmed hlast
  | cancel key =>
    obtain rfl : key = k := hremoves
    exact .cancelled
  | popUntil limit =>
    obtain ⟨event, rest, hpop⟩ := hremoves
    obtain rfl := Option.some.inj ((popUntil_mem hpop).symm.trans hk)
    exact .popped hpop
  | removeNode node =>
    obtain rfl : k.node = node := hremoves
    exact .removed

/-- One call has taken the event out, and for a reason; no other call has. -/
def LeftOnce (log : List Step) (key : EventKey) (event : ScheduledEvent) : Prop :=
  ∃ before t after, log = before ++ t :: after ∧ Releases before t key event ∧ t.Takes key ∧
    ∀ u ∈ before ++ after, ¬u.Takes key

theorem LeftOnce.unique {u : Step} (h : LeftOnce log key event) (ht : t ∈ log)
    (htakes : t.Takes key) (hu : u ∈ log) (hutakes : u.Takes key) : t = u := by
  obtain ⟨before, taking, after, rfl, -, -, hother⟩ := h
  have hsame {v : Step} (hv : v ∈ before ++ taking :: after) (hvtakes : v.Takes key) :
      v = taking := by
    rw [List.mem_append, List.mem_cons] at hv
    rcases hv with hv | hv | hv
    · exact absurd hvtakes (hother v (List.mem_append_left _ hv))
    · exact hv
    · exact absurd hvtakes (hother v (List.mem_append_right _ hv))
  rw [hsame ht htakes, hsame hu hutakes]

/-- An event stays until one call takes it out. -/
theorem Called.leaves (h : Called q log) (hscheduled : (key, event) ∈ scheduled log) :
    q.events[key]? = some event ∧ (∀ t ∈ log, ¬t.Takes key) ∨
      q.events[key]? = none ∧ LeftOnce log key event := by
  induction h with
  | new => exact absurd hscheduled List.not_mem_nil
  | @step q log h call hcancel ih =>
    have hrecorded := h.recorded
    rw [scheduled_snoc, List.mem_append, Option.mem_toList] at hscheduled
    rcases hscheduled with hold | hnew
    · obtain ⟨hgone, hkept⟩ := Call.next_getElem? (hrecorded.not_new call hold)
      rcases ih hold with ⟨hheld, hstays⟩ | ⟨hout, before, t, after, rfl, hreleases, htakes, hother⟩
      · by_cases hremoves : call.Removes q key
        · refine .inr ⟨hgone hremoves, log, ⟨q, call⟩, [], rfl,
            hrecorded.releases hheld hremoves, ⟨⟨event, hheld⟩, hgone hremoves⟩, fun u hu => ?_⟩
          exact hstays u (List.append_nil log ▸ hu)
        · refine .inl ⟨(hkept hremoves).trans hheld, fun t ht htakes => ?_⟩
          rcases List.mem_append.mp ht with ht | ht
          · exact hstays t ht htakes
          · rw [List.mem_singleton.mp ht] at htakes
            exact nomatch htakes.2.symm.trans ((hkept hremoves).trans hheld)
      · -- it is gone, so no later call finds it
        refine .inr ⟨hrecorded.gone hold hout, before, t, after ++ [⟨q, call⟩], by simp,
          hreleases, htakes, fun u hu htakes => ?_⟩
        rw [← List.append_assoc] at hu
        rcases List.mem_append.mp hu with hu | hu
        · exact hother u hu htakes
        · rw [List.mem_singleton.mp hu] at htakes
          obtain ⟨⟨e, he⟩, -⟩ := htakes
          exact nomatch hout.symm.trans he
    · -- the new key is in none of the queues that the calls found
      refine .inl ⟨(Call.scheduled?_some hnew).2.2, fun t ht ⟨⟨e, he⟩, hnone⟩ => ?_⟩
      rcases List.mem_append.mp ht with ht | ht
      · exact hrecorded.not_new call (hrecorded.past t ht key e he) event hnew
      · rw [List.mem_singleton.mp ht] at hnone
        exact nomatch hnone.symm.trans (Call.scheduled?_some hnew).2.2

-- ---------------------------------------------------------------------------
-- Discarding
-- ---------------------------------------------------------------------------

theorem popped?_some {call : Call} {x : EventKey × ScheduledEvent}
    (h : call.popped? q = some x) :
    ∃ limit rest, call = .popUntil limit ∧ q.popUntil limit = some (x, rest) := by
  cases call with
  | popUntil limit =>
    obtain ⟨⟨y, rest⟩, hpop, rfl⟩ := Option.map_eq_some_iff.mp h
    exact ⟨limit, rest, rfl, hpop⟩
  | _ => exact nomatch h

/-- After the earlier calls, this one is to do away with the event of a key: it
sets or cancels the timer whose last setting that is, cancels the key, or removes
its node. -/
def Call.Discards (earlier : List Step) (key : EventKey) : Call → Prop
  | setTimer node timer _ | cancelTimer node timer => lastSet earlier node timer = some key
  | cancel k => k = key
  | removeNode node => key.node = node
  | schedule .. | scheduleAfter .. | popUntil _ | advanceTo _ => False

section
variable {call : Call}

theorem Call.Discards.removes (h : call.Discards log k) (hrecorded : Recorded q log)
    (hk : q.events[k]? = some e) : call.Removes q k := by
  have htimer {node : NodeId} {timer : TimerId} (hlast : lastSet log node timer = some k) :
      q.timers.get? (node, timer) = some k := by
    obtain ⟨-, hscheduled, -⟩ := hrecorded.set node timer k hlast
    rw [hrecorded.unique (hrecorded.held k e hk) hscheduled] at hk
    exact (hrecorded.table node timer k).mpr ⟨hlast, hk⟩
  cases call with
  | setTimer => exact htimer h
  | cancelTimer => exact htimer h
  | cancel => exact h
  | removeNode => exact h
  | _ => exact h.elim

/-- Whether it was still queued or not, after the call it is not. -/
theorem Call.Discards.gone (h : call.Discards log k) (hrecorded : Recorded q log)
    (hk : (k, e) ∈ scheduled log) : (call.next q).events[k]? = none := by
  cases hheld : q.events[k]? with
  | none => exact hrecorded.gone hk hheld
  | some e' =>
    exact (Call.next_getElem? (hrecorded.not_new call hk)).1 (h.removes hrecorded hheld)

theorem Call.Discards.popped?_none (h : call.Discards log k) : call.popped? q = none := by
  cases call with
  | popUntil => exact h.elim
  | _ => rfl

end

/-- What is discarded is queued no more, and no later call pops it. -/
theorem Called.discarded {before after : List Step} (h : Called q log)
    (hlog : log = before ++ t :: after) (hk : (key, event) ∈ scheduled before)
    (hdiscards : t.call.Discards before key) :
    q.events[key]? = none ∧ ∀ x ∈ popped (t :: after), x.1 ≠ key := by
  induction h generalizing after with
  | new => simp at hlog
  | @step q log h call hcancel ih =>
    rcases List.eq_nil_or_concat' after with rfl | ⟨after, last, rfl⟩
    · -- the call itself
      obtain ⟨rfl, hlast⟩ := List.append_inj' hlog rfl
      obtain rfl : ⟨q, call⟩ = t := (List.cons.inj hlast).1
      have hnone : call.popped? q = none := hdiscards.popped?_none
      exact ⟨hdiscards.gone h.recorded hk, by simp [popped, hnone]⟩
    · -- a later one
      rw [← List.cons_append, ← List.append_assoc] at hlog
      obtain ⟨rfl, hlast⟩ := List.append_inj' hlog rfl
      obtain rfl : ⟨q, call⟩ = last := (List.cons.inj hlast).1
      obtain ⟨hgone, hnever⟩ := ih rfl
      have hscheduled : (key, event) ∈ scheduled (before ++ t :: after) := by
        rw [scheduled, List.filterMap_append]
        exact List.mem_append_left _ hk
      refine ⟨h.recorded.gone hscheduled hgone, fun x hx => ?_⟩
      rw [← List.cons_append, popped_snoc, List.mem_append, Option.mem_toList] at hx
      rcases hx with hx | hx
      · exact hnever x hx
      · obtain ⟨limit, rest, -, hpop⟩ := popped?_some hx
        rintro rfl
        have hheld := popUntil_mem hpop
        rw [hgone] at hheld
        cases hheld

-- ---------------------------------------------------------------------------
-- Popping
-- ---------------------------------------------------------------------------

/-- The least key comes out, unless its time is after the end. -/
theorem popUntil_eq_some_iff (q : EventQueue) (limit : Time) (key : EventKey)
    (event : ScheduledEvent) :
    (∃ rest, q.popUntil limit = some ((key, event), rest)) ↔
      q.events[key]? = some event ∧ ¬key.time > limit ∧
        ∀ (k : EventKey) e, q.events[k]? = some e → k = key ∨ compare key k = .lt := by
  have hsorted : q.events.toList.Pairwise Before := Std.TreeMap.ordered_keys_toList
  constructor
  · rintro ⟨rest, h⟩
    refine ⟨popUntil_mem h, (popUntil_some h).2.1, fun k e hk => ?_⟩
    rw [← Std.TreeMap.mem_toList_iff_getElem?_eq_some] at hk
    rw [popUntil_entries h] at hk hsorted
    rcases List.mem_cons.mp hk with heq | hk
    · exact .inl (congrArg Prod.fst heq)
    · exact .inr (List.rel_of_pairwise_cons hsorted hk)
  · rintro ⟨hheld, hlimit, hleast⟩
    have hmem := Std.TreeMap.mem_toList_iff_getElem?_eq_some.mpr hheld
    rw [popUntil_eq_popFirst, popFirst]
    cases hentries : q.events.toList with
    | nil => exact absurd (hentries ▸ hmem) List.not_mem_nil
    | cons first others =>
      obtain ⟨k, e⟩ := first
      rw [hentries] at hmem hsorted
      have hfirst : q.events[k]? = some e := by
        rw [← Std.TreeMap.mem_toList_iff_getElem?_eq_some, hentries]
        exact List.mem_cons_self ..
      obtain rfl : k = key := by
        rcases List.mem_cons.mp hmem with heq | hmem
        · exact (congrArg Prod.fst heq).symm
        · refine (hleast k e hfirst).resolve_right fun hlt => ?_
          have hbefore : compare k key = .lt := List.rel_of_pairwise_cons hsorted hmem
          rw [Std.OrientedCmp.gt_of_lt hbefore] at hlt
          cases hlt
      obtain rfl := Option.some.inj (hfirst.symm.trans hheld)
      exact ⟨_, if_neg hlimit⟩

/-- What came out, in the order of coming out. -/
structure Drawn (q : EventQueue) (log : List Step) : Prop where
  spent : ∀ x ∈ popped log, x ∈ scheduled log ∧ q.events[x.1]? = none
  /-- What is left for a node at a time has a later number than what came out for it. -/
  ahead : ∀ x ∈ popped log, ∀ (k : EventKey) e, q.events[k]? = some e →
    k.node = x.1.node → k.time = x.1.time → x.1.sequence < k.sequence
  distinct : ((popped log).map (·.1)).Nodup
  rising : (popped log).Pairwise fun a b =>
    b.1.node = a.1.node → b.1.time = a.1.time → a.1.sequence < b.1.sequence
  taken : ∀ x ∈ popped log, ∃ t ∈ log, t.call.popped? t.found = some x ∧ t.Takes x.1

theorem empty_drawn : Drawn .empty [] where
  spent := nofun
  ahead := nofun
  distinct := .nil
  rising := .nil
  taken := nofun

section
variable {call : Call} {x : EventKey × ScheduledEvent}

/-- What came out stays out, and ahead of what is left. -/
theorem Drawn.kept (h : Drawn q log) (hrecorded : Recorded q log) (hx : x ∈ popped log) :
    (call.next q).events[x.1]? = none ∧ ∀ (k : EventKey) e, (call.next q).events[k]? = some e →
      k.node = x.1.node → k.time = x.1.time → x.1.sequence < k.sequence := by
  obtain ⟨hscheduled, hout⟩ := h.spent x hx
  refine ⟨hrecorded.gone hscheduled hout, fun k e hk hnode htime => ?_⟩
  by_cases hnew : ∃ e', call.scheduled? q = some (k, e')
  · obtain ⟨e', hnew⟩ := hnew
    exact hrecorded.fresh hnew hscheduled
  · exact h.ahead x hx k e (Recorded.held_before (fun e' he => hnew ⟨e', he⟩) hk).1 hnode htime

theorem popUntil_ahead {limit : Time} (h : q.popUntil limit = some ((key, event), rest))
    (hk : rest.events[k]? = some e) (hnode : k.node = key.node) (htime : k.time = key.time) :
    key.sequence < k.sequence := by
  rw [popUntil_getElem? h] at hk
  split at hk
  · exact nomatch hk
  · rename_i hne
    obtain ⟨-, -, hleast⟩ := (popUntil_eq_some_iff ..).mp ⟨rest, h⟩
    have hlt := (hleast k e hk).resolve_left (Ne.symm hne)
    rw [EventKey.lt_of_node_eq hnode.symm, htime] at hlt
    exact (hlt.resolve_left (Int.lt_irrefl _)).2

theorem Drawn.step (h : Drawn q log) (hrecorded : Recorded q log) :
    Drawn (call.next q) (log ++ [⟨q, call⟩]) := by
  have hscheduled {x : EventKey × ScheduledEvent} (hx : x ∈ scheduled log) :
      x ∈ scheduled (log ++ [⟨q, call⟩]) := scheduled_snoc .. ▸ List.mem_append_left _ hx
  have htaken {x : EventKey × ScheduledEvent} (hx : x ∈ popped log) :
      ∃ t ∈ log ++ [⟨q, call⟩], t.call.popped? t.found = some x ∧ t.Takes x.1 :=
    (h.taken x hx).imp fun t ht => ht.imp_left (List.mem_append_left _)
  cases hpopped : call.popped? q with
  | none =>
    have hsame : popped (log ++ [⟨q, call⟩]) = popped log := by
      rw [popped_snoc, hpopped, Option.toList_none, List.append_nil]
    refine ⟨?_, ?_, ?_, ?_, ?_⟩ <;> rw [hsame]
    · exact fun x hx => ⟨hscheduled (h.spent x hx).1, (h.kept hrecorded hx).1⟩
    · exact fun x hx => (h.kept hrecorded hx).2
    · exact h.distinct
    · exact h.rising
    · exact fun x hx => htaken hx
  | some first =>
    have hmore : popped (log ++ [⟨q, call⟩]) = popped log ++ [first] := by
      rw [popped_snoc, hpopped, Option.toList_some]
    obtain ⟨limit, rest, rfl, hpop⟩ := popped?_some hpopped
    obtain ⟨key, event⟩ := first
    have hnext : (Call.popUntil limit).next q = rest := by rw [Call.next, hpop]; rfl
    have hheld := popUntil_mem hpop
    have hout : rest.events[key]? = none := by rw [popUntil_getElem? hpop, if_pos rfl]
    refine ⟨?_, ?_, ?_, ?_, ?_⟩ <;> rw [hmore]
    · intro x hx
      rcases List.mem_append.mp hx with hx | hx
      · exact ⟨hscheduled (h.spent x hx).1, (h.kept hrecorded hx).1⟩
      · rw [List.mem_singleton.mp hx, hnext]
        exact ⟨hscheduled (hrecorded.held key event hheld), hout⟩
    · intro x hx
      rcases List.mem_append.mp hx with hx | hx
      · exact (h.kept hrecorded hx).2
      · rw [List.mem_singleton.mp hx, hnext]
        exact fun k e => popUntil_ahead hpop
    · rw [List.map_append, List.nodup_append]
      refine ⟨h.distinct, List.nodup_singleton _, fun k hk k' hk' => ?_⟩
      rw [List.map_singleton, List.mem_singleton] at hk'
      obtain ⟨x, hx, rfl⟩ := List.mem_map.mp hk
      intro heq
      have hgone := (h.spent x hx).2
      rw [heq, hk', hheld] at hgone
      cases hgone
    · rw [List.pairwise_append]
      refine ⟨h.rising, List.pairwise_singleton .., fun x hx y hy => ?_⟩
      rw [List.mem_singleton.mp hy]
      exact h.ahead x hx key event hheld
    · intro x hx
      rcases List.mem_append.mp hx with hx | hx
      · exact htaken hx
      · rw [List.mem_singleton.mp hx]
        refine ⟨_, List.mem_append_right _ (List.mem_singleton_self _), hpopped, ⟨event, hheld⟩, ?_⟩
        exact hnext.symm ▸ hout

end

theorem Called.drawn (h : Called q log) : Drawn q log := by
  induction h with
  | new => exact empty_drawn
  | step h call hcancel ih => exact ih.step h.recorded

-- ---------------------------------------------------------------------------
-- Conservation
-- ---------------------------------------------------------------------------

/-- A queue after calls of a new one. -/
structure Conserved (q : EventQueue) (log : List Step) : Prop where
  /-- No two scheduled events share a key. -/
  distinct : ((scheduled log).map (·.1)).Nodup
  numbered : (scheduled log).map (·.1.sequence) = List.range' 1 (scheduled log).length
  /-- A word that goes up by one for each event numbers them too, and goes round. -/
  counter : (scheduled log).map (·.1.word) = List.iterate (· + 1) 1 (scheduled log).length
  /-- Until it does, it gives the same numbers, and no two events share one. -/
  words : (scheduled log).length < UInt64.size →
    ((scheduled log).map (·.1.word)).Nodup ∧ ∀ x ∈ scheduled log, x.1.word.toNat = x.1.sequence
  held : ∀ (key : EventKey) event, q.events[key]? = some event → (key, event) ∈ scheduled log
  leaves : ∀ key event, (key, event) ∈ scheduled log →
    q.events[key]? = some event ∧ (∀ t ∈ log, ¬t.Takes key) ∨
      q.events[key]? = none ∧ LeftOnce log key event
  least : ∀ limit key event, (∃ rest, q.popUntil limit = some ((key, event), rest)) ↔
    q.events[key]? = some event ∧ ¬key.time > limit ∧
      ∀ (k : EventKey) e, q.events[k]? = some e → k = key ∨ compare key k = .lt
  /-- Those of one node at one time come out in the order of their scheduling. -/
  inOrder : ∀ node time,
    ((popped log).filter fun x => x.1.node = node ∧ x.1.time = time).Sublist (scheduled log)
  /-- The table has a timer exactly while the event of its last setting is queued. -/
  table : ∀ node timer key, q.timers.get? (node, timer) = some key ↔
    lastSet log node timer = some key ∧ q.events[key]? = some (.node (.timerFired timer))
  /-- What is cancelled, by its key or with its timer, what is replaced and what
  belongs to a removed node is queued no more, and does not come out from then on. -/
  discarded : ∀ before t after, log = before ++ t :: after →
    ∀ key event, (key, event) ∈ scheduled before → t.call.Discards before key →
      q.events[key]? = none ∧ ∀ x ∈ popped (t :: after), x.1 ≠ key
  once : ((popped log).map (·.1)).Nodup
  /-- What the call that takes it out does not pop never comes out at all. -/
  fires : ∀ t ∈ log, ∀ key, t.Takes key → ∀ event,
    (key, event) ∈ popped log ↔ t.call.popped? t.found = some (key, event)

theorem Drawn.inOrder (h : Drawn q log) (hrecorded : Recorded q log) (node : NodeId)
    (time : Time) :
    ((popped log).filter fun x => x.1.node = node ∧ x.1.time = time).Sublist (scheduled log) := by
  let rising (a b : EventKey × ScheduledEvent) : Prop := a.1.sequence < b.1.sequence
  have hantisymm : Std.Antisymm rising := ⟨fun a b hab hba => absurd hab (Nat.lt_asymm hba)⟩
  have hrising : ((popped log).filter fun x => x.1.node = node ∧ x.1.time = time).Pairwise
      rising := by
    refine (List.pairwise_filter.mpr (h.rising.imp fun {a b} hab ha hb => ?_))
    obtain ⟨⟨hn, ht⟩, hn', ht'⟩ := And.intro (of_decide_eq_true ha) (of_decide_eq_true hb)
    exact hab (hn'.trans hn.symm) (ht'.trans ht.symm)
  refine List.sublist_of_subperm_of_pairwise ?_ hrising hrecorded.rising
  refine List.subperm_of_subset (h.distinct.of_map.filter _) fun x hx => ?_
  exact (h.spent x (List.mem_of_mem_filter hx)).1

/-- Whatever the calls of a new queue: scheduled events have keys of their own,
and numbers of their own even as words, until there are 2 ^ 64 of them; each is
queued until one call takes it out, by popping it, cancelling it, setting or
cancelling its timer, or removing its node; what these calls are to take out is
gone with them and never comes; the least key comes out if its time is not after
the end; and a timer is in the table exactly while the event of its last setting
is queued. Times stand in their total order, minus zero before zero, and may be
anything. -/
theorem called_conserved (h : Called q log) : Conserved q log where
  distinct := h.recorded.distinct
  numbered := h.numbered.2
  counter := h.counter
  words hroom := ⟨h.words_distinct hroom, fun _ => h.word_toNat hroom⟩
  held := h.recorded.held
  leaves _ _ := h.leaves
  least := q.popUntil_eq_some_iff
  inOrder := h.drawn.inOrder h.recorded
  table := h.recorded.table
  discarded _ _ _ hlog _ _ := h.discarded hlog
  once := h.drawn.distinct
  fires t ht key htakes event := by
    refine ⟨fun hmem => ?_, fun hpopped => List.mem_filterMap.mpr ⟨t, ht, hpopped⟩⟩
    obtain ⟨u, hu, hpopped, hutakes⟩ := h.drawn.taken _ hmem
    have hleft : LeftOnce log key event := by
      refine ((h.leaves (h.drawn.spent _ hmem).1).resolve_left fun hstays => ?_).2
      exact hstays.2 t ht htakes
    rw [hleft.unique ht htakes hu hutakes]
    exact hpopped

/-- A timer is set, set again, and comes once; an event that looks like it, and
was scheduled for the same time before, is none. Another timer is cancelled while
it is armed, an event by its key, and the timer of a node goes with the node.
Nothing else comes, however long one waits. -/
theorem called_conserved_replaced :
    let calls : List Call := [
      .schedule 1 2.0 (.node (.timerFired .nextTransaction)),
      .setTimer 1 .nextTransaction (.ofSeconds 3),
      .setTimer 1 .nextTransaction (.ofSeconds 2),
      .setTimer 2 .nextTransaction (.ofSeconds 1),
      .setTimer 3 .nextTransaction (.ofSeconds 4),
      .cancelTimer 3 .nextTransaction,
      .scheduleAfter 1 (.ofSeconds 1) .mine,
      .cancel ⟨1.0, 1, 6⟩,
      .removeNode 2,
      .popUntil 5.0,
      .popUntil 5.0,
      .popUntil 5.0]
    ∃ q log, Called q log ∧ log.map (·.call) = calls ∧
      (scheduled log).map (·.1.sequence) = [1, 2, 3, 4, 5, 6] ∧
      (popped log).map (·.1.sequence) = [1, 3] ∧ q.timersCancelled = 1 ∧ q.events.toList = [] ∧
      Conserved q log := by
  intro calls
  have h : Called _ _ :=
    .step (.step (.step (.step (.step (.step (.step (.step (.step (.step (.step (.step .new
      (.schedule 1 2.0 (.node (.timerFired .nextTransaction))) (by simp))
      (.setTimer 1 .nextTransaction (.ofSeconds 3)) (by simp))
      (.setTimer 1 .nextTransaction (.ofSeconds 2)) (by simp))
      (.setTimer 2 .nextTransaction (.ofSeconds 1)) (by simp))
      (.setTimer 3 .nextTransaction (.ofSeconds 4)) (by simp))
      (.cancelTimer 3 .nextTransaction) (by simp))
      (.scheduleAfter 1 (.ofSeconds 1) .mine) (by simp))
      (.cancel ⟨1.0, 1, 6⟩) (by rintro key ⟨⟩; decide +kernel))
      (.removeNode 2) (by simp))
      (.popUntil 5.0) (by simp))
      (.popUntil 5.0) (by simp))
      (.popUntil 5.0) (by simp)
  refine ⟨_, _, h, rfl, ?_, ?_, ?_, ?_, called_conserved h⟩
  · simp only [Call.next, popUntil_eq_popFirst]
    decide +kernel
  · simp only [popped, Call.popped?, Call.next, popUntil_eq_popFirst]
    decide +kernel
  · simp only [Call.next, popUntil_eq_popFirst]
    decide +kernel
  · simp only [Call.next, popUntil_eq_popFirst]
    rw [← List.length_eq_zero_iff]
    decide +kernel

end BlockGossip.EventQueue
