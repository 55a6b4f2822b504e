import BlockGossip.Pool
import Mathlib.Data.List.Nodup
import Mathlib.Data.List.Sublists

/-!
# Held transactions

A pool changes in two ways: transactions that are offered are taken in, unmarked
and without a change to those held (`Taken`); and those that a stored block
carries are marked, and nothing is taken in (`Marked`). What is pending is held,
unmarked, and listed once.
-/

namespace BlockGossip

-- ---------------------------------------------------------------------------
-- Tables whose values know their keys
-- ---------------------------------------------------------------------------

namespace Table

variable {κ α : Type} {t : Table κ α} {key : α → κ} {k : κ} {a : α}

/-- Each key has one entry, and each value the key it stands under. -/
structure Keyed (key : α → κ) (t : Table κ α) : Prop where
  distinct : t.keys.Nodup
  own : ∀ x ∈ t.entries, key x.2 = x.1

theorem empty_keyed : (empty : Table κ α).Keyed key := ⟨List.nodup_nil, nofun⟩

theorem Keyed.values_distinct (h : t.Keyed key) : (t.values.map key).Nodup := by
  have hkeys : t.values.map key = t.keys := by
    rw [values, keys, List.map_map]
    exact List.map_congr_left h.own
  rw [hkeys]
  exact h.distinct

variable [DecidableEq κ]

theorem mem_put {x : κ × α} {entries : List (κ × α)} (h : x ∈ put k a entries) :
    x = (k, a) ∨ x ∈ entries := by
  induction entries with
  | nil => exact .inl (List.mem_singleton.mp h)
  | cons entry rest ih =>
    rw [put] at h
    split at h
    · rcases List.mem_cons.mp h with h | h
      · exact .inl h
      · exact .inr (List.mem_cons_of_mem _ h)
    · rcases List.mem_cons.mp h with h | h
      · exact .inr (h ▸ List.mem_cons_self ..)
      · exact (ih h).imp_right (List.mem_cons_of_mem _)

theorem put_keys_nodup {entries : List (κ × α)} (h : (entries.map (·.1)).Nodup) :
    ((put k a entries).map (·.1)).Nodup := by
  induction entries with
  | nil => simp [put]
  | cons entry rest ih =>
    obtain ⟨hnot, hrest⟩ := List.nodup_cons.mp h
    rw [put]
    split
    · rename_i he
      exact List.nodup_cons.mpr ⟨he ▸ hnot, hrest⟩
    · rename_i he
      refine List.nodup_cons.mpr ⟨fun hmem => ?_, ih hrest⟩
      obtain ⟨x, hx, hkey⟩ := List.mem_map.mp hmem
      rcases mem_put hx with rfl | hx
      · exact he hkey.symm
      · exact hnot (List.mem_map.mpr ⟨x, hx, hkey⟩)

theorem Keyed.insert (h : t.Keyed key) (ha : key a = k) : (t.insert k a).Keyed key where
  distinct := put_keys_nodup h.distinct
  own x hx := by
    rcases mem_put hx with rfl | hx
    · exact ha
    · exact h.own x hx

theorem find_of_mem {entries : List (κ × α)} (h : (entries.map (·.1)).Nodup)
    (hx : (k, a) ∈ entries) : find k entries = some a := by
  induction entries with
  | nil => exact absurd hx List.not_mem_nil
  | cons entry rest ih =>
    obtain ⟨hnot, hrest⟩ := List.nodup_cons.mp h
    rw [find]
    rcases List.mem_cons.mp hx with rfl | hx
    · exact if_pos rfl
    · have hne : entry.1 ≠ k := fun he => hnot (List.mem_map.mpr ⟨_, hx, he.symm⟩)
      rw [if_neg hne]
      exact ih hrest hx

theorem mem_of_find {entries : List (κ × α)} (h : find k entries = some a) :
    (k, a) ∈ entries := by
  induction entries with
  | nil => exact nomatch h
  | cons entry rest ih =>
    rw [find] at h
    split at h
    · rename_i he
      obtain rfl := Option.some.inj h
      exact he ▸ List.mem_cons_self ..
    · exact List.mem_cons_of_mem _ (ih h)

/-- A value of a new key comes last. -/
theorem put_absent {entries : List (κ × α)} (h : find k entries = none) (b : α) :
    put k b entries = entries ++ [(k, b)] := by
  induction entries with
  | nil => rfl
  | cons entry rest ih =>
    rw [find] at h
    split at h
    · cases h
    · rename_i hk
      rw [put, if_neg hk, ih h]
      rfl

/-- A value takes the place of the one before it. -/
theorem put_present {entries : List (κ × α)} (h : find k entries = some a) :
    ∃ before after, entries = before ++ (k, a) :: after ∧
      ∀ b, put k b entries = before ++ (k, b) :: after := by
  induction entries with
  | nil => exact nomatch h
  | cons entry rest ih =>
    obtain ⟨k', c⟩ := entry
    rw [find] at h
    split at h
    · rename_i hk
      obtain rfl : k' = k := hk
      obtain rfl := Option.some.inj h
      exact ⟨[], rest, rfl, fun b => if_pos rfl⟩
    · rename_i hk
      obtain ⟨before, after, rfl, hput⟩ := ih h
      exact ⟨(k', c) :: before, after, rfl, fun b => by rw [put, if_neg hk, hput]; rfl⟩

theorem Keyed.key_of_get? (h : t.Keyed key) (ha : t.get? k = some a) : key a = k :=
  h.own _ (mem_of_find ha)

theorem Keyed.get?_of_mem (h : t.Keyed key) (ha : a ∈ t.values) : t.get? (key a) = some a := by
  obtain ⟨x, hx, rfl⟩ := List.mem_map.mp ha
  rw [h.own x hx]
  exact find_of_mem h.distinct hx

end Table

namespace Pool

variable {p p' p'' : Pool} {ids more : List TransactionId} {bs : List Block}
  {t : Transaction} {id : TransactionId} {now : Time}

theorem holds_iff : p.holds id = true ↔ ∃ t, p.get? id = some t :=
  Option.isSome_iff_exists

theorem holds_eq_false_iff : p.holds id = false ↔ p.get? id = none := by
  rw [holds, Table.contains, Option.isSome_eq_false_iff, Option.isNone_iff_eq_none]
  rfl

-- ---------------------------------------------------------------------------
-- Taking in
-- ---------------------------------------------------------------------------

/-- Of the ids some are taken in, unmarked; what is held already stays as it is. -/
structure Taken (ids : List TransactionId) (p p' : Pool) : Prop where
  role : p'.role = p.role
  keyed : p.held.Keyed Transaction.id → p'.held.Keyed Transaction.id
  kept : ∀ id, p.holds id = true → p'.get? id = p.get? id
  fresh : ∀ id, p.holds id = false → p'.holds id = true → id ∈ ids ∧ p'.hasValidated id = false

namespace Taken

theorem of_held (hrole : p'.role = p.role) (hheld : p'.held = p.held) : Taken ids p p' where
  role := hrole
  keyed h := hheld ▸ h
  kept id _ := by rw [get?, hheld, get?]
  fresh id h h' := by
    rw [holds, hheld] at h'
    exact Bool.noConfusion (h.symm.trans h')

theorem refl (p : Pool) : Taken ids p p := .of_held rfl rfl

theorem holds (h : Taken ids p p') (hid : p.holds id = true) : p'.holds id = true := by
  rw [Pool.holds, Table.contains, show p'.held.get? id = p.held.get? id from h.kept id hid]
  exact hid

theorem hasValidated (h : Taken ids p p') (id : TransactionId) :
    p'.hasValidated id = p.hasValidated id := by
  cases hid : p.holds id with
  | true => rw [Pool.hasValidated, h.kept id hid, Pool.hasValidated]
  | false =>
    have hnone : p.hasValidated id = false := by
      rw [Pool.hasValidated, holds_eq_false_iff.mp hid]
      rfl
    rw [hnone]
    cases hid' : p'.holds id with
    | true => exact (h.fresh id hid hid').2
    | false =>
      rw [Pool.hasValidated, holds_eq_false_iff.mp hid']
      rfl

theorem trans (h : Taken ids p p') (h' : Taken ids p' p'') : Taken ids p p'' where
  role := h'.role.trans h.role
  keyed hk := h'.keyed (h.keyed hk)
  kept id hid := (h'.kept id (h.holds hid)).trans (h.kept id hid)
  fresh id hid hid'' := by
    cases hid' : p'.holds id with
    | true =>
      obtain ⟨hmem, hmarked⟩ := h.fresh id hid hid'
      exact ⟨hmem, (h'.hasValidated id).trans hmarked⟩
    | false => exact h'.fresh id hid' hid''

theorem mono (h : Taken ids p p') (hsub : ids ⊆ more) : Taken more p p' where
  role := h.role
  keyed := h.keyed
  kept := h.kept
  fresh id hid hid' := (h.fresh id hid hid').imp_left (hsub ·)

end Taken

/-- A transaction that is offered is taken in where it is not held. -/
theorem request_taken (p : Pool) (t : Transaction) (now : Time) :
    Taken [t.id] p (p.request t now).2 := by
  unfold request
  split
  · exact .refl p
  · split
    · exact .refl p
    · rename_i hnot
      generalize hfresh : { Transaction.create t.nodeId t.transId t.timestamp with
        sizeBytes := p.config.transactionSizeBytes } = fresh
      have hid : fresh.id = t.id := by rw [← hfresh]; rfl
      have hunmarked : fresh.validated = false := by rw [← hfresh]; rfl
      have htaken {p' : Pool} (hrole : p'.role = p.role)
          (hheld : p'.held = p.held.insert fresh.id fresh) : Taken [t.id] p p' := by
        have hget (id : TransactionId) :
            p'.get? id = if t.id = id then some fresh else p.get? id := by
          rw [get?, hheld, Table.get?_insert, hid]
          rfl
        refine ⟨hrole, fun hk => hheld ▸ hk.insert rfl, fun id hheld => ?_,
          fun id hheld hheld' => ?_⟩
        · have hne : t.id ≠ id := by
            rintro rfl
            exact hnot hheld
          rw [hget, if_neg hne]
        · by_cases he : t.id = id
          · refine ⟨List.mem_singleton.mpr he.symm, ?_⟩
            rw [Pool.hasValidated, hget, if_pos he]
            exact hunmarked
          · obtain ⟨u, hu⟩ := holds_iff.mp hheld'
            rw [hget, if_neg he] at hu
            exact Bool.noConfusion (hheld.symm.trans (holds_iff.mpr ⟨u, hu⟩))
      simp only
      split
      · exact htaken rfl rfl
      · split
        · exact htaken rfl rfl
        · exact htaken rfl rfl

theorem reply_taken (p : Pool) (t : Transaction) : Taken ids p (p.reply t).2 := by
  unfold reply
  simp only
  split
  · exact .refl p
  · split
    · exact .refl p
    · exact .of_held rfl rfl

-- ---------------------------------------------------------------------------
-- Marking
-- ---------------------------------------------------------------------------

/-- Of the held transactions those that the blocks carry are marked. -/
structure Marked (bs : List Block) (p p' : Pool) : Prop where
  role : p'.role = p.role
  keyed : p.held.Keyed Transaction.id → p'.held.Keyed Transaction.id
  marks : ∀ id, p'.get? id =
    if bs.any (·.carries id) then (p.get? id).map Transaction.markValidated else p.get? id

namespace Marked

theorem nil (hrole : p'.role = p.role) (hheld : p'.held = p.held) : Marked [] p p' where
  role := hrole
  keyed h := hheld ▸ h
  marks id := by rw [get?, hheld]; rfl

theorem trans {cs : List Block} (h : Marked bs p p') (h' : Marked cs p' p'') :
    Marked (bs ++ cs) p p'' where
  role := h'.role.trans h.role
  keyed hk := h'.keyed (h.keyed hk)
  marks id := by
    rw [h'.marks, h.marks, List.any_append]
    cases bs.any (·.carries id) <;> cases cs.any (·.carries id)
    all_goals simp only [Bool.false_eq_true, if_false, if_true, Bool.or_false, Bool.or_true]
    rw [Option.map_map]
    rfl

theorem holds (h : Marked bs p p') (id : TransactionId) : p'.holds id = p.holds id := by
  rw [Pool.holds, Table.contains, show p'.held.get? id = _ from h.marks id]
  split
  · rw [Option.isSome_map]
    rfl
  · rfl

theorem hasValidated (h : Marked bs p p') (id : TransactionId) :
    p'.hasValidated id = (p.hasValidated id || p.holds id && bs.any (·.carries id)) := by
  rw [Pool.hasValidated, h.marks, Pool.hasValidated, Pool.holds, Table.contains,
    show p.held.get? id = p.get? id from rfl]
  cases bs.any (·.carries id) <;> cases p.get? id <;> simp [Transaction.markValidated]

end Marked

theorem validate_get? (p : Pool) (id : TransactionId) (now : Time) (i : TransactionId) :
    (p.validate id now).2.get? i =
      if id = i then (p.get? i).map Transaction.markValidated else p.get? i := by
  unfold validate
  split
  · rename_i hid
    by_cases he : id = i
    · rw [if_pos he, ← he, hid]
      rfl
    · rw [if_neg he]
  · rename_i held hid
    by_cases he : id = i
    · rw [if_pos he, ← he, hid]
      split
      · rename_i hmarked
        rw [hid, Option.map_some, Transaction.markValidated, ← hmarked]
      · rw [get?, Table.get?_insert, if_pos rfl]
        rfl
    · rw [if_neg he]
      split
      · rfl
      · rw [get?, Table.get?_insert, if_neg he]
        rfl

theorem validate_role (p : Pool) (id : TransactionId) (now : Time) :
    (p.validate id now).2.role = p.role := by
  unfold validate
  split
  · rfl
  · split <;> rfl

theorem validate_keyed (h : p.held.Keyed Transaction.id) (id : TransactionId) (now : Time) :
    (p.validate id now).2.held.Keyed Transaction.id := by
  unfold validate
  split
  · exact h
  · rename_i held hid
    split
    · exact h
    · exact h.insert (show held.id = id from h.key_of_get? hid)

theorem validateAll_cons (p : Pool) (now : Time) (t : Transaction) (ts : List Transaction) :
    (p.validateAll now (t :: ts)).2 = ((p.validate t.id now).2.validateAll now ts).2 := rfl

theorem validateAll_marked (p : Pool) (now : Time) (ts : List Transaction) :
    (p.validateAll now ts).2.role = p.role ∧
      (p.held.Keyed Transaction.id → (p.validateAll now ts).2.held.Keyed Transaction.id) ∧
      ∀ id, (p.validateAll now ts).2.get? id =
        if ts.any (·.id == id) then (p.get? id).map Transaction.markValidated else p.get? id := by
  induction ts generalizing p with
  | nil => exact ⟨rfl, fun h => h, fun _ => rfl⟩
  | cons t ts ih =>
    obtain ⟨hrole, hkeyed, hget⟩ := ih (p.validate t.id now).2
    rw [validateAll_cons]
    refine ⟨hrole.trans (validate_role ..), fun h => hkeyed (validate_keyed h ..), fun id => ?_⟩
    rw [hget, validate_get?, List.any_cons]
    by_cases he : t.id = id
    · simp only [he, beq_self_eq_true, Bool.true_or, if_true, Option.map_map]
      split <;> rfl
    · have hne : (t.id == id) = false := by simpa using he
      rw [if_neg he, hne, Bool.false_or]

/-- In the roles that validate, a stored block marks what it carries. -/
theorem validateFromBlock_marked (h : p.role.validates = true) (b : Block) (now : Time) :
    Marked [b] p (p.validateFromBlock b now).2 := by
  obtain ⟨hrole, hkeyed, hget⟩ := p.validateAll_marked now b.transactions
  rw [validateFromBlock, if_pos h]
  refine ⟨hrole, hkeyed, fun id => ?_⟩
  rw [hget, List.any_cons, List.any_nil, Bool.or_false]
  rfl

-- ---------------------------------------------------------------------------
-- Pending transactions
-- ---------------------------------------------------------------------------

theorem mem_pending (h : p.held.Keyed Transaction.id) {limit : Nat} (ht : t ∈ p.pending limit) :
    p.get? t.id = some t ∧ p.hasValidated t.id = false := by
  have hmem := List.mem_mergeSort.mp (List.mem_of_mem_take ht)
  obtain ⟨hvalue, hunmarked⟩ := List.mem_filter.mp hmem
  have hget : p.get? t.id = some t := h.get?_of_mem hvalue
  refine ⟨hget, ?_⟩
  rw [hasValidated, hget]
  simpa using hunmarked

theorem pending_distinct (h : p.held.Keyed Transaction.id) (limit : Nat) :
    ((p.pending limit).map Transaction.id).Nodup := by
  have hfiltered : ((p.held.values.filter fun t => !t.validated).map Transaction.id).Nodup :=
    h.values_distinct.sublist (List.filter_sublist.map _)
  refine List.Nodup.sublist ((List.take_sublist ..).map _) ?_
  exact ((List.mergeSort_perm ..).map _).nodup_iff.mpr hfiltered

end Pool

end BlockGossip
