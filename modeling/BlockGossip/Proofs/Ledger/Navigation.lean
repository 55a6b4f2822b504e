import BlockGossip.Proofs.Ledger.Filing

/-!
# Up to the parent and down to the children

The parent of a block is looked for one height below it and its children one
height above, each through the levels. Both come down to the link between two
stored blocks, so the two directions agree: `parent?` reports the first stored
block that lists the child. Where children name their parent's miner there is
no other, since a height holds one block of a miner; under the other rule
several blocks may list one child.
-/

namespace BlockGossip.Ledger

variable {l : Ledger} {arrivals : List Block} {p q c : Block}

theorem mem_children (hl : l.Indexed) :
    c ∈ l.children p ↔ c ∈ l.toList ∧ l.linkage.isParent p c = true := by
  rw [children, List.mem_filter, mem_level hl]
  constructor
  · rintro ⟨⟨hc, -⟩, hlink⟩
    exact ⟨hc, hlink⟩
  · rintro ⟨hc, hlink⟩
    exact ⟨⟨hc, (Linkage.isParent_iff.mp hlink).1.symm⟩, hlink⟩

theorem parent?_eq_none_iff (hl : l.Indexed) (hc : c ∈ l.toList) :
    l.parent? c = none ↔ ∀ p ∈ l.toList, c ∉ l.children p := by
  simp [parent?_eq hl, mem_children hl, hc]

/-- The reported parent is the first stored block that lists the child. -/
theorem parent?_eq_some_iff (hl : l.Indexed) (hc : c ∈ l.toList) :
    l.parent? c = some p ↔ ∃ before after, l.toList = before ++ p :: after ∧
      c ∈ l.children p ∧ ∀ q ∈ before, c ∉ l.children q := by
  rw [parent?_eq hl, List.find?_eq_some_iff_append]
  simp only [mem_children hl, hc, true_and, Bool.not_eq_true, Bool.not_eq_eq_eq_not, Bool.not_true]
  constructor
  · rintro ⟨hlink, before, after, hlist, hbefore⟩
    exact ⟨before, after, hlist, hlink, hbefore⟩
  · rintro ⟨before, after, hlist, hlink, hbefore⟩
    exact ⟨hlink, before, after, hlist, hbefore⟩

/-- The miner that a child names has one block at the height below. -/
theorem parent_unique (hl : l.Mirrors arrivals) (hrule : l.linkage = .minerIdentity)
    (hp : p ∈ l.toList) (hq : q ∈ l.toList) (hpc : l.linkage.isParent p c = true)
    (hqc : l.linkage.isParent q c = true) : p = q := by
  obtain ⟨hpheight, hpminer⟩ := Linkage.isParent_iff.mp hpc
  obtain ⟨hqheight, hqminer⟩ := Linkage.isParent_iff.mp hqc
  have hheight : p.height = q.height := UInt64.toNat_inj.mp (by omega)
  have hminer : p.minerId = q.minerId := by
    rw [hrule] at hpminer hqminer
    exact hpminer.symm.trans hqminer
  exact List.inj_on_of_nodup_map hl.distinct hp hq (congrArg₂ BlockId.mk hheight hminer)

/-- The two directions agree, as far as the rule lets them. -/
structure Navigable (rule : Linkage) (l : Ledger) : Prop where
  linkage : l.linkage = rule
  /-- The blocks are listed in the order in which they were stored. -/
  ordered : ∀ b, (l.add b).2.toList = if l.contains b.id then l.toList else l.toList ++ [b]
  /-- The parent of a block is the first of those that list it. -/
  first : ∀ c ∈ l.toList, ∀ p, l.parent? c = some p ↔ ∃ before after,
    l.toList = before ++ p :: after ∧ c ∈ l.children p ∧ ∀ q ∈ before, c ∉ l.children q
  rootless : ∀ c ∈ l.toList, l.parent? c = none ↔ ∀ p ∈ l.toList, c ∉ l.children p
  inverse : rule = .minerIdentity → ∀ p ∈ l.toList, ∀ c ∈ l.toList,
    c ∈ l.children p ↔ l.parent? c = some p
  unique : rule = .minerIdentity → ∀ p ∈ l.toList, ∀ q ∈ l.toList, ∀ c ∈ l.toList,
    rule.isParent p c = true → rule.isParent q c = true → p = q
  disjoint : rule = .minerIdentity → ∀ p ∈ l.toList, ∀ q ∈ l.toList, p ≠ q →
    (l.children p).Disjoint (l.children q)

theorem stored_toList_eq (l : Ledger) (b : Block) :
    (l.stored b).toList = if l.contains b.id then l.toList else l.toList ++ [b] := by
  cases hb : l.contains b.id with
  | true => simp [stored_of_contains hb]
  | false => simp [stored_toList hb]

theorem genesis_storedAll_navigable (rule : Linkage) (added : List Block) :
    ((genesis rule).storedAll added).Navigable rule := by
  have hl := genesis_storedAll_mirrors rule added
  have hlinkage : ((genesis rule).storedAll added).linkage = rule := by simp
  generalize (genesis rule).storedAll added = l at hl hlinkage
  subst hlinkage
  have hunique (hrule : l.linkage = .minerIdentity) {p q c : Block} (hp : p ∈ l.toList)
      (hq : q ∈ l.toList) (hpc : c ∈ l.children p) (hqc : c ∈ l.children q) : p = q :=
    parent_unique hl hrule hp hq ((mem_children hl.indexed).mp hpc).2
      ((mem_children hl.indexed).mp hqc).2
  refine
    { linkage := rfl
      ordered := stored_toList_eq l
      first := fun c hc p => parent?_eq_some_iff hl.indexed hc
      rootless := fun c hc => parent?_eq_none_iff hl.indexed hc
      inverse := fun hrule p hp c hc => ?_
      unique := fun hrule p hp q hq c _ => parent_unique hl hrule hp hq
      disjoint := fun hrule p hp q hq hne c hpc hqc => hne (hunique hrule hp hq hpc hqc) }
  constructor
  · intro hchild
    -- The child is listed, so a parent is reported, and there is only one.
    cases hparent : l.parent? c with
    | none => exact absurd hchild ((parent?_eq_none_iff hl.indexed hc).mp hparent p hp)
    | some q =>
      obtain ⟨before, after, hlist, hqchild, -⟩ := (parent?_eq_some_iff hl.indexed hc).mp hparent
      have hq : q ∈ l.toList := hlist ▸ List.mem_append_right _ (.head _)
      rw [hunique hrule hp hq hchild hqchild]
  · intro hparent
    obtain ⟨-, -, -, hchild, -⟩ := (parent?_eq_some_iff hl.indexed hc).mp hparent
    exact hchild

end BlockGossip.Ledger
