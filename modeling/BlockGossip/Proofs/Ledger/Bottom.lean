import BlockGossip.Proofs.Ledger.Anchored
import BlockGossip.Proofs.Ledger.Filing

/-!
# The bottom of a ledger

A ledger takes every block with an id of its own, at height zero as anywhere
else. Its orphans cannot reach the bottom, since a child stands above its
parent. So after any calls the genesis block comes first there, and stands
alone exactly if no call added a block of another miner at height zero
(`called_bottom`). The ledger itself does not turn such a block away.
-/

namespace BlockGossip

namespace Ledger

variable {l l' l'' : Ledger} {b : Block} {bottom bottom' : List Block}

-- ---------------------------------------------------------------------------
-- What a ledger stores at height zero
-- ---------------------------------------------------------------------------

/-- A ledger grows by storing blocks, of which these stand at height zero. -/
def Grows (bottom : List Block) (l l' : Ledger) : Prop :=
  ∃ bs, l' = l.storedAll bs ∧ bs.filter (atHeight 0) = bottom

namespace Grows

theorem refl (l : Ledger) : Grows [] l l := ⟨[], rfl, rfl⟩

theorem trans (h : Grows bottom l l') (h' : Grows bottom' l' l'') :
    Grows (bottom ++ bottom') l l'' := by
  obtain ⟨bs, rfl, rfl⟩ := h
  obtain ⟨bs', rfl, rfl⟩ := h'
  exact ⟨bs ++ bs', by simp [storedAll], List.filter_append ..⟩

theorem stored (l : Ledger) (b : Block) : Grows ([b].filter (atHeight 0)) l (l.stored b) :=
  ⟨[b], rfl, rfl⟩

theorem above {bs : List Block} (h : ∀ b ∈ bs, b.height.toNat ≠ 0) : Grows [] l (l.storedAll bs) :=
  ⟨bs, rfl, by simpa [atHeight] using h⟩

end Grows

end Ledger

-- ---------------------------------------------------------------------------
-- Promotion stays above
-- ---------------------------------------------------------------------------

namespace Promotion

theorem store_ledger (p : Promotion) (child : Block) :
    (p.store child).ledger = p.ledger.stored child := by
  unfold store Ledger.stored Ledger.add
  cases p.ledger.contains child.id <;> rfl

theorem foldl_store_ledger (p : Promotion) (children : List Block) :
    (children.foldl store p).ledger = p.ledger.storedAll children := by
  induction children generalizing p with
  | nil => rfl
  | cons b bs ih =>
    have hrest := ih (p.store b)
    rw [store_ledger] at hrest
    exact hrest

theorem adopt_grows (p : Promotion) (parent : Block) :
    p.ledger.Grows [] (p.adopt parent).ledger := by
  have hchildren : ∀ b ∈ p.orphans.children p.ledger.linkage parent, b.height.toNat ≠ 0 := by
    intro b hb
    have hheight := (Linkage.isParent_iff.mp (List.mem_filter.mp hb).2).1
    omega
  unfold adopt OrphanPool.takeChildren
  rw [foldl_store_ledger]
  exact .above hchildren

/-- Whatever the pool holds, a walk stores nothing at height zero. -/
theorem walk_grows (fuel : Nat) (p : Promotion) (frontier : List Block) :
    p.ledger.Grows [] (walk fuel p frontier).ledger := by
  induction fuel generalizing p frontier with
  | zero => exact .refl _
  | succ fuel ih =>
    cases frontier with
    | nil => exact .refl _
    | cons parent frontier => exact (p.adopt_grows parent).trans (ih _ _)

end Promotion

namespace Ledger

-- ---------------------------------------------------------------------------
-- Calls
-- ---------------------------------------------------------------------------

/-- A ledger and the orphans beside it. -/
structure Holdings where
  ledger : Ledger
  orphans : OrphanPool

/-- A call on the ledger or on the orphans, or the promotion from a root. -/
inductive Call where
  | add (b : Block)
  | addOrphan (b : Block)
  | removeOrphan (id : BlockId)
  | takeOrphans (rule : Linkage) (parent : Block)
  | promote (root : Block)

def Call.added? : Call → Option Block
  | .add b => some b
  | _ => none

/-- The blocks that were handed to the ledger itself. -/
def added (calls : List Call) : List Block := calls.filterMap Call.added?

namespace Holdings

def after (s : Holdings) : Call → Holdings
  | .add b => { s with ledger := (s.ledger.add b).2 }
  | .addOrphan b => { s with orphans := (s.orphans.add b).2 }
  | .removeOrphan id => { s with orphans := (s.orphans.remove id).2 }
  | .takeOrphans rule parent => { s with orphans := (s.orphans.takeChildren rule parent).2 }
  | .promote root =>
    let promoted := promoteOrphans s.ledger s.orphans root
    ⟨promoted.ledger, promoted.orphans⟩

def afterAll (s : Holdings) (calls : List Call) : Holdings := calls.foldl after s

theorem after_grows (s : Holdings) (call : Call) :
    s.ledger.Grows (call.added?.toList.filter (atHeight 0)) (s.after call).ledger := by
  cases call with
  | add b => exact .stored s.ledger b
  | addOrphan | removeOrphan | takeOrphans => exact .refl s.ledger
  | promote root => exact Promotion.walk_grows _ ⟨s.ledger, s.orphans, []⟩ [root]

theorem afterAll_grows (s : Holdings) (calls : List Call) :
    s.ledger.Grows ((added calls).filter (atHeight 0)) (s.afterAll calls).ledger := by
  induction calls generalizing s with
  | nil => exact .refl s.ledger
  | cons call calls ih =>
    have hrun := (s.after_grows call).trans (ih (s.after call))
    rw [← List.filter_append] at hrun
    cases call <;> exact hrun

end Holdings

-- ---------------------------------------------------------------------------
-- The levels, from the arrivals
-- ---------------------------------------------------------------------------

section
variable {l : Ledger} {b : Block} {arrivals : List Block}

theorem find?_atHeight (xs : List Block) (b : Block) :
    (xs.filter (atHeight b.height.toNat)).find? (·.id == b.id) = xs.find? (·.id == b.id) := by
  have hheight {c : Block} (hid : c.id = b.id) : c.height.toNat = b.height.toNat :=
    congrArg (·.height.toNat) hid
  rw [List.find?_filter]
  refine congrArg (xs.find? ·) (funext fun c => ?_)
  rw [Bool.eq_iff_iff]
  simpa using hheight

/-- At a height stands what arrived there, the first of each id. -/
theorem Mirrors.mem_level (hl : l.Mirrors arrivals) {h : Nat} :
    b ∈ l.level h ↔ b.height.toNat = h ∧ arrivals.find? (·.id == b.id) = some b := by
  rw [Ledger.mem_level hl.indexed, and_comm, ← hl.get?]
  refine and_congr_right fun _ => ?_
  exact ⟨get?_of_mem hl.indexed hl.distinct, fun hget => (mem_of_get? hl.indexed hget).1⟩

theorem Mirrors.head?_level (hl : l.Mirrors arrivals) (h : Nat) :
    (l.level h).head? = (arrivals.filter (atHeight h)).head? := by
  rw [level_eq hl.indexed, List.head?_filter, List.head?_filter]
  exact hl.found fun id => id.height.toNat == h

/-- Blocks of other heights leave a level as it is. -/
theorem Mirrors.storedAll_level (hl : l.Mirrors arrivals) {h : Nat} {bs : List Block}
    (hbs : bs.filter (atHeight h) = []) : (l.storedAll bs).level h = l.level h := by
  induction bs generalizing l arrivals with
  | nil => rfl
  | cons b bs ih =>
    rw [List.filter_eq_nil_iff, List.forall_mem_cons] at hbs
    have hrest := ih (hl.stored b) (List.filter_eq_nil_iff.mpr hbs.2)
    refine hrest.trans ?_
    cases hb : l.contains b.id with
    | true => rw [stored_of_contains hb]
    | false =>
      rw [level_eq (hl.stored b).indexed, level_eq hl.indexed, stored_toList hb]
      simp [hbs.1]

/-- The chain of parents of a stored block is stored. -/
theorem ancestor_mem (hl : l.Indexed) (hb : b ∈ l.toList) {k : Nat} {a : Block}
    (ha : l.ancestor k b = some a) : a ∈ l.toList := by
  induction k generalizing b with
  | zero => exact Option.some.inj ha ▸ hb
  | succ k ih =>
    obtain ⟨parent, hparent, ha⟩ := Option.bind_eq_some_iff.mp ha
    rw [parent?_eq hl] at hparent
    exact ih (List.mem_of_find?_eq_some hparent) ha

end

-- ---------------------------------------------------------------------------
-- The bottom
-- ---------------------------------------------------------------------------

/-- Every block that was added at height zero is one of the miner of genesis. -/
def NoStranger (calls : List Call) : Prop :=
  ∀ b ∈ added calls, b.height = 0 → b.minerId = Block.genesis.minerId

/-- What stands at height zero after the calls, and what follows from it for the
chains where no stranger was added. -/
structure Bottom (calls : List Call) (l : Ledger) : Prop where
  first : (l.level 0).head? = some .genesis
  /-- The first of each id that was added there stands there, and nothing else. -/
  standing : ∀ b, b ∈ l.level 0 ↔ b.height = 0 ∧
    (Block.genesis :: added calls).find? (·.id == b.id) = some b
  sole : l.level 0 = [.genesis] ↔ NoStranger calls
  parentless : NoStranger calls → ∀ b ∈ l.toList, b.height = 0 ↔ b = .genesis
  rooted : NoStranger calls → ∀ b ∈ l.toList, ∀ k a, l.ancestor k b = some a →
    a.height = 0 → a = .genesis
  /-- Promotion leaves it alone, from whatever pool and root. -/
  promoted : ∀ pool root, (promoteOrphans l pool root).ledger.level 0 = l.level 0

theorem height_eq_zero {b : Block} : b.height.toNat = 0 ↔ b.height = 0 :=
  UInt64.toNat_inj (b := 0)

section
variable {l : Ledger} {calls : List Call}
  (hstanding : ∀ b, b ∈ l.level 0 ↔ b.height = 0 ∧
    (Block.genesis :: added calls).find? (·.id == b.id) = some b)
include hstanding

/-- The genesis block stands alone where nothing else arrived at height zero but
blocks of its miner. -/
theorem sole_of_noStranger (hcalls : NoStranger calls) (hdistinct : (l.level 0).Nodup) :
    l.level 0 = [.genesis] := by
  rw [← List.perm_singleton, List.perm_ext_iff_of_nodup hdistinct (List.nodup_singleton _)]
  intro b
  rw [List.mem_singleton, hstanding]
  constructor
  · rintro ⟨hheight, hfind⟩
    rcases List.mem_cons.mp (List.mem_of_find?_eq_some hfind) with rfl | hadded
    · rfl
    · have hid : Block.genesis.id = b.id :=
        congrArg₂ BlockId.mk hheight.symm (hcalls b hadded hheight).symm
      rw [List.find?_cons_of_pos (by simpa using hid)] at hfind
      exact (Option.some.inj hfind).symm
  · rintro rfl
    exact ⟨rfl, List.find?_cons_of_pos (by simp)⟩

/-- A block that was added at height zero shows there, itself or its twin. -/
theorem noStranger_of_sole (hsole : l.level 0 = [.genesis]) : NoStranger calls := by
  intro b hadded hheight
  have hsome : ((Block.genesis :: added calls).find? (·.id == b.id)).isSome :=
    List.find?_isSome.mpr ⟨b, List.mem_cons_of_mem _ hadded, by simp⟩
  obtain ⟨c, hfind⟩ := Option.isSome_iff_exists.mp hsome
  have hid : c.id = b.id := by simpa using List.find?_some hfind
  have hc : c ∈ l.level 0 :=
    (hstanding c).mpr ⟨(congrArg BlockId.height hid).trans hheight, hid ▸ hfind⟩
  rw [hsole, List.mem_singleton] at hc
  exact (congrArg BlockId.miner hid).symm.trans (congrArg Block.minerId hc)

end

/-- Whatever is called on a new ledger and its orphans: the genesis block comes
first at height zero, and stands alone exactly where no stranger was added. -/
theorem called_bottom (rule : Linkage) (pool : OrphanPool) (calls : List Call) :
    Bottom calls (Holdings.afterAll ⟨.genesis rule, pool⟩ calls).ledger := by
  obtain ⟨bs, hledger, hbottom⟩ := Holdings.afterAll_grows ⟨.genesis rule, pool⟩ calls
  have hl := genesis_storedAll_mirrors rule bs
  rw [← hledger] at hl
  generalize (Holdings.afterAll ⟨.genesis rule, pool⟩ calls).ledger = l at hl
  have harrived : (Block.genesis :: bs).filter (atHeight 0) =
      (Block.genesis :: added calls).filter (atHeight 0) := by
    rw [List.filter_cons, List.filter_cons, hbottom]
  have hstanding (b : Block) : b ∈ l.level 0 ↔ b.height = 0 ∧
      (Block.genesis :: added calls).find? (·.id == b.id) = some b := by
    rw [hl.mem_level, ← height_eq_zero]
    refine and_congr_right fun hheight => ?_
    rw [← find?_atHeight, ← find?_atHeight (_ :: added calls), hheight, harrived]
  have hsole : l.level 0 = [.genesis] ↔ NoStranger calls :=
    ⟨noStranger_of_sole hstanding,
      fun hcalls => sole_of_noStranger hstanding hcalls (hl.miners 0).of_map⟩
  have hgenesis (hcalls : NoStranger calls) {b : Block} (hb : b ∈ l.toList)
      (hheight : b.height = 0) : b = .genesis := by
    have hmem := (Ledger.mem_level hl.indexed).mpr ⟨hb, height_eq_zero.mpr hheight⟩
    rwa [hsole.mpr hcalls, List.mem_singleton] at hmem
  refine ⟨hl.head?_level 0, hstanding, hsole, fun hcalls b hb => ⟨hgenesis hcalls hb, ?_⟩,
    fun hcalls b hb k a ha => hgenesis hcalls (ancestor_mem hl.indexed hb ha), fun pool root => ?_⟩
  · rintro rfl
    rfl
  · obtain ⟨bs, hpromoted, hnone⟩ := Promotion.walk_grows (pool.size + 1) ⟨l, pool, []⟩ [root]
    exact (congrArg (·.level 0) hpromoted).trans (hl.storedAll_level hnone)

/-- A block of another miner at height zero is stored beside the genesis block,
and is the root of the chain of its child. -/
theorem stranger_beside_genesis :
    let stranger := { Block.genesis with minerId := 5 }
    let child := { Block.genesis with height := 1, minerId := 7, parentMinerId := 5 }
    let l := (Holdings.afterAll ⟨.genesis .minerIdentity, .empty⟩
      [.add stranger, .add child]).ledger
    l.level 0 = [.genesis, stranger] ∧ l.level 0 ≠ [.genesis] ∧
      l.ancestor 1 child = some stranger ∧ stranger.height = 0 ∧ stranger ≠ .genesis := by
  refine ⟨rfl, ?_, rfl, rfl, ?_⟩
  · exact fun hlevel => nomatch congrArg List.length hlevel
  · exact fun hsame => nomatch congrArg Block.minerId hsame

end Ledger

end BlockGossip
