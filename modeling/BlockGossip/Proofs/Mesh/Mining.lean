import BlockGossip.Proofs.Mesh.Agreement
import BlockGossip.Simulation.State
import Mathlib.Data.Set.Card

/-!
# Mined blocks have ids of their own

Nodes start and stop, frames ever sent arrive in any order and number, and
running nodes mine above their tops. A miner's ledger keeps every block it has
mined, so the height above its top is free for its next one, and no copy of it
exists anywhere before it is mined. What it mines has a stored parent, so it is
stored at once; it is the new top unless an orphan has been waiting for it.
-/

namespace BlockGossip

/-- A node mines the block: above its top, under its own number, with the
parent field that the rule asks for. Everything else is free. -/
def Session.Mines (rule : Linkage) (s : Session) (n : NodeId) (b : Block) : Prop :=
  b.height = s.ledger.top.height + 1 ∧ b.minerId = n ∧
    b.parentMinerId = rule.parentField s.ledger.top

instance (rule : Linkage) (s : Session) (n : NodeId) (b : Block) : Decidable (s.Mines rule n b) :=
  inferInstanceAs (Decidable (_ ∧ _ ∧ _))

/-- What a simulation has its miners mint. -/
theorem Simulation.candidate_mines (config : SimulationConfig) (s : Session) (n : NodeId)
    (nonce : UInt64) (time : Time) :
    s.Mines config.linkage n (candidate config s n nonce time) := ⟨rfl, rfl, rfl⟩

namespace Mesh

variable {sites : NodeId → Option Site} {rule : Linkage} {m : Mesh} {n i : NodeId}
  {s t : Session} {now : Time} {e : Event} {b c : Block}

/-- The meshes that mining and gossip lead to: nodes start and stop, timers
fire, any frame ever sent is delivered, and running nodes mine. The number of
blocks that a node has stored is a machine word. -/
inductive Mining (rule : Linkage) (sites : NodeId → Option Site) : Mesh → Prop
  | fresh : Mining rule sites (.fresh sites)
  | started {m : Mesh} (h : Mining rule sites m) (now : Time) (n : NodeId) :
    Mining rule sites (m.act n now .start)
  | stopped {m : Mesh} (h : Mining rule sites m) (now : Time) (n : NodeId) :
    Mining rule sites (m.act n now .stop)
  | fired {m : Mesh} (h : Mining rule sites m) (now : Time) (n : NodeId) (timer : TimerId) :
    Mining rule sites (m.act n now (.timerFired timer))
  | delivered {m : Mesh} (h : Mining rule sites m) (now : Time) {p : Parcel} (hp : p ∈ m.posted) :
    Mining rule sites (m.act p.receiver now (.bytesReceived p.sender p.frame))
  | mined {m : Mesh} (h : Mining rule sites m) (now : Time) {n : NodeId} {s : Session} {b : Block}
    (hn : m.node? n = some s) (hr : s.running = true) (hb : s.Mines rule n b)
    (hsize : s.ledger.size < UInt64.size) :
    Mining rule sites ((m.minting b).act n now (.blockMinted b))

/-- Every minted block is stored at its miner, and its parent is an original. -/
structure MinedOnce (rule : Linkage) (m : Mesh) : Prop where
  stored : ∀ o ∈ m.minted, m.Holds o.minerId o.id
  linked : ∀ o ∈ m.minted, ∃ p ∈ m.originals, rule.isParent p o = true

-- ---------------------------------------------------------------------------
-- The block above the top
-- ---------------------------------------------------------------------------

/-- No height above a top is out of range. -/
theorem height_of_mines (ha : Anchored s.ledger s.orphans) (hb : s.Mines rule n b)
    (hsize : s.ledger.size < UInt64.size) : b.height.toNat = s.ledger.height + 1 := by
  obtain ⟨-, htop⟩ := Ledger.top_mem ha.indexed
  have hlow := ha.height_lt_size
  rw [hb.1, UInt64.toNat_add, htop]
  exact Nat.mod_eq_of_lt (Nat.lt_of_le_of_lt hlow hsize)

theorem isParent_of_mines (ha : Anchored s.ledger s.orphans) (hb : s.Mines rule n b)
    (hsize : s.ledger.size < UInt64.size) : rule.isParent s.ledger.top b = true := by
  obtain ⟨-, htop⟩ := Ledger.top_mem ha.indexed
  exact Linkage.isParent_iff.mpr ⟨by rw [htop, height_of_mines ha hb hsize], hb.2.2⟩

/-- A block that a node is about to mine has an id that no original has. -/
theorem MinedOnce.fresh (h : m.MinedOnce rule) (hn : m.node? n = some s)
    (ha : Anchored s.ledger s.orphans) (hb : s.Mines rule n b)
    (hsize : s.ledger.size < UInt64.size) : b.id ∉ m.originals.map Block.id := by
  have hheight := height_of_mines ha hb hsize
  intro hid
  obtain ⟨o, ho, hob⟩ := List.mem_map.mp hid
  have hoheight : o.height = b.height := congrArg BlockId.height hob
  rcases List.mem_cons.mp ho with rfl | ho
  · rw [← hoheight] at hheight
    exact nomatch hheight
  · have hminer : o.minerId = n := (congrArg BlockId.miner hob).trans hb.2.1
    obtain ⟨t, ht, hstored⟩ := h.stored o ho
    rw [hminer] at ht
    obtain rfl := Option.some.inj (hn.symm.trans ht)
    obtain ⟨d, hd, hdo⟩ := (Ledger.contains_iff ha.indexed).mp hstored
    have hle := Ledger.height_le ha.indexed hd
    have hdheight : d.height = b.height := congrArg BlockId.height (hdo.trans hob)
    rw [hdheight] at hle
    omega

/-- Nobody knows of an id that no original has. -/
theorem Agreed.unknown {T : Time → Prop} (h : m.Agreed T sites) {id : BlockId}
    (hid : id ∉ m.originals.map Block.id) (ht : m.node? i = some t) :
    t.isKnown id = false ∧ t.staging.hasHeader id = false := by
  have hindexed := (h.anchored ht).indexed
  have hcopies := h.copies i t ht
  have hnot {d : Block} (hd : m.Copy T d) : d.id ≠ id := by
    rintro rfl
    obtain ⟨o, ho, hod⟩ := hd.alike
    exact hid (hod.id ▸ List.mem_map_of_mem ho)
  constructor
  · rw [← Bool.not_eq_true, Session.isKnown_iff]
    rintro ((hledger | horphan) | hreceived)
    · obtain ⟨d, hd, hdid⟩ := (Ledger.contains_iff hindexed).mp hledger
      exact hnot (hcopies.ledger d hd) hdid
    · obtain ⟨d, hd, hdid⟩ := OrphanPool.contains_iff.mp horphan
      exact hnot (hcopies.orphans d hd) hdid
    · obtain ⟨d, hd⟩ := Option.isSome_iff_exists.mp hreceived
      obtain ⟨hdid, hcopy⟩ := hcopies.staging.received id d hd
      exact hnot hcopy hdid
  · rw [← Bool.not_eq_true]
    intro hheader
    obtain ⟨d, hd⟩ := Option.isSome_iff_exists.mp hheader
    obtain ⟨hdid, o, ho, hod⟩ := hcopies.staging.headers id d hd
    have hoid : o.id = d.id := hod.id
    exact hid (hdid ▸ hoid ▸ List.mem_map_of_mem ho)

-- ---------------------------------------------------------------------------
-- One mined block
-- ---------------------------------------------------------------------------

theorem after_minted_ledger (hr : s.running = true) (now : Time) :
    (s.after now (.blockMinted b)).ledger =
      (accept s.ledger s.orphans (b.minted now)).ledger := by
  rw [Session.after, Session.handle_ledger]
  simp only [Session.acceptance, Session.accepting?]
  rw [if_pos (show (s.setTime now).running = true from hr)]
  rfl

section
variable (ha : Anchored s.ledger s.orphans) (hlinkage : s.ledger.linkage = rule)
  (hr : s.running = true) (hb : s.Mines rule n b) (hsize : s.ledger.size < UInt64.size)
  (hnew : s.isKnown b.id = false)
include ha hlinkage hb hsize hnew

theorem accept_mined (now : Time) :
    (s.ledger.contains (b.minted now).id || s.orphans.contains (b.minted now).id) = false ∧
      s.ledger.hasParent (b.minted now) = true ∧
      s.ledger.height < (b.minted now).height.toNat := by
  obtain ⟨htop, -⟩ := Ledger.top_mem ha.indexed
  refine ⟨(Bool.or_eq_false_iff.mp hnew).1, ?_, ?_⟩
  · refine (Ledger.hasParent_iff ha.indexed).mpr ⟨s.ledger.top, htop, ?_⟩
    rw [hlinkage]
    exact isParent_of_mines ha hb hsize
  · have hheight : (b.minted now).height.toNat = s.ledger.height + 1 :=
      height_of_mines ha hb hsize
    omega

include hr

/-- A mined block is stored at once. -/
theorem mined_stored (now : Time) :
    b.minted now ∈ (s.after now (.blockMinted b)).ledger.toList := by
  obtain ⟨hk, hp, -⟩ := accept_mined ha hlinkage hb hsize hnew now
  rw [after_minted_ledger hr now]
  exact ha.mem_accept_stored hk hp

/-- It is the new top, unless orphans have been waiting for it: then one of
those is. -/
theorem mined_top (now : Time) :
    ((∀ o ∈ s.orphans.blocks, rule.isParent b o = false) →
        (s.after now (.blockMinted b)).ledger.top = b.minted now) ∧
      ((∃ o ∈ s.orphans.blocks, rule.isParent b o = true) →
        (s.after now (.blockMinted b)).ledger.top ∈ s.orphans.blocks ∧
          b.height.toNat < (s.after now (.blockMinted b)).ledger.top.height.toNat) := by
  obtain ⟨hk, hp, habove⟩ := accept_mined ha hlinkage hb hsize hnew now
  have hsame (o : Block) : s.ledger.linkage.isParent (b.minted now) o = rule.isParent b o := by
    rw [hlinkage]
    cases rule <;> rfl
  rw [after_minted_ledger hr now]
  constructor
  · intro hchildren
    exact ha.accept_top hk hp habove fun o ho => (hsame o).trans (hchildren o ho)
  · rintro ⟨o, ho, hchild⟩
    exact ha.accept_top_of_child hk hp habove ho ((hsame o).trans hchild)

end

/-- Where a child names the miner of its parent, nobody waits for a block that
is not mined yet. -/
theorem MinedOnce.childless (h : m.MinedOnce .minerIdentity) {T : Time → Prop}
    (hagreed : m.Agreed T sites) (hn : m.node? n = some s)
    (hnew : b.id ∉ m.originals.map Block.id) {o : Block} (ho : o ∈ s.orphans.blocks) :
    Linkage.minerIdentity.isParent b o = false := by
  rw [← Bool.not_eq_true]
  intro hchild
  obtain ⟨hheight, hminer⟩ := Linkage.isParent_iff.mp hchild
  obtain ⟨o', ho', halike⟩ := ((hagreed.copies n s hn).orphans o ho).alike
  have hoheight : o'.height = o.height := congrArg BlockId.height halike.id
  rcases List.mem_cons.mp ho' with rfl | ho'
  · rw [← hoheight] at hheight
    exact nomatch hheight
  · obtain ⟨p, hp, hparent⟩ := h.linked o' ho'
    obtain ⟨hpheight, hpminer⟩ := Linkage.isParent_iff.mp hparent
    have hheights : p.height.toNat = b.height.toNat := by
      rw [hoheight] at hpheight
      omega
    have hminers : p.minerId = b.minerId := by
      rw [halike.parentMinerId, hminer] at hpminer
      exact hpminer.symm
    have hpid : p.id = b.id := by
      rw [Block.id, Block.id, hminers, UInt64.toNat_inj.mp hheights]
    exact hnew (hpid ▸ List.mem_map_of_mem hp)

-- ---------------------------------------------------------------------------
-- Runs
-- ---------------------------------------------------------------------------

theorem MinedOnce.grown {m' : Mesh} (h : m.MinedOnce rule) (hg : Grown m m')
    (hsame : m'.minted = m.minted) : m'.MinedOnce rule where
  stored o ho := hg.holds _ _ (h.stored o (hsame ▸ ho))
  linked o ho := by
    obtain ⟨p, hp, hparent⟩ := h.linked o (hsame ▸ ho)
    exact ⟨p, hg.originals p hp, hparent⟩

/-- A step that mints nothing keeps both invariants. -/
theorem unminted_step (h : m.Agreed (fun _ => True) sites ∧ m.MinedOnce rule) (n : NodeId)
    (now : Time) (hwhole : ∀ sender bytes, e = .bytesReceived sender bytes → Whole bytes)
    (hbrings : ∀ s, m.node? n = some s → s.Brings (m.Copy fun _ => True) m.HeaderCopy e) :
    (m.act n now e).Agreed (fun _ => True) sites ∧ (m.act n now e).MinedOnce rule := by
  obtain ⟨hagreed, hmined⟩ := h
  cases hn : m.node? n with
  | none =>
    rw [act_absent hn]
    exact ⟨hagreed, hmined⟩
  | some s =>
    exact ⟨hagreed.act Time.true_kept hn now hwhole (hbrings s hn),
      hmined.grown (act_grown hn (hagreed.anchored hn) now e) (act_minted m n now e)⟩

theorem mined_step (h : m.Agreed (fun _ => True) sites ∧ m.MinedOnce rule) (now : Time)
    (hn : m.node? n = some s) (hlinkage : s.ledger.linkage = rule) (hr : s.running = true)
    (hb : s.Mines rule n b) (hsize : s.ledger.size < UInt64.size) :
    ((m.minting b).act n now (.blockMinted b)).Agreed (fun _ => True) sites ∧
      ((m.minting b).act n now (.blockMinted b)).MinedOnce rule := by
  obtain ⟨hagreed, hmined⟩ := h
  have ha := hagreed.anchored hn
  have hfresh := hmined.fresh hn ha hb hsize
  have hnew := (hagreed.unknown hfresh hn).1
  have hn' : (m.minting b).node? n = some s := hn
  have hafter := (hagreed.minting hfresh).act (e := .blockMinted b) Time.true_kept hn' now nofun
    (Agreed.brings_of_minting trivial s)
  have hgrown := act_grown hn' ha now (.blockMinted b)
  have hself := act_self hn' now (.blockMinted b)
  refine ⟨hafter, fun o ho => ?_, fun o ho => ?_⟩
  · rw [act_minted] at ho
    rcases List.mem_append.mp ho with ho | ho
    · exact hgrown.holds _ _ (hmined.stored o ho)
    · obtain rfl := List.mem_singleton.mp ho
      have hcontains := Ledger.contains_of_mem (hafter.anchored hself).indexed
        (mined_stored ha hlinkage hr hb hsize hnew now)
      exact ⟨_, hb.2.1 ▸ hself, hcontains⟩
  · rw [act_minted] at ho
    rcases List.mem_append.mp ho with ho | ho
    · obtain ⟨p, hp, hparent⟩ := hmined.linked o ho
      exact ⟨p, hgrown.originals p ((minting_grown m b).originals p hp), hparent⟩
    · -- the parent of the new block is what the miner's top is a copy of
      obtain rfl := List.mem_singleton.mp ho
      obtain ⟨htop, -⟩ := Ledger.top_mem ha.indexed
      obtain ⟨p, hp, halike⟩ := ((hagreed.copies n s hn).ledger _ htop).alike
      refine ⟨p, hgrown.originals p ((minting_grown m o).originals p hp), ?_⟩
      rw [halike.twin.isParent (.refl o)]
      exact isParent_of_mines ha hb hsize

theorem Mining.invariant
    (hrule : ∀ n site, sites n = some site → site.config.ledger.linkage = rule)
    (h : Mining rule sites m) : m.Agreed (fun _ => True) sites ∧ m.MinedOnce rule := by
  induction h with
  | fresh => exact ⟨fresh_agreed Time.true_kept, nofun, nofun⟩
  | started _ now n ih => exact unminted_step ih n now nofun fun _ _ => trivial
  | stopped _ now n ih => exact unminted_step ih n now nofun fun _ _ => trivial
  | fired _ now n timer ih => exact unminted_step ih n now nofun fun _ _ => trivial
  | @delivered m _ now p hp ih =>
    have hcarries := ih.1.parcels p hp
    exact unminted_step ih p.receiver now
      (fun _ _ he => (Event.bytesReceived.inj he).2 ▸ hcarries.whole)
      fun s hn => ih.1.brings_of_carries hn hcarries
  | @mined m _ now n s b hn hr hb hsize ih =>
    exact mined_step ih now hn (ih.1.linkage hrule hn) hr hb hsize

/-- The minted ids are the ids that are stored somewhere, but for the genesis
block's. -/
theorem minted_iff (hagreed : m.Agreed (fun _ => True) sites) (hmined : m.MinedOnce rule)
    (id : BlockId) :
    id ∈ m.minted.map Block.id ↔ id ≠ ⟨0, 0⟩ ∧ ∃ n, m.Holds n id := by
  constructor
  · intro hid
    obtain ⟨o, ho, rfl⟩ := List.mem_map.mp hid
    refine ⟨fun h0 => ?_, o.minerId, hmined.stored o ho⟩
    have hd := hagreed.distinct
    rw [originals, List.map_cons, List.nodup_cons] at hd
    rw [h0] at hid
    exact hd.1 hid
  · rintro ⟨h0, n, s, hn, hid⟩
    obtain ⟨c, hc, rfl⟩ := (Ledger.contains_iff (hagreed.anchored hn).indexed).mp hid
    obtain ⟨o, ho, halike⟩ := ((hagreed.copies n s hn).ledger c hc).alike
    rcases List.mem_cons.mp ho with rfl | ho
    · exact absurd halike.id.symm h0
    · exact halike.id ▸ List.mem_map_of_mem ho

/-- Agreement on block identity. All full copies of an id agree with the one
block minted under it, all bare headers with its header, and as many blocks
were minted as ids are stored anywhere beside the genesis block's. Nobody knows
of the id of a block that a node is about to mine; the miner stores it at once,
and it is the miner's new top, unless orphans of the miner are its children,
and then one of its orphans is, above it. Where a child names the miner of its
parent there are no such orphans. -/
theorem mining_agreed
    (hrule : ∀ n site, sites n = some site → site.config.ledger.linkage = rule)
    (h : Mining rule sites m) :
    (m.originals.map Block.id).Nodup ∧
      (∀ n s, m.node? n = some s →
        s.Holds (fun c => ∃ o ∈ m.originals, o.Alike c)
          (fun c => ∃ o ∈ m.originals, o.header.Alike c)) ∧
      {id | id ≠ ⟨0, 0⟩ ∧ ∃ n, m.Holds n id}.ncard = m.minted.length ∧
      ∀ n s b now, m.node? n = some s → s.running = true → s.Mines rule n b →
        s.ledger.size < UInt64.size →
          (∀ i t, m.node? i = some t →
            t.isKnown b.id = false ∧ t.staging.hasHeader b.id = false) ∧
          b.minted now ∈ (s.after now (.blockMinted b)).ledger.toList ∧
          ((∀ o ∈ s.orphans.blocks, rule.isParent b o = false) →
            (s.after now (.blockMinted b)).ledger.top = b.minted now) ∧
          ((∃ o ∈ s.orphans.blocks, rule.isParent b o = true) →
            (s.after now (.blockMinted b)).ledger.top ∈ s.orphans.blocks ∧
              b.height.toNat < (s.after now (.blockMinted b)).ledger.top.height.toNat) ∧
          (rule = .minerIdentity → ∀ o ∈ s.orphans.blocks, rule.isParent b o = false) := by
  obtain ⟨hagreed, hmined⟩ := Mining.invariant hrule h
  refine ⟨hagreed.distinct, fun n s hn => ?_, ?_, fun n s b now hn hr hb hsize => ?_⟩
  · exact (hagreed.copies n s hn).mono (fun _ hc => hc.alike) (fun _ hc => hc)
  · have hset : {id | id ≠ ⟨0, 0⟩ ∧ ∃ n, m.Holds n id} =
        ((m.minted.map Block.id).toFinset : Set BlockId) := by
      ext id
      rw [List.coe_toFinset]
      exact (minted_iff hagreed hmined id).symm
    have hd := hagreed.distinct
    rw [originals, List.map_cons, List.nodup_cons] at hd
    rw [hset, Set.ncard_coe_finset, List.toFinset_card_of_nodup hd.2, List.length_map]
  · have ha := hagreed.anchored hn
    have hlinkage := hagreed.linkage hrule hn
    have hfresh := hmined.fresh hn ha hb hsize
    have hnew := (hagreed.unknown hfresh hn).1
    obtain ⟨halone, hchild⟩ := mined_top ha hlinkage hr hb hsize hnew now
    refine ⟨fun i t ht => hagreed.unknown hfresh ht,
      mined_stored ha hlinkage hr hb hsize hnew now, halone, hchild, ?_⟩
    rintro rfl o ho
    exact hmined.childless hagreed hn hfresh ho

-- ---------------------------------------------------------------------------
-- A block that was waited for
-- ---------------------------------------------------------------------------

/-- The mesh once the posted frame at a place is delivered. -/
def deliverAt (m : Mesh) (k : Nat) (now : Time) : Mesh :=
  match m.posted[k]? with
  | none => m
  | some p => m.act p.receiver now (.bytesReceived p.sender p.frame)

theorem Mining.deliverAt (h : Mining rule sites m) (k : Nat) (now : Time) :
    Mining rule sites (m.deliverAt k now) := by
  unfold Mesh.deliverAt
  split
  · exact h
  · rename_i p hp
    exact h.delivered now (List.mem_of_getElem? hp)

theorem Mining.mine (h : Mining rule sites m) (now : Time)
    (hb : (m.node? n).any (fun s => s.running && decide (s.Mines rule n b) &&
      decide (s.ledger.size < UInt64.size)) = true) :
    Mining rule sites ((m.minting b).act n now (.blockMinted b)) := by
  obtain ⟨s, hs, hchecks⟩ := (Option.any_eq_true ..).mp hb
  simp only [Bool.and_eq_true, decide_eq_true_eq] at hchecks
  exact h.mined now hs hchecks.1.1 hchecks.1.2 hchecks.2

/-- Two nodes under the rule by which siblings' children are alike. -/
def siblings : NodeId → Option Site :=
  pair { SessionConfig.usual with ledger := ⟨.sharedParent⟩ }

/-- The second node mines twice, and only its second block comes to the first
node, where it waits for a parent. -/
def waiting : Mesh :=
  let ready := ((fresh siblings).act 1 0.0 .start).act 2 0.0 .start
  let low := { Block.genesis with height := 1, minerId := 2 }
  let high := { Block.genesis with height := 2, minerId := 2 }
  let once := (ready.minting low).act 2 1.0 (.blockMinted low)
  let twice := (once.minting high).act 2 2.0 (.blockMinted high)
  let answered := (twice.deliverAt 1 3.0).deliverAt 3 4.0
  (answered.deliverAt 4 5.0).act 1 6.0 (.timerFired (.validation high.id))

/-- A block that the first node may mine then. -/
def sibling : Block := { Block.genesis with height := 1, minerId := 1 }

theorem waiting_mining : Mining .sharedParent siblings waiting := by
  have hready : Mining .sharedParent siblings
      (((fresh siblings).act 1 0.0 .start).act 2 0.0 .start) :=
    (Mining.fresh.started 0.0 1).started 0.0 2
  have honce := hready.mine (n := 2) (b := { Block.genesis with height := 1, minerId := 2 }) 1.0
    (by decide +kernel)
  have htwice := honce.mine (n := 2) (b := { Block.genesis with height := 2, minerId := 2 }) 2.0
    (by decide +kernel)
  exact ((((htwice.deliverAt 1 3.0).deliverAt 3 4.0).deliverAt 4 5.0).fired 6.0 1
    (.validation ⟨2, 2⟩))

theorem sibling_mined :
    (waiting.node? 1).any (fun s => s.running && decide (s.Mines .sharedParent 1 sibling) &&
      decide (s.ledger.size < UInt64.size) &&
      s.orphans.blocks.any (Linkage.sharedParent.isParent sibling) &&
      (s.after 7.0 (.blockMinted sibling)).ledger.top.id == ⟨2, 2⟩) = true := by
  decide +kernel

/-- A block that is mined above the top need not be the new top: the orphan
that waited for a block like it is stored above it. -/
theorem mined_not_top :
    Mining .sharedParent siblings waiting ∧
      ∃ s, waiting.node? 1 = some s ∧ s.running = true ∧ s.Mines .sharedParent 1 sibling ∧
        s.ledger.size < UInt64.size ∧
        (s.after 7.0 (.blockMinted sibling)).ledger.top.id ≠ sibling.id := by
  obtain ⟨s, hs, hchecks⟩ := (Option.any_eq_true ..).mp sibling_mined
  simp only [Bool.and_eq_true, decide_eq_true_eq, beq_iff_eq] at hchecks
  obtain ⟨⟨⟨⟨hr, hb⟩, hsize⟩, -⟩, htop⟩ := hchecks
  refine ⟨waiting_mining, s, hs, hr, hb, hsize, ?_⟩
  rw [htop]
  decide

/-- There the two mined ids are all that is stored, and the block is stored at
once, below an orphan that is the new top. -/
theorem mining_agreed_waiting :
    {id | id ≠ ⟨0, 0⟩ ∧ ∃ n, waiting.Holds n id}.ncard = 2 ∧
      ∃ s, waiting.node? 1 = some s ∧
        sibling.minted 7.0 ∈ (s.after 7.0 (.blockMinted sibling)).ledger.toList ∧
        (s.after 7.0 (.blockMinted sibling)).ledger.top ∈ s.orphans.blocks := by
  have hrule n site (h : siblings n = some site) :
      site.config.ledger.linkage = .sharedParent := by
    rw [(eq_of_pair h).2.1]
  obtain ⟨-, -, hcount, hmine⟩ := mining_agreed hrule waiting_mining
  obtain ⟨s, hs, hchecks⟩ := (Option.any_eq_true ..).mp sibling_mined
  simp only [Bool.and_eq_true, decide_eq_true_eq, beq_iff_eq, List.any_eq_true] at hchecks
  obtain ⟨⟨⟨⟨hr, hb⟩, hsize⟩, hchild⟩, -⟩ := hchecks
  obtain ⟨-, hstored, -, htop, -⟩ := hmine 1 s sibling 7.0 hs hr hb hsize
  exact ⟨hcount.trans (by decide +kernel), s, hs, hstored, (htop hchild).1⟩

end Mesh

end BlockGossip
