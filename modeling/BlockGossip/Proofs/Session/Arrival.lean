import BlockGossip.Proofs.Ledger.Copies
import BlockGossip.Proofs.Session.Heard

/-!
# The order of arrival does not matter

A session that is fed the blocks of a set, in any order, grouping and number of
copies, ends with the blocks that a chain of parents within the set joins to
the genesis block in its ledger, and with the others as orphans. So two
sessions fed the same set end alike.
-/

namespace BlockGossip

variable {rule : Linkage} {blocks : List Block} {a b c : Block}

-- ---------------------------------------------------------------------------
-- Chains
-- ---------------------------------------------------------------------------

/-- A chain of parents within the blocks joins the block to the genesis block. -/
inductive Joined (rule : Linkage) (blocks : List Block) : Block → Prop
  | root {b : Block} (hb : b ∈ blocks) (h : rule.isParent .genesis b = true) : Joined rule blocks b
  | link {a b : Block} (ha : Joined rule blocks a) (hb : b ∈ blocks)
    (h : rule.isParent a b = true) : Joined rule blocks b

theorem Joined.mem (h : Joined rule blocks b) : b ∈ blocks := by
  cases h with
  | root hb => exact hb
  | link _ hb => exact hb

namespace Session

variable {s t : Session} {ids more : List BlockId}

/-- The blocks came to the session, in messages of any peers or minted, and
some of their validations were made; the ids of what came are listed. -/
inductive Fed (rule : Linkage) (blocks : List Block) : Session → List BlockId → Prop
  | started {setup : Setup} {config : SessionConfig} (hrole : setup.role ≠ .client)
    (hrule : config.ledger.linkage = rule) (now : Time) :
    Fed rule blocks ((fresh setup config).after now .start) []
  | message {s : Session} {ids : List BlockId} (h : Fed rule blocks s ids) (now : Time)
    (sender : NodeId) (bytes : Bytes)
    (hm : ∀ m ∈ (s.frames.feed sender bytes).1,
      m.kind? = some .block ∧ ∀ r ∈ m.blockRecords, ∃ b ∈ blocks, r.Twin b) :
    Fed rule blocks (s.after now (.bytesReceived sender bytes))
      (ids ++ (s.frames.feed sender bytes).1.flatMap fun m => m.blockRecords.map Block.id)
  | minted {s : Session} {ids : List BlockId} (h : Fed rule blocks s ids) (now : Time)
    {r : Block} (hr : ∃ b ∈ blocks, r.Twin b) :
    Fed rule blocks (s.after now (.blockMinted r)) (ids ++ [r.id])
  | validated {s : Session} {ids : List BlockId} (h : Fed rule blocks s ids) (now : Time)
    (id : BlockId) :
    Fed rule blocks (s.after now (.timerFired (.validation id))) ids

/-- A copy of one of the blocks, or the genesis block. -/
def Among (blocks : List Block) (r : Block) : Prop := r = .genesis ∨ ∃ b ∈ blocks, r.Twin b

/-- What holds of a session while it is fed. -/
structure Feeding (rule : Linkage) (blocks : List Block) (s : Session) (ids : List BlockId) :
    Prop where
  running : s.running = true
  takesBlocks : s.setup.role.handlesInventory = true
  linkage : s.ledger.linkage = rule
  anchored : Anchored s.ledger s.orphans
  tidy : Tidy s []
  holds : Holds (Among blocks) (fun _ => True) s
  known : ∀ id ∈ ids, s.isKnown id = true

namespace Feeding

theorem setTime (h : Feeding rule blocks s ids) (now : Time) :
    Feeding rule blocks (s.setTime now) ids :=
  ⟨h.running, h.takesBlocks, h.linkage, h.anchored, h.tidy.of_core (setTime_core s now),
    ⟨h.holds.ledger, h.holds.orphans, h.holds.staging⟩, h.known⟩

/-- Any event keeps it that brings in copies and does not stop the session. -/
theorem handle (h : Feeding rule blocks s ids) {e : Event}
    (he : e ≠ .stop) (hb : s.Brings (Among blocks) (fun _ => True) e)
    (hmore : ∀ id ∈ more, (s.handle e).1.isKnown id = true) :
    Feeding rule blocks (s.handle e).1 (ids ++ more) where
  running := handle_running h.running he
  takesBlocks := handle_setup s e ▸ h.takesBlocks
  linkage := by rw [handle_ledger, acceptance_linkage h.anchored, h.linkage]
  anchored := by
    rw [handle_ledger, handle_orphans]
    exact acceptance_anchored h.anchored e
  tidy := handle_tidy h.tidy e
  holds := handle_holds h.anchored h.holds hb
  known id hid := by
    rcases List.mem_append.mp hid with hid | hid
    · exact handle_known h.anchored h.holds.staging (h.known id hid) he
    · exact hmore id hid

theorem fed (h : Fed rule blocks s ids) : Feeding rule blocks s ids := by
  induction h with
  | @started setup config hrole hrule now =>
    have hreach : Reachable setup config ((fresh setup config).after now .start) :=
      .step .fresh now .start
    have hs := hreach.sound
    have hfresh : Holds (Among blocks) (fun _ => True) ((fresh setup config).setTime now) := by
      obtain ⟨hl, ho, hst⟩ := fresh_holds (Q := fun _ => True) setup config
        (show Among blocks .genesis from .inl rfl)
      exact ⟨hl, ho, hst⟩
    refine ⟨?_, ?_, ?_, hs.anchored, hreach.tidy, ?_, nofun⟩
    · exact congrArg Core.running (onStart_core _)
    · rw [hs.setup_eq]
      simpa [Role.handlesInventory] using hrole
    · rw [hs.linkage, hs.config_eq, hrule]
    · exact handle_holds (genesis_anchored _) hfresh trivial
  | @message s ids _ now sender bytes hm ih =>
    have ih := ih.setTime now
    refine ih.handle nofun (fun m hmem => ⟨fun _ r hr _ => ?_, fun _ _ _ => trivial⟩)
      fun id hid => ?_
    · exact .inr ((hm m hmem).2 r hr)
    · obtain ⟨m, hmem, hid⟩ := List.mem_flatMap.mp hid
      exact handle_received ih.running ih.takesBlocks hmem (hm m hmem).1 hid
  | @minted s ids _ now r hr ih =>
    have ih := ih.setTime now
    refine ih.handle nofun (fun _ => .inr hr) fun id hid => ?_
    rw [List.mem_singleton.mp hid]
    exact handle_minted ih.running ih.anchored r
  | @validated s ids _ now id ih =>
    have h : Feeding rule blocks (s.after now (.timerFired (.validation id))) (ids ++ []) :=
      (ih.setTime now).handle nofun trivial nofun
    rwa [List.append_nil] at h

-- ---------------------------------------------------------------------------
-- When nothing waits any more
-- ---------------------------------------------------------------------------

/-- A stored block but the genesis block is a copy of a joined one. -/
theorem joined_of_stored (h : Feeding rule blocks s ids) (hb : b ∈ s.ledger.toList)
    (hg : b ≠ .genesis) : ∃ c, Joined rule blocks c ∧ b.Twin c := by
  induction hn : b.height.toNat generalizing b with
  | zero => exact absurd (h.anchored.eq_genesis_of_height hb hn) hg
  | succ n ih =>
    obtain ⟨c, hc, htwin⟩ := (h.holds.ledger b hb).resolve_left hg
    have hp := (h.anchored.genesis_or_hasParent hb).resolve_left hg
    obtain ⟨p, hp, hparent⟩ := (Ledger.hasParent_iff h.anchored.indexed).mp hp
    rw [h.linkage] at hparent
    have hheight := (Linkage.isParent_iff.mp hparent).1
    by_cases hpg : p = .genesis
    · rw [hpg, Block.Twin.isParent (.refl _) htwin] at hparent
      exact ⟨c, .root hc hparent, htwin⟩
    · obtain ⟨a, ha, hpa⟩ := ih hp hpg (by omega)
      rw [hpa.isParent htwin] at hparent
      exact ⟨c, .link ha hc hparent, htwin⟩

/-- A held copy of one of the blocks is a twin of it. -/
theorem twin_of_id (h : Feeding rule blocks s ids) (hd : (blocks.map Block.id).Nodup)
    (h0 : ⟨0, 0⟩ ∉ blocks.map Block.id) (hc : c ∈ blocks)
    (hb : b ∈ s.ledger.toList ∨ b ∈ s.orphans.blocks) (hid : b.id = c.id) : b.Twin c := by
  have hamong : Among blocks b := hb.elim (h.holds.ledger b) (h.holds.orphans b)
  rcases hamong with rfl | ⟨c', hc', htwin⟩
  · have hid : (⟨0, 0⟩ : BlockId) = c.id := hid
    exact absurd (hid ▸ List.mem_map_of_mem hc) h0
  · rwa [← List.inj_on_of_nodup_map hd hc' hc (htwin.1.symm.trans hid)]

/-- A block that came is stored or an orphan once no validation is awaited. -/
theorem settled (h : Feeding rule blocks s ids) (hq : ∀ id, .validation id ∉ s.armed)
    {id : BlockId} (hid : id ∈ ids) :
    s.ledger.contains id = true ∨ s.orphans.contains id = true :=
  (isKnown_iff.mp (h.known id hid)).resolve_right fun hr => hq id (h.tidy.validations id hr)

/-- Once all have come and nothing waits, every joined block is stored. -/
theorem stored_of_joined (h : Feeding rule blocks s ids) (hd : (blocks.map Block.id).Nodup)
    (h0 : ⟨0, 0⟩ ∉ blocks.map Block.id) (hall : ∀ b ∈ blocks, b.id ∈ ids)
    (hq : ∀ id, .validation id ∉ s.armed) (hc : Joined rule blocks c) :
    s.ledger.contains c.id = true := by
  -- an orphan of that id would have the stored copy of its parent
  have hstored {a a' c : Block} (hc : c ∈ blocks) (ha : a' ∈ s.ledger.toList) (htwin : a'.Twin a)
      (hparent : rule.isParent a c = true) : s.ledger.contains c.id = true := by
    refine (h.settled hq (hall c hc)).resolve_right fun ho => ?_
    obtain ⟨o, ho, hid⟩ := OrphanPool.contains_iff.mp ho
    have hoc := h.twin_of_id hd h0 hc (.inr ho) hid
    have hwaiting := (Ledger.hasParent_eq_false_iff h.anchored.indexed).mp
      (h.anchored.waiting o ho) a' ha
    rw [h.linkage, htwin.isParent hoc, hparent] at hwaiting
    exact Bool.noConfusion hwaiting
  induction hc with
  | root hb hparent => exact hstored hb h.anchored.genesis_mem (.refl _) hparent
  | link ha hb hparent ih =>
    obtain ⟨a', ha', hid⟩ := (Ledger.contains_iff h.anchored.indexed).mp ih
    exact hstored hb ha' (h.twin_of_id hd h0 ha.mem (.inl ha') hid) hparent

theorem stored_iff (h : Feeding rule blocks s ids) (hd : (blocks.map Block.id).Nodup)
    (h0 : ⟨0, 0⟩ ∉ blocks.map Block.id) (hall : ∀ b ∈ blocks, b.id ∈ ids)
    (hq : ∀ id, .validation id ∉ s.armed) (id : BlockId) :
    s.ledger.contains id = true ↔ id = ⟨0, 0⟩ ∨ ∃ b, Joined rule blocks b ∧ b.id = id := by
  constructor
  · intro hc
    obtain ⟨b, hb, hid⟩ := (Ledger.contains_iff h.anchored.indexed).mp hc
    by_cases hg : b = .genesis
    · exact .inl (by rw [← hid, hg]; rfl)
    · obtain ⟨c, hc, htwin⟩ := h.joined_of_stored hb hg
      exact .inr ⟨c, hc, htwin.1.symm.trans hid⟩
  · rintro (rfl | ⟨b, hb, rfl⟩)
    · exact Ledger.contains_of_mem h.anchored.indexed h.anchored.genesis_mem
    · exact h.stored_of_joined hd h0 hall hq hb

theorem orphan_iff (h : Feeding rule blocks s ids) (hd : (blocks.map Block.id).Nodup)
    (h0 : ⟨0, 0⟩ ∉ blocks.map Block.id) (hall : ∀ b ∈ blocks, b.id ∈ ids)
    (hq : ∀ id, .validation id ∉ s.armed) (id : BlockId) :
    s.orphans.contains id = true ↔ ∃ b ∈ blocks, ¬Joined rule blocks b ∧ b.id = id := by
  constructor
  · intro hc
    obtain ⟨o, ho, hid⟩ := OrphanPool.contains_iff.mp hc
    have hnot := h.anchored.not_contains_orphan ho
    rcases h.holds.orphans o ho with rfl | ⟨b, hb, htwin⟩
    · rw [Ledger.contains_of_mem h.anchored.indexed h.anchored.genesis_mem] at hnot
      exact Bool.noConfusion hnot
    · refine ⟨b, hb, fun hj => ?_, htwin.1.symm.trans hid⟩
      rw [htwin.1, h.stored_of_joined hd h0 hall hq hj] at hnot
      exact Bool.noConfusion hnot
  · rintro ⟨b, hb, hnj, rfl⟩
    refine (h.settled hq (hall b hb)).resolve_left fun hl => hnj ?_
    rcases (h.stored_iff hd h0 hall hq b.id).mp hl with hid | ⟨c, hc, hid⟩
    · exact absurd (hid ▸ List.mem_map_of_mem hb) h0
    · rwa [← List.inj_on_of_nodup_map hd hc.mem hb hid]

end Feeding

/-- Two sessions fed the same blocks, whatever the order, end with the same
ledger ids and the same orphan ids: stored are the genesis block and the blocks
joined to it, and the others are orphans. -/
theorem fed_alike (hd : (blocks.map Block.id).Nodup) (h0 : ⟨0, 0⟩ ∉ blocks.map Block.id)
    (h : Fed rule blocks s ids) (hall : ∀ b ∈ blocks, b.id ∈ ids)
    (hq : ∀ id, .validation id ∉ s.armed) (h' : Fed rule blocks t more)
    (hall' : ∀ b ∈ blocks, b.id ∈ more) (hq' : ∀ id, .validation id ∉ t.armed) :
    (∀ id, s.ledger.contains id = t.ledger.contains id) ∧
      (∀ id, s.orphans.contains id = t.orphans.contains id) ∧
      (∀ id, s.ledger.contains id = true ↔
        id = ⟨0, 0⟩ ∨ ∃ b, Joined rule blocks b ∧ b.id = id) ∧
      ∀ id, s.orphans.contains id = true ↔ ∃ b ∈ blocks, ¬Joined rule blocks b ∧ b.id = id := by
  have hs := Feeding.fed h
  have ht := Feeding.fed h'
  refine ⟨fun id => ?_, fun id => ?_, hs.stored_iff hd h0 hall hq, hs.orphan_iff hd h0 hall hq⟩
  · rw [Bool.eq_iff_iff, hs.stored_iff hd h0 hall hq, ht.stored_iff hd h0 hall' hq']
  · rw [Bool.eq_iff_iff, hs.orphan_iff hd h0 hall hq, ht.orphan_iff hd h0 hall' hq']

/-- A child that comes before its parent, and a block whose parent never comes. -/
theorem fed_alike_forest :
    let low := { Block.genesis with height := 1, minerId := 7 }
    let high := { Block.genesis with height := 2, minerId := 8, parentMinerId := 7 }
    let stray := { Block.genesis with height := 9, minerId := 9 }
    let started := (fresh ⟨1, .committer, [2], .standard, .usual, .empty⟩ .usual).after 0.0 .start
    let early := (Envelope.block [high, stray]).encode.toOption.getD []
    let s := (((started.after 1.0 (.bytesReceived 2 early)).after 2.0
      (.timerFired (.validation high.id))).after 3.0 (.blockMinted low)).after 4.0
      (.timerFired (.validation stray.id))
    let whole := (Envelope.block [low, high, stray]).encode.toOption.getD []
    let t := (((started.after 1.0 (.bytesReceived 3 whole)).after 2.0
      (.timerFired (.validation stray.id))).after 3.0 (.timerFired (.validation low.id))).after 4.0
      (.timerFired (.validation high.id))
    (∀ id, s.ledger.contains id = t.ledger.contains id) ∧ s.ledger.contains high.id = true ∧
      t.orphans.contains stray.id = true := by
  intro low high stray started early s whole t
  have hrole : (⟨1, .committer, [2], .standard, .usual, .empty⟩ : Setup).role ≠ .client := by
    decide
  have hrule : SessionConfig.usual.ledger.linkage = .minerIdentity := rfl
  have hstarted : Fed .minerIdentity [low, high, stray] started [] := .started hrole hrule 0.0
  have hs := ((((hstarted.message 1.0 2 early (by decide +kernel)).validated 2.0 high.id).minted 3.0
    (r := low) ⟨low, by simp, .refl low⟩)).validated 4.0 stray.id
  have ht := (((hstarted.message 1.0 3 whole (by decide +kernel)).validated 2.0 stray.id).validated
    3.0 low.id).validated 4.0 high.id
  obtain ⟨hsq, hhigh⟩ : s.armed = [] ∧ s.ledger.contains high.id = true := by decide +kernel
  obtain ⟨htq, hstray⟩ : t.armed = [] ∧ t.orphans.contains stray.id = true := by decide +kernel
  refine ⟨(fed_alike (by decide) (by decide) hs (by decide +kernel) ?_ ht (by decide +kernel)
    ?_).1, hhigh, hstray⟩
  · exact fun id => hsq ▸ List.not_mem_nil
  · exact fun id => htq ▸ List.not_mem_nil

end Session

end BlockGossip
