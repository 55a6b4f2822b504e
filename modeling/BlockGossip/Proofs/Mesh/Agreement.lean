import BlockGossip.Proofs.Ledger.Copies
import BlockGossip.Proofs.Mesh.Basic

/-!
# Agreement

Every block that a node of a mesh holds, and every block in a posted frame, is
a copy of an original: the genesis block or a minted one. No two originals
share an id, so copies of one id agree. `Agreed` is kept by every step that
brings in nothing but posted frames and blocks newly minted.
-/

namespace BlockGossip

-- ---------------------------------------------------------------------------
-- Crossing the wire
-- ---------------------------------------------------------------------------

theorem Transaction.reread?_id {t u : Transaction} (h : t.reread? = some u) : t.id = u.id := by
  obtain ⟨time, -, rfl⟩ := Option.map_eq_some_iff.mp h
  rfl

theorem Block.reread?_alike {b c : Block} (h : b.reread? = some c) :
    b.Alike c ∧ Time.reread? b.timestamp = some c.timestamp := by
  simp only [reread?, Option.bind_eq_bind, Option.bind_eq_some_iff] at h
  obtain ⟨time, htime, transactions, htransactions, h⟩ := h
  obtain rfl := Option.some.inj h
  exact ⟨⟨rfl, rfl, rfl, rfl, map_eq_of_mapM (fun _ _ => Transaction.reread?_id) htransactions⟩,
    htime⟩

/-- A property of times that holds of the genesis block's and that crossing
the wire keeps. -/
structure Time.Kept (T : Time → Prop) : Prop where
  zero : T 0.0
  reread : ∀ {t u}, T t → Time.reread? t = some u → T u

theorem Time.lasting_kept : Kept Lasting where
  zero := zero_lasting
  reread ht hu := by
    obtain ⟨v, hv, hlast⟩ := ht.reread?
    obtain rfl := Option.some.inj (hv.symm.trans hu)
    exact hlast

theorem Time.true_kept : Kept fun _ => True := ⟨trivial, fun _ _ => trivial⟩

-- ---------------------------------------------------------------------------
-- Frames that are held
-- ---------------------------------------------------------------------------

namespace Session

variable {s : Session} {P P' Q Q' : Block → Prop}

/-- Whole frames leave no bytes behind. -/
theorem handle_idle (h : s.frames.Idle) {e : Event}
    (he : ∀ sender bytes, e = .bytesReceived sender bytes → Whole bytes) :
    (s.handle e).1.frames.Idle := by
  cases e with
  | start =>
    rw [handle, show s.onStart.1.frames = s.frames from congrArg Core.frames (onStart_core s)]
    exact h
  | stop =>
    cases hr : s.running with
    | false => rwa [handle, onStop_idle hr]
    | true =>
      rw [handle, show s.onStop.1.frames = .empty from congrArg Core.frames (onStop_core hr)]
      exact FrameDecoder.empty_idle
  | bytesReceived sender bytes =>
    simp only [handle]
    split
    · rw [(onBytes_aside s sender bytes).frames]
      exact (h.feed (he sender bytes rfl) sender).2
    · exact h
  | blockMinted b =>
    simp only [handle]
    split
    · rwa [show (s.onBlockMinted b).1.frames = s.frames from
        congrArg Core.frames (acceptBlock_core s (b.minted s.now))]
    · exact h
  | timerFired timer =>
    by_cases hf : s.running = true ∧ timer ∈ s.armed
    · rw [handle_timerFired hf.1 hf.2]
      cases timer with
      | inventoryTimeout id =>
        rw [onFired, (onInventoryTimeout_asking _ id).frames]
        exact h
      | validation id =>
        have hcore := onValidation_core (s.disarm (.validation id)) id
        split at hcore
        · rwa [onFired, show ((s.disarm (.validation id)).onValidation id).1.frames = s.frames
            from congrArg Core.frames hcore]
        · rwa [onFired, show ((s.disarm (.validation id)).onValidation id).1.frames = s.frames
            from congrArg Core.frames hcore]
      | nextTransaction =>
        rw [onFired, (onNextTransaction_asking _).frames]
        exact h
    · rwa [handle_timerFired_idle hf]

theorem Staged.mono {st : Staging} (h : Staged P Q st) (hp : ∀ b, P b → P' b)
    (hq : ∀ b, Q b → Q' b) : Staged P' Q' st where
  received id b hb := ⟨(h.received id b hb).1, hp b (h.received id b hb).2⟩
  headers id b hb := ⟨(h.headers id b hb).1, hq b (h.headers id b hb).2⟩

theorem Holds.mono (h : Holds P Q s) (hp : ∀ b, P b → P' b) (hq : ∀ b, Q b → Q' b) :
    Holds P' Q' s where
  ledger b hb := hp b (h.ledger b hb)
  orphans b hb := hp b (h.orphans b hb)
  staging := h.staging.mono hp hq

theorem Bearing.mono {sender : NodeId} {e : Envelope} (h : Bearing P Q sender e)
    (hp : ∀ b, P b → P' b) (hq : ∀ b, Q b → Q' b) : Bearing P' Q' sender e :=
  ⟨fun hk r hr now => hp _ (h.1 hk r hr now), fun hk r hr => hq _ (h.2 hk r hr)⟩

end Session

namespace Mesh

variable {T : Time → Prop} {m m' : Mesh} {n : NodeId} {s : Session} {now : Time} {e : Event}
  {b c : Block} {p : Parcel}

-- ---------------------------------------------------------------------------
-- Copies
-- ---------------------------------------------------------------------------

/-- A full copy of an original. The peer that delivered it has stored it. -/
structure Copy (T : Time → Prop) (m : Mesh) (b : Block) : Prop where
  alike : ∃ o ∈ m.originals, o.Alike b
  time : T b.timestamp
  origin : ∀ n, b.origin = some n → m.Holds n b.id

/-- A copy of the header of an original. -/
def HeaderCopy (m : Mesh) (b : Block) : Prop := ∃ o ∈ m.originals, o.header.Alike b

theorem Copy.mono (h : m.Copy T b) (hg : Grown m m') : m'.Copy T b where
  alike := by
    obtain ⟨o, ho, halike⟩ := h.alike
    exact ⟨o, hg.originals o ho, halike⟩
  time := h.time
  origin n hn := hg.holds n b.id (h.origin n hn)

theorem HeaderCopy.mono (h : m.HeaderCopy b) (hg : Grown m m') : m'.HeaderCopy b := by
  obtain ⟨o, ho, halike⟩ := h
  exact ⟨o, hg.originals o ho, halike⟩

theorem genesis_copy (hT : Time.Kept T) (m : Mesh) : m.Copy T .genesis where
  alike := ⟨.genesis, List.mem_cons_self .., .refl _⟩
  time := hT.zero
  origin _ hn := nomatch hn

/-- A copy that crosses the wire is a copy at its receiver. -/
theorem Copy.delivered (h : m.Copy T b) (hT : Time.Kept T) (hc : b.reread? = some c)
    (hn : m.Holds n b.id) (now : Time) : m.Copy T (c.received n now) := by
  obtain ⟨halike, htime⟩ := Block.reread?_alike hc
  obtain ⟨o, ho, hob⟩ := h.alike
  refine ⟨⟨o, ho, (hob.trans halike).received n now⟩, hT.reread h.time htime, ?_⟩
  intro i hi
  obtain rfl := Option.some.inj hi
  exact halike.id ▸ hn

theorem Copy.deliveredHeader (h : m.Copy T b) (hc : b.header.reread? = some c) :
    m.HeaderCopy c.header := by
  obtain ⟨halike, -⟩ := Block.reread?_alike hc
  obtain ⟨o, ho, hob⟩ := h.alike
  exact ⟨o, ho, (hob.header.trans halike).header⟩

/-- What a posted frame brings is copies. -/
structure Carries (T : Time → Prop) (m : Mesh) (p : Parcel) : Prop where
  whole : Whole p.frame
  bearing : ∀ e ∈ (pullAll p.frame).1, Session.Bearing (m.Copy T) m.HeaderCopy p.sender e

theorem Carries.mono (h : m.Carries T p) (hg : Grown m m') : m'.Carries T p where
  whole := h.whole
  bearing e he := (h.bearing e he).mono (fun _ hb => hb.mono hg) (fun _ hb => hb.mono hg)

-- ---------------------------------------------------------------------------
-- Meshes that agree
-- ---------------------------------------------------------------------------

structure Agreed (T : Time → Prop) (sites : NodeId → Option Site) (m : Mesh) : Prop where
  sound : ∀ n s, m.node? n = some s →
    ∃ site, sites n = some site ∧ Session.Sound site.setup site.config s
  idle : ∀ n s, m.node? n = some s → s.frames.Idle
  copies : ∀ n s, m.node? n = some s → s.Holds (m.Copy T) m.HeaderCopy
  parcels : ∀ p ∈ m.posted, m.Carries T p
  distinct : (m.originals.map Block.id).Nodup

/-- A node that has stored the block itself has stored its id. -/
theorem holds_of_mem (hn : m.node? n = some s) (ha : Anchored s.ledger s.orphans)
    (hb : b ∈ s.ledger.toList) : m.Holds n b.id :=
  ⟨s, hn, Ledger.contains_of_mem ha.indexed hb⟩

/-- What a node sends carries copies of what it has stored. -/
theorem carries_of_tells (hT : Time.Kept T) (hn : m.node? n = some s)
    (ha : Anchored s.ledger s.orphans) (hcopies : s.Holds (m.Copy T) m.HeaderCopy)
    {receiver : NodeId} {kind : MessageKind} {frame : Bytes} {bytes : UInt64}
    (h : Session.Tells s.ledger (.send receiver kind frame bytes)) :
    m.Carries T ⟨n, receiver, kind, frame⟩ := by
  obtain ⟨sent, -, hencode, hblocks, hheaders⟩ := h
  refine ⟨Envelope.encode_whole hencode, fun read hread => ?_⟩
  rw [Envelope.pullAll_encode hencode, Option.mem_toList] at hread
  have hkind := Envelope.reread?_kind hread
  refine ⟨fun hk r' hr' now => ?_, fun hk r' hr' => ?_⟩
  · obtain ⟨r, hr, hrr'⟩ := Envelope.reread?_records hread r' hr'
    have hstored := hblocks (hkind ▸ hk) r hr
    exact (hcopies.ledger r hstored).delivered hT hrr' (holds_of_mem hn ha hstored) now
  · obtain ⟨r, hr, hrr'⟩ := Envelope.reread?_records hread r' hr'
    obtain ⟨b, hb, rfl⟩ := hheaders (hkind ▸ hk) r hr
    exact (hcopies.ledger b hb).deliveredHeader hrr'

/-- Nodes that have not started, and nothing sent. -/
def fresh (sites : NodeId → Option Site) : Mesh :=
  ⟨fun n => (sites n).map fun site => .fresh site.setup site.config, [], [], []⟩

variable {sites : NodeId → Option Site}

theorem fresh_node? (hn : (fresh sites).node? n = some s) :
    ∃ site, sites n = some site ∧ s = .fresh site.setup site.config := by
  obtain ⟨site, hsite, rfl⟩ := Option.map_eq_some_iff.mp hn
  exact ⟨site, hsite, rfl⟩

theorem fresh_agreed (hT : Time.Kept T) : (fresh sites).Agreed T sites where
  sound n s hn := by
    obtain ⟨site, hsite, rfl⟩ := fresh_node? hn
    exact ⟨site, hsite, Session.fresh_sound ..⟩
  idle n s hn := by
    obtain ⟨site, -, rfl⟩ := fresh_node? hn
    exact FrameDecoder.empty_idle
  copies n s hn := by
    obtain ⟨site, -, rfl⟩ := fresh_node? hn
    exact Session.fresh_holds _ _ (genesis_copy hT _)
  parcels := nofun
  distinct := List.nodup_singleton _

namespace Agreed

theorem anchored (h : m.Agreed T sites) (hn : m.node? n = some s) :
    Anchored s.ledger s.orphans := by
  obtain ⟨site, -, hsound⟩ := h.sound n s hn
  exact hsound.anchored

theorem linkage {rule : Linkage} (h : m.Agreed T sites)
    (hrule : ∀ n site, sites n = some site → site.config.ledger.linkage = rule)
    (hn : m.node? n = some s) : s.ledger.linkage = rule := by
  obtain ⟨site, hsite, hsound⟩ := h.sound n s hn
  rw [hsound.linkage, hsound.config_eq, hrule n site hsite]

/-- A step keeps agreement that brings in copies alone, in whole frames. -/
theorem act (h : m.Agreed T sites) (hT : Time.Kept T) (hn : m.node? n = some s) (now : Time)
    (hwhole : ∀ sender bytes, e = .bytesReceived sender bytes → Whole bytes)
    (hbrings : s.Brings (m.Copy T) m.HeaderCopy e) : (m.act n now e).Agreed T sites := by
  obtain ⟨site, hsite, hsound⟩ := h.sound n s hn
  have hs := Session.setTime_sound hsound now
  have hafter := Session.handle_sound hs e
  have hgrown := act_grown hn hsound.anchored now e
  have hcopies : (s.after now e).Holds (m.act n now e |>.Copy T) (m.act n now e).HeaderCopy := by
    obtain ⟨hl, ho, hst⟩ := h.copies n s hn
    exact (Session.handle_holds (s := s.setTime now) hs.anchored ⟨hl, ho, hst⟩ hbrings).mono
      (fun _ hb => hb.mono hgrown) (fun _ hb => hb.mono hgrown)
  have hself := act_self hn now e
  constructor
  · intro i t ht
    rcases node?_of_act hn ht with ⟨rfl, rfl⟩ | ⟨-, ht⟩
    · exact ⟨site, hsite, hafter⟩
    · exact h.sound i t ht
  · intro i t ht
    rcases node?_of_act hn ht with ⟨-, rfl⟩ | ⟨-, ht⟩
    · exact Session.handle_idle (s := s.setTime now) (h.idle n s hn) hwhole
    · exact h.idle i t ht
  · intro i t ht
    rcases node?_of_act hn ht with ⟨-, rfl⟩ | ⟨-, ht⟩
    · exact hcopies
    · exact (h.copies i t ht).mono (fun _ hb => hb.mono hgrown) (fun _ hb => hb.mono hgrown)
  · intro p hp
    rw [act_posted hn, List.mem_append] at hp
    rcases hp with hp | hp
    · exact (h.parcels p hp).mono hgrown
    · obtain ⟨rfl, bytes, hsend⟩ := mem_parcelsOf.mp hp
      exact carries_of_tells hT hself hafter.anchored hcopies
        (Session.handle_tells hs.anchored e _ hsend)
  · rw [originals, act_minted]
    exact h.distinct

/-- Minting a block of a new id keeps agreement. -/
theorem minting (h : m.Agreed T sites) (hnew : b.id ∉ m.originals.map Block.id) :
    (m.minting b).Agreed T sites where
  sound := h.sound
  idle := h.idle
  copies n s hn := (h.copies n s hn).mono (fun _ hc => hc.mono (minting_grown m b))
    (fun _ hc => hc.mono (minting_grown m b))
  parcels p hp := (h.parcels p hp).mono (minting_grown m b)
  distinct := by
    have hlist : (m.minting b).originals = m.originals ++ [b] := rfl
    rw [hlist, List.map_append]
    exact List.nodup_append.mpr ⟨h.distinct, List.nodup_singleton _,
      fun i hi j hj hij => hnew (List.mem_singleton.mp hj ▸ hij ▸ hi)⟩

/-- A delivered frame brings copies. -/
theorem brings_of_carries (h : m.Agreed T sites) (hn : m.node? n = some s)
    (hp : m.Carries T p) :
    s.Brings (m.Copy T) m.HeaderCopy (.bytesReceived p.sender p.frame) := by
  intro read hread
  rw [((h.idle n s hn).feed hp.whole p.sender).1] at hread
  exact hp.bearing read hread

/-- A newly minted block is a copy of itself. -/
theorem brings_of_minting (ht : T b.timestamp) (s : Session) :
    s.Brings ((m.minting b).Copy T) (m.minting b).HeaderCopy (.blockMinted b) := by
  intro now
  refine ⟨⟨b, List.mem_append_right (Block.genesis :: m.minted) (List.mem_singleton_self b),
    .minted b now⟩, ht, nofun⟩

/-- Two copies of one id are copies of one original. -/
theorem alike (h : m.Agreed T sites) (hb : m.Copy T b) (hc : m.Copy T c) (hid : b.id = c.id) :
    b.Alike c := by
  obtain ⟨o, ho, hob⟩ := hb.alike
  obtain ⟨o', ho', hoc⟩ := hc.alike
  have heq : o = o' := List.inj_on_of_nodup_map h.distinct ho ho'
    (hob.id.trans (hid.trans hoc.id.symm))
  subst heq
  exact hob.symm.trans hoc

end Agreed

end Mesh

end BlockGossip
