import BlockGossip.Proofs.Session.Kinds
import BlockGossip.Proofs.Session.Sends
import BlockGossip.Proofs.Session.Synchrony
import BlockGossip.Proofs.Wire.Crossing

/-!
# Advertisements are the growth of the ledger

What a session sends as it accepts a block is one message for each block that
it stores then, in order, and for each peer but that block's origin; at every
other event it stores nothing and announces nothing. So over a run each stored
block is advertised once to each peer but its origin.
-/

namespace BlockGossip

-- ---------------------------------------------------------------------------
-- Advertisements
-- ---------------------------------------------------------------------------

/-- The message that advertises a stored block: its id, or its header. -/
def Protocol.advert : Protocol → Block → Envelope
  | .standard, b => .announce [b.id]
  | .sendHeaders, b => .headers [b.header]

def Protocol.advertKind : Protocol → MessageKind
  | .standard => .inv
  | .sendHeaders => .headers

/-- The peers that a stored block is advertised to: all but its origin. -/
def Setup.receivers (setup : Setup) (b : Block) : List NodeId :=
  setup.peers.filter fun peer => some peer != b.origin

/-- The advertisement of a block to a peer. -/
def advertTo (setup : Setup) (config : SessionConfig) (b : Block) (peer : NodeId) : Action :=
  .send peer setup.protocol.advertKind (setup.protocol.advert b).frame
    (config.wire.messageBytes setup.protocol.advertKind 1 0)

/-- The advertisements of a block. -/
def advertsOf (setup : Setup) (config : SessionConfig) (b : Block) : List Action :=
  (setup.receivers b).map (advertTo setup config b)

variable {setup : Setup} {config : SessionConfig} {b c : Block} {peer : NodeId}

theorem Protocol.advert_kind (protocol : Protocol) (b : Block) :
    (protocol.advert b).kind? = some protocol.advertKind := by
  cases protocol <;> rfl

theorem Protocol.advert_encode (protocol : Protocol) (b : Block) :
    (protocol.advert b).encode = .ok (protocol.advert b).frame := by
  have hlabel : '#' ∉ "blocks".toList := by decide
  refine Envelope.encode_of_hashless ((Envelope.toJson_hashless_iff _).mpr ?_)
  cases protocol with
  | standard =>
    show ∀ text ∈ ["blocks", b.id.key], '#' ∉ text.toList
    simpa only [List.forall_mem_cons, List.not_mem_nil, false_imp_iff, implies_true, and_true]
      using ⟨hlabel, b.id.hash_not_mem_key⟩
  | sendHeaders =>
    show ∀ text ∈ ["blocks"], '#' ∉ text.toList
    simpa only [List.forall_mem_singleton] using hlabel

/-- A stored block is advertised to each of its receivers, in their order. -/
theorem Session.advertise_snd (s : Session) (b : Block) :
    (s.advertise b).2 = advertsOf s.setup s.config b := by
  have hsnd : (s.advertise b).2 =
      sendActions (s.setup.receivers b) (s.setup.protocol.advert b)
        (s.charge s.setup.protocol.advertKind 1 0) := by
    rw [advertise]
    cases s.setup.protocol <;> rfl
  rw [hsnd]
  exact sendActions_eq_map (s.setup.protocol.advert_kind b) (s.setup.protocol.advert_encode b)

-- ---------------------------------------------------------------------------
-- An advertisement tells its block
-- ---------------------------------------------------------------------------

theorem Block.id_of_toJson (h : b.toJson = c.toJson) : b.id = c.id := by
  have hread (d : Block) : d.toJson.fields? ["height", "minerId"] =
      some [some (Json.ofNat d.height.toNat), some (Json.ofNat d.minerId.toNat)] := by
    rw [toJson, Json.fields?_record]
    rfl
  have hfields := (hread b).symm.trans ((congrArg _ h).trans (hread c))
  simp only [Option.some.injEq, List.cons.injEq, and_true] at hfields
  obtain ⟨hheight, hminer⟩ := hfields
  have hheight := congrArg Json.Node.word64? hheight
  have hminer := congrArg Json.Node.word32? hminer
  rw [Json.word64?_ofNat, Json.word64?_ofNat] at hheight
  rw [Json.word32?_ofNat, Json.word32?_ofNat] at hminer
  exact congrArg₂ BlockId.mk (Option.some.inj hheight) (Option.some.inj hminer)

namespace Envelope

variable {e e' : Envelope}

/-- A frame tells the document it was written from. -/
theorem toJson_of_frame (h : e.frame = e'.frame) : e.toJson = e'.toJson := by
  have hread := congrArg Json.Node.read? (List.append_cancel_right h)
  rw [Json.Node.read?_render e.toJson_proper, Json.Node.read?_render e'.toJson_proper] at hread
  exact Option.some.inj hread

theorem fields_of_toJson (h : e.toJson = e'.toJson) :
    listField Json.ofText e.inv = listField Json.ofText e'.inv ∧
      blocksField e.blocks = blocksField e'.blocks := by
  have hfields := e.toJson_fields?.symm.trans ((congrArg _ h).trans e'.toJson_fields?)
  simp only [Option.some.injEq, List.cons.injEq] at hfields
  exact ⟨hfields.2.2.1, hfields.2.2.2.1⟩

end Envelope

theorem Protocol.id_of_frame (protocol : Protocol)
    (h : (protocol.advert b).frame = (protocol.advert c).frame) : b.id = c.id := by
  obtain ⟨hinv, hblocks⟩ := Envelope.fields_of_toJson (Envelope.toJson_of_frame h)
  cases protocol with
  | standard =>
    have hkeys : Json.ofList Json.ofText [b.id.key] = Json.ofList Json.ofText [c.id.key] :=
      Option.some.inj hinv
    have hkeys := congrArg (Json.Node.list? Json.Node.text?) hkeys
    rw [Envelope.list?_text, Envelope.list?_text] at hkeys
    have hkey : b.id.key = c.id.key := (List.cons.inj (Option.some.inj hkeys)).1
    have hid := congrArg BlockId.parse hkey
    rw [BlockId.parse_key, BlockId.parse_key] at hid
    exact Except.ok.inj hid
  | sendHeaders =>
    have hheaders : Json.ofList Block.toJson [b.header] = Json.ofList Block.toJson [c.header] :=
      Option.some.inj hblocks
    have hheaders := congrArg (Json.Node.list? some) hheaders
    rw [Json.list?_ofList, Json.list?_ofList] at hheaders
    have hheader : b.header.toJson = c.header.toJson := by
      simpa using hheaders
    exact Block.id_of_toJson (b := b.header) (c := c.header) hheader

theorem advertTo_inj {other : NodeId}
    (h : advertTo setup config b peer = advertTo setup config c other) :
    peer = other ∧ b.id = c.id := by
  obtain ⟨hpeer, -, hframe, -⟩ := Action.send.inj h
  exact ⟨hpeer, setup.protocol.id_of_frame hframe⟩

section
variable {bs : List Block} (hd : (bs.map Block.id).Nodup)
include hd

theorem advertsOf_nodup (hp : setup.peers.Nodup) :
    (bs.flatMap (advertsOf setup config)).Nodup := by
  refine List.nodup_flatMap.mpr ⟨fun c _ => ?_, ?_⟩
  · exact (hp.filter _).map_on fun p _ q _ h => (advertTo_inj h).1
  · refine (List.pairwise_map.mp hd).imp fun hne a ha ha' => ?_
    obtain ⟨p, -, rfl⟩ := List.mem_map.mp ha
    obtain ⟨q, -, heq⟩ := List.mem_map.mp ha'
    exact hne (advertTo_inj heq).2.symm

/-- Where no two blocks share an id, and no two peers are the same, each block is
advertised once to each of its receivers. -/
theorem count_advertsOf (hp : setup.peers.Nodup) (hb : b ∈ bs) (peer : NodeId) :
    (bs.flatMap (advertsOf setup config)).count (advertTo setup config b peer) =
      if peer ∈ setup.receivers b then 1 else 0 := by
  have hmem : advertTo setup config b peer ∈ bs.flatMap (advertsOf setup config) ↔
      peer ∈ setup.receivers b := by
    constructor
    · intro h
      obtain ⟨c, hc, h⟩ := List.mem_flatMap.mp h
      obtain ⟨other, hother, heq⟩ := List.mem_map.mp h
      obtain ⟨rfl, hid⟩ := advertTo_inj heq
      obtain rfl := List.inj_on_of_nodup_map hd hc hb hid
      exact hother
    · exact fun hpeer => List.mem_flatMap.mpr ⟨b, hb, List.mem_map_of_mem hpeer⟩
  rw [(advertsOf_nodup hd hp).count]
  simp only [hmem]

end

/-- A block whose id none of the blocks has is not advertised among them. -/
theorem count_advertsOf_eq_zero {bs : List Block} (hb : b.id ∉ bs.map Block.id)
    (peer : NodeId) :
    (bs.flatMap (advertsOf setup config)).count (advertTo setup config b peer) = 0 := by
  refine List.count_eq_zero.mpr fun h => ?_
  obtain ⟨c, hc, h⟩ := List.mem_flatMap.mp h
  obtain ⟨other, -, heq⟩ := List.mem_map.mp h
  exact hb ((advertTo_inj heq).2 ▸ List.mem_map_of_mem hc)

namespace Session

variable {s : Session} {e : Event}

-- ---------------------------------------------------------------------------
-- Events
-- ---------------------------------------------------------------------------

/-- The event brings a block to its acceptance: its validation has come, or it
is minted. -/
def accepts (s : Session) : Event → Bool
  | .timerFired (.validation id) => s.armed.contains (.validation id)
  | .blockMinted _ => true
  | _ => false

/-- What is stored at an event that has a block accepted, and sent: the block,
if it is stored, comes first, and what comes behind it are orphans. -/
structure Advertises (s : Session) (now : Time) (e : Event) (b : Block) (stored : List Block) :
    Prop where
  grown : (s.after now e).ledger.toList = s.ledger.toList ++ stored
  order : stored = [] ∨
    ∃ promoted, stored = b :: promoted ∧ ∀ o ∈ promoted, o ∈ s.orphans.blocks
  sent : s.answer now e = stored.flatMap (advertsOf s.setup s.config)
  parked : (s.after now e).orphans.contains b.id = true → s.answer now e = []

theorem accept_order {l : Ledger} {pool : OrphanPool} (h : Anchored l pool) (b : Block) :
    (accept l pool b).stored = [] ∨
      ((accept l pool b).orphans.contains b.id = false ∧
        ∃ promoted, (accept l pool b).stored = b :: promoted ∧
          ∀ o ∈ promoted, o ∈ pool.blocks) := by
  cases hk : l.contains b.id || pool.contains b.id with
  | true =>
    rw [accept_held hk]
    exact .inl rfl
  | false =>
    cases hp : l.hasParent b with
    | false =>
      rw [accept_parked hk hp]
      exact .inl rfl
    | true =>
      obtain ⟨hl, ho⟩ := Bool.or_eq_false_iff.mp hk
      have hmem := h.mem_accept_stored hk hp
      refine .inr ⟨OrphanPool.not_contains_iff.mpr fun o hwaits hid => ?_, ?_⟩
      · have hnot := (h.accept b).not_contains_orphan hwaits
        rw [hid, Ledger.contains_of_mem (h.accept b).indexed hmem] at hnot
        exact Bool.noConfusion hnot
      · rw [accept_stored hk hp]
        refine ⟨_, rfl, fun o hpromoted => ?_⟩
        exact (h.walking hl ho).shared.mem_iff.mp (List.mem_append_left _ hpromoted)

theorem accepting?_advertises (ha : Anchored s.ledger s.orphans) {now : Time}
    (h : (s.setTime now).accepting? e = some b) :
    Advertises s now e b ((s.setTime now).acceptance e).stored := by
  have hsent : s.answer now e =
      ((s.setTime now).acceptance e).stored.flatMap (advertsOf s.setup s.config) := by
    rw [answer, handle_accepting h]
    congr 1
    funext c
    exact advertise_snd (s.setTime now) c
  have haccept : (s.setTime now).acceptance e = accept s.ledger s.orphans b := by
    rw [acceptance, h]
    rfl
  refine ⟨?_, ?_, hsent, fun hparked => ?_⟩
  · rw [after, handle_ledger]
    exact acceptance_toList (s := s.setTime now) ha e
  · rw [haccept]
    exact (accept_order ha b).imp_right fun h => h.2
  · rw [after, handle_orphans, haccept] at hparked
    rcases accept_order ha b with hnone | ⟨hnot, -⟩
    · rw [hsent, haccept, hnone]
      rfl
    · exact Bool.noConfusion (hparked.symm.trans hnot)

/-- An event that has no block accepted stores nothing. -/
theorem ledger_of_accepting?_none (h : s.accepting? e = none) :
    (s.handle e).1.ledger = s.ledger := by
  rw [handle_ledger, acceptance, h]

theorem snd_of_accepting?_none (h : s.accepting? e = none) (he : s.accepts e = true) :
    (s.handle e).2 = [] := by
  unfold accepts at he
  split at he
  · rename_i id
    by_cases hr : s.running = true
    · have hmem : .validation id ∈ s.armed := by simpa using he
      have hget : (s.disarm (.validation id)).staging = s.staging := rfl
      have hnone : s.staging.received.get? id = none := by
        simpa [accepting?, hr, hmem] using h
      rw [handle_timerFired hr hmem, onFired, onValidation_snd]
      simp only [hget, hnone]
    · rw [handle_timerFired_idle fun hf => hr hf.1]
  · rw [accepting?] at h
    rw [handle]
    split
    · rename_i hr
      rw [if_pos hr] at h
      cases h
    · rfl
  · exact Bool.noConfusion he

theorem no_inv (he : s.accepts e = false) : ∀ a ∈ (s.handle e).2, a.kind? ≠ some .inv := by
  intro a ha hkind
  have hsends := handle_sends s e a ha .inv hkind
  unfold Event.sends at hsends
  split at hsends
  all_goals try exact absurd hsends (by decide)
  · rename_i id
    have hnot : .validation id ∉ s.armed := by simpa [accepts] using he
    rw [handle_timerFired_idle fun hf => hnot hf.2] at ha
    exact absurd ha List.not_mem_nil
  · exact Bool.noConfusion he

-- ---------------------------------------------------------------------------
-- Runs
-- ---------------------------------------------------------------------------

/-- The advertisements of a run: what it sends as blocks come to their
acceptance, and every announcement that it sends at any other time. -/
def adverts (s : Session) : List (Time × Event) → List Action
  | [] => []
  | (now, e) :: rest =>
    (if (s.setTime now).accepts e then s.answer now e
      else (s.answer now e).filter (·.kind? == some .inv)) ++
      (s.after now e).adverts rest

/-- One step advertises what it stores. -/
theorem Reachable.adverts_step (h : Reachable setup config s) (now : Time) (e : Event) :
    ∃ stored, (s.after now e).ledger.toList = s.ledger.toList ++ stored ∧
      (if (s.setTime now).accepts e then s.answer now e
        else (s.answer now e).filter (·.kind? == some .inv)) =
        stored.flatMap (advertsOf setup config) := by
  have hsound := h.sound
  cases hb : (s.setTime now).accepting? e with
  | none =>
    refine ⟨[], by rw [after, ledger_of_accepting?_none hb]; simp [setTime], ?_⟩
    split
    · rename_i he
      exact snd_of_accepting?_none hb he
    · rename_i he
      refine List.filter_eq_nil_iff.mpr fun a ha => ?_
      simpa using no_inv (Bool.eq_false_iff.mpr he) a ha
  | some b =>
    have hadvertises := accepting?_advertises hsound.anchored hb
    have he : (s.setTime now).accepts e = true := by
      unfold accepting? at hb
      split at hb
      · split at hb
        · rename_i hf
          exact (Bool.and_eq_true_iff.mp hf).2
        · cases hb
      · rfl
      · cases hb
    rw [if_pos he, ← hsound.setup_eq, ← hsound.config_eq]
    exact ⟨_, hadvertises.grown, hadvertises.sent⟩

/-- A run advertises what it stores, in order. -/
theorem Reachable.adverts_eq (h : Reachable setup config s) (events : List (Time × Event)) :
    ∃ stored, (s.afterAll events).ledger.toList = s.ledger.toList ++ stored ∧
      s.adverts events = stored.flatMap (advertsOf setup config) := by
  induction events generalizing s with
  | nil => exact ⟨[], (List.append_nil _).symm, rfl⟩
  | cons x events ih =>
    obtain ⟨now, e⟩ := x
    obtain ⟨stored, hgrown, hsent⟩ := h.adverts_step now e
    obtain ⟨more, hgrown', hsent'⟩ := ih (h.step now e)
    refine ⟨stored ++ more, ?_, ?_⟩
    · rw [← List.append_assoc, ← hgrown]
      exact hgrown'
    · rw [adverts, hsent, hsent', List.flatMap_append]

/-- Advertisements are exactly the growth of the ledger. When a received block is
validated or a block minted, what is sent is the advertisements of what is
stored then; at any other event nothing is stored and nothing announced. From
any state on, and so from the fresh one, each block that is stored is advertised
once to each peer but its origin, and no other is. -/
theorem reachable_advertising (h : Reachable setup config s) :
    (∀ b, (setup.protocol.advert b).encode = .ok (setup.protocol.advert b).frame) ∧
      (∀ now id, .validation id ∈ s.armed → ∃ b stored, s.staging.received.get? id = some b ∧
        b.id = id ∧ Advertises s now (.timerFired (.validation id)) b stored) ∧
      (∀ now b, s.running = true →
        ∃ stored, Advertises s now (.blockMinted b) (b.minted now) stored) ∧
      (∀ now e, s.accepts e = false →
        (s.after now e).ledger = s.ledger ∧ ∀ a ∈ s.answer now e, a.kind? ≠ some .inv) ∧
      (setup.peers.Nodup → ∀ events, ∃ stored,
        (s.afterAll events).ledger.toList = s.ledger.toList ++ stored ∧
        (∀ b ∈ stored, ∀ peer, (s.adverts events).count (advertTo setup config b peer) =
          if peer ∈ setup.peers ∧ some peer ≠ b.origin then 1 else 0) ∧
        ∀ b ∈ s.ledger.toList, ∀ peer,
          (s.adverts events).count (advertTo setup config b peer) = 0) := by
  have ha := h.sound.anchored
  refine ⟨setup.protocol.advert_encode, fun now id hmem => ?_, fun now b hr => ?_,
    fun now e he => ⟨?_, no_inv he⟩, fun hp events => ?_⟩
  · have hreceived := h.strict.validations id hmem
    obtain ⟨b, hb⟩ := Option.isSome_iff_exists.mp hreceived
    have hr := running_of_armed (h.resting ·) hmem
    have haccepting : (s.setTime now).accepting? (.timerFired (.validation id)) = some b := by
      have hc : s.armed.contains (.validation id) = true := by simpa using hmem
      show (if s.running && s.armed.contains (.validation id) then _ else none) = some b
      rw [hr, hc]
      exact hb
    exact ⟨b, _, hb, (h.staged.received id b hb).1, accepting?_advertises ha haccepting⟩
  · exact ⟨_, accepting?_advertises ha (if_pos hr)⟩
  · refine ledger_of_accepting?_none (s := s.setTime now) ?_
    unfold accepting?
    split
    · rename_i id
      have hnot : ¬((s.running && s.armed.contains (.validation id)) = true) := by
        rw [show s.armed.contains (.validation id) = false from he, Bool.and_false]
        exact Bool.false_ne_true
      exact if_neg hnot
    · exact Bool.noConfusion he
    · rfl
  · obtain ⟨stored, hgrown, hsent⟩ := h.adverts_eq events
    have hd := (h.afterAll events).sound.anchored.ledger_distinct
    rw [hgrown, List.map_append, List.nodup_append'] at hd
    refine ⟨stored, hgrown, fun b hb peer => ?_, fun b hb peer => ?_⟩
    · rw [hsent, count_advertsOf hd.2.1 hp hb]
      simp [Setup.receivers]
    · rw [hsent, count_advertsOf_eq_zero fun hmem => hd.2.2 (List.mem_map_of_mem hb) hmem]

/-- A block that comes before its parent waits unadvertised. Once the parent is
stored it is advertised to the peer that did not deliver it, and to no other. -/
theorem reachable_advertising_promoted :
    let setup : Setup := ⟨1, .committer, [2, 3], .standard, .usual, .empty⟩
    let child : Block := { Block.genesis with height := 2, minerId := 5, parentMinerId := 1 }
    let frame := (Envelope.block [child]).frame
    let s := fresh setup .usual
    let events := [(0.0, .start), (1.0, .bytesReceived 2 frame),
      (2.0, .timerFired (.validation ⟨2, 5⟩)),
      (3.0, .blockMinted { Block.genesis with height := 1, minerId := 1 })]
    setup.peers.Nodup ∧ (s.afterAll events).ledger.toList.length = 3 ∧
      ∃ stored, (s.afterAll events).ledger.toList = s.ledger.toList ++ stored ∧
        ∀ b ∈ stored, ∀ peer, (s.adverts events).count (advertTo setup .usual b peer) =
          if peer ∈ setup.peers ∧ some peer ≠ b.origin then 1 else 0 := by
  refine ⟨by decide, by decide +kernel, ?_⟩
  have hfresh : Reachable ⟨1, .committer, [2, 3], .standard, .usual, .empty⟩ .usual _ := .fresh
  obtain ⟨-, -, -, -, hruns⟩ := reachable_advertising hfresh
  obtain ⟨stored, hgrown, honce, -⟩ := hruns (by decide)
    [(0.0, .start), (1.0, .bytesReceived 2 (Envelope.block
        [{ Block.genesis with height := 2, minerId := 5, parentMinerId := 1 }]).frame),
      (2.0, .timerFired (.validation ⟨2, 5⟩)),
      (3.0, .blockMinted { Block.genesis with height := 1, minerId := 1 })]
  exact ⟨stored, hgrown, honce⟩

end Session

end BlockGossip
