import BlockGossip.Proofs.Session.Holdings
import BlockGossip.Proofs.Session.Pending

/-!
# What a session has heard of

A block is heard of where it is known or tracked. A running session goes on
knowing what it knows until it stops, and goes on having heard of what it has
heard of until it stops or gives a request up (`handle_known`, `handle_heard`).
Blocks that are received become known, and blocks that are announced heard of.
-/

namespace BlockGossip.Session

variable {s t : Session} {id : BlockId} {peer sender : NodeId}

theorem isKnown_iff :
    s.isKnown id = true ↔
      (s.ledger.contains id = true ∨ s.orphans.contains id = true) ∨
        s.staging.isReceived id = true := by
  simp [isKnown]

/-- The block is known or tracked. -/
def heard (s : Session) (id : BlockId) : Prop :=
  s.isKnown id = true ∨ s.inventory.isTracked id = true

theorem heard_of_core (h : t.core = s.core) : t.heard id ↔ s.heard id := by
  have hi : t.inventory = s.inventory := congrArg Core.inventory h
  rw [heard, heard, isKnown_eq, isKnown_eq, h, hi]

-- ---------------------------------------------------------------------------
-- Announcements
-- ---------------------------------------------------------------------------

theorem heard_startRequest (i : BlockId) : (startRequest peer s i).1.heard id ↔ s.heard id := by
  rw [heard, (startRequest_asking peer s i).isKnown, startRequest, armTimer_inventory,
    Inventory.isTracked_markRequested]
  rfl

theorem heard_requestBlocks (ids : List BlockId) (full : Bool) :
    (s.requestBlocks peer ids full).1.heard id ↔ s.heard id := by
  rw [heard_of_core (requestBlocks_core s peer ids full)]
  exact foldActions_keeps (I := fun t : Session => t.heard id ↔ s.heard id)
    (fun t i _ ht => (heard_startRequest i).trans ht) Iff.rfl

theorem heard_announced (i : BlockId) :
    (s.announced peer i).2.heard id ↔ s.heard id ∨ i = id := by
  have hi : (s.announced peer i).2.inventory = (s.inventory.announce i peer).2 :=
    congrArg Core.inventory (announced_core s peer i)
  rw [heard, (announced_asking s peer i).isKnown, hi, Inventory.isTracked_announce,
    Bool.or_eq_true, decide_eq_true_eq, heard]
  tauto

theorem heard_announceAll (ids : List BlockId) :
    (announceAll peer s ids).1.heard id ↔ s.heard id ∨ id ∈ ids := by
  induction ids generalizing s with
  | nil => simp [announceAll]
  | cons i ids ih =>
    rw [announceAll_cons, List.mem_cons]
    split
    · rename_i hk
      rw [ih]
      constructor
      · tauto
      · rintro (h | rfl | h)
        · exact .inl h
        · exact .inl (.inl hk)
        · exact .inr h
    · simp only
      rw [ih, heard_announced]
      tauto

theorem heard_noteHeader (header : Block) :
    (noteHeader peer s header).2.heard id ↔
      s.heard id ∨ (s.setup.protocol = .sendHeaders ∧ header.id = id) := by
  have hnoting : (s.notingHeader header).heard id ↔ s.heard id := by
    rw [heard, (notingHeader_asking s header).isKnown]
    rfl
  rw [noteHeader_eq]
  split
  · rename_i hp
    simp [hnoting, hp]
  · rename_i hp
    rw [heard_announced, hnoting]
    simp [hp]

theorem heard_noteHeaders (headers : List Block) :
    (noteHeaders peer s headers).1.heard id ↔
      s.heard id ∨ (s.setup.protocol = .sendHeaders ∧ id ∈ headers.map Block.id) := by
  induction headers generalizing s with
  | nil => simp [noteHeaders]
  | cons header rest ih =>
    rw [noteHeaders_cons, List.map_cons, List.mem_cons]
    split
    · rename_i hk
      rw [ih]
      constructor
      · tauto
      · rintro (h | ⟨hp, rfl | h⟩)
        · exact .inl h
        · exact .inl (.inl hk)
        · exact .inr ⟨hp, h⟩
    · simp only
      rw [ih, heard_noteHeader, (noteHeader_asking peer s header).setup]
      constructor
      · rintro ((h | ⟨hp, rfl⟩) | h) <;> tauto
      · rintro (h | ⟨hp, rfl | h⟩) <;> tauto

-- ---------------------------------------------------------------------------
-- Blocks
-- ---------------------------------------------------------------------------

theorem isKnown_receiveBlock (record : Block) :
    (receiveBlock sender s record).1.isKnown id = true ↔ s.isKnown id = true ∨ record.id = id := by
  have haside := receiveBlock_aside sender s record
  rw [isKnown_iff, haside.ledger, haside.orphans, receiveBlock_eq]
  split
  · rename_i hk
    rw [← isKnown_iff]
    constructor
    · exact .inl
    · rintro (h | rfl)
      · exact h
      · exact hk
  · rename_i hk
    have hk : s.isKnown (record.received sender s.now).id = false := Bool.eq_false_iff.mpr hk
    rw [armTimer_staging, isReceived_stage_of_unknown hk, isKnown_iff]
    have hid : (record.received sender s.now).id = record.id := rfl
    rw [hid]
    tauto

theorem heard_receiveBlock (record : Block) :
    (receiveBlock sender s record).1.heard id ↔ s.heard id ∨ record.id = id := by
  rw [heard, isKnown_receiveBlock, receiveBlock_eq]
  split
  · rw [heard]
    tauto
  · rw [armTimer_inventory, isTracked_resolving, Bool.and_eq_true, decide_eq_true_eq, heard]
    tauto

theorem isKnown_receiveBlocks (records : List Block) :
    (foldActions (receiveBlock sender) s records).1.isKnown id = true ↔
      s.isKnown id = true ∨ id ∈ records.map Block.id :=
  foldActions_gains (I := (isKnown · id = true)) (fun _ => isKnown_receiveBlock) s records

theorem heard_receiveBlocks (records : List Block) :
    (foldActions (receiveBlock sender) s records).1.heard id ↔
      s.heard id ∨ id ∈ records.map Block.id :=
  foldActions_gains (I := (heard · id)) (fun _ => heard_receiveBlock) s records

-- ---------------------------------------------------------------------------
-- Messages
-- ---------------------------------------------------------------------------

theorem isKnown_onEnvelope (h : s.isKnown id = true) (e : Envelope) :
    (onEnvelope sender s e).1.isKnown id = true := by
  by_cases hk : e.kind? = some .block
  · rw [onEnvelope_block sender s e hk]
    unfold onBlock
    split
    · exact h
    · exact (isKnown_receiveBlocks _).mpr (.inl h)
  · rwa [(onEnvelope_asking sender s e hk).isKnown]

theorem heard_onEnvelope (h : s.heard id) (e : Envelope) : (onEnvelope sender s e).1.heard id := by
  unfold onEnvelope
  split
  · exact h
  · unfold onInv
    split
    · exact h
    · exact (heard_requestBlocks _ _).mpr ((heard_announceAll _).mpr (.inl h))
  · exact (heard_of_core (onGetHeaders_core ..)).mpr h
  · unfold onHeaders
    split
    · exact h
    · exact (heard_requestBlocks _ _).mpr ((heard_noteHeaders _).mpr (.inl h))
  · exact (heard_of_core (onGetData_core ..)).mpr h
  · unfold onBlock
    split
    · exact h
    · exact (heard_receiveBlocks _).mpr (.inl h)
  · exact (heard_of_core (onRequestTrans_core ..)).mpr h
  · exact (heard_of_core (onReplyTrans_core ..)).mpr h
  all_goals exact h

/-- Received blocks are known. -/
theorem isKnown_of_received {e : Envelope} (hr : s.setup.role.handlesInventory = true)
    (hk : e.kind? = some .block) (hid : id ∈ e.blockRecords.map Block.id) :
    (onEnvelope sender s e).1.isKnown id = true := by
  rw [onEnvelope_block sender s e hk, onBlock_eq s sender e hr]
  exact (isKnown_receiveBlocks _).mpr (.inr hid)

/-- A message announces a block: by its key, or by its header where headers announce. -/
def Announces (protocol : Protocol) (e : Envelope) (id : BlockId) : Prop :=
  (e.kind? = some .inv ∧ id ∈ parseKeys e.inv) ∨
    (e.kind? = some .headers ∧ protocol = .sendHeaders ∧ id ∈ e.blockRecords.map Block.id)

/-- Announced blocks are heard of. -/
theorem heard_of_announced {e : Envelope} (hr : s.setup.role.handlesInventory = true)
    (h : Announces s.setup.protocol e id) : (onEnvelope sender s e).1.heard id := by
  have hn : ¬((!s.setup.role.handlesInventory) = true) := by simp [hr]
  rcases h with ⟨hk, hid⟩ | ⟨hk, hp, hid⟩
  · simp only [onEnvelope, hk, onInv]
    rw [if_neg hn]
    exact (heard_requestBlocks _ _).mpr ((heard_announceAll _).mpr (.inr hid))
  · simp only [onEnvelope, hk, onHeaders]
    rw [if_neg hn]
    exact (heard_requestBlocks _ _).mpr ((heard_noteHeaders _).mpr (.inr ⟨hp, hid⟩))

-- ---------------------------------------------------------------------------
-- Acceptance
-- ---------------------------------------------------------------------------

theorem isKnown_acceptBlock (ha : Anchored s.ledger s.orphans) (b : Block) :
    (s.acceptBlock b).1.isKnown id = true ↔ s.isKnown id = true ∨ b.id = id := by
  have hcore := acceptBlock_core s b
  rw [isKnown_eq, hcore]
  simp only [Core.isKnown, Bool.or_eq_true]
  rw [ha.accept_holds id, isKnown_iff]
  simp only [core]
  tauto

/-- A block that leaves the received ones is held in the ledger or as an orphan. -/
theorem isKnown_onValidation {P Q : Block → Prop} (ha : Anchored s.ledger s.orphans)
    (hs : Staged P Q s.staging) (h : s.isKnown id = true) (i : BlockId) :
    (s.onValidation i).1.isKnown id = true := by
  have hcore := onValidation_core s i
  cases hi : s.staging.received.get? i with
  | none =>
    rw [hi] at hcore
    rwa [isKnown_eq, hcore]
  | some b =>
    rw [hi] at hcore
    have hid := (hs.received i b hi).1
    have hkeep := isReceived_onValidation s i id
    rw [isKnown_iff, hkeep, show (s.onValidation i).1.ledger = _ from congrArg Core.ledger hcore,
      show (s.onValidation i).1.orphans = _ from congrArg Core.orphans hcore, ha.accept_holds]
    rcases isKnown_iff.mp h with (h | h) | h
    · exact .inl (.inl h)
    · exact .inl (.inr (.inl h))
    · by_cases he : i = id
      · exact .inl (.inr (.inr (hid.trans he)))
      · simp [he, h]

-- ---------------------------------------------------------------------------
-- Events
-- ---------------------------------------------------------------------------

/-- The request that an event has the session give up. -/
def abandoned? (s : Session) : Event → Option BlockId
  | .timerFired (.inventoryTimeout id) =>
    if s.running && s.armed.contains (.inventoryTimeout id) && !s.isKnown id &&
        (s.inventory.expire id s.config.maxRequestAttempts).1 == .abandoned then some id
    else none
  | _ => none

theorem isKnown_onBytes (h : s.isKnown id = true) (bytes : Bytes) :
    (s.onBytes sender bytes).1.isKnown id = true :=
  foldActions_keeps (I := (isKnown · id = true)) (fun _ e _ h => isKnown_onEnvelope h e)
    (s := { s with frames := (s.frames.feed sender bytes).2 }) h

theorem heard_onBytes (h : s.heard id) (bytes : Bytes) : (s.onBytes sender bytes).1.heard id :=
  foldActions_keeps (I := (heard · id)) (fun _ e _ h => heard_onEnvelope h e)
    (s := { s with frames := (s.frames.feed sender bytes).2 }) h

theorem isKnown_onTimeout (h : s.isKnown id = true) (i : BlockId) :
    (s.onInventoryTimeout i).1.isKnown id = true := by
  rwa [(onInventoryTimeout_asking s i).isKnown]

/-- A request whose time ran out is heard of still, unless it is given up. -/
theorem heard_onInventoryTimeout (h : s.heard id) {i : BlockId}
    (hi : s.isKnown i = true ∨
      (s.inventory.expire i s.config.maxRequestAttempts).1 ≠ .abandoned ∨ i ≠ id) :
    (s.onInventoryTimeout i).1.heard id := by
  rcases h with h | h
  · exact .inl (isKnown_onTimeout h i)
  have htracked := Inventory.isTracked_expire s.inventory i id s.config.maxRequestAttempts
  unfold onInventoryTimeout
  split
  · rename_i hk
    by_cases he : i = id
    · exact .inl (he ▸ hk)
    · refine .inr ?_
      simp [he, h]
  · rename_i hk
    have hi := hi.resolve_left hk
    split <;> rename_i heq <;> rw [heq] at htracked hi
    · exact .inr (by simpa [h] using htracked)
    · rename_i inventory
      have htracked : inventory.isTracked id = true := by simpa [h] using htracked
      exact (heard_requestBlocks _ _).mpr (.inr htracked)
    · refine .inr (htracked.trans ?_)
      have hne : i ≠ id := by simpa using hi
      simp [h, hne]

theorem isKnown_onNextTransaction (h : s.isKnown id = true) :
    s.onNextTransaction.1.isKnown id = true := by
  rwa [(onNextTransaction_asking s).isKnown]

theorem heard_onNextTransaction (h : s.heard id) : s.onNextTransaction.1.heard id := by
  rcases onNextTransaction_eq s with hs | ⟨t, after, hcore, hs⟩
  · rwa [hs]
  · rw [hs, heard, (armTimer_asking ..).isKnown, armTimer_inventory]
    exact (heard_of_core hcore).mpr h

theorem isKnown_onStart (h : s.isKnown id = true) : s.onStart.1.isKnown id = true := by
  rw [isKnown_eq, onStart_core]
  exact h

theorem heard_onStart (h : s.heard id) : s.onStart.1.heard id := by
  have hi : s.onStart.1.inventory = s.inventory := congrArg Core.inventory (onStart_core s)
  exact h.imp isKnown_onStart fun h => hi ▸ h

section
variable {P Q : Block → Prop} {e : Event}

/-- What a session knows it goes on knowing, unless it stops. -/
theorem handle_known (ha : Anchored s.ledger s.orphans) (hs : Staged P Q s.staging)
    (h : s.isKnown id = true) (he : e ≠ .stop) : (s.handle e).1.isKnown id = true := by
  cases e with
  | start => exact isKnown_onStart h
  | stop => exact absurd rfl he
  | bytesReceived sender bytes =>
    simp only [handle]
    split
    · exact isKnown_onBytes h bytes
    · exact h
  | blockMinted b =>
    simp only [handle]
    split
    · exact (isKnown_acceptBlock ha _).mpr (.inl h)
    · exact h
  | timerFired timer =>
    by_cases hf : s.running = true ∧ timer ∈ s.armed
    · rw [handle_timerFired hf.1 hf.2]
      cases timer with
      | inventoryTimeout i => exact isKnown_onTimeout (s := s.disarm (.inventoryTimeout i)) h i
      | validation i =>
        exact isKnown_onValidation (s := s.disarm (.validation i)) ha hs h i
      | nextTransaction =>
        exact isKnown_onNextTransaction (s := s.disarm .nextTransaction) h
    · rwa [handle_timerFired_idle hf]

/-- What a session has heard of it goes on having heard of, unless it stops or
gives it up. -/
theorem handle_heard (ha : Anchored s.ledger s.orphans) (hs : Staged P Q s.staging)
    (h : s.heard id) (he : e ≠ .stop) (hne : s.abandoned? e ≠ some id) :
    (s.handle e).1.heard id := by
  rcases h with h | h
  · exact .inl (handle_known ha hs h he)
  cases e with
  | start => exact heard_onStart (.inr h)
  | stop => exact absurd rfl he
  | bytesReceived sender bytes =>
    simp only [handle]
    split
    · exact heard_onBytes (.inr h) bytes
    · exact .inr h
  | blockMinted b =>
    simp only [handle]
    split
    · refine .inr ?_
      rwa [show (s.onBlockMinted b).1.inventory = s.inventory from
        congrArg Core.inventory (acceptBlock_core s (b.minted s.now))]
    · exact .inr h
  | timerFired timer =>
    by_cases hf : s.running = true ∧ timer ∈ s.armed
    · rw [handle_timerFired hf.1 hf.2]
      cases timer with
      | inventoryTimeout i =>
        refine heard_onInventoryTimeout (s := s.disarm (.inventoryTimeout i)) (.inr h) ?_
        have hc : s.armed.contains (.inventoryTimeout i) = true := by simpa using hf.2
        simp only [abandoned?, hf.1, hc, Bool.true_and] at hne
        show s.isKnown i = true ∨
          (s.inventory.expire i s.config.maxRequestAttempts).1 ≠ .abandoned ∨ i ≠ id
        by_cases hk : s.isKnown i = true
        · exact .inl hk
        · refine .inr ?_
          by_contra hboth
          rw [not_or, not_not, not_not] at hboth
          obtain ⟨habandoned, rfl⟩ := hboth
          exact hne (by simp [hk, habandoned])
      | validation i =>
        refine .inr ?_
        rwa [onFired, (onValidation_asked _ i).1]
      | nextTransaction => exact heard_onNextTransaction (s := s.disarm .nextTransaction) (.inr h)
    · rw [handle_timerFired_idle hf]
      exact .inr h

/-- Blocks that come in a message are known after it. -/
theorem handle_received (hr : s.running = true) (hrole : s.setup.role.handlesInventory = true)
    {bytes : Bytes} {m : Envelope} (hm : m ∈ (s.frames.feed sender bytes).1)
    (hk : m.kind? = some .block) (hid : id ∈ m.blockRecords.map Block.id) :
    (s.handle (.bytesReceived sender bytes)).1.isKnown id = true := by
  simp only [handle]
  rw [if_pos hr]
  exact foldActions_reaches (I := (isKnown · id = true))
    (J := fun t : Session => t.setup.role.handlesInventory = true) hm
    (fun t y ht => (onEnvelope_aside sender t y).setup ▸ ht)
    (fun _ ht => isKnown_of_received ht hk hid) (fun _ y h => isKnown_onEnvelope h y)
    (s := { s with frames := (s.frames.feed sender bytes).2 }) hrole

/-- Blocks that a message announces are heard of after it. -/
theorem handle_announced (hr : s.running = true) (hrole : s.setup.role.handlesInventory = true)
    {bytes : Bytes} {m : Envelope} (hm : m ∈ (s.frames.feed sender bytes).1)
    (ha : Announces s.setup.protocol m id) :
    (s.handle (.bytesReceived sender bytes)).1.heard id := by
  simp only [handle]
  rw [if_pos hr]
  exact foldActions_reaches (I := (heard · id)) (J := fun t : Session => t.setup = s.setup) hm
    (fun t y ht => (onEnvelope_aside sender t y).setup.trans ht)
    (fun _ ht => heard_of_announced (ht ▸ hrole) (ht ▸ ha)) (fun _ y h => heard_onEnvelope h y)
    (s := { s with frames := (s.frames.feed sender bytes).2 }) rfl

/-- A minted block is known at once. -/
theorem handle_minted (hr : s.running = true) (ha : Anchored s.ledger s.orphans) (b : Block) :
    (s.handle (.blockMinted b)).1.isKnown b.id = true := by
  simp only [handle]
  rw [if_pos hr]
  exact (isKnown_acceptBlock ha _).mpr (.inr rfl)

end

end BlockGossip.Session
