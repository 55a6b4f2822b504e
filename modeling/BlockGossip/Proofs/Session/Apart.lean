import BlockGossip.Proofs.Session.Sends
import BlockGossip.Proofs.Session.Synchrony

/-!
# Ids that are apart

What a session has received is neither stored nor an orphan, and what it asks
for, or knows by its header alone, is none of the three. Messages keep it so
because they ask for and note only what is unknown; an acceptance keeps it so
because a received block has left the received ones by then. Only a block that
is minted could share its id with something that is asked for or staged.
-/

namespace BlockGossip.Session

variable {s t u : Session} {id : BlockId} {b : Block} {sender peer : NodeId} {e : Event}

-- ---------------------------------------------------------------------------
-- Ids that are apart
-- ---------------------------------------------------------------------------

/-- A received block is neither stored nor an orphan, and what is asked for, or
known by its header alone, is none of the three. -/
structure Apart (s : Session) : Prop where
  received : ∀ id, s.staging.isReceived id = true →
    s.ledger.contains id = false ∧ s.orphans.contains id = false
  tracked : ∀ id, s.inventory.isTracked id = true → s.isKnown id = false
  headers : ∀ id, s.staging.hasHeader id = true → s.isKnown id = false

theorem fresh_apart (setup : Setup) (config : SessionConfig) : Apart (.fresh setup config) where
  received := nofun
  tracked := nofun
  headers := nofun

/-- Less that is staged or asked for does no harm. -/
theorem Apart.less (h : Apart s) (hl : t.ledger = s.ledger) (ho : t.orphans = s.orphans)
    (hreceived : ∀ id, t.staging.isReceived id = true → s.staging.isReceived id = true)
    (htracked : ∀ id, t.inventory.isTracked id = true → s.inventory.isTracked id = true)
    (hheader : ∀ id, t.staging.hasHeader id = true → s.staging.hasHeader id = true) :
    Apart t := by
  have hunknown (i : BlockId) (hi : s.isKnown i = false) : t.isKnown i = false := by
    rw [← Bool.not_eq_true, isKnown_iff, hl, ho]
    exact fun hknown => Bool.eq_false_iff.mp hi
      (isKnown_iff.mpr (hknown.imp_right (hreceived i)))
  constructor
  · intro i hi
    rw [hl, ho]
    exact h.received i (hreceived i hi)
  · exact fun i hi => hunknown i (h.tracked i (htracked i hi))
  · exact fun i hi => hunknown i (h.headers i (hheader i hi))

/-- A step that asks for blocks, or notes their headers, where they are unknown. -/
structure Wary (s t : Session) : Prop where
  asking : Asking s t
  tracked : ∀ id, t.inventory.isTracked id = true →
    s.inventory.isTracked id = true ∨ s.isKnown id = false
  headers : ∀ id, t.staging.hasHeader id = true →
    s.staging.hasHeader id = true ∨ s.isKnown id = false

namespace Wary

theorem of_core (h : t.core = s.core) : Wary s t where
  asking := .of_core h
  tracked id hid := .inl (by rwa [← show t.inventory = s.inventory from congrArg Core.inventory h])
  headers id hid := .inl (by rwa [← show t.staging = s.staging from congrArg Core.staging h])

theorem refl (s : Session) : Wary s s := .of_core rfl

theorem trans (h : Wary s t) (h' : Wary t u) : Wary s u where
  asking := h.asking.trans h'.asking
  tracked id hid := by
    rcases h'.tracked id hid with hid | hid
    · exact h.tracked id hid
    · exact .inr ((h.asking.isKnown id).symm.trans hid)
  headers id hid := by
    rcases h'.headers id hid with hid | hid
    · exact h.headers id hid
    · exact .inr ((h.asking.isKnown id).symm.trans hid)

theorem apart (h : Wary s t) (ha : Apart s) : Apart t where
  received id hid := by
    rw [h.asking.ledger, h.asking.orphans]
    exact ha.received id ((h.asking.isReceived id).symm.trans hid)
  tracked id hid := by
    rw [h.asking.isKnown]
    exact (h.tracked id hid).elim (ha.tracked id) fun h => h
  headers id hid := by
    rw [h.asking.isKnown]
    exact (h.headers id hid).elim (ha.headers id) fun h => h

end Wary

-- ---------------------------------------------------------------------------
-- Steps that ask for blocks
-- ---------------------------------------------------------------------------

theorem startRequest_wary (peer : NodeId) (s : Session) (id : BlockId) :
    Wary s (startRequest peer s id).1 where
  asking := startRequest_asking peer s id
  tracked i hi := by
    rw [startRequest, armTimer_inventory, Inventory.isTracked_markRequested] at hi
    exact .inl hi
  headers i hi := by
    rw [startRequest_staging] at hi
    exact .inl hi

theorem requestBlocks_wary (s : Session) (peer : NodeId) (ids : List BlockId) (full : Bool) :
    Wary s (s.requestBlocks peer ids full).1 :=
  Wary.trans (t := (foldActions (startRequest peer) s ids).1)
    (foldActions_keeps (I := Wary s) (fun t id _ ht => ht.trans (startRequest_wary peer t id))
      (.refl s))
    (.of_core (requestBlocks_core s peer ids full))

theorem announced_wary (hk : s.isKnown id = false) (peer : NodeId) :
    Wary s (s.announced peer id).2 where
  asking := announced_asking s peer id
  tracked i hi := by
    rw [show (s.announced peer id).2.inventory = (s.inventory.announce id peer).2 from
      congrArg Core.inventory (announced_core s peer id), Inventory.isTracked_announce,
      Bool.or_eq_true, decide_eq_true_eq] at hi
    rcases hi with rfl | hi
    · exact .inr hk
    · exact .inl hi
  headers i hi := by
    rw [announced_staging] at hi
    exact .inl hi

theorem announceAll_wary (peer : NodeId) (s : Session) (ids : List BlockId) :
    Wary s (announceAll peer s ids).1 := by
  induction ids generalizing s with
  | nil => exact .refl s
  | cons id ids ih =>
    rw [announceAll_cons]
    split
    · exact ih s
    · rename_i hk
      exact (announced_wary (Bool.eq_false_iff.mpr hk) peer).trans (ih _)

theorem notingHeader_wary {header : Block} (hk : s.isKnown header.id = false) :
    Wary s (s.notingHeader header) where
  asking := notingHeader_asking s header
  tracked _ hi := .inl hi
  headers i hi := by
    change (s.staging.recordHeader header.header).2.hasHeader i = true at hi
    unfold Staging.recordHeader at hi
    split at hi
    · exact .inl hi
    · by_cases he : header.id = i
      · exact .inr (he ▸ hk)
      · have hne : header.header.id ≠ i := he
        refine .inl ?_
        simpa [Staging.hasHeader, Table.contains, hne] using hi

theorem noteHeader_wary {header : Block} (hk : s.isKnown header.id = false) (peer : NodeId) :
    Wary s (noteHeader peer s header).2 := by
  have hnoting := notingHeader_wary hk
  rw [noteHeader_eq]
  split
  · exact hnoting
  · exact hnoting.trans (announced_wary ((hnoting.asking.isKnown _).trans hk) peer)

theorem noteHeaders_wary (peer : NodeId) (s : Session) (headers : List Block) :
    Wary s (noteHeaders peer s headers).1 := by
  induction headers generalizing s with
  | nil => exact .refl s
  | cons header rest ih =>
    rw [noteHeaders_cons]
    split
    · exact ih s
    · rename_i hk
      exact (noteHeader_wary (Bool.eq_false_iff.mpr hk) peer).trans (ih _)

/-- Every message but that of full blocks is taken warily. -/
theorem onEnvelope_wary (sender : NodeId) (s : Session) {m : Envelope} (h : m.kind? ≠ some .block) :
    Wary s (onEnvelope sender s m).1 := by
  unfold onEnvelope
  split
  · exact .refl s
  · unfold onInv
    split
    · exact .refl s
    · exact (Wary.of_core (countReceived_core ..)).trans
        ((announceAll_wary ..).trans (requestBlocks_wary ..))
  · exact .of_core (onGetHeaders_core ..)
  · unfold onHeaders
    split
    · exact .refl s
    · exact (Wary.of_core (countReceived_core ..)).trans
        ((noteHeaders_wary ..).trans (requestBlocks_wary ..))
  · exact .of_core (onGetData_core ..)
  · rename_i hk
    exact absurd hk h
  · exact .of_core (onRequestTrans_core ..)
  · exact .of_core (onReplyTrans_core ..)
  all_goals exact .refl s

/-- A tracker that follows fewer ids does no harm. -/
theorem Wary.of_inventory {inventory : Inventory BlockId}
    (h : ∀ id, inventory.isTracked id = true → s.inventory.isTracked id = true) :
    Wary s { s with inventory } where
  asking := rfl
  tracked id hid := .inl (h id hid)
  headers _ hid := .inl hid

/-- Ending, retrying and giving up a request track nothing new. -/
theorem onInventoryTimeout_wary (s : Session) (id : BlockId) :
    Wary s (s.onInventoryTimeout id).1 := by
  have hexpire (i : BlockId) := Inventory.isTracked_expire s.inventory id i
    s.config.maxRequestAttempts
  unfold onInventoryTimeout
  split
  · refine .of_inventory fun i hi => ?_
    rw [Inventory.isTracked_resolve] at hi
    exact (Bool.and_eq_true_iff.mp hi).2
  · split <;> rename_i inventory heq <;> rw [heq] at hexpire
    all_goals
      have hexpired : Wary s { s with inventory } :=
        .of_inventory fun i hi => (Bool.and_eq_true_iff.mp ((hexpire i).symm.trans hi)).1
    · exact hexpired
    · exact hexpired.trans ((Wary.of_core (countTimeout_core _)).trans (requestBlocks_wary ..))
    · exact hexpired.trans (.of_core (countTimeout_core _))

theorem onNextTransaction_wary (s : Session) : Wary s s.onNextTransaction.1 where
  asking := onNextTransaction_asking s
  tracked i hi := by
    rcases onNextTransaction_eq s with h | ⟨t, after, hcore, h⟩
    · rw [h] at hi
      exact .inl hi
    · rw [h, armTimer_inventory, show t.inventory = s.inventory from
        congrArg Core.inventory hcore] at hi
      exact .inl hi
  headers i hi := by
    rw [onNextTransaction_staging] at hi
    exact .inl hi

-- ---------------------------------------------------------------------------
-- Steps that receive and accept
-- ---------------------------------------------------------------------------

theorem hasHeader_stage_of_unknown (h : s.isKnown b.id = false) (id : BlockId) :
    (s.staging.stage b).2.hasHeader id = true ↔ b.id ≠ id ∧ s.staging.hasHeader id = true := by
  rw [stage_of_unknown h]
  by_cases hid : b.id = id <;> simp [Staging.hasHeader, Table.contains, hid]

theorem receiveBlock_apart (h : Apart s) (sender : NodeId) (record : Block) :
    Apart (receiveBlock sender s record).1 := by
  have haside := receiveBlock_aside sender s record
  cases hk : s.isKnown record.id with
  | true =>
    rw [receiveBlock_known hk]
    exact h
  | false =>
    have hstaging : (receiveBlock sender s record).1.staging =
        (s.staging.stage (record.received sender s.now)).2 := by
      rw [receiveBlock_eq, hk, if_neg Bool.false_ne_true, armTimer_staging]
    have hinventory : (receiveBlock sender s record).1.inventory =
        (s.resolving record.id).inventory := by
      rw [receiveBlock_eq, hk, if_neg Bool.false_ne_true, armTimer_inventory]
    -- An id that is still unknown is another one than that of the block.
    have hunknown (i : BlockId) (hne : record.id ≠ i) (hi : s.isKnown i = false) :
        (receiveBlock sender s record).1.isKnown i = false := by
      rw [← Bool.not_eq_true, isKnown_receiveBlock]
      exact fun hknown => hknown.elim (Bool.eq_false_iff.mp hi) hne
    have hk' : s.isKnown (record.received sender s.now).id = false := hk
    constructor
    · intro i hi
      rw [hstaging, isReceived_stage_of_unknown hk'] at hi
      rw [haside.ledger, haside.orphans]
      rcases hi with rfl | hi
      · exact Bool.or_eq_false_iff.mp (Bool.or_eq_false_iff.mp hk).1
      · exact h.received i hi
    · intro i hi
      rw [hinventory, isTracked_resolving, Bool.and_eq_true, decide_eq_true_eq] at hi
      exact hunknown i hi.1 (h.tracked i hi.2)
    · intro i hi
      rw [hstaging, hasHeader_stage_of_unknown hk'] at hi
      exact hunknown i hi.1 (h.headers i hi.2)

/-- Nothing of the id is asked for or staged. -/
structure Vacant (s : Session) (id : BlockId) : Prop where
  tracked : s.inventory.isTracked id = false
  received : s.staging.isReceived id = false
  header : s.staging.hasHeader id = false

/-- A block that is accepted while nothing else of it is about keeps ids apart. -/
theorem acceptBlock_apart (ha : Anchored s.ledger s.orphans) (h : Apart s) (hb : s.Vacant b.id) :
    Apart (s.acceptBlock b).1 := by
  have hcore := acceptBlock_core s b
  have hstaging : (s.acceptBlock b).1.staging = s.staging := congrArg Core.staging hcore
  have hinventory : (s.acceptBlock b).1.inventory = s.inventory := congrArg Core.inventory hcore
  have hunknown (i : BlockId) (hne : b.id ≠ i) (hi : s.isKnown i = false) :
      (s.acceptBlock b).1.isKnown i = false := by
    rw [← Bool.not_eq_true, isKnown_acceptBlock ha]
    exact fun hknown => hknown.elim (Bool.eq_false_iff.mp hi) hne
  constructor
  · intro i hi
    rw [hstaging] at hi
    have hne : b.id ≠ i := fun he => Bool.noConfusion (hb.received.symm.trans (he ▸ hi))
    obtain ⟨hl, ho⟩ := h.received i hi
    rw [show (s.acceptBlock b).1.ledger = _ from congrArg Core.ledger hcore,
      show (s.acceptBlock b).1.orphans = _ from congrArg Core.orphans hcore]
    have hheld := not_congr (ha.accept_holds (b := b) i)
    simpa [hl, ho, hne] using hheld
  · intro i hi
    rw [hinventory] at hi
    have hne : b.id ≠ i := fun he => Bool.noConfusion (hb.tracked.symm.trans (he ▸ hi))
    exact hunknown i hne (h.tracked i hi)
  · intro i hi
    rw [hstaging] at hi
    have hne : b.id ≠ i := fun he => Bool.noConfusion (hb.header.symm.trans (he ▸ hi))
    exact hunknown i hne (h.headers i hi)

/-- Once a received block is taken, nothing of it is about. -/
theorem taking_apart (h : Apart s) (hb : s.staging.received.get? id = some b) :
    Apart (s.taking id) ∧ (s.taking id).Vacant id := by
  have hreceived : s.staging.isReceived id = true := by
    rw [Staging.isReceived, Table.contains, hb]
    rfl
  have hknown : s.isKnown id = true := isKnown_iff.mpr (.inr hreceived)
  have hsub (i : BlockId) (hi : (s.taking id).staging.isReceived i = true) :
      id ≠ i ∧ s.staging.isReceived i = true := by
    by_cases he : id = i <;>
      simp_all [taking, Staging.take, Staging.isReceived, Table.contains]
  refine ⟨h.less rfl rfl (fun i hi => (hsub i hi).2) (fun _ hi => hi) fun _ hi => hi, ?_, ?_, ?_⟩
  · exact Bool.eq_false_iff.mpr fun hi => Bool.noConfusion ((h.tracked id hi).symm.trans hknown)
  · exact Bool.eq_false_iff.mpr fun hi => (hsub id hi).1 rfl
  · exact Bool.eq_false_iff.mpr fun hi => Bool.noConfusion ((h.headers id hi).symm.trans hknown)

theorem onValidation_eq (hb : s.staging.received.get? id = some b) :
    s.onValidation id = (s.taking id).acceptBlock b := by
  simp only [onValidation, Staging.take, taking, hb]

theorem onValidation_apart (ha : Anchored s.ledger s.orphans)
    (hs : Staged (fun _ => True) (fun _ => True) s.staging) (h : Apart s) (id : BlockId) :
    Apart (s.onValidation id).1 := by
  cases hb : s.staging.received.get? id with
  | none =>
    have hcore := onValidation_core s id
    rw [hb] at hcore
    exact (Wary.of_core hcore).apart h
  | some b =>
    obtain ⟨htaking, hvacant⟩ := taking_apart h hb
    rw [onValidation_eq hb]
    refine acceptBlock_apart (s := s.taking id) ha htaking ?_
    rwa [(hs.received id b hb).1]

-- ---------------------------------------------------------------------------
-- Events
-- ---------------------------------------------------------------------------

/-- The event mints no block whose id is asked for or staged. -/
def Admits (s : Session) : Event → Prop
  | .blockMinted b => s.Vacant b.id
  | _ => True

theorem onEnvelope_apart (sender : NodeId) (h : Apart s) (m : Envelope) :
    Apart (onEnvelope sender s m).1 := by
  by_cases hk : m.kind? = some .block
  · rw [onEnvelope_block sender s m hk]
    unfold onBlock
    split
    · exact h
    · exact foldActions_keeps (I := Apart) (fun t r _ ht => receiveBlock_apart ht sender r)
        ((Wary.of_core (countReceived_core ..)).apart h)
  · exact (onEnvelope_wary sender s hk).apart h

theorem handle_apart (ha : Anchored s.ledger s.orphans)
    (hs : Staged (fun _ => True) (fun _ => True) s.staging) (h : Apart s) (he : s.Admits e) :
    Apart (s.handle e).1 := by
  cases e with
  | start =>
    have hcore := onStart_core s
    have hs : s.onStart.1.staging = s.staging := congrArg Core.staging hcore
    have hi : s.onStart.1.inventory = s.inventory := congrArg Core.inventory hcore
    exact h.less (congrArg Core.ledger hcore) (congrArg Core.orphans hcore)
      (fun id hid => hs ▸ hid) (fun id hid => hi ▸ hid) fun id hid => hs ▸ hid
  | stop =>
    cases hr : s.running with
    | false => rwa [handle, onStop_idle hr]
    | true =>
      have hcore := onStop_core hr
      have hrest := onStop_resting hr
      have hs : s.onStop.1.staging = { s.staging with received := .empty } :=
        congrArg Core.staging hcore
      refine h.less (congrArg Core.ledger hcore) (congrArg Core.orphans hcore) ?_ ?_ ?_
      · rw [handle, hs]
        intro id hid
        cases hid
      · rw [handle, hrest.inventory]
        intro id hid
        cases hid
      · rw [handle, hs]
        exact fun _ hid => hid
  | bytesReceived sender bytes =>
    simp only [handle]
    split
    · exact foldActions_keeps (I := Apart) (fun t m _ ht => onEnvelope_apart sender ht m)
        (s := { s with frames := (s.frames.feed sender bytes).2 })
        ⟨h.received, h.tracked, h.headers⟩
    · exact h
  | blockMinted b =>
    simp only [handle]
    split
    · exact acceptBlock_apart ha h he
    · exact h
  | timerFired timer =>
    by_cases hf : s.running = true ∧ timer ∈ s.armed
    · have hdisarm : Apart (s.disarm timer) := ⟨h.received, h.tracked, h.headers⟩
      rw [handle_timerFired hf.1 hf.2]
      cases timer with
      | inventoryTimeout id => exact (onInventoryTimeout_wary _ id).apart hdisarm
      | validation id =>
        exact onValidation_apart (s := s.disarm (.validation id)) ha hs hdisarm id
      | nextTransaction => exact (onNextTransaction_wary _).apart hdisarm
    · rwa [handle_timerFired_idle hf]

end BlockGossip.Session
