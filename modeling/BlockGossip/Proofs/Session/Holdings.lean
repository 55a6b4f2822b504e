import BlockGossip.Proofs.Session.Reachable

/-!
# Where the blocks of a session come from

`Holds P Q` says `P` of every full block that a session holds, stored, orphaned
or received, and `Q` of every bare header. What an event brings in is `Brings`:
the blocks and headers of its messages, and the block it mints. Whatever holds
of the blocks there and of those brought in holds of the blocks there after.
-/

namespace BlockGossip.Session

variable {P Q : Block → Prop} {s t : Session} {peer : NodeId}

-- ---------------------------------------------------------------------------
-- Staged blocks
-- ---------------------------------------------------------------------------

/-- What is staged stands under its own id and has the property of its table. -/
structure Staged (P Q : Block → Prop) (st : Staging) : Prop where
  received : ∀ id b, st.received.get? id = some b → b.id = id ∧ P b
  headers : ∀ id b, st.headers.get? id = some b → b.id = id ∧ Q b

namespace Staged

variable {st : Staging} {b : Block}

theorem empty : Staged P Q .empty where
  received := by simp [Staging.empty]
  headers := by simp [Staging.empty]

theorem stage (h : Staged P Q st) (hb : P b) : Staged P Q (st.stage b).2 := by
  unfold Staging.stage
  split
  · exact h
  · constructor
    · intro id c hc
      rw [Table.get?_insert] at hc
      split at hc
      · rename_i hid
        obtain rfl := Option.some.inj hc
        exact ⟨hid, hb⟩
      · exact h.received id c hc
    · intro id c hc
      rw [Table.get?_erase] at hc
      split at hc
      · cases hc
      · exact h.headers id c hc

theorem recordHeader (h : Staged P Q st) (hb : Q b) : Staged P Q (st.recordHeader b).2 := by
  unfold Staging.recordHeader
  split
  · exact h
  · refine ⟨h.received, fun id c hc => ?_⟩
    rw [Table.get?_insert] at hc
    split at hc
    · rename_i hid
      obtain rfl := Option.some.inj hc
      exact ⟨hid, hb⟩
    · exact h.headers id c hc

theorem take (h : Staged P Q st) (id : BlockId) :
    Staged P Q { st with received := st.received.erase id } := by
  refine ⟨fun i c hc => ?_, h.headers⟩
  rw [Table.get?_erase] at hc
  split at hc
  · cases hc
  · exact h.received i c hc

theorem clearReceived (h : Staged P Q st) : Staged P Q { st with received := .empty } :=
  ⟨fun _ _ hc => (nomatch hc), h.headers⟩

end Staged

-- ---------------------------------------------------------------------------
-- Steps that stage nothing
-- ---------------------------------------------------------------------------

theorem startRequest_staging (peer : NodeId) (s : Session) (id : BlockId) :
    (startRequest peer s id).1.staging = s.staging := armTimer_staging ..

theorem requestBlocks_staging (s : Session) (peer : NodeId) (ids : List BlockId) (full : Bool) :
    (s.requestBlocks peer ids full).1.staging = s.staging := by
  rw [show (s.requestBlocks peer ids full).1.staging = _ from
    congrArg Core.staging (requestBlocks_core s peer ids full)]
  exact foldActions_keeps (I := fun t : Session => t.staging = s.staging)
    (fun t id _ ht => (startRequest_staging peer t id).trans ht) rfl

theorem announced_staging (s : Session) (peer : NodeId) (id : BlockId) :
    (s.announced peer id).2.staging = s.staging :=
  congrArg Core.staging (announced_core s peer id)

theorem announceAll_staging (peer : NodeId) (s : Session) (ids : List BlockId) :
    (announceAll peer s ids).1.staging = s.staging := by
  induction ids generalizing s with
  | nil => rfl
  | cons id ids ih =>
    rw [announceAll_cons]
    split
    · exact ih s
    · exact (ih _).trans (announced_staging s peer id)

theorem onInventoryTimeout_staging (s : Session) (id : BlockId) :
    (s.onInventoryTimeout id).1.staging = s.staging := by
  unfold onInventoryTimeout
  split
  · rfl
  · split
    · rfl
    · exact requestBlocks_staging ..
    · rfl

theorem onNextTransaction_staging (s : Session) : s.onNextTransaction.1.staging = s.staging := by
  rcases onNextTransaction_eq s with h | ⟨t, after, hcore, h⟩
  · rw [h]
  · rw [h, armTimer_staging]
    exact congrArg Core.staging hcore

-- ---------------------------------------------------------------------------
-- Messages
-- ---------------------------------------------------------------------------

/-- The properties hold of the blocks and headers that a message brings in. -/
def Bearing (P Q : Block → Prop) (sender : NodeId) (e : Envelope) : Prop :=
  (e.kind? = some .block → ∀ r ∈ e.blockRecords, ∀ now, P (r.received sender now)) ∧
    (e.kind? = some .headers → ∀ r ∈ e.blockRecords, Q r.header)

theorem noteHeader_staged (h : Staged P Q s.staging) {header : Block} (hq : Q header.header) :
    Staged P Q (noteHeader peer s header).2.staging := by
  rw [noteHeader_eq]
  split
  · exact h.recordHeader hq
  · rw [announced_staging]
    exact h.recordHeader hq

theorem noteHeaders_staged (h : Staged P Q s.staging) {headers : List Block}
    (hq : ∀ r ∈ headers, Q r.header) : Staged P Q (noteHeaders peer s headers).1.staging := by
  induction headers generalizing s with
  | nil => exact h
  | cons header rest ih =>
    have hrest : ∀ r ∈ rest, Q r.header := fun r hr => hq r (List.mem_cons_of_mem _ hr)
    rw [noteHeaders_cons]
    split
    · exact ih h hrest
    · exact ih (noteHeader_staged h (hq header (List.mem_cons_self ..))) hrest

theorem receiveBlock_staged (h : Staged P Q s.staging) {sender : NodeId} {record : Block}
    (hp : P (record.received sender s.now)) :
    Staged P Q (receiveBlock sender s record).1.staging := by
  rw [receiveBlock_eq]
  split
  · exact h
  · rw [armTimer_staging]
    exact h.stage hp

theorem onEnvelope_staged (h : Staged P Q s.staging) {sender : NodeId} {e : Envelope}
    (he : Bearing P Q sender e) : Staged P Q (onEnvelope sender s e).1.staging := by
  have hcore {t : Session} (ht : t.core = s.core) : Staged P Q t.staging := by
    rwa [show t.staging = s.staging from congrArg Core.staging ht]
  unfold onEnvelope
  split
  · exact h
  · unfold onInv
    split
    · exact h
    · rw [requestBlocks_staging, announceAll_staging]
      exact h
  · exact hcore (onGetHeaders_core ..)
  · rename_i hk
    unfold onHeaders
    split
    · exact h
    · rw [requestBlocks_staging]
      exact noteHeaders_staged (s := s.countReceived .headers _) h (he.2 hk)
  · exact hcore (onGetData_core ..)
  · rename_i hk
    unfold onBlock
    split
    · exact h
    · exact foldActions_keeps (I := fun t : Session => Staged P Q t.staging)
        (fun _ r hr ht => receiveBlock_staged ht (he.1 hk r hr _))
        (s := s.countReceived .block _) h
  · exact hcore (onRequestTrans_core ..)
  · exact hcore (onReplyTrans_core ..)
  all_goals exact h

-- ---------------------------------------------------------------------------
-- Events
-- ---------------------------------------------------------------------------

/-- The properties hold of the blocks and headers that an event brings in. -/
def Brings (P Q : Block → Prop) (s : Session) : Event → Prop
  | .bytesReceived sender bytes => ∀ e ∈ (s.frames.feed sender bytes).1, Bearing P Q sender e
  | .blockMinted b => ∀ now, P (b.minted now)
  | _ => True

structure Holds (P Q : Block → Prop) (s : Session) : Prop where
  ledger : ∀ b ∈ s.ledger.toList, P b
  orphans : ∀ b ∈ s.orphans.blocks, P b
  staging : Staged P Q s.staging

theorem fresh_holds (setup : Setup) (config : SessionConfig) (h : P Block.genesis) :
    Holds P Q (.fresh setup config) where
  ledger := by simpa [fresh] using h
  orphans := by simp [fresh, OrphanPool.empty]
  staging := .empty

theorem handle_staged (h : Staged P Q s.staging) {e : Event} (he : s.Brings P Q e) :
    Staged P Q (s.handle e).1.staging := by
  cases e with
  | start =>
    have hcore := onStart_core s
    rwa [handle, show s.onStart.1.staging = s.staging from congrArg Core.staging hcore]
  | stop =>
    cases hr : s.running with
    | false => rwa [handle, onStop_idle hr]
    | true =>
      have hcore := onStop_core hr
      rw [handle, show s.onStop.1.staging = { s.staging with received := .empty } from
        congrArg Core.staging hcore]
      exact h.clearReceived
  | bytesReceived sender bytes =>
    simp only [handle]
    split
    · exact foldActions_keeps (I := fun t : Session => Staged P Q t.staging)
        (fun _ env henv ht => onEnvelope_staged ht (he env henv))
        (s := { s with frames := (s.frames.feed sender bytes).2 }) h
    · exact h
  | blockMinted b =>
    simp only [handle]
    split
    · rwa [show (s.onBlockMinted b).1.staging = s.staging from
        congrArg Core.staging (acceptBlock_core s (b.minted s.now))]
    · exact h
  | timerFired timer =>
    by_cases hf : s.running = true ∧ timer ∈ s.armed
    · rw [handle_timerFired hf.1 hf.2]
      cases timer with
      | inventoryTimeout id => rwa [onFired, onInventoryTimeout_staging]
      | validation id =>
        have hcore := onValidation_core (s.disarm (.validation id)) id
        split at hcore
        · rwa [onFired, show ((s.disarm (.validation id)).onValidation id).1.staging = s.staging
            from congrArg Core.staging hcore]
        · rw [onFired, show ((s.disarm (.validation id)).onValidation id).1.staging =
            { s.staging with received := s.staging.received.erase id } from
            congrArg Core.staging hcore]
          exact h.take id
      | nextTransaction => rwa [onFired, onNextTransaction_staging]
    · rwa [handle_timerFired_idle hf]

/-- The accepted block was received before or is brought in. -/
theorem accepting?_holds (h : Holds P Q s) {e : Event} (he : s.Brings P Q e) {b : Block}
    (hb : s.accepting? e = some b) : P b := by
  unfold accepting? at hb
  split at hb
  · split at hb
    · exact (h.staging.received _ b hb).2
    · cases hb
  · split at hb
    · obtain rfl := Option.some.inj hb
      exact he _
    · cases hb
  · cases hb

theorem handle_holds (ha : Anchored s.ledger s.orphans) (h : Holds P Q s) {e : Event}
    (he : s.Brings P Q e) : Holds P Q (s.handle e).1 := by
  have hall : ∀ c, c ∈ (s.acceptance e).ledger.toList ∨ c ∈ (s.acceptance e).orphans.blocks →
      P c := by
    intro c hc
    unfold acceptance at hc
    cases hb : s.accepting? e with
    | none =>
      rw [hb] at hc
      exact hc.elim (h.ledger c) (h.orphans c)
    | some b =>
      rw [hb, ha.mem_accept] at hc
      rcases hc with hc | hc | ⟨rfl, -⟩
      · exact h.ledger c hc
      · exact h.orphans c hc
      · exact accepting?_holds h he hb
  refine ⟨fun c hc => ?_, fun c hc => ?_, handle_staged h.staging he⟩
  · rw [handle_ledger] at hc
    exact hall c (.inl hc)
  · rw [handle_orphans] at hc
    exact hall c (.inr hc)

end BlockGossip.Session
