import BlockGossip.Proofs.Session.Heard
import BlockGossip.Proofs.Wire.Frames

/-!
# What a session sends

Whatever the event, every frame that a session sends is an encoded envelope of
the kind it is sent as, its blocks are blocks the session has stored and its
headers are headers of such blocks (`handle_tells`). A block that is stored is
announced to every peer but its origin (`handle_announces`).
-/

namespace BlockGossip.Session

variable {l : Ledger} {s : Session} {sender peer : NodeId} {e : Envelope} {ev : Event}

/-- The blocks and headers of a message are those of stored blocks. -/
def Told (l : Ledger) (e : Envelope) : Prop :=
  (e.kind? = some .block → ∀ r ∈ e.blockRecords, r ∈ l.toList) ∧
    (e.kind? = some .headers → ∀ r ∈ e.blockRecords, ∃ b ∈ l.toList, r = b.header)

theorem told_of_kind (kind : MessageKind) (hk : e.kind? = some kind) (hb : kind ≠ .block)
    (hh : kind ≠ .headers) : Told l e := by
  rw [Told, hk]
  exact ⟨fun h => absurd (Option.some.inj h) hb, fun h => absurd (Option.some.inj h) hh⟩

/-- The action sends nothing, or an encoded message of the kind it names. -/
def Tells (l : Ledger) : Action → Prop
  | .send _ kind frame _ => ∃ e : Envelope, e.kind? = some kind ∧ e.encode = .ok frame ∧ Told l e
  | _ => True

theorem sendActions_tells {receivers : List NodeId} {bytes : UInt64} (h : Told l e) :
    ∀ a ∈ sendActions receivers e bytes, Tells l a := by
  unfold sendActions
  split
  · rename_i kind frame hk hencode
    intro a ha
    obtain ⟨receiver, -, rfl⟩ := List.mem_map.mp ha
    exact ⟨e, hk, hencode, h⟩
  · exact nofun

/-- A message that is encoded is sent to each of its receivers. -/
theorem sendActions_eq_map {receivers : List NodeId} {bytes : UInt64} {kind : MessageKind}
    {frame : Bytes} (hk : e.kind? = some kind) (hencode : e.encode = .ok frame) :
    sendActions receivers e bytes = receivers.map fun peer => .send peer kind frame bytes := by
  rw [sendActions, hk, hencode]

theorem mem_sendActions {receivers : List NodeId} {bytes : UInt64} {kind : MessageKind}
    {frame : Bytes} (hk : e.kind? = some kind) (hencode : e.encode = .ok frame)
    (hp : peer ∈ receivers) : .send peer kind frame bytes ∈ sendActions receivers e bytes := by
  rw [sendActions_eq_map hk hencode]
  exact List.mem_map_of_mem hp

theorem sendAll_tells {kind : MessageKind} {receivers : List NodeId} {bytes : UInt64}
    (h : Told l e) : ∀ a ∈ (s.sendAll kind receivers e bytes).2, Tells l a :=
  sendActions_tells h

theorem armTimer_tells (timer : TimerId) (after : Duration) :
    ∀ a ∈ (s.armTimer timer after).2, Tells l a := by
  unfold armTimer
  split <;> simp [Tells]

theorem cancelTimer_tells (timer : TimerId) : ∀ a ∈ (s.cancelTimer timer).2, Tells l a := by
  unfold cancelTimer
  split <;> simp [Tells]

-- ---------------------------------------------------------------------------
-- Requests
-- ---------------------------------------------------------------------------

theorem getHeaders_told (ids : List BlockId) : Told l (Envelope.getHeaders ids) :=
  told_of_kind .getHeaders rfl nofun nofun

theorem getData_told (ids : List BlockId) : Told l (Envelope.getData ids) :=
  told_of_kind .getData rfl nofun nofun

theorem requestBlocks_tells (ids : List BlockId) (full : Bool) :
    ∀ a ∈ (s.requestBlocks peer ids full).2, Tells l a := by
  unfold requestBlocks
  split
  · exact nofun
  · intro a ha
    simp only [List.mem_append] at ha
    rcases ha with (ha | ha) | ha
    · exact (foldActions_induct (I := fun _ => True) (A := Tells l)
        (fun s id _ _ => ⟨trivial, armTimer_tells _ _⟩) trivial).2 a ha
    · cases full with
      | true => exact sendAll_tells (getHeaders_told ids) a ha
      | false => exact absurd ha List.not_mem_nil
    · exact sendAll_tells (getData_told ids) a ha

theorem onInv_tells : ∀ a ∈ (s.onInv sender e).2, Tells l a := by
  unfold onInv
  split
  · exact nofun
  · exact requestBlocks_tells _ _

theorem onHeaders_tells : ∀ a ∈ (s.onHeaders sender e).2, Tells l a := by
  unfold onHeaders
  split
  · exact nofun
  · exact requestBlocks_tells _ _

theorem onInventoryTimeout_tells (id : BlockId) :
    ∀ a ∈ (s.onInventoryTimeout id).2, Tells l a := by
  unfold onInventoryTimeout
  split
  · exact nofun
  · split
    · exact nofun
    · exact requestBlocks_tells _ _
    · exact nofun

-- ---------------------------------------------------------------------------
-- Answers
-- ---------------------------------------------------------------------------

theorem blockKeys_withKeys (kind : MessageKind) (ids : List BlockId) :
    (Envelope.withKeys kind ids).blockKeys = ids.map BlockId.key := by
  cases ids <;> rfl

theorem blockRecords_withRecords (kind : MessageKind) (records : List Block) :
    (Envelope.withRecords kind records).blockRecords = records := by
  cases records <;> rfl

theorem headers_told {headers : List Block} (h : ∀ r ∈ headers, ∃ b ∈ l.toList, r = b.header) :
    Told l (Envelope.headers headers) := by
  refine ⟨nofun, fun _ r hr => h r ?_⟩
  rwa [Envelope.headers, blockRecords_withRecords] at hr

theorem block_told {blocks : List Block} (h : ∀ r ∈ blocks, r ∈ l.toList) :
    Told l (Envelope.block blocks) := by
  refine ⟨fun _ r hr => h r ?_, nofun⟩
  rwa [Envelope.block, blockRecords_withRecords] at hr

theorem onGetHeaders_tells (hl : s.ledger.Indexed) :
    ∀ a ∈ (s.onGetHeaders sender e).2, Tells s.ledger a := by
  unfold onGetHeaders
  simp only
  split
  · exact nofun
  · refine sendAll_tells (headers_told fun r hr => ?_)
    obtain ⟨b, hb, rfl⟩ := List.mem_map.mp hr
    obtain ⟨id, -, hid⟩ := List.mem_filterMap.mp hb
    exact ⟨b, (Ledger.mem_of_get? hl hid).1, rfl⟩

theorem onGetData_tells (hl : s.ledger.Indexed) :
    ∀ a ∈ (s.onGetData sender e).2, Tells s.ledger a := by
  unfold onGetData
  simp only
  split
  · exact nofun
  · refine sendAll_tells (block_told fun r hr => ?_)
    obtain ⟨id, -, hid⟩ := List.mem_filterMap.mp hr
    exact (Ledger.mem_of_get? hl hid).1

-- ---------------------------------------------------------------------------
-- Blocks
-- ---------------------------------------------------------------------------

theorem receiveBlock_tells (record : Block) :
    ∀ a ∈ (receiveBlock sender s record).2, Tells l a := by
  unfold receiveBlock
  simp only
  split
  · exact nofun
  · intro a ha
    rcases List.mem_append.mp ha with ha | ha
    · split at ha
      · exact cancelTimer_tells _ a ha
      · exact absurd ha List.not_mem_nil
    · exact armTimer_tells _ _ a ha

theorem onBlock_tells : ∀ a ∈ (s.onBlock sender e).2, Tells l a := by
  unfold onBlock
  split
  · exact nofun
  · exact (foldActions_induct (I := fun _ => True) (A := Tells l)
      (fun s r _ _ => ⟨trivial, receiveBlock_tells r⟩) trivial).2

theorem advertise_tells {b : Block} (hb : b ∈ l.toList) :
    ∀ a ∈ (s.advertise b).2, Tells l a := by
  unfold advertise
  split
  · exact sendAll_tells (told_of_kind .inv rfl nofun nofun)
  · refine sendAll_tells (headers_told fun r hr => ⟨b, hb, ?_⟩)
    exact List.mem_singleton.mp hr

theorem acceptBlock_tells (ha : Anchored s.ledger s.orphans) (b : Block) :
    ∀ a ∈ (s.acceptBlock b).2, Tells (accept s.ledger s.orphans b).ledger a := by
  intro a hmem
  rw [(acceptBlock_eq s b).2] at hmem
  obtain ⟨c, hc, hmem⟩ := List.mem_flatMap.mp hmem
  refine advertise_tells ?_ a hmem
  rw [ha.accept_toList]
  exact List.mem_append_right _ hc

-- ---------------------------------------------------------------------------
-- Transactions
-- ---------------------------------------------------------------------------

theorem requestTrans_told (transactions : List Transaction) :
    Told l (Envelope.requestTrans transactions) :=
  told_of_kind .requestTrans rfl nofun nofun

theorem replyTrans_told (transactions : List Transaction) :
    Told l (Envelope.replyTrans transactions) :=
  told_of_kind .replyTrans rfl nofun nofun

theorem onRequestTrans_tells : ∀ a ∈ (s.onRequestTrans sender e).2, Tells l a := by
  unfold onRequestTrans
  split
  · exact nofun
  · intro a ha
    rcases List.mem_append.mp ha with ha | ha
    · split at ha
      · exact absurd ha List.not_mem_nil
      · exact sendAll_tells (replyTrans_told _) a ha
    · split at ha
      · exact absurd ha List.not_mem_nil
      · exact sendAll_tells (requestTrans_told _) a ha

theorem onNextTransaction_tells : ∀ a ∈ s.onNextTransaction.2, Tells l a := by
  unfold onNextTransaction
  split
  · exact nofun
  · intro a ha
    rcases List.mem_append.mp ha with ha | ha
    · exact sendAll_tells (requestTrans_told _) a ha
    · exact armTimer_tells _ _ a ha

-- ---------------------------------------------------------------------------
-- Events
-- ---------------------------------------------------------------------------

theorem onEnvelope_tells (hl : s.ledger.Indexed) :
    ∀ a ∈ (onEnvelope sender s e).2, Tells s.ledger a := by
  unfold onEnvelope
  split
  · exact nofun
  · exact onInv_tells
  · exact onGetHeaders_tells hl
  · exact onHeaders_tells
  · exact onGetData_tells hl
  · exact onBlock_tells
  · exact onRequestTrans_tells
  all_goals exact nofun

theorem onBytes_tells (hl : s.ledger.Indexed) (bytes : Bytes) :
    ∀ a ∈ (s.onBytes sender bytes).2, Tells s.ledger a := by
  refine (foldActions_induct (I := fun t : Session => t.ledger = s.ledger) (A := Tells s.ledger)
    (fun t m _ ht => ⟨(onEnvelope_aside sender t m).ledger.trans ht, ?_⟩)
    (s := { s with frames := (s.frames.feed sender bytes).2 }) rfl).2
  rw [← ht]
  exact onEnvelope_tells (ht ▸ hl)

theorem onStart_tells : ∀ a ∈ s.onStart.2, Tells l a := by
  unfold onStart
  split
  · exact nofun
  · simp only
    split
    · exact armTimer_tells _ _
    · exact nofun

theorem onStop_tells : ∀ a ∈ s.onStop.2, Tells l a := by
  unfold onStop
  split
  · exact nofun
  · intro a ha
    obtain ⟨timer, -, rfl⟩ := List.mem_map.mp ha
    exact trivial

/-- The session as a validation finds it: the block has left the received ones. -/
def taking (s : Session) (id : BlockId) : Session := { s with staging := (s.staging.take id).2 }

theorem onValidation_snd (s : Session) (id : BlockId) :
    (s.onValidation id).2 =
      match s.staging.received.get? id with
      | none => []
      | some b => ((s.taking id).acceptBlock b).2 := by
  simp only [onValidation, Staging.take, taking]
  cases s.staging.received.get? id <;> rfl

/-- Every frame that a session sends tells of what it has stored. -/
theorem handle_tells (ha : Anchored s.ledger s.orphans) (e : Event) :
    ∀ a ∈ (s.handle e).2, Tells (s.handle e).1.ledger a := by
  rw [handle_ledger]
  cases e with
  | start => exact onStart_tells
  | stop => exact onStop_tells
  | bytesReceived sender bytes =>
    simp only [handle]
    split
    · exact onBytes_tells ha.indexed bytes
    · exact List.forall_mem_nil _
  | blockMinted b =>
    simp only [handle, acceptance, accepting?]
    split
    · exact acceptBlock_tells ha _
    · exact List.forall_mem_nil _
  | timerFired timer =>
    by_cases hf : s.running = true ∧ timer ∈ s.armed
    · rw [handle_timerFired hf.1 hf.2]
      cases timer with
      | inventoryTimeout id => exact onInventoryTimeout_tells id
      | nextTransaction => exact onNextTransaction_tells
      | validation id =>
        have hc : s.armed.contains (.validation id) = true := by simpa using hf.2
        have hget : (s.disarm (.validation id)).staging = s.staging := rfl
        simp only [onFired, onValidation_snd, hget, acceptance, accepting?, hf.1, hc,
          Bool.and_self, if_true]
        cases s.staging.received.get? id with
        | none => exact List.forall_mem_nil _
        | some b => exact acceptBlock_tells (s := (s.disarm (.validation id)).taking id) ha b
    · rw [handle_timerFired_idle hf]
      exact List.forall_mem_nil _

-- ---------------------------------------------------------------------------
-- Announcements
-- ---------------------------------------------------------------------------

theorem parseKeys_keys (ids : List BlockId) : parseKeys (ids.map BlockId.key) = ids := by
  induction ids with
  | nil => rfl
  | cons id ids ih =>
    rw [List.map_cons, parseKeys, List.filterMap_cons, BlockId.parse_key]
    exact congrArg (id :: ·) ih

/-- A stored block is announced to each peer but its origin, by its key or by
its header; a header announces only where its time crosses the wire. -/
theorem advertise_announces {b : Block} (hp : peer ∈ s.setup.peers) (ho : b.origin ≠ some peer)
    (ht : (Time.reread? b.timestamp).isSome = true) :
    ∃ kind frame bytes, .send peer kind frame bytes ∈ (s.advertise b).2 ∧
      (kind = .inv ∨ kind = .headers) ∧
      ∃ m ∈ (pullAll frame).1, Announces s.setup.protocol m b.id := by
  have hreceiver : peer ∈ s.setup.peers.filter fun p => some p != b.origin := by
    refine List.mem_filter.mpr ⟨hp, ?_⟩
    simpa using Ne.symm ho
  cases hprotocol : s.setup.protocol with
  | standard =>
    obtain ⟨frame, hencode, hread⟩ := Envelope.announce_read b.id
    have hannounces : Announces .standard (Envelope.announce [b.id]) b.id := by
      refine .inl ⟨rfl, ?_⟩
      show b.id ∈ parseKeys ([b.id].map BlockId.key)
      rw [parseKeys_keys]
      exact List.mem_singleton_self _
    refine ⟨.inv, frame, s.charge .inv 1 0, ?_, .inl rfl, _, ?_, hannounces⟩
    · rw [advertise, hprotocol]
      exact mem_sendActions rfl hencode hreceiver
    · rw [hread]
      exact List.mem_singleton_self _
  | sendHeaders =>
    obtain ⟨time, htime⟩ := Option.isSome_iff_exists.mp ht
    obtain ⟨frame, hencode, hread⟩ := Envelope.headers_read htime
    have hannounces : Announces .sendHeaders
        (Envelope.headers [{ b.header with timestamp := time, receivedAt := 0.0, origin := none }])
        b.id := .inr ⟨rfl, rfl, List.mem_singleton_self _⟩
    refine ⟨.headers, frame, s.charge .headers 1 0, ?_, .inr rfl, _, ?_, hannounces⟩
    · rw [advertise, hprotocol]
      exact mem_sendActions rfl hencode hreceiver
    · rw [hread]
      exact List.mem_singleton_self _

/-- An event that has a block accepted sends the advertisements of what it
stores, in order, and nothing else. -/
theorem handle_accepting {c : Block} (h : s.accepting? ev = some c) :
    (s.handle ev).2 = (s.acceptance ev).stored.flatMap fun b => (s.advertise b).2 := by
  have haccept {t : Session} (hs : t.setup = s.setup) (hc : t.config = s.config)
      (hl : t.ledger = s.ledger) (ho : t.orphans = s.orphans) :
      (t.acceptBlock c).2 = (s.acceptance ev).stored.flatMap fun b => (s.advertise b).2 := by
    simp only [(acceptBlock_eq t c).2, acceptance, h, hl, ho]
    congr 1
    funext b
    exact advertise_snd_congr hs hc b
  unfold accepting? at h
  split at h
  · rename_i id
    split at h
    · rename_i hf
      have hf : s.running = true ∧ .validation id ∈ s.armed := by simpa using hf
      rw [handle_timerFired hf.1 hf.2, onFired, onValidation_snd]
      simp only [show (s.disarm (.validation id)).staging = s.staging from rfl, h]
      exact haccept (t := (s.disarm (.validation id)).taking id) rfl rfl rfl rfl
    · cases h
  · split at h
    · rename_i hr
      obtain rfl := Option.some.inj h
      rw [handle, if_pos hr]
      exact haccept rfl rfl rfl rfl
    · cases h
  · cases h

/-- What an event stores it advertises. -/
theorem handle_advertises {b : Block} (hb : b ∈ (s.acceptance ev).stored) :
    ∀ a ∈ (s.advertise b).2, a ∈ (s.handle ev).2 := by
  cases h : s.accepting? ev with
  | none =>
    rw [acceptance, h] at hb
    exact absurd hb List.not_mem_nil
  | some c =>
    intro a ha
    rw [handle_accepting h]
    exact List.mem_flatMap.mpr ⟨b, hb, ha⟩

/-- What an event stores it announces to every peer but the block's origin. -/
theorem handle_announces {b : Block} (hb : b ∈ (s.acceptance ev).stored)
    (hp : peer ∈ s.setup.peers) (ho : b.origin ≠ some peer)
    (ht : (Time.reread? b.timestamp).isSome = true) :
    ∃ kind frame bytes, .send peer kind frame bytes ∈ (s.handle ev).2 ∧
      (kind = .inv ∨ kind = .headers) ∧
      ∃ m ∈ (pullAll frame).1, Announces s.setup.protocol m b.id := by
  obtain ⟨kind, frame, bytes, hsend, hkind, hm⟩ := advertise_announces hp ho ht
  exact ⟨kind, frame, bytes, handle_advertises hb _ hsend, hkind, hm⟩

end BlockGossip.Session
