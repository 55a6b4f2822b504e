import BlockGossip.Proofs.Ledger.Acceptance
import BlockGossip.Proofs.Session.Core

/-!
# What each handler changes

Messages change staging, tracker and timers and nothing else of the core
(`Aside`). The ledger and the orphans change only by the acceptance of a
block, when its validation has come or when it is minted: `handle_ledger` and
`handle_orphans`.
-/

namespace BlockGossip.Session

variable {s t u : Session}

-- ---------------------------------------------------------------------------
-- Steps that ask for blocks
-- ---------------------------------------------------------------------------

/-- Of the core only bare headers, tracker and timers may differ. -/
def Asking (s t : Session) : Prop :=
  t.core =
    { s.core with
      staging := ⟨s.staging.received, t.staging.headers⟩
      inventory := t.inventory
      armed := t.armed }

namespace Asking

theorem of_core (h : t.core = s.core) : Asking s t := by
  have hs : t.staging = s.staging := congrArg Core.staging h
  have hi : t.inventory = s.inventory := congrArg Core.inventory h
  have ha : t.armed = s.armed := congrArg Core.armed h
  rw [Asking, h, hs, hi, ha]
  rfl

theorem refl (s : Session) : Asking s s := rfl

theorem received (h : Asking s t) : t.staging.received = s.staging.received :=
  congrArg (fun c => c.staging.received) h

theorem trans (h : Asking s t) (h' : Asking t u) : Asking s u := by
  have hr := h.received
  unfold Asking at h h' ⊢
  rw [h', h, hr]

theorem setup (h : Asking s t) : t.setup = s.setup := congrArg Core.setup h

theorem config (h : Asking s t) : t.config = s.config := congrArg Core.config h

theorem ledger (h : Asking s t) : t.ledger = s.ledger := congrArg Core.ledger h

theorem orphans (h : Asking s t) : t.orphans = s.orphans := congrArg Core.orphans h

theorem frames (h : Asking s t) : t.frames = s.frames := congrArg Core.frames h

theorem running (h : Asking s t) : t.running = s.running := congrArg Core.running h

theorem isReceived (h : Asking s t) (id : BlockId) :
    t.staging.isReceived id = s.staging.isReceived id := by
  rw [Staging.isReceived, h.received]
  rfl

theorem isKnown (h : Asking s t) (id : BlockId) : t.isKnown id = s.isKnown id := by
  rw [Session.isKnown, h.ledger, h.orphans, h.isReceived]
  rfl

theorem foldActions {step : Session → α → Outcome Session}
    (hstep : ∀ s x, Asking s (step s x).1) (s : Session) (xs : List α) :
    Asking s (foldActions step s xs).1 := by
  induction xs generalizing s with
  | nil => exact .refl s
  | cons x xs ih => exact (hstep s x).trans (ih _)

end Asking

theorem armTimer_asking (s : Session) (timer : TimerId) (after : Duration) :
    Asking s (s.armTimer timer after).1 := by
  unfold armTimer
  split <;> rfl

theorem startRequest_asking (peer : NodeId) (s : Session) (id : BlockId) :
    Asking s (startRequest peer s id).1 :=
  Asking.trans (t := { s with inventory := s.inventory.markRequested id peer }) rfl
    (armTimer_asking ..)

theorem requestBlocks_core (s : Session) (peer : NodeId) (ids : List BlockId) (full : Bool) :
    (s.requestBlocks peer ids full).1.core =
      (foldActions (startRequest peer) s ids).1.core := by
  unfold requestBlocks
  split
  · rename_i h
    rw [List.isEmpty_iff.mp h]
    rfl
  · cases full <;> rfl

theorem requestBlocks_asking (s : Session) (peer : NodeId) (ids : List BlockId) (full : Bool) :
    Asking s (s.requestBlocks peer ids full).1 :=
  (Asking.foldActions (startRequest_asking peer) s ids).trans
    (.of_core (requestBlocks_core s peer ids full))

theorem announced_core (s : Session) (peer : NodeId) (id : BlockId) :
    (s.announced peer id).2.core =
      { s.core with inventory := (s.inventory.announce id peer).2 } := by
  unfold announced
  split <;> rename_i h <;> rw [h] <;> rfl

theorem announced_fst (s : Session) (peer : NodeId) (id : BlockId) :
    (s.announced peer id).1 = !s.inventory.isTracked id := by
  have h := Inventory.announce_fst s.inventory id peer
  unfold announced
  split <;> rename_i ho
  all_goals
    rw [ho] at h
    cases ht : s.inventory.isTracked id
    all_goals simp [ht] at h ⊢

theorem announced_asking (s : Session) (peer : NodeId) (id : BlockId) :
    Asking s (s.announced peer id).2 := by
  unfold announced
  split <;> rfl

theorem announceAll_cons (peer : NodeId) (s : Session) (id : BlockId) (ids : List BlockId) :
    announceAll peer s (id :: ids) =
      if s.isKnown id then announceAll peer s ids
      else
        ((announceAll peer (s.announced peer id).2 ids).1,
          if (s.announced peer id).1 then
            id :: (announceAll peer (s.announced peer id).2 ids).2
          else (announceAll peer (s.announced peer id).2 ids).2) := rfl

theorem announceAll_asking (peer : NodeId) (s : Session) (ids : List BlockId) :
    Asking s (announceAll peer s ids).1 := by
  induction ids generalizing s with
  | nil => exact .refl s
  | cons id ids ih =>
    rw [announceAll_cons]
    split
    · exact ih s
    · exact (announced_asking s peer id).trans (ih _)

theorem recordHeader_received (s : Staging) (b : Block) :
    (s.recordHeader b).2.received = s.received := by
  unfold Staging.recordHeader
  split <;> rfl

/-- The session once a header is noted. -/
def notingHeader (s : Session) (header : Block) : Session :=
  { s with staging := (s.staging.recordHeader header.header).2 }

theorem notingHeader_asking (s : Session) (header : Block) : Asking s (s.notingHeader header) := by
  have h := recordHeader_received s.staging header.header
  unfold Asking
  rw [← h]
  rfl

/-- A header is noted, and announces its block where headers announce. -/
theorem noteHeader_eq (peer : NodeId) (s : Session) (header : Block) :
    noteHeader peer s header =
      match s.setup.protocol with
      | .standard => (false, s.notingHeader header)
      | .sendHeaders => (s.notingHeader header).announced peer header.id := rfl

theorem noteHeader_asking (peer : NodeId) (s : Session) (header : Block) :
    Asking s (noteHeader peer s header).2 := by
  rw [noteHeader_eq]
  split
  · exact notingHeader_asking s header
  · exact (notingHeader_asking s header).trans (announced_asking ..)

theorem noteHeaders_cons (peer : NodeId) (s : Session) (header : Block) (rest : List Block) :
    noteHeaders peer s (header :: rest) =
      if s.isKnown header.id then noteHeaders peer s rest
      else
        ((noteHeaders peer (noteHeader peer s header).2 rest).1,
          if (noteHeader peer s header).1 then
            header.id :: (noteHeaders peer (noteHeader peer s header).2 rest).2
          else (noteHeaders peer (noteHeader peer s header).2 rest).2) := rfl

theorem noteHeaders_asking (peer : NodeId) (s : Session) (headers : List Block) :
    Asking s (noteHeaders peer s headers).1 := by
  induction headers generalizing s with
  | nil => exact .refl s
  | cons header rest ih =>
    rw [noteHeaders_cons]
    split
    · exact ih s
    · exact (noteHeader_asking peer s header).trans (ih _)

theorem onInv_asking (s : Session) (sender : NodeId) (e : Envelope) :
    Asking s (s.onInv sender e).1 := by
  unfold onInv
  split
  · exact .refl s
  · exact (Asking.of_core (countReceived_core ..)).trans
      ((announceAll_asking ..).trans (requestBlocks_asking ..))

theorem onHeaders_asking (s : Session) (sender : NodeId) (e : Envelope) :
    Asking s (s.onHeaders sender e).1 := by
  unfold onHeaders
  split
  · exact .refl s
  · exact (Asking.of_core (countReceived_core ..)).trans
      ((noteHeaders_asking ..).trans (requestBlocks_asking ..))

theorem onInventoryTimeout_asking (s : Session) (id : BlockId) :
    Asking s (s.onInventoryTimeout id).1 := by
  unfold onInventoryTimeout
  split
  · rfl
  · split
    · rfl
    · exact Asking.trans (t := { s with inventory := _ }) rfl
        ((Asking.of_core (countTimeout_core _)).trans (requestBlocks_asking ..))
    · rfl

/-- Of the core a new transaction changes the timers alone. -/
theorem onNextTransaction_eq (s : Session) :
    s.onNextTransaction.1 = s ∨ ∃ (t : Session) (after : Duration), t.core = s.core ∧
      s.onNextTransaction.1 = (t.armTimer .nextTransaction after).1 := by
  unfold onNextTransaction
  split
  · exact .inl rfl
  · exact .inr ⟨(Session.sendAll { s with
        pool := (s.pool.create s.now).2
        counted := { s.counted with
          nodeGeneratedTransaction := (s.pool.create s.now).2.generated } }
        .requestTrans s.setup.peers _ _).1, _, rfl, rfl⟩

theorem onNextTransaction_asking (s : Session) : Asking s s.onNextTransaction.1 := by
  rcases onNextTransaction_eq s with h | ⟨t, after, hcore, h⟩
  · rw [h]
    exact .refl s
  · rw [h]
    exact (Asking.of_core hcore).trans (armTimer_asking ..)

-- ---------------------------------------------------------------------------
-- Steps beside the ledger
-- ---------------------------------------------------------------------------

/-- Of the core only staging, tracker and timers may differ. -/
def Aside (s t : Session) : Prop :=
  t.core = { s.core with staging := t.staging, inventory := t.inventory, armed := t.armed }

theorem Asking.aside (h : Asking s t) : Aside s t := by
  have hs : t.staging = ⟨s.staging.received, t.staging.headers⟩ :=
    congrArg Core.staging h
  unfold Asking at h
  unfold Aside
  rw [h, ← hs]

namespace Aside

theorem refl (s : Session) : Aside s s := rfl

theorem of_core (h : t.core = s.core) : Aside s t := (Asking.of_core h).aside

theorem trans (h : Aside s t) (h' : Aside t u) : Aside s u := by
  unfold Aside at h h' ⊢
  rw [h', h]

theorem setup (h : Aside s t) : t.setup = s.setup := congrArg Core.setup h

theorem config (h : Aside s t) : t.config = s.config := congrArg Core.config h

theorem ledger (h : Aside s t) : t.ledger = s.ledger := congrArg Core.ledger h

theorem orphans (h : Aside s t) : t.orphans = s.orphans := congrArg Core.orphans h

theorem frames (h : Aside s t) : t.frames = s.frames := congrArg Core.frames h

theorem running (h : Aside s t) : t.running = s.running := congrArg Core.running h

theorem foldActions {step : Session → α → Outcome Session}
    (hstep : ∀ s x, Aside s (step s x).1) (s : Session) (xs : List α) :
    Aside s (foldActions step s xs).1 := by
  induction xs generalizing s with
  | nil => exact .refl s
  | cons x xs ih => exact (hstep s x).trans (ih _)

end Aside

theorem cancelTimer_aside (s : Session) (timer : TimerId) :
    Aside s (s.cancelTimer timer).1 := by
  unfold cancelTimer
  split <;> rfl

/-- The session once a request for a block has ended. -/
def resolving (s : Session) (id : BlockId) : Session :=
  if s.inventory.isTracked id then
    ({ s with inventory := (s.inventory.resolve id).2 }.cancelTimer (.inventoryTimeout id)).1
  else s

theorem resolving_core (s : Session) (id : BlockId) :
    (s.resolving id).core =
      if s.inventory.isTracked id then
        { s.core with
          inventory := (s.inventory.resolve id).2
          armed := s.armed.erase (.inventoryTimeout id) }
      else s.core := by
  unfold resolving
  split
  · exact cancelTimer_core ..
  · rfl

theorem resolving_staging (s : Session) (id : BlockId) :
    (s.resolving id).staging = s.staging := by
  have h := resolving_core s id
  split at h <;> exact congrArg Core.staging h

theorem isTracked_resolving (s : Session) (id i : BlockId) :
    (s.resolving id).inventory.isTracked i = (decide (id ≠ i) && s.inventory.isTracked i) := by
  have h := resolving_core s id
  split at h
  · have hi : (s.resolving id).inventory = (s.inventory.resolve id).2 :=
      congrArg Core.inventory h
    rw [hi, Inventory.isTracked_resolve]
  · rename_i hid
    have hi : (s.resolving id).inventory = s.inventory := congrArg Core.inventory h
    rw [hi]
    by_cases he : id = i
    · subst he
      simpa using hid
    · simp [he]

/-- Of a block that is known nothing is noted; any other is held, and its
validation awaited. -/
theorem receiveBlock_eq (sender : NodeId) (s : Session) (record : Block) :
    (receiveBlock sender s record).1 =
      if s.isKnown record.id then s
      else
        ({ s.resolving record.id with
            staging := (s.staging.stage (record.received sender s.now)).2 }.armTimer
          (.validation record.id) s.config.validationDelay).1 := by
  unfold receiveBlock
  simp only
  split
  · rfl
  · unfold resolving cancelTimer
    rw [Inventory.resolve_fst_isSome]
    split
    · split <;> rfl
    · rfl

theorem stage_of_unknown {b : Block} (h : s.isKnown b.id = false) :
    (s.staging.stage b).2 = ⟨s.staging.received.insert b.id b, s.staging.headers.erase b.id⟩ := by
  have hr : s.staging.isReceived b.id = false := (Bool.or_eq_false_iff.mp h).2
  simp [Staging.stage, hr]

theorem isReceived_stage_of_unknown {b : Block} (h : s.isKnown b.id = false) (id : BlockId) :
    (s.staging.stage b).2.isReceived id = true ↔
      b.id = id ∨ s.staging.isReceived id = true := by
  rw [stage_of_unknown h]
  by_cases hid : b.id = id <;> simp [Staging.isReceived, Table.contains, hid]

theorem receiveBlock_aside (sender : NodeId) (s : Session) (record : Block) :
    Aside s (receiveBlock sender s record).1 := by
  rw [receiveBlock_eq]
  split
  · exact .refl s
  · refine Aside.trans ?_ (armTimer_asking ..).aside
    refine Aside.trans (t := s.resolving record.id) ?_ rfl
    unfold resolving
    split
    · exact Aside.trans (t := { s with inventory := _ }) rfl (cancelTimer_aside ..)
    · exact .refl s

/-- Blocks are received one after another, once their bytes are counted. -/
theorem onBlock_eq (s : Session) (sender : NodeId) (e : Envelope)
    (h : s.setup.role.handlesInventory = true) :
    s.onBlock sender e =
      foldActions (receiveBlock sender)
        (s.countReceived .block
          (s.charge .block e.blockRecords.length (payloadBytes e.blockRecords)))
        e.blockRecords := by
  simp [onBlock, h]

theorem onBlock_aside (s : Session) (sender : NodeId) (e : Envelope) :
    Aside s (s.onBlock sender e).1 := by
  unfold onBlock
  split
  · exact .refl s
  · exact (Aside.of_core (countReceived_core ..)).trans
      (Aside.foldActions (receiveBlock_aside sender) _ _)

/-- Every message but that of full blocks leaves these as they are. -/
theorem onEnvelope_asking (sender : NodeId) (s : Session) (e : Envelope)
    (h : e.kind? ≠ some .block) : Asking s (onEnvelope sender s e).1 := by
  unfold onEnvelope
  split
  · exact .refl s
  · exact onInv_asking ..
  · exact .of_core (onGetHeaders_core ..)
  · exact onHeaders_asking ..
  · exact .of_core (onGetData_core ..)
  · rename_i hk
    exact absurd hk h
  · exact .of_core (onRequestTrans_core ..)
  · exact .of_core (onReplyTrans_core ..)
  all_goals exact .refl s

theorem onEnvelope_block (sender : NodeId) (s : Session) (e : Envelope)
    (h : e.kind? = some .block) : onEnvelope sender s e = s.onBlock sender e := by
  simp [onEnvelope, h]

theorem onEnvelope_aside (sender : NodeId) (s : Session) (e : Envelope) :
    Aside s (onEnvelope sender s e).1 := by
  by_cases h : e.kind? = some .block
  · rw [onEnvelope_block sender s e h]
    exact onBlock_aside s sender e
  · exact (onEnvelope_asking sender s e h).aside

theorem onBytes_aside (s : Session) (sender : NodeId) (bytes : Bytes) :
    Aside { s with frames := (s.frames.feed sender bytes).2 } (s.onBytes sender bytes).1 :=
  Aside.foldActions (onEnvelope_aside sender) _ _

-- ---------------------------------------------------------------------------
-- Acceptance
-- ---------------------------------------------------------------------------

/-- What is said of a block depends on nothing that storing it changes. -/
theorem advertise_snd_congr (h : t.setup = s.setup) (hc : t.config = s.config) (b : Block) :
    (t.advertise b).2 = (s.advertise b).2 := by
  simp only [advertise, charge, h, hc]
  split <;> rfl

theorem advertiseAll_core (s : Session) (bs : List Block) :
    (foldActions advertise s bs).1.core = s.core := by
  induction bs generalizing s with
  | nil => rfl
  | cons b bs ih => exact (ih _).trans (advertise_core s b)

theorem advertiseAll_snd (s : Session) (bs : List Block) :
    (foldActions advertise s bs).2 = bs.flatMap fun b => (s.advertise b).2 := by
  induction bs generalizing s with
  | nil => rfl
  | cons b bs ih =>
    have hcore := advertise_core s b
    have hrest : (foldActions advertise (s.advertise b).1 bs).2 =
        bs.flatMap fun c => (s.advertise c).2 := by
      rw [ih]
      congr 1
      funext c
      exact advertise_snd_congr (congrArg Core.setup hcore) (congrArg Core.config hcore) c
    rw [foldActions_cons, List.flatMap_cons, hrest]

/-- Accepting a block changes the ledger and the orphans as `accept` says, and
advertises what it stored, in order. -/
theorem acceptBlock_eq (s : Session) (b : Block) :
    (s.acceptBlock b).1.core =
        { s.core with
          ledger := (accept s.ledger s.orphans b).ledger
          orphans := (accept s.ledger s.orphans b).orphans } ∧
      (s.acceptBlock b).2 =
        (accept s.ledger s.orphans b).stored.flatMap fun c => (s.advertise c).2 := by
  unfold acceptBlock
  cases hk : s.ledger.contains b.id || s.orphans.contains b.id with
  | true =>
    rw [accept_held hk]
    exact ⟨rfl, rfl⟩
  | false =>
    obtain ⟨hl, ho⟩ := Bool.or_eq_false_iff.mp hk
    cases hp : s.ledger.hasParent b with
    | false =>
      rw [accept_parked hk hp]
      simp only [Bool.false_eq_true, if_false, Bool.not_false, if_true]
      simp [OrphanPool.add, ho, core]
    | true =>
      rw [accept_stored hk hp, Ledger.add_of_not_contains hl]
      simp only [Bool.false_eq_true, if_false, Bool.not_true]
      refine ⟨?_, ?_⟩
      · rw [advertiseAll_core, foldl_recordStored_core]
        rfl
      · rw [advertiseAll_snd]
        congr 1
        funext c
        have hcore := foldl_recordStored_core
          { s with
            ledger := (promoteOrphans (s.ledger.stored b) s.orphans b).ledger
            orphans := (promoteOrphans (s.ledger.stored b) s.orphans b).orphans }
          (b :: (promoteOrphans (s.ledger.stored b) s.orphans b).promoted)
        exact advertise_snd_congr (congrArg Core.setup hcore) (congrArg Core.config hcore) c

theorem acceptBlock_core (s : Session) (b : Block) :
    (s.acceptBlock b).1.core =
      { s.core with
        ledger := (accept s.ledger s.orphans b).ledger
        orphans := (accept s.ledger s.orphans b).orphans } :=
  (acceptBlock_eq s b).1

/-- The block that an event has the session accept. -/
def accepting? (s : Session) : Event → Option Block
  | .timerFired (.validation id) =>
    if s.running && s.armed.contains (.validation id) then s.staging.received.get? id else none
  | .blockMinted b => if s.running then some (b.minted s.now) else none
  | _ => none

/-- What an event makes of the ledger and the orphans. -/
def acceptance (s : Session) (e : Event) : Acceptance :=
  match s.accepting? e with
  | some b => accept s.ledger s.orphans b
  | none => ⟨s.ledger, s.orphans, []⟩

theorem onValidation_core (s : Session) (id : BlockId) :
    (s.onValidation id).1.core =
      match s.staging.received.get? id with
      | none => s.core
      | some b =>
        { s.core with
          staging := { s.staging with received := s.staging.received.erase id }
          ledger := (accept s.ledger s.orphans b).ledger
          orphans := (accept s.ledger s.orphans b).orphans } := by
  simp only [onValidation, Staging.take]
  cases s.staging.received.get? id with
  | none => rfl
  | some b => exact acceptBlock_core _ b

/-- The session once a timer has left those that run. -/
def disarm (s : Session) (timer : TimerId) : Session := { s with armed := s.armed.erase timer }

@[simp] theorem disarm_core (s : Session) (timer : TimerId) :
    (s.disarm timer).core = { s.core with armed := s.armed.erase timer } := rfl

theorem disarm_aside (s : Session) (timer : TimerId) : Aside s (s.disarm timer) := rfl

/-- What follows once a timer has fired. -/
def onFired (s : Session) : TimerId → Outcome Session
  | .inventoryTimeout id => s.onInventoryTimeout id
  | .validation id => s.onValidation id
  | .nextTransaction => s.onNextTransaction

theorem handle_timerFired (hr : s.running = true) (ht : timer ∈ s.armed) :
    s.handle (.timerFired timer) = (s.disarm timer).onFired timer := by
  have hn : ¬((!s.armed.contains timer) = true) := by simpa using ht
  simp only [handle, onTimer]
  rw [if_pos hr, if_neg hn]
  cases timer <;> rfl

theorem handle_timerFired_idle (h : ¬(s.running = true ∧ timer ∈ s.armed)) :
    s.handle (.timerFired timer) = (s, []) := by
  simp only [handle, onTimer]
  by_cases hr : s.running = true
  · have ht : timer ∉ s.armed := fun ht => h ⟨hr, ht⟩
    simp [ht]
  · rw [if_neg hr]

theorem onStart_core (s : Session) :
    s.onStart.1.core = { s.core with running := true, armed := s.onStart.1.armed } := by
  unfold onStart
  split
  · rename_i hr
    rw [← hr]
    rfl
  · simp only
    split
    · exact armTimer_core ..
    · rfl

theorem onStop_core (hr : s.running = true) :
    s.onStop.1.core =
      { s.core with
        running := false
        armed := []
        inventory := .empty
        staging := { s.staging with received := .empty }
        frames := .empty } := by
  have hn : ¬((!s.running) = true) := by simp [hr]
  simp only [onStop]
  rw [if_neg hn]
  rfl

theorem onStop_idle (hr : s.running = false) : s.onStop = (s, []) := by
  simp [onStop, hr]

/-- What an event does to the settled part of a session: nothing, but for the
acceptance of a block. -/
theorem handle_settled (s : Session) (e : Event) :
    (s.handle e).1.setup = s.setup ∧ (s.handle e).1.config = s.config ∧
      (s.handle e).1.ledger = (s.acceptance e).ledger ∧
      (s.handle e).1.orphans = (s.acceptance e).orphans := by
  have haside {t : Session} (h : Aside s t) : t.setup = s.setup ∧ t.config = s.config ∧
      t.ledger = s.ledger ∧ t.orphans = s.orphans := ⟨h.setup, h.config, h.ledger, h.orphans⟩
  have hcore {t : Session} {a : Acceptance} {staging : Staging} {armed : List TimerId}
      (h : t.core = { s.core with ledger := a.ledger, orphans := a.orphans, staging, armed }) :
      t.setup = s.setup ∧ t.config = s.config ∧ t.ledger = a.ledger ∧
        t.orphans = a.orphans :=
    ⟨congrArg Core.setup h, congrArg Core.config h, congrArg Core.ledger h,
      congrArg Core.orphans h⟩
  cases e with
  | start =>
    have h := onStart_core s
    exact ⟨congrArg Core.setup h, congrArg Core.config h, congrArg Core.ledger h,
      congrArg Core.orphans h⟩
  | stop =>
    cases hr : s.running with
    | false => rw [handle, onStop_idle hr]; exact ⟨rfl, rfl, rfl, rfl⟩
    | true =>
      have h := onStop_core hr
      exact ⟨congrArg Core.setup h, congrArg Core.config h, congrArg Core.ledger h,
        congrArg Core.orphans h⟩
  | bytesReceived sender bytes =>
    simp only [handle]
    split
    · have h := onBytes_aside s sender bytes
      exact ⟨h.setup, h.config, h.ledger, h.orphans⟩
    · exact ⟨rfl, rfl, rfl, rfl⟩
  | blockMinted b =>
    simp only [handle, acceptance, accepting?]
    split
    · exact hcore (acceptBlock_core s (b.minted s.now))
    · exact ⟨rfl, rfl, rfl, rfl⟩
  | timerFired timer =>
    by_cases h : s.running = true ∧ timer ∈ s.armed
    · rw [handle_timerFired h.1 h.2]
      cases timer with
      | inventoryTimeout id =>
        exact haside ((disarm_aside ..).trans (onInventoryTimeout_asking ..).aside)
      | validation id =>
        have hc : s.armed.contains (.validation id) = true := by simpa using h.2
        have h' := onValidation_core (s.disarm (.validation id)) id
        have hget : (s.disarm (.validation id)).staging = s.staging := rfl
        rw [hget] at h'
        simp only [acceptance, accepting?, h.1, hc, Bool.and_self, if_true]
        cases hid : s.staging.received.get? id with
        | none => rw [hid] at h'; exact hcore (a := ⟨s.ledger, s.orphans, []⟩) h'
        | some b => rw [hid] at h'; exact hcore h'
      | nextTransaction =>
        exact haside ((disarm_aside ..).trans (onNextTransaction_asking _).aside)
    · rw [handle_timerFired_idle h]
      cases timer with
      | validation id =>
        have hc : ¬((s.running && s.armed.contains (.validation id)) = true) := by simpa using h
        have hnone : s.acceptance (.timerFired (.validation id)) = ⟨s.ledger, s.orphans, []⟩ := by
          simp only [acceptance, accepting?]
          rw [if_neg hc]
        rw [hnone]
        exact ⟨rfl, rfl, rfl, rfl⟩
      | inventoryTimeout id => exact ⟨rfl, rfl, rfl, rfl⟩
      | nextTransaction => exact ⟨rfl, rfl, rfl, rfl⟩

theorem handle_setup (s : Session) (e : Event) : (s.handle e).1.setup = s.setup :=
  (handle_settled s e).1

theorem handle_config (s : Session) (e : Event) : (s.handle e).1.config = s.config :=
  (handle_settled s e).2.1

theorem handle_ledger (s : Session) (e : Event) :
    (s.handle e).1.ledger = (s.acceptance e).ledger := (handle_settled s e).2.2.1

theorem handle_orphans (s : Session) (e : Event) :
    (s.handle e).1.orphans = (s.acceptance e).orphans := (handle_settled s e).2.2.2

/-- Only a stop ends a session's run. -/
theorem handle_running (hr : s.running = true) {e : Event} (he : e ≠ .stop) :
    (s.handle e).1.running = true := by
  cases e with
  | start => exact congrArg Core.running (onStart_core s)
  | stop => exact absurd rfl he
  | bytesReceived sender bytes =>
    rw [handle, if_pos hr, (onBytes_aside s sender bytes).running]
    exact hr
  | blockMinted b =>
    rw [handle, if_pos hr]
    exact (congrArg Core.running (acceptBlock_core s (b.minted s.now))).trans hr
  | timerFired timer =>
    by_cases ht : timer ∈ s.armed
    · rw [handle_timerFired hr ht]
      cases timer with
      | inventoryTimeout id =>
        exact ((disarm_aside ..).trans (onInventoryTimeout_asking ..).aside).running.trans hr
      | validation id =>
        have hcore := onValidation_core (s.disarm (.validation id)) id
        split at hcore
        · exact (congrArg Core.running hcore).trans hr
        · exact (congrArg Core.running hcore).trans hr
      | nextTransaction =>
        exact ((disarm_aside ..).trans (onNextTransaction_asking _).aside).running.trans hr
    · rwa [handle_timerFired_idle fun h => ht h.2]

end BlockGossip.Session
