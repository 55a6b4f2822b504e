import BlockGossip.Proofs.Session.Requests
import BlockGossip.Proofs.Session.Spending

/-!
# Turns

A session takes one turn for each message that bytes complete, and one for any
other event. What a turn does to the tracker is said once (`Turned`): the
sender of a message announces some blocks and is asked for those that nobody
was asked for yet; the request for one block is repeated when its time has run
out; and every other turn asks for nothing and at most forgets.
-/

namespace BlockGossip

inductive Cause where
  | message (sender : NodeId) (e : Envelope)
  | event (e : Event)

/-- What a session found, what it took a turn for, and what that led to. -/
structure Turn where
  found : Session
  cause : Cause
  outcome : Outcome Session

-- ---------------------------------------------------------------------------
-- The tracker, one block at a time
-- ---------------------------------------------------------------------------

namespace InventoryEntry

/-- The announcer that a repeated request goes to: the first not asked yet. -/
def next? (limit : UInt32) (e : InventoryEntry) : Option NodeId :=
  if e.attempts < limit then e.announcers[e.attempts.toNat]? else none

/-- The entry once a peer has announced its item, for the first time or again. -/
def heardFrom (peer : NodeId) (e : InventoryEntry) : InventoryEntry :=
  if peer ∈ e.announcers then e else e.announcedBy peer

/-- The entry of an item that one peer has announced and nobody was asked for. -/
def new (peer : NodeId) : InventoryEntry := ⟨[peer], none, 0, false⟩

theorem heardFrom_heardFrom (peer : NodeId) (e : InventoryEntry) :
    (e.heardFrom peer).heardFrom peer = e.heardFrom peer := by
  by_cases h : peer ∈ e.announcers <;> simp [heardFrom, announcedBy, h]

theorem heardFrom_new (peer : NodeId) : (new peer).heardFrom peer = new peer :=
  if_pos (List.mem_singleton_self _)

end InventoryEntry

namespace Inventory

variable {inv : Inventory BlockId} {k i : BlockId} {peer : NodeId} {entry : InventoryEntry}
  {known : BlockId → Bool} {ks : List BlockId} {limit : UInt32}

theorem get?_insert (inv : Inventory BlockId) (k : BlockId) (entry : InventoryEntry)
    (i : BlockId) :
    get? ⟨inv.entries.insert k entry⟩ i = if k = i then some entry else inv.get? i :=
  Table.get?_insert ..

theorem get?_announce_eq (inv : Inventory BlockId) (k : BlockId) (peer : NodeId) (i : BlockId) :
    (inv.announce k peer).2.get? i =
      if k = i then some ((inv.get? i).elim (.new peer) (·.heardFrom peer)) else inv.get? i := by
  cases hk : inv.get? k with
  | none =>
    rw [announce_new hk, get?_insert]
    by_cases hi : k = i
    · subst hi
      simp [hk, InventoryEntry.new]
    · simp [hi]
  | some entry =>
    rw [announce_tracked hk]
    by_cases hp : peer ∈ entry.announcers <;> by_cases hi : k = i <;>
      simp_all [InventoryEntry.heardFrom, get?_insert]

/-- What a peer announces reaches the entries of the unknown items. -/
theorem get?_announceEach (known : BlockId → Bool) (peer : NodeId) (inv : Inventory BlockId)
    (ks : List BlockId) (i : BlockId) :
    (announceEach known peer inv ks).1.get? i =
      if i ∈ ks ∧ known i = false then some ((inv.get? i).elim (.new peer) (·.heardFrom peer))
      else inv.get? i := by
  induction ks generalizing inv with
  | nil => simp [announceEach]
  | cons k ks ih =>
    cases hk : known k with
    | true =>
      rw [announceEach_known hk, ih]
      by_cases hi : i = k
      · subst hi
        simp [hk]
      · simp [hi]
    | false =>
      rw [announceEach_unknown hk]
      simp only [ih, get?_announce_eq]
      by_cases hi : k = i
      · subst hi
        cases hget : inv.get? k with
        | none => simp [hk, InventoryEntry.heardFrom_new]
        | some entry => simp [hk, InventoryEntry.heardFrom_heardFrom]
      · simp [hi, Ne.symm hi]

/-- To be requested are the unknown items that were not tracked yet. -/
theorem mem_announceEach (known : BlockId → Bool) (peer : NodeId) (inv : Inventory BlockId)
    (ks : List BlockId) (i : BlockId) :
    i ∈ (announceEach known peer inv ks).2 ↔
      (i ∈ ks ∧ known i = false) ∧ inv.get? i = none := by
  induction ks generalizing inv with
  | nil => simp [announceEach]
  | cons k ks ih =>
    cases hk : known k with
    | true =>
      rw [announceEach_known hk, ih]
      by_cases hi : i = k
      · subst hi
        simp [hk]
      · simp [hi]
    | false =>
      have hrest := ih (inv.announce k peer).2
      rw [get?_announce_eq] at hrest
      rw [announceEach_unknown hk]
      by_cases hi : k = i
      · subst hi
        cases hget : inv.get? k with
        | none => simp [hk, isTracked, Table.contains, show inv.entries.get? k = none from hget]
        | some entry =>
          simp [hrest, isTracked, Table.contains, show inv.entries.get? k = some entry from hget]
      · rw [if_neg hi] at hrest
        cases inv.isTracked k <;> simp [hrest, Ne.symm hi]

theorem get?_markRequested_eq (inv : Inventory BlockId) (k : BlockId) (peer : NodeId)
    (i : BlockId) : (inv.markRequested k peer).get? i =
      if k = i then (inv.get? i).map (·.requested peer) else inv.get? i := by
  cases hk : inv.get? k with
  | none =>
    rw [markRequested, hk]
    by_cases hi : k = i
    · subst hi
      simp [hk]
    · simp [hi]
  | some entry =>
    rw [markRequested_tracked hk, get?_insert]
    by_cases hi : k = i
    · subst hi
      simp [hk]
    · simp [hi]

theorem get?_markEach (inv : Inventory BlockId) (hd : ks.Nodup) (peer : NodeId) (i : BlockId) :
    (ks.foldl (·.markRequested · peer) inv).get? i =
      if i ∈ ks then (inv.get? i).map (·.requested peer) else inv.get? i := by
  induction ks generalizing inv with
  | nil => simp
  | cons k ks ih =>
    obtain ⟨hk, hd⟩ := List.nodup_cons.mp hd
    rw [List.foldl_cons, ih _ hd, get?_markRequested_eq]
    by_cases hi : k = i
    · subst hi
      simp [hk]
    · simp [hi, Ne.symm hi]

theorem expire_tracked (h : inv.get? k = some entry) (limit : UInt32) :
    inv.expire k limit =
      match entry.next? limit with
      | some peer => (.retry peer, ⟨inv.entries.insert k { entry with timerArmed := false }⟩)
      | none => (.abandoned, (inv.resolve k).2) := by
  simp only [expire, h, InventoryEntry.next?]
  cases entry.announcers[entry.attempts.toNat]? with
  | none => by_cases hl : entry.attempts < limit <;> simp [hl, resolve]
  | some peer => by_cases hl : entry.attempts < limit <;> simp [hl, resolve]

end Inventory

/-- The peer that an action asks for a block. -/
def Action.asks? (id : BlockId) : Action → Option NodeId
  | .send receiver .getData frame _ => if id ∈ named frame then some receiver else none
  | _ => none

theorem Action.asks?_of_request? {a : Action} (h : a.request? = none) (id : BlockId) :
    a.asks? id = none := by
  cases a with
  | send receiver kind frame charge =>
    cases kind with
    | getData => exact nomatch h
    | _ => rfl
  | _ => rfl

namespace Session

variable {s t : Session} {id : BlockId} {ids : List BlockId} {peer sender : NodeId}
  {e : Envelope} {o : Outcome Session}

/-- The peers that actions ask for a block, in order. -/
def askedFor (id : BlockId) (actions : List Action) : List NodeId :=
  actions.filterMap (Action.asks? id)

theorem askedFor_of_none {actions : List Action} (h : ∀ a ∈ actions, a.request? = none)
    (id : BlockId) : askedFor id actions = [] :=
  List.filterMap_eq_nil_iff.mpr fun a ha => Action.asks?_of_request? (h a ha) id

theorem requestBlocks_get? (ht : Strict s ids) (peer : NodeId) (full : Bool) (id : BlockId) :
    (s.requestBlocks peer ids full).1.inventory.get? id =
      if id ∈ ids then (s.inventory.get? id).map (·.requested peer) else s.inventory.get? id := by
  have hi : (s.requestBlocks peer ids full).1.inventory =
      ids.foldl (·.markRequested · peer) s.inventory :=
    (congrArg Core.inventory (requestBlocks_core s peer ids full)).trans
      (startRequests_inventory s peer ids)
  rw [hi, Inventory.get?_markEach _ ht.pending_distinct]

theorem requestBlocks_asked (ht : Strict s ids) (peer : NodeId) (full : Bool) (id : BlockId) :
    askedFor id (s.requestBlocks peer ids full).2 = if id ∈ ids then [peer] else [] := by
  by_cases hne : ids = []
  · subst hne
    rfl
  obtain ⟨headersFrame, headersCharge, dataFrame, dataCharge, -, hdata, hsnd⟩ :=
    requestBlocks_sent ht hne peer full
  have hbefore : ∀ a ∈ ids.map (fun id => .setTimer (.inventoryTimeout id) s.config.invTimeout) ++
      (if full then [Action.send peer .getHeaders headersFrame headersCharge] else []),
      a.asks? id = none := by
    intro a ha
    rcases List.mem_append.mp ha with ha | ha
    · obtain ⟨i, -, rfl⟩ := List.mem_map.mp ha
      rfl
    · split at ha
      · rw [List.mem_singleton.mp ha]
        rfl
      · exact absurd ha List.not_mem_nil
  rw [hsnd, ← List.append_assoc, askedFor, List.filterMap_append,
    List.filterMap_eq_nil_iff.mpr hbefore, List.nil_append]
  by_cases hid : id ∈ ids <;> simp [Action.asks?, hdata, hid]

-- ---------------------------------------------------------------------------
-- What a turn does
-- ---------------------------------------------------------------------------

/-- The blocks that a message announces to a session. -/
def announcedIn (s : Session) (e : Envelope) : List BlockId :=
  if s.setup.role.handlesInventory then
    match e.kind? with
    | some .inv => parseKeys e.inv
    | some .headers => s.announcing e.blockRecords
    | _ => []
  else []

/-- Nothing is asked for, and no entry of the tracker is new or changed. -/
structure Quiet (s : Session) (o : Outcome Session) : Prop where
  asks : ∀ a ∈ o.2, a.request? = none
  forgets : ∀ id entry, o.1.inventory.get? id = some entry → s.inventory.get? id = some entry

theorem Quiet.of_inventory (hi : o.1.inventory = s.inventory)
    (ha : ∀ a ∈ o.2, a.request? = none) : Quiet s o where
  asks := ha
  forgets _ _ h := hi ▸ h

theorem Quiet.of_core (hcore : t.core = s.core) (h : Quiet t o) : Quiet s o where
  asks := h.asks
  forgets id entry hid := by
    have hi : t.inventory = s.inventory := congrArg Core.inventory hcore
    exact hi ▸ h.forgets id entry hid

theorem Quiet.idle (s : Session) : Quiet s (s, []) := .of_inventory rfl (List.forall_mem_nil _)

/-- What a message leads to: its sender announces blocks and is asked for those
that are to be requested. -/
inductive Informed (s : Session) (sender : NodeId) (announced : List BlockId) :
    Outcome Session → Prop
  | requests {t : Session} {ids : List BlockId} (ht : Strict t ids)
      (heach : (t.inventory, ids) = s.inventory.announceEach s.isKnown sender announced)
      (full : Bool) : Informed s sender announced (t.requestBlocks sender ids full)
  | quiet {o : Outcome Session} (hnone : announced = []) (h : Quiet s o) :
    Informed s sender announced o

theorem receiveBlock_forgets (sender : NodeId) (s : Session) (record : Block) (id : BlockId)
    (entry : InventoryEntry)
    (h : (receiveBlock sender s record).1.inventory.get? id = some entry) :
    s.inventory.get? id = some entry := by
  rw [receiveBlock_eq] at h
  split at h
  · exact h
  · rw [armTimer_inventory] at h
    have hcore := resolving_core s record.id
    split at hcore
    · have hi : (s.resolving record.id).inventory = (s.inventory.resolve record.id).2 :=
        congrArg Core.inventory hcore
      exact (Inventory.get?_resolve (hi ▸ h)).2
    · have hi : (s.resolving record.id).inventory = s.inventory := congrArg Core.inventory hcore
      exact hi ▸ h

theorem receiveBlocks_quiet (ht : Strict s []) (sender : NodeId) (records : List Block) :
    Quiet s (foldActions (receiveBlock sender) s records) := by
  obtain ⟨⟨-, hforgets⟩, hasks⟩ := foldActions_induct
    (I := fun t => Strict t [] ∧
      ∀ id entry, t.inventory.get? id = some entry → s.inventory.get? id = some entry)
    (A := (·.request? = none))
    (fun t r _ h => ⟨⟨receiveBlock_strict h.1 sender r, fun id entry hid =>
      h.2 id entry (receiveBlock_forgets sender t r id entry hid)⟩,
      receiveBlock_request? h.1 sender r⟩) ⟨ht, fun _ _ h => h⟩
  exact ⟨hasks, hforgets⟩

theorem informs_quiet (hcore : o.1.core = s.core) (h : ∀ a ∈ o.2, Informs a) : Quiet s o :=
  .of_inventory (congrArg Core.inventory hcore) fun a ha => request?_informs (h a ha)

theorem onInv_informed (ht : Strict s []) (hk : e.kind? = some .inv) (sender : NodeId) :
    Informed s sender (s.announcedIn e) (s.onInv sender e) := by
  unfold onInv
  split
  · rename_i hrole
    exact .quiet (by simp_all [announcedIn]) (.idle s)
  · rename_i hrole
    have hcore := countReceived_core s .inv (s.charge .inv e.inv.length 0)
    have hs := announceAll_strict (ht.of_core hcore) sender (parseKeys e.inv)
    have hannounced : s.announcedIn e = parseKeys e.inv := by simp_all [announcedIn]
    have heach := announceAll_inventory sender
      (s.countReceived .inv (s.charge .inv e.inv.length 0)) (parseKeys e.inv)
    rw [List.append_nil] at hs
    rw [hannounced]
    exact Informed.requests (s := s) hs heach true

theorem onHeaders_informed (ht : Strict s []) (hk : e.kind? = some .headers) (sender : NodeId) :
    Informed s sender (s.announcedIn e) (s.onHeaders sender e) := by
  unfold onHeaders
  split
  · rename_i hrole
    exact .quiet (by simp_all [announcedIn]) (.idle s)
  · rename_i hrole
    have hcore := countReceived_core s .headers (s.charge .headers e.blockRecords.length 0)
    have hs := noteHeaders_strict (ht.of_core hcore) sender e.blockRecords
    have hannounced : s.announcedIn e = s.announcing e.blockRecords := by
      simp_all [announcedIn]
    have heach := noteHeaders_inventory sender
      (s.countReceived .headers (s.charge .headers e.blockRecords.length 0)) e.blockRecords
    rw [List.append_nil] at hs
    rw [hannounced]
    exact Informed.requests (s := s) hs heach false

theorem onEnvelope_informed (ht : Strict s []) (sender : NodeId) (e : Envelope) :
    Informed s sender (s.announcedIn e) (onEnvelope sender s e) := by
  have hnone (hinv : e.kind? ≠ some .inv) (hheaders : e.kind? ≠ some .headers) :
      s.announcedIn e = [] := by
    unfold announcedIn
    split
    · split
      · rename_i hk
        exact absurd hk hinv
      · rename_i hk
        exact absurd hk hheaders
      · rfl
    · rfl
  unfold onEnvelope
  split
  · rename_i hk
    exact .quiet (hnone (by simp [hk]) (by simp [hk])) (.idle s)
  · rename_i hk
    exact onInv_informed ht hk sender
  · rename_i hk
    exact .quiet (hnone (by simp [hk]) (by simp [hk]))
      (informs_quiet (onGetHeaders_core ..) onGetHeaders_informs)
  · rename_i hk
    exact onHeaders_informed ht hk sender
  · rename_i hk
    exact .quiet (hnone (by simp [hk]) (by simp [hk]))
      (informs_quiet (onGetData_core ..) onGetData_informs)
  · rename_i hk
    refine .quiet (hnone (by simp [hk]) (by simp [hk])) ?_
    unfold onBlock
    split
    · exact .idle s
    · have hcore := countReceived_core s .block
        (s.charge .block e.blockRecords.length (payloadBytes e.blockRecords))
      exact (receiveBlocks_quiet (ht.of_core hcore) sender e.blockRecords).of_core hcore
  · rename_i hk
    exact .quiet (hnone (by simp [hk]) (by simp [hk]))
      (informs_quiet (onRequestTrans_core ..) onRequestTrans_informs)
  · rename_i hk
    exact .quiet (hnone (by simp [hk]) (by simp [hk])) (informs_quiet (onReplyTrans_core ..) nofun)
  all_goals
    rename_i hk
    exact .quiet (hnone (by simp [hk]) (by simp [hk])) (.idle s)

/-- The request for a block is repeated: it goes to the next announcer. -/
structure Retried (s : Session) (id : BlockId) (o : Outcome Session) (entry : InventoryEntry)
    (peer : NodeId) : Prop where
  entry_eq : s.inventory.get? id = some entry
  next_eq : entry.next? s.config.maxRequestAttempts = some peer
  entries : ∀ i, o.1.inventory.get? i =
    if id = i then some (entry.requested peer) else s.inventory.get? i
  asks : ∀ i, askedFor i o.2 = if id = i then [peer] else []

/-- What a turn leads to, by its cause. -/
inductive Turned (s : Session) : Cause → Outcome Session → Prop
  | message {o : Outcome Session} (sender : NodeId) (e : Envelope)
      (h : Informed s sender (s.announcedIn e) o) : Turned s (.message sender e) o
  | quiet {o : Outcome Session} (e : Event) (h : Quiet s o) : Turned s (.event e) o
  | retried {o : Outcome Session} {entry : InventoryEntry} {peer : NodeId} (e : Event)
      (id : BlockId) (h : Retried s id o entry peer) : Turned s (.event e) o

theorem requested_disarmed (e : InventoryEntry) (peer : NodeId) :
    { e with timerArmed := false }.requested peer = e.requested peer := rfl

/-- What the end of a request's time leads to, for a block that is still
unknown: the next announcer is asked, or the block is given up. -/
theorem onInventoryTimeout_unknown {entry : InventoryEntry}
    (hk : s.isKnown id = false) (hentry : s.inventory.get? id = some entry) :
    s.onInventoryTimeout id =
      match entry.next? s.config.maxRequestAttempts with
      | some peer =>
        requestBlocks (countTimeout { s with
          inventory := ⟨s.inventory.entries.insert id { entry with timerArmed := false }⟩ })
          peer [id] true
      | none => (countTimeout { s with inventory := (s.inventory.resolve id).2 }, []) := by
  rw [onInventoryTimeout, if_neg (Bool.eq_false_iff.mp hk), Inventory.expire_tracked hentry]
  cases entry.next? s.config.maxRequestAttempts <;> rfl

theorem retrying {entry : InventoryEntry} (ht : Strict s [id])
    (hentry : s.inventory.get? id = some entry)
    (hnext : entry.next? s.config.maxRequestAttempts = some peer) :
    Strict (countTimeout { s with
      inventory := ⟨s.inventory.entries.insert id { entry with timerArmed := false }⟩ }) [id] := by
  have hexpire := Inventory.expire_tracked hentry s.config.maxRequestAttempts
  rw [hnext] at hexpire
  exact (retrying_strict ht hexpire).of_core (countTimeout_core _)

theorem onInventoryTimeout_turned (ht : Strict s [id]) :
    Quiet s (s.onInventoryTimeout id) ∨
      ∃ entry peer, Retried s id (s.onInventoryTimeout id) entry peer := by
  have hforgets (t : Session) (hi : t.inventory = (s.inventory.resolve id).2) : Quiet s (t, []) :=
    ⟨List.forall_mem_nil _, fun i entry h => (Inventory.get?_resolve (hi ▸ h)).2⟩
  cases hk : s.isKnown id with
  | true =>
    rw [onInventoryTimeout, if_pos hk]
    exact .inl (hforgets _ rfl)
  | false =>
    obtain ⟨entry, hentry⟩ := Option.isSome_iff_exists.mp
      (ht.pending_tracked id (List.mem_singleton_self id))
    have hentry : s.inventory.get? id = some entry := hentry
    rw [onInventoryTimeout_unknown hk hentry]
    cases hnext : entry.next? s.config.maxRequestAttempts with
    | none => exact .inl (hforgets _ rfl)
    | some peer =>
      have hs := retrying ht hentry hnext
      refine .inr ⟨entry, peer, hentry, hnext, fun i => ?_, fun i => ?_⟩
      · rw [requestBlocks_get? hs]
        show (if i ∈ [id] then
          (Inventory.get?
            ⟨s.inventory.entries.insert id { entry with timerArmed := false }⟩ i).map _
          else Inventory.get? ⟨s.inventory.entries.insert id _⟩ i) = _
        rw [Inventory.get?_insert]
        by_cases hi : id = i
        · subst hi
          simp [requested_disarmed]
        · simp [hi, Ne.symm hi]
      · rw [requestBlocks_asked hs]
        by_cases hi : id = i <;> simp [hi, eq_comm]

theorem onFired_turned (ht : Strict s []) {timer : TimerId} (hmem : timer ∈ s.armed) :
    Turned s (.event (.timerFired timer)) ((s.disarm timer).onFired timer) := by
  cases timer with
  | inventoryTimeout id =>
    have hs := disarm_inventoryTimeout_strict ht hmem
    rcases onInventoryTimeout_turned hs with h | ⟨entry, peer, h⟩
    · exact .quiet _ ⟨h.asks, h.forgets⟩
    · exact .retried _ id ⟨h.entry_eq, h.next_eq, h.entries, h.asks⟩
  | validation id =>
    obtain ⟨hi, -⟩ := onValidation_asked (s.disarm (.validation id)) id
    exact .quiet _ (.of_inventory hi fun a ha => request?_informs (onValidation_informs a ha))
  | nextTransaction =>
    obtain ⟨t, offers, after, hcore, hoffers, heq⟩ :=
      onNextTransaction_offers (s := s.disarm .nextTransaction) (ht.next.mp hmem).2
    refine .quiet _ (.of_inventory ?_ fun a ha => ?_)
    · rw [onFired, heq, armTimer_inventory]
      exact congrArg Core.inventory hcore
    · rw [onFired, heq] at ha
      rcases List.mem_append.mp ha with ha | ha
      · exact request?_informs (hoffers a ha)
      · exact armTimer_request? _ _ a ha

theorem handle_turned (ht : Strict s []) {e : Event}
    (hbytes : ∀ sender bytes, e ≠ .bytesReceived sender bytes) :
    Turned s (.event e) (s.handle e) := by
  cases e with
  | bytesReceived sender bytes => exact absurd rfl (hbytes sender bytes)
  | start =>
    exact .quiet _ (.of_inventory (congrArg Core.inventory (onStart_core s)) onStart_request?)
  | stop =>
    refine .quiet _ ⟨fun a ha => ?_, fun id entry h => ?_⟩
    · obtain ⟨timer, rfl⟩ := onStop_cancels a ha
      rfl
    · cases hr : s.running with
      | false => rwa [handle, onStop_idle hr] at h
      | true =>
        rw [handle, (onStop_resting hr).inventory] at h
        cases h
  | blockMinted b =>
    simp only [handle]
    split
    · exact .quiet _ (.of_inventory (congrArg Core.inventory (acceptBlock_core ..)) fun a ha =>
        request?_informs (acceptBlock_informs _ a ha))
    · exact .quiet _ (.idle s)
  | timerFired timer =>
    by_cases hf : s.running = true ∧ timer ∈ s.armed
    · rw [handle_timerFired hf.1 hf.2]
      exact onFired_turned ht hf.2
    · rw [handle_timerFired_idle hf]
      exact .quiet _ (.idle s)

-- ---------------------------------------------------------------------------
-- The turns of a run
-- ---------------------------------------------------------------------------

/-- The turns of a session that messages of a peer come to. -/
def messageTurns (sender : NodeId) : Session → List Envelope → List Turn
  | _, [] => []
  | s, e :: es =>
    ⟨s, .message sender e, onEnvelope sender s e⟩ ::
      messageTurns sender (onEnvelope sender s e).1 es

/-- The turns in which a session handles an event. -/
def turns (s : Session) : Event → List Turn
  | .bytesReceived sender bytes =>
    if s.running then
      messageTurns sender { s with frames := (s.frames.feed sender bytes).2 }
        (s.frames.feed sender bytes).1
    else []
  | e => [⟨s, .event e, s.handle e⟩]

theorem messageTurns_actions (sender : NodeId) (s : Session) (es : List Envelope) :
    (messageTurns sender s es).flatMap (·.outcome.2) =
      (foldActions (onEnvelope sender) s es).2 := by
  induction es generalizing s with
  | nil => rfl
  | cons e es ih => rw [messageTurns, List.flatMap_cons, ih, foldActions_cons]

/-- All that a session asks for it asks for in one of its turns. -/
theorem turns_actions (s : Session) (e : Event) :
    (s.turns e).flatMap (·.outcome.2) = (s.handle e).2 := by
  cases e with
  | bytesReceived sender bytes =>
    simp only [turns, handle]
    split
    · exact messageTurns_actions ..
    · rfl
  | _ => exact List.append_nil _

/-- The turns of a transcript, in order. -/
def story (log : List Entry) : List Turn :=
  log.flatMap fun
    | .event found e => found.turns e
    | .action _ => []

theorem story_step (log : List Entry) (s : Session) (e : Event) (actions : List Action) :
    story (log ++ .event s e :: actions.map .action) = story log ++ s.turns e := by
  simp [story, List.flatMap_append, List.flatMap_map]

end Session

end BlockGossip
