import BlockGossip.Proofs.Session.Kinds
import BlockGossip.Proofs.Session.Messages
import Mathlib.Algebra.BigOperators.Group.List.Basic

/-!
# What is sent is counted

The messages that each event has a session send, to whom and in which order
(`posts`). Every one of them is sent to each of its receivers, and the counters
of what is sent go up by the charges of the actions (`handle_posts`,
`handle_sent`); those of what is received go up as a message is counted, and by
nothing else (`onEnvelope_speaks`).
-/

namespace BlockGossip

/-- The counters of bytes. -/
inductive Counter where
  | inv
  | getHeaders
  | headers
  | getData
  | block
deriving DecidableEq

def NodeStatistics.counter (s : NodeStatistics) : Counter → ByteCounter
  | .inv => s.inv
  | .getHeaders => s.getHeaders
  | .headers => s.headers
  | .getData => s.getData
  | .block => s.block

/-- Transactions and requests for blocks share a counter. -/
def MessageKind.counter? : MessageKind → Option Counter
  | .inv => some .inv
  | .getHeaders => some .getHeaders
  | .headers => some .headers
  | .getData | .requestTrans | .replyTrans => some .getData
  | .block => some .block
  | .noMessage | .msgTrans | .resultTrans => none

theorem MessageKind.counter_addTo (kind : MessageKind) (add : ByteCounter → ByteCounter)
    (s : NodeStatistics) (c : Counter) :
    (kind.addTo add s).counter c =
      if kind.counter? = some c then add (s.counter c) else s.counter c := by
  cases kind <;> cases c <;> rfl

def Action.isSend : Action → Bool
  | .send .. => true
  | _ => false

/-- What an action is charged on a counter. -/
def Action.chargeOn (c : Counter) : Action → Nat
  | .send _ kind _ wireBytes => if kind.counter? = some c then wireBytes.toNat else 0
  | _ => 0

def chargedOn (c : Counter) (actions : List Action) : Nat :=
  (actions.map (Action.chargeOn c)).sum

theorem chargedOn_append (c : Counter) (xs ys : List Action) :
    chargedOn c (xs ++ ys) = chargedOn c xs + chargedOn c ys := by
  simp [chargedOn]

theorem chargedOn_quiet {actions : List Action} (h : Sends [] actions) (c : Counter) :
    chargedOn c actions = 0 := by
  refine List.sum_eq_zero fun n hn => ?_
  obtain ⟨a, ha, rfl⟩ := List.mem_map.mp hn
  cases a with
  | send receiver kind frame wireBytes => exact absurd (h _ ha kind rfl) List.not_mem_nil
  | _ => rfl

theorem filter_isSend_quiet {actions : List Action} (h : Sends [] actions) :
    actions.filter Action.isSend = [] := by
  refine List.filter_eq_nil_iff.mpr fun a ha => ?_
  cases a with
  | send receiver kind frame wireBytes => exact absurd (h _ ha kind rfl) List.not_mem_nil
  | _ => exact Bool.false_ne_true

/-- A message to each of some nodes. -/
structure Post where
  receivers : List NodeId
  message : Message

namespace Post

/-- The actions that send it: none is missing, whatever the message. -/
def actions (w : WireSizes) (p : Post) : List Action :=
  p.receivers.map fun receiver =>
    .send receiver p.message.kind p.message.envelope.frame (p.message.charge w)

theorem filter_actions (w : WireSizes) (p : Post) :
    (p.actions w).filter Action.isSend = p.actions w := by
  refine List.filter_eq_self.mpr fun a ha => ?_
  obtain ⟨receiver, -, rfl⟩ := List.mem_map.mp ha
  rfl

theorem chargedOn_actions (w : WireSizes) (p : Post) (c : Counter) :
    chargedOn c (p.actions w) =
      if p.message.kind.counter? = some c then p.receivers.length * (p.message.charge w).toNat
      else 0 := by
  unfold chargedOn actions
  rw [List.map_map]
  show (p.receivers.map fun _ => ite _ _ _).sum = _
  rw [List.map_const', List.sum_replicate_nat]
  split
  · rfl
  · exact Nat.mul_zero _

end Post

namespace Session

-- ---------------------------------------------------------------------------
-- What is sent
-- ---------------------------------------------------------------------------

/-- The requests for blocks, and for their headers if those are wanted. -/
def requests (peer : NodeId) (ids : List BlockId) (withHeaders : Bool) : List Post :=
  if ids.isEmpty then []
  else (if withHeaders then [⟨[peer], .getHeaders ids⟩] else []) ++ [⟨[peer], .getData ids⟩]

/-- The advertisement of a stored block. -/
def advertisement (s : Session) (b : Block) : Post :=
  let receivers := s.setup.peers.filter fun peer => some peer != b.origin
  match s.setup.protocol with
  | .standard => ⟨receivers, .inv [b.id]⟩
  | .sendHeaders => ⟨receivers, .headers [b.header]⟩

/-- The message where there is something to list. -/
def unlessNone (receivers : List NodeId) (say : List α → Message) (xs : List α) : List Post :=
  if xs.isEmpty then [] else [⟨receivers, say xs⟩]

/-- What a message of a peer is answered, once it is counted. -/
def replies (s : Session) (sender : NodeId) (e : Envelope) : List Post :=
  match e.kind? with
  | some .inv =>
    if s.setup.role.handlesInventory then
      requests sender (announceAll sender s (parseKeys e.inv)).2 true
    else []
  | some .getHeaders =>
    unlessNone [sender] .headers
      (((parseKeys e.blockKeys).filterMap s.ledger.get?).map Block.header)
  | some .headers =>
    if s.setup.role.handlesInventory then
      requests sender (noteHeaders sender s e.blockRecords).2 false
    else []
  | some .getData => unlessNone [sender] .block ((parseKeys e.blockKeys).filterMap s.ledger.get?)
  | some .requestTrans =>
    if s.setup.role.acceptsRequests then
      let taken := e.transactions.foldl (Admission.offer s.now) ⟨s.pool, [], []⟩
      unlessNone [sender] .replyTrans taken.replies ++
        unlessNone (s.setup.peers.filter (· != sender)) .requestTrans taken.forwards
    else []
  | _ => []

/-- A session of this role takes the message in, and counts it. -/
def heeds (role : Role) : MessageKind → Bool
  | .inv | .headers | .block => role.handlesInventory
  | .requestTrans => role.acceptsRequests
  | .getHeaders | .getData | .replyTrans => true
  | .noMessage | .msgTrans | .resultTrans => false

/-- The session once it has counted a message. -/
def counting (s : Session) (e : Envelope) : Session :=
  match e.kind? with
  | none => s
  | some kind =>
    if heeds s.setup.role kind then s.countReceived kind (e.charge s.config.wire kind) else s

/-- The answers to one message after another. -/
def repliesAll (sender : NodeId) : Session → List Envelope → List Post
  | _, [] => []
  | s, e :: es =>
    (s.counting e).replies sender e ++ repliesAll sender (onEnvelope sender s e).1 es

/-- What is sent once a timer has fired. -/
def firedPosts (s : Session) : TimerId → List Post
  | .inventoryTimeout id =>
    if s.isKnown id then []
    else
      match (s.inventory.expire id s.config.maxRequestAttempts).1 with
      | .retry peer => requests peer [id] true
      | _ => []
  | .validation id =>
    match s.staging.received.get? id with
    | none => []
    | some b => (accept s.ledger s.orphans b).stored.map s.advertisement
  | .nextTransaction =>
    if s.setup.role.originates then
      [⟨s.setup.peers, .requestTrans [(s.pool.create s.now).1]⟩]
    else []

/-- What an event has a session send. -/
def posts (s : Session) : Event → List Post
  | .start | .stop => []
  | .bytesReceived sender bytes =>
    if s.running then
      repliesAll sender { s with frames := (s.frames.feed sender bytes).2 }
        (s.frames.feed sender bytes).1
    else []
  | .timerFired timer =>
    if s.running && s.armed.contains timer then (s.disarm timer).firedPosts timer else []
  | .blockMinted b =>
    if s.running then (accept s.ledger s.orphans (b.minted s.now)).stored.map s.advertisement
    else []

-- ---------------------------------------------------------------------------
-- Steps
-- ---------------------------------------------------------------------------

variable {s t : Session} {o o' : Outcome Session} {ps qs : List Post} {sender peer : NodeId}
  {e : Envelope}

/-- What the accounting of a session depends on. -/
def books (s : Session) : (Counter → ByteCounter) × SessionConfig := (s.counted.counter, s.config)

/-- A step sends these messages, each to all its receivers, and counts what it
sends. -/
structure Posted (s : Session) (ps : List Post) (o : Outcome Session) : Prop where
  sends : o.2.filter Action.isSend = ps.flatMap (Post.actions s.config.wire)
  sent : ∀ c, (o.1.counted.counter c).sent =
    (s.counted.counter c).sent + UInt64.ofNat (chargedOn c o.2)
  config : o.1.config = s.config

/-- A step that sends and takes nothing in. -/
structure Speaks (s : Session) (ps : List Post) (o : Outcome Session) : Prop
    extends Posted s ps o where
  received : ∀ c, (o.1.counted.counter c).received = (s.counted.counter c).received

namespace Posted

theorem append (h : Posted s ps o) (h' : Posted o.1 qs o') :
    Posted s (ps ++ qs) (o'.1, o.2 ++ o'.2) where
  sends := by rw [List.filter_append, List.flatMap_append, h.sends, h'.sends, h.config]
  sent c := by
    rw [h'.sent, h.sent, chargedOn_append, UInt64.ofNat_add, UInt64.add_assoc]
  config := h'.config.trans h.config

end Posted

namespace Speaks

theorem append (h : Speaks s ps o) (h' : Speaks o.1 qs o') :
    Speaks s (ps ++ qs) (o'.1, o.2 ++ o'.2) :=
  ⟨h.toPosted.append h'.toPosted, fun c => (h'.received c).trans (h.received c)⟩

theorem quiet (hbooks : o.1.books = s.books) (hsends : Sends [] o.2) : Speaks s [] o where
  sends := filter_isSend_quiet hsends
  sent c := by
    have hcounter : o.1.counted.counter = s.counted.counter := congrArg Prod.fst hbooks
    rw [hcounter, chargedOn_quiet hsends]
    exact (UInt64.add_zero _).symm
  config := congrArg Prod.snd hbooks
  received c := congrArg (fun counters : Counter → ByteCounter => (counters c).received)
    (congrArg Prod.fst hbooks)

theorem nil (s : Session) : Speaks s [] (s, []) := quiet rfl .nil

/-- What is done before, beside the books, does not matter. -/
theorem of_books (h : Speaks t ps o) (hbooks : t.books = s.books) : Speaks s ps o := by
  have := (quiet (o := (t, [])) hbooks .nil).append h
  exact this

end Speaks

theorem sendAll_speaks (s : Session) (receivers : List NodeId) (m : Message) {kind : MessageKind}
    {e : Envelope} {bytes : UInt64} (hkind : m.kind = kind) (he : m.envelope = e)
    (hbytes : m.charge s.config.wire = bytes) :
    Speaks s [⟨receivers, m⟩] (s.sendAll kind receivers e bytes) := by
  subst hkind he hbytes
  have hactions : (s.sendAll m.kind receivers m.envelope (m.charge s.config.wire)).2 =
      Post.actions s.config.wire ⟨receivers, m⟩ :=
    sendActions_eq_map m.envelope_kind? m.encode_envelope
  refine ⟨⟨?_, fun c => ?_, rfl⟩, fun c => ?_⟩
  · rw [hactions, Post.filter_actions, List.flatMap_singleton]
  · rw [hactions, Post.chargedOn_actions]
    dsimp only [sendAll]
    rw [MessageKind.counter_addTo]
    split
    · simp [ByteCounter.addSent, UInt64.mul_comm]
    · simp
  · dsimp only [sendAll]
    rw [MessageKind.counter_addTo]
    split <;> rfl

-- ---------------------------------------------------------------------------
-- Steps beside the books
-- ---------------------------------------------------------------------------

theorem foldActions_books {α : Type} {step : Session → α → Outcome Session}
    (hstep : ∀ s x, (step s x).1.books = s.books) (s : Session) (xs : List α) :
    (foldActions step s xs).1.books = s.books :=
  foldActions_keeps (I := fun t : Session => t.books = s.books)
    (fun t x _ ht => (hstep t x).trans ht) rfl

@[simp] theorem armTimer_books (s : Session) (timer : TimerId) (after : Duration) :
    (s.armTimer timer after).1.books = s.books := by
  unfold armTimer
  split <;> rfl

@[simp] theorem cancelTimer_books (s : Session) (timer : TimerId) :
    (s.cancelTimer timer).1.books = s.books := by
  unfold cancelTimer
  split <;> rfl

theorem startRequest_books (peer : NodeId) (s : Session) (id : BlockId) :
    (startRequest peer s id).1.books = s.books := armTimer_books ..

theorem announced_books (s : Session) (peer : NodeId) (id : BlockId) :
    (s.announced peer id).2.books = s.books := by
  unfold announced
  split <;> rfl

theorem announceAll_books (peer : NodeId) (s : Session) (ids : List BlockId) :
    (announceAll peer s ids).1.books = s.books := by
  induction ids generalizing s with
  | nil => rfl
  | cons id ids ih =>
    rw [announceAll_cons]
    split
    · exact ih s
    · exact (ih _).trans (announced_books s peer id)

theorem noteHeader_books (peer : NodeId) (s : Session) (header : Block) :
    (noteHeader peer s header).2.books = s.books := by
  rw [noteHeader_eq]
  split
  · rfl
  · exact announced_books ..

theorem noteHeaders_books (peer : NodeId) (s : Session) (headers : List Block) :
    (noteHeaders peer s headers).1.books = s.books := by
  induction headers generalizing s with
  | nil => rfl
  | cons header rest ih =>
    rw [noteHeaders_cons]
    split
    · exact ih s
    · exact (ih _).trans (noteHeader_books peer s header)

theorem receiveBlock_books (sender : NodeId) (s : Session) (record : Block) :
    (receiveBlock sender s record).1.books = s.books := by
  rw [receiveBlock_eq]
  split
  · rfl
  · refine (armTimer_books ..).trans ?_
    show (s.resolving record.id).books = s.books
    unfold resolving
    split
    · exact cancelTimer_books ..
    · rfl

theorem foldl_recordStored_books (s : Session) (bs : List Block) :
    (bs.foldl recordStored s).books = s.books := by
  have hrecord (s : Session) (b : Block) : (s.recordStored b).books = s.books := by
    unfold recordStored
    split <;> rfl
  induction bs generalizing s with
  | nil => rfl
  | cons b bs ih => exact (ih _).trans (hrecord s b)

-- ---------------------------------------------------------------------------
-- Handlers
-- ---------------------------------------------------------------------------

theorem requestBlocks_speaks (s : Session) (peer : NodeId) (ids : List BlockId) (full : Bool) :
    Speaks s (requests peer ids full) (s.requestBlocks peer ids full) := by
  unfold requestBlocks requests
  split
  · exact .nil _
  · have htimers : Speaks s [] (foldActions (startRequest peer) s ids) :=
      .quiet (foldActions_books (startRequest_books peer) s ids)
        (.foldActions (fun s id _ => armTimer_sends _ _ _) s)
    cases full with
    | true =>
      exact (htimers.append (sendAll_speaks _ [peer] (.getHeaders ids) rfl rfl rfl)).append
        (sendAll_speaks _ [peer] (.getData ids) rfl rfl rfl)
    | false =>
      exact (htimers.append (.nil _)).append (sendAll_speaks _ [peer] (.getData ids) rfl rfl rfl)

theorem unlessNone_speaks {α : Type} (s : Session) (receivers : List NodeId)
    (say : List α → Message) (xs : List α) {kind : MessageKind} {e : Envelope} {bytes : UInt64}
    (hkind : (say xs).kind = kind) (he : (say xs).envelope = e)
    (hbytes : (say xs).charge s.config.wire = bytes) :
    Speaks s (unlessNone receivers say xs)
      (if xs.isEmpty then (s, []) else s.sendAll kind receivers e bytes) := by
  unfold unlessNone
  split
  · exact .nil _
  · exact sendAll_speaks s receivers (say xs) hkind he hbytes

theorem advertise_speaks (s : Session) (b : Block) :
    Speaks s [s.advertisement b] (s.advertise b) := by
  unfold advertise advertisement
  cases s.setup.protocol with
  | standard => exact sendAll_speaks s _ (.inv [b.id]) rfl rfl rfl
  | sendHeaders => exact sendAll_speaks s _ (.headers [b.header]) rfl rfl rfl

theorem advertisement_congr (h : t.setup = s.setup) : t.advertisement = s.advertisement := by
  funext b
  simp only [advertisement, h]

theorem advertiseAll_speaks (s : Session) (bs : List Block) :
    Speaks s (bs.map s.advertisement) (foldActions advertise s bs) := by
  induction bs generalizing s with
  | nil => exact .nil _
  | cons b bs ih =>
    have hsetup : (s.advertise b).1.setup = s.setup := congrArg Core.setup (advertise_core s b)
    have hrest := ih (s.advertise b).1
    rw [advertisement_congr hsetup] at hrest
    exact (advertise_speaks s b).append hrest

theorem acceptBlock_speaks (s : Session) (b : Block) :
    Speaks s ((accept s.ledger s.orphans b).stored.map s.advertisement) (s.acceptBlock b) := by
  unfold acceptBlock
  cases hk : s.ledger.contains b.id || s.orphans.contains b.id with
  | true =>
    rw [accept_held hk]
    exact .nil _
  | false =>
    obtain ⟨hl, ho⟩ := Bool.or_eq_false_iff.mp hk
    cases hp : s.ledger.hasParent b with
    | false =>
      rw [accept_parked hk hp]
      exact .quiet rfl .nil
    | true =>
      rw [accept_stored hk hp, Ledger.add_of_not_contains hl]
      simp only [Bool.false_eq_true, if_false, Bool.not_true]
      let promotion := promoteOrphans (s.ledger.stored b) s.orphans b
      let s' := { s with ledger := promotion.ledger, orphans := promotion.orphans }
      have hspeaks := advertiseAll_speaks ((b :: promotion.promoted).foldl recordStored s')
        (b :: promotion.promoted)
      have hcore := foldl_recordStored_core s' (b :: promotion.promoted)
      rw [advertisement_congr (s := s) (congrArg Core.setup hcore)] at hspeaks
      exact hspeaks.of_books (foldl_recordStored_books s' _)

theorem onInventoryTimeout_speaks (s : Session) (id : BlockId) :
    Speaks s (s.firedPosts (.inventoryTimeout id)) (s.onInventoryTimeout id) := by
  unfold onInventoryTimeout firedPosts
  dsimp only
  split
  · exact .quiet rfl .nil
  · cases hexpire : s.inventory.expire id s.config.maxRequestAttempts with
    | mk outcome inventory =>
      cases outcome with
      | stale => exact .quiet rfl .nil
      | abandoned => exact .quiet rfl .nil
      | retry peer => exact (requestBlocks_speaks _ peer [id] true).of_books rfl

theorem onValidation_speaks (s : Session) (id : BlockId) :
    Speaks s (s.firedPosts (.validation id)) (s.onValidation id) := by
  unfold onValidation firedPosts
  simp only [Staging.take]
  cases s.staging.received.get? id with
  | none => exact .nil _
  | some b =>
    have hspeaks := acceptBlock_speaks
      { s with staging := { s.staging with received := s.staging.received.erase id } } b
    exact hspeaks.of_books rfl

theorem onNextTransaction_speaks (s : Session) :
    Speaks s (s.firedPosts .nextTransaction) s.onNextTransaction := by
  unfold onNextTransaction firedPosts
  cases s.setup.role.originates with
  | false => exact .nil _
  | true =>
    have hsend := sendAll_speaks
      { s with
        pool := (s.pool.create s.now).2
        counted :=
          { s.counted with nodeGeneratedTransaction := (s.pool.create s.now).2.generated } }
      s.setup.peers (.requestTrans [(s.pool.create s.now).1]) rfl rfl rfl
    exact (hsend.append (.quiet (armTimer_books ..) (armTimer_sends _ _ _))).of_books rfl

theorem onFired_speaks (s : Session) (timer : TimerId) :
    Speaks s (s.firedPosts timer) (s.onFired timer) := by
  cases timer with
  | inventoryTimeout id => exact onInventoryTimeout_speaks s id
  | validation id => exact onValidation_speaks s id
  | nextTransaction => exact onNextTransaction_speaks s

-- ---------------------------------------------------------------------------
-- Messages that are taken in
-- ---------------------------------------------------------------------------

@[simp] theorem counting_setup (s : Session) (e : Envelope) :
    (s.counting e).setup = s.setup := by
  unfold counting
  split
  · rfl
  · split <;> rfl

theorem counting_of_heeds {kind : MessageKind} (hk : e.kind? = some kind)
    (h : heeds s.setup.role kind = true) :
    s.counting e = s.countReceived kind (e.charge s.config.wire kind) := by
  unfold counting
  rw [hk]
  exact if_pos h

theorem counting_of_not_heeds {kind : MessageKind} (hk : e.kind? = some kind)
    (h : heeds s.setup.role kind = false) : s.counting e = s := by
  unfold counting
  rw [hk]
  exact if_neg (Bool.eq_false_iff.mp h)

theorem onInv_speaks (s : Session) (sender : NodeId) (hk : e.kind? = some .inv) :
    Speaks (s.counting e) ((s.counting e).replies sender e) (s.onInv sender e) := by
  unfold onInv replies
  rw [hk, counting_setup]
  cases hrole : s.setup.role.handlesInventory with
  | false =>
    rw [counting_of_not_heeds hk hrole]
    exact .nil s
  | true =>
    rw [counting_of_heeds hk hrole]
    exact (requestBlocks_speaks _ sender _ true).of_books (announceAll_books ..)

theorem onHeaders_speaks (s : Session) (sender : NodeId) (hk : e.kind? = some .headers) :
    Speaks (s.counting e) ((s.counting e).replies sender e) (s.onHeaders sender e) := by
  unfold onHeaders replies
  rw [hk, counting_setup]
  cases hrole : s.setup.role.handlesInventory with
  | false =>
    rw [counting_of_not_heeds hk hrole]
    exact .nil s
  | true =>
    rw [counting_of_heeds hk hrole]
    exact (requestBlocks_speaks _ sender _ false).of_books (noteHeaders_books ..)

theorem onGetHeaders_speaks (s : Session) (sender : NodeId) (hk : e.kind? = some .getHeaders) :
    Speaks (s.counting e) ((s.counting e).replies sender e) (s.onGetHeaders sender e) := by
  unfold onGetHeaders replies
  rw [hk, counting_of_heeds hk rfl]
  exact unlessNone_speaks _ [sender] .headers _ rfl rfl rfl

theorem onGetData_speaks (s : Session) (sender : NodeId) (hk : e.kind? = some .getData) :
    Speaks (s.counting e) ((s.counting e).replies sender e) (s.onGetData sender e) := by
  unfold onGetData replies
  rw [hk, counting_of_heeds hk rfl]
  exact unlessNone_speaks _ [sender] .block _ rfl rfl rfl

theorem onBlock_speaks (s : Session) (sender : NodeId) (hk : e.kind? = some .block) :
    Speaks (s.counting e) ((s.counting e).replies sender e) (s.onBlock sender e) := by
  have hnone : (s.counting e).replies sender e = [] := by
    unfold replies
    rw [hk]
  rw [hnone]
  cases hrole : s.setup.role.handlesInventory with
  | false =>
    rw [counting_of_not_heeds hk hrole, onBlock, hrole]
    exact .nil s
  | true =>
    rw [counting_of_heeds hk hrole, onBlock_eq s sender e hrole]
    exact .quiet (foldActions_books (receiveBlock_books sender) _ _)
      (.foldActions (fun s record _ => receiveBlock_sends sender s record) _)

theorem onRequestTrans_speaks (s : Session) (sender : NodeId) (hk : e.kind? = some .requestTrans) :
    Speaks (s.counting e) ((s.counting e).replies sender e) (s.onRequestTrans sender e) := by
  unfold onRequestTrans replies
  rw [hk, counting_setup]
  cases hrole : s.setup.role.acceptsRequests with
  | false =>
    rw [counting_of_not_heeds hk hrole]
    exact .nil s
  | true =>
    rw [counting_of_heeds hk hrole]
    let taken := e.transactions.foldl (Admission.offer s.now) ⟨s.pool, [], []⟩
    let admitted : Session :=
      { s.countReceived .requestTrans (e.charge s.config.wire .requestTrans) with
        pool := taken.pool }
    let answers : Outcome Session :=
      if taken.replies.isEmpty then (admitted, [])
      else
        admitted.sendAll .replyTrans [sender] (Envelope.replyTrans taken.replies)
          (admitted.charge .replyTrans taken.replies.length 0)
    have hanswers : Speaks admitted (unlessNone [sender] .replyTrans taken.replies) answers :=
      unlessNone_speaks admitted [sender] .replyTrans taken.replies rfl rfl rfl
    have hsetup : s.setup = answers.1.setup := by
      dsimp only [answers]
      split <;> rfl
    have hpassed := unlessNone_speaks answers.1 (answers.1.setup.peers.filter (· != sender))
      .requestTrans taken.forwards rfl rfl rfl
    rw [hsetup]
    exact (hanswers.append hpassed).of_books rfl

theorem onReplyTrans_speaks (s : Session) (sender : NodeId) (hk : e.kind? = some .replyTrans) :
    Speaks (s.counting e) ((s.counting e).replies sender e) (s.onReplyTrans e, []) := by
  have hnone : (s.counting e).replies sender e = [] := by
    unfold replies
    rw [hk]
  rw [hnone, counting_of_heeds hk rfl]
  exact .quiet rfl .nil

/-- A message is counted, and then it is answered. -/
theorem onEnvelope_speaks (sender : NodeId) (s : Session) (e : Envelope) :
    Speaks (s.counting e) ((s.counting e).replies sender e) (onEnvelope sender s e) := by
  unfold onEnvelope
  split <;> rename_i hk
  · have hcounting : s.counting e = s := by unfold counting; rw [hk]
    rw [hcounting, replies, hk]
    exact .nil s
  · exact onInv_speaks s sender hk
  · exact onGetHeaders_speaks s sender hk
  · exact onHeaders_speaks s sender hk
  · exact onGetData_speaks s sender hk
  · exact onBlock_speaks s sender hk
  · exact onRequestTrans_speaks s sender hk
  · exact onReplyTrans_speaks s sender hk
  all_goals
    rw [counting_of_not_heeds hk rfl, replies, hk]
    exact .nil s

-- ---------------------------------------------------------------------------
-- Events
-- ---------------------------------------------------------------------------

theorem counting_sent (s : Session) (e : Envelope) (c : Counter) :
    ((s.counting e).counted.counter c).sent = (s.counted.counter c).sent := by
  unfold counting
  split
  · rfl
  · split
    · dsimp only [countReceived]
      rw [MessageKind.counter_addTo]
      split <;> rfl
    · rfl

theorem counting_config (s : Session) (e : Envelope) : (s.counting e).config = s.config := by
  unfold counting
  split
  · rfl
  · split <;> rfl

theorem onEnvelope_posted (sender : NodeId) (s : Session) (e : Envelope) :
    Posted s ((s.counting e).replies sender e) (onEnvelope sender s e) := by
  obtain ⟨⟨hsends, hsent, hconfig⟩, -⟩ := onEnvelope_speaks sender s e
  rw [counting_config] at hsends hconfig
  exact ⟨hsends, fun c => (hsent c).trans (by rw [counting_sent]), hconfig⟩

theorem foldEnvelopes_posted (sender : NodeId) (s : Session) (es : List Envelope) :
    Posted s (repliesAll sender s es) (foldActions (onEnvelope sender) s es) := by
  induction es generalizing s with
  | nil => exact (Speaks.nil s).toPosted
  | cons e es ih => exact (onEnvelope_posted sender s e).append (ih _)

/-- The event has a session that was stopped run, and count from zero. -/
def restarts (s : Session) : Event → Bool
  | .start => !s.running
  | _ => false

theorem handle_posted (s : Session) (e : Event) (h : s.restarts e = false) :
    Posted s (s.posts e) (s.handle e) := by
  cases e with
  | start =>
    have hr : s.running = true := by simpa [restarts] using h
    rw [handle, onStart, hr]
    exact (Speaks.nil s).toPosted
  | stop =>
    have hbooks : s.onStop.1.books = s.books := by
      unfold onStop
      split <;> rfl
    exact (Speaks.quiet hbooks (onStop_sends s)).toPosted
  | bytesReceived sender bytes =>
    rw [handle, posts]
    split
    · obtain ⟨hsends, hsent, hconfig⟩ := foldEnvelopes_posted sender
        { s with frames := (s.frames.feed sender bytes).2 } (s.frames.feed sender bytes).1
      exact ⟨hsends, hsent, hconfig⟩
    · exact (Speaks.nil s).toPosted
  | blockMinted b =>
    rw [handle, posts]
    split
    · exact (acceptBlock_speaks s _).toPosted
    · exact (Speaks.nil s).toPosted
  | timerFired timer =>
    rw [posts]
    by_cases hf : s.running = true ∧ timer ∈ s.armed
    · have hc : (s.running && s.armed.contains timer) = true := by simpa using hf
      rw [handle_timerFired hf.1 hf.2, hc]
      have hspeaks := onFired_speaks (s.disarm timer) timer
      exact (hspeaks.of_books (s := s) rfl).toPosted
    · have hc : ¬(s.running && s.armed.contains timer) = true := by simpa using hf
      rw [handle_timerFired_idle hf, if_neg hc]
      exact (Speaks.nil s).toPosted

/-- A session that starts has all its counters at zero. -/
theorem onStart_books (hr : s.running = false) :
    s.onStart.1.books = (fun _ => .zero, s.config) := by
  have hfresh : (NodeStatistics.fresh s.setup.node s.setup.role.code).counter =
      fun _ => ByteCounter.zero := by
    funext c
    cases c <;> rfl
  rw [← hfresh, onStart, if_neg (Bool.eq_false_iff.mp hr)]
  dsimp only
  split
  · exact armTimer_books ..
  · rfl

/-- Every message that an event has a session send is sent to all its receivers. -/
theorem handle_posts (s : Session) (e : Event) :
    (s.handle e).2.filter Action.isSend = (s.posts e).flatMap (Post.actions s.config.wire) := by
  cases h : s.restarts e with
  | false => exact (handle_posted s e h).sends
  | true =>
    cases e with
    | start => exact filter_isSend_quiet (onStart_sends s)
    | _ => exact nomatch h

/-- What an event has a session send is counted, and nothing else is. -/
theorem handle_sent (s : Session) (e : Event) (c : Counter) :
    ((s.handle e).1.counted.counter c).sent =
      (if s.restarts e then 0 else (s.counted.counter c).sent) +
        UInt64.ofNat (chargedOn c (s.handle e).2) := by
  cases h : s.restarts e with
  | false => exact (handle_posted s e h).sent c
  | true =>
    cases e with
    | start =>
      have hr : s.running = false := by simpa [restarts] using h
      have hbooks : s.onStart.1.counted.counter = fun _ => .zero :=
        congrArg Prod.fst (onStart_books hr)
      rw [handle, hbooks, chargedOn_quiet (onStart_sends s)]
      rfl
    | _ => cases h

end Session

end BlockGossip
