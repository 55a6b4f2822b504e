import BlockGossip.Proofs.Pool.Admission
import BlockGossip.Proofs.Session.Posts
import BlockGossip.Proofs.Session.Validated

/-!
# Flooding

Over a whole run, stops and restarts included, each link carries a transaction
once. A session lists to a peer what follows from the ids that were brought to
it, each counted from the first peer that brought it (`Floods`), or from the
transactions that it created itself (`Originates`). Both are said of a step
first, and steps follow one another.
-/

namespace BlockGossip.Session

variable {setup : Setup} {config : SessionConfig} {s t : Session} {log : List Entry}
  {o o' : Outcome Session} {kind : MessageKind} {sender peer : NodeId}
  {offers offers' : List (TransactionId × NodeId)} {n n' : Nat} {e : Event}

-- ---------------------------------------------------------------------------
-- What is listed to a peer
-- ---------------------------------------------------------------------------

/-- The entries that a session's actions list to a peer in messages of a kind, in order. -/
def listedTo (kind : MessageKind) (peer : NodeId) (sent : List Action) :
    List (TransactionId × NodeId) :=
  sent.flatMap fun
    | .send receiver k frame _ => if receiver = peer ∧ k = kind then listed frame else []
    | _ => []

theorem listedTo_append (kind : MessageKind) (peer : NodeId) (sent more : List Action) :
    listedTo kind peer (sent ++ more) = listedTo kind peer sent ++ listedTo kind peer more :=
  List.flatMap_append

theorem listedTo_filter (kind : MessageKind) (peer : NodeId) (sent : List Action) :
    listedTo kind peer (sent.filter Action.isSend) = listedTo kind peer sent := by
  induction sent with
  | nil => rfl
  | cons a rest ih => cases a <;> simp_all [listedTo, List.filter_cons, Action.isSend]

theorem listedTo_of_sends {kinds : List MessageKind} {sent : List Action} (h : Sends kinds sent)
    (hkind : kind ∉ kinds) (peer : NodeId) : listedTo kind peer sent = [] := by
  refine List.flatMap_eq_nil_iff.mpr fun a ha => ?_
  cases a with
  | send receiver k frame charge =>
    refine if_neg fun hk => hkind ?_
    exact hk.2 ▸ h _ ha k rfl
  | _ => rfl

/-- A post lists to each of its receivers what its message is about. -/
theorem listedTo_post (w : WireSizes) {p : Post} (hd : p.receivers.Nodup) (kind : MessageKind)
    (peer : NodeId) :
    listedTo kind peer (p.actions w) =
      if peer ∈ p.receivers ∧ p.message.kind = kind then
        p.message.envelope.transactions.map Transaction.entry
      else [] := by
  obtain ⟨receivers, m⟩ := p
  induction receivers with
  | nil => rfl
  | cons receiver rest ih =>
    obtain ⟨hnot, hd⟩ := List.nodup_cons.mp hd
    have hcons : listedTo kind peer (Post.actions w ⟨receiver :: rest, m⟩) =
        (if receiver = peer ∧ m.kind = kind then listed m.envelope.frame else []) ++
          listedTo kind peer (Post.actions w ⟨rest, m⟩) := List.flatMap_cons
    rw [hcons, ih hd, listed_frame]
    by_cases he : receiver = peer
    · subst he
      simp [hnot]
    · simp [he, Ne.symm he]

/-- Nothing is listed where there is no message. -/
theorem listedTo_unlessNone (w : WireSizes) {receivers : List NodeId} (hd : receivers.Nodup)
    (say : List Transaction → Message) {said : MessageKind} (hkind : ∀ ts, (say ts).kind = said)
    (hsay : ∀ ts, (say ts).envelope.transactions = ts) (ts : List Transaction)
    (kind : MessageKind) (peer : NodeId) :
    listedTo kind peer ((unlessNone receivers say ts).flatMap (Post.actions w)) =
      if peer ∈ receivers ∧ said = kind then ts.map Transaction.entry else [] := by
  cases ts with
  | nil => simp [unlessNone, listedTo]
  | cons t ts =>
    rw [unlessNone, if_neg (by simp), List.flatMap_singleton, listedTo_post w hd, hkind, hsay]

-- ---------------------------------------------------------------------------
-- What admitted ids lead to
-- ---------------------------------------------------------------------------

/-- The kinds of messages that list transactions of their own. -/
def flooding : List MessageKind := [.requestTrans, .replyTrans]

/-- What a node of a face lists to a peer for the ids that it has admitted. -/
def relayed (f : Face) (peers : List NodeId) (kind : MessageKind) (peer : NodeId)
    (news : List (TransactionId × NodeId)) : List (TransactionId × NodeId) :=
  match kind with
  | .requestTrans => if peer ∈ peers then f.passes (news.filter (·.2 != peer)) else []
  | .replyTrans => f.answers (news.filter (·.2 == peer))
  | _ => []

theorem relayed_nil (f : Face) (peers : List NodeId) (kind : MessageKind) (peer : NodeId) :
    relayed f peers kind peer [] = [] := by
  cases kind <;> simp [relayed, Face.passes, Face.answers]

theorem relayed_append (f : Face) (peers : List NodeId) (kind : MessageKind) (peer : NodeId)
    (news news' : List (TransactionId × NodeId)) :
    relayed f peers kind peer (news ++ news') =
      relayed f peers kind peer news ++ relayed f peers kind peer news' := by
  cases kind with
  | requestTrans =>
    by_cases hp : peer ∈ peers <;> simp [relayed, hp, Face.passes_append]
  | replyTrans => simp [relayed, Face.answers_append]
  | _ => rfl

/-- A step takes offers, and relays those of them that are first ones. -/
structure Floods (s : Session) (offers : List (TransactionId × NodeId)) (o : Outcome Session) :
    Prop where
  setup : o.1.setup = s.setup
  face : o.1.pool.face = s.pool.face.taking offers
  lists : ∀ kind ∈ flooding, ∀ peer, listedTo kind peer o.2 =
    relayed s.pool.face s.setup.peers kind peer (firsts s.pool.holds offers)

namespace Floods

theorem quiet {kinds : List MessageKind} (hsetup : o.1.setup = s.setup)
    (hface : o.1.pool.face = s.pool.face) (hsends : Sends kinds o.2)
    (hkinds : ∀ kind ∈ flooding, kind ∉ kinds) : Floods s [] o where
  setup := hsetup
  face := hface.trans (Face.taking_nil _).symm
  lists kind hkind peer := by
    rw [listedTo_of_sends hsends (hkinds kind hkind)]
    exact (relayed_nil ..).symm

theorem idle (hsetup : t.setup = s.setup) (hpool : t.pool = s.pool) : Floods s [] (t, []) :=
  quiet hsetup (congrArg Pool.face hpool) (.nil : Sends [] []) fun _ _ => List.not_mem_nil

theorem nil (s : Session) : Floods s [] (s, []) := idle rfl rfl

theorem append (h : Floods s offers o) (h' : Floods o.1 offers' o') :
    Floods s (offers ++ offers') (o'.1, o.2 ++ o'.2) where
  setup := h'.setup.trans h.setup
  face := by rw [h'.face, h.face, Face.taking_taking]
  lists kind hkind peer := by
    have hholds : o.1.pool.holds = (s.pool.face.taking offers).holds := congrArg Face.holds h.face
    rw [listedTo_append, h.lists kind hkind, h'.lists kind hkind, firsts_append, relayed_append,
      h.face, h.setup, hholds]
    rfl

end Floods

-- ---------------------------------------------------------------------------
-- Messages
-- ---------------------------------------------------------------------------

/-- The ids that a message of a peer brings to a session, none to one of a role
that takes no requests. -/
def broughtIn (s : Session) (sender : NodeId) (m : Envelope) : List (TransactionId × NodeId) :=
  if s.setup.role.acceptsRequests then (offered m).map (·, sender) else []

/-- The answers to one request are what its new ids lead to. -/
theorem onRequestTrans_floods (hpeers : s.setup.peers.Nodup)
    (haccepts : s.setup.role.acceptsRequests = true) (hrole : s.pool.role = s.setup.role)
    (sender : NodeId) {m : Envelope} (hk : m.kind? = some .requestTrans) :
    Floods s (offersOf sender m.transactions) (onEnvelope sender s m) := by
  let taken := m.transactions.foldl (Admission.offer s.now) ⟨s.pool, [], []⟩
  have hadmitted : Admitted sender m.transactions ⟨s.pool, [], []⟩ taken :=
    offers_admitted (hrole ▸ haccepts) sender m.transactions
  have hreplies : (s.counting m).replies sender m =
      unlessNone [sender] .replyTrans taken.replies ++
        unlessNone (s.setup.peers.filter (· != sender)) .requestTrans taken.forwards := by
    rw [replies, hk, counting_setup, if_pos haccepts, counting_of_heeds hk haccepts]
    rfl
  refine ⟨(onEnvelope_aside sender s m).setup, ?_, fun kind hkind peer => ?_⟩
  · rw [onEnvelope, hk]
    exact (congrArg Pool.face (onRequestTrans_pool haccepts sender m)).trans hadmitted.face
  · rw [← listedTo_filter, (onEnvelope_posted sender s m).sends, hreplies, List.flatMap_append,
      listedTo_append,
      listedTo_unlessNone _ (List.nodup_singleton sender) .replyTrans (fun _ => rfl) fun _ => rfl,
      listedTo_unlessNone _ (hpeers.filter _) .requestTrans (fun _ => rfl) fun _ => rfl,
      hadmitted.replies, hadmitted.forwards]
    rcases List.mem_pair.mp hkind with rfl | rfl
    · rw [relayed, firsts_filter_ne]
      by_cases hp : peer = sender <;> by_cases hmem : peer ∈ s.setup.peers <;>
        simp [hp, hmem, Face.passes]
    · rw [relayed, firsts_filter_eq]
      by_cases hp : peer = sender <;> simp [hp, Face.answers]

/-- A message of another kind floods nothing. -/
theorem onEnvelope_quiet (sender : NodeId) {m : Envelope} (hk : m.kind? ≠ some .requestTrans) :
    Floods s [] (onEnvelope sender s m) := by
  refine .quiet (onEnvelope_aside sender s m).setup ?_
    ((onEnvelope_sends sender s m).mono (m.answers_of_no_request hk)) (by decide)
  by_cases hreply : m.kind? = some .replyTrans
  · rw [onEnvelope, hreply]
    exact s.pool.replies_face m.transactions
  · rw [onEnvelope_pool sender s hk hreply]

theorem onEnvelope_floods (hpeers : s.setup.peers.Nodup) (hrole : s.pool.role = s.setup.role)
    (sender : NodeId) (m : Envelope) :
    Floods s (s.broughtIn sender m) (onEnvelope sender s m) := by
  by_cases hk : m.kind? = some .requestTrans
  · cases haccepts : s.setup.role.acceptsRequests with
    | true =>
      have hbrought : s.broughtIn sender m = offersOf sender m.transactions := by
        simp [broughtIn, haccepts, offered, hk, offersOf]
      rw [hbrought]
      exact onRequestTrans_floods hpeers haccepts hrole sender hk
    | false =>
      have hbrought : s.broughtIn sender m = [] := by simp [broughtIn, haccepts]
      have hidle : onEnvelope sender s m = (s, []) := by
        simp [onEnvelope, hk, onRequestTrans, haccepts]
      rw [hbrought, hidle]
      exact .nil s
  · have hbrought : s.broughtIn sender m = [] := by simp [broughtIn, offered, hk]
    rw [hbrought]
    exact onEnvelope_quiet sender hk

theorem onEnvelopes_floods (hpeers : s.setup.peers.Nodup) (hrole : s.pool.role = s.setup.role)
    (sender : NodeId) (messages : List Envelope) :
    Floods s (messages.flatMap (s.broughtIn sender))
      (foldActions (onEnvelope sender) s messages) := by
  induction messages generalizing s with
  | nil => exact .nil s
  | cons m messages ih =>
    have hfirst := onEnvelope_floods hpeers hrole sender m
    have hsetup := hfirst.setup
    have hrole' : (onEnvelope sender s m).1.pool.role = s.pool.role :=
      congrArg Face.role hfirst.face
    have hrest := ih (hsetup.symm ▸ hpeers) (hrole'.trans (hrole.trans (congrArg _ hsetup.symm)))
    have hbrought : (onEnvelope sender s m).1.broughtIn sender = s.broughtIn sender := by
      funext m'
      rw [broughtIn, hsetup, broughtIn]
    rw [hbrought] at hrest
    exact hfirst.append hrest

-- ---------------------------------------------------------------------------
-- Events
-- ---------------------------------------------------------------------------

/-- The ids that an event brings to a session, each with the peer that brings it. -/
def brings (s : Session) : Event → List (TransactionId × NodeId)
  | .bytesReceived sender bytes =>
    if s.running then (s.frames.feed sender bytes).1.flatMap (s.broughtIn sender) else []
  | _ => []

/-- The event has a session create a transaction of its own. -/
def creates (s : Session) : Event → Bool
  | .timerFired .nextTransaction =>
    s.running && s.armed.contains .nextTransaction && s.setup.role.originates
  | _ => false

theorem recordAll_face (s : Session) (bs : List Block) :
    (bs.foldl recordStored s).pool.face = s.pool.face := by
  induction bs generalizing s with
  | nil => rfl
  | cons b bs ih =>
    rw [List.foldl_cons, ih, recordStored_pool]
    exact s.pool.validateFromBlock_face b s.now

theorem acceptBlock_face (s : Session) (b : Block) :
    (s.acceptBlock b).1.pool.face = s.pool.face := by
  unfold acceptBlock
  split
  · rfl
  · split
    · rfl
    · split
      · rfl
      · simp only [advertiseAll_pool]
        exact recordAll_face _ _

theorem onValidation_face (s : Session) (id : BlockId) :
    (s.onValidation id).1.pool.face = s.pool.face := by
  unfold onValidation
  split
  · rfl
  · exact acceptBlock_face ..

/-- An event floods nothing unless it brings bytes or has a transaction created. -/
theorem handle_quiet (h : s.creates e = false)
    (hbytes : ∀ sender bytes, e ≠ .bytesReceived sender bytes) : Floods s [] (s.handle e) := by
  have hquiet (hface : (s.handle e).1.pool.face = s.pool.face)
      (hkinds : ∀ kind ∈ flooding, kind ∉ e.sends) : Floods s [] (s.handle e) :=
    .quiet (handle_setup s e) hface (handle_sends s e) hkinds
  cases e with
  | bytesReceived sender bytes => exact absurd rfl (hbytes sender bytes)
  | start => exact hquiet (congrArg Pool.face (onStart_pool s)) (by decide)
  | stop => exact hquiet (congrArg Pool.face (stopped_after s s.now).pool) (by decide)
  | blockMinted b =>
    refine hquiet ?_ (by simp [flooding, Event.sends])
    simp only [handle]
    split
    · exact acceptBlock_face s _
    · rfl
  | timerFired timer =>
    by_cases hf : s.running = true ∧ timer ∈ s.armed
    · have hfired := handle_timerFired hf.1 hf.2
      cases timer with
      | inventoryTimeout id =>
        refine hquiet ?_ (by simp [flooding, Event.sends])
        rw [hfired]
        exact congrArg Pool.face (onInventoryTimeout_pool (s.disarm _) id)
      | validation id =>
        refine hquiet ?_ (by simp [flooding, Event.sends])
        rw [hfired]
        exact onValidation_face (s.disarm _) id
      | nextTransaction =>
        have horiginates : s.setup.role.originates = false := by
          simpa [creates, hf.1, hf.2] using h
        have hidle : (s.disarm .nextTransaction).onNextTransaction =
            (s.disarm .nextTransaction, []) := if_pos (by simp [disarm, horiginates])
        rw [hfired, onFired, hidle]
        exact .idle rfl rfl
    · rw [handle_timerFired_idle hf]
      exact .nil s

theorem handle_floods (hpeers : s.setup.peers.Nodup) (hrole : s.pool.role = s.setup.role)
    (h : s.creates e = false) : Floods s (s.brings e) (s.handle e) := by
  cases e with
  | bytesReceived sender bytes =>
    simp only [brings, handle]
    split
    · obtain ⟨hsetup, hface, hlists⟩ := onEnvelopes_floods
        (s := { s with frames := (s.frames.feed sender bytes).2 }) hpeers hrole sender
        (s.frames.feed sender bytes).1
      exact ⟨hsetup, hface, hlists⟩
    · exact .nil s
  | _ => exact handle_quiet h (by simp)

-- ---------------------------------------------------------------------------
-- Transactions of one's own
-- ---------------------------------------------------------------------------

/-- A step creates transactions, and offers each to every peer. -/
structure Originates (s : Session) (n : Nat) (o : Outcome Session) : Prop where
  setup : o.1.setup = s.setup
  node : o.1.pool.node = s.pool.node
  role : o.1.pool.role = s.pool.role
  next : o.1.pool.nextNumber = s.pool.nextNumber + UInt64.ofNat n
  requests : ∀ peer, listedTo .requestTrans peer o.2 =
    if peer ∈ s.setup.peers then s.pool.face.created n else []
  replies : ∀ peer, listedTo .replyTrans peer o.2 = []

namespace Originates

theorem of_floods (h : Floods s [] o) : Originates s 0 o where
  setup := h.setup
  node := congrArg Face.node h.face
  role := congrArg Face.role h.face
  next := (congrArg Face.next h.face).trans (UInt64.add_zero _).symm
  requests peer := by
    rw [h.lists .requestTrans (by decide), firsts, relayed_nil]
    exact (ite_self _).symm
  replies peer := by
    rw [h.lists .replyTrans (by decide), firsts, relayed_nil]

theorem append (h : Originates s n o) (h' : Originates o.1 n' o') :
    Originates s (n + n') (o'.1, o.2 ++ o'.2) where
  setup := h'.setup.trans h.setup
  node := h'.node.trans h.node
  role := h'.role.trans h.role
  next := by rw [h'.next, h.next, UInt64.ofNat_add, UInt64.add_assoc]
  requests peer := by
    have hcreated : s.pool.face.created (n + n') =
        s.pool.face.created n ++ o.1.pool.face.created n' := Face.created_add h.node h.next n'
    rw [listedTo_append, h.requests, h'.requests, h.setup, hcreated]
    split <;> rfl
  replies peer := by rw [listedTo_append, h.replies, h'.replies, List.append_nil]

end Originates

theorem brings_of_not_accepts (h : s.setup.role.acceptsRequests = false) (e : Event) :
    s.brings e = [] := by
  cases e with
  | bytesReceived sender bytes =>
    have hnone : s.broughtIn sender = fun _ => [] := by
      funext m
      simp [broughtIn, h]
    simp [brings, hnone]
  | _ => rfl

theorem handle_creates (hpeers : s.setup.peers.Nodup) (h : s.creates e = true) :
    Originates s 1 (s.handle e) := by
  unfold creates at h
  split at h
  · simp only [Bool.and_eq_true] at h
    obtain ⟨⟨hr, ht⟩, horiginates⟩ := h
    have hmem : .nextTransaction ∈ s.armed := by simpa using ht
    have hpool : (s.handle (.timerFired .nextTransaction)).1.pool = (s.pool.create s.now).2 := by
      rw [handle_timerFired hr hmem, onFired, onNextTransaction,
        if_neg (by simp [disarm, horiginates])]
      exact armTimer_pool ..
    have hposts : s.posts (.timerFired .nextTransaction) =
        [⟨s.setup.peers, .requestTrans [(s.pool.create s.now).1]⟩] := by
      rw [posts, hr, ht]
      exact if_pos horiginates
    have hlisted (kind : MessageKind) (peer : NodeId) :
        listedTo kind peer (s.handle (.timerFired .nextTransaction)).2 =
          if peer ∈ s.setup.peers ∧ .requestTrans = kind then s.pool.face.created 1 else [] := by
      rw [← listedTo_filter, handle_posts, hposts, List.flatMap_singleton, listedTo_post _ hpeers]
      exact if_congr Iff.rfl (s.pool.create_entry s.now) rfl
    refine ⟨handle_setup s _, ?_, ?_, ?_, fun peer => ?_, fun peer => ?_⟩
    · rw [hpool]; rfl
    · rw [hpool]; rfl
    · rw [hpool]; rfl
    · rw [hlisted]; simp
    · rw [hlisted]; simp
  · cases h

theorem handle_originates (hpeers : s.setup.peers.Nodup) (hrole : s.pool.role = s.setup.role)
    (haccepts : s.setup.role.acceptsRequests = false) (e : Event) :
    Originates s (s.creates e).toNat (s.handle e) := by
  cases h : s.creates e with
  | true => exact handle_creates hpeers h
  | false =>
    have hfloods := handle_floods hpeers hrole h
    rw [brings_of_not_accepts haccepts] at hfloods
    exact .of_floods hfloods

-- ---------------------------------------------------------------------------
-- Runs
-- ---------------------------------------------------------------------------

/-- The ids that a run brings to a session, each with the peer that brings it. -/
def brought (log : List Entry) : List (TransactionId × NodeId) :=
  log.flatMap fun
    | .event found e => found.brings e
    | .action _ => []

/-- The entry is of an event that has the session create a transaction. -/
def creating : Entry → Bool
  | .event found e => found.creates e
  | .action _ => false

/-- How many transactions of its own a session creates in a run. -/
def creations (log : List Entry) : Nat := log.countP creating

/-- The ids that are admitted in a run, each with the peer that brought it first. -/
def admitted (log : List Entry) : List (TransactionId × NodeId) :=
  firsts (fun _ => false) (brought log)

theorem brought_step (log : List Entry) (s : Session) (e : Event) (answer : List Action) :
    brought (log ++ .event s e :: answer.map .action) = brought log ++ s.brings e := by
  simp [brought, List.flatMap_append, List.flatMap_map]

theorem creates_eq_false (h : s.setup.role.acceptsRequests = true) (e : Event) :
    s.creates e = false := by
  unfold creates
  split
  · have horiginates : s.setup.role.originates = false := by
      revert h
      cases s.setup.role <;> decide
    rw [horiginates, Bool.and_false]
  · rfl

theorem creations_step (log : List Entry) (s : Session) (e : Event) (answer : List Action) :
    creations (log ++ .event s e :: answer.map .action) = creations log + (s.creates e).toNat := by
  have hanswer : (answer.map Entry.action).countP creating = 0 :=
    List.countP_eq_zero.mpr fun x hx => by
      obtain ⟨a, -, rfl⟩ := List.mem_map.mp hx
      exact Bool.false_ne_true
  rw [creations, List.countP_append, List.countP_cons, hanswer, Nat.zero_add]
  show _ + (if s.creates e = true then 1 else 0) = _
  cases s.creates e <;> rfl

theorem Logged.floods (h : Logged setup config s log) (hpeers : setup.peers.Nodup)
    (haccepts : setup.role.acceptsRequests = true) :
    Floods (.fresh setup config) (brought log) (s, actions log) := by
  induction h with
  | fresh => exact .nil _
  | @step s log h now e ih =>
    have hsetup : s.setup = setup := ih.setup
    have hrole : s.pool.role = setup.role := congrArg Face.role ih.face
    have hcreates : (s.setTime now).creates e = false := creates_eq_false (hsetup.symm ▸ haccepts) e
    obtain ⟨hnext, hface, hlists⟩ := handle_floods (s := s.setTime now) (hsetup.symm ▸ hpeers)
      (hrole.trans (congrArg Setup.role hsetup.symm)) hcreates
    rw [brought_step, actions_step]
    exact ih.append ⟨hnext, hface, hlists⟩

theorem Logged.originates (h : Logged setup config s log) (hpeers : setup.peers.Nodup)
    (haccepts : setup.role.acceptsRequests = false) :
    Originates (.fresh setup config) (creations log) (s, actions log) := by
  induction h with
  | fresh => exact .of_floods (.nil _)
  | @step s log h now e ih =>
    have hsetup : s.setup = setup := ih.setup
    have hrole : s.pool.role = setup.role := ih.role
    obtain ⟨hnext, hnode, hpool, hnumber, hrequests, hreplies⟩ :=
      handle_originates (s := s.setTime now) (hsetup.symm ▸ hpeers)
        (hrole.trans (congrArg Setup.role hsetup.symm)) (hsetup.symm ▸ haccepts) e
    rw [creations_step, actions_step]
    exact ih.append ⟨hnext, hnode, hpool, hnumber, hrequests, hreplies⟩

/-- What a run has listed to whom, by the role of the session. -/
structure Flooded (setup : Setup) (s : Session) (log : List Entry) : Prop where
  distinct : ((admitted log).map (·.1)).Nodup
  first : ∀ id peer, (id, peer) ∈ admitted log ↔
    (brought log).find? (·.1 == id) = some (id, peer)
  held : setup.role ≠ .client → ∀ id, s.pool.holds id = true ↔ id ∈ (admitted log).map (·.1)
  /-- No id is listed to a peer twice, as long as the numbers of a client last. -/
  once : ∀ peer, (setup.role = .client → creations log ≤ UInt64.size) →
    ((listedTo .requestTrans peer (actions log)).map (·.1)).Nodup
  /-- No id is listed to the peer that brought it first. -/
  onward : ∀ id peer, (id, peer) ∈ admitted log →
    id ∉ (listedTo .requestTrans peer (actions log)).map (·.1)
  passed : setup.role = .committer ∨ setup.role = .order → ∀ peer,
    listedTo .replyTrans peer (actions log) = [] ∧
      listedTo .requestTrans peer (actions log) =
        if peer ∈ setup.peers then ((admitted log).filter (·.2 != peer)).map fun x => (x.1, 0)
        else []
  answered : setup.role = .endorser → ∀ peer,
    listedTo .requestTrans peer (actions log) = [] ∧
      listedTo .replyTrans peer (actions log) =
        ((admitted log).filter (·.2 == peer)).map fun x => (x.1, setup.node)
  originated : setup.role = .client → ∀ peer,
    listedTo .replyTrans peer (actions log) = [] ∧
      listedTo .requestTrans peer (actions log) =
        if peer ∈ setup.peers then
          (List.range (creations log)).map fun k => (⟨setup.node, UInt64.ofNat (k + 1)⟩, 0)
        else []

theorem brought_of_client (h : Logged setup config s log)
    (haccepts : setup.role.acceptsRequests = false) : brought log = [] := by
  induction h with
  | fresh => rfl
  | @step s log h now e ih =>
    have hsetup : (s.setTime now).setup = setup := h.reachable.sound.setup_eq
    rw [brought_step, ih, brings_of_not_accepts (hsetup.symm ▸ haccepts)]
    rfl

theorem created_fresh (setup : Setup) (config : SessionConfig) (n : Nat) :
    (fresh setup config).pool.face.created n =
      (List.range n).map fun k => (⟨setup.node, UInt64.ofNat (k + 1)⟩, 0) := by
  refine List.map_congr_left fun k _ => ?_
  show ((⟨setup.node, 1 + UInt64.ofNat k⟩ : TransactionId), (0 : NodeId)) = _
  rw [UInt64.ofNat_add, UInt64.add_comm]
  rfl

theorem mem_admitted {id : TransactionId} :
    (id, peer) ∈ admitted log ↔ (brought log).find? (·.1 == id) = some (id, peer) :=
  mem_firsts.trans (and_iff_right rfl)

theorem relayed_sublist (f : Face) (peers : List NodeId) (peer : NodeId)
    (news : List (TransactionId × NodeId)) :
    ((relayed f peers .requestTrans peer news).map (·.1)).Sublist
      ((news.filter (·.2 != peer)).map (·.1)) := by
  rw [relayed]
  split
  · rw [Face.passes]
    split
    · exact List.nil_sublist _
    · rw [List.map_map]
      exact .refl _
  · exact List.nil_sublist _

/-- A session that takes requests relays each admitted id once. -/
theorem flooded_of_accepts (h : Logged setup config s log) (hpeers : setup.peers.Nodup)
    (haccepts : setup.role.acceptsRequests = true) : Flooded setup s log := by
  obtain ⟨-, hface, hlists⟩ := h.floods hpeers haccepts
  let f := (fresh setup config).pool.face
  have hrequests (peer : NodeId) : listedTo .requestTrans peer (actions log) =
      relayed f setup.peers .requestTrans peer (admitted log) :=
    hlists .requestTrans (by decide) peer
  have hreplies (peer : NodeId) : listedTo .replyTrans peer (actions log) =
      relayed f setup.peers .replyTrans peer (admitted log) := hlists .replyTrans (by decide) peer
  have hdistinct : ((admitted log).map (·.1)).Nodup := firsts_distinct _ _
  refine ⟨hdistinct, fun id peer => mem_admitted, fun _ id => ?_, fun peer _ => ?_,
    fun id peer hid hmem => ?_, fun hr peer => ?_, fun hr peer => ?_, fun hr => ?_⟩
  · have hholds : s.pool.holds = (f.taking (brought log)).holds := congrArg Face.holds hface
    rw [hholds, admitted, mem_firsts_ids]
    exact (and_iff_right rfl).symm
  · rw [hrequests]
    exact hdistinct.sublist ((relayed_sublist ..).trans (List.filter_sublist.map _))
  · -- whoever is listed the id is not the one that brought it first
    rw [hrequests] at hmem
    obtain ⟨⟨id', first⟩, hx, rfl⟩ := List.mem_map.mp ((relayed_sublist ..).subset hmem)
    obtain ⟨hadmitted, hne⟩ := List.mem_filter.mp hx
    have hsame := (mem_admitted.mp hid).symm.trans (mem_admitted.mp hadmitted)
    simp_all
  · have hexecutes : ¬f.role.executes = true := by
      show ¬setup.role.executes = true
      rcases hr with hr | hr <;> rw [hr] <;> decide
    rw [hreplies, hrequests, relayed, relayed, Face.answers, Face.passes, if_neg hexecutes,
      if_neg hexecutes]
    exact ⟨rfl, rfl⟩
  · have hexecutes : f.role.executes = true := by
      show setup.role.executes = true
      rw [hr]
      rfl
    rw [hreplies, hrequests, relayed, relayed, Face.answers, Face.passes, if_pos hexecutes,
      if_pos hexecutes]
    exact ⟨ite_self _, rfl⟩
  · rw [hr] at haccepts
    cases haccepts

theorem flooded_of_client (h : Logged setup config s log) (hpeers : setup.peers.Nodup)
    (hclient : setup.role = .client) : Flooded setup s log := by
  have haccepts : setup.role.acceptsRequests = false := by rw [hclient]; rfl
  obtain ⟨-, -, -, -, hrequests, hreplies⟩ := h.originates hpeers haccepts
  have hnone : admitted log = [] := by rw [admitted, brought_of_client h haccepts, firsts]
  refine ⟨firsts_distinct _ _, fun id peer => mem_admitted, fun hr => absurd hclient hr,
    fun peer hlast => ?_, fun id peer hid => ?_, fun hr => ?_, fun hr => ?_, fun _ peer => ?_⟩
  · rw [hrequests]
    split
    · exact Face.created_distinct _ (hlast hclient)
    · exact List.nodup_nil
  · rw [hnone] at hid
    exact absurd hid List.not_mem_nil
  · rcases hr with hr | hr <;> cases hclient.symm.trans hr
  · cases hclient.symm.trans hr
  · exact ⟨hreplies peer, (hrequests peer).trans (by rw [created_fresh]; rfl)⟩

/-- Over a run no id is listed to a peer twice in requests, nor at all to the
peer that brought it first. A committer or an order node passes each admitted id
on to all its other peers and answers none; an endorser answers each to who
brought it first, in its own name, and passes none on; a client offers its own
transactions, by their numbers, to all its peers, and nothing else. -/
theorem logged_flooding (h : Logged setup config s log) (hpeers : setup.peers.Nodup) :
    Flooded setup s log := by
  cases haccepts : setup.role.acceptsRequests with
  | true => exact flooded_of_accepts h hpeers haccepts
  | false =>
    have hclient : setup.role = .client := by simpa [Role.acceptsRequests] using haccepts
    exact flooded_of_client h hpeers hclient

/-- Two peers offer one transaction, the second after a restart and beside
another one: each is passed on once, to the peer that did not bring it. -/
theorem logged_flooding_restarted :
    let offer (numbers : List UInt64) :=
      (Envelope.requestTrans (numbers.map fun n => Transaction.create 3 n 0.0)).frame
    let setup : Setup := ⟨1, .committer, [2, 3], .standard, .usual, .empty⟩
    let s := (((((fresh setup .usual).after 0.0 .start).after 1.0
      (.bytesReceived 2 (offer [9, 9]))).after 2.0 .stop).after 3.0 .start).after 4.0
        (.bytesReceived 3 (offer [9, 10]))
    setup.peers.Nodup ∧ ∃ log, Logged setup .usual s log ∧
      brought log = [(⟨3, 9⟩, 2), (⟨3, 9⟩, 2), (⟨3, 9⟩, 3), (⟨3, 10⟩, 3)] ∧
      listedTo .requestTrans 2 (actions log) = [(⟨3, 10⟩, 0)] ∧
      listedTo .requestTrans 3 (actions log) = [(⟨3, 9⟩, 0)] ∧ Flooded setup s log := by
  intro offer setup s
  have hpeers : setup.peers.Nodup := by decide
  have h : Logged setup .usual s _ :=
    .step (.step (.step (.step (.step .fresh 0.0 .start) 1.0 (.bytesReceived 2 (offer [9, 9])))
      2.0 .stop) 3.0 .start) 4.0 (.bytesReceived 3 (offer [9, 10]))
  exact ⟨hpeers, _, h, by decide +kernel, by decide +kernel, by decide +kernel,
    logged_flooding h hpeers⟩

end BlockGossip.Session
