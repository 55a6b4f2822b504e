import BlockGossip.Proofs.Session.Posts

/-!
# Whom a session writes to

A session writes to its peers, to the sender of what it answers, and to those
who announced a block to it. So where its peers and all who write to it have a
property, so do all it writes to (`handle_reaches`), at any time of a run
(`handle_acquainted`).
-/

namespace BlockGossip

variable {P : NodeId → Prop} {k : BlockId} {peer : NodeId} {entry : InventoryEntry}

-- ---------------------------------------------------------------------------
-- The tracker
-- ---------------------------------------------------------------------------

namespace Inventory

variable {inv : Inventory BlockId}

/-- Every announcer has the property. -/
def Told (P : NodeId → Prop) (inv : Inventory BlockId) : Prop :=
  ∀ id entry, inv.get? id = some entry → ∀ peer ∈ entry.announcers, P peer

namespace Told

theorem empty : Told P .empty := fun _ _ h => nomatch h

theorem insert (h : inv.Told P) (k : BlockId) (hentry : ∀ peer ∈ entry.announcers, P peer) :
    Told P ⟨inv.entries.insert k entry⟩ := by
  intro id found hfound
  rw [get?, Table.get?_insert] at hfound
  split at hfound
  · obtain rfl := Option.some.inj hfound
    exact hentry
  · exact h id found hfound

theorem erase (h : inv.Told P) (k : BlockId) : Told P ⟨inv.entries.erase k⟩ := by
  intro id found hfound
  rw [get?, Table.get?_erase] at hfound
  split at hfound
  · cases hfound
  · exact h id found hfound

theorem announce (h : inv.Told P) (k : BlockId) (hpeer : P peer) :
    (inv.announce k peer).2.Told P := by
  unfold Inventory.announce
  split
  · exact h.insert k fun p hp => List.mem_singleton.mp hp ▸ hpeer
  · rename_i entry hk
    split
    · exact h
    · refine h.insert k fun p hp => ?_
      rcases List.mem_append.mp hp with hp | hp
      · exact h k entry hk p hp
      · exact List.mem_singleton.mp hp ▸ hpeer

theorem markRequested (h : inv.Told P) (k : BlockId) (peer : NodeId) :
    (inv.markRequested k peer).Told P := by
  unfold Inventory.markRequested
  split
  · exact h
  · rename_i entry hk
    exact h.insert k (h k entry hk)

theorem expire (h : inv.Told P) (k : BlockId) (limit : UInt32) :
    (inv.expire k limit).2.Told P ∧
      ∀ peer, (inv.expire k limit).1 = .retry peer → P peer := by
  unfold Inventory.expire
  cases hk : inv.get? k with
  | none => exact ⟨h, nofun⟩
  | some entry =>
    dsimp only
    cases hnext : entry.announcers[entry.attempts.toNat]? with
    | none => exact ⟨h.erase k, nofun⟩
    | some next =>
      dsimp only
      split
      · refine ⟨h.insert k (h k entry hk), fun peer hpeer => ?_⟩
        obtain rfl := ExpiryOutcome.retry.inj hpeer
        exact h k entry hk next (List.mem_of_getElem? hnext)
      · exact ⟨h.erase k, nofun⟩

end Told

end Inventory

-- ---------------------------------------------------------------------------
-- Sessions
-- ---------------------------------------------------------------------------

/-- Whoever sends the event has the property. -/
def Event.From (P : NodeId → Prop) : Event → Prop
  | .bytesReceived sender _ => P sender
  | _ => True

/-- Whoever the action sends to has the property. -/
def Action.To (P : NodeId → Prop) : Action → Prop
  | .send receiver _ _ _ => P receiver
  | _ => True

namespace Session

variable {s t : Session} {sender : NodeId} {e : Envelope}

/-- The peers of a session have the property, and so do those who announced
blocks to it. -/
structure Acquainted (P : NodeId → Prop) (s : Session) : Prop where
  peers : ∀ peer ∈ s.setup.peers, P peer
  announcers : s.inventory.Told P

theorem Acquainted.of_core (h : s.Acquainted P) (hcore : t.core = s.core) : t.Acquainted P := by
  have hsetup : t.setup = s.setup := congrArg Core.setup hcore
  have hinventory : t.inventory = s.inventory := congrArg Core.inventory hcore
  exact ⟨hsetup ▸ h.peers, hinventory ▸ h.announcers⟩

theorem Acquainted.setTime (h : s.Acquainted P) (now : Time) : (s.setTime now).Acquainted P :=
  ⟨h.peers, h.announcers⟩

theorem armTimer_acquainted (h : s.Acquainted P) (timer : TimerId) (after : Duration) :
    (s.armTimer timer after).1.Acquainted P := by
  unfold armTimer
  split <;> exact ⟨h.peers, h.announcers⟩

theorem requestBlocks_acquainted (h : s.Acquainted P) (peer : NodeId) (ids : List BlockId)
    (full : Bool) : (s.requestBlocks peer ids full).1.Acquainted P := by
  have hstart : (foldActions (startRequest peer) s ids).1.Acquainted P :=
    foldActions_keeps (I := fun t : Session => t.Acquainted P)
      (fun t id _ ht => armTimer_acquainted
        (s := { t with inventory := t.inventory.markRequested id peer })
        ⟨ht.peers, ht.announcers.markRequested id peer⟩ ..) h
  exact hstart.of_core (requestBlocks_core s peer ids full)

theorem announced_acquainted (h : s.Acquainted P) (hpeer : P peer) (id : BlockId) :
    (s.announced peer id).2.Acquainted P := by
  have hcore := announced_core s peer id
  have hsetup : (s.announced peer id).2.setup = s.setup := congrArg Core.setup hcore
  have hinventory : (s.announced peer id).2.inventory = _ := congrArg Core.inventory hcore
  exact ⟨hsetup ▸ h.peers, hinventory ▸ h.announcers.announce id hpeer⟩

theorem announceAll_acquainted (h : s.Acquainted P) (hpeer : P peer) (ids : List BlockId) :
    (announceAll peer s ids).1.Acquainted P := by
  induction ids generalizing s with
  | nil => exact h
  | cons id ids ih =>
    rw [announceAll_cons]
    split
    · exact ih h
    · exact ih (announced_acquainted h hpeer id)

theorem noteHeader_acquainted (h : s.Acquainted P) (hpeer : P peer) (header : Block) :
    (noteHeader peer s header).2.Acquainted P := by
  have hnoting : (s.notingHeader header).Acquainted P := ⟨h.peers, h.announcers⟩
  rw [noteHeader_eq]
  split
  · exact hnoting
  · exact announced_acquainted hnoting hpeer header.id

theorem noteHeaders_acquainted (h : s.Acquainted P) (hpeer : P peer) (headers : List Block) :
    (noteHeaders peer s headers).1.Acquainted P := by
  induction headers generalizing s with
  | nil => exact h
  | cons header rest ih =>
    rw [noteHeaders_cons]
    split
    · exact ih h
    · exact ih (noteHeader_acquainted h hpeer header)

theorem receiveBlock_acquainted (h : s.Acquainted P) (sender : NodeId) (record : Block) :
    (receiveBlock sender s record).1.Acquainted P := by
  rw [receiveBlock_eq]
  split
  · exact h
  · refine armTimer_acquainted (s := { s.resolving record.id with staging := _ }) ?_ ..
    have hcore := resolving_core s record.id
    split at hcore
    · have hsetup : (s.resolving record.id).setup = s.setup := congrArg Core.setup hcore
      have hinventory : (s.resolving record.id).inventory = _ := congrArg Core.inventory hcore
      exact ⟨hsetup ▸ h.peers, hinventory ▸ h.announcers.erase record.id⟩
    · have hsame := h.of_core hcore
      exact ⟨hsame.peers, hsame.announcers⟩

theorem onEnvelope_acquainted (h : s.Acquainted P) (hsender : P sender) (e : Envelope) :
    (onEnvelope sender s e).1.Acquainted P := by
  unfold onEnvelope
  split
  · exact h
  · unfold onInv
    split
    · exact h
    · exact requestBlocks_acquainted
        (announceAll_acquainted (s := s.countReceived .inv _) ⟨h.peers, h.announcers⟩ hsender _) ..
  · exact h.of_core (onGetHeaders_core ..)
  · unfold onHeaders
    split
    · exact h
    · exact requestBlocks_acquainted
        (noteHeaders_acquainted (s := s.countReceived .headers _) ⟨h.peers, h.announcers⟩ hsender _)
        ..
  · exact h.of_core (onGetData_core ..)
  · unfold onBlock
    split
    · exact h
    · exact foldActions_keeps (I := fun t : Session => t.Acquainted P)
        (fun t record _ ht => receiveBlock_acquainted ht sender record)
        (s := s.countReceived .block _) ⟨h.peers, h.announcers⟩
  · exact h.of_core (onRequestTrans_core ..)
  · exact h.of_core (onReplyTrans_core ..)
  all_goals exact h

theorem onInventoryTimeout_acquainted (h : s.Acquainted P) (id : BlockId) :
    (s.onInventoryTimeout id).1.Acquainted P := by
  obtain ⟨hexpire, -⟩ := h.announcers.expire id s.config.maxRequestAttempts
  unfold onInventoryTimeout
  split
  · exact ⟨h.peers, h.announcers.erase id⟩
  · split <;> rename_i outcome <;> rw [outcome] at hexpire
    · exact ⟨h.peers, hexpire⟩
    · exact requestBlocks_acquainted (s := { s with inventory := _ }.countTimeout)
        ⟨h.peers, hexpire⟩ ..
    · exact ⟨h.peers, hexpire⟩

theorem handle_acquainted (h : s.Acquainted P) {e : Event} (he : e.From P) :
    (s.handle e).1.Acquainted P := by
  cases e with
  | start =>
    have hcore := onStart_core s
    have hsetup : s.onStart.1.setup = s.setup := congrArg Core.setup hcore
    have hinventory : s.onStart.1.inventory = s.inventory := congrArg Core.inventory hcore
    exact ⟨hsetup ▸ h.peers, hinventory ▸ h.announcers⟩
  | stop =>
    cases hr : s.running with
    | false => rwa [handle, onStop_idle hr]
    | true =>
      have hcore := onStop_core hr
      have hsetup : s.onStop.1.setup = s.setup := congrArg Core.setup hcore
      have hinventory : s.onStop.1.inventory = .empty := congrArg Core.inventory hcore
      exact ⟨hsetup ▸ h.peers, hinventory ▸ .empty⟩
  | bytesReceived sender bytes =>
    rw [handle]
    split
    · exact foldActions_keeps (I := fun t : Session => t.Acquainted P)
        (fun t e _ ht => onEnvelope_acquainted ht he e)
        (s := { s with frames := (s.frames.feed sender bytes).2 }) ⟨h.peers, h.announcers⟩
    · exact h
  | blockMinted b =>
    rw [handle]
    split
    · have hcore := acceptBlock_core s (b.minted s.now)
      have hsetup : (s.acceptBlock (b.minted s.now)).1.setup = s.setup := congrArg Core.setup hcore
      have hinventory : (s.acceptBlock (b.minted s.now)).1.inventory = s.inventory :=
        congrArg Core.inventory hcore
      exact ⟨hsetup ▸ h.peers, hinventory ▸ h.announcers⟩
    · exact h
  | timerFired timer =>
    by_cases hf : s.running = true ∧ timer ∈ s.armed
    · have hdisarmed : (s.disarm timer).Acquainted P := ⟨h.peers, h.announcers⟩
      rw [handle_timerFired hf.1 hf.2]
      cases timer with
      | inventoryTimeout id => exact onInventoryTimeout_acquainted hdisarmed id
      | validation id =>
        have hcore := onValidation_core (s.disarm (.validation id)) id
        split at hcore
        · exact hdisarmed.of_core hcore
        · have hsetup : (onValidation _ id).1.setup = s.setup := congrArg Core.setup hcore
          have hinventory : (onValidation _ id).1.inventory = s.inventory :=
            congrArg Core.inventory hcore
          exact ⟨hsetup ▸ h.peers, hinventory ▸ h.announcers⟩
      | nextTransaction =>
        rcases onNextTransaction_eq (s.disarm .nextTransaction) with heq | ⟨t, after, hcore, heq⟩
        · show (onNextTransaction _).1.Acquainted P
          rwa [heq]
        · show (onNextTransaction _).1.Acquainted P
          rw [heq]
          exact armTimer_acquainted (hdisarmed.of_core hcore) ..
    · rwa [handle_timerFired_idle hf]

-- ---------------------------------------------------------------------------
-- Receivers
-- ---------------------------------------------------------------------------

/-- All the messages go to nodes with the property. -/
def Reaches (P : NodeId → Prop) (ps : List Post) : Prop := ∀ p ∈ ps, ∀ peer ∈ p.receivers, P peer

theorem Reaches.nil : Reaches P [] := fun _ h => absurd h List.not_mem_nil

theorem Reaches.append {ps qs : List Post} (h : Reaches P ps) (h' : Reaches P qs) :
    Reaches P (ps ++ qs) := fun p hp => (List.mem_append.mp hp).elim (h p) (h' p)

theorem reaches_singleton {receivers : List NodeId} {m : Message} (h : ∀ peer ∈ receivers, P peer) :
    Reaches P [⟨receivers, m⟩] := fun p hp => by rwa [List.mem_singleton.mp hp]

theorem requests_reaches (hpeer : P peer) (ids : List BlockId) (full : Bool) :
    Reaches P (requests peer ids full) := by
  have hto : ∀ p ∈ [peer], P p := fun p hp => List.mem_singleton.mp hp ▸ hpeer
  unfold requests
  split
  · exact .nil
  · refine .append ?_ (reaches_singleton hto)
    split
    · exact reaches_singleton hto
    · exact .nil

theorem unlessNone_reaches {α : Type} {receivers : List NodeId} (h : ∀ peer ∈ receivers, P peer)
    (say : List α → Message) (xs : List α) : Reaches P (unlessNone receivers say xs) := by
  unfold unlessNone
  split
  · exact .nil
  · exact reaches_singleton h

theorem advertisements_reaches (h : s.Acquainted P) (bs : List Block) :
    Reaches P (bs.map s.advertisement) := by
  intro p hp peer hpeer
  obtain ⟨b, -, rfl⟩ := List.mem_map.mp hp
  unfold advertisement at hpeer
  split at hpeer <;> exact h.peers peer (List.mem_of_mem_filter hpeer)

theorem replies_reaches (h : s.Acquainted P) (hsender : P sender) (e : Envelope) :
    Reaches P (s.replies sender e) := by
  have hto : ∀ p ∈ [sender], P p := fun p hp => List.mem_singleton.mp hp ▸ hsender
  unfold replies
  split
  · split
    · exact requests_reaches hsender _ _
    · exact .nil
  · exact unlessNone_reaches hto _ _
  · split
    · exact requests_reaches hsender _ _
    · exact .nil
  · exact unlessNone_reaches hto _ _
  · split
    · exact (unlessNone_reaches hto _ _).append
        (unlessNone_reaches (fun p hp => h.peers p (List.mem_of_mem_filter hp)) _ _)
    · exact .nil
  · exact .nil

theorem counting_core (s : Session) (e : Envelope) : (s.counting e).core = s.core := by
  unfold counting
  split
  · rfl
  · split <;> rfl

theorem repliesAll_reaches (h : s.Acquainted P) (hsender : P sender) (es : List Envelope) :
    Reaches P (repliesAll sender s es) := by
  induction es generalizing s with
  | nil => exact .nil
  | cons e es ih =>
    exact (replies_reaches (h.of_core (counting_core s e)) hsender e).append
      (ih (onEnvelope_acquainted h hsender e))

theorem firedPosts_reaches (h : s.Acquainted P) (timer : TimerId) :
    Reaches P (s.firedPosts timer) := by
  unfold firedPosts
  split
  · rename_i id
    obtain ⟨-, hretry⟩ := h.announcers.expire id s.config.maxRequestAttempts
    split
    · exact .nil
    · split
      · rename_i peer hpeer
        exact requests_reaches (hretry peer hpeer) _ _
      · exact .nil
  · split
    · exact .nil
    · exact advertisements_reaches h _
  · split
    · exact reaches_singleton h.peers
    · exact .nil

theorem posts_reaches (h : s.Acquainted P) {e : Event} (he : e.From P) :
    Reaches P (s.posts e) := by
  unfold posts
  split
  · exact .nil
  · exact .nil
  · split
    · exact repliesAll_reaches (s := { s with frames := (s.frames.feed _ _).2 })
        ⟨h.peers, h.announcers⟩ he _
    · exact .nil
  · split
    · exact firedPosts_reaches ⟨h.peers, h.announcers⟩ _
    · exact .nil
  · split
    · exact advertisements_reaches h _
    · exact .nil

/-- All that an event has a session send goes to its acquaintances. -/
theorem handle_reaches (h : s.Acquainted P) {e : Event} (he : e.From P) :
    ∀ a ∈ (s.handle e).2, a.To P := by
  intro a ha
  cases a with
  | send receiver kind frame wireBytes =>
    have hmem : Action.send receiver kind frame wireBytes ∈
        (s.posts e).flatMap (Post.actions s.config.wire) := by
      rw [← handle_posts]
      exact List.mem_filter.mpr ⟨ha, rfl⟩
    obtain ⟨p, hp, hmem⟩ := List.mem_flatMap.mp hmem
    obtain ⟨peer, hpeer, heq⟩ := List.mem_map.mp hmem
    obtain rfl := (Action.send.inj heq).1
    exact posts_reaches h he p hp peer hpeer
  | setTimer => trivial
  | cancelTimer => trivial

end Session

end BlockGossip
