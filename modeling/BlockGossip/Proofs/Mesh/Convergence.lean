import BlockGossip.Proofs.Mesh.Agreement

/-!
# Quiet gossip has converged

Nodes start fresh, never stop, and exchange frames in any order, each delivered
once. `Spreading` says of every stored block and every peer that a frame that
announces the block is on its way there, or the peer has heard of it. Once no
frame about blocks is on its way and no timer about blocks runs, what was heard
of is held; and by induction on the height it is stored, because an orphan's
parent would be stored at the peer too.
-/

namespace BlockGossip

/-- The parcel announces the block to a node. -/
structure Parcel.Announces (protocol : Protocol) (p : Parcel) (sender receiver : NodeId)
    (id : BlockId) : Prop where
  sender : p.sender = sender
  receiver : p.receiver = receiver
  kind : p.kind = .inv ∨ p.kind = .headers
  announces : ∃ e ∈ (pullAll p.frame).1, Session.Announces protocol e id

namespace Mesh

variable {sites : NodeId → Option Site} {protocol : Protocol} {rule : Linkage} {m : Mesh}
  {n : NodeId} {s t : Session} {now : Time} {starts : NodeId → Time} {e : Event} {b : Block}
  {p : Parcel}

/-- Nodes that have started, each at a time of its own, and nothing sent. -/
def started (sites : NodeId → Option Site) (now : NodeId → Time) : Mesh :=
  ⟨fun n => (sites n).map fun site => (Session.fresh site.setup site.config).after (now n) .start,
    [], [], []⟩

/-- The mesh once a parcel is taken from those posted. -/
def without (m : Mesh) (p : Parcel) : Mesh := { m with posted := m.posted.erase p }

/-- The meshes that gossip leads to: nodes start, and then, in any order and at
any times, a posted frame is delivered and gone, a timer fires, or a block with
an id of its own is minted at a node. The times of minted blocks have to cross
the wire any number of times. -/
inductive Gossip (sites : NodeId → Option Site) : Mesh → Prop
  | started (now : NodeId → Time) : Gossip sites (.started sites now)
  | delivered {m : Mesh} (h : Gossip sites m) (now : Time) {p : Parcel} (hp : p ∈ m.posted) :
    Gossip sites ((m.without p).act p.receiver now (.bytesReceived p.sender p.frame))
  | fired {m : Mesh} (h : Gossip sites m) (now : Time) (n : NodeId) (timer : TimerId) :
    Gossip sites (m.act n now (.timerFired timer))
  | minted {m : Mesh} (h : Gossip sites m) (now : Time) {n : NodeId} {s : Session} {b : Block}
    (hn : m.node? n = some s) (h0 : b.id ≠ ⟨0, 0⟩) (hnew : b.id ∉ m.minted.map Block.id)
    (hlast : Time.Lasting b.timestamp) : Gossip sites ((m.minting b).act n now (.blockMinted b))

structure Quiet (m : Mesh) : Prop where
  parcels : ∀ p ∈ m.posted,
    p.kind ∉ [MessageKind.inv, .headers, .getHeaders, .getData, .block]
  timers : ∀ n s, m.node? n = some s →
    ∀ id, .inventoryTimeout id ∉ s.armed ∧ .validation id ∉ s.armed

-- ---------------------------------------------------------------------------
-- Word of blocks
-- ---------------------------------------------------------------------------

structure Spreading (protocol : Protocol) (m : Mesh) : Prop where
  running : ∀ n s, m.node? n = some s → s.running = true
  tidy : ∀ n s, m.node? n = some s → s.Tidy []
  shared : ∀ n s, m.node? n = some s → s.setup.protocol = protocol
  told : m.abandoned = [] → ∀ a s, m.node? a = some s → ∀ x ∈ s.ledger.toList, x ≠ .genesis →
    ∀ b ∈ s.setup.peers, ∀ t, m.node? b = some t → t.setup.role.handlesInventory = true →
      t.heard x.id ∨ ∃ p ∈ m.posted, p.Announces protocol a b x.id

namespace Spreading

variable {rest : List Parcel} {id : BlockId} {a r : NodeId}

/-- Word of a block is not lost: it stays on its way, or it arrives, and what
was heard of stays heard of unless it is given up. -/
theorem carry (hagreed : m.Agreed Time.Lasting sites) (hprotocol : s.setup.protocol = protocol)
    (hrunning : s.running = true) (hn : m.node? n = some s) (he : e ≠ .stop)
    (hkept : (s.setTime now).abandoned? e = none)
    (hrest : ∀ q ∈ m.posted, q ∈ rest ∨ (q.receiver = n ∧ e = .bytesReceived q.sender q.frame))
    (ht : ({ m with posted := rest }.act n now e).node? r = some t)
    (hrole : t.setup.role.handlesInventory = true)
    (h : ∀ t', m.node? r = some t' → t'.setup.role.handlesInventory = true →
      t'.heard id ∨ ∃ p ∈ m.posted, p.Announces protocol a r id) :
    t.heard id ∨ ∃ p ∈ ({ m with posted := rest }.act n now e).posted,
      p.Announces protocol a r id := by
  have hn' : ({ m with posted := rest } : Mesh).node? n = some s := hn
  have hposted (q : Parcel) (hq : q ∈ rest) :
      q ∈ ({ m with posted := rest }.act n now e).posted := by
    rw [act_posted hn']
    exact List.mem_append_left _ hq
  rcases node?_of_act hn' ht with ⟨rfl, rfl⟩ | ⟨hr, ht'⟩
  · have hsetup : (s.after now e).setup = s.setup := Session.handle_setup (s.setTime now) e
    rw [hsetup] at hrole
    have hanchored := hagreed.anchored hn
    rcases h s hn hrole with hheard | ⟨p, hp, hannounces⟩
    · exact .inl (Session.handle_heard (s := s.setTime now) hanchored
        (hagreed.copies r s hn).staging hheard he (by simp [hkept]))
    · rcases hrest p hp with hp' | ⟨-, rfl⟩
      · exact .inr ⟨p, hposted p hp', hannounces⟩
      · -- the announcement arrives
        obtain ⟨read, hread, hid⟩ := hannounces.announces
        have hfeed := ((hagreed.idle r s hn).feed (hagreed.parcels p hp).whole p.sender).1
        rw [← hfeed] at hread
        rw [← hprotocol] at hid
        exact .inl (Session.handle_announced (s := s.setTime now) hrunning hrole hread hid)
  · rcases h t ht' hrole with hheard | ⟨p, hp, hannounces⟩
    · exact .inl hheard
    · rcases hrest p hp with hp' | ⟨hreceiver, -⟩
      · exact .inr ⟨p, hposted p hp', hannounces⟩
      · exact absurd (hannounces.receiver.symm.trans hreceiver) hr

/-- Of a block that a node newly stores, its origin has heard, and word is on its
way to every other peer. -/
theorem told_of_stored (hafter : (m.act n now e).Agreed Time.Lasting sites)
    (hn : m.node? n = some s) (ha : Anchored s.ledger s.orphans) {x : Block}
    (hx : x ∈ ((s.setTime now).acceptance e).stored) (hr : r ∈ s.setup.peers)
    (ht : (m.act n now e).node? r = some t) :
    t.heard x.id ∨ ∃ p ∈ (m.act n now e).posted, p.Announces s.setup.protocol n r x.id := by
  have hself := act_self hn now e
  have hstored : x ∈ (s.after now e).ledger.toList := by
    rw [Session.after, Session.handle_ledger,
      Session.acceptance_toList (s := s.setTime now) ha e]
    exact List.mem_append_right _ hx
  have hcopy := (hafter.copies n _ hself).ledger x hstored
  by_cases ho : x.origin = some r
  · obtain ⟨t', ht', hid⟩ := hcopy.origin r ho
    obtain rfl := Option.some.inj (ht.symm.trans ht')
    exact .inl (.inl (Session.isKnown_iff.mpr (.inl (.inl hid))))
  · obtain ⟨time, htime, -⟩ := hcopy.time.reread?
    obtain ⟨kind, frame, bytes, hsend, hkind, hread⟩ :=
      Session.handle_announces (s := s.setTime now) hx hr ho
        (Option.isSome_iff_exists.mpr ⟨time, htime⟩)
    refine .inr ⟨⟨n, r, kind, frame⟩, ?_, ⟨rfl, rfl, hkind, hread⟩⟩
    rw [act_posted hn]
    exact List.mem_append_right _ (mem_parcelsOf.mpr ⟨rfl, bytes, hsend⟩)

/-- A step of one node keeps word of blocks spreading, if it does not stop the
node, and takes no parcel from those posted but one that it delivers. -/
theorem act (h : m.Spreading protocol) (hagreed : m.Agreed Time.Lasting sites)
    (hafter : ({ m with posted := rest }.act n now e).Agreed Time.Lasting sites)
    (hn : m.node? n = some s) (he : e ≠ .stop)
    (hrest : ∀ q ∈ m.posted, q ∈ rest ∨ (q.receiver = n ∧ e = .bytesReceived q.sender q.frame)) :
    ({ m with posted := rest }.act n now e).Spreading protocol := by
  have hn' : ({ m with posted := rest } : Mesh).node? n = some s := hn
  have hsetup : (s.after now e).setup = s.setup := Session.handle_setup (s.setTime now) e
  have hanchored := hagreed.anchored hn
  constructor
  · intro i t ht
    rcases node?_of_act hn' ht with ⟨-, rfl⟩ | ⟨-, ht⟩
    · exact Session.handle_running (s := s.setTime now) (h.running n s hn) he
    · exact h.running i t ht
  · intro i t ht
    rcases node?_of_act hn' ht with ⟨-, rfl⟩ | ⟨-, ht⟩
    · exact Session.handle_tidy ((h.tidy n s hn).of_core (Session.setTime_core s now)) e
    · exact h.tidy i t ht
  · intro i t ht
    rcases node?_of_act hn' ht with ⟨-, rfl⟩ | ⟨-, ht⟩
    · exact hsetup ▸ h.shared n s hn
    · exact h.shared i t ht
  · intro hnone a u hu x hx hg r hr t ht hrole
    rw [act_abandoned hn', List.append_eq_nil_iff] at hnone
    have hkept : (s.setTime now).abandoned? e = none := by
      simpa using hnone.2
    have hcarry (u' : Session) (hu' : m.node? a = some u') (hx' : x ∈ u'.ledger.toList)
        (hr' : r ∈ u'.setup.peers) :=
      carry hagreed (h.shared n s hn) (h.running n s hn) hn he hkept hrest ht hrole
        (h.told hnone.1 a u' hu' x hx' hg r hr')
    rcases node?_of_act hn' hu with ⟨rfl, rfl⟩ | ⟨-, hu'⟩
    · rw [hsetup] at hr
      rw [Session.after, Session.handle_ledger,
        Session.acceptance_toList (s := s.setTime now) hanchored e, List.mem_append] at hx
      rcases hx with hx | hx
      · exact hcarry s hn hx hr
      · exact h.shared a s hn ▸ told_of_stored hafter hn' hanchored hx hr ht
    · exact hcarry u hu' hx hr

/-- A step that posts more and delivers nothing. -/
theorem act_posting (h : m.Spreading protocol) (hagreed : m.Agreed Time.Lasting sites)
    (hafter : (m.act n now e).Agreed Time.Lasting sites) (hn : m.node? n = some s)
    (he : e ≠ .stop) : (m.act n now e).Spreading protocol :=
  h.act hagreed (show ({ m with posted := m.posted }.act n now e).Agreed _ _ from hafter) hn he
    fun _ hq => .inl hq

/-- A parcel to a node that is not there is no loss. -/
theorem without (h : m.Spreading protocol) (hp : m.node? p.receiver = none) :
    (m.without p).Spreading protocol where
  running := h.running
  tidy := h.tidy
  shared := h.shared
  told hnone a s hs x hx hg r hr t ht hrole := by
    refine (h.told hnone a s hs x hx hg r hr t ht hrole).imp_right ?_
    rintro ⟨q, hq, hannounces⟩
    have hne : q ≠ p := by
      rintro rfl
      rw [hannounces.receiver] at hp
      exact nomatch hp.symm.trans ht
    exact ⟨q, (List.mem_erase_of_ne hne).mpr hq, hannounces⟩

end Spreading

theorem without_grown (m : Mesh) (p : Parcel) : Grown m (m.without p) :=
  ⟨fun _ ho => ho, fun _ _ h => h⟩

theorem Agreed.without (h : m.Agreed Time.Lasting sites) (p : Parcel) :
    (m.without p).Agreed Time.Lasting sites where
  sound := h.sound
  idle := h.idle
  copies n s hn := (h.copies n s hn).mono (fun _ hb => hb.mono (without_grown m p))
    (fun _ hb => hb.mono (without_grown m p))
  parcels q hq := (h.parcels q (List.mem_of_mem_erase hq)).mono (without_grown m p)
  distinct := h.distinct

-- ---------------------------------------------------------------------------
-- Gossip
-- ---------------------------------------------------------------------------

theorem started_node? (hn : (started sites starts).node? n = some s) :
    ∃ site, sites n = some site ∧
      s = (Session.fresh site.setup site.config).after (starts n) .start := by
  obtain ⟨site, hsite, rfl⟩ := Option.map_eq_some_iff.mp hn
  exact ⟨site, hsite, rfl⟩

theorem started_agreed : (started sites starts).Agreed Time.Lasting sites where
  sound n s hn := by
    obtain ⟨site, hsite, rfl⟩ := started_node? hn
    exact ⟨site, hsite, (Session.Reachable.step .fresh (starts n) .start).sound⟩
  idle n s hn := by
    obtain ⟨site, -, rfl⟩ := started_node? hn
    exact Session.handle_idle FrameDecoder.empty_idle nofun
  copies n s hn := by
    obtain ⟨site, -, rfl⟩ := started_node? hn
    obtain ⟨hl, ho, hst⟩ := Session.fresh_holds (Q := (started sites starts).HeaderCopy) site.setup
      site.config (genesis_copy Time.lasting_kept (started sites starts))
    exact Session.handle_holds (s := (Session.fresh site.setup site.config).setTime (starts n))
      (genesis_anchored _) ⟨hl, ho, hst⟩ trivial
  parcels := nofun
  distinct := List.nodup_singleton _

theorem started_spreading
    (hprotocol : ∀ n site, sites n = some site → site.setup.protocol = protocol) :
    (started sites starts).Spreading protocol where
  running n s hn := by
    obtain ⟨site, -, rfl⟩ := started_node? hn
    exact congrArg Core.running (Session.onStart_core _)
  tidy n s hn := by
    obtain ⟨site, -, rfl⟩ := started_node? hn
    exact (Session.Reachable.step .fresh (starts n) .start).tidy
  shared n s hn := by
    obtain ⟨site, hsite, rfl⟩ := started_node? hn
    have hsetup :
        ((Session.fresh site.setup site.config).after (starts n) .start).setup = site.setup :=
      Session.handle_setup ((Session.fresh site.setup site.config).setTime (starts n)) .start
    rw [hsetup]
    exact hprotocol n site hsite
  told _ a s hs x hx hg := by
    obtain ⟨site, -, rfl⟩ := started_node? hs
    rw [Session.after, Session.handle_ledger] at hx
    exact absurd (List.mem_singleton.mp hx) hg

theorem Gossip.invariant
    (hprotocol : ∀ n site, sites n = some site → site.setup.protocol = protocol)
    (h : Gossip sites m) : m.Agreed Time.Lasting sites ∧ m.Spreading protocol := by
  induction h with
  | started now => exact ⟨started_agreed, started_spreading hprotocol⟩
  | @delivered m _ now p hp ih =>
    obtain ⟨hagreed, hspreading⟩ := ih
    cases hn : m.node? p.receiver with
    | none =>
      have habsent : (m.without p).node? p.receiver = none := hn
      rw [act_absent habsent]
      exact ⟨hagreed.without p, hspreading.without hn⟩
    | some s =>
      have hcarries := (hagreed.parcels p hp).mono (without_grown m p)
      have hafter := (hagreed.without p).act (e := .bytesReceived p.sender p.frame)
        Time.lasting_kept (show (m.without p).node? p.receiver = some s from hn) now
        (fun _ _ he => (Event.bytesReceived.inj he).2 ▸ hcarries.whole)
        ((hagreed.without p).brings_of_carries hn hcarries)
      refine ⟨hafter, hspreading.act hagreed hafter hn nofun fun q hq => ?_⟩
      by_cases hqp : q = p
      · subst hqp
        exact .inr ⟨rfl, rfl⟩
      · exact .inl ((List.mem_erase_of_ne hqp).mpr hq)
  | @fired m _ now n timer ih =>
    obtain ⟨hagreed, hspreading⟩ := ih
    cases hn : m.node? n with
    | none =>
      rw [act_absent hn]
      exact ⟨hagreed, hspreading⟩
    | some s =>
      have hafter := hagreed.act (e := .timerFired timer) Time.lasting_kept hn now nofun trivial
      exact ⟨hafter, hspreading.act_posting hagreed hafter hn nofun⟩
  | @minted m _ now n s b hn h0 hnew hlast ih =>
    obtain ⟨hagreed, hspreading⟩ := ih
    have hminting : (m.minting b).Agreed Time.Lasting sites := by
      refine hagreed.minting fun hid => ?_
      rcases List.mem_cons.mp hid with hid | hid
      · exact h0 hid
      · exact hnew hid
    have hafter := hminting.act (e := .blockMinted b) Time.lasting_kept hn now nofun
      (Agreed.brings_of_minting hlast s)
    have hspread : (m.minting b).Spreading protocol :=
      ⟨hspreading.running, hspreading.tidy, hspreading.shared, hspreading.told⟩
    exact ⟨hafter, hspread.act_posting hminting hafter hn nofun⟩

-- ---------------------------------------------------------------------------
-- Quiet meshes
-- ---------------------------------------------------------------------------

/-- What was heard of is held once nothing waits. -/
theorem held_of_heard {id : BlockId} (ht : t.Tidy []) (hheard : t.heard id)
    (hquiet : ∀ id, .inventoryTimeout id ∉ t.armed ∧ .validation id ∉ t.armed) :
    t.ledger.contains id = true ∨ t.orphans.contains id = true := by
  rcases hheard with hknown | htracked
  · exact (Session.isKnown_iff.mp hknown).resolve_right fun hreceived =>
      (hquiet id).2 (ht.validations id hreceived)
  · rcases ht.requests id htracked with harmed | hpending
    · exact absurd harmed (hquiet id).1
    · exact absurd hpending List.not_mem_nil

/-- In a quiet mesh a peer has stored or parked what a node has stored. -/
theorem Spreading.held (h : m.Spreading protocol) (hquiet : m.Quiet) (hkept : m.abandoned = [])
    {a r : NodeId} (hs : m.node? a = some s) {x : Block} (hx : x ∈ s.ledger.toList)
    (hg : x ≠ .genesis) (hr : r ∈ s.setup.peers) (ht : m.node? r = some t)
    (hrole : t.setup.role.handlesInventory = true) :
    t.ledger.contains x.id = true ∨ t.orphans.contains x.id = true := by
  rcases h.told hkept a s hs x hx hg r hr t ht hrole with hheard | ⟨p, hp, hannounces⟩
  · exact held_of_heard (h.tidy r t ht) hheard (hquiet.timers r t ht)
  · refine absurd ?_ (hquiet.parcels p hp)
    rcases hannounces.kind with hkind | hkind
    · simp [hkind]
    · simp [hkind]

/-- Quiet gossip has converged: whatever the network and the order of events,
once nothing about blocks is on its way or awaited, and no request was given
up, every block that a node has stored its peers have stored, but for clients. -/
theorem gossip_converged
    (hrule : ∀ n site, sites n = some site → site.config.ledger.linkage = rule)
    (hprotocol : ∀ n site, sites n = some site → site.setup.protocol = protocol)
    (h : Gossip sites m) (hquiet : m.Quiet) (hkept : m.abandoned = []) {a r : NodeId}
    (hs : m.node? a = some s) (hr : r ∈ s.setup.peers) (ht : m.node? r = some t)
    (hrole : t.setup.role ≠ .client) (id : BlockId) (hid : s.ledger.contains id = true) :
    t.ledger.contains id = true := by
  obtain ⟨hagreed, hspreading⟩ := Gossip.invariant hprotocol h
  have htakes : t.setup.role.handlesInventory = true := by
    simpa [Role.handlesInventory] using hrole
  have hsa := hagreed.anchored hs
  have hsl := hagreed.linkage hrule hs
  have hta := hagreed.anchored ht
  have htl := hagreed.linkage hrule ht
  have hscopies := hagreed.copies a s hs
  have htcopies := hagreed.copies r t ht
  suffices hall : ∀ k, ∀ x ∈ s.ledger.toList, x.height.toNat = k →
      t.ledger.contains x.id = true by
    obtain ⟨x, hx, rfl⟩ := (Ledger.contains_iff hsa.indexed).mp hid
    exact hall _ x hx rfl
  intro k
  induction k with
  | zero =>
    intro x hx h0
    obtain rfl := hsa.eq_genesis_of_height hx h0
    exact Ledger.contains_of_mem hta.indexed hta.genesis_mem
  | succ k ih =>
    intro x hx hheight
    have hg : x ≠ .genesis := by
      rintro rfl
      exact nomatch hheight
    -- an orphan there would have the copy of its parent that is stored there
    refine (hspreading.held hquiet hkept hs hx hg hr ht htakes).resolve_right fun horphan => ?_
    obtain ⟨o, ho, hoid⟩ := OrphanPool.contains_iff.mp horphan
    obtain ⟨p, hp, hparent⟩ := (Ledger.hasParent_iff hsa.indexed).mp
      ((hsa.genesis_or_hasParent hx).resolve_left hg)
    have hpheight := (Linkage.isParent_iff.mp hparent).1
    obtain ⟨q, hq, hqid⟩ := (Ledger.contains_iff hta.indexed).mp (ih p hp (by omega))
    have hpq := hagreed.alike (htcopies.ledger q hq) (hscopies.ledger p hp) hqid
    have hox := hagreed.alike (htcopies.orphans o ho) (hscopies.ledger x hx) hoid
    have hwaits := (Ledger.hasParent_eq_false_iff hta.indexed).mp (hta.waiting o ho) q hq
    rw [htl, hpq.twin.isParent hox.twin, ← hsl, hparent] at hwaits
    exact Bool.noConfusion hwaits

/-- The mesh once the oldest posted frame is delivered. -/
def deliverOldest (m : Mesh) (now : Time) : Mesh :=
  match m.posted with
  | [] => m
  | p :: _ => (m.without p).act p.receiver now (.bytesReceived p.sender p.frame)

theorem Gossip.deliverOldest (h : Gossip sites m) (now : Time) :
    Gossip sites (m.deliverOldest now) := by
  unfold Mesh.deliverOldest
  split
  · exact h
  · rename_i p rest hposted
    exact h.delivered now (hposted ▸ List.mem_cons_self ..)

/-- A block minted at one of two peers: announced, asked for, answered with its
header and in full, and validated. -/
theorem gossip_converged_pair :
    let sites := pair .usual
    let b := { Block.genesis with height := 1, minerId := 1 }
    let announced := ((started sites fun _ => 0.0).minting b).act 1 1.0 (.blockMinted b)
    let asked := announced.deliverOldest 2.0
    let answered := (asked.deliverOldest 3.0).deliverOldest 4.0
    let received := (answered.deliverOldest 5.0).deliverOldest 6.0
    let m := received.act 2 7.0 (.timerFired (.validation b.id))
    m.Quiet ∧ m.abandoned = [] ∧ m.Holds 1 b.id ∧ m.Holds 2 b.id := by
  intro sites b announced asked answered received m
  have hstarted : Gossip sites (started sites fun _ => 0.0) := .started _
  have hannounced : Gossip sites announced :=
    hstarted.minted 1.0 (n := 1) rfl (by decide) (by decide) Time.zero_lasting
  have hreceived : Gossip sites received :=
    (((hannounced.deliverOldest 2.0).deliverOldest 3.0).deliverOldest 4.0
      |>.deliverOldest 5.0).deliverOldest 6.0
  have hm : Gossip sites m := hreceived.fired 7.0 2 (.validation b.id)
  obtain ⟨hposted, hkept, hfirst, hsecond⟩ :
      m.posted = [] ∧ m.abandoned = [] ∧
        (m.node? 1).any (fun s => s.ledger.contains b.id && s.armed.isEmpty &&
          s.setup.peers.contains 2) = true ∧
        (m.node? 2).any (fun s => s.armed.isEmpty && s.setup.role != .client) = true := by
    decide +kernel
  obtain ⟨s, hs, hstate⟩ := (Option.any_eq_true ..).mp hfirst
  obtain ⟨t, ht, hstate'⟩ := (Option.any_eq_true ..).mp hsecond
  simp only [Bool.and_eq_true, List.isEmpty_iff, List.contains_iff_mem] at hstate hstate'
  obtain ⟨⟨hid, hidle⟩, hpeer⟩ := hstate
  obtain ⟨hidle', hrole⟩ := hstate'
  have hrule n site (h : sites n = some site) :
      site.config.ledger.linkage = .minerIdentity := by
    rw [(eq_of_pair h).2.1]
    rfl
  have hprotocol n site (h : sites n = some site) := (eq_of_pair h).2.2.1
  have hquiet : m.Quiet := by
    refine ⟨by simp [hposted], fun n u hu => ?_⟩
    obtain ⟨site, hsite, -⟩ := (Gossip.invariant hprotocol hm).1.sound n u hu
    rcases (eq_of_pair hsite).1 with rfl | rfl
    · obtain rfl := Option.some.inj (hs.symm.trans hu)
      simp [hidle]
    · obtain rfl := Option.some.inj (ht.symm.trans hu)
      simp [hidle']
  exact ⟨hquiet, hkept, ⟨s, hs, hid⟩, t, ht,
    gossip_converged hrule hprotocol hm hquiet hkept hs hpeer ht (by simpa using hrole) b.id hid⟩

end Mesh

end BlockGossip
