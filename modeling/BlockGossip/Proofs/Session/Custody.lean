import BlockGossip.Proofs.Session.Apart

/-!
# Custody of blocks

A block is held in one place: received, waiting as an orphan, or stored. A
block that was received stays where it is or moves on, and is lost only to a
stop that finds it waiting for its validation. Stored blocks and orphans
outlast restarts.
-/

namespace BlockGossip.Session

variable {setup : Setup} {config : SessionConfig} {s t : Session} {id : BlockId} {b c : Block}
  {sender : NodeId} {now : Time} {e : Event}

-- ---------------------------------------------------------------------------
-- Places
-- ---------------------------------------------------------------------------

/-- Where a session holds a block. -/
inductive Place where
  | received
  | waiting
  | stored
deriving DecidableEq, Repr

/-- How far a block has come. -/
def Place.rank : Place → Nat
  | .received => 0
  | .waiting => 1
  | .stored => 2

def HeldAt (s : Session) (b : Block) : Place → Prop
  | .received => s.staging.received.get? b.id = some b
  | .waiting => b ∈ s.orphans.blocks
  | .stored => b ∈ s.ledger.toList

/-- The place has a block of the id. -/
def hasAt (s : Session) (id : BlockId) : Place → Bool
  | .received => s.staging.isReceived id
  | .waiting => s.orphans.contains id
  | .stored => s.ledger.contains id

variable {p q : Place}

theorem hasAt_of_heldAt (ha : Anchored s.ledger s.orphans) (h : s.HeldAt b p) :
    s.hasAt b.id p = true := by
  cases p with
  | received =>
    rw [hasAt, Staging.isReceived, Table.contains,
      show s.staging.received.get? b.id = some b from h]
    rfl
  | waiting => exact OrphanPool.contains_iff.mpr ⟨b, h, rfl⟩
  | stored => exact Ledger.contains_of_mem ha.indexed h

theorem isKnown_iff_hasAt : s.isKnown id = true ↔ ∃ p, s.hasAt id p = true := by
  rw [isKnown_iff]
  constructor
  · rintro ((h | h) | h)
    · exact ⟨.stored, h⟩
    · exact ⟨.waiting, h⟩
    · exact ⟨.received, h⟩
  · rintro ⟨p, h⟩
    cases p with
    | received => exact .inr h
    | waiting => exact .inl (.inr h)
    | stored => exact .inl (.inl h)

/-- Each id stands in one place, and there once; what is asked for, or known by
its header alone, stands in none. -/
structure Parted (s : Session) : Prop where
  ledger : (s.ledger.toList.map Block.id).Nodup
  orphans : (s.orphans.blocks.map Block.id).Nodup
  exclusive : ∀ id p q, s.hasAt id p = true → s.hasAt id q = true → p = q
  tracked : ∀ id, s.inventory.isTracked id = true → ∀ p, s.hasAt id p = false
  headers : ∀ id, s.staging.hasHeader id = true → ∀ p, s.hasAt id p = false
  unique : ∀ b c p q, s.HeldAt b p → s.HeldAt c q → b.id = c.id → p = q ∧ b = c

theorem Apart.parted (h : Apart s) (ha : Anchored s.ledger s.orphans) : Parted s := by
  have hwaiting (i : BlockId) (hi : s.orphans.contains i = true) :
      s.ledger.contains i = false := by
    obtain ⟨c, hc, rfl⟩ := OrphanPool.contains_iff.mp hi
    exact ha.not_contains_orphan hc
  have hnowhere (i : BlockId) (hi : s.isKnown i = false) (p : Place) : s.hasAt i p = false :=
    Bool.eq_false_iff.mpr fun hp => Bool.eq_false_iff.mp hi (isKnown_iff_hasAt.mpr ⟨p, hp⟩)
  have hexclusive (i : BlockId) (p q : Place) (hp : s.hasAt i p = true)
      (hq : s.hasAt i q = true) : p = q := by
    have hreceived := h.received i
    have hwaits := hwaiting i
    cases p <;> cases q <;> simp_all [hasAt]
  refine ⟨ha.ledger_distinct, ha.pool_distinct, hexclusive,
    fun i hi => hnowhere i (h.tracked i hi), fun i hi => hnowhere i (h.headers i hi), ?_⟩
  intro b c p q hb hc hid
  have hplace : p = q :=
    hexclusive c.id p q (hid ▸ hasAt_of_heldAt ha hb) (hasAt_of_heldAt ha hc)
  subst hplace
  refine ⟨rfl, ?_⟩
  cases p with
  | received =>
    have hb : s.staging.received.get? b.id = some b := hb
    rw [hid] at hb
    exact Option.some.inj (hb.symm.trans hc)
  | waiting => exact List.inj_on_of_nodup_map ha.pool_distinct hb hc hid
  | stored => exact List.inj_on_of_nodup_map ha.ledger_distinct hb hc hid

-- ---------------------------------------------------------------------------
-- Blocks that are received
-- ---------------------------------------------------------------------------

/-- A block that waits for its validation is not replaced by another copy. -/
theorem receiveBlock_received (h : s.staging.received.get? id = some b) (sender : NodeId)
    (record : Block) :
    (receiveBlock sender s record).1.staging.received.get? id = some b := by
  cases hk : s.isKnown record.id with
  | true => rwa [receiveBlock_known hk]
  | false =>
    have hne : (record.received sender s.now).id ≠ id := by
      rintro rfl
      have hknown : s.isKnown record.id = true := by
        refine isKnown_iff.mpr (.inr ?_)
        rw [Staging.isReceived, Table.contains]
        exact Option.isSome_iff_exists.mpr ⟨b, h⟩
      exact Bool.noConfusion (hk.symm.trans hknown)
    have hk' : s.isKnown (record.received sender s.now).id = false := hk
    rw [receiveBlock_eq, hk, if_neg Bool.false_ne_true, armTimer_staging]
    simp only [stage_of_unknown hk', Table.get?_insert, if_neg hne]
    exact h

theorem onEnvelope_received (h : s.staging.received.get? id = some b) (sender : NodeId)
    (m : Envelope) : (onEnvelope sender s m).1.staging.received.get? id = some b := by
  by_cases hk : m.kind? = some .block
  · rw [onEnvelope_block sender s m hk]
    unfold onBlock
    split
    · exact h
    · exact foldActions_keeps (I := fun t : Session => t.staging.received.get? id = some b)
        (fun _ r _ ht => receiveBlock_received ht sender r)
        (s := s.countReceived .block _) h
  · rwa [(onEnvelope_asking sender s m hk).received]

/-- The full blocks that messages bring. -/
def delivered (messages : List Envelope) : List Block :=
  messages.flatMap fun m => if m.kind? = some .block then m.blockRecords else []

/-- The first copy of a block that has come, if one has, is the one that is held. -/
def Took (sender : NodeId) (id : BlockId) (found : Option Block) (s : Session) : Prop :=
  match found with
  | none => s.isKnown id = false
  | some r => ∃ time, s.staging.received.get? id = some (r.received sender time)

variable {found : Option Block}

theorem Took.receiveBlock (h : Took sender id found s) (r : Block) :
    Took sender id (found.or ([r].find? (·.id == id))) (receiveBlock sender s r).1 := by
  cases found with
  | some first =>
    obtain ⟨time, h⟩ := h
    exact ⟨time, receiveBlock_received h sender r⟩
  | none =>
    have hk : s.isKnown id = false := h
    by_cases he : r.id = id
    · subst he
      have hk' : s.isKnown (r.received sender s.now).id = false := hk
      have hfind : [r].find? (·.id == r.id) = some r := by simp
      rw [hfind, Option.none_or]
      refine ⟨s.now, ?_⟩
      rw [receiveBlock_eq, hk, if_neg Bool.false_ne_true, armTimer_staging]
      simp only [stage_of_unknown hk', Table.get?_insert]
      exact if_pos rfl
    · have hfind : [r].find? (·.id == id) = none := by simp [he]
      rw [hfind, Option.none_or]
      refine Bool.eq_false_iff.mpr fun hknown => ?_
      exact (isKnown_receiveBlock r).mp hknown |>.elim (Bool.eq_false_iff.mp hk) he

theorem Took.receiveBlocks (h : Took sender id found s) (records : List Block) :
    Took sender id (found.or (records.find? (·.id == id)))
      (foldActions (Session.receiveBlock sender) s records).1 := by
  induction records generalizing s found with
  | nil => rwa [List.find?_nil, Option.or_none]
  | cons r records ih =>
    have hrest := ih (h.receiveBlock r)
    rwa [Option.or_assoc, ← List.find?_append, List.singleton_append] at hrest

theorem Took.onEnvelope (h : Took sender id found s)
    (hrole : s.setup.role.handlesInventory = true) (m : Envelope) :
    Took sender id (found.or ((delivered [m]).find? (·.id == id)))
      (Session.onEnvelope sender s m).1 := by
  by_cases hk : m.kind? = some .block
  · have hdelivered : delivered [m] = m.blockRecords := by simp [delivered, hk]
    rw [onEnvelope_block sender s m hk, onBlock_eq s sender m hrole, hdelivered]
    refine Took.receiveBlocks ?_ _
    cases found <;> exact h
  · have hdelivered : delivered [m] = [] := by simp [delivered, hk]
    have hasking := onEnvelope_asking sender s m hk
    rw [hdelivered, List.find?_nil, Option.or_none]
    cases found with
    | none => exact (hasking.isKnown id).trans h
    | some r =>
      obtain ⟨time, h⟩ := h
      exact ⟨time, hasking.received ▸ h⟩

theorem Took.onEnvelopes (h : Took sender id found s)
    (hrole : s.setup.role.handlesInventory = true) (messages : List Envelope) :
    Took sender id (found.or ((delivered messages).find? (·.id == id)))
      (foldActions (Session.onEnvelope sender) s messages).1 := by
  induction messages generalizing s found with
  | nil => rwa [delivered, List.flatMap_nil, List.find?_nil, Option.or_none]
  | cons m messages ih =>
    have hsetup := (onEnvelope_aside sender s m).setup
    have hrest := ih (h.onEnvelope hrole m) (hsetup ▸ hrole)
    have happend : delivered [m] ++ delivered messages = delivered (m :: messages) := by
      simp [delivered]
    rwa [Option.or_assoc, ← List.find?_append, happend] at hrest

/-- Of an unknown block that comes the first copy is held, as it came. -/
theorem received_of_delivered (hr : s.running = true)
    (hrole : s.setup.role.handlesInventory = true) {bytes : Bytes} {r : Block}
    (hk : s.isKnown r.id = false)
    (hfind : (delivered (s.frames.feed sender bytes).1).find? (·.id == r.id) = some r) :
    ∃ time, (s.handle (.bytesReceived sender bytes)).1.HeldAt (r.received sender time)
      .received := by
  have htook : Took sender r.id none { s with frames := (s.frames.feed sender bytes).2 } := hk
  have htaken := htook.onEnvelopes hrole (s.frames.feed sender bytes).1
  rw [hfind, Option.none_or] at htaken
  rw [handle, if_pos hr]
  exact htaken

-- ---------------------------------------------------------------------------
-- Blocks that move on
-- ---------------------------------------------------------------------------

/-- What is stored stays stored, and orphans stay or are stored. -/
theorem handle_keeps (ha : Anchored s.ledger s.orphans) (e : Event) :
    s.ledger.toList <+: (s.handle e).1.ledger.toList ∧
      ∀ b ∈ s.orphans.blocks,
        b ∈ (s.handle e).1.ledger.toList ∨ b ∈ (s.handle e).1.orphans.blocks := by
  rw [handle_ledger, handle_orphans, acceptance_toList ha]
  refine ⟨List.prefix_append .., fun b hb => ?_⟩
  rw [← acceptance_toList ha]
  unfold acceptance
  split
  · exact (ha.mem_accept _ b).mpr (.inr (.inl hb))
  · exact .inr hb

/-- A received block whose validation comes is stored or parked. -/
theorem onValidation_moves (ha : Anchored s.ledger s.orphans) (h : Apart s)
    (hb : s.staging.received.get? b.id = some b) :
    b ∈ (s.onValidation b.id).1.ledger.toList ∨ b ∈ (s.onValidation b.id).1.orphans.blocks := by
  have hcore := onValidation_core s b.id
  simp only [hb] at hcore
  rw [show (s.onValidation b.id).1.ledger = _ from congrArg Core.ledger hcore,
    show (s.onValidation b.id).1.orphans = _ from congrArg Core.orphans hcore]
  refine (ha.mem_accept b b).mpr (.inr (.inr ⟨rfl, ?_⟩))
  obtain ⟨hl, ho⟩ := h.received b.id (hasAt_of_heldAt (p := .received) ha hb)
  rw [hl, ho]
  rfl

/-- A received block goes on waiting, or its validation comes. -/
theorem handle_received_moves (ha : Anchored s.ledger s.orphans) (h : Apart s)
    (hb : s.HeldAt b .received) (he : e ≠ .stop) :
    (s.handle e).1.HeldAt b .received ∨ b ∈ (s.handle e).1.ledger.toList ∨
      b ∈ (s.handle e).1.orphans.blocks := by
  have hstays {t : Session} (ht : t.staging = s.staging) : t.HeldAt b .received := by
    rwa [HeldAt, ht]
  cases e with
  | start => exact .inl (hstays (congrArg Core.staging (onStart_core s)))
  | stop => exact absurd rfl he
  | bytesReceived sender bytes =>
    refine .inl ?_
    simp only [handle]
    split
    · exact foldActions_keeps (I := fun t : Session => t.staging.received.get? b.id = some b)
        (fun _ m _ ht => onEnvelope_received ht sender m)
        (s := { s with frames := (s.frames.feed sender bytes).2 }) hb
    · exact hb
  | blockMinted c =>
    refine .inl ?_
    simp only [handle]
    split
    · exact hstays (congrArg Core.staging (acceptBlock_core ..))
    · exact hb
  | timerFired timer =>
    by_cases hf : s.running = true ∧ timer ∈ s.armed
    · rw [handle_timerFired hf.1 hf.2]
      cases timer with
      | inventoryTimeout id => exact .inl (hstays (onInventoryTimeout_staging ..))
      | nextTransaction => exact .inl (hstays (onNextTransaction_staging _))
      | validation id =>
        have hdisarm : Apart (s.disarm (.validation id)) := ⟨h.received, h.tracked, h.headers⟩
        by_cases he : id = b.id
        · subst he
          exact .inr (onValidation_moves (s := s.disarm (.validation b.id)) ha hdisarm hb)
        · refine .inl ?_
          have hcore := onValidation_core (s.disarm (.validation id)) id
          split at hcore
          · exact hstays (congrArg Core.staging hcore)
          · show ((s.disarm (.validation id)).onValidation id).1.staging.received.get? b.id = _
            rw [show ((s.disarm (.validation id)).onValidation id).1.staging = _ from
              congrArg Core.staging hcore]
            simp only [Table.get?_erase, if_neg he]
            exact hb
    · rw [handle_timerFired_idle hf]
      exact .inl hb

/-- A block stays in its place or moves on, unless a stop finds it received. -/
theorem handle_moves (ha : Anchored s.ledger s.orphans) (h : Apart s) (hb : s.HeldAt b p)
    (e : Event) :
    (∃ q, p.rank ≤ q.rank ∧ (s.handle e).1.HeldAt b q) ∨
      p = .received ∧ e = .stop ∧ (s.handle e).1.isKnown b.id = false := by
  obtain ⟨hledger, horphans⟩ := handle_keeps ha e
  cases p with
  | stored => exact .inl ⟨.stored, Nat.le_refl _, hledger.subset hb⟩
  | waiting =>
    rcases horphans b hb with hb | hb
    · exact .inl ⟨.stored, by decide, hb⟩
    · exact .inl ⟨.waiting, Nat.le_refl _, hb⟩
  | received =>
    by_cases he : e = .stop
    · subst he
      cases hr : s.running with
      | false =>
        rw [handle, onStop_idle hr]
        exact .inl ⟨.received, Nat.le_refl _, hb⟩
      | true =>
        have hcore := onStop_core hr
        obtain ⟨hl, ho⟩ := h.received b.id (hasAt_of_heldAt (p := .received) ha hb)
        refine .inr ⟨rfl, rfl, ?_⟩
        rw [isKnown_eq, handle, hcore]
        simp [Core.isKnown, core, hl, ho, Staging.isReceived, Table.contains]
    · rcases handle_received_moves ha h hb he with hb | hb | hb
      · exact .inl ⟨.received, Nat.le_refl _, hb⟩
      · exact .inl ⟨.stored, by decide, hb⟩
      · exact .inl ⟨.waiting, by decide, hb⟩

-- ---------------------------------------------------------------------------
-- Runs
-- ---------------------------------------------------------------------------

/-- Whenever the events, each at its time, mint a block, nothing of its id is
asked for or staged. -/
def AdmitsAll (s : Session) : List (Time × Event) → Prop
  | [] => True
  | x :: events => s.Admits x.2 ∧ (s.after x.1 x.2).AdmitsAll events

/-- A session that events with fresh mints have led to. -/
structure Orderly (setup : Setup) (config : SessionConfig) (s : Session) : Prop where
  reachable : Reachable setup config s
  apart : Apart s

theorem setTime_apart (h : Apart s) (now : Time) : Apart (s.setTime now) :=
  ⟨h.received, h.tracked, h.headers⟩

namespace Orderly

theorem fresh : Orderly setup config (.fresh setup config) := ⟨.fresh, fresh_apart setup config⟩

theorem step (h : Orderly setup config s) (now : Time) (he : s.Admits e) :
    Orderly setup config (s.after now e) where
  reachable := h.reachable.step now e
  apart := by
    refine handle_apart (s := s.setTime now) h.reachable.sound.anchored h.reachable.staged
      (setTime_apart h.apart now) ?_
    cases e with
    | blockMinted b => exact ⟨he.tracked, he.received, he.header⟩
    | _ => exact trivial

theorem afterAll (h : Orderly setup config s) {events : List (Time × Event)}
    (he : s.AdmitsAll events) : Orderly setup config (s.afterAll events) := by
  induction events generalizing s with
  | nil => exact h
  | cons x events ih => exact ih (h.step x.1 he.1) he.2

theorem moves (h : Orderly setup config s) (hb : s.HeldAt b p) (now : Time) (e : Event) :
    (∃ q, p.rank ≤ q.rank ∧ (s.after now e).HeldAt b q) ∨
      p = .received ∧ e = .stop ∧ (s.after now e).isKnown b.id = false := by
  refine handle_moves (s := s.setTime now) h.reachable.sound.anchored
    (setTime_apart h.apart now) ?_ e
  cases p <;> exact hb

end Orderly

/-- A stop among the events found the block waiting for its validation, and
dropped it. -/
def DroppedBy (s : Session) (events : List (Time × Event)) (b : Block) : Prop :=
  ∃ before now rest, events = before ++ (now, .stop) :: rest ∧
    (s.afterAll before).HeldAt b .received ∧
    ((s.afterAll before).after now .stop).isKnown b.id = false

/-- Through a run a block stays in its place or moves on, unless it was received
and a stop dropped it. -/
theorem Orderly.movesAll (h : Orderly setup config s) (hb : s.HeldAt b p)
    {events : List (Time × Event)} (he : s.AdmitsAll events) :
    (∃ q, p.rank ≤ q.rank ∧ (s.afterAll events).HeldAt b q) ∨
      p = .received ∧ s.DroppedBy events b := by
  induction events generalizing s p with
  | nil => exact .inl ⟨p, Nat.le_refl _, hb⟩
  | cons x events ih =>
    obtain ⟨now, e⟩ := x
    rcases h.moves hb now e with ⟨q, hq, hb'⟩ | ⟨rfl, rfl, hdropped⟩
    · rcases ih (h.step now he.1) hb' he.2 with ⟨r, hr, hb'⟩ | ⟨rfl, before, n, rest, rfl, hdrop⟩
      · exact .inl ⟨r, Nat.le_trans hq hr, hb'⟩
      · have hp : p = .received := by
          cases p with
          | received => rfl
          | waiting => exact absurd hq (by decide)
          | stored => exact absurd hq (by decide)
        exact .inr ⟨hp, (now, e) :: before, n, rest, rfl, hdrop⟩
    · exact .inr ⟨rfl, [], now, events, rfl, hb, hdropped⟩

theorem Reachable.prefix_afterAll (h : Reachable setup config s) (events : List (Time × Event)) :
    s.ledger.toList <+: (s.afterAll events).ledger.toList := by
  induction events generalizing s with
  | nil => exact List.prefix_rfl
  | cons x events ih =>
    exact (handle_keeps (s := s.setTime x.1) h.sound.anchored x.2).1.trans (ih (h.step x.1 x.2))

/-- Starting and stopping change neither the ledger nor the orphans. -/
theorem settled_of_restart (he : e = .start ∨ e = .stop) :
    (s.after now e).ledger = s.ledger ∧ (s.after now e).orphans = s.orphans := by
  have hnone : (s.setTime now).accepting? e = none := by
    rcases he with rfl | rfl <;> rfl
  rw [after, handle_ledger, handle_orphans, acceptance, hnone]
  exact ⟨rfl, rfl⟩

/-- No block is lost, doubled or in two places. As long as no block is minted
under an id that is asked for or staged, each id stands in one place; of an
unknown block that is delivered the first copy is held, and from any place a
block only moves on, unless a stop finds it received. Restarts keep orphans and
ledger, and what is stored stays, in its order. -/
theorem orderly_custody (events : List (Time × Event))
    (he : (fresh setup config).AdmitsAll events) :
    let s := (fresh setup config).afterAll events
    Parted s ∧
      (∀ now sender bytes r, s.running = true → s.setup.role.handlesInventory = true →
        s.isKnown r.id = false →
        (delivered (s.frames.feed sender bytes).1).find? (·.id == r.id) = some r →
        ∃ time, (s.after now (.bytesReceived sender bytes)).HeldAt (r.received sender time)
          .received) ∧
      (∀ b p, s.HeldAt b p → ∀ more, s.AdmitsAll more →
        (∃ q, p.rank ≤ q.rank ∧ (s.afterAll more).HeldAt b q) ∨
          p = .received ∧ s.DroppedBy more b) ∧
      (∀ now e, e = .start ∨ e = .stop →
        (s.after now e).ledger = s.ledger ∧ (s.after now e).orphans = s.orphans) ∧
      ∀ more, s.ledger.toList <+: (s.afterAll more).ledger.toList := by
  intro s
  have h : Orderly setup config s := Orderly.fresh.afterAll he
  refine ⟨h.apart.parted h.reachable.sound.anchored, ?_, fun b p hb more hmore => ?_,
    fun now e => settled_of_restart, h.reachable.prefix_afterAll⟩
  · intro now sender bytes r hr hrole hk hfind
    exact received_of_delivered (s := s.setTime now) hr hrole hk hfind
  · exact h.movesAll hb hmore

/-- A block whose parent is minted while it waits for its validation is stored. -/
theorem orderly_custody_minted :
    let setup : Setup := ⟨1, .committer, [2], .standard, .usual, .empty⟩
    let child : Block := { Block.genesis with height := 2, minerId := 2, parentMinerId := 1 }
    let minted : Block := { Block.genesis with height := 1, minerId := 1 }
    let events : List (Time × Event) :=
      [(0.0, .start), (1.0, .bytesReceived 2 (Envelope.block [child]).frame)]
    let more : List (Time × Event) :=
      [(2.0, .blockMinted minted), (3.0, .timerFired (.validation ⟨2, 2⟩))]
    let s := (fresh setup .usual).afterAll events
    (fresh setup .usual).AdmitsAll events ∧ s.HeldAt (child.received 2 1.0) .received ∧
      s.AdmitsAll more ∧ (s.afterAll more).HeldAt (child.received 2 1.0) .stored ∧
      ((∃ q, (Place.received).rank ≤ q.rank ∧ (s.afterAll more).HeldAt (child.received 2 1.0) q) ∨
        Place.received = .received ∧ s.DroppedBy more (child.received 2 1.0)) := by
  intro setup child minted events more s
  have he : (fresh setup .usual).AdmitsAll events := ⟨trivial, trivial, trivial⟩
  have hheld : s.HeldAt (child.received 2 1.0) .received := by
    show s.staging.received.get? _ = some _
    decide +kernel
  have hmore : s.AdmitsAll more :=
    ⟨⟨by decide +kernel, by decide +kernel, by decide +kernel⟩, trivial, trivial⟩
  refine ⟨he, hheld, hmore, ?_, (orderly_custody events he).2.2.1 _ _ hheld more hmore⟩
  have hlast : (s.afterAll more).ledger.toList[2]? = some (child.received 2 1.0) := by
    decide +kernel
  exact List.mem_of_getElem? hlast

end BlockGossip.Session
