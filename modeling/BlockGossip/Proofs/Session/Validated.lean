import BlockGossip.Proofs.Pool.Held
import BlockGossip.Proofs.Session.Custody
import BlockGossip.Simulation.State

/-!
# Which held transactions are marked

A node that validates marks a held transaction at the moment a block that
carries it is stored, and at no other: one that is offered after the block was
stored stays unmarked, and is mined again. Where no such transaction is offered,
every held transaction that a stored block carries is marked, and no block is
mined with a transaction of the chain below it.
-/

namespace BlockGossip.Session

variable {setup : Setup} {config : SessionConfig} {s t : Session} {id : TransactionId}
  {sender peer : NodeId} {b c : Block} {e : Event}

-- ---------------------------------------------------------------------------
-- Steps that leave the pool alone
-- ---------------------------------------------------------------------------

theorem armTimer_pool (s : Session) (timer : TimerId) (after : Duration) :
    (s.armTimer timer after).1.pool = s.pool := by
  unfold armTimer
  split <;> rfl

theorem cancelTimer_pool (s : Session) (timer : TimerId) :
    (s.cancelTimer timer).1.pool = s.pool := by
  unfold cancelTimer
  split <;> rfl

theorem startRequest_pool (peer : NodeId) (s : Session) (id : BlockId) :
    (startRequest peer s id).1.pool = s.pool := armTimer_pool ..

theorem requestBlocks_pool (s : Session) (peer : NodeId) (ids : List BlockId) (full : Bool) :
    (s.requestBlocks peer ids full).1.pool = s.pool := by
  have hrequests : (foldActions (startRequest peer) s ids).1.pool = s.pool :=
    foldActions_keeps (I := fun t : Session => t.pool = s.pool)
      (fun t id _ ht => (startRequest_pool peer t id).trans ht) rfl
  unfold requestBlocks
  split
  · rfl
  · cases full <;> exact hrequests

theorem announced_pool (s : Session) (peer : NodeId) (id : BlockId) :
    (s.announced peer id).2.pool = s.pool := by
  unfold announced
  split <;> rfl

theorem announceAll_pool (peer : NodeId) (s : Session) (ids : List BlockId) :
    (announceAll peer s ids).1.pool = s.pool := by
  induction ids generalizing s with
  | nil => rfl
  | cons id ids ih =>
    rw [announceAll_cons]
    split
    · exact ih s
    · exact (ih _).trans (announced_pool ..)

theorem noteHeader_pool (peer : NodeId) (s : Session) (header : Block) :
    (noteHeader peer s header).2.pool = s.pool := by
  rw [noteHeader_eq]
  split
  · rfl
  · exact announced_pool ..

theorem noteHeaders_pool (peer : NodeId) (s : Session) (headers : List Block) :
    (noteHeaders peer s headers).1.pool = s.pool := by
  induction headers generalizing s with
  | nil => rfl
  | cons header rest ih =>
    rw [noteHeaders_cons]
    split
    · exact ih s
    · exact (ih _).trans (noteHeader_pool ..)

theorem receiveBlock_pool (sender : NodeId) (s : Session) (record : Block) :
    (receiveBlock sender s record).1.pool = s.pool := by
  rw [receiveBlock_eq]
  split
  · rfl
  · rw [armTimer_pool]
    unfold resolving
    split
    · exact cancelTimer_pool ..
    · rfl

theorem advertise_pool (s : Session) (b : Block) : (s.advertise b).1.pool = s.pool := by
  unfold advertise
  split <;> rfl

theorem onInventoryTimeout_pool (s : Session) (id : BlockId) :
    (s.onInventoryTimeout id).1.pool = s.pool := by
  unfold onInventoryTimeout
  split
  · rfl
  · split
    · rfl
    · exact requestBlocks_pool ..
    · rfl

theorem onStart_pool (s : Session) : s.onStart.1.pool = s.pool := by
  unfold onStart
  split
  · rfl
  · simp only
    split
    · exact armTimer_pool ..
    · rfl

-- ---------------------------------------------------------------------------
-- Messages
-- ---------------------------------------------------------------------------

/-- The transactions that a message offers. -/
def offered (m : Envelope) : List TransactionId :=
  if m.kind? = some .requestTrans then m.transactions.map Transaction.id else []

theorem offers_taken (now : Time) (a : Admission) (ts : List Transaction) :
    Pool.Taken (ts.map Transaction.id) a.pool (ts.foldl (Admission.offer now) a).pool := by
  induction ts generalizing a with
  | nil => exact .refl _
  | cons t ts ih =>
    have hoffer : (a.offer now t).pool = (a.pool.request t now).2 := by
      unfold Admission.offer
      split <;> rename_i h <;> rw [h]
    have hfirst : Pool.Taken ((t :: ts).map Transaction.id) a.pool (a.offer now t).pool := by
      rw [hoffer]
      exact (a.pool.request_taken t now).mono fun i hi => by simp_all
    exact hfirst.trans ((ih _).mono fun i hi => List.mem_cons_of_mem _ hi)

theorem replies_taken {ids : List TransactionId} (p : Pool) (ts : List Transaction) :
    Pool.Taken ids p (ts.foldl (fun pool t => (pool.reply t).2) p) := by
  induction ts generalizing p with
  | nil => exact .refl p
  | cons t ts ih => exact (p.reply_taken t).trans (ih _)

theorem onRequestTrans_pool (h : s.setup.role.acceptsRequests = true) (sender : NodeId)
    (m : Envelope) :
    (s.onRequestTrans sender m).1.pool =
      (m.transactions.foldl (Admission.offer s.now) ⟨s.pool, [], []⟩).pool := by
  unfold onRequestTrans
  rw [if_neg (by simp [h])]
  simp only
  split <;> split <;> rfl

theorem onRequestTrans_taken (s : Session) (sender : NodeId) (m : Envelope) :
    Pool.Taken (m.transactions.map Transaction.id) s.pool (s.onRequestTrans sender m).1.pool := by
  cases h : s.setup.role.acceptsRequests with
  | true =>
    rw [onRequestTrans_pool h]
    exact offers_taken s.now ⟨s.pool, [], []⟩ m.transactions
  | false =>
    have hidle : s.onRequestTrans sender m = (s, []) := by simp [onRequestTrans, h]
    rw [hidle]
    exact .refl s.pool

/-- A message that neither requests nor reports transactions leaves the pool alone. -/
theorem onEnvelope_pool (sender : NodeId) (s : Session) {m : Envelope}
    (hrequest : m.kind? ≠ some .requestTrans) (hreply : m.kind? ≠ some .replyTrans) :
    (onEnvelope sender s m).1.pool = s.pool := by
  unfold onEnvelope
  split
  · rfl
  · unfold onInv
    split
    · rfl
    · exact (requestBlocks_pool ..).trans (announceAll_pool ..)
  · unfold onGetHeaders
    simp only
    split <;> rfl
  · unfold onHeaders
    split
    · rfl
    · exact (requestBlocks_pool ..).trans (noteHeaders_pool ..)
  · unfold onGetData
    simp only
    split <;> rfl
  · unfold onBlock
    split
    · rfl
    · exact foldActions_keeps (I := fun t : Session => t.pool = s.pool)
        (fun t r _ ht => (receiveBlock_pool sender t r).trans ht) rfl
  · rename_i hk
    exact absurd hk hrequest
  · rename_i hk
    exact absurd hk hreply
  all_goals rfl

/-- A message takes in no transaction but those that it offers. -/
theorem onEnvelope_taken (sender : NodeId) (s : Session) (m : Envelope) :
    Pool.Taken (offered m) s.pool (onEnvelope sender s m).1.pool := by
  by_cases hrequest : m.kind? = some .requestTrans
  · rw [offered, if_pos hrequest, onEnvelope, hrequest]
    exact onRequestTrans_taken s sender m
  · by_cases hreply : m.kind? = some .replyTrans
    · rw [onEnvelope, hreply]
      exact replies_taken s.pool m.transactions
    · rw [onEnvelope_pool sender s hrequest hreply]
      exact .refl s.pool

/-- The transactions that an event offers. -/
def offers (s : Session) : Event → List TransactionId
  | .bytesReceived sender bytes =>
    if s.running then (s.frames.feed sender bytes).1.flatMap offered else []
  | _ => []

theorem onEnvelopes_taken (sender : NodeId) (s : Session) (messages : List Envelope) :
    Pool.Taken (messages.flatMap offered) s.pool
      (foldActions (onEnvelope sender) s messages).1.pool := by
  induction messages generalizing s with
  | nil => exact .refl s.pool
  | cons m messages ih =>
    rw [List.flatMap_cons]
    exact ((onEnvelope_taken sender s m).mono (List.subset_append_left ..)).trans
      ((ih _).mono (List.subset_append_right ..))

-- ---------------------------------------------------------------------------
-- Acceptance
-- ---------------------------------------------------------------------------

theorem recordStored_pool (s : Session) (b : Block) :
    (s.recordStored b).pool = (s.pool.validateFromBlock b s.now).2 := by
  unfold recordStored
  split <;> rfl

theorem recordAll_marked (h : s.pool.role.validates = true) (bs : List Block) :
    Pool.Marked bs s.pool (bs.foldl recordStored s).pool := by
  induction bs generalizing s with
  | nil => exact .nil rfl rfl
  | cons b bs ih =>
    have hfirst : Pool.Marked [b] s.pool (s.recordStored b).pool := by
      rw [recordStored_pool]
      exact Pool.validateFromBlock_marked h b s.now
    exact hfirst.trans (ih (hfirst.role.symm ▸ h))

theorem advertiseAll_pool (s : Session) (bs : List Block) :
    (foldActions advertise s bs).1.pool = s.pool :=
  foldActions_keeps (I := fun t : Session => t.pool = s.pool)
    (fun t b _ ht => (advertise_pool t b).trans ht) rfl

/-- Accepting a block marks what the blocks it stores carry. -/
theorem acceptBlock_marked (h : s.pool.role.validates = true) (b : Block) :
    Pool.Marked (accept s.ledger s.orphans b).stored s.pool (s.acceptBlock b).1.pool := by
  unfold acceptBlock
  cases hk : s.ledger.contains b.id || s.orphans.contains b.id with
  | true =>
    rw [accept_held hk]
    exact .nil rfl rfl
  | false =>
    obtain ⟨hl, -⟩ := Bool.or_eq_false_iff.mp hk
    cases hp : s.ledger.hasParent b with
    | false =>
      rw [accept_parked hk hp]
      exact .nil rfl rfl
    | true =>
      rw [accept_stored hk hp, Ledger.add_of_not_contains hl]
      simp only [Bool.false_eq_true, if_false, Bool.not_true, advertiseAll_pool]
      exact recordAll_marked
        (s := { s with
          ledger := (promoteOrphans (s.ledger.stored b) s.orphans b).ledger
          orphans := (promoteOrphans (s.ledger.stored b) s.orphans b).orphans }) h _

theorem handle_marked (h : s.pool.role.validates = true) (hc : s.accepting? e = some c) :
    Pool.Marked (s.acceptance e).stored s.pool (s.handle e).1.pool := by
  have hmarked {t : Session} (hl : t.ledger = s.ledger) (ho : t.orphans = s.orphans)
      (hp : t.pool = s.pool) :
      Pool.Marked (s.acceptance e).stored s.pool (t.acceptBlock c).1.pool := by
    have hstored : (s.acceptance e).stored = (accept t.ledger t.orphans c).stored := by
      rw [acceptance, hc, hl, ho]
    rw [hstored, ← hp]
    exact acceptBlock_marked (hp ▸ h) c
  unfold accepting? at hc
  split at hc
  · rename_i id
    split at hc
    · rename_i hf
      have hf : s.running = true ∧ .validation id ∈ s.armed := by simpa using hf
      rw [handle_timerFired hf.1 hf.2, onFired, onValidation_eq (s := s.disarm (.validation id)) hc]
      exact hmarked rfl rfl rfl
    · cases hc
  · split at hc
    · rename_i hr
      obtain rfl := Option.some.inj hc
      rw [handle, if_pos hr]
      exact hmarked rfl rfl rfl
    · cases hc
  · cases hc

/-- An event that has no block accepted takes in what it offers, at most. -/
theorem handle_taken (ho : s.setup.role.originates = false) (hc : s.accepting? e = none) :
    Pool.Taken (s.offers e) s.pool (s.handle e).1.pool := by
  have hsame {t : Session} (h : t.pool = s.pool) : Pool.Taken (s.offers e) s.pool t.pool := by
    rw [h]
    exact .refl s.pool
  cases e with
  | start => exact hsame (onStart_pool s)
  | stop => exact hsame (stopped_after s s.now).pool
  | bytesReceived sender bytes =>
    simp only [handle, offers]
    split
    · exact onEnvelopes_taken sender { s with frames := (s.frames.feed sender bytes).2 } _
    · exact .refl s.pool
  | blockMinted b =>
    have hr : ¬(s.running = true) := fun hr => by simp [accepting?, hr] at hc
    rw [handle, if_neg hr]
    exact .refl s.pool
  | timerFired timer =>
    by_cases hf : s.running = true ∧ timer ∈ s.armed
    · rw [handle_timerFired hf.1 hf.2]
      cases timer with
      | inventoryTimeout id => exact hsame (onInventoryTimeout_pool ..)
      | validation id =>
        have hnone : s.staging.received.get? id = none := by
          simpa [accepting?, hf.1, hf.2] using hc
        have hget : (s.disarm (.validation id)).staging = s.staging := rfl
        refine hsame ?_
        rw [onFired, onValidation, Staging.take, hget, hnone]
        rfl
      | nextTransaction =>
        refine hsame ?_
        have ho : (s.disarm .nextTransaction).setup.role.originates = false := ho
        rw [onFired, onNextTransaction, ho]
        rfl
    · rw [handle_timerFired_idle hf]
      exact .refl s.pool

-- ---------------------------------------------------------------------------
-- One event
-- ---------------------------------------------------------------------------

/-- The event has the session store the block. -/
def Stores (s : Session) (now : Time) (e : Event) (b : Block) : Prop :=
  b ∈ (s.after now e).ledger.toList ∧ b ∉ s.ledger.toList

theorem stores_iff (ha : Anchored s.ledger s.orphans) {now : Time} :
    s.Stores now e b ↔ b ∈ ((s.setTime now).acceptance e).stored := by
  have hgrown := acceptance_toList (s := s.setTime now) ha e
  rw [Stores, after, handle_ledger, hgrown, List.mem_append]
  constructor
  · rintro ⟨hb | hb, hnot⟩
    · exact absurd hb hnot
    · exact hb
  · intro hb
    have hd := (acceptance_anchored (s := s.setTime now) ha e).ledger_distinct
    rw [hgrown, List.map_append, List.nodup_append'] at hd
    exact ⟨.inr hb, fun hold => hd.2.2 (List.mem_map_of_mem hold) (List.mem_map_of_mem hb)⟩

/-- What is held is known by its own id, in a pool of the session's role. -/
structure Pooled (setup : Setup) (s : Session) : Prop where
  role : s.pool.role = setup.role
  keyed : s.pool.held.Keyed Transaction.id

section
variable (hv : setup.role.validates = true)
include hv

theorem originates_of_validates : setup.role.originates = false := by
  revert hv
  cases setup.role <;> decide

theorem Reachable.pooled (h : Reachable setup config s) : Pooled setup s := by
  induction h with
  | fresh => exact ⟨rfl, Table.empty_keyed⟩
  | @step s h now e ih =>
    have hvalidates : (s.setTime now).pool.role.validates = true := ih.role.symm ▸ hv
    cases hc : (s.setTime now).accepting? e with
    | some c =>
      have hmarked := handle_marked hvalidates hc
      exact ⟨hmarked.role.trans ih.role, hmarked.keyed ih.keyed⟩
    | none =>
      have ho : (s.setTime now).setup.role.originates = false :=
        h.sound.setup_eq.symm ▸ originates_of_validates hv
      have htaken := handle_taken ho hc
      exact ⟨htaken.role.trans ih.role, htaken.keyed ih.keyed⟩

/-- An event marks what is held and carried by a block that it stores, takes in
what it offers at most, and leaves everything else. -/
theorem Reachable.pool_step (h : Reachable setup config s) (now : Time) (e : Event)
    (id : TransactionId) :
    ((s.after now e).pool.hasValidated id = true ↔
      s.pool.hasValidated id = true ∨
        s.pool.holds id = true ∧ ∃ b, s.Stores now e b ∧ b.carries id = true) ∧
      ((s.after now e).pool.holds id = true →
        s.pool.holds id = true ∨ id ∈ s.offers e ∧ ∀ b, ¬s.Stores now e b) := by
  have ha := h.sound.anchored
  cases hc : (s.setTime now).accepting? e with
  | some c =>
    have hvalidates : (s.setTime now).pool.role.validates = true := (h.pooled hv).role.symm ▸ hv
    have hmarked := handle_marked hvalidates hc
    constructor
    · rw [after, hmarked.hasValidated, Bool.or_eq_true, Bool.and_eq_true, List.any_eq_true]
      simp only [stores_iff ha]
      rfl
    · intro hheld
      rw [after, hmarked.holds] at hheld
      exact .inl hheld
  | none =>
    have ho : (s.setTime now).setup.role.originates = false :=
      h.sound.setup_eq.symm ▸ originates_of_validates hv
    have htaken := handle_taken ho hc
    have hnone (b : Block) : ¬s.Stores now e b := by
      rw [stores_iff ha, acceptance, hc]
      exact List.not_mem_nil
    constructor
    · rw [after, htaken.hasValidated]
      constructor
      · exact .inl
      · rintro (hid | ⟨-, b, hb, -⟩)
        · exact hid
        · exact absurd hb (hnone b)
    · intro hheld
      cases hold : s.pool.holds id with
      | true => exact .inl rfl
      | false =>
        have hoffered : id ∈ (s.setTime now).offers e := (htaken.fresh id hold hheld).1
        refine .inr ⟨?_, hnone⟩
        cases e <;> exact hoffered

-- ---------------------------------------------------------------------------
-- Runs
-- ---------------------------------------------------------------------------

/-- Among the events one had a block stored that carries the transaction, while
the transaction was held. -/
def StoredWhileHeld (s : Session) (events : List (Time × Event)) (id : TransactionId) : Prop :=
  ∃ before now e rest, events = before ++ (now, e) :: rest ∧
    (s.afterAll before).pool.holds id = true ∧
    ∃ b, (s.afterAll before).Stores now e b ∧ b.carries id = true

omit hv in
theorem storedWhileHeld_cons {now : Time} {rest : List (Time × Event)} :
    s.StoredWhileHeld ((now, e) :: rest) id ↔
      (s.pool.holds id = true ∧ ∃ b, s.Stores now e b ∧ b.carries id = true) ∨
        (s.after now e).StoredWhileHeld rest id := by
  constructor
  · rintro ⟨before, now', e', rest', hsplit, hheld, hstored⟩
    cases before with
    | nil =>
      obtain ⟨hx, -⟩ := List.cons.inj hsplit
      obtain ⟨rfl, rfl⟩ := Prod.mk.inj hx
      exact .inl ⟨hheld, hstored⟩
    | cons x before =>
      obtain ⟨rfl, hrest⟩ := List.cons.inj hsplit
      exact .inr ⟨before, now', e', rest', hrest, hheld, hstored⟩
  · rintro (⟨hheld, hstored⟩ | ⟨before, now', e', rest', rfl, hheld, hstored⟩)
    · exact ⟨[], now, e, rest, rfl, hheld, hstored⟩
    · exact ⟨(now, e) :: before, now', e', rest', rfl, hheld, hstored⟩

/-- Through a run those transactions are marked that were held when a block that
carries them was stored. -/
theorem Reachable.validated_iff (h : Reachable setup config s) (events : List (Time × Event))
    (id : TransactionId) :
    (s.afterAll events).pool.hasValidated id = true ↔
      s.pool.hasValidated id = true ∨ s.StoredWhileHeld events id := by
  induction events generalizing s with
  | nil =>
    refine (or_iff_left ?_).symm
    rintro ⟨before, now, e, rest, hsplit, -⟩
    exact absurd hsplit.symm (List.append_ne_nil_of_right_ne_nil before (List.cons_ne_nil _ _))
  | cons x events ih =>
    obtain ⟨now, e⟩ := x
    rw [storedWhileHeld_cons, ← or_assoc, ← (h.pool_step hv now e id).1]
    exact ih (h.step now e)

omit hv in
/-- No transaction is taken in that a stored block carries already. -/
def Timely (s : Session) (e : Event) : Prop :=
  ∀ id ∈ s.offers e, s.pool.holds id = true ∨ ∀ b ∈ s.ledger.toList, b.carries id = false

instance (s : Session) (e : Event) : Decidable (s.Timely e) :=
  inferInstanceAs (Decidable
    (∀ id ∈ s.offers e, s.pool.holds id = true ∨ ∀ b ∈ s.ledger.toList, b.carries id = false))

def TimelyAll (s : Session) : List (Time × Event) → Prop
  | [] => True
  | x :: events => s.Timely x.2 ∧ (s.after x.1 x.2).TimelyAll events

instance decidableTimelyAll (s : Session) : (events : List (Time × Event)) →
    Decidable (s.TimelyAll events)
  | [] => inferInstanceAs (Decidable True)
  | x :: events =>
    have := decidableTimelyAll (s.after x.1 x.2) events
    inferInstanceAs (Decidable (s.Timely x.2 ∧ (s.after x.1 x.2).TimelyAll events))

/-- Every held transaction that a stored block carries is marked. -/
def AllMarked (s : Session) : Prop :=
  ∀ id, s.pool.holds id = true → ∀ b ∈ s.ledger.toList, b.carries id = true →
    s.pool.hasValidated id = true

theorem Reachable.allMarked_step (h : Reachable setup config s) (hs : s.AllMarked) (now : Time)
    (he : s.Timely e) : (s.after now e).AllMarked := by
  intro id hheld b hb hcarries
  obtain ⟨hvalidated, hholds⟩ := h.pool_step hv now e id
  rw [hvalidated]
  by_cases hold : b ∈ s.ledger.toList
  · rcases hholds hheld with hheld | ⟨hoffered, -⟩
    · exact .inl (hs id hheld b hold hcarries)
    · rcases he id hoffered with hheld | hnot
      · exact .inl (hs id hheld b hold hcarries)
      · exact Bool.noConfusion ((hnot b hold).symm.trans hcarries)
  · have hstores : s.Stores now e b := ⟨hb, hold⟩
    rcases hholds hheld with hheld | ⟨-, hnone⟩
    · exact .inr ⟨hheld, b, hstores, hcarries⟩
    · exact absurd hstores (hnone b)

theorem Reachable.allMarked (h : Reachable setup config s) (hs : s.AllMarked)
    {events : List (Time × Event)} (he : s.TimelyAll events) : (s.afterAll events).AllMarked := by
  induction events generalizing s with
  | nil => exact hs
  | cons x events ih => exact ih (h.step x.1 x.2) (h.allMarked_step hv hs x.1 he.1) he.2

end

/-- In the roles that validate exactly those held transactions are marked that
were held when a block that carries them was stored, and the others pending. As
long as no transaction is taken in that a stored block carries already, every
held transaction that a stored block carries is marked, so that none of them is
pending, and no block is mined with a transaction of the chain below it. -/
theorem validated_while_held (hrole : setup.role = .committer ∨ setup.role = .order)
    (events : List (Time × Event)) :
    let s := (fresh setup config).afterAll events
    (∀ id, s.pool.hasValidated id = true ↔ (fresh setup config).StoredWhileHeld events id) ∧
      (∀ limit, ∀ t ∈ s.pool.pending limit,
        s.pool.holds t.id = true ∧ ¬(fresh setup config).StoredWhileHeld events t.id) ∧
      ((fresh setup config).TimelyAll events →
        (∀ id, s.pool.holds id = true → ∀ b ∈ s.ledger.toList, b.carries id = true →
          s.pool.hasValidated id = true) ∧
        (∀ limit, ∀ t ∈ s.pool.pending limit, ∀ b ∈ s.ledger.toList, b.carries t.id = false) ∧
        ∀ simulation miner nonce time,
          let mined := Simulation.candidate simulation s miner nonce time
          (mined.transactions.map Transaction.id).Nodup ∧
            ∀ t ∈ mined.transactions, ∀ b ∈ s.ledger.toList, b.carries t.id = false) := by
  intro s
  have hv : setup.role.validates = true := by
    rcases hrole with h | h <;> rw [h] <;> rfl
  have hfresh : Reachable setup config (fresh setup config) := .fresh
  have hkeyed := ((hfresh.afterAll events).pooled hv).keyed
  have hiff (id : TransactionId) :
      s.pool.hasValidated id = true ↔ (fresh setup config).StoredWhileHeld events id :=
    (hfresh.validated_iff hv events id).trans (or_iff_right nofun)
  refine ⟨hiff, fun limit t ht => ?_, fun he => ?_⟩
  · obtain ⟨hget, hunmarked⟩ := Pool.mem_pending hkeyed ht
    exact ⟨Pool.holds_iff.mpr ⟨t, hget⟩, (hiff t.id).not.mp (Bool.eq_false_iff.mp hunmarked)⟩
  · have hmarked : s.AllMarked := hfresh.allMarked hv nofun he
    have hpending (limit : Nat) : ∀ t ∈ s.pool.pending limit, ∀ b ∈ s.ledger.toList,
        b.carries t.id = false := by
      intro t ht b hb
      obtain ⟨hget, hunmarked⟩ := Pool.mem_pending hkeyed ht
      refine Bool.eq_false_iff.mpr fun hcarries => ?_
      have hvalidated := hmarked t.id (Pool.holds_iff.mpr ⟨t, hget⟩) b hb hcarries
      exact Bool.noConfusion (hunmarked.symm.trans hvalidated)
    exact ⟨hmarked, hpending, fun simulation _ _ _ =>
      ⟨Pool.pending_distinct hkeyed _, hpending _⟩⟩

/-- A transaction that is offered before the block that carries it is marked. -/
theorem validated_while_held_offered :
    let setup : Setup := ⟨1, .committer, [2], .standard, .usual, .empty⟩
    let offer := (Envelope.requestTrans [Transaction.create 3 9 0.0]).frame
    let delivery := (Envelope.block [{ Block.genesis with
      height := 1, minerId := 2, transactions := [Transaction.create 3 9 0.0] }]).frame
    let events : List (Time × Event) := [(0.0, .start), (1.0, .bytesReceived 2 offer),
      (2.0, .bytesReceived 2 delivery), (3.0, .timerFired (.validation ⟨1, 2⟩))]
    let s := (fresh setup .usual).afterAll events
    (setup.role = .committer ∨ setup.role = .order) ∧ (fresh setup .usual).TimelyAll events ∧
      (fresh setup .usual).StoredWhileHeld events ⟨3, 9⟩ ∧
      ∀ limit, ∀ t ∈ s.pool.pending limit, ∀ b ∈ s.ledger.toList, b.carries t.id = false := by
  intro setup offer delivery events s
  have hrole : setup.role = .committer ∨ setup.role = .order := .inl rfl
  have htimely : (fresh setup .usual).TimelyAll events := by decide +kernel
  obtain ⟨hiff, -, htimely'⟩ := @validated_while_held setup .usual hrole events
  exact ⟨hrole, htimely, (hiff ⟨3, 9⟩).mp (by decide +kernel), (htimely' htimely).2.1⟩

/-- A transaction that is offered after the block that carries it was stored is
pending, and mined into the next block of the same chain. -/
theorem mined_again :
    let setup : Setup := ⟨1, .committer, [2], .standard, .usual, .empty⟩
    let offer := (Envelope.requestTrans [Transaction.create 3 9 0.0]).frame
    let delivery := (Envelope.block [{ Block.genesis with
      height := 1, minerId := 2, transactions := [Transaction.create 3 9 0.0] }]).frame
    let s := (fresh setup .usual).afterAll [(0.0, .start), (1.0, .bytesReceived 2 delivery),
      (2.0, .timerFired (.validation ⟨1, 2⟩)), (3.0, .bytesReceived 2 offer)]
    let mined := Simulation.candidate .usual s 1 0 4.0
    ((s.pool.pending 1).map Transaction.id = [⟨3, 9⟩] ∧
        s.ledger.toList.any (·.carries ⟨3, 9⟩) = true ∧ s.pool.hasValidated ⟨3, 9⟩ = false) ∧
      (s.after 4.0 (.blockMinted mined)).ledger.toList.map (·.carries ⟨3, 9⟩) =
        [false, true, true] := by
  decide +kernel

end BlockGossip.Session
