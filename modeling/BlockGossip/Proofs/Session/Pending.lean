import BlockGossip.Proofs.Session.Reachable

/-!
# Nothing waits without a timer

Every request has a timer that ends it, and every received block a timer that
validates it. While announcements are gathered some ids are noted whose timers
are armed only at the end; `Tidy` carries them as a list. What a session has
heard of it does not forget, unless it stops or gives a request up.
-/

namespace BlockGossip.Session

variable {s s' : Session} {id : BlockId} {pending more : List BlockId} {peer : NodeId}

/-- Whatever waits has a timer, but for the requests of the ids listed. -/
structure Tidy (s : Session) (pending : List BlockId) : Prop where
  requests : ∀ id, s.inventory.isTracked id = true →
    .inventoryTimeout id ∈ s.armed ∨ id ∈ pending
  validations : ∀ id, s.staging.isReceived id = true → .validation id ∈ s.armed

theorem fresh_tidy (setup : Setup) (config : SessionConfig) : Tidy (.fresh setup config) [] where
  requests := by simp [fresh, Inventory.isTracked, Inventory.empty, Table.contains]
  validations := by simp [fresh, Staging.isReceived, Staging.empty, Table.contains]

namespace Tidy

theorem of_core (h : s'.core = s.core) (ht : Tidy s pending) : Tidy s' pending := by
  have hs : s'.staging = s.staging := congrArg Core.staging h
  have hi : s'.inventory = s.inventory := congrArg Core.inventory h
  have ha : s'.armed = s.armed := congrArg Core.armed h
  constructor
  · rw [hi, ha]; exact ht.requests
  · rw [hs, ha]; exact ht.validations

theorem mono (ht : Tidy s pending) (h : ∀ id ∈ pending, id ∈ more) : Tidy s more where
  requests id hid := (ht.requests id hid).imp_right (h id)
  validations := ht.validations

end Tidy

theorem armTimer_tidy (ht : Tidy s pending) (timer : TimerId) (after : Duration) :
    Tidy (s.armTimer timer after).1 pending where
  requests i hi := by
    rw [armTimer_inventory] at hi
    exact (ht.requests i hi).imp_left fun h => mem_armTimer.mpr (.inl h)
  validations i hi := by
    rw [armTimer_staging] at hi
    exact mem_armTimer.mpr (.inl (ht.validations i hi))

-- ---------------------------------------------------------------------------
-- Requests
-- ---------------------------------------------------------------------------

theorem startRequest_tidy (ht : Tidy s (id :: pending)) :
    Tidy (startRequest peer s id).1 pending := by
  have hmarked : Tidy { s with inventory := s.inventory.markRequested id peer } (id :: pending) :=
    ⟨fun i hi => ht.requests i (by simpa using hi), ht.validations⟩
  have h := armTimer_tidy hmarked (.inventoryTimeout id) s.config.invTimeout
  refine ⟨fun i hi => ?_, h.validations⟩
  rcases h.requests i hi with hi | hi
  · exact .inl hi
  · rcases List.mem_cons.mp hi with rfl | hi
    · exact .inl (mem_armTimer.mpr (.inr rfl))
    · exact .inr hi

theorem startRequests_tidy {ids : List BlockId} (ht : Tidy s (ids ++ pending)) :
    Tidy (foldActions (startRequest peer) s ids).1 pending := by
  induction ids generalizing s with
  | nil => exact ht
  | cons id ids ih => exact ih (startRequest_tidy ht)

theorem requestBlocks_tidy {ids : List BlockId} (ht : Tidy s ids) (full : Bool) :
    Tidy (s.requestBlocks peer ids full).1 [] :=
  .of_core (requestBlocks_core s peer ids full) (startRequests_tidy (by simpa using ht))

theorem announced_tidy (ht : Tidy s pending) :
    Tidy (s.announced peer id).2
      (if (s.announced peer id).1 then id :: pending else pending) := by
  have hcore := announced_core s peer id
  have hs : (s.announced peer id).2.staging = s.staging := congrArg Core.staging hcore
  have ha : (s.announced peer id).2.armed = s.armed := congrArg Core.armed hcore
  have hi : (s.announced peer id).2.inventory = (s.inventory.announce id peer).2 :=
    congrArg Core.inventory hcore
  constructor
  · intro i hi'
    rw [hi, Inventory.isTracked_announce, Bool.or_eq_true, decide_eq_true_eq] at hi'
    rw [ha, announced_fst]
    cases htr : s.inventory.isTracked id with
    | true =>
      have hold : s.inventory.isTracked i = true := by
        rcases hi' with rfl | hi'
        · exact htr
        · exact hi'
      exact ht.requests i hold
    | false =>
      rcases hi' with rfl | hi'
      · exact .inr (List.mem_cons_self ..)
      · exact (ht.requests i hi').imp_right (List.mem_cons_of_mem _)
  · intro i hi'
    rw [hs] at hi'
    rw [ha]
    exact ht.validations i hi'

theorem mem_noted {ids : List BlockId} {isNew : Bool} {i : BlockId}
    (h : i ∈ ids ++ if isNew then id :: pending else pending) :
    i ∈ (if isNew then id :: ids else ids) ++ pending := by
  cases isNew
  · exact h
  · simp only [if_true, List.mem_append, List.mem_cons] at h ⊢
    tauto

/-- The ids to request join those whose timers are still to come. -/
theorem announceAll_tidy {ids : List BlockId} (ht : Tidy s pending) :
    Tidy (announceAll peer s ids).1 ((announceAll peer s ids).2 ++ pending) := by
  induction ids generalizing s pending with
  | nil => exact ht
  | cons id ids ih =>
    rw [announceAll_cons]
    split
    · exact ih ht
    · exact (ih (announced_tidy ht)).mono fun _ => mem_noted

theorem notingHeader_tidy (ht : Tidy s pending) (header : Block) :
    Tidy (s.notingHeader header) pending := by
  refine ⟨ht.requests, fun i hi => ht.validations i ?_⟩
  rwa [(notingHeader_asking s header).isReceived] at hi

theorem noteHeader_tidy (ht : Tidy s pending) (header : Block) :
    Tidy (noteHeader peer s header).2
      (if (noteHeader peer s header).1 then header.id :: pending else pending) := by
  rw [noteHeader_eq]
  split
  · exact notingHeader_tidy ht header
  · exact announced_tidy (notingHeader_tidy ht header)

theorem noteHeaders_tidy {headers : List Block} (ht : Tidy s pending) :
    Tidy (noteHeaders peer s headers).1 ((noteHeaders peer s headers).2 ++ pending) := by
  induction headers generalizing s pending with
  | nil => exact ht
  | cons header rest ih =>
    rw [noteHeaders_cons]
    split
    · exact ih ht
    · exact (ih (noteHeader_tidy ht header)).mono fun _ => mem_noted

-- ---------------------------------------------------------------------------
-- Messages
-- ---------------------------------------------------------------------------

theorem resolving_tidy (ht : Tidy s []) (id : BlockId) : Tidy (s.resolving id) [] := by
  have hcore := resolving_core s id
  split at hcore
  · have ha : (s.resolving id).armed = s.armed.erase (.inventoryTimeout id) :=
      congrArg Core.armed hcore
    constructor
    · intro i hi
      rw [isTracked_resolving, Bool.and_eq_true, decide_eq_true_eq] at hi
      have hne : TimerId.inventoryTimeout i ≠ .inventoryTimeout id :=
        fun h => hi.1 (TimerId.inventoryTimeout.inj h).symm
      rw [ha]
      exact (ht.requests i hi.2).imp_left (List.mem_erase_of_ne hne).mpr
    · intro i hi
      rw [resolving_staging] at hi
      have hne : TimerId.validation i ≠ .inventoryTimeout id := TimerId.noConfusion
      rw [ha]
      exact (List.mem_erase_of_ne hne).mpr (ht.validations i hi)
  · exact .of_core hcore ht

theorem receiveBlock_tidy (ht : Tidy s []) (sender : NodeId) (record : Block) :
    Tidy (receiveBlock sender s record).1 [] := by
  rw [receiveBlock_eq]
  split
  · exact ht
  · rename_i hk
    have hk : s.isKnown (record.received sender s.now).id = false := Bool.eq_false_iff.mpr hk
    have hr := resolving_tidy ht record.id
    constructor
    · intro i hi
      rw [armTimer_inventory] at hi
      exact (hr.requests i hi).imp_left fun h => mem_armTimer.mpr (.inl h)
    · intro i hi
      rw [armTimer_staging] at hi
      rcases (isReceived_stage_of_unknown hk i).mp hi with rfl | hi
      · exact mem_armTimer.mpr (.inr rfl)
      · rw [← resolving_staging s record.id] at hi
        exact mem_armTimer.mpr (.inl (hr.validations i hi))

theorem onEnvelope_tidy (ht : Tidy s []) (sender : NodeId) (e : Envelope) :
    Tidy (onEnvelope sender s e).1 [] := by
  unfold onEnvelope
  split
  · exact ht
  · unfold onInv
    split
    · exact ht
    · exact requestBlocks_tidy
        ((announceAll_tidy (ht.of_core (countReceived_core ..))).mono (by simp)) true
  · exact ht.of_core (onGetHeaders_core ..)
  · unfold onHeaders
    split
    · exact ht
    · exact requestBlocks_tidy
        ((noteHeaders_tidy (ht.of_core (countReceived_core ..))).mono (by simp)) false
  · exact ht.of_core (onGetData_core ..)
  · unfold onBlock
    split
    · exact ht
    · exact foldActions_keeps (I := (Tidy · [])) (fun s r _ h => receiveBlock_tidy h sender r)
        (ht.of_core (countReceived_core ..))
  · exact ht.of_core (onRequestTrans_core ..)
  · exact ht.of_core (onReplyTrans_core ..)
  all_goals exact ht

theorem onBytes_tidy (ht : Tidy s []) (sender : NodeId) (bytes : Bytes) :
    Tidy (s.onBytes sender bytes).1 [] :=
  foldActions_keeps (I := (Tidy · [])) (fun _ e _ h => onEnvelope_tidy h sender e)
    (s := { s with frames := (s.frames.feed sender bytes).2 }) ⟨ht.requests, ht.validations⟩

-- ---------------------------------------------------------------------------
-- Timers
-- ---------------------------------------------------------------------------

theorem disarm_inventoryTimeout_tidy (ht : Tidy s []) (id : BlockId) :
    Tidy (s.disarm (.inventoryTimeout id)) [id] where
  requests i hi := by
    by_cases he : i = id
    · exact .inr (List.mem_singleton.mpr he)
    · have hne : TimerId.inventoryTimeout i ≠ .inventoryTimeout id :=
        fun h => he (TimerId.inventoryTimeout.inj h)
      exact (ht.requests i hi).imp (List.mem_erase_of_ne hne).mpr (absurd · List.not_mem_nil)
  validations i hi := by
    have hne : TimerId.validation i ≠ .inventoryTimeout id := nofun
    exact (List.mem_erase_of_ne hne).mpr (ht.validations i hi)

/-- The request whose timer has fired is ended, asked for anew, or given up. -/
theorem onInventoryTimeout_tidy (ht : Tidy s [id]) : Tidy (s.onInventoryTimeout id).1 [] := by
  have hended {inventory : Inventory BlockId}
      (h : ∀ i, inventory.isTracked i = true → i ≠ id ∧ s.inventory.isTracked i = true) :
      Tidy { s with inventory } [] := by
    refine ⟨fun i hi => ?_, ht.validations⟩
    obtain ⟨hne, hi⟩ := h i hi
    exact .inl ((ht.requests i hi).resolve_right fun hmem => hne (List.mem_singleton.mp hmem))
  have hexpire (i : BlockId) := Inventory.isTracked_expire s.inventory id i
    s.config.maxRequestAttempts
  unfold onInventoryTimeout
  split
  · refine hended fun i hi => ?_
    simp only [Inventory.isTracked_resolve, Bool.and_eq_true, decide_eq_true_eq] at hi
    exact ⟨Ne.symm hi.1, hi.2⟩
  · split
    · rename_i inventory heq
      have hstale := Inventory.not_isTracked_of_stale (congrArg Prod.fst heq)
      rw [heq] at hexpire
      refine hended fun i hi => ?_
      have hi : s.inventory.isTracked i = true := by simpa using (hexpire i).symm.trans hi
      refine ⟨?_, hi⟩
      rintro rfl
      exact Bool.noConfusion (hstale.symm.trans hi)
    · rename_i peer inventory heq
      rw [heq] at hexpire
      refine requestBlocks_tidy ?_ true
      refine .of_core (countTimeout_core _) ⟨fun i hi => ht.requests i ?_, ht.validations⟩
      simpa using (hexpire i).symm.trans hi
    · rename_i inventory heq
      rw [heq] at hexpire
      refine .of_core (countTimeout_core _) (hended fun i hi => ?_)
      have := (hexpire i).symm.trans hi
      rw [Bool.and_eq_true, decide_eq_true_eq] at this
      exact ⟨(this.2.resolve_right (· rfl)).symm, this.1⟩

theorem acceptBlock_tidy (ht : Tidy s []) (b : Block) : Tidy (s.acceptBlock b).1 [] := by
  have hcore := acceptBlock_core s b
  have hs : (s.acceptBlock b).1.staging = s.staging := congrArg Core.staging hcore
  have hi : (s.acceptBlock b).1.inventory = s.inventory := congrArg Core.inventory hcore
  have ha : (s.acceptBlock b).1.armed = s.armed := congrArg Core.armed hcore
  constructor
  · rw [hi, ha]; exact ht.requests
  · rw [hs, ha]; exact ht.validations

/-- A block whose validation has come is no longer held as received. -/
theorem isReceived_onValidation (s : Session) (id i : BlockId) :
    (s.onValidation id).1.staging.isReceived i =
      (decide (id ≠ i) && s.staging.isReceived i) := by
  have hcore := onValidation_core s id
  cases hid : s.staging.received.get? id with
  | none =>
    rw [hid] at hcore
    rw [show (s.onValidation id).1.staging = s.staging from congrArg Core.staging hcore]
    by_cases he : id = i
    · subst he
      simp [Staging.isReceived, Table.contains, hid]
    · simp [he]
  | some b =>
    rw [hid] at hcore
    rw [show (s.onValidation id).1.staging = ⟨s.staging.received.erase id, s.staging.headers⟩ from
      congrArg Core.staging hcore]
    by_cases he : id = i <;> simp [Staging.isReceived, Table.contains, he]

theorem onValidation_asked (s : Session) (id : BlockId) :
    (s.onValidation id).1.inventory = s.inventory ∧ (s.onValidation id).1.armed = s.armed := by
  have hcore := onValidation_core s id
  split at hcore
  · exact ⟨congrArg Core.inventory hcore, congrArg Core.armed hcore⟩
  · exact ⟨congrArg Core.inventory hcore, congrArg Core.armed hcore⟩

theorem onValidation_tidy (ht : Tidy s []) (id : BlockId) :
    Tidy ((s.disarm (.validation id)).onValidation id).1 [] := by
  obtain ⟨hinventory, harmed⟩ := onValidation_asked (s.disarm (.validation id)) id
  constructor
  · intro i hi
    have hne : TimerId.inventoryTimeout i ≠ .validation id := nofun
    rw [hinventory] at hi
    rw [harmed]
    exact (ht.requests i hi).imp_left (List.mem_erase_of_ne hne).mpr
  · intro i hi
    rw [isReceived_onValidation, Bool.and_eq_true, decide_eq_true_eq] at hi
    have hne : TimerId.validation i ≠ .validation id :=
      fun h => hi.1 (TimerId.validation.inj h).symm
    rw [harmed]
    exact (List.mem_erase_of_ne hne).mpr (ht.validations i hi.2)

theorem onNextTransaction_tidy (ht : Tidy s []) :
    Tidy (s.disarm .nextTransaction).onNextTransaction.1 [] := by
  have hdisarm : Tidy (s.disarm .nextTransaction) [] := by
    constructor
    · intro i hi
      have hne : TimerId.inventoryTimeout i ≠ .nextTransaction := nofun
      exact (ht.requests i hi).imp_left (List.mem_erase_of_ne hne).mpr
    · intro i hi
      have hne : TimerId.validation i ≠ .nextTransaction := nofun
      exact (List.mem_erase_of_ne hne).mpr (ht.validations i hi)
  rcases onNextTransaction_eq (s.disarm .nextTransaction) with h | ⟨s', after, hcore, h⟩
  · rwa [h]
  · rw [h]
    exact armTimer_tidy (.of_core hcore hdisarm) ..

-- ---------------------------------------------------------------------------
-- Events
-- ---------------------------------------------------------------------------

theorem onStart_tidy (ht : Tidy s []) : Tidy s.onStart.1 [] := by
  unfold onStart
  split
  · exact ht
  · simp only
    split
    · exact armTimer_tidy (s := { s with running := true, counted := _ })
        ⟨ht.requests, ht.validations⟩ ..
    · exact ⟨ht.requests, ht.validations⟩

theorem onStop_tidy (ht : Tidy s []) : Tidy s.onStop.1 [] := by
  cases hr : s.running with
  | false => rwa [onStop_idle hr]
  | true =>
    have hcore := onStop_core hr
    have hi : s.onStop.1.inventory = .empty := congrArg Core.inventory hcore
    have hs : s.onStop.1.staging = { s.staging with received := .empty } :=
      congrArg Core.staging hcore
    constructor
    · simp [hi, Inventory.isTracked, Inventory.empty, Table.contains]
    · simp [hs, Staging.isReceived, Table.contains]

/-- Whatever waits in a session has a timer, after every event. -/
theorem handle_tidy (ht : Tidy s []) (e : Event) : Tidy (s.handle e).1 [] := by
  cases e with
  | start => exact onStart_tidy ht
  | stop => exact onStop_tidy ht
  | bytesReceived sender bytes =>
    simp only [handle]
    split
    · exact onBytes_tidy ht sender bytes
    · exact ht
  | blockMinted b =>
    simp only [handle]
    split
    · exact acceptBlock_tidy ht _
    · exact ht
  | timerFired timer =>
    by_cases h : s.running = true ∧ timer ∈ s.armed
    · rw [handle_timerFired h.1 h.2]
      cases timer with
      | inventoryTimeout id => exact onInventoryTimeout_tidy (disarm_inventoryTimeout_tidy ht id)
      | validation id => exact onValidation_tidy ht id
      | nextTransaction => exact onNextTransaction_tidy ht
    · rwa [handle_timerFired_idle h]

theorem Reachable.tidy {setup : Setup} {config : SessionConfig} {s : Session}
    (h : Reachable setup config s) : Tidy s [] := by
  induction h with
  | fresh => exact fresh_tidy setup config
  | step _ now e ih => exact handle_tidy (ih.of_core (setTime_core _ now)) e

end BlockGossip.Session
