import BlockGossip.Proofs.Session.Requesting

/-!
# No timer runs for nothing

A timer of a session runs only for what waits, whatever events come
(`Reachable.strict`), and none runs while the session does not
(`Reachable.resting`). Each message is described once by what it does to the
timers: it leaves them alone, requests blocks, or receives some (`Answered`).
-/

namespace BlockGossip

namespace Session

variable {s t : Session} {id : BlockId} {peer sender : NodeId} {timer : TimerId}

-- ---------------------------------------------------------------------------
-- Received blocks
-- ---------------------------------------------------------------------------

theorem resolving_armed (ht : Strict s []) (id : BlockId) :
    (s.resolving id).armed = s.armed.erase (.inventoryTimeout id) := by
  have hcore := resolving_core s id
  split at hcore
  · exact congrArg Core.armed hcore
  · rename_i hid
    have hnot : .inventoryTimeout id ∉ s.armed := fun h => hid (ht.requests id h).1
    rw [List.erase_of_not_mem hnot]
    exact congrArg Core.armed hcore

theorem resolving_strict (ht : Strict s []) (id : BlockId) : Strict (s.resolving id) [] := by
  have ha := resolving_armed ht id
  have hcore := resolving_core s id
  split at hcore
  · have hi : (s.resolving id).inventory = (s.inventory.resolve id).2 :=
      congrArg Core.inventory hcore
    have hr : (s.resolving id).running = s.running := congrArg Core.running hcore
    have hp : (s.resolving id).setup = s.setup := congrArg Core.setup hcore
    constructor
    · rw [ha]; exact ht.distinct.erase _
    · exact List.nodup_nil
    · exact List.forall_mem_nil _
    · intro i hmem
      rw [ha, ht.distinct.mem_erase_iff] at hmem
      have hne : id ≠ i := fun h => hmem.1 (h ▸ rfl)
      rw [isTracked_resolving, (ht.requests i hmem.2).1]
      exact ⟨by simpa using hne, List.not_mem_nil⟩
    · intro i entry hentry
      rw [hi] at hentry
      exact ht.flags i entry (Inventory.get?_resolve hentry).2
    · intro i hmem
      rw [ha] at hmem
      rw [resolving_staging]
      exact ht.validations i (List.mem_of_mem_erase hmem)
    · have hne : TimerId.nextTransaction ≠ .inventoryTimeout id := TimerId.noConfusion
      rw [ha, hr, hp, List.mem_erase_of_ne hne]
      exact ht.next
  · exact .of_core hcore ht

/-- The session that holds a block whose request has ended. -/
def holding (s : Session) (sender : NodeId) (record : Block) : Session :=
  { s.resolving record.id with
    staging := (s.staging.stage (record.received sender s.now)).2 }

theorem receiveBlock_known {record : Block} (h : s.isKnown record.id = true) :
    receiveBlock sender s record = (s, []) := by
  simp [receiveBlock, h]

theorem validation_not_armed (ht : Strict s []) (h : s.isKnown id = false) :
    .validation id ∉ (s.resolving id).armed := by
  intro hmem
  have hr := (resolving_strict ht id).validations id hmem
  rw [resolving_staging] at hr
  exact Bool.noConfusion (hr.symm.trans (Bool.or_eq_false_iff.mp h).2)

/-- A block that is unknown ends its request and sets its validation. -/
theorem receiveBlock_unknown (ht : Strict s []) {record : Block}
    (h : s.isKnown record.id = false) :
    receiveBlock sender s record =
      ({ s.holding sender record with
          armed := s.armed.erase (.inventoryTimeout record.id) ++ [.validation record.id] },
        (if .inventoryTimeout record.id ∈ s.armed then [.cancelTimer (.inventoryTimeout record.id)]
          else []) ++ [.setTimer (.validation record.id) s.config.validationDelay]) := by
  have harmed : (s.holding sender record).armed = s.armed.erase (.inventoryTimeout record.id) :=
    resolving_armed ht record.id
  have hnot : .validation record.id ∉ (s.holding sender record).armed := validation_not_armed ht h
  have hfst := receiveBlock_eq sender s record
  have hsnd : (receiveBlock sender s record).2 =
      (if s.inventory.isTracked record.id && s.armed.contains (.inventoryTimeout record.id) then
        [.cancelTimer (.inventoryTimeout record.id)] else []) ++
      ((s.holding sender record).armTimer (.validation record.id) s.config.validationDelay).2 := by
    unfold receiveBlock holding resolving cancelTimer
    simp only [h, Bool.false_eq_true, if_false, Inventory.resolve_fst_isSome]
    cases s.inventory.isTracked record.id
    · rfl
    · cases s.armed.contains (.inventoryTimeout record.id) <;> rfl
  rw [h, if_neg Bool.false_ne_true, ← holding, armTimer_of_not_mem hnot, harmed] at hfst
  rw [armTimer_of_not_mem hnot] at hsnd
  refine Prod.ext hfst (hsnd.trans ?_)
  congr 1
  by_cases hmem : .inventoryTimeout record.id ∈ s.armed
  · simp [hmem, (ht.requests _ hmem).1]
  · simp [hmem]

theorem receiveBlock_strict (ht : Strict s []) (sender : NodeId) (record : Block) :
    Strict (receiveBlock sender s record).1 [] := by
  cases hk : s.isKnown record.id with
  | true => rwa [receiveBlock_known hk]
  | false =>
    have hr := resolving_strict ht record.id
    have hnot := validation_not_armed ht hk
    have hnew : s.isKnown (record.received sender s.now).id = false := hk
    rw [receiveBlock_unknown ht hk, ← resolving_armed ht]
    constructor
    · exact hr.distinct.append (List.nodup_singleton _) (List.disjoint_singleton.mpr hnot)
    · exact List.nodup_nil
    · exact nofun
    · exact fun i hmem => hr.requests i ((List.mem_append.mp hmem).resolve_right (by simp))
    · exact hr.flags
    · intro i hmem
      refine (isReceived_stage_of_unknown hnew i).mpr ?_
      rcases List.mem_append.mp hmem with hmem | hmem
      · refine .inr ?_
        rw [← resolving_staging s record.id]
        exact hr.validations i hmem
      · exact .inl (TimerId.validation.inj (List.mem_singleton.mp hmem)).symm
    · exact (List.mem_append.trans (or_iff_left (by simp))).trans hr.next

-- ---------------------------------------------------------------------------
-- Messages
-- ---------------------------------------------------------------------------

/-- What a message leads to: nothing that matters here and messages that
inform, requests for blocks, or the receipt of blocks. -/
inductive Answered (sender : NodeId) (s : Session) : Outcome Session → Prop
  | informs {o : Outcome Session} (hcore : o.1.core = s.core) (h : ∀ a ∈ o.2, Informs a) :
    Answered sender s o
  | requests {o : Outcome Session} (h : Requesting s o) : Answered sender s o
  | receives {t : Session} (hcore : t.core = s.core) (records : List Block) :
    Answered sender s (foldActions (receiveBlock sender) t records)

theorem onEnvelope_answered (ht : Strict s []) (sender : NodeId) (e : Envelope) :
    Answered sender s (onEnvelope sender s e) := by
  unfold onEnvelope
  split
  · exact .informs rfl nofun
  · exact .requests (onInv_requesting ht sender e)
  · exact .informs (onGetHeaders_core ..) onGetHeaders_informs
  · exact .requests (onHeaders_requesting ht sender e)
  · exact .informs (onGetData_core ..) onGetData_informs
  · unfold onBlock
    split
    · exact .informs rfl nofun
    · exact .receives (countReceived_core ..) _
  · exact .informs (onRequestTrans_core ..) onRequestTrans_informs
  · exact .informs (onReplyTrans_core ..) nofun
  all_goals exact .informs rfl nofun

theorem Answered.strict {o : Outcome Session} (h : Answered sender s o) (ht : Strict s []) :
    Strict o.1 [] := by
  cases h with
  | informs hcore => exact ht.of_core hcore
  | requests h => exact h.strict
  | receives hcore records =>
    exact foldActions_keeps (I := (Strict · [])) (fun s r _ h => receiveBlock_strict h sender r)
      (ht.of_core hcore)

theorem onBytes_strict (ht : Strict s []) (sender : NodeId) (bytes : Bytes) :
    Strict (s.onBytes sender bytes).1 [] :=
  foldActions_keeps (I := (Strict · []))
    (fun _ e _ h => (onEnvelope_answered h sender e).strict h)
    (ht.of_aside (t := { s with frames := (s.frames.feed sender bytes).2 }) rfl)

-- ---------------------------------------------------------------------------
-- Timers
-- ---------------------------------------------------------------------------

theorem disarm_inventoryTimeout_strict (ht : Strict s []) (h : .inventoryTimeout id ∈ s.armed) :
    Strict (s.disarm (.inventoryTimeout id)) [id] where
  distinct := ht.distinct.erase _
  pending_distinct := List.nodup_singleton id
  pending_tracked i hi := by
    obtain rfl := List.mem_singleton.mp hi
    exact (ht.requests i h).1
  requests i hi := by
    obtain ⟨hne, hi⟩ := ht.distinct.mem_erase_iff.mp hi
    refine ⟨(ht.requests i hi).1, fun hmem => hne ?_⟩
    rw [List.mem_singleton.mp hmem]
  flags i entry hi := (ht.flags i entry hi).imp_right (absurd · List.not_mem_nil)
  validations i hi := ht.validations i (List.mem_of_mem_erase hi)
  next := by
    have hne : TimerId.nextTransaction ≠ .inventoryTimeout id := nofun
    exact (List.mem_erase_of_ne hne).trans ht.next

theorem forgetting_strict (ht : Strict s [id]) :
    Strict { s with inventory := (s.inventory.resolve id).2 } [] := by
  refine ⟨ht.distinct, List.nodup_nil, nofun, fun i hi => ?_, fun i entry hi => ?_,
    ht.validations, ht.next⟩
  · obtain ⟨hi, hne⟩ := ht.requests i hi
    have hne : id ≠ i := fun h => hne (h ▸ List.mem_singleton_self id)
    rw [Inventory.isTracked_resolve, hi]
    exact ⟨by simpa using hne, List.not_mem_nil⟩
  · obtain ⟨hne, hold⟩ := Inventory.get?_resolve hi
    exact (ht.flags i entry hold).imp_right fun h => absurd (List.mem_singleton.mp h).symm hne

theorem retrying_strict {limit : UInt32} {inventory : Inventory BlockId} (ht : Strict s [id])
    (h : s.inventory.expire id limit = (.retry peer, inventory)) :
    Strict { s with inventory } [id] := by
  have hkept (i : BlockId) (hi : s.inventory.isTracked i = true) :
      inventory.isTracked i = true := by
    simpa [h, hi] using Inventory.isTracked_expire s.inventory id i limit
  refine ⟨ht.distinct, ht.pending_distinct, fun i hi => hkept i (ht.pending_tracked i hi),
    fun i hi => (ht.requests i hi).imp_left (hkept i), fun i entry hi => ?_, ht.validations,
    ht.next⟩
  have hi : (s.inventory.expire id limit).2.get? i = some entry := by rwa [h]
  rcases Inventory.get?_expire hi with rfl | hold
  · exact .inr (List.mem_singleton_self _)
  · exact ht.flags i entry hold

/-- The request whose timer has fired is ended, asked for anew, or given up. -/
theorem onInventoryTimeout_requesting (ht : Strict s [id]) :
    Requesting s (s.onInventoryTimeout id) := by
  unfold onInventoryTimeout
  split
  · exact .none rfl rfl (forgetting_strict ht)
  · rename_i hk
    split
    · rename_i inventory heq
      have hstale := Inventory.not_isTracked_of_stale (congrArg Prod.fst heq)
      have htracked := ht.pending_tracked id (List.mem_singleton_self id)
      exact Bool.noConfusion (hstale.symm.trans htracked)
    · rename_i peer inventory heq
      refine ⟨countTimeout { s with inventory }, peer, [id], true,
        Asking.trans (t := { s with inventory }) rfl (.of_core (countTimeout_core _)), rfl,
        (retrying_strict ht heq).of_core (countTimeout_core _), fun i hi => ?_, rfl⟩
      rw [List.mem_singleton.mp hi]
      exact Bool.eq_false_iff.mpr hk
    · rename_i inventory heq
      have hresolve := Inventory.expire_abandoned (congrArg Prod.fst heq)
      rw [heq] at hresolve
      obtain rfl : inventory = (s.inventory.resolve id).2 := hresolve
      exact .none rfl rfl ((forgetting_strict ht).of_core (countTimeout_core _))

theorem acceptBlock_strict (ht : Strict s []) (b : Block) : Strict (s.acceptBlock b).1 [] := by
  have hcore := acceptBlock_core s b
  refine ht.of_aside ?_
  rw [show (s.acceptBlock b).1.ledger = _ from congrArg Core.ledger hcore,
    show (s.acceptBlock b).1.orphans = _ from congrArg Core.orphans hcore,
    show (s.acceptBlock b).1.frames = s.frames from congrArg Core.frames hcore]
  exact hcore

theorem onValidation_strict (ht : Strict s []) (id : BlockId) :
    Strict ((s.disarm (.validation id)).onValidation id).1 [] := by
  have haside : ((s.disarm (.validation id)).onValidation id).1.running = s.running ∧
      ((s.disarm (.validation id)).onValidation id).1.setup = s.setup := by
    have hcore := onValidation_core (s.disarm (.validation id)) id
    split at hcore <;> exact ⟨congrArg Core.running hcore, congrArg Core.setup hcore⟩
  obtain ⟨hi, ha⟩ := onValidation_asked (s.disarm (.validation id)) id
  have ha : ((s.disarm (.validation id)).onValidation id).1.armed =
      s.armed.erase (.validation id) := ha
  constructor
  · rw [ha]; exact ht.distinct.erase _
  · exact List.nodup_nil
  · exact nofun
  · intro i hmem
    rw [ha] at hmem
    rw [hi]
    exact ht.requests i (List.mem_of_mem_erase hmem)
  · rw [hi]; exact ht.flags
  · intro i hmem
    rw [ha, ht.distinct.mem_erase_iff] at hmem
    have hne : id ≠ i := fun h => hmem.1 (h ▸ rfl)
    rw [isReceived_onValidation, Bool.and_eq_true]
    exact ⟨by simpa using hne, ht.validations i hmem.2⟩
  · have hne : TimerId.nextTransaction ≠ .validation id := nofun
    rw [ha, haside.1, haside.2, List.mem_erase_of_ne hne]
    exact ht.next

/-- An originating node offers its transaction and sets the timer of the next. -/
theorem onNextTransaction_offers (h : s.setup.role.originates = true) :
    ∃ (t : Session) (offers : List Action) (after : Duration),
      t.core = s.core ∧ (∀ a ∈ offers, Informs a) ∧
        s.onNextTransaction =
          ((t.armTimer .nextTransaction after).1,
            offers ++ (t.armTimer .nextTransaction after).2) := by
  unfold onNextTransaction
  rw [h]
  refine ⟨(Session.sendAll { s with
      pool := (s.pool.create s.now).2
      counted := { s.counted with nodeGeneratedTransaction := (s.pool.create s.now).2.generated } }
      .requestTrans s.setup.peers (Envelope.requestTrans [(s.pool.create s.now).1]) _).1,
    sendActions s.setup.peers (Envelope.requestTrans [(s.pool.create s.now).1]) _, _, rfl,
    sendActions_informs .requestTrans rfl ⟨nofun, nofun⟩, rfl⟩

/-- Once the next transaction's timer has left, or before it was set, it is set. -/
theorem armNext_strict {t : Session} (ht : Strict s [])
    (hcore : t.core = { s.core with running := true, armed := s.armed.erase .nextTransaction })
    (horiginates : s.setup.role.originates = true) (after : Duration) :
    Strict (t.armTimer .nextTransaction after).1 [] := by
  have ha : t.armed = s.armed.erase .nextTransaction := congrArg Core.armed hcore
  have hi : t.inventory = s.inventory := congrArg Core.inventory hcore
  have hs : t.staging = s.staging := congrArg Core.staging hcore
  have hr : t.running = true := congrArg Core.running hcore
  have hp : t.setup = s.setup := congrArg Core.setup hcore
  have hnot : .nextTransaction ∉ t.armed := by
    rw [ha]
    exact ht.distinct.not_mem_erase
  have hother {timer : TimerId} (h : timer ∈ t.armed ++ [.nextTransaction])
      (hne : timer ≠ .nextTransaction) : timer ∈ s.armed := by
    have hmem := (List.mem_append.mp h).resolve_right fun h => hne (List.mem_singleton.mp h)
    exact List.mem_of_mem_erase (ha ▸ hmem)
  rw [armTimer_of_not_mem hnot]
  constructor
  · refine List.Nodup.append ?_ (List.nodup_singleton _) (List.disjoint_singleton.mpr hnot)
    rw [ha]
    exact ht.distinct.erase _
  · exact List.nodup_nil
  · exact nofun
  · intro i hmem
    rw [hi]
    exact ht.requests i (hother hmem nofun)
  · rw [hi]
    exact ht.flags
  · intro i hmem
    rw [hs]
    exact ht.validations i (hother hmem nofun)
  · rw [hr, hp]
    exact iff_of_true (List.mem_append_right _ (List.mem_singleton_self _)) ⟨rfl, horiginates⟩

theorem onNextTransaction_strict (ht : Strict s []) (h : .nextTransaction ∈ s.armed) :
    Strict (s.disarm .nextTransaction).onNextTransaction.1 [] := by
  obtain ⟨hrunning, horiginates⟩ := ht.next.mp h
  obtain ⟨t, offers, after, hcore, -, heq⟩ :=
    onNextTransaction_offers (s := s.disarm .nextTransaction) horiginates
  rw [heq]
  refine armNext_strict ht ?_ horiginates after
  rw [hcore, disarm_core, core, hrunning]

-- ---------------------------------------------------------------------------
-- Events
-- ---------------------------------------------------------------------------

/-- Nothing is in progress. -/
structure Resting (s : Session) : Prop where
  armed : s.armed = []
  inventory : s.inventory = .empty
  received : s.staging.received = .empty
  frames : s.frames = .empty

theorem Resting.setTime (h : Resting s) (now : Time) : Resting (s.setTime now) :=
  ⟨h.armed, h.inventory, h.received, h.frames⟩

theorem running_of_armed (h : s.running = false → Resting s) (hmem : timer ∈ s.armed) :
    s.running = true := by
  cases hr : s.running with
  | true => rfl
  | false => exact absurd ((h hr).armed ▸ hmem) List.not_mem_nil

/-- A session that does not run takes no notice of anything but a start. -/
theorem handle_stopped (hr : s.running = false) {e : Event} (he : e ≠ .start) :
    s.handle e = (s, []) := by
  cases e with
  | start => exact absurd rfl he
  | stop => exact onStop_idle hr
  | bytesReceived => simp [handle, hr]
  | timerFired => simp [handle, hr]
  | blockMinted => simp [handle, hr]

theorem onStop_resting (hr : s.running = true) : Resting s.onStop.1 := by
  have hcore := onStop_core hr
  exact ⟨congrArg Core.armed hcore, congrArg Core.inventory hcore,
    congrArg (fun c => c.staging.received) hcore, congrArg Core.frames hcore⟩

theorem handle_resting (h : s.running = false → Resting s) (e : Event)
    (hr : (s.handle e).1.running = false) : Resting (s.handle e).1 := by
  cases hs : s.running with
  | true =>
    by_cases he : e = .stop
    · subst he
      exact onStop_resting hs
    · exact Bool.noConfusion (hr.symm.trans (handle_running hs he))
  | false =>
    by_cases he : e = .start
    · subst he
      exact Bool.noConfusion (hr.symm.trans (congrArg Core.running (onStart_core s)))
    · rw [handle_stopped hs he]
      exact h hs

theorem onStart_strict (ht : Strict s []) (h : s.running = false → Resting s) :
    Strict s.onStart.1 [] := by
  unfold onStart
  split
  · exact ht
  · rename_i hr
    have harmed := (h (Bool.eq_false_iff.mpr hr)).armed
    simp only
    split
    · rename_i horiginates
      refine armNext_strict ht ?_ horiginates _
      rw [harmed]
      simp [core, harmed]
    · rename_i horiginates
      refine ⟨ht.distinct, ht.pending_distinct, ht.pending_tracked, ht.requests, ht.flags,
        ht.validations, iff_of_false ?_ fun h => horiginates h.2⟩
      exact harmed ▸ List.not_mem_nil

theorem onStop_strict (ht : Strict s []) : Strict s.onStop.1 [] := by
  cases hr : s.running with
  | false => rwa [onStop_idle hr]
  | true =>
    have hrest := onStop_resting hr
    have hrunning : s.onStop.1.running = false := congrArg Core.running (onStop_core hr)
    constructor
    · rw [hrest.armed]; exact List.nodup_nil
    · exact List.nodup_nil
    · exact nofun
    · rw [hrest.armed]; exact nofun
    · rw [hrest.inventory]; exact nofun
    · rw [hrest.armed]; exact nofun
    · rw [hrest.armed, hrunning]; exact ⟨nofun, nofun⟩

/-- A timer of a session runs only for what waits, after every event. -/
theorem handle_strict (ht : Strict s []) (h : s.running = false → Resting s) (e : Event) :
    Strict (s.handle e).1 [] := by
  cases e with
  | start => exact onStart_strict ht h
  | stop => exact onStop_strict ht
  | bytesReceived sender bytes =>
    simp only [handle]
    split
    · exact onBytes_strict ht sender bytes
    · exact ht
  | blockMinted b =>
    simp only [handle]
    split
    · exact acceptBlock_strict ht _
    · exact ht
  | timerFired timer =>
    by_cases h : s.running = true ∧ timer ∈ s.armed
    · rw [handle_timerFired h.1 h.2]
      cases timer with
      | inventoryTimeout id =>
        exact (onInventoryTimeout_requesting (disarm_inventoryTimeout_strict ht h.2)).strict
      | validation id => exact onValidation_strict ht id
      | nextTransaction => exact onNextTransaction_strict ht h.2
    · rwa [handle_timerFired_idle h]

theorem Reachable.resting {setup : Setup} {config : SessionConfig} {s : Session}
    (h : Reachable setup config s) (hr : s.running = false) : Resting s := by
  induction h with
  | fresh => exact ⟨rfl, rfl, rfl, rfl⟩
  | @step s _ now e ih =>
    exact handle_resting (s := s.setTime now) (fun h => (ih h).setTime now) e hr

theorem Reachable.strict {setup : Setup} {config : SessionConfig} {s : Session}
    (h : Reachable setup config s) : Strict s [] := by
  induction h with
  | fresh => exact fresh_strict setup config
  | @step s h now e ih =>
    exact handle_strict (ih.of_core (setTime_core s now)) (fun hr => (h.resting hr).setTime now) e

end Session

end BlockGossip
