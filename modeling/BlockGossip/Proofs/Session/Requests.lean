import BlockGossip.Proofs.Session.Sends
import BlockGossip.Proofs.Session.Synchrony
import BlockGossip.Proofs.Wire.Crossing

/-!
# One request at a time

However many peers announce a block, and however often, one request for it is
in flight: a second goes out only after the time of the first has run out or
its timer was cancelled. Requests name each block once and none that is known,
and once they are sent each of their blocks is tracked and its timer runs.
-/

namespace BlockGossip

-- ---------------------------------------------------------------------------
-- Frames that ask for blocks
-- ---------------------------------------------------------------------------

/-- The ids that a frame names, as its receiver reads it. -/
def named (frame : Bytes) : List BlockId :=
  (pullAll frame).1.flatMap fun e => Session.parseKeys e.blockKeys

/-- A request is encoded, and names the ids it was made of. -/
theorem withKeys_read (kind : MessageKind) {ids : List BlockId} (hne : ids ≠ []) :
    ∃ frame, (Envelope.withKeys kind ids).encode = .ok frame ∧ named frame = ids := by
  have hless : (Envelope.withKeys kind ids).toJson.Hashless := by
    refine (Envelope.toJson_hashless_iff _).mpr fun text htext => ?_
    rw [Envelope.texts, Session.blockKeys_withKeys] at htext
    rcases List.mem_cons.mp htext with rfl | htext
    · show '#' ∉ kind.label.toList
      cases kind <;> decide
    · obtain ⟨id, -, rfl⟩ := List.mem_map.mp htext
      exact id.hash_not_mem_key
  have hencode := Envelope.encode_of_hashless hless
  have hread : (Envelope.withKeys kind ids).reread? = some (Envelope.withKeys kind ids) := by
    cases ids with
    | nil => exact absurd rfl hne
    | cons id ids => rfl
  refine ⟨_, hencode, ?_⟩
  rw [named, Envelope.pullAll_encode hencode, hread]
  show Session.parseKeys (Envelope.withKeys kind ids).blockKeys ++ [] = ids
  rw [List.append_nil, Session.blockKeys_withKeys, Session.parseKeys_keys]

/-- The frame of an action that asks for blocks. -/
def Action.request? : Action → Option Bytes
  | .send _ .getHeaders frame _ => some frame
  | .send _ .getData frame _ => some frame
  | _ => none

namespace Entry

/-- The entry asks a peer for a block. -/
def asks (id : BlockId) : Entry → Bool
  | .action (.send _ .getData frame _) => (named frame).contains id
  | _ => false

/-- The entry ends the request for a block: its time has run out, or its timer is
cancelled. -/
def ends (id : BlockId) : Entry → Bool
  | .event found (.timerFired timer) =>
    timer == .inventoryTimeout id && found.running && found.armed.contains timer
  | .action (.cancelTimer timer) => timer == .inventoryTimeout id
  | _ => false

/-- Whether a request for the block is in flight after an entry; none where one
goes out while another is. -/
def flight (id : BlockId) (x : Entry) (flying : Bool) : Option Bool :=
  if x.ends id then some false
  else if x.asks id then if flying then none else some true
  else some flying

variable {id : BlockId} {x : Entry}

theorem flight_ends (h : x.ends id = true) (flying : Bool) : x.flight id flying = some false :=
  if_pos h

theorem flight_asks (h : x.asks id = true) (flying : Bool) :
    x.flight id flying = if flying then none else some true := by
  have hends : x.ends id = false := by
    unfold asks at h
    split at h
    · rfl
    · exact nomatch h
  simp [flight, hends, h]

theorem flight_else (h : ¬x.ends id = true) (h' : ¬x.asks id = true) (flying : Bool) :
    x.flight id flying = some flying := by
  rw [flight, if_neg h, if_neg h']

end Entry

/-- How many requests for a block have gone out since the last was ended. -/
def inFlight (id : BlockId) (log : List Entry) : Nat :=
  log.foldl (fun n x => if x.ends id then 0 else if x.asks id then n + 1 else n) 0

namespace Session

variable {setup : Setup} {config : SessionConfig} {s t : Session} {log : List Entry}
  {id : BlockId} {ids : List BlockId} {peer sender : NodeId}

theorem request?_informs {a : Action} (h : Informs a) : a.request? = none := by
  obtain ⟨receiver, kind, frame, charge, rfl⟩ := h.eq_send
  cases kind with
  | getHeaders => exact absurd rfl h.1
  | getData => exact absurd rfl h.2
  | _ => rfl

-- ---------------------------------------------------------------------------
-- Steps
-- ---------------------------------------------------------------------------

/-- The steps of a sequence: the state that each finds, and what it leads to. -/
def trail {σ α : Type} (step : σ → α → Outcome σ) (s : σ) : List α → List (σ × Outcome σ)
  | [] => []
  | x :: xs => (s, step s x) :: trail step (step s x).1 xs

theorem foldActions_trail {σ α : Type} (step : σ → α → Outcome σ) (s : σ) (xs : List α) :
    (foldActions step s xs).2 = (trail step s xs).flatMap (·.2.2) := by
  induction xs generalizing s with
  | nil => rfl
  | cons x xs ih =>
    rw [foldActions_cons, trail, List.flatMap_cons, ← ih]

/-- What each step keeps, each step finds. -/
theorem mem_trail {σ α : Type} {step : σ → α → Outcome σ} {I : σ → Prop} {xs : List α}
    (hstep : ∀ s x, I s → I (step s x).1) {s : σ} (hs : I s) :
    ∀ y ∈ trail step s xs, I y.1 ∧ ∃ x ∈ xs, y.2 = step y.1 x := by
  induction xs generalizing s with
  | nil => exact nofun
  | cons x xs ih =>
    intro y hy
    rcases List.mem_cons.mp hy with rfl | hy
    · exact ⟨hs, x, List.mem_cons_self .., rfl⟩
    · obtain ⟨hI, z, hz, heq⟩ := ih (hstep s x hs) y hy
      exact ⟨hI, z, List.mem_cons_of_mem _ hz, heq⟩

/-- The steps in which a session handles an event: one for each message that
bytes complete, and one for any other event. -/
def steps (s : Session) : Event → List (Session × Outcome Session)
  | .bytesReceived sender bytes =>
    if s.running then
      trail (onEnvelope sender) { s with frames := (s.frames.feed sender bytes).2 }
        (s.frames.feed sender bytes).1
    else []
  | e => [(s, s.handle e)]

theorem handle_steps (s : Session) (e : Event) :
    (s.handle e).2 = (s.steps e).flatMap (·.2.2) := by
  cases e with
  | bytesReceived sender bytes =>
    simp only [handle, steps]
    split
    · exact foldActions_trail ..
    · rfl
  | _ => exact (List.append_nil _).symm

-- ---------------------------------------------------------------------------
-- What is asked for
-- ---------------------------------------------------------------------------

/-- A request that goes out in a step from one session to another: it names
blocks, each once; none is known, and each is tracked then and its timer runs. -/
structure Fitting (s t : Session) (frame : Bytes) : Prop where
  nonempty : named frame ≠ []
  distinct : (named frame).Nodup
  unknown : ∀ id ∈ named frame, s.isKnown id = false ∧ t.isKnown id = false
  waiting : ∀ id ∈ named frame,
    t.inventory.isTracked id = true ∧ .inventoryTimeout id ∈ t.armed

/-- Every request that goes out in the step is fitting. -/
def Asks (s : Session) (o : Outcome Session) : Prop :=
  ∀ a ∈ o.2, ∀ frame, a.request? = some frame → Fitting s o.1 frame

theorem Asks.of_none {o : Outcome Session} (h : ∀ a ∈ o.2, a.request? = none) : Asks s o := by
  intro a ha frame hframe
  rw [h a ha] at hframe
  cases hframe

theorem sendActions_withKeys (peer : NodeId) (kind : MessageKind) (hne : ids ≠ [])
    (charge : UInt64) (hkind : (Envelope.withKeys kind ids).kind? = some kind) :
    ∃ frame, named frame = ids ∧
      sendActions [peer] (Envelope.withKeys kind ids) charge = [.send peer kind frame charge] := by
  obtain ⟨frame, hencode, hnamed⟩ := withKeys_read kind hne
  refine ⟨frame, hnamed, ?_⟩
  rw [sendActions, hkind, hencode]
  rfl

theorem requestBlocks_sent (ht : Strict s ids) (hne : ids ≠ []) (peer : NodeId) (full : Bool) :
    ∃ headersFrame headersCharge dataFrame dataCharge,
      named headersFrame = ids ∧ named dataFrame = ids ∧
        (s.requestBlocks peer ids full).2 =
          ids.map (fun id => .setTimer (.inventoryTimeout id) s.config.invTimeout) ++
            ((if full then [.send peer .getHeaders headersFrame headersCharge] else []) ++
              [.send peer .getData dataFrame dataCharge]) := by
  obtain ⟨-, headersCharge, dataCharge, hsnd⟩ := requestBlocks_eq ht hne peer full
  obtain ⟨headersFrame, hheaders, hsendHeaders⟩ :=
    sendActions_withKeys peer .getHeaders hne headersCharge rfl
  obtain ⟨dataFrame, hdata, hsendData⟩ :=
    sendActions_withKeys peer .getData hne dataCharge rfl
  refine ⟨headersFrame, headersCharge, dataFrame, dataCharge, hheaders, hdata, ?_⟩
  rw [hsnd, Envelope.getHeaders, Envelope.getData, hsendHeaders, hsendData]

theorem requesting_asks {o : Outcome Session} (h : Requesting s o) : Asks s o := by
  have hstrict := h.strict
  obtain ⟨t, peer, ids, full, hasking, -, ht, hunknown, rfl⟩ := h
  by_cases hne : ids = []
  · subst hne
    exact .of_none (List.forall_mem_nil _)
  intro a ha frame hframe
  obtain ⟨headersFrame, headersCharge, dataFrame, dataCharge, hheaders, hdata, hsnd⟩ :=
    requestBlocks_sent ht hne peer full
  have hnamed : named frame = ids := by
    rw [hsnd] at ha
    rcases List.mem_append.mp ha with ha | ha
    · obtain ⟨id, -, rfl⟩ := List.mem_map.mp ha
      cases hframe
    · rcases List.mem_append.mp ha with ha | ha
      · split at ha
        · obtain rfl := List.mem_singleton.mp ha
          obtain rfl := Option.some.inj hframe
          exact hheaders
        · exact absurd ha List.not_mem_nil
      · obtain rfl := List.mem_singleton.mp ha
        obtain rfl := Option.some.inj hframe
        exact hdata
  have harmed := (requestBlocks_eq ht hne peer full).1
  constructor
  · rwa [hnamed]
  · rw [hnamed]
    exact ht.pending_distinct
  · intro id hid
    rw [hnamed] at hid
    rw [(requestBlocks_asking t peer ids full).isKnown, hasking.isKnown]
    exact ⟨hunknown id hid, hunknown id hid⟩
  · intro id hid
    rw [hnamed] at hid
    have hmem : .inventoryTimeout id ∈ (t.requestBlocks peer ids full).1.armed := by
      rw [harmed]
      exact List.mem_append_right _ (List.mem_map_of_mem hid)
    exact ⟨(hstrict.requests id hmem).1, hmem⟩

theorem receiveBlock_request? (ht : Strict s []) (sender : NodeId) (record : Block) :
    ∀ a ∈ (receiveBlock sender s record).2, a.request? = none := by
  cases hk : s.isKnown record.id with
  | true =>
    rw [receiveBlock_known hk]
    exact List.forall_mem_nil _
  | false =>
    rw [receiveBlock_unknown ht hk]
    intro a ha
    rcases List.mem_append.mp ha with ha | ha
    · split at ha
      · rw [List.mem_singleton.mp ha]
        rfl
      · exact absurd ha List.not_mem_nil
    · rw [List.mem_singleton.mp ha]
      rfl

theorem answered_asks {o : Outcome Session} (ht : Strict s []) (h : Answered sender s o) :
    Asks s o := by
  cases h with
  | informs _ h => exact .of_none fun a ha => request?_informs (h a ha)
  | requests h => exact requesting_asks h
  | receives hcore records =>
    exact .of_none (foldActions_induct (I := (Strict · [])) (A := (·.request? = none))
      (fun s r _ h => ⟨receiveBlock_strict h sender r, receiveBlock_request? h sender r⟩)
      (ht.of_core hcore)).2

theorem armTimer_request? (timer : TimerId) (after : Duration) :
    ∀ a ∈ (s.armTimer timer after).2, a.request? = none := by
  unfold armTimer
  split <;> simp [Action.request?]

theorem onStart_request? : ∀ a ∈ s.onStart.2, a.request? = none := by
  unfold onStart
  split
  · exact List.forall_mem_nil _
  · simp only
    split
    · exact armTimer_request? _ _
    · exact List.forall_mem_nil _

theorem onFired_asks (ht : Strict s []) {timer : TimerId} (h : timer ∈ s.armed) :
    Asks s ((s.disarm timer).onFired timer) := by
  cases timer with
  | inventoryTimeout id =>
    intro a ha frame hframe
    have hfit := requesting_asks
      (onInventoryTimeout_requesting (disarm_inventoryTimeout_strict ht h)) a ha frame hframe
    exact ⟨hfit.nonempty, hfit.distinct, hfit.unknown, hfit.waiting⟩
  | validation id => exact .of_none fun a ha => request?_informs (onValidation_informs a ha)
  | nextTransaction =>
    obtain ⟨t, offers, after, -, hoffers, heq⟩ :=
      onNextTransaction_offers (s := s.disarm .nextTransaction) (ht.next.mp h).2
    refine .of_none fun a ha => ?_
    rw [onFired, heq] at ha
    rcases List.mem_append.mp ha with ha | ha
    · exact request?_informs (hoffers a ha)
    · exact armTimer_request? _ _ a ha

theorem steps_asks (ht : Strict s []) (e : Event) : ∀ x ∈ s.steps e, Asks x.1 x.2 := by
  intro x hx
  cases e with
  | start =>
    rw [List.mem_singleton.mp hx]
    exact .of_none onStart_request?
  | stop =>
    rw [List.mem_singleton.mp hx]
    refine .of_none fun a ha => ?_
    obtain ⟨timer, rfl⟩ := onStop_cancels a ha
    rfl
  | bytesReceived sender bytes =>
    simp only [steps] at hx
    split at hx
    · obtain ⟨hstrict, m, -, heq⟩ := mem_trail (I := (Strict · []))
        (fun s e h => (onEnvelope_answered h sender e).strict h)
        (ht.of_aside (t := { s with frames := (s.frames.feed sender bytes).2 }) rfl) x hx
      rw [heq]
      exact answered_asks hstrict (onEnvelope_answered hstrict sender m)
    · exact absurd hx List.not_mem_nil
  | blockMinted b =>
    rw [List.mem_singleton.mp hx]
    refine .of_none ?_
    simp only [handle]
    split
    · exact fun a ha => request?_informs (acceptBlock_informs _ a ha)
    · exact List.forall_mem_nil _
  | timerFired timer =>
    rw [List.mem_singleton.mp hx]
    by_cases hf : s.running = true ∧ timer ∈ s.armed
    · rw [handle_timerFired hf.1 hf.2]
      exact onFired_asks ht hf.2
    · rw [handle_timerFired_idle hf]
      exact .of_none (List.forall_mem_nil _)

-- ---------------------------------------------------------------------------
-- Requests in flight
-- ---------------------------------------------------------------------------

/-- A request is in flight where its timer runs. -/
def Flying (id : BlockId) (s : Session) (flying : Bool) : Prop :=
  flying = true ↔ .inventoryTimeout id ∈ s.armed

def flightAction (id : BlockId) (flying : Bool) (a : Action) : Option Bool :=
  Entry.flight id (.action a) flying

theorem flight_send {kind : MessageKind} {receiver : NodeId} {frame : Bytes} {charge : UInt64}
    (h : kind = .getData → id ∉ named frame) (flying : Bool) :
    flightAction id flying (.send receiver kind frame charge) = some flying := by
  cases kind with
  | getData => simp [flightAction, Entry.flight, Entry.ends, Entry.asks, h rfl]
  | _ => rfl

theorem flight_cancel (flying : Bool) (timer : TimerId) :
    flightAction id flying (.cancelTimer timer) =
      some (flying && decide (timer ≠ .inventoryTimeout id)) := by
  by_cases he : timer = .inventoryTimeout id <;>
    simp [flightAction, Entry.flight, Entry.ends, Entry.asks, he]

theorem requestBlocks_flight (ht : Strict s ids) (peer : NodeId) (full : Bool) :
    Follows (flightAction id) (Flying id) s
      (s.requestBlocks peer ids full) := by
  intro flying hflying
  by_cases hne : ids = []
  · subst hne
    exact ⟨flying, rfl, hflying⟩
  obtain ⟨headersFrame, headersCharge, dataFrame, dataCharge, hheaders, hdata, hsnd⟩ :=
    requestBlocks_sent ht hne peer full
  have harmed := (requestBlocks_eq ht hne peer full).1
  -- Before the message that asks for the blocks the watch stays where it is.
  have hbefore : (ids.map (fun id => Action.setTimer (.inventoryTimeout id) s.config.invTimeout) ++
      (if full then [Action.send peer .getHeaders headersFrame headersCharge] else [])).foldlM
        (flightAction id) flying = some flying := by
    refine foldlM_quiet fun a ha => ?_
    rcases List.mem_append.mp ha with ha | ha
    · obtain ⟨i, -, rfl⟩ := List.mem_map.mp ha
      rfl
    · split at ha
      · rw [List.mem_singleton.mp ha]
        rfl
      · exact absurd ha List.not_mem_nil
  rw [hsnd, ← List.append_assoc]
  by_cases hid : id ∈ ids
  · have hnot : flying = false := Bool.eq_false_iff.mpr (mt hflying.mp (ht.not_armed hid))
    refine ⟨true, ?_, iff_of_true rfl ?_⟩
    · rw [List.foldlM_append, hbefore, hnot]
      simp [flightAction, Entry.flight, Entry.ends, Entry.asks, hdata, hid]
    · rw [harmed]
      exact List.mem_append_right _ (List.mem_map_of_mem hid)
  · refine ⟨flying, ?_, hflying.trans ?_⟩
    · rw [List.foldlM_append, hbefore]
      simp [flight_send, hdata, hid]
    · rw [harmed]
      simp [hid]

theorem flight_watches (id : BlockId) :
    Watches (flightAction id) (Flying id) where
  stable h harmed _ := h.trans (by rw [harmed])
  informs h flying := by
    obtain ⟨receiver, kind, frame, charge, rfl⟩ := h.eq_send
    exact flight_send (fun hk => absurd hk h.2) flying
  sets {s t flying timer} after h hother _ harmed _ := by
    refine ⟨flying, rfl, h.trans ?_⟩
    rw [harmed]
    simp [(hother id).symm]
  ends {s t flying i} h hdistinct hmem harmed _ _ := by
    by_cases hi : i = id
    · subst hi
      refine ⟨false, by simp [flight_cancel], ?_⟩
      rw [Flying, harmed]
      exact iff_of_false nofun hdistinct.not_mem_erase
    · refine ⟨flying, by simp [flight_cancel, hi], h.trans ?_⟩
      have hne : TimerId.inventoryTimeout id ≠ .inventoryTimeout i :=
        fun h => hi (TimerId.inventoryTimeout.inj h).symm
      rw [harmed, List.mem_erase_of_ne hne]
  requests ht _ peer full := requestBlocks_flight ht peer full

theorem cancels_flight (timers : List TimerId) (flying : Bool) :
    (timers.map Action.cancelTimer).foldlM (flightAction id) flying =
      some (flying && decide (.inventoryTimeout id ∉ timers)) := by
  induction timers generalizing flying with
  | nil => simp
  | cons timer timers ih =>
    rw [List.map_cons, List.foldlM_cons, flight_cancel]
    refine (ih _).trans ?_
    by_cases he : timer = .inventoryTimeout id
    · simp [he]
    · simp [he, Ne.symm he]

/-- A timer that fires ends its request. -/
theorem met_flying (ht : Strict s []) (h : s.running = false → Resting s) {flying : Bool}
    (hflying : Flying id s flying) (e : Event) :
    Flying id (s.met e) (if (Entry.event s e).ends id then false else flying) := by
  cases e with
  | timerFired timer =>
    by_cases he : timer = .inventoryTimeout id
    · subst he
      by_cases hmem : .inventoryTimeout id ∈ s.armed
      · have hends : (Entry.event s (.timerFired (.inventoryTimeout id))).ends id = true := by
          simp [Entry.ends, running_of_armed h hmem, hmem]
        rw [if_pos hends]
        exact iff_of_false nofun ht.distinct.not_mem_erase
      · have hends : (Entry.event s (.timerFired (.inventoryTimeout id))).ends id = false := by
          simp [Entry.ends, hmem]
        rw [hends, if_neg Bool.false_ne_true]
        exact hflying.trans (by rw [met, disarm, List.erase_of_not_mem hmem])
    · have hends : (Entry.event s (.timerFired timer)).ends id = false := by
        simp [Entry.ends, he]
      rw [hends, if_neg Bool.false_ne_true]
      exact hflying.trans (List.mem_erase_of_ne (Ne.symm he)).symm
  | _ => exact hflying

theorem onStop_flying {flying : Bool} (h : Flying id s flying) :
    ∃ c, s.onStop.2.foldlM (flightAction id) flying = some c ∧ Flying id s.onStop.1 c := by
  cases hr : s.running with
  | false =>
    rw [onStop_idle hr]
    exact ⟨flying, rfl, h⟩
  | true =>
    refine ⟨false, ?_, ?_⟩
    · rw [onStop_snd hr, cancels_flight]
      have hmem : .inventoryTimeout id ∈ s.armedTimers ↔ .inventoryTimeout id ∈ s.armed :=
        (List.mergeSort_perm ..).mem_iff
      cases flying with
      | false => rfl
      | true => simp [hmem.mpr (h.mp rfl)]
    · rw [Flying, (onStop_resting hr).armed]
      exact iff_of_false nofun List.not_mem_nil

/-- While a request is in flight no other one goes out, and its timer runs. -/
theorem Logged.flying (h : Logged setup config s log) (id : BlockId) :
    ∃ c, log.foldlM (fun flying x => Entry.flight id x flying) false = some c ∧ Flying id s c := by
  have hentry : Entry.watched (flightAction id)
      (fun flying found e => if (Entry.event found e).ends id then false else flying) =
        fun flying x => Entry.flight id x flying := by
    funext flying x
    cases x with
    | event found e =>
      by_cases hends : (Entry.event found e).ends id = true <;>
        simp [Entry.watched, Entry.flight, Entry.asks, hends]
    | action a => rfl
  rw [← hentry]
  refine h.watched _ _ (Flying id) (iff_of_false nofun List.not_mem_nil) ?_
  intro s hs now e flying hflying
  by_cases he : e = .stop
  · subst he
    exact onStop_flying (s := s.setTime now) hflying
  · exact hs.follows (flight_watches id) now he _
      (met_flying (hs.strict.of_core (setTime_core s now)) (fun hr => (hs.resting hr).setTime now)
        hflying e)

theorem count_of_flight {flying c : Bool}
    (h : log.foldlM (fun flying x => Entry.flight id x flying) flying = some c) :
    log.foldl (fun n x => if x.ends id then 0 else if x.asks id then n + 1 else n) flying.toNat =
      c.toNat := by
  induction log generalizing flying with
  | nil =>
    rw [Option.some.inj h]
    rfl
  | cons x log ih =>
    rw [List.foldlM_cons, Option.bind_eq_bind, Option.bind_eq_some_iff] at h
    obtain ⟨b, hb, h⟩ := h
    rw [List.foldl_cons, ← ih h]
    congr 1
    by_cases hends : x.ends id = true
    · rw [Entry.flight_ends hends] at hb
      rw [if_pos hends, ← Option.some.inj hb]
      rfl
    by_cases hasks : x.asks id = true
    · rw [Entry.flight_asks hasks] at hb
      rw [if_neg hends, if_pos hasks]
      cases flying with
      | true => exact nomatch hb
      | false => rw [← Option.some.inj hb]; rfl
    · rw [Entry.flight_else hends hasks] at hb
      rw [if_neg hends, if_neg hasks, ← Option.some.inj hb]

/-- Between two requests for a block the first has ended. -/
theorem Logged.ends_between {first between last : List Entry} {x y : Entry}
    (h : Logged setup config s (first ++ x :: (between ++ y :: last))) (hx : x.asks id = true)
    (hy : y.asks id = true) : ∃ z ∈ between, z.ends id = true := by
  obtain ⟨c, hc, -⟩ := h.flying id
  refine exists_release (P := (· = true)) (R := fun z => z.ends id = true) hc ?_ ?_ ?_
  · intro flying flying' hb
    rw [Entry.flight_asks hx] at hb
    cases flying with
    | true => exact nomatch hb
    | false => exact (Option.some.inj hb).symm
  · rintro _ rfl
    exact Entry.flight_asks hy true
  · rintro z hends _ flying' rfl hb
    by_cases hasks : z.asks id = true
    · rw [Entry.flight_asks hasks] at hb
      exact nomatch hb
    · rw [Entry.flight_else hends hasks] at hb
      exact (Option.some.inj hb).symm

/-- A block that is tracked has one request in flight, and any other has none. -/
theorem Logged.inFlight_eq (h : Logged setup config s log) (id : BlockId) :
    inFlight id log = if s.inventory.isTracked id then 1 else 0 := by
  obtain ⟨c, hc, hflying⟩ := h.flying id
  have htracked : c = s.inventory.isTracked id :=
    Bool.eq_iff_iff.mpr (hflying.trans (h.reachable.agreeing.requests id))
  rw [inFlight, ← htracked]
  exact (count_of_flight hc).trans (by cases c <;> rfl)

/-- Whatever comes, a request names each of its blocks once, none that is known,
and leaves each tracked with its timer running. Between two requests for a block
the time of the first has run out or its timer was cancelled, and timers are
cancelled only when their blocks come or at a stop. So one request is in flight
for each block that is tracked, and none for any other. -/
theorem logged_requests (h : Logged setup config s log) :
    (∀ now e, s.answer now e = ((s.setTime now).steps e).flatMap (·.2.2) ∧
      ∀ x ∈ (s.setTime now).steps e, Asks x.1 x.2) ∧
      (∀ id first x between y last, log = first ++ x :: (between ++ y :: last) →
        x.asks id = true → y.asks id = true → ∃ z ∈ between, z.ends id = true) ∧
      (∀ now e timer, .cancelTimer timer ∈ s.answer now e →
        e = .stop ∨ ∃ id, timer = .inventoryTimeout id ∧ (s.after now e).isKnown id = true) ∧
      ∀ id, inFlight id log = if s.inventory.isTracked id then 1 else 0 := by
  refine ⟨fun now e => ⟨handle_steps .., steps_asks ?_ e⟩, ?_,
    fun now e timer hmem => h.reachable.cancelled now hmem, h.inFlight_eq⟩
  · exact h.reachable.strict.of_core (setTime_core s now)
  · rintro id first x between y last rfl hx hy
    exact h.ends_between hx hy

/-- Two peers announce a block; the second is asked when the time of the first
has run out. -/
theorem logged_requests_retried :
    let frame := "\x7b\"type\":\"blocks\",\"message\":0,\"inv\":[\"5/2\"]\x7d#".toUTF8.toList
    let setup : Setup := ⟨1, .committer, [2, 3], .standard, .usual, .empty⟩
    let heard := (((fresh setup .usual).after 0.0 .start).after 1.0 (.bytesReceived 2 frame)).after
      2.0 (.bytesReceived 3 frame)
    ∃ log, Logged setup .usual
        (heard.after 122.0 (.timerFired (.inventoryTimeout ⟨5, 2⟩))) log ∧
      log.countP (·.asks ⟨5, 2⟩) = 2 ∧ inFlight ⟨5, 2⟩ log = 1 := by
  intro frame setup heard
  have h : Logged setup .usual (heard.after 122.0 (.timerFired (.inventoryTimeout ⟨5, 2⟩))) _ :=
    .step (.step (.step (.step .fresh 0.0 .start) 1.0 (.bytesReceived 2 frame)) 2.0
      (.bytesReceived 3 frame)) 122.0 (.timerFired (.inventoryTimeout ⟨5, 2⟩))
  exact ⟨_, h, by decide +kernel, ((logged_requests h).2.2.2 ⟨5, 2⟩).trans (by decide +kernel)⟩

end Session

end BlockGossip
