import BlockGossip.Proofs.Session.Cutting
import BlockGossip.Proofs.Session.Posts
import BlockGossip.Proofs.Session.Synchrony

/-!
# Charges at both ends

Since a session last started, its counters of what is sent hold what its
actions were charged. A frame that is delivered, whole or in pieces, is counted
by its receiver at what the action that sent it was charged.
-/

namespace BlockGossip

/-- The actions since a session last started; a start that finds it running is
none. -/
def Entry.since (actions : List Action) : Entry → List Action
  | .event found e => if found.restarts e then [] else actions
  | .action a => actions ++ [a]

def sinceStart (log : List Entry) : List Action := log.foldl Entry.since []

/-- What an action is charged, whatever it sends. -/
def Action.charged : Action → Nat
  | .send _ _ _ wireBytes => wireBytes.toNat
  | _ => 0

def charged (actions : List Action) : Nat := (actions.map Action.charged).sum

theorem charged_append (xs ys : List Action) : charged (xs ++ ys) = charged xs + charged ys := by
  simp [charged]

/-- What a receiver of a role counts an envelope at, on a counter. -/
def Envelope.chargeOn (c : Counter) (role : Role) (w : WireSizes) (e : Envelope) : Nat :=
  match e.kind? with
  | none => 0
  | some kind =>
    if Session.heeds role kind = true ∧ kind.counter? = some c then (e.charge w kind).toNat else 0

namespace Session

variable {setup : Setup} {config : SessionConfig} {s : Session} {log : List Entry}
  {sender : NodeId} {c : Counter}

-- ---------------------------------------------------------------------------
-- At the sender
-- ---------------------------------------------------------------------------

theorem sinceStart_step (log : List Entry) (found : Session) (e : Event) (actions : List Action) :
    sinceStart (log ++ .event found e :: actions.map .action) =
      (if found.restarts e then [] else sinceStart log) ++ actions := by
  have hactions (before : List Action) :
      (actions.map Entry.action).foldl Entry.since before = before ++ actions := by
    induction actions generalizing before with
    | nil => exact (List.append_nil _).symm
    | cons a actions ih => exact (ih _).trans (List.append_assoc ..)
  rw [sinceStart, List.foldl_append, List.foldl_cons, hactions]
  rfl

theorem statistics_counter (s : Session) : s.statistics.counter = s.counted.counter := rfl

/-- Counters of what is sent hold what was sent since the last start. -/
theorem Logged.sent (h : Logged setup config s log) (c : Counter) :
    (s.counted.counter c).sent = UInt64.ofNat (chargedOn c (sinceStart log)) := by
  induction h with
  | fresh => cases c <;> rfl
  | @step s log h now e ih =>
    rw [sinceStart_step, chargedOn_append, UInt64.ofNat_add]
    refine (handle_sent (s.setTime now) e c).trans ?_
    congr 1
    split
    · rfl
    · exact ih

/-- Every kind of message that a session sends has a counter. -/
theorem sends_counter (e : Event) : ∀ kind ∈ e.sends, kind.counter?.isSome = true := by
  cases e with
  | timerFired timer => cases timer <;> simp [Event.sends, MessageKind.counter?]
  | _ => simp [Event.sends, MessageKind.counter?]

/-- What is charged is charged on the counters. -/
theorem charged_eq {kinds : List MessageKind} {actions : List Action} (h : Sends kinds actions)
    (hkinds : ∀ kind ∈ kinds, kind.counter?.isSome = true) :
    charged actions =
      chargedOn .inv actions + chargedOn .getHeaders actions + chargedOn .headers actions +
        chargedOn .getData actions + chargedOn .block actions := by
  induction actions with
  | nil => rfl
  | cons a actions ih =>
    have hrest := ih fun b hb => h b (List.mem_cons_of_mem _ hb)
    have hfirst : a.charged = a.chargeOn .inv + a.chargeOn .getHeaders + a.chargeOn .headers +
        a.chargeOn .getData + a.chargeOn .block := by
      cases a with
      | send receiver kind frame wireBytes =>
        have hcounter := hkinds kind (h _ (List.mem_cons_self ..) kind rfl)
        cases kind <;> simp [Action.charged, Action.chargeOn, MessageKind.counter?] at hcounter ⊢
      | _ => rfl
    simp only [charged, chargedOn, List.map_cons, List.sum_cons] at hrest ⊢
    omega

theorem totalSent_eq (n : NodeStatistics) :
    n.totalSent = (n.counter .inv).sent + (n.counter .getHeaders).sent + (n.counter .headers).sent +
      (n.counter .getData).sent + (n.counter .block).sent := by
  show 0 + n.inv.sent + n.getHeaders.sent + n.headers.sent + n.getData.sent + n.block.sent = _
  rw [UInt64.zero_add]
  rfl

/-- An event adds to the total what its actions are charged. -/
theorem handle_totalSent (s : Session) (e : Event) :
    (s.handle e).1.statistics.totalSent =
      (if s.restarts e then 0 else s.statistics.totalSent) +
        UInt64.ofNat (charged (s.handle e).2) := by
  rw [totalSent_eq, totalSent_eq, statistics_counter, statistics_counter,
    charged_eq (handle_sends s e) (sends_counter e)]
  simp only [handle_sent, UInt64.ofNat_add]
  cases s.restarts e <;> grind

-- ---------------------------------------------------------------------------
-- At the receiver
-- ---------------------------------------------------------------------------

theorem counting_received (s : Session) (e : Envelope) (c : Counter) :
    ((s.counting e).counted.counter c).received =
      (s.counted.counter c).received + UInt64.ofNat (e.chargeOn c s.setup.role s.config.wire) := by
  unfold counting Envelope.chargeOn
  cases e.kind? with
  | none => exact (UInt64.add_zero _).symm
  | some kind =>
    dsimp only
    by_cases hheeds : heeds s.setup.role kind = true
    · rw [if_pos hheeds]
      dsimp only [countReceived]
      rw [MessageKind.counter_addTo]
      by_cases hcounter : kind.counter? = some c
      · rw [if_pos hcounter, if_pos ⟨hheeds, hcounter⟩, UInt64.ofNat_toNat]
        rfl
      · rw [if_neg hcounter, if_neg fun h => hcounter h.2]
        exact (UInt64.add_zero _).symm
    · rw [if_neg hheeds, if_neg fun h => hheeds h.1]
      exact (UInt64.add_zero _).symm

/-- One envelope after another is counted, at its charge. -/
theorem foldEnvelopes_received (sender : NodeId) (s : Session) (es : List Envelope) (c : Counter) :
    ((foldActions (onEnvelope sender) s es).1.counted.counter c).received =
      (s.counted.counter c).received +
        UInt64.ofNat (es.map (Envelope.chargeOn c s.setup.role s.config.wire)).sum := by
  induction es generalizing s with
  | nil => exact (UInt64.add_zero _).symm
  | cons e es ih =>
    have haside := onEnvelope_aside sender s e
    rw [foldActions_cons]
    dsimp only
    rw [ih, (onEnvelope_speaks sender s e).received, counting_received, haside.setup, haside.config,
      List.map_cons, List.sum_cons, UInt64.ofNat_add, UInt64.add_assoc]

/-- The session once the bytes of a peer have come, each piece at its time. -/
def fed (s : Session) (sender : NodeId) (pieces : List (Time × Bytes)) : Session :=
  s.afterAll (pieces.map fun piece => (piece.1, .bytesReceived sender piece.2))

/-- Counters of what is received grow by the envelopes that the bytes complete. -/
theorem fed_received (hr : s.running = true) (hopen : Envelope.delimiter ∉ s.frames.buffer sender)
    (pieces : List (Time × Bytes)) (c : Counter) :
    ((s.fed sender pieces).counted.counter c).received =
      (s.counted.counter c).received +
        UInt64.ofNat (((pullAll (s.frames.buffer sender ++ (pieces.map Prod.snd).flatten)).1.map
          (Envelope.chargeOn c s.setup.role s.config.wire)).sum) := by
  induction pieces generalizing s with
  | nil =>
    rw [List.map_nil, List.flatten_nil, List.append_nil, (Takes.refl _).pullAll hopen]
    exact (UInt64.add_zero _).symm
  | cons piece pieces ih =>
    obtain ⟨now, bytes⟩ := piece
    let e : Event := .bytesReceived sender bytes
    have hhandle : (s.setTime now).handle e = (s.setTime now).onBytes sender bytes := if_pos hr
    have hnext : (s.after now e) = ((s.setTime now).onBytes sender bytes).1 :=
      congrArg Prod.fst hhandle
    have haside := onBytes_aside (s.setTime now) sender bytes
    have hbuffer : (s.after now e).frames.buffer sender =
        (pullAll (s.frames.buffer sender ++ bytes)).2 := by
      rw [hnext, haside.frames]
      exact (FrameDecoder.buffer_insert ..).trans (if_pos rfl)
    have hrunning : (s.after now e).running = true := by rw [hnext, haside.running]; exact hr
    have hsetup : (s.after now e).setup = s.setup := by rw [hnext, haside.setup]; rfl
    have hconfig : (s.after now e).config = s.config := by rw [hnext, haside.config]; rfl
    have hfirst : ((s.after now e).counted.counter c).received = _ :=
      (congrArg (fun t : Session => (t.counted.counter c).received) hnext).trans
        (foldEnvelopes_received sender ((s.setTime now).withFrames
          ((s.setTime now).leaving sender bytes)) (pullAll (s.frames.buffer sender ++ bytes)).1 c)
    have hrest := ih hrunning (hbuffer ▸ (pullAll_takes _).2)
    rw [hsetup, hconfig, hbuffer, hfirst] at hrest
    have hpull := pullAll_append (s.frames.buffer sender ++ bytes) (pieces.map Prod.snd).flatten
    refine hrest.trans ?_
    rw [List.map_cons, List.flatten_cons, ← List.append_assoc, hpull, List.map_append,
      List.sum_append_nat, UInt64.ofNat_add, ← UInt64.add_assoc]
    rfl

theorem heeds_of_not_client {role : Role} (h : role ≠ .client) (m : Message) :
    heeds role m.kind = true := by
  cases m <;> cases role <;> first | rfl | exact absurd rfl h

/-- A message that is read is counted at the charge of its sender, however its
frame is cut. -/
theorem fed_message {m : Message} {e : Envelope} (hr : s.running = true)
    (hrole : s.setup.role ≠ .client) (hbuffer : s.frames.buffer sender = [])
    (he : m.envelope.reread? = some e) {pieces : List (Time × Bytes)}
    (hpieces : (pieces.map Prod.snd).flatten = m.envelope.frame) (c : Counter) :
    ((s.fed sender pieces).counted.counter c).received =
      (s.counted.counter c).received +
        if m.kind.counter? = some c then m.charge s.config.wire else 0 := by
  obtain ⟨hkind, hcharge⟩ := Message.charge_reread he s.config.wire
  have hpull : (pullAll m.envelope.frame).1 = [e] := by
    rw [Envelope.pullAll_encode m.encode_envelope, he]
    rfl
  rw [fed_received hr (hbuffer ▸ List.not_mem_nil), hbuffer, List.nil_append, hpieces, hpull,
    List.map_singleton, List.sum_singleton, Envelope.chargeOn, hkind]
  dsimp only
  rw [hcharge, heeds_of_not_client hrole m]
  by_cases hcounter : m.kind.counter? = some c
  · rw [if_pos hcounter, if_pos ⟨rfl, hcounter⟩, UInt64.ofNat_toNat]
  · rw [if_neg hcounter, if_neg fun h => hcounter h.2]
    rfl

/-- A frame raises one counter of what is received, by what it is charged, and
no other: whoever is delivered it, whole or in pieces, if only he runs, is no
client and charges messages alike. -/
def CountedAs (w : WireSizes) (c : Counter) (frame : Bytes) (wireBytes : UInt64) : Prop :=
  ∀ (t : Session) (sender : NodeId) (pieces : List (Time × Bytes)), t.running = true →
    t.setup.role ≠ .client → t.config.wire = w → t.frames.buffer sender = [] →
    (pieces.map Prod.snd).flatten = frame →
    ∀ other, ((t.fed sender pieces).statistics.counter other).received =
      (t.statistics.counter other).received + if other = c then wireBytes else 0

theorem exists_counter (m : Message) : ∃ c, m.kind.counter? = some c := by
  cases m <;> exact ⟨_, rfl⟩

/-- What a session sends is counted by its receivers as it is by the session. -/
theorem handle_countedAs (s : Session) (e : Event) {receiver : NodeId} {kind : MessageKind}
    {frame : Bytes} {wireBytes : UInt64}
    (hsend : .send receiver kind frame wireBytes ∈ (s.handle e).2)
    (hread : ∃ m : Envelope, m.encode = .ok frame ∧ m.Readable) :
    ∃ c, kind.counter? = some c ∧ CountedAs s.config.wire c frame wireBytes := by
  have hmem : Action.send receiver kind frame wireBytes ∈
      (s.posts e).flatMap (Post.actions s.config.wire) := by
    rw [← handle_posts]
    exact List.mem_filter.mpr ⟨hsend, rfl⟩
  obtain ⟨p, -, hmem⟩ := List.mem_flatMap.mp hmem
  obtain ⟨peer, -, heq⟩ := List.mem_map.mp hmem
  obtain ⟨rfl, rfl, rfl, rfl⟩ := Action.send.inj heq
  obtain ⟨m, hencode, hreadable⟩ := hread
  obtain ⟨read, hm⟩ := hreadable.exists_reread
  -- Two envelopes of one frame are read alike.
  have hp : p.message.envelope.reread? = some read := by
    have hsame := (Envelope.pullAll_encode hencode).symm.trans
      (Envelope.pullAll_encode p.message.encode_envelope)
    rw [hm] at hsame
    cases he : p.message.envelope.reread? with
    | none => rw [he] at hsame; exact nomatch hsame
    | some other => rw [he] at hsame; exact congrArg some (List.singleton_inj.mp hsame).symm
  obtain ⟨c, hc⟩ := exists_counter p.message
  refine ⟨c, hc, fun t sender pieces hr hrole hwire hbuffer hpieces other => ?_⟩
  refine (fed_message hr hrole hbuffer hp hpieces other).trans ?_
  rw [hc, hwire]
  simp only [Option.some.injEq, eq_comm]
  rfl

end Session

end BlockGossip
