import BlockGossip.Proofs.Session.Effects
import BlockGossip.Proofs.Wire.Frames
import BlockGossip.Proofs.Wire.Streams

/-!
# Streams cut and polluted

How a peer's bytes are cut into events does not matter to a session, nor what
stands between its frames that no handler takes. No handler reads the partial
frames that the session keeps, so a step may be taken before or after more
bytes are appended; and an envelope that is passed over leaves state and
actions as they are.
-/

namespace BlockGossip

theorem foldActions_append {σ α : Type} (step : σ → α → Outcome σ) (s : σ) (xs ys : List α) :
    foldActions step s (xs ++ ys) =
      ((foldActions step (foldActions step s xs).1 ys).1,
        (foldActions step s xs).2 ++ (foldActions step (foldActions step s xs).1 ys).2) := by
  induction xs generalizing s with
  | nil => rfl
  | cons x xs ih =>
    rw [List.cons_append, foldActions_cons, ih, foldActions_cons, List.append_assoc]

/-- Items that change nothing may be left out. -/
theorem foldActions_filter {σ α : Type} {step : σ → α → Outcome σ} {keep : α → Bool}
    (hskip : ∀ s x, keep x = false → step s x = (s, [])) (s : σ) (xs : List α) :
    foldActions step s (xs.filter keep) = foldActions step s xs := by
  induction xs generalizing s with
  | nil => rfl
  | cons x xs ih =>
    cases hx : keep x with
    | true => rw [List.filter_cons_of_pos hx, foldActions_cons, foldActions_cons, ih]
    | false =>
      rw [List.filter_cons_of_neg (by simp [hx]), foldActions_cons, hskip s x hx, ih]
      rfl

theorem Table.insert_insert {κ α : Type} [DecidableEq κ] (t : Table κ α) (k : κ) (a b : α) :
    (t.insert k a).insert k b = t.insert k b := by
  have hput (entries : List (κ × α)) : put k b (put k a entries) = put k b entries := by
    induction entries with
    | nil => simp [put]
    | cons entry rest ih =>
      unfold put
      by_cases hk : entry.1 = k
      · simp [hk, put]
      · simp [hk, put, ih]
  exact congrArg Table.mk (hput t.entries)

namespace Session

def withFrames (s : Session) (frames : FrameDecoder) : Session := { s with frames }

/-- What a step leads to, with other partial frames. -/
def reframe (frames : FrameDecoder) (o : Outcome Session) : Outcome Session :=
  (o.1.withFrames frames, o.2)

variable (s : Session) (frames : FrameDecoder) (sender : NodeId) (e : Envelope)

@[simp] theorem withFrames_setup : (s.withFrames frames).setup = s.setup := rfl

@[simp] theorem withFrames_inventory : (s.withFrames frames).inventory = s.inventory := rfl

@[simp] theorem isKnown_withFrames (id : BlockId) :
    (s.withFrames frames).isKnown id = s.isKnown id := rfl

@[simp] theorem charge_withFrames (kind : MessageKind) (items : Nat) (blockBytes : UInt64) :
    (s.withFrames frames).charge kind items blockBytes = s.charge kind items blockBytes := rfl

@[simp] theorem countReceived_withFrames (kind : MessageKind) (bytes : UInt64) :
    (s.withFrames frames).countReceived kind bytes =
      (s.countReceived kind bytes).withFrames frames := rfl

@[simp] theorem armTimer_withFrames (timer : TimerId) (after : Duration) :
    (s.withFrames frames).armTimer timer after = reframe frames (s.armTimer timer after) := by
  unfold armTimer withFrames
  dsimp only
  split <;> rfl

@[simp] theorem cancelTimer_withFrames (timer : TimerId) :
    (s.withFrames frames).cancelTimer timer = reframe frames (s.cancelTimer timer) := by
  unfold cancelTimer withFrames
  dsimp only
  split <;> rfl

-- ---------------------------------------------------------------------------
-- Handlers do not read the partial frames
-- ---------------------------------------------------------------------------

theorem foldActions_withFrames {α : Type} {step : Session → α → Outcome Session}
    (hstep : ∀ s x, step (s.withFrames frames) x = reframe frames (step s x)) (xs : List α) :
    foldActions step (s.withFrames frames) xs = reframe frames (foldActions step s xs) := by
  induction xs generalizing s with
  | nil => rfl
  | cons x xs ih =>
    rw [foldActions_cons, hstep, reframe, ih]
    rfl

theorem startRequest_withFrames (id : BlockId) :
    startRequest sender (s.withFrames frames) id = reframe frames (startRequest sender s id) :=
  armTimer_withFrames { s with inventory := s.inventory.markRequested id sender } frames ..

theorem requestBlocks_withFrames (ids : List BlockId) (full : Bool) :
    (s.withFrames frames).requestBlocks sender ids full =
      reframe frames (s.requestBlocks sender ids full) := by
  simp only [requestBlocks,
    foldActions_withFrames s frames fun s id => startRequest_withFrames s frames sender id]
  cases ids.isEmpty with
  | true => rfl
  | false => cases full <;> rfl

theorem announced_withFrames (id : BlockId) :
    (s.withFrames frames).announced sender id =
      ((s.announced sender id).1, (s.announced sender id).2.withFrames frames) := by
  simp only [announced, withFrames_inventory]
  split <;> rfl

theorem announceAll_withFrames (ids : List BlockId) :
    announceAll sender (s.withFrames frames) ids =
      ((announceAll sender s ids).1.withFrames frames, (announceAll sender s ids).2) := by
  induction ids generalizing s with
  | nil => rfl
  | cons id ids ih =>
    rw [announceAll_cons, announceAll_cons, announced_withFrames, ih, ih, isKnown_withFrames]
    split <;> rfl

theorem onInv_withFrames :
    (s.withFrames frames).onInv sender e = reframe frames (s.onInv sender e) := by
  simp only [onInv, withFrames_setup, charge_withFrames, countReceived_withFrames,
    announceAll_withFrames, requestBlocks_withFrames]
  split <;> rfl

theorem noteHeader_withFrames (header : Block) :
    noteHeader sender (s.withFrames frames) header =
      ((noteHeader sender s header).1, (noteHeader sender s header).2.withFrames frames) := by
  have hnoting : (s.withFrames frames).notingHeader header =
      (s.notingHeader header).withFrames frames := rfl
  simp only [noteHeader_eq, withFrames_setup, hnoting, announced_withFrames]
  split <;> rfl

theorem noteHeaders_withFrames (headers : List Block) :
    noteHeaders sender (s.withFrames frames) headers =
      ((noteHeaders sender s headers).1.withFrames frames, (noteHeaders sender s headers).2) := by
  induction headers generalizing s with
  | nil => rfl
  | cons header rest ih =>
    rw [noteHeaders_cons, noteHeaders_cons, noteHeader_withFrames, ih, ih, isKnown_withFrames]
    split <;> rfl

theorem onHeaders_withFrames :
    (s.withFrames frames).onHeaders sender e = reframe frames (s.onHeaders sender e) := by
  simp only [onHeaders, withFrames_setup, charge_withFrames, countReceived_withFrames,
    noteHeaders_withFrames, requestBlocks_withFrames]
  split <;> rfl

theorem onGetHeaders_withFrames :
    (s.withFrames frames).onGetHeaders sender e = reframe frames (s.onGetHeaders sender e) := by
  unfold onGetHeaders withFrames
  dsimp only [countReceived]
  split <;> rfl

theorem onGetData_withFrames :
    (s.withFrames frames).onGetData sender e = reframe frames (s.onGetData sender e) := by
  unfold onGetData withFrames
  dsimp only [countReceived]
  split <;> rfl

/-- A request for a block ends, if there is one. -/
def endRequest (s : Session) (id : BlockId) : Outcome Session :=
  if (s.inventory.resolve id).1.isSome then
    { s with inventory := (s.inventory.resolve id).2 }.cancelTimer (.inventoryTimeout id)
  else (s, [])

/-- A received block waits for its validation. -/
def awaitValidation (s : Session) (sender : NodeId) (record : Block) : Outcome Session :=
  { s with staging := (s.staging.stage (record.received sender s.now)).2 }.armTimer
    (.validation record.id) s.config.validationDelay

theorem receiveBlock_steps (record : Block) :
    receiveBlock sender s record =
      if s.isKnown record.id then (s, [])
      else
        (((s.endRequest record.id).1.awaitValidation sender record).1,
          (s.endRequest record.id).2 ++
            ((s.endRequest record.id).1.awaitValidation sender record).2) := rfl

theorem endRequest_withFrames (id : BlockId) :
    (s.withFrames frames).endRequest id = reframe frames (s.endRequest id) := by
  have hcancel := cancelTimer_withFrames { s with inventory := (s.inventory.resolve id).2 } frames
    (.inventoryTimeout id)
  unfold endRequest
  rw [withFrames_inventory]
  split
  · exact hcancel
  · rfl

theorem awaitValidation_withFrames (record : Block) :
    (s.withFrames frames).awaitValidation sender record =
      reframe frames (s.awaitValidation sender record) :=
  armTimer_withFrames { s with staging := (s.staging.stage (record.received sender s.now)).2 }
    frames ..

theorem receiveBlock_withFrames (record : Block) :
    receiveBlock sender (s.withFrames frames) record =
      reframe frames (receiveBlock sender s record) := by
  rw [receiveBlock_steps, receiveBlock_steps, isKnown_withFrames, endRequest_withFrames, reframe,
    awaitValidation_withFrames]
  split <;> rfl

theorem onBlock_withFrames :
    (s.withFrames frames).onBlock sender e = reframe frames (s.onBlock sender e) := by
  simp only [onBlock, withFrames_setup, charge_withFrames, countReceived_withFrames,
    foldActions_withFrames _ frames fun s r => receiveBlock_withFrames s frames sender r]
  split <;> rfl

theorem onRequestTrans_withFrames :
    (s.withFrames frames).onRequestTrans sender e = reframe frames (s.onRequestTrans sender e) := by
  unfold onRequestTrans withFrames
  dsimp only [countReceived]
  split
  · rfl
  · split <;> split <;> rfl

theorem onEnvelope_withFrames :
    onEnvelope sender (s.withFrames frames) e = reframe frames (onEnvelope sender s e) := by
  unfold onEnvelope
  split
  · rfl
  · exact onInv_withFrames ..
  · exact onGetHeaders_withFrames ..
  · exact onHeaders_withFrames ..
  · exact onGetData_withFrames ..
  · exact onBlock_withFrames ..
  · exact onRequestTrans_withFrames ..
  all_goals rfl

-- ---------------------------------------------------------------------------
-- Bytes cut anywhere
-- ---------------------------------------------------------------------------

/-- The decoder with what is left of a peer's stream once bytes have come. -/
def leaving (s : Session) (sender : NodeId) (bytes : Bytes) : FrameDecoder :=
  ⟨s.frames.buffers.insert sender (pullAll (s.frames.buffer sender ++ bytes)).2⟩

theorem onBytes_eq (bytes : Bytes) :
    s.onBytes sender bytes =
      foldActions (onEnvelope sender) (s.withFrames (s.leaving sender bytes))
        (pullAll (s.frames.buffer sender ++ bytes)).1 := rfl

/-- Partial frames change by the bytes of a peer, and a stop drops them. -/
theorem handle_frames (s : Session) (e : Event) :
    (s.handle e).1.frames =
      if s.running then
        match e with
        | .bytesReceived sender bytes => s.leaving sender bytes
        | .stop => .empty
        | _ => s.frames
      else s.frames := by
  cases hr : s.running with
  | false =>
    cases e with
    | start => exact congrArg Core.frames (onStart_core s)
    | stop => rw [handle, onStop_idle hr]; rfl
    | bytesReceived => rw [handle, hr]; rfl
    | timerFired => rw [handle, hr]; rfl
    | blockMinted => rw [handle, hr]; rfl
  | true =>
    cases e with
    | start => exact congrArg Core.frames (onStart_core s)
    | stop => exact congrArg Core.frames (onStop_core hr)
    | bytesReceived sender bytes =>
      rw [handle, if_pos hr]
      exact (onBytes_aside s sender bytes).frames
    | blockMinted b =>
      rw [handle, if_pos hr]
      exact congrArg Core.frames (acceptBlock_core s (b.minted s.now))
    | timerFired timer =>
      show _ = s.frames
      by_cases ht : timer ∈ s.armed
      · rw [handle_timerFired hr ht]
        cases timer with
        | inventoryTimeout id =>
          exact ((disarm_aside ..).trans (onInventoryTimeout_asking ..).aside).frames
        | validation id =>
          have hcore := onValidation_core (s.disarm (.validation id)) id
          split at hcore
          · exact congrArg Core.frames hcore
          · exact congrArg Core.frames hcore
        | nextTransaction =>
          exact ((disarm_aside ..).trans (onNextTransaction_asking _).aside).frames
      · rw [handle_timerFired_idle fun h => ht h.2]

theorem onBytes_append (x y : Bytes) :
    s.onBytes sender (x ++ y) =
      (((s.onBytes sender x).1.onBytes sender y).1,
        (s.onBytes sender x).2 ++ ((s.onBytes sender x).1.onBytes sender y).2) := by
  have hleft : (s.onBytes sender x).1.frames = s.leaving sender x :=
    (onBytes_aside s sender x).frames
  have hbuffer : (s.onBytes sender x).1.frames.buffer sender =
      (pullAll (s.frames.buffer sender ++ x)).2 := by
    rw [hleft]
    exact (FrameDecoder.buffer_insert ..).trans (if_pos rfl)
  have hpull := pullAll_append (s.frames.buffer sender ++ x) y
  rw [List.append_assoc] at hpull
  have hleaving : (s.onBytes sender x).1.leaving sender y = s.leaving sender (x ++ y) := by
    unfold leaving
    rw [hbuffer, hleft, leaving, Table.insert_insert, hpull]
  -- The first part of the envelopes is handled with the last partial frames in place.
  have hfirst : foldActions (onEnvelope sender) (s.withFrames (s.leaving sender (x ++ y)))
        (pullAll (s.frames.buffer sender ++ x)).1 =
      reframe (s.leaving sender (x ++ y)) (s.onBytes sender x) :=
    foldActions_withFrames (s.withFrames (s.leaving sender x)) (s.leaving sender (x ++ y))
      (fun s e => onEnvelope_withFrames s _ sender e) _
  rw [onBytes_eq s sender (x ++ y), hpull, foldActions_append, hfirst,
    onBytes_eq (s.onBytes sender x).1 sender y, hbuffer, hleaving]
  rfl

/-- The kinds that no handler takes; a number of no kind is none either. -/
def unhandled : List (Option MessageKind) :=
  [none, some .noMessage, some .msgTrans, some .resultTrans]

/-- The frame holds no message that a handler takes: it does not decode, or it
is of an unknown kind or of one that nobody handles. -/
def Ignored (frame : Bytes) : Prop :=
  ∃ body, frame = body ++ [Envelope.delimiter] ∧ Envelope.delimiter ∉ body ∧
    ∀ e, Envelope.decode? body = some e → e.kind? ∈ unhandled

theorem onEnvelope_unhandled (h : e.kind? ∈ unhandled) : onEnvelope sender s e = (s, []) := by
  unfold onEnvelope
  split <;> rename_i hk <;> rw [hk] at h
  all_goals first | rfl | exact absurd h (by decide)

/-- A handler takes the message. -/
def handled (e : Envelope) : Bool := e.kind? ∉ unhandled

theorem foldActions_handled (es : List Envelope) :
    foldActions (onEnvelope sender) s (es.filter handled) =
      foldActions (onEnvelope sender) s es := by
  refine foldActions_filter (fun s e he => onEnvelope_unhandled s sender e ?_) s es
  exact not_not.mp (of_decide_eq_false he)

theorem streamEnvelopes_ignored {frame : Bytes} (h : Ignored frame) :
    Closed frame ∧ (streamEnvelopes frame).filter handled = [] := by
  obtain ⟨body, rfl, hbody, hnone⟩ := h
  refine ⟨.inr ⟨body, rfl⟩, ?_⟩
  rw [streamEnvelopes_cut, List.splitOn_eq_singleton hbody, List.filter_eq_nil_iff]
  intro e he
  have hdecoded : Envelope.decode? body = some e := by simpa [streamEnvelopes] using he
  rw [handled, decide_eq_true_iff, not_not]
  exact hnone e hdecoded

theorem streamEnvelopes_noise {noise : List Bytes} (h : ∀ frame ∈ noise, Ignored frame) :
    Closed noise.flatten ∧ (streamEnvelopes noise.flatten).filter handled = [] := by
  induction noise with
  | nil => exact ⟨.inl rfl, rfl⟩
  | cons frame noise ih =>
    obtain ⟨hclosed, hnone⟩ := streamEnvelopes_ignored (h frame (List.mem_cons_self ..))
    obtain ⟨hrest, hnorest⟩ := ih fun f hf => h f (List.mem_cons_of_mem _ hf)
    rw [List.flatten_cons, hclosed.streamEnvelopes_append, List.filter_append, hnone, hnorest]
    exact ⟨hclosed.append hrest, rfl⟩

theorem onBytes_insert {x : Bytes} (hx : Closed (s.frames.buffer sender ++ x)) {noise : List Bytes}
    (hnoise : ∀ frame ∈ noise, Ignored frame) (y : Bytes) :
    s.onBytes sender (x ++ noise.flatten ++ y) = s.onBytes sender (x ++ y) := by
  obtain ⟨hclosed, hnone⟩ := streamEnvelopes_noise hnoise
  have hclean := hx.pullAll_append y
  have hpolluted := (hx.append hclosed).pullAll_append y
  rw [hx.streamEnvelopes_append] at hpolluted
  simp only [List.append_assoc] at hclean hpolluted ⊢
  have hsame : s.leaving sender (x ++ (noise.flatten ++ y)) = s.leaving sender (x ++ y) := by
    unfold leaving
    rw [hclean, hpolluted]
  rw [onBytes_eq, onBytes_eq, hsame, hclean, hpolluted, ← foldActions_handled,
    ← foldActions_handled _ sender (_ ++ _)]
  simp only [List.filter_append, hnone, List.nil_append]

/-- A session depends on the sequence of the messages that are handled, not on
how their bytes arrive. Bytes may come in two parts: the session ends up the
same in every field, and asks for the same actions in the same order. Frames
that do not decode, or that nobody handles, may stand between two frames of a
peer's stream: state and actions are as without them. -/
theorem handle_stream (s : Session) (peer : NodeId) :
    (∀ x y,
      let (next, first) := s.handle (.bytesReceived peer x)
      let (last, second) := next.handle (.bytesReceived peer y)
      s.handle (.bytesReceived peer (x ++ y)) = (last, first ++ second)) ∧
      ∀ x (noise : List Bytes) y, Closed (s.frames.buffer peer ++ x) →
        (∀ frame ∈ noise, Ignored frame) →
        s.handle (.bytesReceived peer (x ++ noise.flatten ++ y)) =
          s.handle (.bytesReceived peer (x ++ y)) := by
  cases hr : s.running with
  | false =>
    have hidle (bytes : Bytes) : s.handle (.bytesReceived peer bytes) = (s, []) :=
      if_neg (Bool.eq_false_iff.mp hr)
    refine ⟨fun x y => ?_, fun x noise y _ _ => by rw [hidle, hidle]⟩
    rw [hidle x]
    dsimp only
    rw [hidle, hidle]
    rfl
  | true =>
    have hhandle (bytes : Bytes) : s.handle (.bytesReceived peer bytes) = s.onBytes peer bytes :=
      if_pos hr
    refine ⟨fun x y => ?_, fun x noise y hx hnoise => ?_⟩
    · have hnext : (s.onBytes peer x).1.handle (.bytesReceived peer y) =
          (s.onBytes peer x).1.onBytes peer y :=
        if_pos ((onBytes_aside s peer x).running.trans hr)
      rw [hhandle x]
      show s.handle (.bytesReceived peer (x ++ y)) =
        (((s.onBytes peer x).1.handle (.bytesReceived peer y)).1,
          (s.onBytes peer x).2 ++ ((s.onBytes peer x).1.handle (.bytesReceived peer y)).2)
      rw [hhandle, onBytes_append, hnext]
    · rw [hhandle, hhandle]
      exact onBytes_insert s peer hx hnoise y

/-- Behind an announcement, a frame that does not decode and one of an unknown
kind change nothing of what a part of a frame leads to. -/
theorem handle_stream_polluted :
    let setup : Setup := ⟨1, .committer, [2], .standard, .usual, .empty⟩
    let s := ((Session.fresh setup .usual).handle .start).1
    let announcement := (Envelope.announce [⟨3, 7⟩]).frame
    let unknown := { Envelope.announce [] with message := 77 }
    let noise := [[0x7b, Envelope.delimiter], unknown.frame]
    s.running = true ∧
      s.handle (.bytesReceived 2 (announcement ++ noise.flatten ++ [0x7b])) =
        s.handle (.bytesReceived 2 (announcement ++ [0x7b])) := by
  intro setup s announcement unknown noise
  have hopened : Envelope.decode? [0x7b] = none := by decide +kernel
  have hunknown : ∀ e ∈ Envelope.decode? (unknown.toJson.render), e.kind? = none := by
    decide +kernel
  refine ⟨rfl, (s.handle_stream 2).2 announcement noise [0x7b] (.inr ⟨_, rfl⟩) ?_⟩
  intro frame hframe
  rcases List.mem_cons.mp hframe with rfl | hframe
  · exact ⟨[0x7b], rfl, by decide, fun e he => nomatch hopened.symm.trans he⟩
  · obtain rfl := List.mem_singleton.mp hframe
    refine ⟨unknown.toJson.render, rfl, by decide +kernel, fun e he => ?_⟩
    rw [hunknown e he]
    decide

end Session

end BlockGossip
