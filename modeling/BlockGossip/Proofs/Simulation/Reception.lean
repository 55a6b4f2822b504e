import BlockGossip.Proofs.Session.Sends
import BlockGossip.Proofs.Simulation.Links

/-!
# Frames are handed over once, in order

A node that runs while bytes come takes the frames that were sent to it, one by
one and whole, in the order of sending. What its decoder holds for a sender and
what is still in the queue are the frames that were not handed over yet.
-/

namespace BlockGossip

-- ---------------------------------------------------------------------------
-- A part of a stream of frames
-- ---------------------------------------------------------------------------

theorem Whole.closed {frame : Bytes} (h : Whole frame) :
    Closed frame ∧ frame.count Envelope.delimiter = 1 := by
  obtain ⟨body, rfl, hbody⟩ := h
  refine ⟨.inr ⟨body, rfl⟩, ?_⟩
  rw [List.count_append, List.count_eq_zero_of_not_mem hbody]
  rfl

/-- Of a stream of whole frames, those are taken whose delimiters have come. -/
theorem pullAll_frames {frames : List Bytes} (hwhole : ∀ frame ∈ frames, Whole frame)
    {arrived waiting : Bytes} (h : frames.flatten = arrived ++ waiting) :
    (pullAll arrived).1 =
        (frames.take (arrived.count Envelope.delimiter)).flatMap (fun frame => (pullAll frame).1) ∧
      (pullAll arrived).2 ++ waiting =
        (frames.drop (arrived.count Envelope.delimiter)).flatten := by
  induction frames generalizing arrived with
  | nil =>
    obtain ⟨rfl, rfl⟩ := List.append_eq_nil_iff.mp h.symm
    rw [pullAll_nil]
    exact ⟨rfl, rfl⟩
  | cons frame frames ih =>
    have hframe := hwhole frame (List.mem_cons_self ..)
    obtain ⟨hclosed, hcount⟩ := hframe.closed
    -- The bytes that have come reach beyond the first frame, or not to its end.
    have hbeyond {more : Bytes} (harrived : arrived = frame ++ more)
        (hmore : frames.flatten = more ++ waiting) :
        (pullAll arrived).1 = ((frame :: frames).take (arrived.count Envelope.delimiter)).flatMap
            (fun frame => (pullAll frame).1) ∧
          (pullAll arrived).2 ++ waiting =
            ((frame :: frames).drop (arrived.count Envelope.delimiter)).flatten := by
      obtain ⟨htaken, hleft⟩ := ih (fun f hf => hwhole f (List.mem_cons_of_mem _ hf)) hmore
      have hfirst : (pullAll frame).1 = streamEnvelopes frame := by
        have := hclosed.pullAll_append []
        rw [List.append_nil, pullAll_nil] at this
        rw [this, List.append_nil]
      rw [harrived, List.count_append, hcount, Nat.add_comm, hclosed.pullAll_append,
        List.take_succ_cons, List.drop_succ_cons, List.flatMap_cons, ← htaken, hfirst]
      exact ⟨rfl, hleft⟩
    rw [List.flatten_cons] at h
    rcases List.append_eq_append_iff.mp h with ⟨more, harrived, hmore⟩ | ⟨more, harrived, hmore⟩
    · exact hbeyond harrived hmore
    · rcases List.eq_nil_or_concat more with rfl | ⟨init, b, rfl⟩
      · have harrived : arrived = frame ++ [] := by rw [harrived, List.append_nil, List.append_nil]
        exact hbeyond harrived hmore.symm
      · obtain ⟨body, rfl, hbody⟩ := hframe
        rw [List.concat_eq_append, ← List.append_assoc] at harrived
        obtain ⟨rfl, -⟩ := List.append_inj' harrived rfl
        have hopen : Envelope.delimiter ∉ arrived := fun hmem =>
          hbody (List.mem_append_left _ hmem)
        rw [List.count_eq_zero_of_not_mem hopen, (Takes.refl arrived).pullAll hopen]
        exact ⟨rfl, by rw [List.drop_zero, List.flatten_cons, h]⟩

-- ---------------------------------------------------------------------------
-- What a node is handed
-- ---------------------------------------------------------------------------

/-- Bytes come to a session that runs, and only one that does not is stopped. -/
def Event.Attended (running : Bool) : Event → Prop
  | .bytesReceived .. => running = true
  | .stop => running = false
  | _ => True

instance (running : Bool) (e : Event) : Decidable (e.Attended running) :=
  match e with
  | .bytesReceived .. => inferInstanceAs (Decidable (running = true))
  | .stop => inferInstanceAs (Decidable (running = false))
  | .start | .timerFired _ | .blockMinted _ => .isTrue trivial

/-- Of a peer's stream a session holds what is left once its bytes have come. -/
theorem Session.handle_buffer (s : Session) {e : Event} (h : e.Attended s.running)
    (peer : NodeId) :
    (s.handle e).1.frames.buffer peer =
      match e.bytesFrom? peer with
      | some bytes => (pullAll (s.frames.buffer peer ++ bytes)).2
      | none => s.frames.buffer peer := by
  rw [handle_frames]
  cases e with
  | bytesReceived sender bytes =>
    rw [if_pos (show s.running = true from h)]
    dsimp only [Event.bytesFrom?]
    rw [leaving, FrameDecoder.buffer_insert]
    split
    · rename_i hsender
      rw [hsender]
    · rfl
  | stop =>
    have hr : s.running = false := h
    rw [hr]
    rfl
  | _ => exact congrArg (FrameDecoder.buffer · peer) (ite_self _)

namespace Simulation

variable {σ : Type} {link : Link}

/-- The node runs whenever bytes come, and it is not stopped while it runs. -/
def StaysRunning (node : NodeId) (log : List Turn) : Prop :=
  ∀ t ∈ log, t.node = node → t.event.Attended t.found.running

instance (node : NodeId) (log : List Turn) : Decidable (StaysRunning node log) :=
  inferInstanceAs (Decidable (∀ t ∈ log, t.node = node → t.event.Attended t.found.running))

/-- The envelopes that a turn takes from a link. -/
def Turn.handedOn (link : Link) (t : Turn) : List Envelope :=
  match t.arrivedOn? link with
  | some bytes => if t.found.running then (t.found.frames.feed link.1 bytes).1 else []
  | none => []

/-- The envelopes that have been taken from a link, in order. -/
def handedOn (link : Link) (log : List Turn) : List Envelope := log.flatMap (Turn.handedOn link)

/-- The bytes of a link that its receiver has not made a frame of. -/
def bufferedOn (sim : Simulation σ) (link : Link) : Bytes :=
  match sim.session? link.2 with
  | some s => s.frames.buffer link.1
  | none => []

variable [Random.Source σ] {allowed : Event → Prop} {sim sim₀ sim' : Simulation σ} {node : NodeId}
  {log turns : List Turn} {s : Session}

/-- What has come over a link was taken, but for what the decoder holds. -/
structure Received (sim : Simulation σ) (link : Link) (log : List Turn) : Prop where
  handed : handedOn link log = (pullAll (arrivedOn link log).flatten).1
  buffered : sim.bufferedOn link = (pullAll (arrivedOn link log).flatten).2

omit [Random.Source σ] in
theorem bufferedOn_eq (h : sim.session? link.2 = some s) :
    sim.bufferedOn link = s.frames.buffer link.1 := by
  unfold bufferedOn
  rw [h]

omit [Random.Source σ] in
theorem bufferedOn_congr (h : sim'.session? link.2 = sim.session? link.2) :
    sim'.bufferedOn link = sim.bufferedOn link := by
  unfold bufferedOn
  rw [h]

omit [Random.Source σ] in
theorem Received.turn (h : sim.Received link log) {t : Turn}
    (hs : sim.session? t.node = some s) (hfound : t.found.frames = s.frames)
    (hattended : t.node = link.2 → t.event.Attended t.found.running)
    (hnext : ∀ n, sim'.session? n = if t.node = n then some t.next else sim.session? n) :
    sim'.Received link (log ++ [t]) := by
  have hhanded : handedOn link (log ++ [t]) = handedOn link log ++ t.handedOn link := by
    rw [handedOn, List.flatMap_append, List.flatMap_singleton]
    rfl
  by_cases hnode : t.node = link.2
  · have hbuffer := t.found.handle_buffer (hattended hnode) link.1
    have hsame : t.found.frames.buffer link.1 = sim.bufferedOn link := by
      rw [bufferedOn_eq (hnode ▸ hs), hfound]
    have hlater : sim'.bufferedOn link = t.next.frames.buffer link.1 :=
      bufferedOn_eq (by rw [hnext, if_pos hnode])
    have harrived : t.arrivedOn? link = t.event.bytesFrom? link.1 := if_pos hnode
    cases hbytes : t.event.bytesFrom? link.1 with
    | none =>
      have hsame' : arrivedOn link (log ++ [t]) = arrivedOn link log := by
        rw [arrivedOn, List.filterMap_append, List.filterMap_cons_none (harrived.trans hbytes),
          List.filterMap_nil, List.append_nil]
        rfl
      rw [hbytes] at hbuffer
      refine ⟨?_, ?_⟩
      · rw [hhanded, hsame', h.handed, Turn.handedOn, harrived, hbytes, List.append_nil]
      · rw [hsame', hlater, ← h.buffered, ← hsame]
        exact hbuffer
    | some bytes =>
      have hrunning : t.found.running = true := by
        have := hattended hnode
        cases he : t.event with
        | bytesReceived => rwa [he] at this
        | _ => rw [he] at hbytes; cases hbytes
      have hmore : (arrivedOn link (log ++ [t])).flatten =
          (arrivedOn link log).flatten ++ bytes := by
        rw [arrivedOn, List.filterMap_append, List.filterMap_cons_some (harrived.trans hbytes),
          List.filterMap_nil, List.flatten_append, List.flatten_singleton]
        rfl
      rw [hbytes] at hbuffer
      refine ⟨?_, ?_⟩
      · rw [hhanded, hmore, pullAll_append, ← h.handed, Turn.handedOn, harrived, hbytes]
        dsimp only
        rw [if_pos hrunning, FrameDecoder.feed, hsame, h.buffered]
      · rw [hmore, pullAll_append, hlater, ← h.buffered, ← hsame]
        exact hbuffer
  · have hnone : t.arrivedOn? link = none := if_neg hnode
    have hsame : arrivedOn link (log ++ [t]) = arrivedOn link log := by
      rw [arrivedOn, List.filterMap_append, List.filterMap_cons_none hnone, List.filterMap_nil,
        List.append_nil]
      rfl
    have hbuffer : sim'.bufferedOn link = sim.bufferedOn link :=
      bufferedOn_congr (by rw [hnext, if_neg hnode])
    refine ⟨?_, ?_⟩
    · rw [hhanded, hsame, h.handed, Turn.handedOn, hnone, List.append_nil]
    · rw [hbuffer, hsame, h.buffered]

omit [Random.Source σ] in
theorem Built.received (h : Built sim₀) : sim₀.Received link [] := by
  refine ⟨?_, ?_⟩
  · show [] = (pullAll []).1
    rw [pullAll_nil]
  · show _ = (pullAll []).2
    rw [pullAll_nil]
    unfold bufferedOn
    cases hs : sim₀.session? link.2 with
    | none => rfl
    | some s =>
      obtain ⟨setup, config, hfresh, -⟩ := h.entries (link.2, s) (mem_of_find hs)
      exact congrArg (fun s : Session => s.frames.buffer link.1) hfresh

theorem Course.received (hbuilt : Built sim₀) (h : Course allowed sim₀ sim log) (link : Link)
    (hstays : StaysRunning link.2 log) : sim.Received link log := by
  induction h with
  | nil => exact hbuilt.received
  | snoc _ hchange ih =>
    have hbefore := ih fun t ht => hstays t (List.mem_append_left _ ht)
    rcases hchange.session? with ⟨rfl, hsame⟩ | ⟨node, s, now, event, rfl, hs, hnext⟩
    · rw [List.append_nil]
      exact ⟨hbefore.handed, (bufferedOn_congr (hsame link.2)).trans hbefore.buffered⟩
    · exact hbefore.turn hs rfl
        (hstays _ (List.mem_append_right _ (List.mem_singleton_self _))) hnext

/-- Every frame that was sent is an encoded envelope. -/
theorem Course.sent (hbuilt : Built sim₀) (h : Course allowed sim₀ sim log) (link : Link) :
    ∀ frame ∈ sentOn link log, ∃ e : Envelope, e.encode = .ok frame := by
  intro frame hframe
  obtain ⟨t, ht, hframe⟩ := List.mem_flatMap.mp hframe
  obtain ⟨a, ha, hsent⟩ := List.mem_filterMap.mp hframe
  obtain ⟨setup, config, s, now, -, hreachable, hfound⟩ := h.found hbuilt t ht
  have htells := Session.handle_tells (s := t.found)
    (by rw [hfound]; exact hreachable.sound.anchored) t.event a ha
  cases a with
  | send receiver kind sent wireBytes =>
    obtain ⟨e, -, hencode, -⟩ := htells
    obtain ⟨-, hsame⟩ := Option.ite_none_right_eq_some.mp hsent
    exact ⟨e, Option.some.inj hsame ▸ hencode⟩
  | _ => exact nomatch hsent

/-- Whole frames of which nothing is left but bytes without a delimiter are none. -/
theorem eq_nil_of_flatten_open {frames : List Bytes} (hwhole : ∀ frame ∈ frames, Whole frame)
    (hopen : Envelope.delimiter ∉ frames.flatten) : frames = [] := by
  rw [List.eq_nil_iff_forall_not_mem]
  intro frame hframe
  obtain ⟨body, heq, -⟩ := hwhole frame hframe
  exact hopen (List.mem_flatten.mpr ⟨frame, hframe, by simp [heq]⟩)

/-- Each link is a lossless stream in order. In a run that is given no bytes
from outside, what has come over a link and what is still in the queue are, one
after the other, the frames that were sent over it, whatever latency, jitter,
speeds and sizes of chunks. A receiver that stays running is handed each frame
by itself, once and in the order of sending, when its last byte has come: what
it holds and what is in the queue are the frames that are left, and where the
queue holds no more of them all have been handed over. -/
theorem driven_links (hbuilt : Built sim₀) (h : Driven Event.NoBytes sim₀ sim log)
    (sender : NodeId) {receiver : NodeId} (hreceiver : (sim₀.session? receiver).isSome = true) :
    let link := (sender, receiver)
    let complete := (arrivedOn link log).flatten.count Envelope.delimiter
    (sentOn link log).flatten = (arrivedOn link log).flatten ++ (sim.queue.chunksOn link).flatten ∧
      (∀ frame ∈ sentOn link log, ∃ e : Envelope, e.encode = .ok frame ∧
        pullAll frame = (e.reread?.toList, [])) ∧
      (StaysRunning receiver log →
        handedOn link log =
            ((sentOn link log).take complete).flatMap (fun frame => (pullAll frame).1) ∧
          Envelope.delimiter ∉ sim.bufferedOn link ∧
          sim.bufferedOn link ++ (sim.queue.chunksOn link).flatten =
            ((sentOn link log).drop complete).flatten ∧
          (sim.queue.chunksOn link = [] →
            handedOn link log = (sentOn link log).flatMap (fun frame => (pullAll frame).1))) := by
  intro link complete
  have hcourse := (h.ordered hbuilt).course
  have hbalance := (hcourse.streams hbuilt link hreceiver).balance
  have hsent := hcourse.sent hbuilt link
  have hwhole : ∀ frame ∈ sentOn link log, Whole frame := fun frame hframe => by
    obtain ⟨e, he⟩ := hsent frame hframe
    exact Envelope.encode_whole he
  refine ⟨hbalance, fun frame hframe => ?_, fun hstays => ?_⟩
  · obtain ⟨e, he⟩ := hsent frame hframe
    obtain ⟨hrender, hopen⟩ := Envelope.encode_eq he
    refine ⟨e, he, ?_⟩
    rw [hrender, pullAll_whole hopen, Envelope.frameEnvelope?_render]
  · have hreceived := hcourse.received hbuilt link hstays
    obtain ⟨htaken, hleft⟩ := pullAll_frames hwhole hbalance
    have hopen := (pullAll_takes (arrivedOn link log).flatten).2
    rw [← hreceived.handed] at htaken
    rw [← hreceived.buffered] at hleft hopen
    refine ⟨htaken, hopen, hleft, fun hnone => ?_⟩
    rw [hnone, List.flatten_nil, List.append_nil] at hleft
    have hall : (sentOn link log).drop complete = [] :=
      eq_nil_of_flatten_open (fun frame hframe => hwhole frame (List.mem_of_mem_drop hframe))
        (hleft ▸ hopen)
    rw [htaken, List.take_of_length_le (List.drop_eq_nil_iff.mp hall)]

/-- The committer of a couple of nodes has been handed the first transaction of
the client; the second is still in the queue. -/
theorem couple_links :
    let sim := (couple.start.runFirst 60.0 12).1
    let log := (couple.start.runFirst 60.0 12).2
    Driven Event.NoBytes couple sim log ∧ StaysRunning 1 log ∧ (sentOn (2, 1) log).length = 2 ∧
      (sim.queue.chunksOn (2, 1)).length = 8 ∧
      (sentOn (2, 1) log).flatten =
        (arrivedOn (2, 1) log).flatten ++ (sim.queue.chunksOn (2, 1)).flatten ∧
      handedOn (2, 1) log = ((sentOn (2, 1) log).take 1).flatMap (fun frame => (pullAll frame).1) ∧
      sim.bufferedOn (2, 1) ++ (sim.queue.chunksOn (2, 1)).flatten =
        ((sentOn (2, 1) log).drop 1).flatten := by
  intro sim log
  have hdriven : Driven Event.NoBytes couple sim log := Driven.startFirst _ couple 60.0 12
  have hthere : (couple.session? 1).isSome = true := by decide +kernel
  have hstays : StaysRunning 1 log := by decide +kernel
  obtain ⟨hbalance, -, hreceived⟩ :=
    driven_links couple_built hdriven 2 hthere
  obtain ⟨hhanded, -, hleft, -⟩ := hreceived hstays
  have hcomplete : (arrivedOn (2, 1) log).flatten.count Envelope.delimiter = 1 := by
    decide +kernel
  rw [hcomplete] at hhanded hleft
  exact ⟨hdriven, hstays, by decide +kernel, by decide +kernel, hbalance, hhanded, hleft⟩

end Simulation

end BlockGossip
