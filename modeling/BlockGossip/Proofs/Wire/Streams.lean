import BlockGossip.Wire.FrameDecoder
import Mathlib.Data.List.TakeWhile

/-!
# Streams of frames

However a peer's bytes are cut, and however many envelopes are taken at a time,
the decoder gives what the whole stream holds: the segments that end at a
delimiter and decode, in order, none twice and none of another peer's.

`Takes` says what a step consumes: a part of the bytes that ends at a delimiter,
and exactly the envelopes of that part. Steps are chained by it, and
`Stream.note` keeps beside the decoder what a peer has sent and what was taken.
-/

namespace BlockGossip

variable {bs mid rest consumed : Bytes} {taken envelopes : List Envelope}
  {peer : NodeId}

-- ---------------------------------------------------------------------------
-- The envelopes of a stream
-- ---------------------------------------------------------------------------

/-- The bytes are cut at every delimiter, and the segments that decode are kept.
What follows the last delimiter is no segment yet. -/
def streamEnvelopes (bs : Bytes) : List Envelope :=
  (bs.splitOn Envelope.delimiter).dropLast.filterMap Envelope.decode?

theorem streamEnvelopes_of_open (h : Envelope.delimiter ∉ bs) : streamEnvelopes bs = [] := by
  rw [streamEnvelopes, List.splitOn_eq_singleton h]
  rfl

/-- At a delimiter a stream falls into two. -/
theorem streamEnvelopes_cut (bs rest : Bytes) :
    streamEnvelopes (bs ++ Envelope.delimiter :: rest) =
      (bs.splitOn Envelope.delimiter).filterMap Envelope.decode? ++ streamEnvelopes rest := by
  have hne : rest.splitOn Envelope.delimiter ≠ [] := List.splitOnP_ne_nil _ rest
  rw [streamEnvelopes, List.splitOn_append_cons_self, List.dropLast_append_of_ne_nil hne,
    List.filterMap_append]
  rfl

/-- Nothing is left open behind the last delimiter. -/
def Closed (bs : Bytes) : Prop := bs = [] ∨ ∃ init, bs = init ++ [Envelope.delimiter]

theorem Closed.streamEnvelopes_append (h : Closed consumed) (rest : Bytes) :
    streamEnvelopes (consumed ++ rest) = streamEnvelopes consumed ++ streamEnvelopes rest := by
  have hnil : streamEnvelopes [] = [] := rfl
  rcases h with rfl | ⟨init, rfl⟩
  · rw [hnil, List.nil_append, List.nil_append]
  · rw [List.append_assoc, List.singleton_append, streamEnvelopes_cut, streamEnvelopes_cut, hnil,
      List.append_nil]

theorem Closed.append {bs' : Bytes} (h : Closed bs) (h' : Closed bs') : Closed (bs ++ bs') := by
  rcases h' with rfl | ⟨init, rfl⟩
  · rwa [List.append_nil]
  · exact .inr ⟨bs ++ init, (List.append_assoc ..).symm⟩

-- ---------------------------------------------------------------------------
-- Frames
-- ---------------------------------------------------------------------------

theorem nextFrame?_eq_none (h : nextFrame? bs = none) : Envelope.delimiter ∉ bs := by
  unfold nextFrame? at h
  split at h
  · rename_i hdrop
    intro hmem
    simpa using List.dropWhile_eq_nil_iff.mp hdrop _ hmem
  · exact nomatch h

/-- The next frame reaches to the first delimiter. -/
theorem nextFrame?_eq_some {frame : Bytes} (h : nextFrame? bs = some (frame, rest)) :
    bs = frame ++ Envelope.delimiter :: rest ∧ Envelope.delimiter ∉ frame := by
  unfold nextFrame? at h
  split at h
  · exact nomatch h
  · rename_i b left hdrop
    obtain ⟨rfl, rfl⟩ := Prod.mk.inj (Option.some.inj h)
    have hb : b = Envelope.delimiter := by
      have hhead := List.head?_dropWhile_not (· ≠ Envelope.delimiter) bs
      rw [hdrop] at hhead
      simpa using hhead
    constructor
    · have hspan := List.takeWhile_append_dropWhile (p := (· ≠ Envelope.delimiter)) (l := bs)
      rw [hdrop, hb] at hspan
      exact hspan.symm
    · intro hmem
      simpa using List.mem_takeWhile_imp hmem

/-- A blank is no document, a form feed no more than the others. -/
theorem decode?_blank {frame : Bytes} (h : frame.all Ascii.isFrameBlank = true) :
    Envelope.decode? frame = none := by
  have hnumber (tail : Bytes) : Json.readNumber (Ascii.formFeed :: tail) = none := rfl
  have hread : Json.readNode (2 * frame.length + 2) frame = none := by
    rw [Json.readNode]
    cases hs : Json.skipBlanks frame with
    | nil => rfl
    | cons b tail =>
      have hmem : b ∈ frame := by
        refine (List.dropWhile_suffix Ascii.isDocumentBlank).subset ?_
        rw [← Json.skipBlanks, hs]
        exact List.mem_cons_self ..
      have hblank : Ascii.isDocumentBlank b = false := by
        have hhead := List.head?_dropWhile_not Ascii.isDocumentBlank frame
        rwa [← Json.skipBlanks, hs] at hhead
      have hall := List.all_eq_true.mp h b hmem
      rw [Ascii.isFrameBlank, hblank, Bool.false_or] at hall
      obtain rfl : b = Ascii.formFeed := beq_iff_eq.mp hall
      simp only [hnumber]
      rfl
  rw [Envelope.decode?, Json.Node.read?, hread]
  rfl

theorem frameEnvelope?_eq (frame : Bytes) : frameEnvelope? frame = Envelope.decode? frame := by
  unfold frameEnvelope?
  split
  · rename_i h
    exact (decode?_blank h).symm
  · rfl

-- ---------------------------------------------------------------------------
-- What a step consumes
-- ---------------------------------------------------------------------------

/-- Of the bytes a closed part is consumed, its envelopes are taken, and the
rest stays. -/
def Takes (bs : Bytes) (taken : List Envelope) (rest : Bytes) : Prop :=
  ∃ consumed, bs = consumed ++ rest ∧ Closed consumed ∧ taken = streamEnvelopes consumed

namespace Takes

theorem refl (bs : Bytes) : Takes bs [] bs := ⟨[], rfl, .inl rfl, rfl⟩

theorem trans (h : Takes bs taken mid) (h' : Takes mid envelopes rest) :
    Takes bs (taken ++ envelopes) rest := by
  obtain ⟨first, rfl, hfirst, rfl⟩ := h
  obtain ⟨second, rfl, hsecond, rfl⟩ := h'
  exact ⟨first ++ second, (List.append_assoc ..).symm, hfirst.append hsecond,
    (hfirst.streamEnvelopes_append second).symm⟩

/-- What comes later stays behind what was left. -/
theorem append (h : Takes bs taken rest) (more : Bytes) :
    Takes (bs ++ more) taken (rest ++ more) := by
  obtain ⟨consumed, rfl, hclosed, rfl⟩ := h
  exact ⟨consumed, List.append_assoc .., hclosed, rfl⟩

/-- A frame is consumed with its delimiter. -/
theorem nextFrame {frame : Bytes} (h : nextFrame? bs = some (frame, rest)) :
    Takes bs (frameEnvelope? frame).toList rest := by
  obtain ⟨rfl, hopen⟩ := nextFrame?_eq_some h
  refine ⟨frame ++ [Envelope.delimiter], by simp, .inr ⟨frame, rfl⟩, ?_⟩
  have hnil : streamEnvelopes [] = [] := rfl
  rw [streamEnvelopes_cut, List.splitOn_eq_singleton hopen, hnil, List.append_nil,
    frameEnvelope?_eq]
  cases hd : Envelope.decode? frame <;> simp [hd]

/-- The envelopes of the bytes are those taken and those of the rest. -/
theorem streamEnvelopes_eq (h : Takes bs taken rest) :
    streamEnvelopes bs = taken ++ streamEnvelopes rest := by
  obtain ⟨consumed, rfl, hclosed, rfl⟩ := h
  exact hclosed.streamEnvelopes_append rest

/-- Where no delimiter is left, everything was taken. -/
theorem all_of_open (h : Takes bs taken rest) (hopen : Envelope.delimiter ∉ rest) :
    taken = streamEnvelopes bs := by
  rw [h.streamEnvelopes_eq, streamEnvelopes_of_open hopen, List.append_nil]

end Takes

/-- Pulling takes one envelope, or all there is where that is none. -/
theorem pull_takes (bs : Bytes) :
    Takes bs (pull bs).1.toList (pull bs).2 ∧
      ((pull bs).1 = none → Envelope.delimiter ∉ (pull bs).2) := by
  fun_induction pull bs with
  | case1 bs h => exact ⟨.refl bs, fun _ => nextFrame?_eq_none h⟩
  | case2 bs frame rest h _ e he =>
    have hframe := Takes.nextFrame h
    rw [he] at hframe
    exact ⟨hframe, nofun⟩
  | case3 bs frame rest h _ he ih =>
    have hframe := Takes.nextFrame h
    rw [he] at hframe
    exact ⟨hframe.trans ih.1, ih.2⟩

theorem pullAll_takes (bs : Bytes) :
    Takes bs (pullAll bs).1 (pullAll bs).2 ∧ Envelope.delimiter ∉ (pullAll bs).2 := by
  fun_induction pullAll bs with
  | case1 bs h => exact ⟨.refl bs, nextFrame?_eq_none h⟩
  | case2 bs frame rest h _ envelopes left hrest ih =>
    rw [hrest] at ih
    exact ⟨(Takes.nextFrame h).trans ih.1, ih.2⟩

/-- There is one way to cut bytes behind their last delimiter. -/
theorem Closed.unique {consumed' rest' : Bytes} (h : Closed consumed) (h' : Closed consumed')
    (hopen : Envelope.delimiter ∉ rest) (hopen' : Envelope.delimiter ∉ rest')
    (heq : consumed ++ rest = consumed' ++ rest') : consumed = consumed' ∧ rest = rest' := by
  have hmore {c c' m r : Bytes} (h' : Closed c') (hopen : Envelope.delimiter ∉ m ++ r)
      (hc : c' = c ++ m) : m = [] := by
    rcases List.eq_nil_or_concat m with rfl | ⟨init, b, rfl⟩
    · rfl
    · rcases h' with rfl | ⟨front, rfl⟩
      · simp at hc
      · rw [List.concat_eq_append, ← List.append_assoc] at hc
        obtain ⟨-, hb⟩ := List.append_inj' hc rfl
        rw [← List.singleton_inj.mp hb] at hopen
        simp at hopen
  rcases List.append_eq_append_iff.mp heq with ⟨m, hc, hr⟩ | ⟨m, hc, hr⟩
  · obtain rfl := hmore h' (hr ▸ hopen) hc
    exact ⟨by rw [hc, List.append_nil], hr⟩
  · obtain rfl := hmore h (hr ▸ hopen') hc
    exact ⟨by rw [hc, List.append_nil], hr.symm⟩

/-- What is taken until no delimiter is left is what is taken at once. -/
theorem Takes.pullAll (h : Takes bs taken rest) (hopen : Envelope.delimiter ∉ rest) :
    pullAll bs = (taken, rest) := by
  obtain ⟨⟨consumed, heq, hclosed, htaken⟩, hleft⟩ := pullAll_takes bs
  obtain ⟨consumed', rfl, hclosed', rfl⟩ := h
  obtain ⟨rfl, hrest⟩ := hclosed.unique hclosed' hleft hopen heq.symm
  exact Prod.ext htaken hrest

/-- Taking what has come, and then the rest with what comes later, is taking it
all at once. -/
theorem pullAll_append (bs more : Bytes) :
    pullAll (bs ++ more) =
      ((pullAll bs).1 ++ (pullAll ((pullAll bs).2 ++ more)).1,
        (pullAll ((pullAll bs).2 ++ more)).2) := by
  obtain ⟨hrest, hopen⟩ := pullAll_takes ((pullAll bs).2 ++ more)
  exact (((pullAll_takes bs).1.append more).trans hrest).pullAll hopen

theorem Closed.pullAll_append (h : Closed consumed) (more : Bytes) :
    pullAll (consumed ++ more) =
      (streamEnvelopes consumed ++ (pullAll more).1, (pullAll more).2) := by
  obtain ⟨hmore, hopen⟩ := pullAll_takes more
  have hconsumed : Takes (consumed ++ more) (streamEnvelopes consumed) more :=
    ⟨consumed, rfl, h, rfl⟩
  exact (hconsumed.trans hmore).pullAll hopen

/-- Fewer envelopes than asked for come only where no more are left. -/
theorem pullSome_takes (limit : Nat) (bs : Bytes) :
    Takes bs (pullSome limit bs).1 (pullSome limit bs).2 ∧
      (pullSome limit bs).1.length ≤ limit ∧
      ((pullSome limit bs).1.length < limit →
        Envelope.delimiter ∉ (pullSome limit bs).2) := by
  induction limit generalizing bs with
  | zero => exact ⟨.refl bs, Nat.le_refl _, nofun⟩
  | succ limit ih =>
    obtain ⟨hpull, hopen⟩ := pull_takes bs
    rw [pullSome]
    split
    · rename_i rest heq
      rw [heq] at hpull hopen
      exact ⟨hpull, Nat.zero_le _, fun _ => hopen rfl⟩
    · rename_i e rest heq
      rw [heq] at hpull
      obtain ⟨htakes, hle, hrest⟩ := ih rest
      refine ⟨hpull.trans htakes, ?_, fun hlt => hrest ?_⟩
      · exact Nat.succ_le_succ hle
      · exact Nat.lt_of_succ_lt_succ hlt

/-- So many envelopes come as are asked for, or all that are left. -/
theorem pullSome_fst (limit : Nat) (bs : Bytes) :
    (pullSome limit bs).1 = (streamEnvelopes bs).take limit := by
  obtain ⟨htakes, hle, hopen⟩ := pullSome_takes limit bs
  rcases Nat.lt_or_eq_of_le hle with hlt | heq
  · have hall := htakes.all_of_open (hopen hlt)
    rw [← hall, List.take_of_length_le hle]
  · rw [htakes.streamEnvelopes_eq, List.take_left' heq]

-- ---------------------------------------------------------------------------
-- Decoders in use
-- ---------------------------------------------------------------------------

namespace FrameDecoder

/-- What is done with a decoder. A feed is followed by so many pulls, or by
pulls until no envelope is left. -/
inductive Use where
  | feed (peer : NodeId) (bytes : Bytes) (pulls : Option Nat)
  | reset (peer : NodeId)
  | clear

def use (d : FrameDecoder) : Use → List Envelope × FrameDecoder
  | .feed peer bytes none => d.feed peer bytes
  | .feed peer bytes (some limit) => d.feedSome peer bytes limit
  | .reset peer => ([], d.reset peer)
  | .clear => ([], .empty)

/-- A peer's stream since it was last forgotten: the bytes fed, the envelopes
pulled, and whether the last feed was pulled until no envelope was left. -/
structure Stream where
  fed : Bytes
  pulled : List Envelope
  exhausted : Bool

def Stream.fresh : Stream := ⟨[], [], true⟩

/-- Notes a use of the decoder, which gave the envelopes, for one peer. -/
def Stream.note (peer : NodeId) (s : Stream) (u : Use) (envelopes : List Envelope) : Stream :=
  match u with
  | .feed sender bytes pulls =>
    if sender = peer then
      { fed := s.fed ++ bytes
        pulled := s.pulled ++ envelopes
        exhausted := pulls.all (envelopes.length < ·) }
    else s
  | .reset sender => if sender = peer then .fresh else s
  | .clear => .fresh

def watch (peer : NodeId) (p : FrameDecoder × Stream) (u : Use) : FrameDecoder × Stream :=
  ((p.1.use u).2, p.2.note peer u (p.1.use u).1)

/-- A new decoder after some uses, and the stream of one peer. -/
def watched (peer : NodeId) (uses : List Use) : FrameDecoder × Stream :=
  uses.foldl (watch peer) (.empty, .fresh)

/-- The decoder has taken from the stream what was pulled, and holds the rest. -/
structure InStep (peer : NodeId) (d : FrameDecoder) (s : Stream) : Prop where
  takes : Takes s.fed s.pulled (d.buffer peer)
  exhausted : s.exhausted = true → Envelope.delimiter ∉ d.buffer peer

theorem InStep.fresh {d : FrameDecoder} (h : d.buffer peer = []) : InStep peer d .fresh := by
  refine ⟨?_, fun _ => ?_⟩
  · rw [h]
    exact .refl []
  · rw [h]
    exact List.not_mem_nil

theorem buffer_insert (d : FrameDecoder) (sender peer : NodeId) (bs : Bytes) :
    buffer ⟨d.buffers.insert sender bs⟩ peer = if sender = peer then bs else d.buffer peer := by
  rw [buffer, Table.get?_insert]
  split <;> rfl

theorem buffer_reset (d : FrameDecoder) (sender peer : NodeId) :
    (d.reset sender).buffer peer = if sender = peer then [] else d.buffer peer := by
  rw [reset, buffer, Table.get?_erase]
  split <;> rfl

theorem InStep.use {d : FrameDecoder} {s : Stream} (h : InStep peer d s) (u : Use) :
    InStep peer (d.use u).2 (s.note peer u (d.use u).1) := by
  cases u with
  | feed sender bytes pulls =>
    by_cases hs : sender = peer
    · subst hs
      cases pulls with
      | none =>
        obtain ⟨htakes, hopen⟩ := pullAll_takes (d.buffer sender ++ bytes)
        simp only [FrameDecoder.use, feed, Stream.note, if_true]
        refine ⟨?_, fun _ => ?_⟩
        · rw [buffer_insert, if_pos rfl]
          exact (h.takes.append bytes).trans htakes
        · rw [buffer_insert, if_pos rfl]
          exact hopen
      | some limit =>
        obtain ⟨htakes, -, hopen⟩ := pullSome_takes limit (d.buffer sender ++ bytes)
        simp only [FrameDecoder.use, feedSome, Stream.note, if_true]
        refine ⟨?_, fun hex => ?_⟩
        · rw [buffer_insert, if_pos rfl]
          exact (h.takes.append bytes).trans htakes
        · rw [buffer_insert, if_pos rfl]
          exact hopen (of_decide_eq_true hex)
    · have hnote : s.note peer (.feed sender bytes pulls) (d.use (.feed sender bytes pulls)).1 =
          s := by
        rw [Stream.note, if_neg hs]
      have hbuffer : (d.use (.feed sender bytes pulls)).2.buffer peer = d.buffer peer := by
        cases pulls
        · exact (buffer_insert ..).trans (if_neg hs)
        · exact (buffer_insert ..).trans (if_neg hs)
      rw [hnote]
      exact ⟨hbuffer ▸ h.takes, hbuffer ▸ h.exhausted⟩
  | reset sender =>
    have hbuffer := buffer_reset d sender peer
    simp only [FrameDecoder.use, Stream.note]
    split
    · rename_i hs
      exact .fresh (hbuffer.trans (if_pos hs))
    · rename_i hs
      rw [if_neg hs] at hbuffer
      exact ⟨hbuffer ▸ h.takes, hbuffer ▸ h.exhausted⟩
  | clear => exact .fresh rfl

theorem watched_inStep (peer : NodeId) (uses : List Use) :
    InStep peer (watched peer uses).1 (watched peer uses).2 :=
  List.foldlRecOn uses (watch peer) (motive := fun p => InStep peer p.1 p.2) (.fresh rfl)
    fun _ h u _ => h.use u

/-- Whatever was done with a decoder, for each peer, since it was last
forgotten: the bytes fed are some that were consumed, up to a delimiter, and
those held; the envelopes pulled are those of the consumed bytes, so a prefix
of the stream's, and all of them where the last feed was exhausted; and the
next feed gives the next envelopes of the stream, as many as are pulled. -/
theorem watched_reference (peer : NodeId) (uses : List Use) :
    let d := (watched peer uses).1
    let s := (watched peer uses).2
    (∃ consumed, s.fed = consumed ++ d.buffer peer ∧ Closed consumed ∧
        s.pulled = streamEnvelopes consumed ∧
        consumed.length + d.pendingBytes peer = s.fed.length) ∧
      s.pulled <+: streamEnvelopes s.fed ∧
      (s.exhausted = true →
        s.pulled = streamEnvelopes s.fed ∧ Envelope.delimiter ∉ d.buffer peer) ∧
      ∀ bytes,
        (d.feed peer bytes).1 = (streamEnvelopes (s.fed ++ bytes)).drop s.pulled.length ∧
          ∀ limit, (d.feedSome peer bytes limit).1 =
            ((streamEnvelopes (s.fed ++ bytes)).drop s.pulled.length).take limit := by
  intro d s
  have h : InStep peer d s := watched_inStep peer uses
  obtain ⟨consumed, hfed, hclosed, hpulled⟩ := h.takes
  refine ⟨⟨consumed, hfed, hclosed, hpulled, ?_⟩, ?_, fun hex => ?_, fun bytes => ?_⟩
  · rw [hfed, List.length_append]
    rfl
  · rw [h.takes.streamEnvelopes_eq]
    exact List.prefix_append ..
  · exact ⟨h.takes.all_of_open (h.exhausted hex), h.exhausted hex⟩
  · have hleft : (streamEnvelopes (s.fed ++ bytes)).drop s.pulled.length =
        streamEnvelopes (d.buffer peer ++ bytes) := by
      rw [(h.takes.append bytes).streamEnvelopes_eq, List.drop_left]
    rw [hleft]
    obtain ⟨htakes, hopen⟩ := pullAll_takes (d.buffer peer ++ bytes)
    exact ⟨htakes.all_of_open hopen, fun limit => pullSome_fst limit _⟩

end FrameDecoder

end BlockGossip
