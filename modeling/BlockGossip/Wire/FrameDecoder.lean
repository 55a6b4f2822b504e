import BlockGossip.Table
import BlockGossip.Wire.Envelope

/-!
# Reassembling frames

Each peer's bytes arrive cut anywhere. The decoder keeps, for each peer, the
bytes behind the last delimiter it has consumed; blank frames and frames that
do not decode are consumed and passed over. Frames are taken one at a time, and
those not taken stay for the next time.
-/

namespace BlockGossip

/-- The bytes up to the first delimiter and those behind it; none where no
delimiter stands. -/
def nextFrame? (bs : Bytes) : Option (Bytes × Bytes) :=
  match bs.dropWhile (· ≠ Envelope.delimiter) with
  | [] => none
  | _ :: rest => some (bs.takeWhile (· ≠ Envelope.delimiter), rest)

theorem nextFrame?_length {bs frame rest : Bytes} (h : nextFrame? bs = some (frame, rest)) :
    rest.length < bs.length := by
  unfold nextFrame? at h
  split at h
  · simp at h
  · rename_i b left hleft
    simp only [Option.some.injEq, Prod.mk.injEq] at h
    have := (List.dropWhile_suffix (· ≠ Envelope.delimiter) (l := bs)).length_le
    rw [hleft, List.length_cons, h.2] at this
    omega

/-- The envelope of a frame; a blank frame and a corrupt one have none. -/
def frameEnvelope? (frame : Bytes) : Option Envelope :=
  if frame.all Ascii.isFrameBlank then none else Envelope.decode? frame

/-- Takes the next envelope, and the bytes behind all that was consumed. Where
no envelope is left, every complete frame has been consumed. -/
def pull (bs : Bytes) : Option Envelope × Bytes :=
  match h : nextFrame? bs with
  | none => (none, bs)
  | some (frame, rest) =>
    have := nextFrame?_length h
    match frameEnvelope? frame with
    | some e => (some e, rest)
    | none => pull rest
termination_by bs.length

def pullAll (bs : Bytes) : List Envelope × Bytes :=
  match h : nextFrame? bs with
  | none => ([], bs)
  | some (frame, rest) =>
    have := nextFrame?_length h
    let (envelopes, left) := pullAll rest
    ((frameEnvelope? frame).toList ++ envelopes, left)
termination_by bs.length

def pullSome : Nat → Bytes → List Envelope × Bytes
  | 0, bs => ([], bs)
  | n + 1, bs =>
    match pull bs with
    | (none, rest) => ([], rest)
    | (some e, rest) =>
      let (envelopes, left) := pullSome n rest
      (e :: envelopes, left)

structure FrameDecoder where
  buffers : Table NodeId Bytes
deriving Repr

namespace FrameDecoder

def empty : FrameDecoder := ⟨.empty⟩

def buffer (d : FrameDecoder) (peer : NodeId) : Bytes := (d.buffers.get? peer).getD []

def pendingBytes (d : FrameDecoder) (peer : NodeId) : Nat := (d.buffer peer).length

/-- Appends bytes of a peer and takes every envelope. -/
def feed (d : FrameDecoder) (peer : NodeId) (bytes : Bytes) : List Envelope × FrameDecoder :=
  let (envelopes, left) := pullAll (d.buffer peer ++ bytes)
  (envelopes, ⟨d.buffers.insert peer left⟩)

def feedSome (d : FrameDecoder) (peer : NodeId) (bytes : Bytes) (limit : Nat) :
    List Envelope × FrameDecoder :=
  let (envelopes, left) := pullSome limit (d.buffer peer ++ bytes)
  (envelopes, ⟨d.buffers.insert peer left⟩)

def reset (d : FrameDecoder) (peer : NodeId) : FrameDecoder := ⟨d.buffers.erase peer⟩

end FrameDecoder

end BlockGossip
