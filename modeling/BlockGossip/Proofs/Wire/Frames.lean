import BlockGossip.Wire.FrameDecoder
import BlockGossip.Proofs.Text.Keys
import BlockGossip.Proofs.Wire.Reread

/-!
# Whole frames

A frame that arrives whole where no bytes wait is taken at once and leaves
nothing behind. What it gives is the envelope that was encoded, as it is
reread, or nothing.
-/

namespace BlockGossip

variable {body : Bytes} {peer : NodeId} {d : FrameDecoder} {e : Envelope}

/-- One delimiter stands in the frame, at its end. -/
def Whole (frame : Bytes) : Prop :=
  ∃ body, frame = body ++ [Envelope.delimiter] ∧ Envelope.delimiter ∉ body

theorem nextFrame?_whole (h : Envelope.delimiter ∉ body) :
    nextFrame? (body ++ [Envelope.delimiter]) = some (body, []) := by
  have hne : ∀ b ∈ body, decide (b ≠ Envelope.delimiter) = true := by
    intro b hb
    rw [decide_eq_true_eq]
    rintro rfl
    exact h hb
  have htake : (body ++ [Envelope.delimiter]).takeWhile (· ≠ Envelope.delimiter) = body := by
    rw [List.takeWhile_append_of_pos hne]
    simp
  have hdrop : (body ++ [Envelope.delimiter]).dropWhile (· ≠ Envelope.delimiter) =
      [Envelope.delimiter] := by
    rw [List.dropWhile_append_of_pos hne]
    simp
  rw [nextFrame?, hdrop, htake]

theorem pullAll_nil : pullAll [] = ([], []) := by
  rw [pullAll]
  rfl

theorem pullAll_whole (h : Envelope.delimiter ∉ body) :
    pullAll (body ++ [Envelope.delimiter]) = ((frameEnvelope? body).toList, []) := by
  rw [pullAll]
  split
  · rename_i hnone
    rw [nextFrame?_whole h] at hnone
    cases hnone
  · rename_i frame rest hsome
    rw [nextFrame?_whole h] at hsome
    obtain ⟨rfl, rfl⟩ := Prod.mk.inj (Option.some.inj hsome)
    simp [pullAll_nil]

-- ---------------------------------------------------------------------------
-- Decoders that hold nothing
-- ---------------------------------------------------------------------------

namespace FrameDecoder

/-- No bytes are held for any peer. -/
def Idle (d : FrameDecoder) : Prop := ∀ peer, d.buffer peer = []

theorem empty_idle : empty.Idle := fun _ => rfl

/-- A whole frame is taken as if nothing else had ever come. -/
theorem Idle.feed (h : d.Idle) {frame : Bytes} (hf : Whole frame) (peer : NodeId) :
    (d.feed peer frame).1 = (pullAll frame).1 ∧ (d.feed peer frame).2.Idle := by
  obtain ⟨body, rfl, hbody⟩ := hf
  have hpull := pullAll_whole hbody
  rw [FrameDecoder.feed, h peer, List.nil_append, hpull]
  refine ⟨rfl, fun other => ?_⟩
  rw [buffer, Table.get?_insert]
  split
  · rfl
  · exact h other

end FrameDecoder

-- ---------------------------------------------------------------------------
-- Encoded envelopes
-- ---------------------------------------------------------------------------

namespace Envelope

theorem toJson_not_blank (e : Envelope) : e.toJson.render.all Ascii.isFrameBlank = false := by
  rfl

theorem frameEnvelope?_render (e : Envelope) : frameEnvelope? e.toJson.render = e.reread? := by
  rw [frameEnvelope?, e.toJson_not_blank, decode?_render]
  rfl

theorem encode_eq {frame : Bytes} (h : e.encode = .ok frame) :
    frame = e.toJson.render ++ [delimiter] ∧ delimiter ∉ e.toJson.render := by
  unfold encode at h
  simp only at h
  split at h
  · exact nomatch h
  · rename_i hd
    exact ⟨(Except.ok.inj h).symm, by simpa using hd⟩

theorem encode_whole {frame : Bytes} (h : e.encode = .ok frame) : Whole frame :=
  ⟨e.toJson.render, encode_eq h⟩

/-- The envelope of an encoded one is what it is reread as. -/
theorem pullAll_encode {frame : Bytes} (h : e.encode = .ok frame) :
    (pullAll frame).1 = e.reread?.toList := by
  obtain ⟨rfl, hd⟩ := encode_eq h
  rw [pullAll_whole hd, frameEnvelope?_render]

/-- The frame of an envelope that holds no delimiter. -/
def frame (e : Envelope) : Bytes := e.toJson.render ++ [delimiter]

theorem encode_of_hashless (h : e.toJson.Hashless) : e.encode = .ok e.frame := by
  have hnot : delimiter ∉ e.toJson.render := Json.hash_not_mem_render _ h
  have hd : e.toJson.render.contains delimiter = false := by simpa using hnot
  rw [encode, hd]
  rfl

end Envelope

-- ---------------------------------------------------------------------------
-- Announcements
-- ---------------------------------------------------------------------------

/-- A key holds digits and a slash alone. -/
theorem BlockId.hash_not_mem_key (id : BlockId) : '#' ∉ id.key.toList := by
  have hdigit : ∀ d, Numeral.digitChar d ≠ '#' := by decide
  have hdigits (n : Nat) : '#' ∉ (Numeral.digits n).map Numeral.digitChar := by
    simpa using fun d _ => hdigit d
  rw [BlockId.key_toList]
  exact List.not_mem_append (hdigits _)
    (List.not_mem_cons_of_ne_of_not_mem (by decide) (hdigits _))

theorem Transaction.toJson_hashless (t : Transaction) : t.toJson.Hashless := by
  refine Json.record_hashless ?_
  simp only [List.forall_mem_cons]
  exact ⟨⟨by decide, trivial⟩, ⟨by decide, trivial⟩, ⟨by decide, Json.ofFloat_hashless _⟩,
    ⟨by decide, trivial⟩, ⟨by decide, trivial⟩, nofun⟩

theorem Block.toJson_hashless (b : Block) : b.toJson.Hashless := by
  refine Json.record_hashless ?_
  simp only [List.forall_mem_cons]
  exact ⟨⟨by decide, trivial⟩, ⟨by decide, trivial⟩, ⟨by decide, trivial⟩, ⟨by decide, trivial⟩,
    ⟨by decide, trivial⟩, ⟨by decide, Json.ofFloat_hashless _⟩,
    ⟨by decide, Json.ofList_hashless fun t _ => t.toJson_hashless⟩, nofun⟩

namespace Envelope

/-- An announcement by key is encoded, and read as it was written. -/
theorem announce_read (id : BlockId) :
    ∃ frame, (announce [id]).encode = .ok frame ∧ (pullAll frame).1 = [announce [id]] := by
  have hless : (announce [id]).toJson.Hashless := by
    refine Json.record_hashless ?_
    simp only [announce, bare, unlessEmpty, List.map_cons, List.map_nil, List.isEmpty_cons,
      List.isEmpty_nil, if_true, List.append_nil, List.cons_append, List.nil_append,
      Bool.false_eq_true, if_false, List.forall_mem_cons]
    refine ⟨⟨by decide, ?_⟩, ⟨by decide, trivial⟩, ⟨by decide, ?_⟩, nofun⟩
    · show Ascii.hash ∉ Json.escape "blocks"
      decide
    · refine Json.ofList_hashless fun key hkey => ?_
      rw [List.mem_singleton.mp hkey]
      exact Json.ofText_hashless_iff.mpr id.hash_not_mem_key
  have hencode := encode_of_hashless hless
  refine ⟨_, hencode, ?_⟩
  rw [pullAll_encode hencode]
  rfl

/-- An announcement by header is encoded, and read as the header is, if the
block's time crosses the wire. -/
theorem headers_read {b : Block} {time : Time} (h : Time.reread? b.timestamp = some time) :
    ∃ frame, (headers [b.header]).encode = .ok frame ∧
      (pullAll frame).1 =
        [headers [{ b.header with timestamp := time, receivedAt := 0.0, origin := none }]] := by
  have hless : (headers [b.header]).toJson.Hashless := by
    refine Json.record_hashless ?_
    simp only [headers, withRecords, bare, unlessEmpty, List.isEmpty_cons, List.isEmpty_nil,
      if_true, List.append_nil, List.cons_append, List.nil_append, Bool.false_eq_true, if_false,
      List.forall_mem_cons]
    refine ⟨⟨by decide, ?_⟩, ⟨by decide, trivial⟩, ⟨by decide, ?_⟩, nofun⟩
    · show Ascii.hash ∉ Json.escape "blocks"
      decide
    · refine Json.ofList_hashless fun c hc => ?_
      rw [List.mem_singleton.mp hc]
      exact b.header.toJson_hashless
  have hencode := encode_of_hashless hless
  have hheader : b.header.reread? =
      some { b.header with timestamp := time, receivedAt := 0.0, origin := none } := by
    rw [Block.reread?]
    simp only [Block.header, h]
    rfl
  have hread : (headers [b.header]).reread? =
      some (headers [{ b.header with timestamp := time, receivedAt := 0.0, origin := none }]) := by
    simp only [reread?, headers, withRecords, rereadBlocks?, List.isEmpty_cons,
      Bool.false_eq_true, if_false, BlockPayload.reread?, List.mapM_cons, hheader]
    rfl
  refine ⟨_, hencode, ?_⟩
  rw [pullAll_encode hencode, hread]
  rfl

end Envelope

end BlockGossip
