import BlockGossip.Proofs.Wire.Frames

/-!
# Envelopes cross the wire

An envelope is encoded unless one of its texts holds the delimiter. Its frame
holds the delimiter at its end only, and what stands before is decoded to the
envelope as it arrives: local fields take their usual values, and an empty list
of records is one of keys. That times are read back as they were is not claimed
but asked for.
-/

namespace BlockGossip

open Json

-- ---------------------------------------------------------------------------
-- As it arrives
-- ---------------------------------------------------------------------------

/-- The size of a transaction is local. -/
def Transaction.arrived (t : Transaction) : Transaction := { t with sizeBytes := 100 }

/-- When a block came and from whom is local. -/
def Block.arrived (b : Block) : Block :=
  { b with
    receivedAt := 0.0
    origin := none
    transactions := b.transactions.map Transaction.arrived }

/-- A list without items does not show what it was a list of. -/
def BlockPayload.arrived : BlockPayload → BlockPayload
  | .keys texts => .keys texts
  | .records [] => .keys []
  | .records (b :: rest) => .records ((b :: rest).map Block.arrived)

def Block.times (b : Block) : List Time :=
  b.timestamp :: b.transactions.map Transaction.timestamp

/-- Every item of a list is read, each to what the function says. -/
theorem mapM_eq_map {f : α → Option β} {g : α → β} {xs : List α}
    (h : ∀ x ∈ xs, f x = some (g x)) : xs.mapM f = some (xs.map g) := by
  rw [mapM_eq_some_iff, List.map_map]
  exact List.map_congr_left h

theorem Transaction.reread?_arrived {t : Transaction}
    (h : Time.reread? t.timestamp = some t.timestamp) : t.reread? = some t.arrived := by
  rw [Transaction.reread?, h]
  rfl

theorem Block.reread?_arrived {b : Block} (h : ∀ t ∈ b.times, Time.reread? t = some t) :
    b.reread? = some b.arrived := by
  have htime := h b.timestamp (List.mem_cons_self ..)
  have htransactions : b.transactions.mapM Transaction.reread? =
      some (b.transactions.map Transaction.arrived) := by
    refine mapM_eq_map fun t ht => Transaction.reread?_arrived (h _ ?_)
    exact List.mem_cons_of_mem _ (List.mem_map_of_mem ht)
  rw [Block.reread?, htime, htransactions]
  rfl

namespace Envelope

def arrived (e : Envelope) : Envelope :=
  { e with
    blocks := e.blocks.map BlockPayload.arrived
    transactions := e.transactions.map Transaction.arrived }

/-- Every time that the envelope tells. -/
def times (e : Envelope) : List Time :=
  e.blockRecords.flatMap Block.times ++ e.transactions.map Transaction.timestamp

theorem rereadBlocks?_arrived {blocks : Option BlockPayload}
    (h : ∀ records, blocks = some (.records records) →
      ∀ b ∈ records, ∀ t ∈ b.times, Time.reread? t = some t) :
    rereadBlocks? blocks = some (blocks.map BlockPayload.arrived) := by
  cases blocks with
  | none => rfl
  | some payload =>
    cases payload with
    | keys keys => rfl
    | records records =>
      cases records with
      | nil => rfl
      | cons b rest =>
        have hread := mapM_eq_map fun c hc => Block.reread?_arrived (h _ rfl c hc)
        have hpayload : (BlockPayload.records (b :: rest)).reread? =
            ((b :: rest).mapM Block.reread?).map .records := rfl
        rw [rereadBlocks?, hpayload, hread]
        rfl

theorem reread?_arrived {e : Envelope} (h : ∀ t ∈ e.times, Time.reread? t = some t) :
    e.reread? = some e.arrived := by
  have hblocks : rereadBlocks? e.blocks = some (e.blocks.map BlockPayload.arrived) := by
    refine rereadBlocks?_arrived fun records he b hb t ht => h t (List.mem_append_left _ ?_)
    rw [blockRecords, he]
    exact List.mem_flatMap.mpr ⟨b, hb, ht⟩
  have htransactions : e.transactions.mapM Transaction.reread? =
      some (e.transactions.map Transaction.arrived) := by
    refine mapM_eq_map fun t ht => Transaction.reread?_arrived (h _ ?_)
    exact List.mem_append_right _ (List.mem_map_of_mem ht)
  rw [reread?, hblocks, htransactions]
  rfl

-- ---------------------------------------------------------------------------
-- Delimiters
-- ---------------------------------------------------------------------------

/-- Every text that the envelope tells. -/
def texts (e : Envelope) : List String := e.label :: (e.inv ++ e.blockKeys)

theorem unlessEmpty_hashless_iff {name : String} (hname : '#' ∉ name.toList) {write : α → Node}
    {xs : List α} :
    (∀ f ∈ unlessEmpty name write xs, Ascii.hash ∉ escape f.1 ∧ f.2.Hashless) ↔
      ∀ x ∈ xs, (write x).Hashless := by
  have hname : Ascii.hash ∉ escape name := mt hash_mem_escape.mp hname
  cases xs with
  | nil => exact iff_of_true (List.forall_mem_nil _) (List.forall_mem_nil _)
  | cons x xs => simp [unlessEmpty, hname, ofList_hashless_iff]

/-- Of the blocks only keys are texts. -/
theorem payloadToJson_hashless_iff {payload : BlockPayload} {e : Envelope}
    (h : e.blocks = some payload) :
    (payloadToJson payload).Hashless ↔ ∀ key ∈ e.blockKeys, '#' ∉ key.toList := by
  rw [blockKeys, h]
  cases payload with
  | keys keys => simp only [payloadToJson, ofList_hashless_iff, ofText_hashless_iff]
  | records records =>
    exact iff_of_true (ofList_hashless fun b _ => b.toJson_hashless) (List.forall_mem_nil _)

/-- Hashes come in by the texts alone. -/
theorem toJson_hashless_iff (e : Envelope) :
    e.toJson.Hashless ↔ ∀ text ∈ e.texts, '#' ∉ text.toList := by
  have htype : Ascii.hash ∉ escape "type" := by decide
  have hmessage : Ascii.hash ∉ escape "message" := by decide
  have hblocks : Ascii.hash ∉ escape "blocks" := by decide
  have hnumber : (ofInt e.message.toInt).Hashless := trivial
  have htransactions : ∀ t ∈ e.transactions, t.toJson.Hashless := fun t _ => t.toJson_hashless
  rw [toJson, record_hashless_iff]
  cases hb : e.blocks with
  | none =>
    have hkeys : e.blockKeys = [] := by rw [blockKeys, hb]
    simp only [List.forall_mem_append, List.forall_mem_cons,
      unlessEmpty_hashless_iff (show '#' ∉ "inv".toList by decide),
      unlessEmpty_hashless_iff (show '#' ∉ "transactions".toList by decide), ofText_hashless_iff,
      htype, hmessage, hnumber, texts, hkeys, not_false_eq_true, true_and]
    tauto
  | some payload =>
    simp only [List.forall_mem_append, List.forall_mem_cons,
      unlessEmpty_hashless_iff (show '#' ∉ "inv".toList by decide),
      unlessEmpty_hashless_iff (show '#' ∉ "transactions".toList by decide), ofText_hashless_iff,
      payloadToJson_hashless_iff hb, htype, hmessage, hblocks, hnumber, texts,
      not_false_eq_true, true_and]
    tauto

theorem encode_eq_error_iff (e : Envelope) :
    e.encode = .error (.delimiterInPayload e.kind?) ↔ ∃ text ∈ e.texts, '#' ∈ text.toList := by
  have hmem : Ascii.hash ∈ e.toJson.render ↔ ∃ text ∈ e.texts, '#' ∈ text.toList := by
    rw [← not_iff_not]
    simpa using (hash_not_mem_render_iff e.toJson).trans e.toJson_hashless_iff
  rw [← hmem, encode]
  simp [delimiter]

/-- An envelope is refused exactly where one of its texts holds the delimiter.
Any other has a frame with the delimiter at its end alone, which is decoded to
the envelope as it arrives if its times are read back from their numerals. -/
theorem encode_crosses (e : Envelope) :
    (e.encode = .error (.delimiterInPayload e.kind?) ↔ ∃ text ∈ e.texts, '#' ∈ text.toList) ∧
      ((∀ text ∈ e.texts, '#' ∉ text.toList) →
        ∃ body, e.encode = .ok (body ++ [delimiter]) ∧ delimiter ∉ body ∧
          ((∀ t ∈ e.times, Time.reread? t = some t) → decode? body = some e.arrived)) := by
  refine ⟨e.encode_eq_error_iff, fun h => ⟨e.toJson.render, ?_, ?_, fun htimes => ?_⟩⟩
  · exact encode_of_hashless (e.toJson_hashless_iff.mpr h)
  · exact hash_not_mem_render _ (e.toJson_hashless_iff.mpr h)
  · rw [decode?_render, reread?_arrived htimes]

/-- A block that was received, with a transaction whose size is not the usual
one, and a label that holds the delimiter. -/
theorem encode_crosses_received :
    let t : Transaction := ⟨3, 9, 0.5, false, 4, 250⟩
    let b : Block := ⟨2, 7, 11, 1, 900, 3.25, 8.0, some 5, [t]⟩
    let e : Envelope := ⟨"blocks", -5, ["2/7", "\n\u00e9"], some (.records [b]), [t]⟩
    let split : Envelope := { e with label := "a#b" }
    split.encode = .error (.delimiterInPayload none) ∧
      ∃ body, e.encode = .ok (body ++ [delimiter]) ∧ delimiter ∉ body ∧
        decode? body = some { e with
          blocks := some (.records [{ b with
            receivedAt := 0.0
            origin := none
            transactions := [{ t with sizeBytes := 100 }] }])
          transactions := [{ t with sizeBytes := 100 }] } := by
  intro t b e split
  refine ⟨(encode_crosses split).1.mpr ⟨"a#b", List.mem_cons_self .., by decide⟩, ?_⟩
  obtain ⟨body, hencode, hopen, hdecode⟩ := (encode_crosses e).2 (by decide)
  exact ⟨body, hencode, hopen, hdecode (by decide +kernel)⟩

end Envelope

end BlockGossip
