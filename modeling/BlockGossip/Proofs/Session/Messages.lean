import BlockGossip.Proofs.Session.Sends
import BlockGossip.Proofs.Wire.Crossing

/-!
# What sessions say

A session composes messages of seven kinds. None holds the delimiter, so each
has a frame. The sender charges a message by what it lists, ids, headers, blocks
or transactions; a receiver charges the envelope it has read by its keys,
records and transactions. Both charge the same, whatever times and local fields
become on the wire.
-/

namespace BlockGossip

/-- What a session says, before it is put on the wire. -/
inductive Message where
  | inv (ids : List BlockId)
  | getHeaders (ids : List BlockId)
  | headers (records : List Block)
  | getData (ids : List BlockId)
  | block (records : List Block)
  | requestTrans (transactions : List Transaction)
  | replyTrans (transactions : List Transaction)

namespace Message

def kind : Message → MessageKind
  | .inv _ => .inv
  | .getHeaders _ => .getHeaders
  | .headers _ => .headers
  | .getData _ => .getData
  | .block _ => .block
  | .requestTrans _ => .requestTrans
  | .replyTrans _ => .replyTrans

def envelope : Message → Envelope
  | .inv ids => .announce ids
  | .getHeaders ids => .getHeaders ids
  | .headers records => .headers records
  | .getData ids => .getData ids
  | .block records => .block records
  | .requestTrans transactions => .requestTrans transactions
  | .replyTrans transactions => .replyTrans transactions

/-- What the sender charges. -/
def charge (w : WireSizes) : Message → UInt64
  | .inv ids => w.messageBytes .inv ids.length 0
  | .getHeaders ids => w.messageBytes .getHeaders ids.length 0
  | .headers records => w.messageBytes .headers records.length 0
  | .getData ids => w.messageBytes .getData ids.length 0
  | .block records => w.messageBytes .block records.length (Session.payloadBytes records)
  | .requestTrans transactions => w.messageBytes .requestTrans transactions.length 0
  | .replyTrans transactions => w.messageBytes .replyTrans transactions.length 0

@[simp] theorem envelope_kind? (m : Message) : m.envelope.kind? = some m.kind := by
  cases m <;> rfl

theorem envelope_texts (m : Message) :
    ∀ text ∈ m.envelope.texts, text = m.kind.label ∨ ∃ id : BlockId, text = id.key := by
  have hkeys (ids : List BlockId) : ∀ text ∈ ids.map BlockId.key, ∃ id : BlockId, text = id.key :=
    fun text htext => by
      obtain ⟨id, -, rfl⟩ := List.mem_map.mp htext
      exact ⟨id, rfl⟩
  intro text htext
  unfold Envelope.texts at htext
  rcases List.mem_cons.mp htext with rfl | htext
  · exact .inl (by cases m <;> rfl)
  refine .inr ?_
  cases m with
  | inv ids =>
    rw [show (Message.inv ids).envelope.blockKeys = [] from rfl, List.append_nil] at htext
    exact hkeys ids text htext
  | getHeaders ids => exact hkeys ids text (Session.blockKeys_withKeys .getHeaders ids ▸ htext)
  | getData ids => exact hkeys ids text (Session.blockKeys_withKeys .getData ids ▸ htext)
  | headers records => cases records <;> exact absurd htext List.not_mem_nil
  | block records => cases records <;> exact absurd htext List.not_mem_nil
  | requestTrans => exact absurd htext List.not_mem_nil
  | replyTrans => exact absurd htext List.not_mem_nil

/-- No message is kept from the wire by a delimiter in it. -/
theorem encode_envelope (m : Message) : m.envelope.encode = .ok m.envelope.frame := by
  have hlabel (kind : MessageKind) : '#' ∉ kind.label.toList := by cases kind <;> decide
  refine Envelope.encode_of_hashless (m.envelope.toJson_hashless_iff.mpr fun text htext => ?_)
  rcases m.envelope_texts text htext with rfl | ⟨id, rfl⟩
  · exact hlabel m.kind
  · exact id.hash_not_mem_key

end Message

-- ---------------------------------------------------------------------------
-- At the receiver
-- ---------------------------------------------------------------------------

namespace Envelope

/-- What a receiver charges for an envelope that it takes as a message of a kind. -/
def charge (w : WireSizes) (kind : MessageKind) (e : Envelope) : UInt64 :=
  match kind with
  | .inv => w.messageBytes .inv e.inv.length 0
  | .getHeaders => w.messageBytes .getHeaders e.blockKeys.length 0
  | .headers => w.messageBytes .headers e.blockRecords.length 0
  | .getData => w.messageBytes .getData e.blockKeys.length 0
  | .block =>
    w.messageBytes .block e.blockRecords.length (Session.payloadBytes e.blockRecords)
  | .requestTrans => w.messageBytes .requestTrans e.transactions.length 0
  | .replyTrans => w.messageBytes .replyTrans e.transactions.length 0
  | .noMessage | .msgTrans | .resultTrans => 0

variable {e e' : Envelope}

theorem reread?_transactions (h : e.reread? = some e') :
    e.transactions.mapM Transaction.reread? = some e'.transactions := by
  simp only [reread?, Option.bind_eq_bind, Option.bind_eq_some_iff] at h
  obtain ⟨blocks, -, transactions, htransactions, h⟩ := h
  rw [htransactions, ← Option.some.inj h]

theorem reread?_payloadBytes (h : e.reread? = some e') :
    Session.payloadBytes e'.blockRecords = Session.payloadBytes e.blockRecords := by
  have hsizes : e.blockRecords.map Block.sizeBytes = e'.blockRecords.map Block.sizeBytes := by
    refine map_eq_of_mapM (fun b b' hb => ?_) (reread?_blocks h).2
    simp only [Block.reread?, Option.bind_eq_bind, Option.bind_eq_some_iff] at hb
    obtain ⟨time, -, transactions, -, hb⟩ := hb
    rw [← Option.some.inj hb]
  have hpayload (blocks : List Block) : Session.payloadBytes blocks =
      (blocks.map Block.sizeBytes).foldl (· + ·) 0 := List.foldl_map.symm
  rw [hpayload, hpayload, hsizes]

/-- Neither times nor local fields are charged. -/
theorem reread?_charge (h : e.reread? = some e') (w : WireSizes) (kind : MessageKind) :
    e'.charge w kind = e.charge w kind := by
  obtain ⟨hinv, hkeys, hrecords⟩ := reread?_items h
  have htransactions : e'.transactions.length = e.transactions.length := by
    have hlength := congrArg List.length (mapM_eq_some_iff.mp (reread?_transactions h))
    rwa [List.length_map, List.length_map, eq_comm] at hlength
  have hpayload := reread?_payloadBytes h
  cases kind <;> simp only [charge, hinv, hkeys, hrecords, htransactions, hpayload]

-- ---------------------------------------------------------------------------
-- Times that are read
-- ---------------------------------------------------------------------------

theorem exists_mapM {f : α → Option β} {xs : List α} (h : ∀ x ∈ xs, (f x).isSome = true) :
    ∃ ys, xs.mapM f = some ys := by
  induction xs with
  | nil => exact ⟨[], rfl⟩
  | cons x xs ih =>
    obtain ⟨y, hy⟩ := Option.isSome_iff_exists.mp (h x (List.mem_cons_self ..))
    obtain ⟨ys, hys⟩ := ih fun z hz => h z (List.mem_cons_of_mem _ hz)
    exact ⟨y :: ys, by simp [List.mapM_cons, hy, hys]⟩

/-- Of every time that the envelope tells, some time is read. -/
def Readable (e : Envelope) : Prop := ∀ t ∈ e.times, (Time.reread? t).isSome = true

theorem exists_reread_transactions {transactions : List Transaction}
    (h : ∀ t ∈ transactions, (Time.reread? t.timestamp).isSome = true) :
    ∃ read, transactions.mapM Transaction.reread? = some read :=
  exists_mapM fun t ht => by rw [Transaction.reread?, Option.isSome_map]; exact h t ht

theorem exists_reread_block {b : Block} (h : ∀ t ∈ b.times, (Time.reread? t).isSome = true) :
    b.reread?.isSome = true := by
  obtain ⟨time, htime⟩ := Option.isSome_iff_exists.mp (h b.timestamp (List.mem_cons_self ..))
  obtain ⟨read, hread⟩ := exists_reread_transactions fun t ht =>
    h t.timestamp (List.mem_cons_of_mem _ (List.mem_map_of_mem ht))
  rw [Block.reread?, htime, hread]
  rfl

theorem Readable.exists_reread (h : e.Readable) : ∃ e', e.reread? = some e' := by
  have hblocks : ∃ blocks, rereadBlocks? e.blocks = some blocks := by
    rcases hpayload : e.blocks with _ | keys | _ | ⟨r, rest⟩
    · exact ⟨_, rfl⟩
    · exact ⟨_, rfl⟩
    · exact ⟨_, rfl⟩
    · obtain ⟨read, hread⟩ := @exists_mapM _ _ Block.reread? (r :: rest) fun b hb =>
        exists_reread_block fun t ht => h t (List.mem_append_left _ (by
          rw [blockRecords, hpayload]
          exact List.mem_flatMap.mpr ⟨b, hb, ht⟩))
      have hsome : (BlockPayload.records (r :: rest)).reread? =
          ((r :: rest).mapM Block.reread?).map .records := rfl
      exact ⟨some (.records read), by rw [rereadBlocks?, hsome, hread]; rfl⟩
  obtain ⟨blocks, hblocks⟩ := hblocks
  obtain ⟨read, hread⟩ := exists_reread_transactions fun t ht =>
    h t.timestamp (List.mem_append_right _ (List.mem_map_of_mem ht))
  exact ⟨{ e with blocks, transactions := read }, by rw [reread?, hblocks, hread]; rfl⟩

end Envelope

namespace Message

theorem charge_envelope (m : Message) (w : WireSizes) :
    m.envelope.charge w m.kind = m.charge w := by
  have hkeys (kind : MessageKind) (ids : List BlockId) :
      (Envelope.withKeys kind ids).blockKeys.length = ids.length := by
    rw [Session.blockKeys_withKeys, List.length_map]
  have hrecords (kind : MessageKind) (records : List Block) :
      (Envelope.withRecords kind records).blockRecords = records :=
    Session.blockRecords_withRecords kind records
  cases m <;>
    simp [charge, kind, envelope, Envelope.charge, Envelope.announce, Envelope.getHeaders,
      Envelope.headers, Envelope.getData, Envelope.block, Envelope.requestTrans,
      Envelope.replyTrans, hkeys, hrecords]

/-- What is read of a message is of its kind, and charged as it was. -/
theorem charge_reread {m : Message} {e : Envelope} (h : m.envelope.reread? = some e)
    (w : WireSizes) : e.kind? = some m.kind ∧ e.charge w m.kind = m.charge w :=
  ⟨(Envelope.reread?_kind h).trans m.envelope_kind?,
    (Envelope.reread?_charge h w m.kind).trans (m.charge_envelope w)⟩

end Message

end BlockGossip
