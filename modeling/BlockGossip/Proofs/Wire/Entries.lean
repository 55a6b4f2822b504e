import BlockGossip.Proofs.Wire.Frames
import BlockGossip.Proofs.Wire.Reread

/-!
# The transactions that a frame lists

What a frame says of the transactions it is about, read off its document: their
ids, in order, and which node executed each. Nothing else is read, so a time
that no number shows hides no transaction.
-/

namespace BlockGossip

open Json

namespace Transaction

/-- The id of a transaction, and the node that executed it. -/
def entry (t : Transaction) : TransactionId × NodeId := (t.id, t.execution)

def listing? (n : Node) : Option (TransactionId × NodeId) := do
  match ← n.fields? ["nodeId", "transId", "execution"] with
  | [node, number, execution] =>
    pure (⟨← Json.required Node.word32? node, ← Json.required Node.word64? number⟩,
      ← Json.required Node.word32? execution)
  | _ => none

theorem listing?_toJson (t : Transaction) : listing? t.toJson = some t.entry := by
  have hselect : t.toJson.fields? ["nodeId", "transId", "execution"] =
      some [some (ofNat t.nodeId.toNat), some (ofNat t.transId.toNat),
        some (ofNat t.execution.toNat)] := by
    rw [toJson, fields?_record]
    rfl
  rw [listing?, hselect]
  simp only [Json.required, Option.bind_eq_bind, Option.bind_some, word32?_ofNat, word64?_ofNat]
  rfl

end Transaction

/-- The entries of the transactions that a frame lists, in order. -/
def listed (frame : Bytes) : List (TransactionId × NodeId) :=
  match (Node.read? frame.dropLast).bind (·.fields? ["transactions"]) with
  | some [some n] => (n.list? Transaction.listing?).getD []
  | _ => []

theorem listed_frame (e : Envelope) : listed e.frame = e.transactions.map Transaction.entry := by
  have hselect : e.toJson.fields? ["transactions"] =
      some [Envelope.listField Transaction.toJson e.transactions] := by
    rw [Envelope.toJson, fields?_record]
    cases e.inv <;> cases e.blocks <;> cases e.transactions <;> rfl
  rw [listed, Envelope.frame, List.dropLast_concat, Node.read?_render e.toJson_proper,
    Option.bind_some, hselect]
  cases e.transactions with
  | nil => rfl
  | cons t ts =>
    have hlist : (ofList Transaction.toJson (t :: ts)).list? Transaction.listing? =
        some ((t :: ts).map Transaction.entry) := by
      rw [list?_ofList, mapM_eq_some_iff, List.map_map]
      exact List.map_congr_left fun u _ => u.listing?_toJson
    simp only [Envelope.listField, hlist, Option.getD_some]

end BlockGossip
