import BlockGossip.Block
import BlockGossip.Wire.Message

/-!
# Envelopes

A message on the wire is a document with a label, a number and up to three
lists: keys that are announced, blocks that are asked for by key or given in
full, and transactions. Empty lists are left out. A list of blocks is a list of
keys if every item is a string, else a list of records; so the empty list is
always one of keys, and writers leave an empty list of records out.

A frame is an envelope and the delimiter behind it. No part of the document may
hold the delimiter; one that does is not encoded.
-/

namespace BlockGossip

/-- The blocks of a message: keys when asking, records when answering. -/
inductive BlockPayload where
  | keys (keys : List String)
  | records (records : List Block)
deriving BEq, DecidableEq, Repr

structure Envelope where
  label : String
  /-- The number of the message; any number is carried. -/
  message : Int64
  inv : List String
  blocks : Option BlockPayload
  transactions : List Transaction
deriving BEq, DecidableEq, Repr, Inhabited

inductive EncodeError where
  | delimiterInPayload (kind : Option MessageKind)
deriving DecidableEq, Repr

def EncodeError.message : EncodeError → String
  | .delimiterInPayload kind =>
    "Encoded " ++ (kind.map MessageKind.name).getD "unknown" ++
      " payload contains the frame delimiter"

def unknownMessage (code : Int64) : String :=
  "Unknown message discriminator: " ++ (if code < 0 then "-" else "") ++
    Numeral.text code.toInt.natAbs

namespace Envelope

-- ---------------------------------------------------------------------------
-- Messages
-- ---------------------------------------------------------------------------

def bare (kind : MessageKind) : Envelope := ⟨kind.label, kind.code, [], none, []⟩

def withKeys (kind : MessageKind) (ids : List BlockId) : Envelope :=
  { bare kind with blocks := if ids.isEmpty then none else some (.keys (ids.map BlockId.key)) }

def withRecords (kind : MessageKind) (records : List Block) : Envelope :=
  { bare kind with blocks := if records.isEmpty then none else some (.records records) }

def announce (ids : List BlockId) : Envelope := { bare .inv with inv := ids.map BlockId.key }

def getHeaders (ids : List BlockId) : Envelope := withKeys .getHeaders ids

def getData (ids : List BlockId) : Envelope := withKeys .getData ids

def headers (headers : List Block) : Envelope := withRecords .headers headers

def block (blocks : List Block) : Envelope := withRecords .block blocks

def requestTrans (transactions : List Transaction) : Envelope :=
  { bare .requestTrans with transactions }

def replyTrans (transactions : List Transaction) : Envelope :=
  { bare .replyTrans with transactions }

-- ---------------------------------------------------------------------------
-- Views
-- ---------------------------------------------------------------------------

def kind? (e : Envelope) : Option MessageKind := MessageKind.ofCode? e.message

def blockKeys (e : Envelope) : List String :=
  match e.blocks with
  | some (.keys keys) => keys
  | _ => []

def blockRecords (e : Envelope) : List Block :=
  match e.blocks with
  | some (.records records) => records
  | _ => []

def itemCount (e : Envelope) : Nat :=
  e.inv.length + e.blockKeys.length + e.blockRecords.length + e.transactions.length

-- ---------------------------------------------------------------------------
-- Documents
-- ---------------------------------------------------------------------------

def payloadToJson : BlockPayload → Json.Node
  | .keys keys => Json.ofList Json.ofText keys
  | .records records => Json.ofList Block.toJson records

/-- A field that is left out where its list is empty. -/
def unlessEmpty (name : String) (write : α → Json.Node) (xs : List α) : List (String × Json.Node) :=
  if xs.isEmpty then [] else [(name, Json.ofList write xs)]

def toJson (e : Envelope) : Json.Node :=
  Json.record
    ([("type", Json.ofText e.label), ("message", Json.ofInt e.message.toInt)] ++
      unlessEmpty "inv" Json.ofText e.inv ++
      (match e.blocks with
        | none => []
        | some payload => [("blocks", payloadToJson payload)]) ++
      unlessEmpty "transactions" Transaction.toJson e.transactions)

/-- Reads the blocks of a message. Here everything must mean something, keys
that nobody asks for too, and with the message itself nothing may be nested
deeper than the limit. -/
def payload? (n : Json.Node) : Option BlockPayload :=
  if n.isMeaningful (Json.depthLimit - 1) then
    match n.list? Json.Node.text? with
    | some keys => some (.keys keys)
    | none => (n.list? Block.ofJson?).map .records
  else none

/-- The blocks field: it may be missing or null. -/
def blocks? : Option Json.Node → Option (Option BlockPayload)
  | none => some none
  | some .null => some none
  | some n => (payload? n).map some

def ofJson? (n : Json.Node) : Option Envelope := do
  match ← n.fields? ["type", "message", "inv", "blocks", "transactions"] with
  | [label, message, inv, blocks, transactions] =>
    pure {
      label := ← Json.required Json.Node.text? label
      message := ← Json.required Json.Node.signed64? message
      inv := ← Json.optional (Json.Node.list? Json.Node.text?) [] inv
      blocks := ← blocks? blocks
      transactions := ← Json.optional (Json.Node.list? Transaction.ofJson?) [] transactions }
  | _ => none

-- ---------------------------------------------------------------------------
-- Frames
-- ---------------------------------------------------------------------------

def delimiter : Byte := Ascii.hash

def decode? (frame : Bytes) : Option Envelope := (Json.Node.read? frame).bind ofJson?

def encode (e : Envelope) : Except EncodeError Bytes :=
  let bytes := e.toJson.render
  if bytes.contains delimiter then .error (.delimiterInPayload e.kind?)
  else .ok (bytes ++ [delimiter])

end Envelope

end BlockGossip
