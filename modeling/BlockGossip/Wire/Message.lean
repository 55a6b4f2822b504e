/-!
# Kinds of messages

Every message has a number that says what it asks or tells, and a charge in
bytes that does not depend on how it is encoded: a header, and so much for each
item it lists. Numbers beyond the ten kinds are carried and ignored.
-/

namespace BlockGossip

inductive MessageKind where
  | inv
  | requestTrans
  | getHeaders
  | headers
  | getData
  | block
  | noMessage
  | replyTrans
  | msgTrans
  | resultTrans
deriving DecidableEq, Repr, Inhabited

namespace MessageKind

def all : List MessageKind :=
  [inv, requestTrans, getHeaders, headers, getData, block, noMessage, replyTrans, msgTrans,
   resultTrans]

def code : MessageKind → Int64
  | inv => 0
  | requestTrans => 1
  | getHeaders => 2
  | headers => 3
  | getData => 4
  | block => 5
  | noMessage => 6
  | replyTrans => 7
  | msgTrans => 8
  | resultTrans => 9

def ofCode? (code : Int64) : Option MessageKind := all.find? (·.code == code)

theorem ofCode?_code (k : MessageKind) : ofCode? k.code = some k := by
  cases k <;> rfl

def name : MessageKind → String
  | inv => "INV"
  | requestTrans => "REQUEST_TRANS"
  | getHeaders => "GET_HEADERS"
  | headers => "HEADERS"
  | getData => "GET_DATA"
  | block => "BLOCK"
  | noMessage => "NO_MESSAGE"
  | replyTrans => "REPLY_TRANS"
  | msgTrans => "MSG_TRANS"
  | resultTrans => "RESULT_TRANS"

def isAboutTransactions : MessageKind → Bool
  | requestTrans | replyTrans | msgTrans | resultTrans => true
  | _ => false

def label (k : MessageKind) : String :=
  if k.isAboutTransactions then "transactions" else "blocks"

end MessageKind

/-- What messages are charged for: a header, a count, and each item listed. -/
structure WireSizes where
  messageHeader : UInt64
  count : UInt64
  inventory : UInt64
  getHeaders : UInt64
  headers : UInt64
deriving DecidableEq, Repr

namespace WireSizes

def usual : WireSizes := ⟨90, 4, 36, 72, 81⟩

instance : Inhabited WireSizes := ⟨usual⟩

/-- The charge of a message that lists `items` items; blocks are charged by
their own sizes, which add up to `blockBytes`. -/
def messageBytes (w : WireSizes) (kind : MessageKind) (items : Nat) (blockBytes : UInt64) :
    UInt64 :=
  match kind with
  | .getHeaders => w.messageHeader + w.count + UInt64.ofNat items * w.getHeaders
  | .headers => w.messageHeader + w.count + UInt64.ofNat items * w.headers
  | .block => w.messageHeader + blockBytes
  | _ => w.messageHeader + w.count + UInt64.ofNat items * w.inventory

end WireSizes

end BlockGossip
