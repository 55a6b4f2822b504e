import BlockGossip.Json.Record
import BlockGossip.Text.Blank

/-!
# Roles and protocols

What a node does with transactions and announcements follows from its role
alone. Committers store blocks; endorsers execute transactions and answer;
order nodes pass transactions on; clients originate them and take no part in
the block gossip. The protocol decides how a stored block is advertised.
-/

namespace BlockGossip

/-- A name that stands for no role, or for no protocol, as it was compared. -/
inductive NameError where
  | unknownRole (name : String)
  | unknownProtocol (name : String)
deriving DecidableEq, Repr

def NameError.message : NameError → String
  | .unknownRole name => "Unknown node role: " ++ name
  | .unknownProtocol name => "Unknown protocol variant: " ++ name

inductive Role where
  | committer
  | endorser
  | client
  | order
deriving DecidableEq, Repr, Inhabited

namespace Role

def name : Role → String
  | committer => "committer"
  | endorser => "endorser"
  | client => "client"
  | order => "order"

def code : Role → UInt8
  | committer => 0
  | endorser => 1
  | client => 2
  | order => 3

def ofCode? (code : UInt8) : Option Role :=
  [committer, endorser, client, order].find? (·.code == code)

theorem ofCode?_code (r : Role) : ofCode? r.code = some r := by
  cases r <;> rfl

/-- Takes part in announcing, requesting and storing blocks of others. -/
def handlesInventory (r : Role) : Bool := r ≠ client

def acceptsRequests (r : Role) : Bool := r ≠ client

def executes (r : Role) : Bool := r = endorser

def originates (r : Role) : Bool := r = client

/-- Validates the transactions that a stored block carries. -/
def validates (r : Role) : Bool := r = committer ∨ r = order

/-- Reads a role's name; blanks around it and the case of ASCII letters do not
count, and the order role has a second name. -/
def parse (s : String) : Except NameError Role :=
  match Text.lower (Text.trim s) with
  | "committer" => .ok committer
  | "endorser" => .ok endorser
  | "client" => .ok client
  | "order" => .ok order
  | "orderer" => .ok order
  | other => .error (.unknownRole other)

def variant : Role → String
  | committer => "Committer"
  | endorser => "Endorser"
  | client => "Client"
  | order => "Order"

def toJson (r : Role) : Json.Node := Json.ofText r.variant

def ofJson? (n : Json.Node) : Option Role :=
  n.variant?.bind fun v => [committer, endorser, client, order].find? (·.variant == v)

end Role

/-- How a stored block is advertised: by its id, or by its header at once. -/
inductive Protocol where
  | standard
  | sendHeaders
deriving DecidableEq, Repr, Inhabited

namespace Protocol

def name : Protocol → String
  | standard => "standard"
  | sendHeaders => "sendheaders"

/-- Reads a protocol's name; besides blanks and case, hyphens and underscores
do not count. -/
def parse (s : String) : Except NameError Protocol :=
  match Text.joined (Text.lower (Text.trim s)) with
  | "standard" => .ok standard
  | "sendheaders" => .ok sendHeaders
  | other => .error (.unknownProtocol other)

def variant : Protocol → String
  | standard => "Standard"
  | sendHeaders => "SendHeaders"

def toJson (p : Protocol) : Json.Node := Json.ofText p.variant

def ofJson? (n : Json.Node) : Option Protocol :=
  n.variant?.bind fun v => [standard, sendHeaders].find? (·.variant == v)

end Protocol

end BlockGossip
