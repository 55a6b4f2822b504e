import BlockGossip.Json.Reader
import BlockGossip.Json.Value

/-!
# Records in documents

How the fields of a record are laid out in a document and found again. A record
is written as an object. It is read from an object, where unknown keys are
passed over and a known key may stand only once, or from an array of the field
values in order, where trailing fields may be left off. Which fields may be
missing is for the reader of each field to say: `required` or `optional`.
-/

namespace BlockGossip.Json

-- ---------------------------------------------------------------------------
-- Writing
-- ---------------------------------------------------------------------------

def ofText (s : String) : Node := .string (escape s)

def ofNat (n : Nat) : Node := .number (.ofInt n)

def ofInt (i : Int) : Node := .number (.ofInt i)

/-- A floating value; what no number can show is written as null. -/
def ofFloat (x : Float) : Node := ((Number.ofFloat? x).map Node.number).getD .null

def ofList (write : α → Node) (xs : List α) : Node := .array (xs.map write)

def record (fields : List (String × Node)) : Node :=
  .object (fields.map fun field => (escape field.1, field.2))

-- ---------------------------------------------------------------------------
-- Reading
-- ---------------------------------------------------------------------------

def Node.text? : Node → Option String
  | .string raw => Json.text? raw
  | _ => none

def Node.bool? : Node → Option Bool
  | .bool b => some b
  | _ => none

def Node.int? : Node → Option Int
  | .number n => n.int?
  | _ => none

/-- An integer from zero up to the limit, the limit excluded. -/
def Node.nat? (limit : Nat) (n : Node) : Option Nat :=
  n.int?.bind fun i => if 0 ≤ i ∧ i < limit then some i.toNat else none

def Node.word8? (n : Node) : Option UInt8 := (n.nat? UInt8.size).map UInt8.ofNat

def Node.word32? (n : Node) : Option UInt32 := (n.nat? UInt32.size).map UInt32.ofNat

def Node.word64? (n : Node) : Option UInt64 := (n.nat? UInt64.size).map UInt64.ofNat

def Node.signed64? (n : Node) : Option Int64 :=
  n.int?.bind fun i => if i < 9223372036854775808 then some (Int64.ofInt i) else none

def Node.float? : Node → Option Float
  | .number n => n.float?
  | _ => none

def Node.list? (read : Node → Option α) : Node → Option (List α)
  | .array items => items.mapM read
  | _ => none

/-- The name of a variant without fields: the name itself, or an object with
that name as its only key and null as its value. -/
def Node.variant? : Node → Option String
  | .string raw => Json.text? raw
  | .object [(key, .null)] => Json.text? key
  | _ => none

def required (read : Node → Option α) (field : Option Node) : Option α := field.bind read

def optional (read : Node → Option α) (default : α) : Option Node → Option α
  | none => some default
  | some n => read n

def keyed? (members : List (Bytes × Node)) : Option (List (String × Node)) :=
  members.mapM fun (key, n) => (Json.text? key).map (·, n)

/-- The values found under the given names, in the order of the names; none
where a name stands twice. -/
def select? (names : List String) (members : List (String × Node)) :
    Option (List (Option Node)) :=
  if names.any fun name => 1 < members.countP (·.1 == name) then none
  else some (names.map fun name => (members.find? (·.1 == name)).map (·.2))

/-- The fields of a record: from an object by name, from an array by position. -/
def Node.fields? (names : List String) : Node → Option (List (Option Node))
  | .object members => (keyed? members).bind (select? names)
  | .array items =>
    if items.length ≤ names.length then
      some (items.map some ++ List.replicate (names.length - items.length) none)
    else none
  | _ => none

/-- The fields of a record that has no others: an unknown key is refused. -/
def Node.exactFields? (names : List String) : Node → Option (List (Option Node))
  | .object members => do
    let members ← keyed? members
    if members.all fun (key, _) => names.contains key then select? names members else none
  | n => n.fields? names

-- ---------------------------------------------------------------------------
-- Reading everything
-- ---------------------------------------------------------------------------

mutual
/-- Every string and number of the document means something, and arrays and
objects are nested at most `depth` deep. -/
def Node.isMeaningful (depth : Nat) : Node → Bool
  | .null => true
  | .bool _ => true
  | .number n => n.float?.isSome
  | .string raw => (Json.text? raw).isSome
  | .array items =>
    match depth with
    | 0 => false
    | depth + 1 => allMeaningful depth items
  | .object members =>
    match depth with
    | 0 => false
    | depth + 1 => allMembersMeaningful depth members

def allMeaningful (depth : Nat) : List Node → Bool
  | [] => true
  | x :: xs => x.isMeaningful depth && allMeaningful depth xs

def allMembersMeaningful (depth : Nat) : List (Bytes × Node) → Bool
  | [] => true
  | (key, x) :: rest =>
    (Json.text? key).isSome && x.isMeaningful depth && allMembersMeaningful depth rest
end

/-- How many arrays and objects may be open at once where everything is read. -/
def depthLimit : Nat := 127

end BlockGossip.Json
