import BlockGossip.Json.Text

/-!
# Reading documents

The grammar of documents, and nothing beyond it: strings are checked for
control characters and for the shape of their escapes, numbers for their shape,
and a document of any depth and length is read. What a string or a number means
is left to those who ask for it.
-/

namespace BlockGossip.Json

open Numeral (Digit)

def skipBlanks (bs : Bytes) : Bytes := bs.dropWhile Ascii.isDocumentBlank

/-- The bytes of a string up to its closing quote, behind those already found,
which are held in reverse, and what follows the quote. -/
def readRaw (found : Bytes) : Bytes → Option (Bytes × Bytes)
  | [] => none
  | b :: rest =>
    if b = Ascii.quote then some (found.reverse, rest)
    else if b = Ascii.backslash then
      match rest with
      | [] => none
      | letter :: rest =>
        if letter = Ascii.letterU then
          match rest with
          | h₁ :: h₂ :: h₃ :: h₄ :: rest =>
            if [h₁, h₂, h₃, h₄].all fun h => (hexValue? h).isSome then
              readRaw (h₄ :: h₃ :: h₂ :: h₁ :: letter :: b :: found) rest
            else none
          | _ => none
        else if (unescapeLetter? letter).isSome then readRaw (letter :: b :: found) rest
        else none
    else if b < 0x20 then none
    else readRaw (b :: found) rest

def byteDigit? (b : Byte) : Option Digit :=
  if 0x30 ≤ b ∧ b ≤ 0x39 then some (Numeral.lastDigit (b.toNat - 48)) else none

def spanDigits : Bytes → List Digit × Bytes
  | [] => ([], [])
  | b :: rest =>
    match byteDigit? b with
    | some d => (d :: (spanDigits rest).1, (spanDigits rest).2)
    | none => ([], b :: rest)

/-- The digits before the point: at least one, and no zero before another. -/
def readWhole (bs : Bytes) : Option (List Digit × Bytes) :=
  match spanDigits bs with
  | ([], _) => none
  | (d :: e :: ds, rest) => if d.val = 0 then none else some (d :: e :: ds, rest)
  | (ds, rest) => some (ds, rest)

/-- A point and at least one digit, or nothing. -/
def readFraction : Bytes → Option (List Digit × Bytes)
  | [] => some ([], [])
  | b :: bs =>
    if b = Ascii.point then
      match spanDigits bs with
      | ([], _) => none
      | (ds, rest) => some (ds, rest)
    else some ([], b :: bs)

/-- An exponent's sign, true for negative; none shown means positive. -/
def readSign : Bytes → Bool × Bytes
  | [] => (false, [])
  | b :: bs =>
    if b = Ascii.minus then (true, bs)
    else if b = Ascii.plus then (false, bs)
    else (false, b :: bs)

/-- An exponent mark, an optional sign and at least one digit, or nothing. -/
def readExponent : Bytes → Option (Option (Bool × List Digit) × Bytes)
  | [] => some (none, [])
  | b :: bs =>
    if b = 0x65 ∨ b = 0x45 then
      match spanDigits (readSign bs).2 with
      | ([], _) => none
      | (ds, rest) => some (some ((readSign bs).1, ds), rest)
    else some (none, b :: bs)

def readMagnitude (negative : Bool) (bs : Bytes) : Option (Number × Bytes) := do
  let (whole, bs) ← readWhole bs
  let (fraction, bs) ← readFraction bs
  let (exponent, bs) ← readExponent bs
  pure (⟨negative, whole, fraction, exponent⟩, bs)

def readNumber : Bytes → Option (Number × Bytes)
  | [] => none
  | b :: bs => if b = Ascii.minus then readMagnitude true bs else readMagnitude false (b :: bs)

def readWord (word : Bytes) (x : Node) (bs : Bytes) : Option (Node × Bytes) :=
  if word.isPrefixOf bs then some (x, bs.drop word.length) else none

/-- A key with its quotes and the colon behind it. -/
def readKey (bs : Bytes) : Option (Bytes × Bytes) :=
  match skipBlanks bs with
  | [] => none
  | b :: rest =>
    if b = Ascii.quote then do
      let (key, rest) ← readRaw [] rest
      match skipBlanks rest with
      | [] => none
      | c :: rest => if c = Ascii.colon then some (key, rest) else none
    else none

mutual
/-- A document and what follows it. The fuel bounds the number of nested calls. -/
def readNode : Nat → Bytes → Option (Node × Bytes)
  | 0, _ => none
  | fuel + 1, bs =>
    match skipBlanks bs with
    | [] => none
    | b :: rest =>
      if b = Ascii.quote then (readRaw [] rest).map fun (raw, rest) => (.string raw, rest)
      else if b = Ascii.openBracket then
        match skipBlanks rest with
        | [] => none
        | c :: rest =>
          if c = Ascii.closeBracket then some (.array [], rest)
          else (readItems fuel (c :: rest)).map fun (items, rest) => (.array items, rest)
      else if b = Ascii.openBrace then
        match skipBlanks rest with
        | [] => none
        | c :: rest =>
          if c = Ascii.closeBrace then some (.object [], rest)
          else (readMembers fuel (c :: rest)).map fun (members, rest) => (.object members, rest)
      else if b = 0x6E then readWord [0x75, 0x6C, 0x6C] .null rest
      else if b = 0x74 then readWord [0x72, 0x75, 0x65] (.bool true) rest
      else if b = 0x66 then readWord [0x61, 0x6C, 0x73, 0x65] (.bool false) rest
      else (readNumber (b :: rest)).map fun (n, rest) => (.number n, rest)

def readItems : Nat → Bytes → Option (List Node × Bytes)
  | 0, _ => none
  | fuel + 1, bs => do
    let (x, rest) ← readNode fuel bs
    match skipBlanks rest with
    | [] => none
    | b :: rest =>
      if b = Ascii.closeBracket then some ([x], rest)
      else if b = Ascii.comma then (readItems fuel rest).map fun (xs, rest) => (x :: xs, rest)
      else none

def readMembers : Nat → Bytes → Option (List (Bytes × Node) × Bytes)
  | 0, _ => none
  | fuel + 1, bs => do
    let (key, rest) ← readKey bs
    let (x, rest) ← readNode fuel rest
    match skipBlanks rest with
    | [] => none
    | b :: rest =>
      if b = Ascii.closeBrace then some ([(key, x)], rest)
      else if b = Ascii.comma then
        (readMembers fuel rest).map fun (xs, rest) => ((key, x) :: xs, rest)
      else none
end

/-- A whole document: only blanks may follow it. A byte accounts for at most
two nested calls, so the fuel never runs out. -/
def Node.read? (bs : Bytes) : Option Node :=
  match readNode (2 * bs.length + 2) bs with
  | some (n, rest) => if (skipBlanks rest).isEmpty then some n else none
  | none => none

end BlockGossip.Json
