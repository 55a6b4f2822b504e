import BlockGossip.Text.Bytes
import BlockGossip.Text.Numeral

/-!
# Documents

A JSON document as a tree of lexemes: a string keeps the bytes between its
quotes, a number its digits. What a lexeme means, and whether it means
anything, is decided by whoever reads it, because a value nobody asks for is
only skimmed. `Node.render` writes the compact form.
-/

namespace BlockGossip.Json

open Numeral (Digit)

/-- A number as written. An empty fraction means that there is no point; an
exponent is its sign, true for negative, and its digits. -/
structure Number where
  negative : Bool
  whole : List Digit
  fraction : List Digit
  exponent : Option (Bool × List Digit)
deriving DecidableEq, Repr, Inhabited

/-- A document, with strings and keys as the bytes between their quotes. -/
inductive Node where
  | null
  | bool (value : Bool)
  | number (value : Number)
  | string (raw : Bytes)
  | array (items : List Node)
  | object (members : List (Bytes × Node))
deriving Repr, Inhabited

def digitByte (d : Digit) : Byte := UInt8.ofNat (48 + d.val)

/-- The written form of a number; an exponent always shows its sign. -/
def Number.render (n : Number) : Bytes :=
  (if n.negative then [Ascii.minus] else []) ++ n.whole.map digitByte ++
    (if n.fraction.isEmpty then [] else Ascii.point :: n.fraction.map digitByte) ++
    match n.exponent with
    | none => []
    | some (negative, ds) =>
      0x65 :: (if negative then Ascii.minus else Ascii.plus) :: ds.map digitByte

def renderQuoted (raw : Bytes) : Bytes := Ascii.quote :: (raw ++ [Ascii.quote])

mutual
def Node.render : Node → Bytes
  | .null => [0x6E, 0x75, 0x6C, 0x6C]
  | .bool true => [0x74, 0x72, 0x75, 0x65]
  | .bool false => [0x66, 0x61, 0x6C, 0x73, 0x65]
  | .number n => n.render
  | .string raw => renderQuoted raw
  | .array [] => [Ascii.openBracket, Ascii.closeBracket]
  | .array (x :: xs) => Ascii.openBracket :: (x.render ++ renderItems xs)
  | .object [] => [Ascii.openBrace, Ascii.closeBrace]
  | .object ((key, x) :: rest) =>
    Ascii.openBrace :: (renderQuoted key ++ Ascii.colon :: (x.render ++ renderMembers rest))

/-- The items after the first, and the closing bracket. -/
def renderItems : List Node → Bytes
  | [] => [Ascii.closeBracket]
  | x :: xs => Ascii.comma :: (x.render ++ renderItems xs)

def renderMembers : List (Bytes × Node) → Bytes
  | [] => [Ascii.closeBrace]
  | (key, x) :: rest =>
    Ascii.comma :: (renderQuoted key ++ Ascii.colon :: (x.render ++ renderMembers rest))
end

end BlockGossip.Json
