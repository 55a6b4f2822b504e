import BlockGossip.Json.Node

/-!
# Documents for people

The indented written form: two blanks a level, one item or member a line, a
blank behind a key's colon. An empty array or object stays on one line.
-/

namespace BlockGossip.Json

/-- A new line at a level of indentation. -/
def lineAt (level : Nat) : Bytes := Ascii.newline :: List.replicate (2 * level) Ascii.space

mutual
def Node.pretty (level : Nat) : Node → Bytes
  | .array (x :: xs) =>
    Ascii.openBracket :: (lineAt (level + 1) ++ x.pretty (level + 1) ++ prettyItems level xs)
  | .object ((key, x) :: rest) =>
    Ascii.openBrace :: (lineAt (level + 1) ++ renderQuoted key ++ Ascii.colon :: Ascii.space ::
      (x.pretty (level + 1) ++ prettyMembers level rest))
  | n => n.render

/-- The items after the first, and the closing bracket on a line of its own. -/
def prettyItems (level : Nat) : List Node → Bytes
  | [] => lineAt level ++ [Ascii.closeBracket]
  | x :: xs =>
    Ascii.comma :: (lineAt (level + 1) ++ x.pretty (level + 1) ++ prettyItems level xs)

def prettyMembers (level : Nat) : List (Bytes × Node) → Bytes
  | [] => lineAt level ++ [Ascii.closeBrace]
  | (key, x) :: rest =>
    Ascii.comma :: (lineAt (level + 1) ++ renderQuoted key ++ Ascii.colon :: Ascii.space ::
      (x.pretty (level + 1) ++ prettyMembers level rest))
end

end BlockGossip.Json
