/-!
# Blank characters

The characters with the Unicode property White_Space (version 15.1), as
closed ranges, and trimming by it. Identifiers and settings are trimmed with
this set; it is larger than the four blanks a document may hold between its
tokens and than the five bytes that make a frame blank.
-/

namespace BlockGossip.Text

/-- Closed ranges of code points, ascending and apart. -/
def blankRanges : List (Nat × Nat) :=
  [(0x09, 0x0D), (0x20, 0x20), (0x85, 0x85), (0xA0, 0xA0), (0x1680, 0x1680), (0x2000, 0x200A),
   (0x2028, 0x2029), (0x202F, 0x202F), (0x205F, 0x205F), (0x3000, 0x3000)]

/-- The character has the property White_Space. -/
def isBlank (c : Char) : Bool :=
  blankRanges.any fun range => range.1 ≤ c.toNat && c.toNat ≤ range.2

def trimList (cs : List Char) : List Char :=
  ((cs.dropWhile isBlank).reverse.dropWhile isBlank).reverse

def trim (s : String) : String := String.ofList (trimList s.toList)

/-- ASCII letters become small, all else stays. -/
def lower (s : String) : String := String.ofList (s.toList.map Char.toLower)

/-- The text without its hyphens and underscores, so that `send-headers` and
`send_headers` are one spelling. -/
def joined (s : String) : String :=
  String.ofList (s.toList.filter fun c => c != '-' && c != '_')

end BlockGossip.Text
