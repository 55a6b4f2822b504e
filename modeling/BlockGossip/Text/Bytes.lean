/-!
# Bytes of a text

Peers exchange bytes and the program handles text; the two meet here. A byte
string need not be text, so the way back may fail. `toText?_ofText` says that
it does not fail on the bytes of a text.
-/

namespace BlockGossip

abbrev Byte := UInt8

abbrev Bytes := List UInt8

namespace Bytes

def ofText (s : String) : Bytes := s.toByteArray.data.toList

def toText? (bytes : Bytes) : Option String := String.fromUTF8? ⟨bytes.toArray⟩

theorem toText?_ofText (s : String) : toText? (ofText s) = some s := by
  have h : (⟨(ofText s).toArray⟩ : ByteArray) = s.toByteArray := by simp [ofText]
  simp [toText?, String.fromUTF8?, h, s.isValidUTF8, String.fromUTF8]

end Bytes

-- ---------------------------------------------------------------------------
-- The ASCII bytes that documents and frames give a meaning to
-- ---------------------------------------------------------------------------

namespace Ascii

abbrev tab : Byte := 0x09
abbrev newline : Byte := 0x0A
abbrev formFeed : Byte := 0x0C
abbrev carriageReturn : Byte := 0x0D
abbrev space : Byte := 0x20
abbrev quote : Byte := 0x22
abbrev hash : Byte := 0x23
abbrev plus : Byte := 0x2B
abbrev comma : Byte := 0x2C
abbrev minus : Byte := 0x2D
abbrev point : Byte := 0x2E
abbrev slash : Byte := 0x2F
abbrev colon : Byte := 0x3A
abbrev openBracket : Byte := 0x5B
abbrev backslash : Byte := 0x5C
abbrev closeBracket : Byte := 0x5D
abbrev letterU : Byte := 0x75
abbrev openBrace : Byte := 0x7B
abbrev closeBrace : Byte := 0x7D

/-- A document's blanks between tokens: space, tab, line feed, carriage return. -/
def isDocumentBlank (b : Byte) : Bool :=
  b == space || b == tab || b == newline || b == carriageReturn

/-- A byte of a blank frame: a document blank or a form feed. -/
def isFrameBlank (b : Byte) : Bool := isDocumentBlank b || b == formFeed

end Ascii

end BlockGossip
