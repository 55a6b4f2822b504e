import BlockGossip.Json.Node

/-!
# Strings of a document

Between its quotes a string holds UTF-8 text in which the quote, the backslash
and the control characters are escaped. Escaping works byte by byte: only ASCII
bytes change, and no byte of a longer character is ASCII. Reading also accepts
the escapes that writing never uses; an escape for half of a surrogate pair is
accepted only beside its other half.
-/

namespace BlockGossip.Json

def hexByte (n : Nat) : Byte := if n < 10 then UInt8.ofNat (48 + n) else UInt8.ofNat (87 + n)

def hexValue? (b : Byte) : Option Nat :=
  if 0x30 ≤ b ∧ b ≤ 0x39 then some (b.toNat - 48)
  else if 0x61 ≤ b ∧ b ≤ 0x66 then some (b.toNat - 87)
  else if 0x41 ≤ b ∧ b ≤ 0x46 then some (b.toNat - 55)
  else none

def escapeByte (b : Byte) : Bytes :=
  if b = Ascii.quote ∨ b = Ascii.backslash then [Ascii.backslash, b]
  else if b = 0x08 then [Ascii.backslash, 0x62]
  else if b = Ascii.formFeed then [Ascii.backslash, 0x66]
  else if b = Ascii.newline then [Ascii.backslash, 0x6E]
  else if b = Ascii.carriageReturn then [Ascii.backslash, 0x72]
  else if b = Ascii.tab then [Ascii.backslash, 0x74]
  else if b < 0x20 then
    [Ascii.backslash, 0x75, 0x30, 0x30, hexByte (b.toNat / 16), hexByte (b.toNat % 16)]
  else [b]

def escape (s : String) : Bytes := (Bytes.ofText s).flatMap escapeByte

def unescapeLetter? (b : Byte) : Option Byte :=
  if b = Ascii.quote ∨ b = Ascii.backslash ∨ b = Ascii.slash then some b
  else if b = 0x62 then some 0x08
  else if b = 0x66 then some Ascii.formFeed
  else if b = 0x6E then some Ascii.newline
  else if b = 0x72 then some Ascii.carriageReturn
  else if b = 0x74 then some Ascii.tab
  else none

def unit? : Bytes → Option (Nat × Bytes)
  | a :: b :: c :: d :: rest => do
    let a ← hexValue? a
    let b ← hexValue? b
    let c ← hexValue? c
    let d ← hexValue? d
    pure (((a * 16 + b) * 16 + c) * 16 + d, rest)
  | _ => none

theorem unit?_length {bs rest : Bytes} {n : Nat} (h : unit? bs = some (n, rest)) :
    rest.length < bs.length := by
  unfold unit? at h
  split at h
  · simp only [Option.bind_eq_bind, Option.bind_eq_some_iff, Option.pure_def, Option.some.injEq,
      Prod.mk.injEq] at h
    obtain ⟨_, _, _, _, _, _, _, _, _, rfl⟩ := h
    simp only [List.length_cons]
    omega
  · simp at h

/-- The code point of the escape whose digits come next, and what follows: a
unit of its own, or a leading surrogate and the escape of a trailing one. -/
def codePoint? (bs : Bytes) : Option (Nat × Bytes) := do
  let (high, rest) ← unit? bs
  if 0xDC00 ≤ high ∧ high ≤ 0xDFFF then none
  else if 0xD800 ≤ high ∧ high ≤ 0xDBFF then
    match rest with
    | a :: b :: rest =>
      if a = Ascii.backslash ∧ b = Ascii.letterU then do
        let (low, rest) ← unit? rest
        if 0xDC00 ≤ low ∧ low ≤ 0xDFFF then
          pure (0x10000 + (high - 0xD800) * 0x400 + (low - 0xDC00), rest)
        else none
      else none
    | _ => none
  else pure (high, rest)

theorem codePoint?_length {bs rest : Bytes} {n : Nat} (h : codePoint? bs = some (n, rest)) :
    rest.length < bs.length := by
  simp only [codePoint?, Option.bind_eq_bind, Option.bind_eq_some_iff, Prod.exists] at h
  obtain ⟨high, mid, hmid, h⟩ := h
  have hlen := unit?_length hmid
  split at h
  · simp at h
  split at h
  · split at h
    · split at h
      · simp only [Option.bind_eq_some_iff, Prod.exists] at h
        obtain ⟨low, last, hlast, h⟩ := h
        have hlen' := unit?_length hlast
        split at h
        · simp only [Option.pure_def, Option.some.injEq, Prod.mk.injEq] at h
          obtain ⟨_, rfl⟩ := h
          simp only [List.length_cons] at hlen
          omega
        · simp at h
      · simp at h
    · simp at h
  · simp only [Option.pure_def, Option.some.injEq, Prod.mk.injEq] at h
    obtain ⟨_, rfl⟩ := h
    exact hlen

/-- The bytes that a string stands for, behind those already found, which are
held in reverse. -/
def unescapeFrom (found : Bytes) : Bytes → Option Bytes
  | [] => some found.reverse
  | b :: rest =>
    if b = Ascii.backslash then
      match rest with
      | [] => none
      | letter :: rest =>
        if letter = Ascii.letterU then
          match h : codePoint? rest with
          | none => none
          | some (n, rest') =>
            have := codePoint?_length h
            unescapeFrom ((String.utf8EncodeChar (Char.ofNat n)).reverse ++ found) rest'
        else
          match unescapeLetter? letter with
          | none => none
          | some b => unescapeFrom (b :: found) rest
    else if b < 0x20 then none
    else unescapeFrom (b :: found) rest
termination_by bs => bs.length

/-- The text that a string stands for; none where an escape is wrong or the
bytes are not UTF-8. -/
def text? (raw : Bytes) : Option String := (unescapeFrom [] raw).bind Bytes.toText?

end BlockGossip.Json
