import BlockGossip.Json.Record

/-!
# Strings read back

What a text becomes between quotes is taken byte by byte, and read byte by byte
again: the reader of documents finds the end of it, and the reader of strings
the text.
-/

namespace BlockGossip.Json

/-- The five forms a byte takes between quotes. -/
theorem escapeByte_cases (b : Byte) :
    (∃ letter, escapeByte b = [Ascii.backslash, letter] ∧ letter ≠ Ascii.letterU ∧
        unescapeLetter? letter = some b) ∨
      (escapeByte b =
          [Ascii.backslash, Ascii.letterU, 0x30, 0x30, hexByte (b.toNat / 16),
            hexByte (b.toNat % 16)] ∧ b < 0x20) ∨
      (escapeByte b = [b] ∧ b ≠ Ascii.quote ∧ b ≠ Ascii.backslash ∧ ¬b < 0x20) := by
  unfold escapeByte
  split
  · rename_i h
    rcases h with rfl | rfl
    · exact .inl ⟨_, rfl, by decide, by decide⟩
    · exact .inl ⟨_, rfl, by decide, by decide⟩
  rename_i hq
  split
  · rename_i h
    exact .inl ⟨_, rfl, by decide, h ▸ by decide⟩
  split
  · rename_i h
    exact .inl ⟨_, rfl, by decide, h ▸ by decide⟩
  split
  · rename_i h
    exact .inl ⟨_, rfl, by decide, h ▸ by decide⟩
  split
  · rename_i h
    exact .inl ⟨_, rfl, by decide, h ▸ by decide⟩
  split
  · rename_i h
    exact .inl ⟨_, rfl, by decide, h ▸ by decide⟩
  split
  · rename_i h
    exact .inr (.inl ⟨rfl, h⟩)
  · rename_i h
    rw [not_or] at hq
    exact .inr (.inr ⟨rfl, hq.1, hq.2, h⟩)

/-- The two digits of a control character mean it. -/
theorem hexValue?_control : ∀ n < 32, hexValue? (hexByte (n / 16)) = some (n / 16) ∧
    hexValue? (hexByte (n % 16)) = some (n % 16) := by decide

theorem utf8EncodeChar_control : ∀ n < 32,
    String.utf8EncodeChar (Char.ofNat n) = [UInt8.ofNat n] := by decide

-- ---------------------------------------------------------------------------
-- The end of a string
-- ---------------------------------------------------------------------------

theorem readRaw_escapeByte (found : Bytes) (b : Byte) (tail : Bytes) :
    readRaw found (escapeByte b ++ tail) = readRaw ((escapeByte b).reverse ++ found) tail := by
  have hne : Ascii.backslash ≠ Ascii.quote := by decide
  rcases escapeByte_cases b with ⟨letter, he, hu, hl⟩ | ⟨he, hb⟩ | ⟨he, hq, hs, hb⟩
  · rw [he, List.cons_append, List.cons_append, readRaw.eq_def]
    simp only [hne, hu, hl, if_true, if_false, Option.isSome_some]
    rfl
  · obtain ⟨h₁, h₂⟩ := hexValue?_control b.toNat hb
    have h₀ : hexValue? 0x30 = some 0 := by decide
    rw [he, List.cons_append, List.cons_append, readRaw.eq_def]
    simp only [hne, if_true, if_false]
    simp only [List.cons_append, List.all_cons, h₀, h₁, h₂, List.all_nil, Option.isSome_some,
      Bool.and_self, if_true]
    rfl
  · rw [he, List.cons_append, readRaw.eq_def]
    simp only [hq, hs, hb, if_false]
    rfl

theorem readRaw_escaped (found bs rest : Bytes) :
    readRaw found (bs.flatMap escapeByte ++ Ascii.quote :: rest) =
      some (found.reverse ++ bs.flatMap escapeByte, rest) := by
  induction bs generalizing found with
  | nil =>
    rw [List.flatMap_nil, List.nil_append, readRaw.eq_def]
    simp
  | cons b bs ih =>
    rw [List.flatMap_cons, List.append_assoc, readRaw_escapeByte, ih]
    simp

/-- The bytes of a text between quotes are read up to the closing quote. -/
theorem readRaw_escape (s : String) (rest : Bytes) :
    readRaw [] (escape s ++ Ascii.quote :: rest) = some (escape s, rest) :=
  readRaw_escaped [] _ rest

-- ---------------------------------------------------------------------------
-- The text of a string
-- ---------------------------------------------------------------------------

theorem codePoint?_control {b : Byte} (hb : b < 0x20) (tail : Bytes) :
    codePoint? (0x30 :: 0x30 :: hexByte (b.toNat / 16) :: hexByte (b.toNat % 16) :: tail) =
      some (b.toNat, tail) := by
  obtain ⟨h₁, h₂⟩ := hexValue?_control b.toNat hb
  have h₀ : hexValue? 0x30 = some 0 := by decide
  have hlt : b.toNat < 32 := hb
  have hvalue : ((0 * 16 + 0) * 16 + b.toNat / 16) * 16 + b.toNat % 16 = b.toNat := by omega
  simp only [codePoint?, unit?, h₀, h₁, h₂, Option.bind_eq_bind, Option.bind_some,
    Option.pure_def, hvalue]
  rw [if_neg (by omega), if_neg (by omega)]

theorem unescapeFrom_escapeByte (found : Bytes) (b : Byte) (tail : Bytes) :
    unescapeFrom found (escapeByte b ++ tail) = unescapeFrom (b :: found) tail := by
  rcases escapeByte_cases b with ⟨letter, he, hu, hl⟩ | ⟨he, hb⟩ | ⟨he, hq, hs, hb⟩
  · rw [he, List.cons_append, List.cons_append, unescapeFrom.eq_def]
    simp only [hu, hl, if_true, if_false]
    rfl
  · have hcode := codePoint?_control hb tail
    rw [he, List.cons_append, List.cons_append, unescapeFrom.eq_def]
    simp only [if_true]
    split
    · rename_i h
      exact absurd (hcode.symm.trans h) (Option.some_ne_none _)
    · rename_i n rest h
      obtain ⟨rfl, rfl⟩ := Prod.mk.inj (Option.some.inj (hcode.symm.trans h))
      rw [utf8EncodeChar_control b.toNat hb, UInt8.ofNat_toNat]
      rfl
  · rw [he, List.cons_append, unescapeFrom.eq_def]
    simp only [hs, hb, if_false]
    rfl

theorem unescapeFrom_escaped (found bs : Bytes) :
    unescapeFrom found (bs.flatMap escapeByte) = some (found.reverse ++ bs) := by
  induction bs generalizing found with
  | nil => simp [unescapeFrom]
  | cons b bs ih =>
    rw [List.flatMap_cons, unescapeFrom_escapeByte, ih]
    simp

@[simp] theorem text?_escape (s : String) : text? (escape s) = some s := by
  rw [text?, escape, unescapeFrom_escaped]
  exact Bytes.toText?_ofText s

end BlockGossip.Json
