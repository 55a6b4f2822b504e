import BlockGossip.Proofs.Json.Numbers
import BlockGossip.Proofs.Json.Strings

/-!
# Documents read back

A document whose strings and numbers are proper is read back from its compact
form, whatever stands behind it. The induction is on the document and follows
the reader's fuel: a byte of the written form pays for two nested calls.
-/

namespace BlockGossip.Json

/-- Between quotes the bytes are read up to the closing quote. -/
def Quotable (raw : Bytes) : Prop :=
  ∀ rest, readRaw [] (raw ++ Ascii.quote :: rest) = some (raw, rest)

theorem escape_quotable (s : String) : Quotable (escape s) := readRaw_escape s

mutual
/-- Every string and number of the document is read back. -/
def Node.Proper : Node → Prop
  | .null => True
  | .bool _ => True
  | .number n => n.Proper
  | .string raw => Quotable raw
  | .array items => ItemsProper items
  | .object members => MembersProper members

def ItemsProper : List Node → Prop
  | [] => True
  | x :: xs => x.Proper ∧ ItemsProper xs

def MembersProper : List (Bytes × Node) → Prop
  | [] => True
  | (key, x) :: rest => Quotable key ∧ x.Proper ∧ MembersProper rest
end

variable {rest : Bytes} {fuel : Nat}

theorem ends_comma (rest : Bytes) : Ends (Ascii.comma :: rest) := by
  intro b hb
  exact .inl (Option.some.inj hb).symm

theorem ends_closeBracket (rest : Bytes) : Ends (Ascii.closeBracket :: rest) := by
  intro b hb
  exact .inr (.inl (Option.some.inj hb).symm)

theorem ends_closeBrace (rest : Bytes) : Ends (Ascii.closeBrace :: rest) := by
  intro b hb
  exact .inr (.inr (Option.some.inj hb).symm)

theorem ends_nil : Ends [] := nofun

theorem renderItems_ends (xs : List Node) (rest : Bytes) : Ends (renderItems xs ++ rest) := by
  cases xs with
  | nil => exact ends_closeBracket rest
  | cons x xs => exact ends_comma _

theorem renderMembers_ends (xs : List (Bytes × Node)) (rest : Bytes) :
    Ends (renderMembers xs ++ rest) := by
  cases xs with
  | nil => exact ends_closeBrace rest
  | cons x xs => exact ends_comma _

theorem skipBlanks_cons {b : Byte} (h : Ascii.isDocumentBlank b = false) (rest : Bytes) :
    skipBlanks (b :: rest) = b :: rest := by
  simp [skipBlanks, h]

-- ---------------------------------------------------------------------------
-- Leaves
-- ---------------------------------------------------------------------------

theorem readKey_render {key : Bytes} (hk : Quotable key) (rest : Bytes) :
    readKey (renderQuoted key ++ Ascii.colon :: rest) = some (key, rest) := by
  have hraw := hk (Ascii.colon :: rest)
  rw [renderQuoted, List.cons_append, List.append_assoc, readKey, skipBlanks_cons (by decide)]
  simp only [if_true, List.cons_append, List.nil_append, hraw, Option.bind_eq_bind,
    Option.bind_some, skipBlanks_cons (show Ascii.isDocumentBlank Ascii.colon = false by decide)]

theorem readNode_string {raw : Bytes} (hr : Quotable raw) (rest : Bytes) :
    readNode (fuel + 1) (renderQuoted raw ++ rest) = some (.string raw, rest) := by
  rw [renderQuoted, List.cons_append, List.append_assoc, readNode, skipBlanks_cons (by decide)]
  simp only [if_true, List.cons_append, List.nil_append, hr rest, Option.map_some]

/-- A number starts with a digit or a sign, and with nothing else that a
document may start with. -/
theorem Number.render_head {n : Number} (hn : n.Proper) :
    ∃ b tail, n.render = b :: tail ∧ Ascii.isDocumentBlank b = false ∧ b ≠ Ascii.quote ∧
      b ≠ Ascii.openBracket ∧ b ≠ Ascii.openBrace ∧ b ≠ 0x6E ∧ b ≠ 0x74 ∧ b ≠ 0x66 := by
  obtain ⟨d, ds, hwhole, -⟩ := hn.whole
  rw [Number.render_eq, hwhole]
  cases n.negative with
  | true => exact ⟨Ascii.minus, _, rfl, by decide⟩
  | false =>
    have hdigit : ∀ d, Ascii.isDocumentBlank (digitByte d) = false ∧
        digitByte d ≠ Ascii.quote ∧ digitByte d ≠ Ascii.openBracket ∧
        digitByte d ≠ Ascii.openBrace ∧ digitByte d ≠ 0x6E ∧ digitByte d ≠ 0x74 ∧
        digitByte d ≠ 0x66 := by decide
    exact ⟨digitByte d, _, rfl, hdigit d⟩

theorem readNode_number {n : Number} (hn : n.Proper) (h : Ends rest) :
    readNode (fuel + 1) (n.render ++ rest) = some (.number n, rest) := by
  obtain ⟨b, tail, hrender, hblank, hquote, hbracket, hbrace, hn', ht, hf⟩ :=
    Number.render_head hn
  have hread := readNumber_render hn h
  rw [hrender, List.cons_append] at hread
  rw [hrender, List.cons_append, readNode, skipBlanks_cons hblank]
  simp only [hquote, hbracket, hbrace, hn', ht, hf, if_false, hread, Option.map_some]

theorem readNode_word (x : Node) (h : x = .null ∨ ∃ b, x = .bool b) (rest : Bytes) :
    readNode (fuel + 1) (x.render ++ rest) = some (x, rest) := by
  rcases h with rfl | ⟨b, rfl⟩
  · rfl
  · cases b <;> rfl

-- ---------------------------------------------------------------------------
-- Trees
-- ---------------------------------------------------------------------------

/-- A document starts with no blank and closes no list. -/
theorem Node.render_head {n : Node} (hn : n.Proper) :
    ∃ b tail, n.render = b :: tail ∧ Ascii.isDocumentBlank b = false ∧
      b ≠ Ascii.closeBracket := by
  cases n with
  | null => exact ⟨0x6E, _, rfl, by decide⟩
  | bool b => cases b <;> exact ⟨_, _, rfl, by decide⟩
  | number n =>
    rw [Node.Proper] at hn
    obtain ⟨d, ds, hwhole, -⟩ := hn.whole
    have hdigit : ∀ d, Ascii.isDocumentBlank (digitByte d) = false ∧
        digitByte d ≠ Ascii.closeBracket := by decide
    rw [Node.render, Number.render_eq, hwhole]
    cases n.negative with
    | true => exact ⟨Ascii.minus, _, rfl, by decide⟩
    | false => exact ⟨digitByte d, _, rfl, hdigit d⟩
  | string raw => exact ⟨Ascii.quote, _, rfl, by decide⟩
  | array items => cases items <;> exact ⟨Ascii.openBracket, _, rfl, by decide⟩
  | object members =>
    cases members with
    | nil => exact ⟨Ascii.openBrace, _, rfl, by decide⟩
    | cons member rest => exact ⟨Ascii.openBrace, _, rfl, by decide⟩

theorem renderItems_length_pos (xs : List Node) : 0 < (renderItems xs).length := by
  cases xs <;> simp [renderItems]

mutual
theorem readNode_render : ∀ (n : Node), n.Proper → ∀ (rest : Bytes), Ends rest → ∀ fuel : Nat,
    2 * n.render.length ≤ fuel → readNode fuel (n.render ++ rest) = some (n, rest)
  | n, hn, rest, h, 0, hf => by
    obtain ⟨b, tail, hrender, -⟩ := Node.render_head hn
    simp [hrender] at hf
  | .null, _, rest, _, fuel + 1, _ => readNode_word .null (.inl rfl) rest
  | .bool b, _, rest, _, fuel + 1, _ => readNode_word (.bool b) (.inr ⟨b, rfl⟩) rest
  | .number n, hn, rest, h, fuel + 1, _ => readNode_number hn h
  | .string raw, hr, rest, _, fuel + 1, _ => readNode_string hr rest
  | .array [], _, rest, _, fuel + 1, _ => rfl
  | .array (x :: xs), hxs, rest, h, fuel + 1, hf => by
    rw [Node.Proper, ItemsProper] at hxs
    simp only [Node.render, List.length_cons, List.length_append] at hf
    have hitems := readItems_render x xs hxs.1 hxs.2 rest fuel (by
      simp only [List.length_append]
      omega)
    obtain ⟨b, tail, hrender, hblank, hclose⟩ := Node.render_head hxs.1
    rw [hrender, List.cons_append] at hitems
    rw [Node.render, List.cons_append, List.append_assoc, hrender, List.cons_append, readNode,
      skipBlanks_cons (by decide)]
    simp only [skipBlanks_cons hblank, hclose, if_false, hitems]
    rfl
  | .object [], _, rest, _, fuel + 1, _ => rfl
  | .object ((key, x) :: members), hm, rest, h, fuel + 1, hf => by
    rw [Node.Proper, MembersProper] at hm
    simp only [Node.render, List.length_cons, List.length_append] at hf
    have hmembers := readMembers_render key x members hm.1 hm.2.1 hm.2.2 rest fuel (by
      simp only [List.length_append, List.length_cons]
      omega)
    have hquoted : renderQuoted key = Ascii.quote :: (key ++ [Ascii.quote]) := rfl
    rw [Node.render, hquoted]
    rw [hquoted] at hmembers
    simp only [List.cons_append, List.append_assoc] at hmembers ⊢
    rw [readNode, skipBlanks_cons (by decide)]
    simp only [skipBlanks_cons (show Ascii.isDocumentBlank Ascii.quote = false by decide),
      hmembers]
    rfl

theorem readItems_render : ∀ (x : Node) (xs : List Node), x.Proper → ItemsProper xs →
    ∀ (rest : Bytes) (fuel : Nat), 2 * (x.render ++ renderItems xs).length ≤ fuel →
    readItems fuel (x.render ++ (renderItems xs ++ rest)) = some (x :: xs, rest)
  | x, xs, hx, hxs, rest, 0, hf => by
    have := renderItems_length_pos xs
    simp only [List.length_append] at hf
    omega
  | x, [], hx, _, rest, fuel + 1, hf => by
    have := renderItems_length_pos []
    simp only [List.length_append] at hf
    have hnode := readNode_render x hx (renderItems [] ++ rest) (renderItems_ends _ _) fuel
      (by omega)
    rw [readItems, hnode]
    rfl
  | x, y :: ys, hx, hys, rest, fuel + 1, hf => by
    rw [ItemsProper] at hys
    simp only [List.length_append, renderItems, List.length_cons] at hf
    have hnode := readNode_render x hx (renderItems (y :: ys) ++ rest) (renderItems_ends _ _) fuel
      (by omega)
    have hrest := readItems_render y ys hys.1 hys.2 rest fuel (by
      simp only [List.length_append]
      omega)
    rw [readItems, hnode]
    simp only [renderItems, List.cons_append, Option.bind_eq_bind, Option.bind_some,
      skipBlanks_cons (show Ascii.isDocumentBlank Ascii.comma = false by decide),
      List.append_assoc, hrest]
    rfl

theorem readMembers_render : ∀ (key : Bytes) (x : Node) (members : List (Bytes × Node)),
    Quotable key → x.Proper → MembersProper members → ∀ (rest : Bytes) (fuel : Nat),
    2 * (renderQuoted key ++ Ascii.colon :: (x.render ++ renderMembers members)).length ≤ fuel →
    readMembers fuel
        (renderQuoted key ++ Ascii.colon :: (x.render ++ (renderMembers members ++ rest))) =
      some ((key, x) :: members, rest)
  | key, x, members, _, _, _, rest, 0, hf => by
    simp only [List.length_append, List.length_cons] at hf
    omega
  | key, x, [], hk, hx, _, rest, fuel + 1, hf => by
    simp only [List.length_append, List.length_cons] at hf
    have hnode := readNode_render x hx (renderMembers [] ++ rest) (renderMembers_ends _ _) fuel
      (by omega)
    rw [readMembers, readKey_render hk]
    simp only [Option.bind_eq_bind, Option.bind_some]
    rw [hnode]
    rfl
  | key, x, (key', y) :: members, hk, hx, hm, rest, fuel + 1, hf => by
    rw [MembersProper] at hm
    simp only [List.length_append, List.length_cons, renderMembers] at hf
    have hnode := readNode_render x hx (renderMembers ((key', y) :: members) ++ rest)
      (renderMembers_ends _ _) fuel (by omega)
    have hrest := readMembers_render key' y members hm.1 hm.2.1 hm.2.2 rest fuel (by
      simp only [List.length_append, List.length_cons]
      omega)
    rw [readMembers, readKey_render hk]
    simp only [Option.bind_eq_bind, Option.bind_some]
    rw [hnode]
    simp only [renderMembers, List.cons_append, Option.bind_some,
      skipBlanks_cons (show Ascii.isDocumentBlank Ascii.comma = false by decide),
      List.append_assoc, hrest]
    rfl
end

/-- A proper document is read back from its compact form. -/
theorem Node.read?_render {n : Node} (hn : n.Proper) : Node.read? n.render = some n := by
  have hread := readNode_render n hn [] ends_nil (2 * n.render.length + 2) (by omega)
  rw [List.append_nil] at hread
  rw [Node.read?, hread]
  rfl

end BlockGossip.Json
