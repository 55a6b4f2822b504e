import BlockGossip.Proofs.Json.Fields

/-!
# Documents without a hash

The written form of a document holds a hash exactly where one of its strings or
keys does, and an escaped text exactly where the text does. Records of numbers
have none, nor have texts of digits and slashes.
-/

namespace BlockGossip.Json

mutual
/-- No string and no key of the document holds a hash. -/
def Node.Hashless : Node → Prop
  | .null => True
  | .bool _ => True
  | .number _ => True
  | .string raw => Ascii.hash ∉ raw
  | .array items => ItemsHashless items
  | .object members => MembersHashless members

def ItemsHashless : List Node → Prop
  | [] => True
  | x :: xs => x.Hashless ∧ ItemsHashless xs

def MembersHashless : List (Bytes × Node) → Prop
  | [] => True
  | (key, x) :: rest => Ascii.hash ∉ key ∧ x.Hashless ∧ MembersHashless rest
end

-- ---------------------------------------------------------------------------
-- Written forms
-- ---------------------------------------------------------------------------

theorem hash_not_mem_digits (ds : List Numeral.Digit) : Ascii.hash ∉ ds.map digitByte := by
  have hdigit : ∀ d, digitByte d ≠ Ascii.hash := by decide
  simpa using fun d _ => hdigit d

theorem hash_not_mem_number (n : Number) : Ascii.hash ∉ n.render := by
  obtain ⟨negative, whole, fraction, exponent⟩ := n
  have hwhole := hash_not_mem_digits whole
  have hfraction := hash_not_mem_digits fraction
  have hsign : Ascii.hash ∉ if negative then [Ascii.minus] else [] := by
    cases negative <;> decide
  have hpoint : Ascii.hash ∉
      if fraction.isEmpty then [] else Ascii.point :: fraction.map digitByte := by
    split
    · exact List.not_mem_nil
    · exact List.not_mem_cons_of_ne_of_not_mem (by decide) hfraction
  rw [Number.render]
  simp only [List.mem_append, not_or]
  refine ⟨⟨⟨hsign, hwhole⟩, hpoint⟩, ?_⟩
  split
  · exact List.not_mem_nil
  · rename_i below ds
    refine List.not_mem_cons_of_ne_of_not_mem (by decide)
      (List.not_mem_cons_of_ne_of_not_mem ?_ (hash_not_mem_digits ds))
    cases below <;> decide

theorem hash_not_mem_quoted {raw : Bytes} (h : Ascii.hash ∉ raw) :
    Ascii.hash ∉ renderQuoted raw := by
  have hq : Ascii.hash ≠ Ascii.quote := by decide
  exact List.not_mem_cons_of_ne_of_not_mem hq
    (List.not_mem_append h (List.not_mem_cons_of_ne_of_not_mem hq List.not_mem_nil))

mutual
theorem hash_not_mem_render : ∀ n : Node, n.Hashless → Ascii.hash ∉ n.render
  | .null, _ => by decide
  | .bool true, _ => by decide
  | .bool false, _ => by decide
  | .number n, _ => hash_not_mem_number n
  | .string raw, h => hash_not_mem_quoted h
  | .array [], _ => by decide
  | .array (x :: xs), h => by
    rw [Node.Hashless, ItemsHashless] at h
    rw [Node.render]
    exact List.not_mem_cons_of_ne_of_not_mem (by decide)
      (List.not_mem_append (hash_not_mem_render x h.1) (hash_not_mem_items xs h.2))
  | .object [], _ => by decide
  | .object ((key, x) :: rest), h => by
    rw [Node.Hashless, MembersHashless] at h
    rw [Node.render]
    have hrest := List.not_mem_append (hash_not_mem_render x h.2.1)
      (hash_not_mem_members rest h.2.2)
    exact List.not_mem_cons_of_ne_of_not_mem (by decide)
      (List.not_mem_append (hash_not_mem_quoted h.1)
        (List.not_mem_cons_of_ne_of_not_mem (by decide) hrest))

theorem hash_not_mem_items : ∀ xs : List Node, ItemsHashless xs → Ascii.hash ∉ renderItems xs
  | [], _ => by decide
  | x :: xs, h => by
    rw [ItemsHashless] at h
    rw [renderItems]
    exact List.not_mem_cons_of_ne_of_not_mem (by decide)
      (List.not_mem_append (hash_not_mem_render x h.1) (hash_not_mem_items xs h.2))

theorem hash_not_mem_members : ∀ xs : List (Bytes × Node), MembersHashless xs →
    Ascii.hash ∉ renderMembers xs
  | [], _ => by decide
  | (key, x) :: rest, h => by
    rw [MembersHashless] at h
    rw [renderMembers]
    have hrest := List.not_mem_append (hash_not_mem_render x h.2.1)
      (hash_not_mem_members rest h.2.2)
    exact List.not_mem_cons_of_ne_of_not_mem (by decide)
      (List.not_mem_append (hash_not_mem_quoted h.1)
        (List.not_mem_cons_of_ne_of_not_mem (by decide) hrest))
end

theorem not_mem_of_hash_not_mem_quoted {raw : Bytes} (h : Ascii.hash ∉ renderQuoted raw) :
    Ascii.hash ∉ raw :=
  fun hmem => h (List.mem_cons_of_mem _ (List.mem_append_left _ hmem))

mutual
/-- No string or key hides its hashes in the written form. -/
theorem hashless_of_render : ∀ n : Node, Ascii.hash ∉ n.render → n.Hashless
  | .null, _ => trivial
  | .bool _, _ => trivial
  | .number _, _ => trivial
  | .string _, h => not_mem_of_hash_not_mem_quoted h
  | .array [], _ => trivial
  | .array (x :: xs), h => by
    rw [Node.render, List.mem_cons, List.mem_append, not_or, not_or] at h
    exact ⟨hashless_of_render x h.2.1, itemsHashless_of_render xs h.2.2⟩
  | .object [], _ => trivial
  | .object ((key, x) :: rest), h => by
    rw [Node.render, List.mem_cons, List.mem_append, List.mem_cons, List.mem_append] at h
    simp only [not_or] at h
    exact ⟨not_mem_of_hash_not_mem_quoted h.2.1, hashless_of_render x h.2.2.2.1,
      membersHashless_of_render rest h.2.2.2.2⟩

theorem itemsHashless_of_render : ∀ xs : List Node, Ascii.hash ∉ renderItems xs →
    ItemsHashless xs
  | [], _ => trivial
  | x :: xs, h => by
    rw [renderItems, List.mem_cons, List.mem_append, not_or, not_or] at h
    exact ⟨hashless_of_render x h.2.1, itemsHashless_of_render xs h.2.2⟩

theorem membersHashless_of_render : ∀ xs : List (Bytes × Node), Ascii.hash ∉ renderMembers xs →
    MembersHashless xs
  | [], _ => trivial
  | (key, x) :: rest, h => by
    rw [renderMembers, List.mem_cons, List.mem_append, List.mem_cons, List.mem_append] at h
    simp only [not_or] at h
    exact ⟨not_mem_of_hash_not_mem_quoted h.2.1, hashless_of_render x h.2.2.2.1,
      membersHashless_of_render rest h.2.2.2.2⟩
end

theorem hash_not_mem_render_iff (n : Node) : Ascii.hash ∉ n.render ↔ n.Hashless :=
  ⟨hashless_of_render n, hash_not_mem_render n⟩

-- ---------------------------------------------------------------------------
-- Texts
-- ---------------------------------------------------------------------------

theorem hash_mem_escapeByte {b : Byte} : Ascii.hash ∈ escapeByte b ↔ b = Ascii.hash := by
  constructor
  · have hletter : unescapeLetter? Ascii.hash = none := by decide
    have hdigits : ∀ n < 32, Ascii.hash ≠ hexByte (n / 16) ∧ Ascii.hash ≠ hexByte (n % 16) := by
      decide
    have hmarks : Ascii.hash ∉ [Ascii.backslash, Ascii.letterU, 0x30, 0x30] := by decide
    intro h
    rcases escapeByte_cases b with ⟨letter, he, -, hu⟩ | ⟨he, hb⟩ | ⟨he, -⟩
    · rw [he, List.mem_cons, List.mem_singleton] at h
      obtain rfl := h.resolve_left (by decide)
      exact nomatch hletter.symm.trans hu
    · obtain ⟨h₁, h₂⟩ := hdigits b.toNat hb
      have hparts : Ascii.hash ∈ [Ascii.backslash, Ascii.letterU, 0x30, 0x30] ++
          [hexByte (b.toNat / 16), hexByte (b.toNat % 16)] := by rwa [he] at h
      rcases List.mem_append.mp hparts with h | h
      · exact absurd h hmarks
      · simp [h₁, h₂] at h
    · rw [he, List.mem_singleton] at h
      exact h.symm
  · rintro rfl
    decide

/-- A hash is a byte of a character only as the character. -/
theorem hash_mem_utf8EncodeChar {c : Char} :
    Ascii.hash ∈ String.utf8EncodeChar c ↔ c = '#' := by
  have hbyte (n : Nat) : Ascii.hash = UInt8.ofNat n ↔ n % 256 = 35 := by
    rw [← UInt8.toNat_inj, UInt8.toNat_ofNat']
    exact eq_comm
  have hchar : c = '#' ↔ c.val.toNat = 35 := by
    rw [← Char.val_inj, ← UInt32.toNat_inj]
    rfl
  have hvalid := c.val.toNat_lt
  rw [hchar, String.utf8EncodeChar]
  generalize c.val.toNat = v at hvalid
  split
  · rw [List.mem_singleton, hbyte]
    omega
  split
  · simp only [List.mem_cons, List.not_mem_nil, or_false, hbyte]
    omega
  split
  · simp only [List.mem_cons, List.not_mem_nil, or_false, hbyte]
    omega
  · simp only [List.mem_cons, List.not_mem_nil, or_false, hbyte]
    omega

theorem ofText_eq_flatMap (s : String) :
    Bytes.ofText s = s.toList.flatMap String.utf8EncodeChar := by
  rw [Bytes.ofText, ← String.utf8Encode_toList, List.utf8Encode]
  simp

theorem hash_mem_escape {s : String} : Ascii.hash ∈ escape s ↔ '#' ∈ s.toList := by
  simp only [escape, ofText_eq_flatMap, List.mem_flatMap, hash_mem_escapeByte,
    exists_eq_right, hash_mem_utf8EncodeChar]

-- ---------------------------------------------------------------------------
-- Writers
-- ---------------------------------------------------------------------------

theorem ofText_hashless_iff {s : String} : (ofText s).Hashless ↔ '#' ∉ s.toList :=
  not_congr hash_mem_escape

theorem ofFloat_hashless (x : Float) : (ofFloat x).Hashless := by
  unfold ofFloat
  cases Number.ofFloat? x <;> exact trivial

theorem itemsHashless_iff (xs : List Node) : ItemsHashless xs ↔ ∀ x ∈ xs, x.Hashless := by
  induction xs with
  | nil => simp [ItemsHashless]
  | cons x xs ih => simp [ItemsHashless, ih]

theorem membersHashless_iff (xs : List (Bytes × Node)) :
    MembersHashless xs ↔ ∀ x ∈ xs, Ascii.hash ∉ x.1 ∧ x.2.Hashless := by
  induction xs with
  | nil => simp [MembersHashless]
  | cons x xs ih => simp [MembersHashless, ih, and_assoc]

theorem ofList_hashless_iff {write : α → Node} {xs : List α} :
    (ofList write xs).Hashless ↔ ∀ x ∈ xs, (write x).Hashless := by
  rw [ofList, Node.Hashless, itemsHashless_iff, List.forall_mem_map]

theorem ofList_hashless {write : α → Node} {xs : List α} (h : ∀ x ∈ xs, (write x).Hashless) :
    (ofList write xs).Hashless := ofList_hashless_iff.mpr h

theorem record_hashless_iff {fields : List (String × Node)} :
    (record fields).Hashless ↔ ∀ f ∈ fields, Ascii.hash ∉ escape f.1 ∧ f.2.Hashless := by
  rw [record, Node.Hashless, membersHashless_iff, List.forall_mem_map]

theorem record_hashless {fields : List (String × Node)}
    (h : ∀ f ∈ fields, Ascii.hash ∉ escape f.1 ∧ f.2.Hashless) : (record fields).Hashless :=
  record_hashless_iff.mpr h

end BlockGossip.Json
