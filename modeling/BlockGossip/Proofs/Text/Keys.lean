import BlockGossip.BlockId
import BlockGossip.Text.Bytes

/-!
# Keys read back

A key holds digits and one slash, so it is cut where its height ends, nothing
is trimmed off its halves, and both numbers fit their words.
-/

namespace BlockGossip

namespace Numeral

theorem mapM_digit? (ds : List Digit) : (ds.map digitChar).mapM digit? = some ds := by
  induction ds with
  | nil => rfl
  | cons d ds ih => simp [digit?_digitChar, ih]

theorem digitChar_plain :
    ∀ d, digitChar d ≠ '/' ∧ digitChar d ≠ '+' ∧ Text.isBlank (digitChar d) = false := by
  decide

theorem text_toList (n : Nat) : (text n).toList = (digits n).map digitChar := by
  simp [text]

/-- A numeral is read back where its number stays below the limit. -/
theorem read?_digits {n limit : Nat} (h : n < limit) :
    read? limit ((digits n).map digitChar) = some n := by
  have hplus : ¬((digits n).map digitChar).head? = some '+' := by
    cases digits n with
    | nil => simp
    | cons d ds => simpa using (digitChar_plain d).2.1
  have hne : ((digits n).map digitChar).isEmpty = false := by
    simpa using digits_ne_nil n
  rw [read?, if_neg hplus, digits?, if_neg (by simp [hne]), mapM_digit?]
  simp [value_digits, h]

end Numeral

namespace Text

/-- A text is cut at the first character that fails. -/
theorem cut_at {p : Char → Bool} {left : List Char} {c : Char} (hleft : ∀ x ∈ left, p x = true)
    (hc : p c = false) (right : List Char) :
    (left ++ c :: right).takeWhile p = left ∧ (left ++ c :: right).dropWhile p = c :: right := by
  simp [List.takeWhile_append_of_pos hleft, List.dropWhile_append_of_pos hleft, hc]

theorem dropWhile_isBlank {cs : List Char} (h : ∀ c ∈ cs, isBlank c = false) :
    cs.dropWhile isBlank = cs := by
  cases cs with
  | nil => rfl
  | cons c cs => simp [h c (List.mem_cons_self ..)]

/-- Nothing is trimmed off a text that holds no blank. -/
theorem trimList_of_plain {cs : List Char} (h : ∀ c ∈ cs, isBlank c = false) :
    trimList cs = cs := by
  rw [trimList, dropWhile_isBlank h, dropWhile_isBlank fun c hc => h c (List.mem_reverse.mp hc),
    List.reverse_reverse]

theorem trimList_digits (n : Nat) :
    trimList ((Numeral.digits n).map Numeral.digitChar) =
      (Numeral.digits n).map Numeral.digitChar := by
  refine trimList_of_plain fun c hc => ?_
  obtain ⟨d, -, rfl⟩ := List.mem_map.mp hc
  exact (Numeral.digitChar_plain d).2.2

end Text

namespace BlockId

theorem key_toList (id : BlockId) :
    id.key.toList = (Numeral.digits id.height.toNat).map Numeral.digitChar ++
      '/' :: (Numeral.digits id.miner.toNat).map Numeral.digitChar := by
  simp [key, Numeral.text_toList]

/-- A key is read back. -/
theorem parse_key (id : BlockId) : parse id.key = .ok id := by
  have hheight : ∀ c ∈ (Numeral.digits id.height.toNat).map Numeral.digitChar,
      (c != '/') = true := by
    intro c hc
    obtain ⟨d, -, rfl⟩ := List.mem_map.mp hc
    exact bne_iff_ne.mpr (Numeral.digitChar_plain d).1
  obtain ⟨htake, hdrop⟩ := Text.cut_at (c := '/') hheight rfl
    ((Numeral.digits id.miner.toNat).map Numeral.digitChar)
  rw [parse, key_toList, htake, hdrop]
  simp only [Text.trimList_digits, Numeral.read?_digits id.height.toNat_lt,
    Numeral.read?_digits id.miner.toNat_lt, UInt64.ofNat_toNat, UInt32.ofNat_toNat]

end BlockId

end BlockGossip
