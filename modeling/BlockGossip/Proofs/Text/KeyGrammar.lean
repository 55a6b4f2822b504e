import BlockGossip.Proofs.Text.Spelling

/-!
# Which texts are keys

A text is cut at its first slash, and each half is a numeral between blanks: of
a height that fits 64 bits and of a miner that fits 32. `Reads` says what
becomes of every text, those that are no key included; `parse_grammar` says
that this is what is read, and that each id has one key that pads no number
(`Canonical`), the one it is written with.
-/

namespace BlockGossip.BlockId

open Numeral (Between Spells Unpadded digitChar)

variable {s : String} {left right : List Char} {id : BlockId} {r : Except KeyError BlockId}

/-- What the two halves of a text are read as. -/
inductive HalvesRead (left right : List Char) : Except KeyError BlockId → Prop where
  | id {id : BlockId} : Between UInt64.size left id.height.toNat →
      Between UInt32.size right id.miner.toNat → HalvesRead left right (.ok id)
  | badHeight : (∀ n, ¬Between UInt64.size left n) →
      HalvesRead left right (.error (.invalidHeight (String.ofList left)))
  | badMiner {height : Nat} : Between UInt64.size left height →
      (∀ n, ¬Between UInt32.size right n) →
      HalvesRead left right (.error (.invalidMiner (String.ofList right)))

/-- What a text is read as. -/
inductive Reads (s : String) : Except KeyError BlockId → Prop where
  | whole : '/' ∉ s.toList → Reads s (.error (.missingSeparator s))
  | halves {left right : List Char} {r : Except KeyError BlockId} :
      s.toList = left ++ '/' :: right → '/' ∉ left → HalvesRead left right r → Reads s r

/-- The text is the id's two numbers without a leading zero, a slash between them. -/
def Canonical (id : BlockId) (s : String) : Prop :=
  ∃ height miner, s.toList = height.map digitChar ++ '/' :: miner.map digitChar ∧
    Unpadded height ∧ Unpadded miner ∧
    Numeral.value height = id.height.toNat ∧ Numeral.value miner = id.miner.toNat

-- ---------------------------------------------------------------------------
-- Cutting
-- ---------------------------------------------------------------------------

theorem ne_slash (hleft : '/' ∉ left) : ∀ c ∈ left, (c != '/') = true := by
  intro c hc
  refine bne_iff_ne.mpr ?_
  rintro rfl
  exact hleft hc

theorem parse_whole (h : '/' ∉ s.toList) : parse s = .error (.missingSeparator s) := by
  rw [parse, (Text.cut_none (ne_slash h)).2]

/-- What is read of two halves. -/
theorem parse_halves (hs : s.toList = left ++ '/' :: right) (hleft : '/' ∉ left) :
    HalvesRead left right (parse s) := by
  obtain ⟨htake, hdrop⟩ := Text.cut_at (c := '/') (ne_slash hleft) rfl right
  rw [parse, hs, htake, hdrop]
  dsimp only
  cases hheight : Numeral.read? UInt64.size (Text.trimList left) with
  | none =>
    refine .badHeight fun n hn => ?_
    simp [Numeral.read?_trimList.mpr hn] at hheight
  | some height =>
    have hheight := Numeral.read?_trimList.mp hheight
    dsimp only
    cases hminer : Numeral.read? UInt32.size (Text.trimList right) with
    | none =>
      refine .badMiner hheight fun n hn => ?_
      simp [Numeral.read?_trimList.mpr hn] at hminer
    | some miner =>
      have hminer := Numeral.read?_trimList.mp hminer
      refine .id ?_ ?_
      · rwa [UInt64.toNat_ofNat_of_lt' hheight.lt]
      · rwa [UInt32.toNat_ofNat_of_lt' hminer.lt]

-- ---------------------------------------------------------------------------
-- One reading
-- ---------------------------------------------------------------------------

theorem HalvesRead.unique {r' : Except KeyError BlockId} (h : HalvesRead left right r)
    (h' : HalvesRead left right r') : r = r' := by
  cases h with
  | id hheight hminer =>
    cases h' with
    | id hheight' hminer' =>
      have hh := UInt64.toNat_inj.mp (hheight.unique hheight')
      have hm := UInt32.toNat_inj.mp (hminer.unique hminer')
      exact congrArg Except.ok (congrArg₂ BlockId.mk hh hm)
    | badHeight hnot => exact absurd hheight (hnot _)
    | badMiner _ hnot => exact absurd hminer (hnot _)
  | badHeight hnot =>
    cases h' with
    | id hheight' => exact absurd hheight' (hnot _)
    | badHeight => rfl
    | badMiner hheight' => exact absurd hheight' (hnot _)
  | badMiner hheight hnot =>
    cases h' with
    | id _ hminer' => exact absurd hminer' (hnot _)
    | badHeight hnot' => exact absurd hheight (hnot' _)
    | badMiner => rfl

theorem parse_eq_iff : parse s = r ↔ Reads s r := by
  constructor
  · rintro rfl
    by_cases h : '/' ∈ s.toList
    · obtain ⟨left, right, hs, hleft⟩ := List.eq_append_cons_of_mem h
      exact .halves hs hleft (parse_halves hs hleft)
    · rw [parse_whole h]
      exact .whole h
  · intro h
    cases h with
    | whole h => exact parse_whole h
    | halves hs hleft hread => exact (parse_halves hs hleft).unique hread

-- ---------------------------------------------------------------------------
-- The key that is written
-- ---------------------------------------------------------------------------

theorem canonical_iff : Canonical id s ↔ s = id.key := by
  constructor
  · rintro ⟨height, miner, hs, hheight, hminer, hh, hm⟩
    apply String.toList_inj.mp
    rw [hs, key_toList, ← hh, ← hm, Numeral.digits_value hheight, Numeral.digits_value hminer]
  · rintro rfl
    exact ⟨_, _, key_toList id, Numeral.digits_unpadded _, Numeral.digits_unpadded _,
      Numeral.value_digits _, Numeral.value_digits _⟩

/-- A key is read back, every text is read as the grammar has it, and the key of
an id is its one canonical text. -/
theorem parse_grammar :
    (∀ id, parse (key id) = .ok id) ∧ (∀ s r, parse s = r ↔ Reads s r) ∧
      ∀ id s, Canonical id s ↔ s = key id :=
  ⟨parse_key, fun _ _ => parse_eq_iff, fun _ _ => canonical_iff⟩

/-- A second slash is part of the miner, which it spoils. -/
example : parse " 07 /2/3" = .error (.invalidMiner "2/3") := by decide

end BlockGossip.BlockId
