import BlockGossip.Json.Record

/-!
# Numbers read back

A number of proper shape is read back digit by digit wherever its end shows:
behind it comes a comma or a closing bracket, or nothing. Every number that is
written has that shape.
-/

namespace BlockGossip.Json

open Numeral (Digit)

/-- What comes next cannot be part of a number. -/
def Ends (rest : Bytes) : Prop :=
  ∀ b ∈ rest.head?, b = Ascii.comma ∨ b = Ascii.closeBracket ∨ b = Ascii.closeBrace

/-- Digits come, and no zero before another; an exponent has digits. -/
structure Number.Proper (n : Number) : Prop where
  whole : ∃ d ds, n.whole = d :: ds ∧ (ds = [] ∨ d.val ≠ 0)
  exponent : ∀ negative ds, n.exponent = some (negative, ds) → ds ≠ []

-- ---------------------------------------------------------------------------
-- Digits
-- ---------------------------------------------------------------------------

theorem byteDigit?_digitByte : ∀ d, byteDigit? (digitByte d) = some d := by decide

theorem digitByte_ne_minus : ∀ d, digitByte d ≠ Ascii.minus := by decide

theorem spanDigits_of_none {rest : Bytes} (h : ∀ b ∈ rest.head?, byteDigit? b = none) :
    spanDigits rest = ([], rest) := by
  cases rest with
  | nil => rfl
  | cons b rest => simp [spanDigits, h b rfl]

theorem spanDigits_append (ds : List Digit) {rest : Bytes}
    (h : ∀ b ∈ rest.head?, byteDigit? b = none) :
    spanDigits (ds.map digitByte ++ rest) = (ds, rest) := by
  induction ds with
  | nil => exact spanDigits_of_none h
  | cons d ds ih => simp [spanDigits, byteDigit?_digitByte, ih]

-- ---------------------------------------------------------------------------
-- The parts of a number
-- ---------------------------------------------------------------------------

/-- The bytes of an exponent. -/
def exponentBytes : Option (Bool × List Digit) → Bytes
  | none => []
  | some (negative, ds) =>
    0x65 :: (if negative then Ascii.minus else Ascii.plus) :: ds.map digitByte

/-- The bytes of a fraction. -/
def fractionBytes (ds : List Digit) : Bytes :=
  if ds.isEmpty then [] else Ascii.point :: ds.map digitByte

theorem Number.render_eq (n : Number) :
    n.render = (if n.negative then [Ascii.minus] else []) ++ n.whole.map digitByte ++
      fractionBytes n.fraction ++ exponentBytes n.exponent := by
  cases n with
  | mk negative whole fraction exponent => cases exponent <;> rfl

variable {rest : Bytes}

theorem Ends.not_digit (h : Ends rest) : ∀ b ∈ rest.head?, byteDigit? b = none := by
  intro b hb
  rcases h b hb with rfl | rfl | rfl <;> decide

theorem exponentBytes_not_digit (h : Ends rest) (e : Option (Bool × List Digit)) :
    ∀ b ∈ (exponentBytes e ++ rest).head?, byteDigit? b = none := by
  cases e with
  | none => exact h.not_digit
  | some e =>
    intro b hb
    obtain rfl : (0x65 : Byte) = b := Option.some.inj hb
    decide

theorem fractionBytes_not_digit (h : Ends rest) (ds : List Digit)
    (e : Option (Bool × List Digit)) :
    ∀ b ∈ (fractionBytes ds ++ (exponentBytes e ++ rest)).head?, byteDigit? b = none := by
  cases ds with
  | nil => exact exponentBytes_not_digit h e
  | cons d ds =>
    intro b hb
    obtain rfl : Ascii.point = b := Option.some.inj hb
    decide

theorem readExponent_append (h : Ends rest) {e : Option (Bool × List Digit)}
    (he : ∀ negative ds, e = some (negative, ds) → ds ≠ []) :
    readExponent (exponentBytes e ++ rest) = some (e, rest) := by
  cases e with
  | none =>
    cases rest with
    | nil => rfl
    | cons b rest =>
      have hne : ¬(b = 0x65 ∨ b = 0x45) := by
        rcases h b rfl with rfl | rfl | rfl <;> decide
      simp [exponentBytes, readExponent, hne]
  | some e =>
    obtain ⟨negative, ds⟩ := e
    have hds := he negative ds rfl
    have hspan := spanDigits_append ds h.not_digit
    have hsign : readSign ((if negative then Ascii.minus else Ascii.plus) ::
        (ds.map digitByte ++ rest)) = (negative, ds.map digitByte ++ rest) := by
      cases negative <;> rfl
    simp only [exponentBytes, List.cons_append, readExponent, true_or, if_true, hsign, hspan]

theorem readFraction_append (h : Ends rest) (ds : List Digit) (e : Option (Bool × List Digit)) :
    readFraction (fractionBytes ds ++ (exponentBytes e ++ rest)) =
      some (ds, exponentBytes e ++ rest) := by
  cases ds with
  | nil =>
    have hnot : ∀ b ∈ (exponentBytes e ++ rest).head?, b ≠ Ascii.point := by
      cases e with
      | none =>
        intro b hb
        rcases h b hb with rfl | rfl | rfl <;> decide
      | some e =>
        intro b hb
        obtain rfl : (0x65 : Byte) = b := Option.some.inj hb
        decide
    generalize exponentBytes e ++ rest = tail at hnot
    cases tail with
    | nil => rfl
    | cons b tail => simp [fractionBytes, readFraction, hnot b rfl]
  | cons d ds =>
    have hspan := spanDigits_append (d :: ds) (exponentBytes_not_digit h e)
    simp only [fractionBytes, List.isEmpty_cons, Bool.false_eq_true, if_false, List.cons_append,
      readFraction, if_true]
    rw [hspan]

theorem readWhole_append {ds : List Digit} (hds : ∃ d ds', ds = d :: ds' ∧ (ds' = [] ∨ d.val ≠ 0))
    (h : ∀ b ∈ rest.head?, byteDigit? b = none) :
    readWhole (ds.map digitByte ++ rest) = some (ds, rest) := by
  obtain ⟨d, ds', rfl, hd⟩ := hds
  have hspan := spanDigits_append (d :: ds') h
  unfold readWhole
  rw [hspan]
  cases ds' with
  | nil => rfl
  | cons d' ds' =>
    have hd : d.val ≠ 0 := hd.resolve_left nofun
    simp [hd]

/-- A proper number is read back. -/
theorem readNumber_render {n : Number} (hn : n.Proper) (h : Ends rest) :
    readNumber (n.render ++ rest) = some (n, rest) := by
  have hmagnitude (negative : Bool) (hneg : n.negative = negative) :
      readMagnitude negative (n.whole.map digitByte ++
        (fractionBytes n.fraction ++ (exponentBytes n.exponent ++ rest))) = some (n, rest) := by
    rw [readMagnitude, readWhole_append hn.whole (fractionBytes_not_digit h _ _)]
    simp only [Option.bind_eq_bind, Option.bind_some]
    rw [readFraction_append h]
    simp only [Option.bind_some]
    rw [readExponent_append h hn.exponent, ← hneg]
    rfl
  rw [Number.render_eq]
  simp only [List.append_assoc]
  cases hneg : n.negative with
  | true => exact hmagnitude true hneg
  | false =>
    obtain ⟨d, ds, hwhole, -⟩ := hn.whole
    have h := hmagnitude false hneg
    rw [hwhole] at h ⊢
    simp only [Bool.false_eq_true, if_false, List.nil_append, List.map_cons, List.cons_append,
      readNumber] at h ⊢
    rw [if_neg (digitByte_ne_minus d)]
    exact h

-- ---------------------------------------------------------------------------
-- Numbers that are written
-- ---------------------------------------------------------------------------

theorem digits_head (n : Nat) : ∃ d ds, Numeral.digits n = d :: ds ∧ (n ≠ 0 → d.val ≠ 0) := by
  induction n using Nat.strongRecOn with
  | _ n ih =>
    rw [Numeral.digits]
    split
    · rename_i hlt
      refine ⟨_, [], rfl, fun hn => ?_⟩
      simp only [Numeral.lastDigit]
      omega
    · obtain ⟨d, ds, hd, hne⟩ := ih (n / 10) (by omega)
      rw [hd]
      exact ⟨d, _, rfl, fun _ => hne (by omega)⟩

theorem digits_proper (n : Nat) :
    ∃ d ds, Numeral.digits n = d :: ds ∧ (ds = [] ∨ d.val ≠ 0) := by
  by_cases hn : n = 0
  · subst hn
    exact ⟨0, [], by rw [Numeral.digits]; rfl, .inl rfl⟩
  · obtain ⟨d, ds, hd, hne⟩ := digits_head n
    exact ⟨d, ds, hd, .inr (hne hn)⟩

theorem Number.ofInt_proper (i : Int) : (Number.ofInt i).Proper :=
  ⟨digits_proper _, fun _ _ h => nomatch h⟩

/-- Digits are laid out properly unless they are none and stand for more than one place. -/
theorem Layout.number_proper (layout : Layout) (negative : Bool) {d : Decimal.Scientific}
    (hd : d.digits ≠ 0 ∨ d.exponent = 0) : (layout.number negative d).Proper := by
  obtain ⟨first, rest, hdigits, hfirst⟩ := digits_head d.digits
  simp only [Layout.number, hdigits]
  split
  · split
    · rename_i hexp
      refine ⟨⟨first, rest ++ List.replicate d.exponent.toNat 0, rfl, ?_⟩, fun _ _ h => nomatch h⟩
      rcases hd with hd | hd
      · exact .inr (hfirst hd)
      · have hproper := digits_proper d.digits
        obtain ⟨first', rest', hdigits', hor⟩ := hproper
        obtain ⟨rfl, rfl⟩ := List.cons.inj (hdigits.symm.trans hdigits')
        simpa [hd] using hor
    · rename_i hexp
      have hne : d.digits ≠ 0 := hd.resolve_right (by omega)
      split
      · rename_i hplaces
        obtain ⟨k, hk⟩ : ∃ k, (first :: rest).length - (-d.exponent).toNat = k + 1 :=
          ⟨_, (Nat.succ_pred_eq_of_pos (by omega)).symm⟩
        rw [hk]
        exact ⟨⟨first, rest.take k, rfl, .inr (hfirst hne)⟩, fun _ _ h => nomatch h⟩
      · exact ⟨⟨0, [], rfl, .inl rfl⟩, fun _ _ h => nomatch h⟩
  · refine ⟨⟨first, [], rfl, .inl rfl⟩, fun negative ds h => ?_⟩
    obtain ⟨-, rfl⟩ := Prod.mk.inj (Option.some.inj h)
    exact Numeral.digits_ne_nil _

end BlockGossip.Json

namespace BlockGossip.Decimal

variable {x : Binary} {d : Scientific}

theorem compareScaled_zero {b : Nat} (hb : 0 < b) (i j : Int) :
    compareScaled 0 i b j = .lt := by
  have h2 : 0 < Nat.pow 2 j.toNat := Nat.pow_pos (by decide)
  have h10 : 0 < Nat.pow 10 (-i).toNat := Nat.pow_pos (by decide)
  rw [compareScaled, Nat.zero_mul, Nat.zero_mul, Nat.compare_eq_lt]
  exact Nat.mul_pos (Nat.mul_pos hb h2) h10

/-- Zero stands for no value but zero. -/
theorem digits_ne_zero_of_readsBack (hx : x.significand ≠ 0) (h : x.readsBack d = true) :
    d.digits ≠ 0 := by
  intro hd
  have hlow : 0 < if x.narrowBelow then 4 * x.significand - 1 else 4 * x.significand - 2 := by
    split <;> omega
  have hbelow := compareScaled_zero hlow d.exponent (x.exponent - 2)
  rw [← hd] at hbelow
  simp [Binary.readsBack, hbelow] at h

theorem readsBack_of_onGrid? {tie : Tie} {e : Int} (h : x.onGrid? tie e = some d) :
    x.readsBack d = true := by
  unfold Binary.onGrid? at h
  simp only at h
  split at h
  · exact nomatch h
  · rename_i hlow _
    obtain rfl := Option.some.inj h
    exact hlow
  · rename_i hhigh
    obtain rfl := Option.some.inj h
    exact hhigh
  · rename_i hlow hhigh
    have hpick : some d = some (⟨x.floorOn e, e⟩ : Scientific) ∨
        some d = some (⟨x.floorOn e + 1, e⟩ : Scientific) := by
      rw [← h]
      split
      · exact .inl rfl
      · exact .inr rfl
      · split
        · exact .inr rfl
        · split
          · exact .inl rfl
          · exact .inr rfl
    rcases hpick with hd | hd
    · exact Option.some.inj hd ▸ hlow
    · exact Option.some.inj hd ▸ hhigh

theorem exact_digits_ne_zero (hx : x.significand ≠ 0) : x.exact.digits ≠ 0 := by
  have hpow (b k : Nat) (hb : 0 < b) : Nat.pow b k ≠ 0 :=
    Nat.pos_iff_ne_zero.mp (Nat.pow_pos hb)
  unfold Binary.exact
  split
  · exact Nat.mul_ne_zero hx (hpow 2 _ (by decide))
  · exact Nat.mul_ne_zero hx (hpow 5 _ (by decide))

theorem strip_digits_ne_zero (hd : d.digits ≠ 0) (fuel : Nat) : (d.strip fuel).digits ≠ 0 := by
  induction fuel generalizing d with
  | zero => exact hd
  | succ fuel ih =>
    rw [Scientific.strip]
    split
    · rename_i h
      exact ih (by simp only; omega)
    · exact hd

/-- The fewest digits are none only for zero itself, which is written plainly. -/
theorem shortest_plain_zero (x : Binary) (tie : Tie) :
    (x.shortest tie).digits ≠ 0 ∨ (x.shortest tie).exponent = 0 := by
  unfold Binary.shortest
  split
  · exact .inr rfl
  · rename_i hx
    refine .inl (strip_digits_ne_zero ?_ 1100)
    cases hfound : (List.range 17).findSome? fun n =>
      x.onGrid? tie (x.scale - 1 - Int.ofNat n) with
    | none => exact exact_digits_ne_zero hx
    | some d =>
      obtain ⟨n, -, hn⟩ := List.exists_of_findSome?_eq_some hfound
      exact digits_ne_zero_of_readsBack hx (readsBack_of_onGrid? hn)

end BlockGossip.Decimal

namespace BlockGossip.Json

theorem Number.ofFloat?_proper {x : Float} {n : Number} (h : Number.ofFloat? x = some n) :
    n.Proper := by
  unfold Number.ofFloat? at h
  split at h
  · exact nomatch h
  · obtain rfl := Option.some.inj h
    exact Layout.number_proper _ _ (Decimal.shortest_plain_zero _ _)

end BlockGossip.Json
