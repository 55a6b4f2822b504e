import BlockGossip.Proofs.Json.Fields
import Mathlib.Algebra.Order.Ring.Nat

/-!
# Words have floating values

A 64-bit number is far below the largest floating value, so a document that
holds only such numbers means something throughout. The bounds are crude: an
operation on values whose exponents are small has a small exponent again.
-/

namespace BlockGossip.Json

open Float.Model Float.Model.UnpackedFloat

/-- Zero, or finite with an exponent that is not above the bound. -/
def Tame (bound : Int) : Float.Model.UnpackedFloat → Prop
  | .zero _ => True
  | .finite _ _ e _ => e ≤ bound
  | _ => False

theorem Tame.mono {bound bound' : Int} {f : Float.Model.UnpackedFloat} (h : Tame bound f)
    (hle : bound ≤ bound') : Tame bound' f := by
  cases f with
  | infinity => exact h
  | notANumber => exact h
  | zero => exact h
  | finite => exact Int.le_trans h hle

/-- Tame, with a significand of 53 bits. -/
def Packed (bound : Int) : Float.Model.UnpackedFloat → Prop
  | .zero _ => True
  | .finite _ m e _ => m < 2 ^ 53 ∧ e ≤ bound
  | _ => False

instance (bound : Int) (f : Float.Model.UnpackedFloat) : Decidable (Packed bound f) :=
  match f with
  | .zero _ => isTrue trivial
  | .finite _ m e _ => inferInstanceAs (Decidable (m < 2 ^ 53 ∧ e ≤ bound))
  | .infinity _ => isFalse id
  | .notANumber => isFalse id

theorem Packed.not_inf {bound : Int} {f : Float.Model.UnpackedFloat} (h : Packed bound f) :
    f.isInf = false := by
  cases f with
  | infinity => exact h.elim
  | notANumber => exact h.elim
  | zero => rfl
  | finite => rfl

theorem Packed.mono {bound bound' : Int} {f : Float.Model.UnpackedFloat} (h : Packed bound f)
    (hle : bound ≤ bound') : Packed bound' f := by
  cases f with
  | infinity => exact h
  | notANumber => exact h
  | zero => exact h
  | finite => exact ⟨h.1, Int.le_trans h.2 hle⟩

-- ---------------------------------------------------------------------------
-- Rounding
-- ---------------------------------------------------------------------------

theorem targetExponent_le {m k : Nat} (hm : m < 2 ^ (k + 1)) (e : Int) :
    Format.binary64.targetExponent (totalExponent m e) ≤ max (e + k) (-1074) := by
  have hlog : m.log2 ≤ k := by
    by_cases h0 : m = 0
    · subst h0; simp
    · exact Nat.lt_succ_iff.mp ((Nat.log2_lt h0).mpr hm)
  have hbits : Format.binary64.mantissaBits = 53 := rfl
  have hmin : Format.binary64.minExponent = -1074 := rfl
  rw [Format.targetExponent, totalExponent, hbits, hmin]
  omega

theorem shiftRight_mantissa_le (em : ExtendedMantissa) (n : Nat) :
    (em >>> n).mantissa ≤ em.mantissa := by
  induction n with
  | zero => exact Nat.le_refl _
  | succ n ih => exact Nat.le_trans (Nat.div_le_self _ 2) ih

theorem roundedMantissa_le (em : ExtendedMantissa) : em.roundedMantissa ≤ em.mantissa + 1 := by
  obtain ⟨m, round, sticky⟩ := em
  cases round <;> cases sticky <;>
    simp [ExtendedMantissa.roundedMantissa, ExtendedMantissa.accuracy,
      Accuracy.roundToNearestEven]
  omega

/-- A shift to the target exponent raises no significand, and the exponent little. -/
theorem shiftToTargetExponent_le {m k : Nat} (hm : m < 2 ^ (k + 1)) (e : Int) :
    (shiftToTargetExponent Format.binary64 m e .exact).1.mantissa ≤ m ∧
      (shiftToTargetExponent Format.binary64 m e .exact).2 ≤ max (e + k) (-1074) := by
  have htarget := targetExponent_le hm e
  simp only [shiftToTargetExponent, shiftToExponent]
  generalize Format.binary64.targetExponent (totalExponent m e) = target at htarget
  exact ⟨shiftRight_mantissa_le _ _, by omega⟩

theorem roundWithAccuracy_tame {m k : Nat} (hm : m < 2 ^ (k + 1)) (e : Int) (sign : Sign) :
    Tame (max (e + k) (-1074) + (k + 1)) (roundWithAccuracy Format.binary64 sign m e .exact) := by
  obtain ⟨hshift, hexp⟩ := shiftToTargetExponent_le hm e
  unfold roundWithAccuracy
  generalize shiftToTargetExponent Format.binary64 m e .exact = shifted at hshift hexp
  obtain ⟨em, e₁⟩ := shifted
  dsimp only at hshift hexp ⊢
  have hround : em.roundedMantissa < 2 ^ (k + 1 + 1) := by
    have := roundedMantissa_le em
    have hpow : 2 ^ (k + 1 + 1) = 2 ^ (k + 1) * 2 := Nat.pow_succ ..
    omega
  obtain ⟨-, hexp₂⟩ := shiftToTargetExponent_le hround e₁
  generalize shiftToTargetExponent Format.binary64 em.roundedMantissa e₁ .exact = final at hexp₂
  obtain ⟨em₂, e₂⟩ := final
  dsimp only at hexp₂ ⊢
  by_cases hnone : em₂.mantissa = 0
  · rw [dif_pos hnone]
    exact trivial
  · rw [dif_neg hnone]
    show e₂ ≤ _
    omega

-- ---------------------------------------------------------------------------
-- Packing
-- ---------------------------------------------------------------------------

theorem packed_packComponents (sign : Sign) {exponent : BitVec 11} (mantissa : BitVec 52)
    (h : exponent ≠ -1#11) :
    Packed (max (exponent.toNat - 1075) (-1074))
      (UnpackedFloat.unpack Format.binary64
        (packComponents Format.binary64 sign exponent mantissa)) := by
  have hbias : (Format.binary64.exponentBias : Int) = 1023 := rfl
  have hbits : (Format.binary64.mantissaBitsWithoutImplicit : Int) = 52 := rfl
  have hmantissa : unpackMantissa (packComponents Format.binary64 sign exponent mantissa) =
      mantissa := unpackMantissa_packComponents ..
  unfold UnpackedFloat.unpack
  rw [unpackExponent_packComponents, if_neg h]
  by_cases hzero : exponent = BitVec.ofNat Format.binary64.exponentBits 0
  · rw [if_pos hzero]
    by_cases hnone : unpackMantissa (packComponents Format.binary64 sign exponent mantissa) =
        BitVec.ofNat Format.binary64.mantissaBitsWithoutImplicit 0
    · rw [dif_pos hnone]
      exact trivial
    · rw [dif_neg hnone]
      have hm := mantissa.isLt
      have hz : exponent.toNat = 0 := by rw [hzero]; rfl
      refine ⟨?_, ?_⟩
      · rw [hmantissa]
        omega
      · rw [hbias, hbits, hz]
        omega
  · rw [if_neg hzero]
    refine ⟨?_, ?_⟩
    · rw [hmantissa]
      exact (1#1 ++ mantissa).isLt
    · rw [hbias, hbits]
      omega

theorem packed_pack {bound : Int} {f : Float.Model.UnpackedFloat} (h : Tame bound f)
    (hbound : bound ≤ 971) : Packed (max bound (-1074)) (Float.Model.pack f).unpack := by
  have hzero : (0 : BitVec 11) ≠ -1#11 := by decide
  have hz : (0 : BitVec 11).toNat = 0 := rfl
  show Packed _ (UnpackedFloat.unpack Format.binary64 (UnpackedFloat.pack Format.binary64 f))
  cases f with
  | infinity => exact h.elim
  | notANumber => exact h.elim
  | zero sign => exact (packed_packComponents sign 0 hzero).mono (by omega)
  | finite sign m e hm =>
    have he : e ≤ bound := h
    have hbias : (Format.binary64.exponentBias : Int) = 1023 := rfl
    unfold UnpackedFloat.pack
    dsimp only
    rw [hbias]
    generalize hfield : (e + 1023 + (52 : Nat)).toNat = field
    rw [if_neg (by omega)]
    have hlt : field % 2 ^ 11 = field := Nat.mod_eq_of_lt (by omega)
    split
    · have hne : BitVec.ofNat 11 field ≠ -1#11 := by
        intro heq
        have := congrArg BitVec.toNat heq
        simp at this
        omega
      refine (packed_packComponents sign _ hne).mono ?_
      rw [BitVec.toNat_ofNat, hlt]
      omega
    · exact (packed_packComponents sign _ hzero).mono (by omega)

-- ---------------------------------------------------------------------------
-- Products
-- ---------------------------------------------------------------------------

theorem mul_finite {s₁ s₂ : Sign} {m₁ m₂ : Nat} {e₁ e₂ : Int} {h₁ : 0 < m₁} {h₂ : 0 < m₂} :
    UnpackedFloat.mul Format.binary64 (finite s₁ m₁ e₁ h₁) (finite s₂ m₂ e₂ h₂) =
      roundWithAccuracy Format.binary64 (s₁ * s₂) (m₁ * m₂) (e₁ + e₂) .exact := rfl

theorem mul_tame {a b : Int} {x y : Float.Model.UnpackedFloat} (hx : Packed a x)
    (hy : Packed b y) :
    Tame (max (a + b + 105) (-1074) + 106) (UnpackedFloat.mul Format.binary64 x y) := by
  cases x with
  | infinity => exact hx.elim
  | notANumber => exact hx.elim
  | zero =>
    cases y with
    | infinity => exact hy.elim
    | notANumber => exact hy.elim
    | zero => exact trivial
    | finite => exact trivial
  | finite s₁ m₁ e₁ _ =>
    cases y with
    | infinity => exact hy.elim
    | notANumber => exact hy.elim
    | zero => exact trivial
    | finite s₂ m₂ e₂ _ =>
      have hm : m₁ * m₂ < 2 ^ (105 + 1) := by
        have := Nat.mul_lt_mul'' hx.1 hy.1
        simpa [← Nat.pow_add] using this
      have hle₁ := hx.2
      have hle₂ := hy.2
      exact (roundWithAccuracy_tame hm (e₁ + e₂) (s₁ * s₂)).mono (by omega)

theorem float_mul_packed {a b : Int} {x y : Float} (hx : Packed a x.toModel.unpack)
    (hy : Packed b y.toModel.unpack) (hbound : a + b ≤ 760) (hlow : -1179 ≤ a + b) :
    Packed (a + b + 211) (x * y).toModel.unpack :=
  (packed_pack (mul_tame hx hy) (by omega)).mono (by omega)

-- ---------------------------------------------------------------------------
-- Words
-- ---------------------------------------------------------------------------

theorem ofNat_packed {n : Nat} (hn : n < 2 ^ 64) :
    Packed 231 (Float.Model.ofNat n).unpack := by
  suffices h : Tame 231 (UnpackedFloat.normalize Format.binary64 n 0 .positive) from
    (packed_pack h (by decide)).mono (by decide)
  unfold UnpackedFloat.normalize
  by_cases h0 : n = 0
  · subst h0
    exact trivial
  have hgt : compare (n : Int) 0 = .gt := by
    rw [Int.compare_eq_gt]
    omega
  rw [hgt]
  simp only [UnpackedFloat.round, UnpackedFloat.decreaseExponent, Int.toNat_natCast]
  have hbits : Format.binary64.mantissaBits = 53 := rfl
  have htarget : -52 ≤ Format.binary64.targetExponent (totalExponent n 0) := by
    rw [Format.targetExponent, totalExponent, hbits]
    omega
  generalize Format.binary64.targetExponent (totalExponent n 0) = target at htarget
  generalize hshift : (0 - target).toNat = shift
  have hm : n <<< shift < 2 ^ (115 + 1) := by
    rw [Nat.shiftLeft_eq]
    have h52 : 2 ^ shift ≤ 2 ^ 52 := Nat.pow_le_pow_right (by decide) (by omega)
    calc n * 2 ^ shift < 2 ^ 64 * 2 ^ shift :=
          Nat.mul_lt_mul_of_pos_right hn (Nat.pow_pos (by decide))
      _ ≤ 2 ^ 64 * 2 ^ 52 := Nat.mul_le_mul_left _ h52
      _ = 2 ^ (115 + 1) := by rw [← Nat.pow_add]
  exact (roundWithAccuracy_tame hm _ _).mono (by omega)

theorem one_packed : Packed (-52) (powerOfTen 0).toModel.unpack := by
  decide +kernel

theorem shiftLeft_53_lt {n : Nat} (hn : n < 2 ^ 64) : n <<< 53 * 10 ^ 0 < 2 ^ (116 + 1) := by
  rw [Nat.shiftLeft_eq, Nat.pow_zero, Nat.mul_one]
  calc n * 2 ^ 53 < 2 ^ 64 * 2 ^ 53 := Nat.mul_lt_mul_of_pos_right hn (Nat.pow_pos (by decide))
    _ = 2 ^ (116 + 1) := by rw [← Nat.pow_add]

theorem ofScientific_tame {n : Nat} (hn : n < 2 ^ 64) :
    Tame 180 (UnpackedFloat.ofScientific Format.binary64 n 0) := by
  have hexp : (2 : Int) ^ Format.binary64.exponentBits = 2048 := rfl
  have hbits : Format.binary64.mantissaBits = 53 := rfl
  unfold UnpackedFloat.ofScientific
  by_cases hnone : n = 0
  · rw [dif_pos hnone]
    exact trivial
  rw [dif_neg hnone, if_neg (by omega), if_neg (by omega), if_pos (by decide)]
  rw [mul_finite, hbits, Int.toNat_zero]
  have hm := shiftLeft_53_lt hn
  generalize n <<< 53 * 10 ^ 0 = m at hm
  exact (roundWithAccuracy_tame hm _ _).mono (by omega)

theorem float_ofNat_packed {n : Nat} (hn : n < UInt64.size) :
    Packed 392 (Float.ofNat n).toModel.unpack := by
  have hone : Packed (-52)
      (getElem Float.exactlyRepresentablePowersOfTen 0 (by decide)).toModel.unpack := by
    decide +kernel
  show Packed 392 (Float.ofScientific n false 0).toModel.unpack
  unfold Float.ofScientific
  split
  · have hword : n.toUInt64.toNat = n := by simpa using hn
    have hfloat : Packed 231 n.toUInt64.toFloat.toModel.unpack :=
      ofNat_packed (n := n.toUInt64.toNat) n.toUInt64.toNat_lt
    exact (float_mul_packed hfloat hone (by decide) (by decide)).mono (by decide)
  · exact (packed_pack (ofScientific_tame hn) (by decide)).mono (by decide)

/-- A word scaled by one is finite. -/
theorem ofNat_not_inf {n : Nat} (hn : n < UInt64.size) :
    (Float.ofNat n * powerOfTen 0).isInf = false :=
  (float_mul_packed (float_ofNat_packed hn) one_packed (by decide) (by decide)).not_inf

theorem foldl_digits_le (ds : List Numeral.Digit) (s : Nat) :
    s ≤ ds.foldl (fun acc d => 10 * acc + d.val) s := by
  induction ds generalizing s with
  | nil => exact Nat.le_refl s
  | cons d ds ih =>
    have := ih (10 * s + d.val)
    rw [List.foldl_cons]
    omega

theorem gather_eq (ds : List Numeral.Digit) (s : Nat)
    (h : ds.foldl (fun acc d => 10 * acc + d.val) s < UInt64.size) :
    gather s ds = (ds.foldl (fun acc d => 10 * acc + d.val) s, 0) := by
  induction ds generalizing s with
  | nil => rfl
  | cons d ds ih =>
    rw [List.foldl_cons] at h ⊢
    have hle := foldl_digits_le ds (10 * s + d.val)
    rw [gather, if_pos (by omega), ih _ h]

/-- Digits that fit 64 bits are gathered whole. -/
theorem gather_digits {n : Nat} (hn : n < UInt64.size) :
    gather 0 (Numeral.digits n) = (n, 0) := by
  have hvalue : (Numeral.digits n).foldl (fun acc d => 10 * acc + d.val) 0 = n :=
    Numeral.value_digits n
  have hgather := gather_eq (Numeral.digits n) 0
  rw [hvalue] at hgather
  exact hgather hn

theorem float?_ofNat {n : Nat} (hn : n < UInt64.size) : (ofNat n).float?.isSome := by
  have hnum : Number.ofInt n = ⟨false, Numeral.digits n, [], none⟩ := by
    simp [Number.ofInt]
  have hinf := ofNat_not_inf hn
  show ((Number.ofInt n).float?).isSome
  rw [hnum, Number.float?, gather_digits hn]
  simp only [gather, magnitude, List.length_nil, Nat.sub_self]
  rw [scaled]
  simp [hinf]

theorem ofNat_meaningful (depth : Nat) {n : Nat} (hn : n < UInt64.size) :
    (ofNat n).isMeaningful depth := by
  have := float?_ofNat hn
  rwa [ofNat, Node.float?] at this

theorem ofText_meaningful (depth : Nat) (s : String) : (ofText s).isMeaningful depth := by
  rw [ofText, Node.isMeaningful, text?_escape]
  rfl

theorem ofFloat_meaningful (depth : Nat) {x : Float} (h : (ofFloat x).float?.isSome) :
    (ofFloat x).isMeaningful depth := by
  revert h
  cases hx : ofFloat x with
  | number n => simp [Node.float?, Node.isMeaningful]
  | _ => simp [Node.float?]

theorem allMeaningful_iff (depth : Nat) (xs : List Node) :
    allMeaningful depth xs = true ↔ ∀ x ∈ xs, x.isMeaningful depth := by
  induction xs with
  | nil => simp [allMeaningful]
  | cons x xs ih => simp [allMeaningful, ih]

theorem ofList_meaningful {depth : Nat} {write : α → Node} {xs : List α}
    (h : ∀ x ∈ xs, (write x).isMeaningful depth) :
    (ofList write xs).isMeaningful (depth + 1) := by
  rw [ofList, Node.isMeaningful, allMeaningful_iff]
  simpa using h

theorem record_meaningful {depth : Nat} {fields : List (String × Node)}
    (h : ∀ f ∈ fields, f.2.isMeaningful depth) : (record fields).isMeaningful (depth + 1) := by
  rw [record, Node.isMeaningful]
  induction fields with
  | nil => rfl
  | cons f rest ih =>
    rw [List.map_cons, allMembersMeaningful, text?_escape, h f (.head _),
      ih fun g hg => h g (.tail _ hg)]
    rfl

end BlockGossip.Json
