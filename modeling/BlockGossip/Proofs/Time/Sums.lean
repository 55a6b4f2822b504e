import BlockGossip.Proofs.Time.Order

/-!
# Sums are no minus zero

A sum is a minus zero only where both its terms are. Finite values are whole
multiples of the least one, so a sum of two that is not zero is not rounded to
zero; and two that cancel make a plain zero. A whole number is no minus zero
either, so neither is a time that has a duration added to it.
-/

namespace BlockGossip.Time

open Float.Model Float.Model.UnpackedFloat

variable {x y : Time} {m : Nat} {e : Int} {s : Sign}

-- ---------------------------------------------------------------------------
-- Rounding keeps values from zero
-- ---------------------------------------------------------------------------

theorem mantissa_shiftRight (em : ExtendedMantissa) (n : Nat) :
    (em >>> n).mantissa = em.mantissa / 2 ^ n := by
  induction n with
  | zero => exact (Nat.div_one _).symm
  | succ n ih =>
    show (em >>> n).mantissa / 2 = _
    rw [ih, Nat.div_div_eq_div_mul, ← Nat.pow_succ]

theorem mantissa_le_roundedMantissa (em : ExtendedMantissa) :
    em.mantissa ≤ em.roundedMantissa := by
  obtain ⟨m, round, sticky⟩ := em
  cases round <;> cases sticky <;>
    simp [ExtendedMantissa.roundedMantissa, ExtendedMantissa.accuracy,
      Accuracy.roundToNearestEven]

/-- A shift by the bits in excess leaves a significand that fits, and is not zero. -/
theorem div_pow_excess (hm : 0 < m) :
    0 < m / 2 ^ (m.log2 - 52) ∧ m / 2 ^ (m.log2 - 52) < 2 ^ 53 := by
  refine ⟨Nat.div_pos ?_ (Nat.pow_pos (by decide)), ?_⟩
  · exact Nat.le_trans (Nat.pow_le_pow_right (by decide) (Nat.sub_le ..))
      (Nat.log2_self_le (by omega))
  · rw [Nat.div_lt_iff_lt_mul (Nat.pow_pos (by decide)), ← Nat.pow_add]
    exact Nat.lt_of_lt_of_le Nat.lt_log2_self (Nat.pow_le_pow_right (by decide) (by omega))

/-- From the least exponent up, a shift to the target drops the bits in excess. -/
theorem shiftToTargetExponent_spec (hm : 0 < m) (he : -1074 ≤ e) :
    0 < (shiftToTargetExponent Format.binary64 m e .exact).1.mantissa ∧
      (shiftToTargetExponent Format.binary64 m e .exact).1.mantissa < 2 ^ 53 ∧
      -1074 ≤ (shiftToTargetExponent Format.binary64 m e .exact).2 := by
  have hbits : Format.binary64.mantissaBits = 53 := rfl
  have hmin : Format.binary64.minExponent = -1074 := rfl
  have hshift : (Format.binary64.targetExponent (totalExponent m e) - e).toNat = m.log2 - 52 := by
    rw [Format.targetExponent, totalExponent, hbits, hmin]
    omega
  simp only [shiftToTargetExponent, shiftToExponent, hshift, mantissa_shiftRight]
  obtain ⟨hpos, hlt⟩ := div_pow_excess hm
  exact ⟨hpos, hlt, by omega⟩

/-- No minus zero, nor what would be packed as one. -/
def Clear : Float.Model.UnpackedFloat → Prop
  | .zero s => s = .positive
  | .finite _ m e _ => m < 2 ^ 53 ∧ -1074 ≤ e
  | _ => True

theorem roundWithAccuracy_clear (hm : 0 < m) (he : -1074 ≤ e) :
    Clear (roundWithAccuracy Format.binary64 s m e .exact) := by
  obtain ⟨hpos, -, hlow⟩ := shiftToTargetExponent_spec hm he
  unfold roundWithAccuracy
  generalize shiftToTargetExponent Format.binary64 m e .exact = first at hpos hlow
  obtain ⟨em, e₁⟩ := first
  have hround : 0 < em.roundedMantissa := Nat.lt_of_lt_of_le hpos (mantissa_le_roundedMantissa em)
  obtain ⟨hpos, hlt, hlow⟩ := shiftToTargetExponent_spec hround hlow
  dsimp only at hround hlow hpos hlt ⊢
  rw [dif_neg (Nat.ne_of_gt hpos)]
  exact ⟨hlt, hlow⟩

theorem round_clear (hm : 0 < m) (he : -1074 ≤ e) :
    Clear (UnpackedFloat.round Format.binary64 s m e) := by
  have hmin : Format.binary64.minExponent = -1074 := rfl
  have htarget : -1074 ≤ Format.binary64.targetExponent (totalExponent m e) := by
    rw [Format.targetExponent, hmin]
    omega
  refine roundWithAccuracy_clear ?_ ?_
  · rw [Nat.shiftLeft_eq]
    exact Nat.mul_pos hm (Nat.pow_pos (by decide))
  · omega

-- ---------------------------------------------------------------------------
-- Packing
-- ---------------------------------------------------------------------------

theorem packComponents_toNat (s : Sign) (exponent : BitVec 11) (mantissa : BitVec 52) :
    (packComponents Format.binary64 s exponent mantissa).toNat =
      s.toBitVec.toNat * 2 ^ 63 + exponent.toNat * 2 ^ 52 + mantissa.toNat := by
  show (s.toBitVec ++ exponent ++ mantissa).toNat = _
  rw [BitVec.toNat_append, ← Nat.shiftLeft_add_eq_or_of_lt mantissa.isLt, BitVec.toNat_append,
    ← Nat.shiftLeft_add_eq_or_of_lt exponent.isLt, Nat.shiftLeft_eq, Nat.shiftLeft_eq]
  omega

/-- Where a finite value that fits is packed, some bit but that of the sign is set. -/
theorem pack_finite_toNat (hm : 0 < m) (hlt : m < 2 ^ 53) (hlow : -1074 ≤ e) :
    (UnpackedFloat.pack Format.binary64 (.finite s m e hm)).toNat % 2 ^ 63 ≠ 0 := by
  have hbias : (Format.binary64.exponentBias : Int) = 1023 := rfl
  have hbits : Format.binary64.mantissaBits = 53 := rfl
  have hlog : m.log2 < 53 := (Nat.log2_lt (Nat.ne_of_gt hm)).mpr hlt
  unfold UnpackedFloat.pack
  dsimp only
  rw [hbias, hbits]
  generalize hfield : (e + 1023 + (52 : Nat)).toNat = field
  split
  · have hmax : (-1#11 : BitVec 11).toNat = 2047 := rfl
    rw [packedInfinity, packComponents_toNat, hmax]
    omega
  · split
    · -- The exponent of a whole significand is at least one.
      rw [packComponents_toNat, BitVec.toNat_ofNat, BitVec.toNat_ofNat]
      omega
    · have hhalf : m < 2 ^ 52 := (Nat.log2_lt (Nat.ne_of_gt hm)).mp (by omega)
      rw [packComponents_toNat, BitVec.toNat_ofNat, BitVec.toNat_ofNat]
      omega

theorem pack_positive_toNat {f : Float.Model.UnpackedFloat} (h : signOf f = .positive) :
    (UnpackedFloat.pack Format.binary64 f).toNat < 2 ^ 63 := by
  have hpositive (e : BitVec 11) (m : BitVec 52) :
      (packComponents Format.binary64 .positive e m).toNat < 2 ^ 63 := by
    have he := e.isLt
    have hm := m.isLt
    have hs : Sign.positive.toBitVec.toNat = 0 := rfl
    rw [packComponents_toNat, hs]
    omega
  cases f with
  | notANumber => exact hpositive ..
  | infinity s => exact (show s = .positive from h) ▸ hpositive ..
  | zero s => exact (show s = .positive from h) ▸ hpositive ..
  | finite s m e hm =>
    obtain rfl : s = .positive := h
    unfold UnpackedFloat.pack
    dsimp only
    split
    · exact hpositive ..
    · split <;> exact hpositive ..

-- ---------------------------------------------------------------------------
-- Minus zero
-- ---------------------------------------------------------------------------

theorem rank_nonneg_iff : 0 ≤ rank x ↔ x.toBits.toNat < 2 ^ 63 := by
  unfold rank Decimal.signWeight
  simp only [Int.ofNat_eq_natCast]
  split <;> omega

theorem rank_eq_neg_one (h : rank x = -1) : x.toBits.toNat = 2 ^ 63 := by
  unfold rank Decimal.signWeight at h
  simp only [Int.ofNat_eq_natCast] at h
  split at h <;> omega

theorem signOf_unpack (h : 0 ≤ rank x) : signOf x.toModel.unpack = .positive := by
  cases hn : x.isNaN with
  | false =>
    have hbits : x.toModel.toBits.toBitVec.toNat < 2 ^ 63 := rank_nonneg_iff.mp h
    have hsign := (unpack_fields x.toModel.toBits.toBitVec hn).2.1
    rw [sign_eq, if_pos hbits] at hsign
    exact hsign
  | true =>
    have hn : x.toModel.unpack.isNaN = true := hn
    revert hn
    cases x.toModel.unpack with
    | notANumber => exact fun _ => rfl
    | _ => exact nofun

theorem rank_of_unpack (h : x.toModel.unpack = .zero .negative) : rank x = -1 := by
  have hn : x.isNaN = false := congrArg UnpackedFloat.isNaN h
  have hvalue : value x.toModel.unpack = 0 := congrArg value h
  rcases rank_eq_value hn with ⟨-, hrank⟩ | ⟨-, hrank⟩
  · have hsign := signOf_unpack (x := x) (by omega)
    rw [h] at hsign
    exact nomatch hsign
  · omega

theorem rank_pack {f : Float.Model.UnpackedFloat} (h : Clear f) :
    rank (.ofModel (Float.Model.pack f)) ≠ -1 := by
  cases f with
  | notANumber => decide +kernel
  | infinity s => cases s <;> decide +kernel
  | zero s => exact (show s = .positive from h) ▸ by decide +kernel
  | finite s m e hm =>
    intro hrank
    have hbits : (UnpackedFloat.pack Format.binary64 (.finite s m e hm)).toNat = 2 ^ 63 :=
      rank_eq_neg_one hrank
    exact pack_finite_toNat (s := s) hm h.1 h.2 (by omega)

theorem normalize_clear (n : Int) (he : -1074 ≤ e) :
    Clear (UnpackedFloat.normalize Format.binary64 n e .positive) := by
  unfold UnpackedFloat.normalize
  rcases Int.lt_trichotomy n 0 with h | rfl | h
  · rw [Int.compare_eq_lt.mpr h]
    exact round_clear (by omega) he
  · exact rfl
  · rw [Int.compare_eq_gt.mpr h]
    exact round_clear (by omega) he

theorem add_clear {f g : Float.Model.UnpackedFloat} (hf : Canonical f) (hg : Canonical g)
    (h : f ≠ .zero .negative ∨ g ≠ .zero .negative) :
    Clear (UnpackedFloat.add Format.binary64 f g) := by
  cases f with
  | notANumber => trivial
  | infinity s =>
    cases g with
    | infinity t => cases s <;> cases t <;> trivial
    | _ => trivial
  | zero s =>
    cases g with
    | zero t => cases s <;> cases t <;> first | rfl | simp at h
    | finite => exact ⟨hg.1, hg.2.1⟩
    | _ => trivial
  | finite s m e hm =>
    cases g with
    | zero => exact ⟨hf.1, hf.2.1⟩
    | finite t m' e' hm' =>
      have hlow := hf.2.1
      have hlow' := hg.2.1
      exact normalize_clear _ (by omega)
    | _ => trivial

/-- A sum is a minus zero only where both its terms are. -/
theorem rank_add (h : rank x ≠ -1 ∨ rank y ≠ -1) : rank (x + y) ≠ -1 :=
  rank_pack (add_clear (canonical_unpack x) (canonical_unpack y)
    (h.imp (mt rank_of_unpack) (mt rank_of_unpack)))

-- ---------------------------------------------------------------------------
-- Durations
-- ---------------------------------------------------------------------------

theorem signOf_roundWithAccuracy (s : Sign) (m : Nat) (e : Int) :
    signOf (roundWithAccuracy Format.binary64 s m e .exact) = s := by
  unfold roundWithAccuracy
  dsimp only
  split <;> rfl

theorem signOf_mul {f g : Float.Model.UnpackedFloat} (hf : signOf f = .positive)
    (hg : signOf g = .positive) : signOf (UnpackedFloat.mul Format.binary64 f g) = .positive := by
  have hone : Sign.positive * Sign.positive = Sign.positive := rfl
  cases f <;> cases g <;> simp only [signOf] at hf hg <;> subst_vars
  all_goals first | rfl | exact signOf_roundWithAccuracy ..

theorem rank_pack_nonneg {f : Float.Model.UnpackedFloat} (h : signOf f = .positive) :
    0 ≤ rank (.ofModel (Float.Model.pack f)) := rank_nonneg_iff.mpr (pack_positive_toNat h)

theorem rank_ofNat (n : Nat) : 0 ≤ rank (Float.ofNat n) := by
  show 0 ≤ rank (Float.ofScientific n false 0)
  unfold Float.ofScientific
  split
  · have hone : 0 ≤ rank (getElem Float.exactlyRepresentablePowersOfTen 0 (by decide)) := by
      decide +kernel
    have hword : 0 ≤ rank n.toUInt64.toFloat := by
      refine rank_pack_nonneg ?_
      show signOf (UnpackedFloat.normalize Format.binary64 _ 0 .positive) = .positive
      unfold UnpackedFloat.normalize
      split
      · rename_i h
        exact absurd (Int.compare_eq_lt.mp h) (by omega)
      · rfl
      · exact signOf_roundWithAccuracy ..
    exact rank_pack_nonneg (signOf_mul (signOf_unpack hword) (signOf_unpack hone))
  · refine rank_pack_nonneg ?_
    unfold UnpackedFloat.ofScientific
    split
    · rfl
    · rw [if_neg (by decide), if_neg ?_, if_pos (by decide)]
      · exact signOf_mul rfl rfl
      · show ¬(0 : Int) < -(2 ^ 11 + n.log2)
        omega

theorem rank_toSeconds (d : Duration) : rank d.toSeconds ≠ -1 := by
  have := rank_ofNat d.seconds
  exact rank_add (.inl (by omega))

end BlockGossip.Time
