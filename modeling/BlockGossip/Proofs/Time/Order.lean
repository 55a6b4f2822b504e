import Mathlib
import BlockGossip.Time

/-!
# The two orders of times

Times are compared by value and ordered by rank. Both are read off the fields
of the bits: the value of a number is its place among those of its sign, and a
negative number stands one place further down. So the orders agree on all
numbers but the two zeros, and the later of two times is never below either of
them, unless one is a minus zero.
-/

namespace BlockGossip.Time

open Float.Model Float.Model.UnpackedFloat

variable {x y : Time}

/-- The sign of an unpacked value; what is no number counts as positive. -/
def signOf : Float.Model.UnpackedFloat → Sign
  | .infinity s | .zero s | .finite s .. => s
  | .notANumber => .positive

/-- The place of an unpacked value among those of its sign, counted from zero. -/
def magnitude : Float.Model.UnpackedFloat → Int
  | .infinity _ => 2047 * 2 ^ 52
  | .finite _ m e _ => (e + 1074) * 2 ^ 52 + m
  | _ => 0

/-- The place of an unpacked value by its sign; both zeros have the same. -/
def value (f : Float.Model.UnpackedFloat) : Int := (signOf f).apply (magnitude f)

/-- The form of what is unpacked: a significand is as large as the format allows. -/
def Canonical : Float.Model.UnpackedFloat → Prop
  | .finite _ m e _ => m < 2 ^ 53 ∧ -1074 ≤ e ∧ e ≤ 971 ∧ (e = -1074 ∨ 2 ^ 52 ≤ m)
  | _ => True

-- ---------------------------------------------------------------------------
-- Fields
-- ---------------------------------------------------------------------------

theorem mantissa_toNat (b : BitVec 64) :
    (@unpackMantissa Format.binary64 b).toNat = b.toNat % 2 ^ 52 := by
  simp [unpackMantissa]

theorem exponent_toNat (b : BitVec 64) :
    (@unpackExponent Format.binary64 b).toNat = b.toNat / 2 ^ 52 % 2 ^ 11 := by
  simp [unpackExponent, Nat.shiftRight_eq_div_pow]

theorem sign_toNat (b : BitVec 64) :
    (@unpackSign Format.binary64 b).toNat = b.toNat / 2 ^ 63 := by
  have := b.isLt
  simp [unpackSign, Nat.shiftRight_eq_div_pow]
  omega

theorem sign_eq (b : BitVec 64) :
    Sign.ofBitVec (@unpackSign Format.binary64 b) =
      if b.toNat < 2 ^ 63 then .positive else .negative := by
  have hb := b.isLt
  have hs := sign_toNat b
  unfold Sign.ofBitVec
  by_cases h : b.toNat < 2 ^ 63
  · rw [if_pos h, if_pos (BitVec.eq_of_toNat_eq (by rw [hs]; simp; omega))]
  · rw [if_neg h, if_neg]
    intro h0
    rw [h0] at hs
    simp at hs
    omega

/-- What a pattern of bits that is a number unpacks to. -/
theorem unpack_fields (b : BitVec 64)
    (h : (UnpackedFloat.unpack Format.binary64 b).isNaN = false) :
    Canonical (UnpackedFloat.unpack Format.binary64 b) ∧
      signOf (UnpackedFloat.unpack Format.binary64 b) =
        Sign.ofBitVec (@unpackSign Format.binary64 b) ∧
      magnitude (UnpackedFloat.unpack Format.binary64 b) = ((b.toNat % 2 ^ 63 : Nat) : Int) := by
  have hb := b.isLt
  have hm := mantissa_toNat b
  have he := exponent_toNat b
  have hbias : (Format.binary64.exponentBias : Int) = 1023 := rfl
  revert h
  unfold UnpackedFloat.unpack
  dsimp only
  rw [hbias]
  split
  · rename_i hmax
    have hmax : (@unpackExponent Format.binary64 b).toNat = 2047 := by
      rw [hmax]; rfl
    split
    · rename_i hzero
      have hzero : (@unpackMantissa Format.binary64 b).toNat = 0 := by rw [hzero]; rfl
      refine fun _ => ⟨trivial, rfl, ?_⟩
      simp only [magnitude]
      omega
    · exact nofun
  · rename_i hmax
    have hmax : (@unpackExponent Format.binary64 b).toNat ≠ 2047 := fun h =>
      hmax (BitVec.eq_of_toNat_eq h)
    split
    · rename_i hsub
      have hsub : (@unpackExponent Format.binary64 b).toNat = 0 := by rw [hsub]; rfl
      split
      · rename_i hzero
        have hzero : (@unpackMantissa Format.binary64 b).toNat = 0 := by rw [hzero]; rfl
        refine fun _ => ⟨trivial, rfl, ?_⟩
        simp only [magnitude]
        omega
      · refine fun _ => ⟨?_, rfl, ?_⟩
        · simp only [Canonical]
          omega
        · simp only [magnitude]
          omega
    · rename_i hsub
      have hsub : (@unpackExponent Format.binary64 b).toNat ≠ 0 := fun h =>
        hsub (BitVec.eq_of_toNat_eq h)
      have hbit : (1#1 ++ @unpackMantissa Format.binary64 b).toNat =
          2 ^ 52 + b.toNat % 2 ^ 52 := by
        rw [BitVec.toNat_append, hm, ← Nat.shiftLeft_add_eq_or_of_lt (Nat.mod_lt _ (by decide))]
        rfl
      refine fun _ => ⟨?_, rfl, ?_⟩
      · simp only [Canonical, hbit]
        omega
      · simp only [magnitude, hbit]
        omega

-- ---------------------------------------------------------------------------
-- Values
-- ---------------------------------------------------------------------------

/-- In canonical form the exponents decide, and then the significands. -/
theorem compare_then {e e' : Int} {m m' : Nat} (hm : m < 2 ^ 53) (hm' : m' < 2 ^ 53)
    (he : -1074 ≤ e) (he' : -1074 ≤ e') (hlow : e = -1074 ∨ 2 ^ 52 ≤ m)
    (hlow' : e' = -1074 ∨ 2 ^ 52 ≤ m') :
    ((compare e e').then (compare m m')) =
      compare ((e + 1074) * 2 ^ 52 + m) ((e' + 1074) * 2 ^ 52 + m') := by
  rcases Int.lt_trichotomy e e' with h | rfl | h
  · rw [Int.compare_eq_lt.mpr h, Int.compare_eq_lt.mpr (by omega)]
    rfl
  · rw [Int.compare_eq_eq.mpr rfl, Ordering.eq_then]
    rcases Nat.lt_trichotomy m m' with h | rfl | h
    · rw [Nat.compare_eq_lt.mpr h, Int.compare_eq_lt.mpr (by omega)]
    · rw [Nat.compare_eq_eq.mpr rfl, Int.compare_eq_eq.mpr rfl]
    · rw [Nat.compare_eq_gt.mpr h, Int.compare_eq_gt.mpr (by omega)]
  · rw [Int.compare_eq_gt.mpr h, Int.compare_eq_gt.mpr (by omega)]
    rfl

theorem compare_negated (a b : Int) : compare (-a) (-b) = compare b a := by
  rcases Int.lt_trichotomy a b with h | rfl | h
  · rw [Int.compare_eq_gt.mpr h, Int.compare_eq_gt.mpr (by omega)]
  · rw [Int.compare_eq_eq.mpr rfl, Int.compare_eq_eq.mpr rfl]
  · rw [Int.compare_eq_lt.mpr h, Int.compare_eq_lt.mpr (by omega)]

/-- Numbers are compared by their values. -/
theorem compare_eq {f g : Float.Model.UnpackedFloat} (hf : Canonical f) (hg : Canonical g)
    (hfn : f.isNaN = false) (hgn : g.isNaN = false) :
    f.compare g = some (compare (value f) (value g)) := by
  have hlt {a b : Int} (h : a < b) : some .lt = some (compare a b) :=
    congrArg some (Int.compare_eq_lt.mpr h).symm
  have hgt {a b : Int} (h : b < a) : some .gt = some (compare a b) :=
    congrArg some (Int.compare_eq_gt.mpr h).symm
  -- What differs in sign or in kind differs in value.
  cases f with
  | notANumber => exact nomatch hfn
  | infinity s =>
    cases g with
    | notANumber => exact nomatch hgn
    | infinity t => cases s <;> cases t <;> rfl
    | zero t => cases s <;> cases t <;> rfl
    | finite t m e hm =>
      obtain ⟨h1, h2, h3, -⟩ := hg
      cases s <;> cases t <;>
        simp only [UnpackedFloat.compare, value, signOf, magnitude, Sign.apply]
      all_goals first | exact hlt (by omega) | exact hgt (by omega)
  | zero s =>
    cases g with
    | notANumber => exact nomatch hgn
    | infinity t => cases s <;> cases t <;> rfl
    | zero t => cases s <;> cases t <;> rfl
    | finite t m e hm =>
      obtain ⟨h1, h2, h3, -⟩ := hg
      cases s <;> cases t <;>
        simp only [UnpackedFloat.compare, value, signOf, magnitude, Sign.apply]
      all_goals first | exact hlt (by omega) | exact hgt (by omega)
  | finite s m e hm =>
    obtain ⟨h1, h2, h3, h4⟩ := hf
    cases g with
    | notANumber => exact nomatch hgn
    | infinity t =>
      cases s <;> cases t <;>
        simp only [UnpackedFloat.compare, value, signOf, magnitude, Sign.apply]
      all_goals first | exact hlt (by omega) | exact hgt (by omega)
    | zero t =>
      cases s <;> cases t <;>
        simp only [UnpackedFloat.compare, value, signOf, magnitude, Sign.apply]
      all_goals first | exact hlt (by omega) | exact hgt (by omega)
    | finite t m' e' hm' =>
      obtain ⟨h1', h2', -, h4'⟩ := hg
      have hthen := compare_then h1 h1' h2 h2' h4 h4'
      cases s <;> cases t <;>
        simp only [UnpackedFloat.compare, value, signOf, magnitude, Sign.apply]
      · rw [hthen, Int.compare_swap, compare_negated]
      · exact hlt (by omega)
      · exact hgt (by omega)
      · rw [hthen]

-- ---------------------------------------------------------------------------
-- Order by value and order by rank
-- ---------------------------------------------------------------------------

theorem lt_iff_compare : x < y ↔ x.toModel.unpack.compare y.toModel.unpack = some .lt := by
  show decide (x.toModel < y.toModel) = true ↔ _
  rw [decide_eq_true_iff, ← beq_iff_eq]
  rfl

theorem canonical_unpack (x : Time) : Canonical x.toModel.unpack := by
  cases h : x.isNaN with
  | false => exact (unpack_fields _ h).1
  | true =>
    have h : x.toModel.unpack.isNaN = true := h
    revert h
    cases x.toModel.unpack with
    | notANumber => exact fun _ => trivial
    | _ => exact nofun

theorem lt_iff_value (hx : x.isNaN = false) (hy : y.isNaN = false) :
    x < y ↔ value x.toModel.unpack < value y.toModel.unpack := by
  rw [lt_iff_compare, compare_eq (canonical_unpack x) (canonical_unpack y) hx hy,
    Option.some_inj, Int.compare_eq_lt]

theorem not_isNaN_of_lt (h : x < y) : x.isNaN = false ∧ y.isNaN = false := by
  rw [lt_iff_compare] at h
  show x.toModel.unpack.isNaN = false ∧ y.toModel.unpack.isNaN = false
  generalize x.toModel.unpack = f at h
  generalize y.toModel.unpack = g at h
  cases f <;> cases g <;> first | exact ⟨rfl, rfl⟩ | exact nomatch h

theorem value_unpack (h : x.isNaN = false) :
    value x.toModel.unpack =
      if x.toBits.toNat < 2 ^ 63 then (x.toBits.toNat : Int) else 2 ^ 63 - x.toBits.toNat := by
  obtain ⟨-, hsign, hmagnitude⟩ := unpack_fields x.toModel.toBits.toBitVec h
  rw [sign_eq] at hsign
  unfold value Float.Model.unpack
  rw [hsign, hmagnitude]
  have hb : x.toModel.toBits.toBitVec.toNat = x.toBits.toNat := rfl
  have hlt := x.toBits.toNat_lt
  rw [hb]
  split <;> simp only [Sign.apply] <;> omega

/-- A negative time is one place further down than its value. -/
theorem rank_eq_value (h : x.isNaN = false) :
    0 ≤ value x.toModel.unpack ∧ rank x = value x.toModel.unpack ∨
      value x.toModel.unpack ≤ 0 ∧ rank x = value x.toModel.unpack - 1 := by
  rw [value_unpack h]
  unfold rank Decimal.signWeight
  simp only [Int.ofNat_eq_natCast]
  split <;> omega

theorem rank_lt_of_lt (h : x < y) : rank x < rank y := by
  obtain ⟨hx, hy⟩ := not_isNaN_of_lt h
  have := (lt_iff_value hx hy).mp h
  have := rank_eq_value hx
  have := rank_eq_value hy
  omega

/-- The one pair of times that the two orders tell apart is that of the zeros. -/
theorem rank_le_of_not_lt (hx : x.isNaN = false) (hy : y.isNaN = false) (h : ¬x < y) :
    rank y ≤ rank x ∨ rank x = -1 ∧ rank y = 0 := by
  have := mt (lt_iff_value hx hy).mpr h
  have := rank_eq_value hx
  have := rank_eq_value hy
  omega

-- ---------------------------------------------------------------------------
-- The later of two times
-- ---------------------------------------------------------------------------

variable {a b : Time}

theorem later_isNaN (hb : b.isNaN = false) : (later a b).isNaN = false := by
  unfold later
  rw [hb]
  split
  · exact hb
  · rename_i ha
    split
    · exact nomatch ‹false = true›
    · split
      · exact hb
      · exact Bool.eq_false_iff.mpr ha

/-- The later of two numbers is one of them, and not below the second unless
they are a minus zero and a zero. -/
theorem later_cases (ha : a.isNaN = false) (hb : b.isNaN = false) :
    later a b = b ∧ rank a < rank b ∨
      later a b = a ∧ (rank b ≤ rank a ∨ rank a = -1 ∧ rank b = 0) := by
  unfold later
  rw [ha, hb]
  by_cases h : a < b
  · exact .inl ⟨by simp [h], rank_lt_of_lt h⟩
  · exact .inr ⟨by simp [h], rank_le_of_not_lt ha hb h⟩

theorem later_of_isNaN (ha : a.isNaN = true) : later a b = b := if_pos ha

theorem rank_le_rank_later (hb : b.isNaN = false) (hzero : rank a ≠ -1) :
    rank b ≤ rank (later a b) := by
  cases ha : a.isNaN with
  | true => exact Int.le_of_eq (congrArg rank (later_of_isNaN ha)).symm
  | false =>
    rcases later_cases ha hb with ⟨h, -⟩ | ⟨h, hle⟩
    · rw [h]
    · rw [h]
      omega

theorem rank_later (ha : a.isNaN = false) (hb : b.isNaN = false) (hzero : rank a ≠ -1) :
    rank (later a b) = max (rank a) (rank b) := by
  rcases later_cases ha hb with ⟨h, hlt⟩ | ⟨h, hle⟩ <;> rw [h] <;> omega

/-- The second time is never later by more than the two zeros differ. -/
theorem rank_le_max_rank_later (hb : b.isNaN = false) : rank b ≤ max 0 (rank (later a b)) := by
  cases ha : a.isNaN with
  | true =>
    rw [later_of_isNaN ha]
    omega
  | false =>
    rcases later_cases ha hb with ⟨h, -⟩ | ⟨h, hle⟩ <;> rw [h] <;> omega

end BlockGossip.Time
