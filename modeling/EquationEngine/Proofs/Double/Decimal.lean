import EquationEngine.Proofs.Double.Rounding

/-!
Reading decimals.

A decimal with few digits and places is a quotient of two doubles that are exact, every other one a
quotient of integers. Either way it is read as the double to which it is nearest, and the result is
never negative.
-/

namespace EquationEngine.Double

open Float.Model Float.Model.UnpackedFloat

/-- A power with an integer exponent is a fraction of which one side is one. -/
theorem zpow_eq_div {a : ℚ} (ha : a ≠ 0) (e : Int) : a ^ e = a ^ e.toNat / a ^ (-e).toNat := by
  rw [← zpow_natCast, ← zpow_natCast, ← zpow_sub₀ ha]
  congr 1
  omega

/-- Integers of fewer than 54 bits are doubles. -/
theorem parts_toFloat {n : Nat} (hn : 0 < n) (hlt : n < 2 ^ 53) :
    ∃ (m : Nat) (e : Int) (hm : 0 < m), parts n.toUInt64.toFloat = .finite .positive m e hm ∧
      (m * 2 ^ e : ℚ) = n := by
  have hlog : n.log2 < 53 := (Nat.log2_lt hn.ne').2 hlt
  have hlow := Nat.log2_self_le hn.ne'
  have hhigh := Nat.lt_log2_self (n := n)
  have hnat : n.toUInt64.toNat = n := by
    show n % 2 ^ 64 = n
    omega
  obtain ⟨shift, hshift⟩ : ∃ shift, n.log2 + shift = 52 := ⟨52 - n.log2, by omega⟩
  have hmlow : 2 ^ 52 ≤ n <<< shift := by
    rw [← hshift, pow_add, Nat.shiftLeft_eq]
    exact Nat.mul_le_mul_right _ hlow
  have hmhigh : n <<< shift < 2 ^ 53 := by
    rw [show 53 = n.log2 + 1 + shift by omega, pow_add, Nat.shiftLeft_eq]
    exact Nat.mul_lt_mul_of_pos_right hhigh (by positivity)
  have hm : 0 < n <<< shift := by omega
  -- shifted up to 53 bits the integer is a mantissa, and rounding has nothing to take away
  have hmlog : (n <<< shift).log2 = 52 := (Nat.log2_eq_iff hm.ne').2 ⟨hmlow, hmhigh⟩
  have hfits : Fits (.finite .positive (n <<< shift) (-shift) hm) := by
    refine ⟨hmhigh, ?_, ?_, .inl hmlow⟩ <;> omega
  have hround : UnpackedFloat.ofUInt64 Format.binary64 n.toUInt64 =
      roundWithAccuracy Format.binary64 .positive (n <<< shift) (-shift) .exact := by
    have htarget : Format.binary64.targetExponent (totalExponent n 0) = -shift := by
      show max ((n.log2 : Int) + 1 + 0 - 53) (-1074) = -shift
      omega
    have hcompare : compare (n : Int) 0 = .gt := Int.compare_eq_gt.2 (by omega)
    rw [UnpackedFloat.ofUInt64, hnat, UnpackedFloat.ofNat, UnpackedFloat.ofInt,
      UnpackedFloat.normalize, hcompare]
    show UnpackedFloat.round Format.binary64 .positive n 0 = _
    rw [UnpackedFloat.round, htarget, decreaseExponent]
    simp
  have hexact : UnpackedFloat.ofUInt64 Format.binary64 n.toUInt64 =
      .finite .positive (n <<< shift) (-shift) hm := by
    rw [hround]
    refine roundWithAccuracy_eq .positive hm (locates_exact _) ?_ hm hfits (near_self _ _)
    omega
  refine ⟨n <<< shift, -shift, hm, ?_, ?_⟩
  · rw [← hexact] at hfits ⊢
    exact parts_pack hfits
  · rw [Nat.shiftLeft_eq, zpow_neg, zpow_natCast]
    push_cast
    field_simp

/-- The table of powers of ten is exact. -/
theorem powersOfTen_exact : ∀ p : Fin Float.exactlyRepresentablePowersOfTen.size,
    ∃ b ∈ toBinary? Float.exactlyRepresentablePowersOfTen[p],
      b.negative = false ∧ 0 < b.mantissa ∧
      b.mantissa * 2 ^ b.exponent.toNat = 10 ^ p.val * 2 ^ (-b.exponent).toNat := by
  decide +kernel

theorem parts_powerOfTen {p : Nat} (hp : p < Float.exactlyRepresentablePowersOfTen.size) :
    ∃ (m : Nat) (e : Int) (hm : 0 < m),
      parts Float.exactlyRepresentablePowersOfTen[p] = .finite .positive m e hm ∧
      (m * 2 ^ e : ℚ) = 10 ^ p := by
  obtain ⟨b, hb, hpositive, hm, hvalue⟩ := powersOfTen_exact ⟨p, hp⟩
  refine ⟨b.mantissa, b.exponent, hm, ?_, ?_⟩
  · have hparts := parts_of_toBinary? hb hm
    rw [hpositive] at hparts
    exact hparts
  · have hvalue : (b.mantissa : ℚ) * 2 ^ b.exponent.toNat = 10 ^ p * 2 ^ (-b.exponent).toNat := by
      exact_mod_cast hvalue
    rw [zpow_eq_div two_ne_zero, ← mul_div_assoc, hvalue, mul_div_cancel_right₀]
    positivity

theorem parts_div {x y : Float} {u v w : UnpackedFloat} (hx : parts x = u) (hy : parts y = v)
    (h : UnpackedFloat.div Format.binary64 u v = w) (hfits : Fits w) : parts (x / y) = w := by
  subst hx hy h
  exact parts_pack hfits

/-- Decimals with more digits or places are computed from integers. -/
theorem ofScientific_eq {n p : Nat} {m : Nat} {e : Int} (hn : 0 < n) (hm : 0 < m)
    (hfits : Fits (.finite .positive m e hm)) (hnear : Near m e (n / 10 ^ p))
    (hsize : (2 : ℚ) ^ (-1000 : Int) ≤ n / 10 ^ p) :
    UnpackedFloat.ofScientific Format.binary64 n (-p) = .finite .positive m e hm := by
  have hplaces : p < n.log2 + 1001 := by
    have hten : (10 : ℚ) ^ p ≤ n * 2 ^ 1000 := by
      rw [zpow_neg, zpow_ofNat, le_div_iff₀ (by positivity),
        inv_mul_le_iff₀ (by positivity)] at hsize
      rwa [mul_comm]
    have hten : 10 ^ p ≤ n * 2 ^ 1000 := by exact_mod_cast hten
    have htwo : 2 ^ p < 2 ^ (n.log2 + 1001) :=
      calc 2 ^ p ≤ 10 ^ p := Nat.pow_le_pow_left (by norm_num) p
        _ ≤ n * 2 ^ 1000 := hten
        _ < 2 ^ (n.log2 + 1) * 2 ^ 1000 :=
          Nat.mul_lt_mul_of_pos_right Nat.lt_log2_self (by positivity)
        _ = 2 ^ (n.log2 + 1001) := by rw [← pow_add]
    exact (Nat.pow_lt_pow_iff_right one_lt_two).1 htwo
  have hlarge : ¬-(p : Int) > 2 ^ 11 := by omega
  have hsmall : ¬-(p : Int) < -(2 ^ 11 + n.log2) := by omega
  rw [UnpackedFloat.ofScientific, dif_neg hn.ne', if_neg hlarge, if_neg hsmall]
  -- without places the integer is rounded, otherwise it is divided by a power of ten
  split
  · rename_i hzero
    obtain rfl : p = 0 := by omega
    show roundWithAccuracy Format.binary64 .positive (n <<< 53 * 1) (-53 + 0) .exact = _
    rw [mul_one, add_zero]
    have hpos : 0 < n <<< 53 := by
      rw [Nat.shiftLeft_eq]
      positivity
    have hlog : 53 ≤ (n <<< 53).log2 := by
      rw [Nat.le_log2 hpos.ne', Nat.shiftLeft_eq]
      exact Nat.le_mul_of_pos_left _ hn
    have hvalue : ((n <<< 53 : Nat) : ℚ) * 2 ^ (-53 : Int) = n / 10 ^ 0 := by
      rw [Nat.shiftLeft_eq, zpow_neg, pow_zero, div_one]
      push_cast
      rw [mul_assoc, mul_inv_cancel₀ (by positivity), mul_one]
    rw [← hvalue] at hnear
    exact roundWithAccuracy_eq .positive hpos (locates_exact _) (by omega) hm hfits hnear
  · refine div_eq hn _ hm hfits ?_ hnear (hsize.trans' ?_)
    · simp
    · exact zpow_le_zpow_right₀ one_le_two (by norm_num)

/-- A decimal is read as the double to which it is nearest. -/
theorem parts_ofScientific {n p : Nat} {m : Nat} {e : Int} (hm : 0 < m)
    (hfits : Fits (.finite .positive m e hm)) (hnear : Near m e (n / 10 ^ p))
    (hsize : (2 : ℚ) ^ (-1000 : Int) ≤ n / 10 ^ p) :
    parts (Float.ofScientific n true p) = .finite .positive m e hm := by
  have hn : 0 < n := by
    refine Nat.pos_of_ne_zero ?_
    rintro rfl
    rw [Nat.cast_zero, zero_div] at hsize
    exact absurd (zpow_pos two_pos (-1000)) hsize.not_gt
  unfold Float.ofScientific
  split
  · rename_i hsmall
    obtain ⟨a, d, ha, hnum, hnumvalue⟩ := parts_toFloat hn hsmall.1
    obtain ⟨b, c, hb, hden, hdenvalue⟩ := parts_powerOfTen (Nat.lt_succ_of_le hsmall.2)
    have hquotient : (n / 10 ^ p : ℚ) = a * 2 ^ d / (b * 2 ^ c) := by rw [hnumvalue, hdenvalue]
    have hleast : (2 : ℚ) ^ (-1074 : Int) ≤ n / 10 ^ p :=
      hsize.trans' (zpow_le_zpow_right₀ one_le_two (by norm_num))
    rw [if_pos rfl]
    exact parts_div hnum hden (div_eq ha hb hm hfits hquotient hnear hleast) hfits
  · have hexact := ofScientific_eq hn hm hfits hnear hsize
    have hexponent : Int.negOfNat p = -p := Int.negOfNat_eq
    rw [if_pos rfl, hexponent]
    rw [← hexact] at hfits ⊢
    exact parts_pack hfits

/-! Signs. -/

/-- The number has no minus sign. -/
def Unsigned : UnpackedFloat → Prop
  | .notANumber => True
  | .infinity s | .zero s | .finite s _ _ _ => s = .positive

theorem unsigned_unpack_pack {u : UnpackedFloat} (h : Unsigned u) :
    Unsigned (UnpackedFloat.unpack Format.binary64 (UnpackedFloat.pack Format.binary64 u)) := by
  cases u with
  | notANumber => trivial
  | infinity s => exact (unpack_pack (u := .infinity s) trivial).symm ▸ h
  | zero s => exact (unpack_pack (u := .zero s) trivial).symm ▸ h
  | finite s m e hm =>
      obtain rfl : s = .positive := h
      have hcomponents (e : BitVec 11) (m : BitVec 52) : Unsigned (UnpackedFloat.unpack
          Format.binary64 (packComponents Format.binary64 .positive e m)) := by
        rw [unpack_packComponents]
        split_ifs <;> trivial
      rw [UnpackedFloat.pack]
      split_ifs
      · exact hcomponents _ _
      · exact hcomponents _ _
      · exact hcomponents _ _

theorem unsigned_roundWithAccuracy (m : Nat) (e : Int) (acc : Accuracy) :
    Unsigned (roundWithAccuracy Format.binary64 .positive m e acc) := by
  rw [roundWithAccuracy]
  dsimp only
  split_ifs <;> trivial

theorem unsigned_div {u v : UnpackedFloat} (hu : Unsigned u) (hv : Unsigned v) :
    Unsigned (UnpackedFloat.div Format.binary64 u v) := by
  cases u with
  | notANumber => trivial
  | infinity s | zero s | finite s m e hm =>
      obtain rfl : s = .positive := hu
      cases v with
      | notANumber => trivial
      | infinity t | zero t | finite t n d hn =>
          obtain rfl : t = .positive := hv
          first | trivial | exact unsigned_roundWithAccuracy _ _ _

/-- Decimals are never read as negative numbers. -/
theorem unsigned_ofScientific (n p : Nat) : Unsigned (parts (Float.ofScientific n true p)) := by
  unfold Float.ofScientific
  split
  · rename_i hsmall
    have hnum : Unsigned (parts n.toUInt64.toFloat) := by
      obtain rfl | hn := Nat.eq_zero_or_pos n
      · rfl
      · obtain ⟨m, e, hm, hparts, -⟩ := parts_toFloat hn hsmall.1
        rw [hparts]
        rfl
    have hp : p < Float.exactlyRepresentablePowersOfTen.size := Nat.lt_succ_of_le hsmall.2
    obtain ⟨m, e, hm, hden, -⟩ := parts_powerOfTen hp
    have hden : Unsigned (parts Float.exactlyRepresentablePowersOfTen[p]) := by
      rw [hden]
      rfl
    rw [if_pos rfl]
    exact unsigned_unpack_pack (unsigned_div hnum hden)
  · rw [if_pos rfl]
    refine unsigned_unpack_pack ?_
    rw [UnpackedFloat.ofScientific]
    split_ifs
    · rfl
    · rfl
    · rfl
    · exact unsigned_roundWithAccuracy _ _ _
    · exact unsigned_div rfl rfl

end EquationEngine.Double
