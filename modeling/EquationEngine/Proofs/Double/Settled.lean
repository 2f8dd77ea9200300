import Mathlib
import EquationEngine.Double.Arithmetic
import EquationEngine.Proofs.Simplify.Normal

/-!
Doubles as stored constants.

A double is its sign, exponent and mantissa put together again, so two doubles with the same parts
are the same. Comparison sees all of these but the sign of a zero, and a stored constant is never
the negative zero. Hence stored doubles that compare equal are equal, and every double but the one
that is no number compares equal to itself.
-/

namespace EquationEngine.Double

open Arithmetic
open Float.Model Float.Model.UnpackedFloat

theorem toBitVec_ofBitVec (s : BitVec 1) : (Sign.ofBitVec s).toBitVec = s := by
  revert s
  decide

theorem toNat_one_append (m : BitVec 52) : (1#1 ++ m).toNat = 2 ^ 52 + m.toNat := by
  rw [BitVec.toNat_append, Nat.shiftLeft_eq, show (1#1).toNat = 1 from rfl, Nat.mul_comm,
    ← Nat.two_pow_add_eq_or_of_lt m.isLt, Nat.mul_one]

theorem log2_with_leading_bit (m : BitVec 52) : (2 ^ 52 + m.toNat).log2 = 52 := by
  rw [Nat.log2_eq_iff (by omega)]
  have := m.isLt
  omega

theorem log2_lt_of_ne_zero {m : BitVec 52} (h : m ≠ 0#52) : m.toNat.log2 < 52 := by
  rw [Nat.log2_lt]
  · exact m.isLt
  · simpa [← BitVec.toNat_inj] using h

section Parts

variable (b : BitVec Format.binary64.numBits)

/-- A word of bits is its three parts in a row. -/
theorem packComponents_parts :
    packComponents Format.binary64 (Sign.ofBitVec (unpackSign b)) (unpackExponent b)
      (unpackMantissa b) = b := by
  rw [packComponents, toBitVec_ofBitVec]
  apply BitVec.eq_of_getLsbD_eq
  intro i hi
  simp [unpackSign, unpackExponent, unpackMantissa]
  grind

theorem pack_unpack_bits (h : Format.binary64.Valid b) :
    UnpackedFloat.pack Format.binary64 (UnpackedFloat.unpack Format.binary64 b) = b := by
  have hparts := packComponents_parts b
  unfold UnpackedFloat.unpack
  dsimp only
  split
  · rename_i hexp
    split
    · rename_i hman
      rw [hexp, hman] at hparts
      exact hparts
    · rename_i hman
      exact (h.eq_packedNaN hexp hman).symm
  · rename_i hexp
    split
    · rename_i hzero
      rw [hzero] at hparts
      split
      · rename_i hman
        rw [hman] at hparts
        exact hparts
      · -- a subnormal number: its mantissa is too short for the implicit bit
        rename_i hman
        have hlog := log2_lt_of_ne_zero hman
        simp only [UnpackedFloat.pack, hzero]
        rw [if_neg, if_neg]
        · simpa using hparts
        · simp only [Format.mantissaBits]
          omega
        · simp [Format.exponentBias]
    · -- a normal number: the bias added in packing is the one taken off in unpacking
      have hbiased : (((unpackExponent b).toNat : Int) -
          (Format.binary64.exponentBias + (52 : Nat)) + Format.binary64.exponentBias +
          (52 : Nat)).toNat = (unpackExponent b).toNat := by omega
      have hlt : (unpackExponent b).toNat < 2048 := (unpackExponent b).isLt
      have hmax : (unpackExponent b).toNat ≠ 2047 := by
        intro heq
        exact hexp (BitVec.eq_of_toNat_eq heq)
      simp only [UnpackedFloat.pack, toNat_one_append, log2_with_leading_bit, hbiased]
      rw [if_neg, if_pos]
      · simpa [BitVec.ofNat_add] using hparts
      · simp [Format.mantissaBits]
      · simp only [Nat.reducePow, Nat.not_le]
        omega

end Parts

theorem pack_unpack (x : Float.Model) : Float.Model.pack x.unpack = x := by
  obtain ⟨bits, hvalid⟩ := x
  have h := pack_unpack_bits bits.toBitVec hvalid
  simp only [Float.Model.pack, Float.Model.unpack, h]

/-- A double is determined by its parts. -/
theorem eq_of_unpack_eq {x y : Float} (h : x.toModel.unpack = y.toModel.unpack) : x = y := by
  obtain ⟨x⟩ := x
  obtain ⟨y⟩ := y
  rw [← pack_unpack x, ← pack_unpack y]
  exact congrArg (fun u => Float.ofModel (Float.Model.pack u)) h

/-- Adding zero changes the negative zero only. -/
theorem settle_of_ne_negative_zero {x : Float} (h : x.toModel.unpack ≠ .zero .negative) :
    settle x = x := by
  have hadd : UnpackedFloat.add Format.binary64 x.toModel.unpack (.zero .positive) =
      x.toModel.unpack := by
    cases hx : x.toModel.unpack with
    | zero s =>
        cases s with
        | negative => exact absurd hx h
        | positive => rfl
    | _ => rfl
  show Float.ofModel (Float.Model.pack
    (UnpackedFloat.add Format.binary64 x.toModel.unpack (.zero .positive))) = x
  rw [hadd, pack_unpack]

theorem settle_ne_negative_zero (x : Float) : (settle x).toModel.unpack ≠ .zero .negative := by
  by_cases h : x.toModel.unpack = .zero .negative
  · have hsettle : settle x = Float.ofModel (Float.Model.pack (.zero .positive)) := by
      show Float.ofModel (Float.Model.pack
        (UnpackedFloat.add Format.binary64 x.toModel.unpack (.zero .positive))) = _
      rw [h]
      rfl
    rw [hsettle]
    intro hzero
    cases hzero
  · rw [settle_of_ne_negative_zero h]
    exact h

theorem eq_of_then_eq {e e' : Int} {m m' : Nat}
    (h : (compare e e').then (compare m m') = .eq) : e = e' ∧ m = m' := by
  rw [Ordering.then_eq_eq, Std.compare_eq_iff_eq, Std.compare_eq_iff_eq] at h
  exact h

/-- Comparison sees everything but the sign of a zero. -/
theorem eq_or_zero_of_compare_eq {u v : UnpackedFloat} (h : u.compare v = some .eq) :
    u = v ∨ ∃ s t, u = .zero s ∧ v = .zero t := by
  unfold UnpackedFloat.compare at h
  split at h <;> try cases h
  case h_3 s t =>
    cases s <;> cases t <;> first | exact .inl rfl | cases h
  case h_12 s t => exact .inr ⟨s, t, rfl, rfl⟩
  case h_13 m e hm m' e' hm' =>
    obtain ⟨rfl, rfl⟩ := eq_of_then_eq (Ordering.swap_eq_eq.1 (Option.some.inj h))
    exact .inl rfl
  case h_16 m e hm m' e' hm' =>
    obtain ⟨rfl, rfl⟩ := eq_of_then_eq (Option.some.inj h)
    exact .inl rfl

/-- Numbers of which neither is the negative zero compare equal only if they have the same
parts. -/
theorem eq_of_compare_eq {u v : UnpackedFloat} (hu : u ≠ .zero .negative)
    (hv : v ≠ .zero .negative) (h : u.compare v = some .eq) : u = v := by
  obtain rfl | ⟨s, t, rfl, rfl⟩ := eq_or_zero_of_compare_eq h
  · rfl
  · cases s <;> cases t <;> first | rfl | exact absurd rfl hu | exact absurd rfl hv

theorem beq_iff_compare {x y : Float} :
    (x == y) = true ↔ x.toModel.unpack.compare y.toModel.unpack = some .eq := by
  show (x.toModel.unpack.compare y.toModel.unpack == some .eq) = true ↔ _
  rw [beq_iff_eq]

/-- Equality of doubles is symmetric and transitive; it is not reflexive. -/
instance instPartialEquivBEqFloat : PartialEquivBEq Float where
  symm {x y} h := by
    rw [beq_iff_compare] at h ⊢
    obtain heq | ⟨s, t, hx, hy⟩ := eq_or_zero_of_compare_eq h
    · rwa [heq] at h ⊢
    · rw [hx, hy]
      rfl
  trans {x y z} h h' := by
    rw [beq_iff_compare] at h h' ⊢
    obtain heq | ⟨s, t, hx, hy⟩ := eq_or_zero_of_compare_eq h
    · rwa [heq]
    · obtain heq | ⟨-, t', -, hz⟩ := eq_or_zero_of_compare_eq h'
      · rw [hx, ← heq, hy]
        rfl
      · rw [hx, hz]
        rfl

instance : LawfulSettle Float where
  eq_of_beq x y h := by
    refine eq_of_unpack_eq (eq_of_compare_eq (settle_ne_negative_zero x)
      (settle_ne_negative_zero y) ?_)
    change ((settle x).toModel.unpack.compare (settle y).toModel.unpack == some .eq) = true at h
    exact LawfulBEq.eq_of_beq h

theorem beq_self_of_not_isNaN {x : Float} (h : x.isNaN = false) : (x == x) = true := by
  show (x.toModel.unpack.compare x.toModel.unpack == some .eq) = true
  change x.toModel.unpack.isNaN = false at h
  cases hx : x.toModel.unpack with
  | notANumber =>
      rw [hx] at h
      cases h
  | infinity s => cases s <;> rfl
  | zero s => rfl
  | finite s m e hm => cases s <;> simp [UnpackedFloat.compare]

end EquationEngine.Double
