import EquationEngine.Proofs.Double.Printer

/-!
Reciprocals of odd doubles.

Every number in the range of the normal doubles is rounded to one of them: to the nearest multiple
of the distance that doubles have there. An odd double is below `2 ^ 53`, because doubles from there
on are even, so its reciprocal is in that range. From three on it is rounded to a double between
zero and one, and is not whole.
-/

namespace EquationEngine.Double

open Arithmetic (settle isZero)
open Float.Model Float.Model.UnpackedFloat

/-- Of the two integers next to a number one is at most one half away, and even if both are. -/
theorem exists_nearest {z : ℚ} (hz : 0 ≤ z) : ∃ m : Nat, m - 1 / 2 ≤ z ∧ z ≤ m + 1 / 2 ∧
    (m % 2 = 1 → (m : ℚ) - 1 / 2 < z ∧ z < m + 1 / 2) := by
  obtain ⟨k, hk⟩ : ∃ k, k = ⌊z⌋₊ := ⟨_, rfl⟩
  have hlow : (k : ℚ) ≤ z := hk ▸ Nat.floor_le hz
  have hhigh : z < k + 1 := hk ▸ Nat.lt_floor_add_one z
  rcases lt_trichotomy z (k + 1 / 2) with h | h | h
  · exact ⟨k, by linarith, by linarith, fun _ => ⟨by linarith, h⟩⟩
  · rcases Nat.mod_two_eq_zero_or_one k with heven | hodd
    · exact ⟨k, by linarith, by linarith, by omega⟩
    · exact ⟨k + 1, by push_cast; linarith, by push_cast; linarith, by omega⟩
  · refine ⟨k + 1, ?_, ?_, fun _ => ⟨?_, ?_⟩⟩ <;> push_cast <;> linarith

/-- Every number in the range of the normal doubles is rounded to a double. -/
theorem exists_near (s : UnpackedFloat.Sign) {q : ℚ} {l : Int} (hlow : (2 : ℚ) ^ l ≤ q)
    (hhigh : q < 2 ^ (l + 1)) (hleast : -1022 ≤ l) (hgreatest : l ≤ 1022) :
    ∃ (m : Nat) (e : Int) (hm : 0 < m), Fits (.finite s m e hm) ∧ Near m e q := by
  obtain ⟨e, he⟩ : ∃ e, e = l - 52 := ⟨_, rfl⟩
  have hpos : (0 : ℚ) < 2 ^ e := by positivity
  have hscale (n : Nat) : (2 : ℚ) ^ (n + e) = 2 ^ n * 2 ^ e := by
    rw [zpow_add₀ two_ne_zero, zpow_natCast]
  rw [show l = (52 : Nat) + e by omega, hscale] at hlow
  rw [show l + 1 = (53 : Nat) + e by omega, hscale] at hhigh
  -- the number in units of the distance between doubles
  obtain ⟨z, rfl⟩ : ∃ z, q = z * 2 ^ e := ⟨q / 2 ^ e, (div_mul_cancel₀ q hpos.ne').symm⟩
  have hleft := le_of_mul_le_mul_right hlow hpos
  have hright := lt_of_mul_lt_mul_right hhigh hpos.le
  obtain ⟨m, hbelow, habove, htie⟩ := exists_nearest (z := z) (by linarith)
  have hm : 2 ^ 52 ≤ m ∧ m ≤ 2 ^ 53 := by
    have h : (2 : ℚ) ^ 52 < m + 1 := by linarith
    have h' : (m : ℚ) < 2 ^ 53 + 1 := by linarith
    have h : 2 ^ 52 < m + 1 := by exact_mod_cast h
    have h' : m < 2 ^ 53 + 1 := by exact_mod_cast h'
    omega
  by_cases hcarry : m = 2 ^ 53
  · -- the nearest multiple is a power of two, and doubles lie twice as far apart from there on
    have hdouble : (2 : ℚ) ^ (e + 1) = 2 * 2 ^ e := by
      rw [zpow_add_one₀ two_ne_zero, mul_comm]
    rw [hcarry] at hbelow habove
    push_cast at hbelow habove
    refine ⟨2 ^ 52, e + 1, by decide, ⟨by norm_num, by omega, by omega, .inl le_rfl⟩, ?_, ?_, ?_⟩
    · rw [if_pos ⟨rfl, by omega⟩, hdouble, ← mul_assoc]
      gcongr
      push_cast
      linarith
    · rw [hdouble, ← mul_assoc]
      gcongr
      push_cast
      linarith
    · norm_num
  · refine ⟨m, e, by omega, ⟨by omega, by omega, by omega, .inl hm.1⟩, ?_, ?_, fun hodd => ?_⟩
    · gcongr
      split_ifs with hleast
      · rw [hleast.1]
        push_cast
        linarith
      · exact hbelow
    · gcongr
    · obtain ⟨hlow, hhigh⟩ := htie hodd
      constructor <;> gcongr

/-! Whole doubles. -/

/-- A positive whole double is its mantissa times a power of two. -/
theorem parts_of_toInt? {x : Float} {k : Int} (h : toInt? x = some k) (hk : 0 < k) :
    ∃ m e, ∃ hm : 0 < m, parts x = .finite .positive m e hm ∧ (k : ℚ) = m * 2 ^ e := by
  obtain ⟨b, hb, hint⟩ := Option.bind_eq_some_iff.1 h
  obtain ⟨j, hj, hsize⟩ := toInt?_eq hint
  have hpositive : b.negative = false := by
    cases hneg : b.negative with
    | false => rfl
    | true =>
        rw [hneg, if_pos rfl] at hj
        omega
  rw [hpositive, if_neg Bool.false_ne_true] at hj
  have hm : 0 < b.mantissa := by
    by_contra hzero
    rw [Binary.size, show b.mantissa = 0 by omega, Nat.cast_zero, zero_mul] at hsize
    have hzero : j = 0 := by exact_mod_cast hsize
    omega
  refine ⟨b.mantissa, b.exponent, hm, ?_, ?_⟩
  · rw [parts_of_toBinary? hb hm]
    simp [hpositive]
  · rw [hj]
    exact_mod_cast hsize

/-- Odd doubles are small, because from `2 ^ 53` on all doubles are even. -/
theorem lt_of_odd {m : Nat} {e : Int} {k : Int} (hm : m < 2 ^ 53) (hk : (k : ℚ) = m * 2 ^ e)
    (hodd : k % 2 = 1) : k < 2 ^ 53 := by
  rcases le_or_gt e 0 with he | he
  · have hle : (k : ℚ) ≤ m := by
      rw [hk]
      exact mul_le_of_le_one_right (Nat.cast_nonneg m) (zpow_le_one_of_nonpos₀ one_le_two he)
    have hle : k ≤ m := by exact_mod_cast hle
    omega
  · obtain ⟨j, rfl⟩ : ∃ j : Nat, e = j + 1 := ⟨(e - 1).toNat, by omega⟩
    have heven : k = 2 * (m * 2 ^ j) := by
      rw [zpow_add_one₀ two_ne_zero, zpow_natCast] at hk
      have hk : (k : ℚ) = 2 * (m * 2 ^ j) := by rw [hk]; ring
      exact_mod_cast hk
    omega

/-- The reciprocal of an odd double from three on lies between zero and one. -/
theorem parts_one_div {n : Float} {k : Int} (hn : toInt? n = some k) (hodd : k % 2 = 1)
    (hthree : 3 ≤ k) :
    ∃ m e, ∃ hm : 0 < m, parts (1 / n) = .finite .positive m e hm ∧ (m : ℚ) * 2 ^ e < 1 := by
  obtain ⟨a, d, ha, hparts, hk⟩ := parts_of_toInt? hn (by omega)
  have hfits := fits_parts n
  rw [hparts] at hfits
  have hsmall := lt_of_odd hfits.1 hk hodd
  have hpos : (0 : ℚ) < k := by exact_mod_cast (by omega : 0 < k)
  have hupper : 1 / (k : ℚ) ≤ 1 / 3 := by
    gcongr
    exact_mod_cast hthree
  have hlower : (2 : ℚ) ^ (-53 : Int) ≤ 1 / k := by
    rw [zpow_neg, ← one_div]
    gcongr
    exact_mod_cast hsmall.le
  obtain ⟨l, hlow, hhigh⟩ := exists_mem_Ico_zpow (x := 1 / (k : ℚ)) (by positivity) one_lt_two
  have hleast : -53 < l + 1 := by
    rw [← zpow_lt_zpow_iff_right₀ (one_lt_two (α := ℚ))]
    exact hlower.trans_lt hhigh
  have hgreatest : l < 0 := by
    rw [← zpow_lt_zpow_iff_right₀ (one_lt_two (α := ℚ)), zpow_zero]
    linarith
  obtain ⟨m, e, hm, hfits, hnear⟩ := exists_near .positive hlow hhigh (by omega) (by omega)
  refine ⟨m, e, hm, ?_, ?_⟩
  · have hone : parts (1 : Float) = .finite .positive (2 ^ 52) (-52) (by decide) := rfl
    have hquotient : (1 : ℚ) / k = (2 ^ 52 : Nat) * 2 ^ (-52 : Int) / (a * 2 ^ d) := by
      rw [hk]
      norm_num
    have hdiv : UnpackedFloat.div Format.binary64 (parts 1) (parts n) =
        .finite .positive m e hm := by
      rw [hone, hparts]
      refine div_eq _ ha hm hfits hquotient hnear (le_trans ?_ hlower)
      exact zpow_le_zpow_right₀ one_le_two (by decide)
    show parts (Float.ofModel (Float.Model.pack
      (UnpackedFloat.div Format.binary64 (parts 1) (parts n)))) = _
    rw [hdiv]
    exact parts_pack hfits
  · have hmantissa : (1 : ℚ) ≤ m := by exact_mod_cast hm
    calc (m : ℚ) * 2 ^ e ≤ 2 * (m - 1 / 2) * 2 ^ e := by
          gcongr
          linarith
      _ = 2 * ((m - 1 / 2) * 2 ^ e) := by ring
      _ ≤ 2 * (1 / k) := by
          gcongr
          exact hnear.half_le
      _ < 1 := by linarith

/-- A double between zero and one is not whole. -/
theorem toInt?_of_lt_one {x : Float} {m : Nat} {e : Int} {hm : 0 < m}
    (h : parts x = .finite .positive m e hm) (hlt : (m : ℚ) * 2 ^ e < 1) : toInt? x = none := by
  rw [toInt?, toBinary?_eq, h]
  by_contra hint
  obtain ⟨k, hk⟩ := Option.ne_none_iff_exists'.1 hint
  obtain ⟨j, -, hj⟩ := toInt?_eq hk
  have hmantissa : (0 : ℚ) < m := by exact_mod_cast hm
  have hpos : (0 : ℚ) < j := by
    rw [hj]
    exact mul_pos hmantissa (by positivity)
  have hlt : (j : ℚ) < 1 := hj ▸ hlt
  have hpos : 0 < j := by exact_mod_cast hpos
  have hlt : j < 1 := by exact_mod_cast hlt
  omega

/-- Doubles that compare equal are equally whole. -/
theorem toInt?_congr {x y : Float} (h : (x == y) = true) : toInt? x = toInt? y := by
  obtain heq | ⟨s, t, hx, hy⟩ := eq_or_zero_of_compare_eq (beq_iff_compare.1 h)
  · rw [eq_of_unpack_eq heq]
  · have hzero {z : Float} {r : UnpackedFloat.Sign} (hz : parts z = .zero r) :
        toInt? z = some 0 := by
      rw [toInt?, toBinary?_eq, hz]
      simp [Binary.toInt?]
    rw [hzero hx, hzero hy]

end EquationEngine.Double
