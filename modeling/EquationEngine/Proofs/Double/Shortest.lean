import EquationEngine.Proofs.Double.Decimal

/-!
The shortest decimal of a double is nearest to it.

Every grid that is tried gives a decimal in the interval of the double or none, so it only has to
be shown that some grid gives one. On the grid of seventeen digits the nearer neighbour of the
double is less than half a unit of the seventeenth digit away, which is less than half the distance
to the next double.
-/

namespace EquationEngine.Double

/-! Fractions. -/

/-- The number that a fraction stands for. -/
def Ratio.value (r : Ratio) : ℚ := r.num / r.den

theorem Ratio.lt_iff {a b : Ratio} (ha : 0 < a.den) (hb : 0 < b.den) :
    a.lt b = true ↔ a.value < b.value := by
  have ha : (0 : ℚ) < a.den := by exact_mod_cast ha
  have hb : (0 : ℚ) < b.den := by exact_mod_cast hb
  rw [Ratio.lt, decide_eq_true_iff, Ratio.value, Ratio.value, div_lt_div_iff₀ ha hb]
  exact_mod_cast Iff.rfl

theorem Ratio.le_iff {a b : Ratio} (ha : 0 < a.den) (hb : 0 < b.den) :
    a.le b = true ↔ a.value ≤ b.value := by
  have ha : (0 : ℚ) < a.den := by exact_mod_cast ha
  have hb : (0 : ℚ) < b.den := by exact_mod_cast hb
  rw [Ratio.le, decide_eq_true_iff, Ratio.value, Ratio.value, div_le_div_iff₀ ha hb]
  exact_mod_cast Iff.rfl

theorem Ratio.den_scale2 (n : Nat) (e : Int) : 0 < (scale2 n e).den := Nat.pow_pos two_pos

theorem Ratio.den_scale10 (n : Nat) (e : Int) : 0 < (scale10 n e).den := Nat.pow_pos (by decide)

theorem Ratio.value_scale2 (n : Nat) (e : Int) : (scale2 n e).value = n * 2 ^ e := by
  show ((n * 2 ^ e.toNat : Nat) : ℚ) / (2 ^ (-e).toNat : Nat) = _
  rw [zpow_eq_div two_ne_zero, ← mul_div_assoc]
  push_cast
  rfl

theorem Ratio.value_scale10 (n : Nat) (e : Int) : (scale10 n e).value = n * 10 ^ e := by
  show ((n * 10 ^ e.toNat : Nat) : ℚ) / (10 ^ (-e).toNat : Nat) = _
  rw [zpow_eq_div (by norm_num), ← mul_div_assoc]
  push_cast
  rfl

namespace Binary

/-- The absolute value. -/
def size (b : Binary) : ℚ := b.mantissa * 2 ^ b.exponent

/-- The lower end of the interval that is tried is that of the interval of the double. -/
theorem value_below {m : Nat} (hm : 0 < m) (e : Int) :
    (if m = pow2 52 && -1074 < e then Ratio.scale2 (4 * m - 1) (e - 2)
      else Ratio.scale2 (2 * m - 1) (e - 1)).value =
      (m - if m = 2 ^ 52 ∧ -1074 < e then 1 / 4 else 1 / 2) * 2 ^ e := by
  have hspecial : (m = pow2 52 && -1074 < e) = true ↔ m = 2 ^ 52 ∧ -1074 < e := by
    rw [Bool.and_eq_true, decide_eq_true_iff, decide_eq_true_iff]
    rfl
  by_cases h : m = 2 ^ 52 ∧ -1074 < e
  · rw [if_pos h, if_pos (hspecial.2 h), Ratio.value_scale2, zpow_sub₀ two_ne_zero,
      Nat.cast_sub (by omega)]
    push_cast
    ring
  · rw [if_neg h, if_neg (mt hspecial.1 h), Ratio.value_scale2, zpow_sub₀ two_ne_zero,
      Nat.cast_sub (by omega)]
    push_cast
    ring

theorem value_above (m : Nat) (e : Int) :
    (Ratio.scale2 (2 * m + 1) (e - 1)).value = (m + 1 / 2) * 2 ^ e := by
  rw [Ratio.value_scale2, zpow_sub₀ two_ne_zero]
  push_cast
  ring

theorem roundsFrom_iff {b : Binary} (hb : 0 < b.mantissa) {r : Ratio} (hr : 0 < r.den) :
    b.roundsFrom r = true ↔ Near b.mantissa b.exponent r.value := by
  have hbelow := value_below hb b.exponent
  have habove := value_above b.mantissa b.exponent
  have hden : 0 < (if b.mantissa = pow2 52 && -1074 < b.exponent then
      Ratio.scale2 (4 * b.mantissa - 1) (b.exponent - 2)
      else Ratio.scale2 (2 * b.mantissa - 1) (b.exponent - 1)).den := by
    split_ifs <;> exact Ratio.den_scale2 _ _
  have hden' := Ratio.den_scale2 (2 * b.mantissa + 1) (b.exponent - 1)
  unfold roundsFrom
  dsimp only
  split
  · rename_i heven
    rw [Bool.and_eq_true, Ratio.le_iff hden hr, Ratio.le_iff hr hden', hbelow, habove]
    exact ⟨fun h => ⟨h.1, h.2, by omega⟩, fun h => ⟨h.low, h.high⟩⟩
  · rename_i hodd
    have hnormal : ¬(b.mantissa = 2 ^ 52 ∧ -1074 < b.exponent) := by omega
    rw [Bool.and_eq_true, Ratio.lt_iff hden hr, Ratio.lt_iff hr hden', hbelow, habove,
      if_neg hnormal]
    refine ⟨fun h => ⟨?_, h.2.le, fun _ => h⟩, fun h => h.tie (by omega)⟩
    rw [if_neg hnormal]
    exact h.1.le

theorem near_of_onGrid? {b : Binary} (hb : 0 < b.mantissa) {e : Int} {d : Decimal}
    (h : b.onGrid? e = some d) : Near b.mantissa b.exponent (d.digits * 10 ^ d.exponent) := by
  have hgrid (n : Nat) (hn : b.roundsFrom (.scale10 n e) = true) :
      Near b.mantissa b.exponent (n * 10 ^ e) :=
    Ratio.value_scale10 n e ▸ (roundsFrom_iff hb (Ratio.den_scale10 n e)).1 hn
  unfold onGrid? at h
  dsimp only at h
  split at h
  · rename_i hlow hhigh
    obtain rfl := Option.some.inj h
    dsimp only
    split
    · exact hgrid _ hlow
    · exact hgrid _ hhigh
  · rename_i hlow _
    obtain rfl := Option.some.inj h
    exact hgrid _ hlow
  · rename_i _ hhigh
    obtain rfl := Option.some.inj h
    exact hgrid _ hhigh
  · cases h

theorem near_of_shortestFrom {b : Binary} (hb : 0 < b.mantissa) {magnitude : Int}
    {grids count : Nat} (h : ∃ k < grids, (b.onGrid? (magnitude - (count + k))).isSome) :
    let d := b.shortestFrom magnitude grids count
    Near b.mantissa b.exponent (d.digits * 10 ^ d.exponent) := by
  induction grids generalizing count with
  | zero =>
      obtain ⟨k, hk, -⟩ := h
      omega
  | succ grids ih =>
      rw [shortestFrom]
      cases hgrid : b.onGrid? (magnitude - count) with
      | some d => exact near_of_onGrid? hb hgrid
      | none =>
          obtain ⟨k, hk, hsome⟩ := h
          obtain _ | k := k
          · simp [hgrid] at hsome
          · refine ih ⟨k, by omega, ?_⟩
            convert hsome using 3
            push_cast
            ring

/-- A double lies between two neighbours on every grid. -/
theorem grid_neighbours (b : Binary) (e : Int) {low : Nat}
    (hlow : low = (Ratio.scale2 b.mantissa b.exponent).num * pow10 (-e).toNat /
      ((Ratio.scale2 b.mantissa b.exponent).den * pow10 e.toNat)) :
    low * 10 ^ e ≤ b.size ∧ b.size < (low + 1) * 10 ^ e := by
  have hden : 0 < (Ratio.scale2 b.mantissa b.exponent).den * pow10 e.toNat :=
    Nat.mul_pos (Ratio.den_scale2 _ _) (Nat.pow_pos (by decide))
  have hvalue : ((Ratio.scale2 b.mantissa b.exponent).num * pow10 (-e).toNat : Nat) /
      (((Ratio.scale2 b.mantissa b.exponent).den * pow10 e.toNat : Nat) : ℚ) = b.size / 10 ^ e := by
    have hsize : b.size = (Ratio.scale2 b.mantissa b.exponent).value :=
      (Ratio.value_scale2 _ _).symm
    have hpow (n : Nat) : ((pow10 n : Nat) : ℚ) = 10 ^ n := Nat.cast_pow 10 n
    rw [hsize, Ratio.value, zpow_eq_div (by norm_num), Nat.cast_mul, Nat.cast_mul, hpow, hpow,
      div_div_div_eq]
  have hlocates := locates_quotient ((Ratio.scale2 b.mantissa b.exponent).num *
    pow10 (-e).toNat) hden
  rw [hvalue] at hlocates
  have hle := hlocates.le
  have hlt := hlocates.lt
  rw [mantissa_ofMantissaAndAccuracy, ← hlow] at hle hlt
  exact ⟨(le_div_iff₀ (by positivity)).1 hle, (div_lt_iff₀ (by positivity)).1 hlt⟩

/-- A grid whose step is below half the width of the interval gives a decimal. -/
theorem onGrid?_isSome {b : Binary} (hb : 0 < b.mantissa) {e : Int}
    (h : (10 : ℚ) ^ e < (if b.mantissa = 2 ^ 52 ∧ -1074 < b.exponent then 1 / 2 else 1) *
      2 ^ b.exponent) : (b.onGrid? e).isSome := by
  have hhalf : (10 : ℚ) ^ e / 2 <
      (if b.mantissa = 2 ^ 52 ∧ -1074 < b.exponent then 1 / 4 else 1 / 2) * 2 ^ b.exponent := by
    split_ifs at h ⊢ <;> linarith
  have hfits (n : Nat) (hn : |n * 10 ^ e - b.size| ≤ (10 : ℚ) ^ e / 2) :
      b.roundsFrom (.scale10 n e) = true := by
    rw [roundsFrom_iff hb (Ratio.den_scale10 n e), Ratio.value_scale10]
    exact near_of_close (hn.trans_lt hhalf)
  unfold onGrid?
  dsimp only
  generalize hlow : (Ratio.scale2 b.mantissa b.exponent).num * pow10 (-e).toNat /
    ((Ratio.scale2 b.mantissa b.exponent).den * pow10 e.toNat) = low
  obtain ⟨hle, hlt⟩ := b.grid_neighbours e hlow.symm
  split
  · rfl
  · rfl
  · rfl
  · rename_i hlowFits hhighFits
    exfalso
    rcases le_total (b.size - low * 10 ^ e) (10 ^ e / 2) with hnear | hfar
    · have := hfits low (by rw [abs_sub_comm, abs_of_nonneg (by linarith)]; exact hnear)
      rw [this] at hlowFits
      cases hlowFits
    · have := hfits (low + 1) (by
        rw [Nat.cast_succ, abs_of_nonneg (by linarith)]
        linarith)
      rw [this] at hhighFits
      cases hhighFits

/-- The guess for the number of digits before the point is at most one too high. -/
theorem ten_pow_le_two_pow {l guess : Int} (hlow : -1100 ≤ l) (hhigh : l ≤ 1100)
    (hguess : 100000 * guess ≤ 30103 * l) : (10 : ℚ) ^ (guess - 1) ≤ 2 ^ l := by
  have hpower (n : Nat) : ((10 : ℚ) ^ (guess - 1)) ^ n = 10 ^ (n * (guess - 1)) := by
    rw [← zpow_natCast, ← zpow_mul, mul_comm]
  have hswap (n : Nat) : ((2 : ℚ) ^ n) ^ l = (2 ^ l) ^ n := by
    rw [← zpow_natCast, ← zpow_natCast, zpow_comm]
  -- the logarithm of two lies between 31 / 103 and 28 / 93
  rcases le_total 0 l with hpos | hneg
  · refine le_of_pow_le_pow_left₀ (n := 103) (by norm_num) (by positivity) ?_
    calc ((10 : ℚ) ^ (guess - 1)) ^ 103 = 10 ^ (((103 : Nat) : Int) * (guess - 1)) := hpower 103
      _ ≤ 10 ^ (31 * l) := zpow_le_zpow_right₀ (by norm_num) (by omega)
      _ = (10 ^ 31) ^ l := by
        rw [zpow_mul]
        rfl
      _ ≤ (2 ^ 103) ^ l := zpow_le_zpow_left₀ hpos (by norm_num) (by norm_num)
      _ = (2 ^ l) ^ 103 := hswap 103
  · refine le_of_pow_le_pow_left₀ (n := 93) (by norm_num) (by positivity) ?_
    calc ((10 : ℚ) ^ (guess - 1)) ^ 93 = 10 ^ (((93 : Nat) : Int) * (guess - 1)) := hpower 93
      _ ≤ 10 ^ (28 * l) := zpow_le_zpow_right₀ (by norm_num) (by omega)
      _ = (10 ^ 28) ^ l := by
        rw [zpow_mul]
        rfl
      _ ≤ (2 ^ 93) ^ l := by
        obtain ⟨k, rfl⟩ : ∃ k, l = -k := ⟨-l, by omega⟩
        rw [zpow_neg, zpow_neg]
        gcongr
        exact zpow_le_zpow_left₀ (by omega) (by norm_num) (by norm_num)
      _ = (2 ^ l) ^ 93 := hswap 93

theorem ten_pow_le_size {b : Binary} (hb : 0 < b.mantissa) (hlt : b.mantissa < 2 ^ 53)
    (hlow : -1074 ≤ b.exponent) (hhigh : b.exponent ≤ 971) :
    (10 : ℚ) ^ (b.magnitude - 1) ≤ b.size := by
  have hvalue (e : Int) : (Ratio.scale2 b.mantissa b.exponent).lt (.scale10 1 e) = true ↔
      b.size < 10 ^ e := by
    rw [Ratio.lt_iff (Ratio.den_scale2 _ _) (Ratio.den_scale10 _ _), Ratio.value_scale2,
      Ratio.value_scale10, Nat.cast_one, one_mul, size]
  have hlog : b.mantissa.log2 < 53 := (Nat.log2_lt hb.ne').2 hlt
  have hbits : (2 : ℚ) ^ (b.mantissa.log2 + b.exponent) ≤ b.size := by
    have hmantissa : (2 : ℚ) ^ b.mantissa.log2 ≤ b.mantissa := by
      exact_mod_cast Nat.log2_self_le hb.ne'
    rw [zpow_add₀ two_ne_zero, zpow_natCast, size]
    gcongr
  unfold magnitude
  dsimp only
  generalize hguess : ((b.mantissa.log2 + b.exponent) * 30103).fdiv 100000 = guess
  rw [Int.fdiv_eq_ediv_of_nonneg _ (by decide)] at hguess
  split
  · exact (ten_pow_le_two_pow (by omega) (by omega) (by omega)).trans hbits
  · rename_i hguess
    rw [hvalue, not_lt] at hguess
    split
    · rwa [add_sub_cancel_right]
    · rename_i hnext
      rw [hvalue, not_lt] at hnext
      rwa [show guess + 2 - 1 = guess + 1 by ring]

/-- The shortest decimal of a double is nearest to it. -/
theorem near_shortest {b : Binary} (hb : 0 < b.mantissa) (hlt : b.mantissa < 2 ^ 53)
    (hlow : -1074 ≤ b.exponent) (hhigh : b.exponent ≤ 971) :
    Near b.mantissa b.exponent (b.shortest.digits * 10 ^ b.shortest.exponent) := by
  refine near_of_shortestFrom hb ⟨16, by decide, onGrid?_isSome hb ?_⟩
  have hsize := ten_pow_le_size hb hlt hlow hhigh
  have hunit : (0 : ℚ) < 2 ^ b.exponent := by positivity
  calc (10 : ℚ) ^ (b.magnitude - (((1 : Nat) : Int) + ((16 : Nat) : Int)))
      = 10 ^ (b.magnitude - 1) * (1 / 10 ^ 16) := by
        rw [show b.magnitude - (((1 : Nat) : Int) + ((16 : Nat) : Int)) = b.magnitude - 1 - 16 by
          push_cast; ring, zpow_sub₀ (by norm_num)]
        norm_num
        ring
    _ ≤ b.mantissa * 2 ^ b.exponent * (1 / 10 ^ 16) := by
        gcongr
        exact hsize
    _ = b.mantissa * (1 / 10 ^ 16) * 2 ^ b.exponent := by ring
    _ < _ := by
        gcongr
        split_ifs with hspecial
        · rw [hspecial.1]
          norm_num
        · have hlt : (b.mantissa : ℚ) < 2 ^ 53 := by exact_mod_cast hlt
          rw [mul_one_div, div_lt_one (by positivity)]
          exact hlt.trans (by norm_num)

end Binary

end EquationEngine.Double
