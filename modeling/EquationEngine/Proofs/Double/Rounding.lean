import EquationEngine.Proofs.Double.Parts

/-!
Rounding to the nearest double.

Rounding works on a mantissa with two more bits: whether the rest is at least one half, and whether
it is anything else than zero or one half. These bits say enough about a number to round it, and
they say it still after a shift to the right. So a quotient whose exact value lies in the interval
of numbers nearest to a double is rounded to that double.
-/

namespace EquationEngine.Double

open Float.Model Float.Model.UnpackedFloat

/-! Mantissas with a rest. -/

/-- A mantissa with its two bits tells where a number lies between two integers. -/
structure Locates (em : ExtendedMantissa) (x : ℚ) : Prop where
  le : em.mantissa ≤ x
  lt : x < em.mantissa + 1
  round : em.roundBit = true ↔ em.mantissa + 1 / 2 ≤ x
  sticky : em.stickyBit = false ↔ x = em.mantissa ∨ x = em.mantissa + 1 / 2

theorem mantissa_ofMantissaAndAccuracy (m : Nat) (acc : Accuracy) :
    (ExtendedMantissa.ofMantissaAndAccuracy m acc).mantissa = m := by
  obtain _ | (_ | _ | _) := acc <;> rfl

theorem locates_exact (m : Nat) : Locates (.ofMantissaAndAccuracy m .exact) m where
  le := le_rfl
  lt := lt_add_one _
  round := by simp [ExtendedMantissa.ofMantissaAndAccuracy]
  sticky := by simp [ExtendedMantissa.ofMantissaAndAccuracy]

theorem locates_below_half {k : Nat} {x : ℚ} (hlow : k < x) (hhigh : x < k + 1 / 2) :
    Locates ⟨k, false, true⟩ x where
  le := hlow.le
  lt := by linarith
  round := iff_of_false Bool.false_ne_true (by dsimp only; linarith)
  sticky := iff_of_false nofun (by rintro (h | h) <;> dsimp only at h <;> linarith)

theorem locates_half {k : Nat} {x : ℚ} (h : x = k + 1 / 2) : Locates ⟨k, true, false⟩ x where
  le := by dsimp only; linarith
  lt := by dsimp only; linarith
  round := iff_of_true rfl h.ge
  sticky := iff_of_true rfl (.inr h)

theorem locates_above_half {k : Nat} {x : ℚ} (hlow : k + 1 / 2 < x) (hhigh : x < k + 1) :
    Locates ⟨k, true, true⟩ x where
  le := by dsimp only; linarith
  lt := hhigh
  round := iff_of_true rfl hlow.le
  sticky := iff_of_false nofun (by rintro (h | h) <;> dsimp only at h <;> linarith)

/-- The two bits of a quotient come from its remainder. -/
theorem locates_quotient (a : Nat) {b : Nat} (hb : 0 < b) :
    Locates (.ofMantissaAndAccuracy (a / b) (accuracyOfFraction (a % b) b)) (a / b) := by
  have hden : (0 : ℚ) < b := by exact_mod_cast hb
  have hvalue : (a : ℚ) / b = (a / b : Nat) + (a % b : Nat) / b := by
    have hsplit : (a : ℚ) = b * (a / b : Nat) + (a % b : Nat) := by
      exact_mod_cast (Nat.div_add_mod a b).symm
    nth_rewrite 1 [hsplit]
    rw [add_div, mul_div_cancel_left₀ _ hden.ne']
  have hlt : ((a % b : Nat) : ℚ) / b < 1 :=
    (div_lt_one hden).2 (by exact_mod_cast Nat.mod_lt a hb)
  generalize a / b = k at hvalue ⊢
  generalize a % b = r at hvalue hlt ⊢
  rw [hvalue, accuracyOfFraction]
  split
  · rename_i hzero
    rw [hzero, Nat.cast_zero, zero_div, add_zero]
    exact locates_exact k
  · rename_i hpos
    have hpos : (0 : ℚ) < r / b := div_pos (by exact_mod_cast Nat.pos_of_ne_zero hpos) hden
    rcases lt_trichotomy (2 * r) b with h | h | h
    · have hhalf : (r : ℚ) / b < 1 / 2 := by
        rw [div_lt_div_iff₀ hden two_pos]
        exact_mod_cast (by omega : r * 2 < 1 * b)
      rw [Nat.compare_eq_lt.2 h]
      exact locates_below_half (by linarith) (by linarith)
    · have hhalf : (r : ℚ) / b = 1 / 2 := by
        rw [div_eq_div_iff hden.ne' two_ne_zero]
        exact_mod_cast (by omega : r * 2 = 1 * b)
      rw [Nat.compare_eq_eq.2 h, hhalf]
      exact locates_half rfl
    · have hhalf : 1 / 2 < (r : ℚ) / b := by
        rw [div_lt_div_iff₀ two_pos hden]
        exact_mod_cast (by omega : 1 * b < r * 2)
      rw [Nat.compare_eq_gt.2 h]
      exact locates_above_half (by linarith) (by linarith)

theorem Locates.shiftRightOne {em : ExtendedMantissa} {x : ℚ} (h : Locates em x) :
    Locates em.shiftRightOne (x / 2) := by
  obtain ⟨m, round, sticky⟩ := em
  obtain ⟨hle, hlt, hround, hsticky⟩ := h
  dsimp only at hle hlt hround hsticky
  have hexact : (round || sticky) = false ↔ x = m := by
    rw [Bool.or_eq_false_iff, hsticky, ← Bool.not_eq_true, hround]
    constructor
    · rintro ⟨hhalf, h | h⟩
      · exact h
      · exact absurd h.ge hhalf
    · rintro rfl
      exact ⟨by linarith, .inl rfl⟩
  -- the last bit of the mantissa becomes the new round bit, and the two old bits become one
  obtain ⟨k, rfl | rfl⟩ := Nat.even_or_odd' m
  · have hshift : ExtendedMantissa.shiftRightOne ⟨2 * k, round, sticky⟩ =
        ⟨k, false, round || sticky⟩ := by
      simp [ExtendedMantissa.shiftRightOne]
    push_cast at hle hlt hexact
    rw [hshift]
    constructor
    · show (k : ℚ) ≤ x / 2
      linarith
    · show x / 2 < k + 1
      linarith
    · show false = true ↔ (k : ℚ) + 1 / 2 ≤ x / 2
      exact iff_of_false Bool.false_ne_true (by linarith)
    · show (round || sticky) = false ↔ x / 2 = k ∨ x / 2 = k + 1 / 2
      rw [hexact]
      exact ⟨fun h => .inl (by linarith), fun h => by rcases h with h | h <;> linarith⟩
  · have hshift : ExtendedMantissa.shiftRightOne ⟨2 * k + 1, round, sticky⟩ =
        ⟨k, true, round || sticky⟩ := by
      simp [ExtendedMantissa.shiftRightOne]
      omega
    push_cast at hle hlt hexact
    rw [hshift]
    constructor
    · show (k : ℚ) ≤ x / 2
      linarith
    · show x / 2 < k + 1
      linarith
    · show true = true ↔ (k : ℚ) + 1 / 2 ≤ x / 2
      exact iff_of_true rfl (by linarith)
    · show (round || sticky) = false ↔ x / 2 = k ∨ x / 2 = k + 1 / 2
      rw [hexact]
      exact ⟨fun h => .inr (by linarith), fun h => by rcases h with h | h <;> linarith⟩

theorem Locates.shiftRight {em : ExtendedMantissa} {x : ℚ} (h : Locates em x) (n : Nat) :
    Locates (em >>> n) (x / 2 ^ n) := by
  induction n with
  | zero =>
      rw [pow_zero, div_one]
      exact h
  | succ n ih =>
      have hstep : em >>> (n + 1) = (em >>> n).shiftRightOne := rfl
      rw [hstep, pow_succ, ← div_div]
      exact ih.shiftRightOne

/-- A number is rounded to an integer at most one half away; at one half the integer has to be
even. -/
theorem Locates.roundedMantissa {em : ExtendedMantissa} {x : ℚ} (h : Locates em x) {n : Nat}
    (hlow : n - 1 / 2 ≤ x) (hhigh : x ≤ n + 1 / 2)
    (htie : x = n - 1 / 2 ∨ x = n + 1 / 2 → n % 2 = 0) : em.roundedMantissa = n := by
  obtain ⟨m, round, sticky⟩ := em
  obtain ⟨hle, hlt, hround, hsticky⟩ := h
  dsimp only at hle hlt hround hsticky
  have hnm : n = m ∨ n = m + 1 := by
    have hlower : (m : ℚ) < n + 1 := by linarith
    have hupper : (n : ℚ) < m + 1 + 1 := by linarith
    have hlower : m < n + 1 := by exact_mod_cast hlower
    have hupper : n < m + 1 + 1 := by exact_mod_cast hupper
    omega
  show Accuracy.roundToNearestEven m (ExtendedMantissa.accuracy ⟨m, round, sticky⟩) = n
  -- `n` is the integer below, which is kept, or the one above; a tie is broken by evenness
  rcases hnm with rfl | rfl
  · cases round with
    | false => cases sticky <;> rfl
    | true =>
        have hhalf : x = n + 1 / 2 := le_antisymm hhigh (hround.1 rfl)
        obtain rfl : sticky = false := hsticky.2 (.inr hhalf)
        have heven := htie (.inr hhalf)
        show n + n % 2 = n
        omega
  · push_cast at hlow hhigh htie
    obtain rfl : round = true := hround.2 (by linarith)
    cases sticky with
    | true => rfl
    | false =>
        have hhalf : x = m + 1 - 1 / 2 := by
          rcases hsticky.1 rfl with h | h <;> linarith
        have heven := htie (.inl hhalf)
        show m + m % 2 = m + 1
        omega

/-! The interval of a double. -/

/-- The numbers that are rounded to `m · 2 ^ e`. Below a power of two the doubles lie twice as
close, and at the ends of the interval the mantissa has to be even. -/
structure Near (m : Nat) (e : Int) (q : ℚ) : Prop where
  low : (m - if m = 2 ^ 52 ∧ -1074 < e then 1 / 4 else 1 / 2) * 2 ^ e ≤ q
  high : q ≤ (m + 1 / 2) * 2 ^ e
  tie : m % 2 = 1 → (m - 1 / 2) * 2 ^ e < q ∧ q < (m + 1 / 2) * 2 ^ e

theorem Near.half_le {m : Nat} {e : Int} {q : ℚ} (h : Near m e q) : (m - 1 / 2) * 2 ^ e ≤ q := by
  refine le_trans ?_ h.low
  gcongr
  split_ifs <;> norm_num

theorem Near.pos {m : Nat} {e : Int} {q : ℚ} (h : Near m e q) (hm : 0 < m) : 0 < q := by
  have hone : (1 : ℚ) ≤ m := by exact_mod_cast hm
  refine lt_of_lt_of_le (mul_pos ?_ (by positivity)) h.half_le
  linarith

/-- The exponent that rounding works with, for a number between two powers of two. -/
theorem Near.exponent {m : Nat} {e : Int} {q : ℚ} (h : Near m e q) (hm : m < 2 ^ 53)
    (he : -1074 ≤ e) (hform : 2 ^ 52 ≤ m ∨ e = -1074) {l : Int} (hlow : (2 : ℚ) ^ l ≤ q)
    (hhigh : q < 2 ^ (l + 1)) :
    max (l - 52) (-1074) = e ∨
      max (l - 52) (-1074) = e - 1 ∧ m = 2 ^ 52 ∧ -1074 < e ∧ q < 2 ^ 52 * 2 ^ e := by
  have hscale (n : Nat) : (2 : ℚ) ^ n * 2 ^ e = 2 ^ (n + e) := by
    rw [zpow_add₀ two_ne_zero, zpow_natCast]
  have hpos : (0 : ℚ) < 2 ^ e := by positivity
  have hupper : l < 53 + e := by
    rw [← zpow_lt_zpow_iff_right₀ (one_lt_two (α := ℚ))]
    calc (2 : ℚ) ^ l ≤ (m + 1 / 2) * 2 ^ e := hlow.trans h.high
      _ < 2 ^ 53 * 2 ^ e := by
        have hm : (m : ℚ) + 1 ≤ 2 ^ 53 := by exact_mod_cast hm
        gcongr
        linarith
      _ = _ := hscale 53
  by_cases hpower : (2 : ℚ) ^ 52 * 2 ^ e ≤ q
  · have hlower : 52 + e < l + 1 := by
      rw [← zpow_lt_zpow_iff_right₀ (one_lt_two (α := ℚ))]
      exact (hscale 52 ▸ hpower).trans_lt hhigh
    left
    omega
  · rw [not_le] at hpower
    have hbelow : l < 52 + e := by
      rw [← zpow_lt_zpow_iff_right₀ (one_lt_two (α := ℚ))]
      exact hlow.trans_lt (hscale 52 ▸ hpower)
    by_cases hleast : e = -1074
    · left
      omega
    · -- the number lies just below the least mantissa, and so below a power of two
      have hmantissa : m = 2 ^ 52 := by
        by_contra hne
        have hm : (2 : ℚ) ^ 52 + 1 ≤ m := by exact_mod_cast (by omega : 2 ^ 52 + 1 ≤ m)
        have : (2 : ℚ) ^ 52 * 2 ^ e < q := by
          refine lt_of_lt_of_le ?_ h.half_le
          gcongr
          linarith
        linarith
      have hlower : 51 + e < l + 1 := by
        rw [← zpow_lt_zpow_iff_right₀ (one_lt_two (α := ℚ))]
        calc (2 : ℚ) ^ (51 + e) = 2 ^ 51 * 2 ^ e := (hscale 51).symm
          _ ≤ (m - 1 / 2) * 2 ^ e := by
            gcongr
            rw [hmantissa]
            norm_num
          _ ≤ q := h.half_le
          _ < 2 ^ (l + 1) := hhigh
      right
      exact ⟨by omega, hmantissa, by omega, hpower⟩

/-! Rounding. -/

theorem shiftToTargetExponent_eq {m : Nat} {e t : Int} (acc : Accuracy)
    (ht : max (m.log2 + e - 52) (-1074) = t) (he : e ≤ t) :
    shiftToTargetExponent Format.binary64 m e acc =
      (ExtendedMantissa.ofMantissaAndAccuracy m acc >>> (t - e).toNat, t) := by
  have htarget : Format.binary64.targetExponent (totalExponent m e) = t := by
    rw [← ht]
    show max (m.log2 + 1 + e - 53) (-1074) = _
    congr 1
    omega
  rw [shiftToTargetExponent, htarget, shiftToExponent]
  congr 1
  omega

/-- The first shift leaves a mantissa to round, the second one takes care of a carry. -/
theorem roundWithAccuracy_of_shifts {s : UnpackedFloat.Sign} {m n M : Nat} {e t E : Int}
    {acc : Accuracy} {first last : ExtendedMantissa} (hM : 0 < M)
    (hfirst : shiftToTargetExponent Format.binary64 m e acc = (first, t))
    (hrounded : first.roundedMantissa = n)
    (hlast : shiftToTargetExponent Format.binary64 n t .exact = (last, E))
    (hmantissa : last.mantissa = M) :
    roundWithAccuracy Format.binary64 s m e acc = .finite s M E hM := by
  subst hmantissa
  simp only [roundWithAccuracy, hfirst, hrounded, hlast]
  rw [dif_neg hM.ne']

theorem Near.roundedMantissa {m : Nat} {e : Int} {z : ℚ} (h : Near m e (z * 2 ^ e))
    {em : ExtendedMantissa} (hz : Locates em z) : em.roundedMantissa = m := by
  have hpos : (0 : ℚ) < 2 ^ e := by positivity
  have hlow := le_of_mul_le_mul_right h.half_le hpos
  have hhigh := le_of_mul_le_mul_right h.high hpos
  refine hz.roundedMantissa hlow hhigh fun htie => ?_
  by_contra hodd
  obtain ⟨hlow, hhigh⟩ := h.tie (by omega)
  have hlow := lt_of_mul_lt_mul_right hlow hpos.le
  have hhigh := lt_of_mul_lt_mul_right hhigh hpos.le
  rcases htie with h | h <;> linarith

/-- Just below the least mantissa rounding works with the next smaller exponent, and carries. -/
theorem Near.roundedMantissa_carry {e : Int} {z : ℚ} (h : Near (2 ^ 52) e (z * 2 ^ (e - 1)))
    (he : -1074 < e) (hbelow : z * 2 ^ (e - 1) < 2 ^ 52 * 2 ^ e) {em : ExtendedMantissa}
    (hz : Locates em z) : em.roundedMantissa = 2 ^ 53 := by
  have hpos : (0 : ℚ) < 2 ^ (e - 1) := by positivity
  have hdouble : (2 : ℚ) ^ e = 2 * 2 ^ (e - 1) := by
    rw [← zpow_one_add₀ two_ne_zero, add_sub_cancel]
  have hlow := h.low
  rw [if_pos ⟨rfl, he⟩, hdouble, ← mul_assoc] at hlow
  rw [hdouble, ← mul_assoc] at hbelow
  have hlow := le_of_mul_le_mul_right hlow hpos
  have hbelow := lt_of_mul_lt_mul_right hbelow hpos.le
  push_cast at hlow
  refine hz.roundedMantissa ?_ ?_ fun _ => by norm_num
  · push_cast
    linarith
  · push_cast
    linarith

theorem lt_two_pow_log2 {m : Nat} {e : Int} {y : ℚ} (h : y < m + 1) :
    y * 2 ^ e < (2 : ℚ) ^ (m.log2 + e + 1) := by
  have hbits : (m : ℚ) + 1 ≤ 2 ^ (m.log2 + 1) := by exact_mod_cast Nat.lt_log2_self (n := m)
  rw [add_right_comm, zpow_add₀ two_ne_zero, ← Nat.cast_succ, zpow_natCast]
  gcongr
  exact h.trans_le hbits

/-- A number of which the mantissa and the rest are known is rounded to the double that it is
nearest to. -/
theorem roundWithAccuracy_eq (s : UnpackedFloat.Sign) {m : Nat} {e : Int} {acc : Accuracy}
    {y : ℚ} (hm : 0 < m) (hy : Locates (.ofMantissaAndAccuracy m acc) y)
    (he : e ≤ max (m.log2 + e - 52) (-1074)) {M : Nat} {E : Int} (hM : 0 < M)
    (hfits : Fits (.finite s M E hM)) (hnear : Near M E (y * 2 ^ e)) :
    roundWithAccuracy Format.binary64 s m e acc = .finite s M E hM := by
  obtain ⟨hlt, hleast, -, hform⟩ := hfits
  have hmantissa := mantissa_ofMantissaAndAccuracy m acc
  have hlow : (2 : ℚ) ^ (m.log2 + e) ≤ y * 2 ^ e := by
    have hbits : (2 : ℚ) ^ m.log2 ≤ m := by exact_mod_cast Nat.log2_self_le hm.ne'
    rw [zpow_add₀ two_ne_zero, zpow_natCast]
    gcongr
    exact hbits.trans (hmantissa ▸ hy.le)
  have hhigh : y * 2 ^ e < (2 : ℚ) ^ (m.log2 + e + 1) := lt_two_pow_log2 (hmantissa ▸ hy.lt)
  -- the number in units of the exponent at which it is rounded
  have hunits {t : Int} (ht : e ≤ t) : y * 2 ^ e = y / 2 ^ (t - e).toNat * 2 ^ t := by
    have hpower : (2 : ℚ) ^ t = 2 ^ (t - e).toNat * 2 ^ e := by
      rw [← zpow_natCast, ← zpow_add₀ two_ne_zero]
      congr 1
      omega
    rw [hpower]
    field_simp
  have hfirst := shiftToTargetExponent_eq (m := m) (e := e) acc rfl he
  obtain htarget | ⟨htarget, rfl, hnormal, hbelow⟩ :=
    hnear.exponent hlt hleast hform hlow hhigh
  -- the mantissa fits after the first shift, and the second one does nothing
  · rw [htarget] at he hfirst
    rw [hunits he] at hnear
    have hrounded := hnear.roundedMantissa (hy.shiftRight (E - e).toNat)
    have hlog : max (M.log2 + E - 52) (-1074) = E := by
      have hless := (Nat.log2_lt (k := 53) hM.ne').2 hlt
      have hmore := Nat.le_log2 (k := 52) hM.ne'
      omega
    refine roundWithAccuracy_of_shifts hM hfirst hrounded
      (shiftToTargetExponent_eq .exact hlog le_rfl) ?_
    rw [sub_self]
    rfl
  -- rounding carries into one bit more, which the second shift takes away
  · rw [htarget] at he hfirst
    rw [hunits he] at hnear hbelow
    have hrounded := hnear.roundedMantissa_carry hnormal hbelow (hy.shiftRight (E - 1 - e).toNat)
    have hlog : max ((2 ^ 53 : Nat).log2 + (E - 1) - 52) (-1074) = E := by
      rw [Nat.log2_two_pow]
      omega
    refine roundWithAccuracy_of_shifts hM hfirst hrounded
      (shiftToTargetExponent_eq .exact hlog (by omega)) ?_
    rw [sub_sub_cancel]
    rfl

/-- Numbers closer to a double than the ends of its interval are nearest to it. -/
theorem near_of_close {m : Nat} {e : Int} {q : ℚ}
    (h : |q - m * 2 ^ e| < (if m = 2 ^ 52 ∧ -1074 < e then 1 / 4 else 1 / 2) * 2 ^ e) :
    Near m e q := by
  obtain ⟨hlow, hhigh⟩ := abs_lt.1 h
  have hpos : (0 : ℚ) < 2 ^ e := by positivity
  refine ⟨by linarith, ?_, fun hodd => ?_⟩
  · split_ifs at hhigh <;> linarith
  · rw [if_neg (by omega)] at hlow hhigh
    constructor <;> linarith

theorem near_self (m : Nat) (e : Int) : Near m e (m * 2 ^ e) := by
  refine near_of_close ?_
  rw [sub_self, abs_zero]
  split_ifs <;> positivity

/-- A quotient lies above a power of two known from the numbers of bits. -/
theorem two_pow_lt_div {a b : Nat} (ha : 0 < a) (d e : Int) (hb : 0 < b) :
    (2 : ℚ) ^ (a.log2 + d - (b.log2 + e) - 1) < a * 2 ^ d / (b * 2 ^ e) := by
  have hlow : (2 : ℚ) ^ a.log2 ≤ a := by exact_mod_cast Nat.log2_self_le ha.ne'
  have hhigh : (b : ℚ) < 2 ^ (b.log2 + 1) := by exact_mod_cast Nat.lt_log2_self (n := b)
  have hnum : (0 : ℚ) < a := by exact_mod_cast ha
  have hden : (0 : ℚ) < b := by exact_mod_cast hb
  calc (2 : ℚ) ^ (a.log2 + d - (b.log2 + e) - 1)
      = 2 ^ a.log2 * 2 ^ d / (2 ^ (b.log2 + 1) * 2 ^ e) := by
        rw [← zpow_natCast, ← zpow_natCast, ← zpow_add₀ two_ne_zero, ← zpow_add₀ two_ne_zero,
          ← zpow_sub₀ two_ne_zero]
        congr 1
        push_cast
        ring
    _ ≤ a * 2 ^ d / (2 ^ (b.log2 + 1) * 2 ^ e) := by
        gcongr
    _ < a * 2 ^ d / (b * 2 ^ e) := by
        gcongr

/-- Division of two mantissas locates the quotient, in units of the exponent that it chooses. -/
theorem divCore_locates {a b : Nat} {d e target : Int} (hb : 0 < b)
    (htarget : target = min (d - e) (max (a.log2 + d - (b.log2 + e) - 53) (-1074))) :
    ∃ m acc y, divCore Format.binary64 a d b e = (m, target, acc) ∧
      Locates (.ofMantissaAndAccuracy m acc) y ∧
        (a * 2 ^ d / (b * 2 ^ e) : ℚ) = y * 2 ^ target := by
  obtain ⟨shift, hshift⟩ : ∃ shift, shift = (d - e - target).toNat := ⟨_, rfl⟩
  refine ⟨_, _, _, ?_, locates_quotient (a <<< shift) hb, ?_⟩
  · have hformat : Format.binary64.targetExponent (totalExponent a d - totalExponent b e) =
        max (a.log2 + d - (b.log2 + e) - 53) (-1074) := by
      show max (_ - 53) (-1074) = _
      rw [totalExponent, totalExponent]
      congr 2
      omega
    rw [divCore, hformat, ← htarget, ← hshift]
  · have hpower : (2 : ℚ) ^ (d - e) = 2 ^ shift * 2 ^ target := by
      rw [← zpow_natCast, ← zpow_add₀ two_ne_zero]
      congr 1
      omega
    rw [Nat.shiftLeft_eq]
    push_cast
    rw [mul_div_mul_comm, ← zpow_sub₀ two_ne_zero, hpower]
    ring

/-- A quotient is rounded to the double that it is nearest to. -/
theorem div_eq {s t : UnpackedFloat.Sign} {a b : Nat} {d e : Int} (ha : 0 < a) (hb : 0 < b)
    {M : Nat} {E : Int} (hM : 0 < M) (hfits : Fits (.finite (s / t) M E hM)) {q : ℚ}
    (hq : q = a * 2 ^ d / (b * 2 ^ e)) (hnear : Near M E q) (hsize : (2 : ℚ) ^ (-1074 : Int) ≤ q) :
    UnpackedFloat.div Format.binary64 (.finite s a d ha) (.finite t b e hb) =
      .finite (s / t) M E hM := by
  obtain ⟨bits, hbits⟩ : ∃ bits : Int, bits = a.log2 + d - (b.log2 + e) := ⟨_, rfl⟩
  have hlower : (2 : ℚ) ^ (bits - 1) < q := hbits ▸ hq ▸ two_pow_lt_div ha d e hb
  obtain ⟨target, htarget⟩ : ∃ target, target = min (d - e) (max (bits - 53) (-1074)) := ⟨_, rfl⟩
  obtain ⟨m, acc, y, hcore, hlocates, hvalue⟩ := divCore_locates hb (hbits ▸ htarget)
  rw [← hq] at hvalue
  have hbound : y < m + 1 := mantissa_ofMantissaAndAccuracy m acc ▸ hlocates.lt
  -- the exponent is small enough for at least one bit in front of the rest
  have hunit : (2 : ℚ) ^ target ≤ q := by
    rcases le_total (bits - 53) (-1074) with h | h
    · exact le_trans (zpow_le_zpow_right₀ one_le_two (by omega)) hsize
    · exact le_trans (zpow_le_zpow_right₀ one_le_two (by omega)) hlower.le
  have hpos : 0 < m := by
    have hone : 1 ≤ y := by
      refine le_of_mul_le_mul_right ?_ (by positivity : (0 : ℚ) < 2 ^ target)
      rwa [one_mul, ← hvalue]
    have hsucc : (0 : ℚ) < m := by linarith
    exact_mod_cast hsucc
  have hbits : bits - 1 < m.log2 + target + 1 := by
    rw [← zpow_lt_zpow_iff_right₀ (one_lt_two (α := ℚ))]
    exact (hvalue ▸ hlower).trans (lt_two_pow_log2 hbound)
  show (match divCore Format.binary64 a d b e with
    | (m, e, acc) => roundWithAccuracy Format.binary64 (s / t) m e acc) = _
  rw [hcore]
  exact roundWithAccuracy_eq (s / t) hpos hlocates (by omega) hM hfits (hvalue ▸ hnear)

end EquationEngine.Double
