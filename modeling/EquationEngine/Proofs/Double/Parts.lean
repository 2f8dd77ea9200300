import EquationEngine.Proofs.Double.Settled

/-!
The sign, mantissa and exponent of a double.

A finite double is a sign and a mantissa below `2 ^ 53` times a power of two from `2 ^ (-1074)` to
`2 ^ 971`; the mantissa is at least `2 ^ 52`, unless the exponent is the least one. Numbers of this
form survive packing, so the parts of a negated double are the negated parts, and the exact value
read off the bits is that of the parts. The operations see the sign of a zero in the sign of their
result only, unless they divide by it.
-/

namespace EquationEngine.Double

open Arithmetic (LawfulSettle settle isOne isZero one)
open Float.Model Float.Model.UnpackedFloat

/-- The parts have the form of a packed double. -/
def Fits : UnpackedFloat → Prop
  | .finite _ m e _ => m < 2 ^ 53 ∧ -1074 ≤ e ∧ e ≤ 971 ∧ (2 ^ 52 ≤ m ∨ e = -1074)
  | _ => True

section Packing

variable (s : UnpackedFloat.Sign) (e : BitVec 11) (m : BitVec 52)

theorem ofBitVec_toBitVec : UnpackedFloat.Sign.ofBitVec s.toBitVec = s := by
  cases s <;> rfl

theorem unpackSign_packComponents :
    unpackSign (packComponents Format.binary64 s e m) = s.toBitVec := by
  apply BitVec.eq_of_getLsbD_eq
  intro i hi
  obtain rfl : i = 0 := by omega
  simp only [unpackSign, packComponents]
  grind

theorem unpack_packComponents :
    UnpackedFloat.unpack Format.binary64 (packComponents Format.binary64 s e m) =
      if e = -1#11 then if m = 0#52 then .infinity s else .notANumber
      else if e = 0#11 then
        if h : m = 0#52 then .zero s
        else .finite s m.toNat (-1074) (by simpa [BitVec.toNat_pos, BitVec.pos_iff_ne_zero])
      else .finite s (1#1 ++ m).toNat ((e.toNat : Int) - 1075)
        (by rw [toNat_one_append]; omega) := by
  unfold UnpackedFloat.unpack
  simp only [unpackMantissa_packComponents, unpackExponent_packComponents,
    unpackSign_packComponents, ofBitVec_toBitVec]
  split
  · rfl
  · split
    · rename_i hzero
      subst hzero
      rfl
    · rfl

/-- The bits of a double as a number. -/
theorem toNat_packComponents :
    (packComponents Format.binary64 s e m).toNat =
      s.toBitVec.toNat * 2 ^ 63 + e.toNat * 2 ^ 52 + m.toNat := by
  rw [packComponents, BitVec.toNat_append, BitVec.toNat_append,
    ← Nat.shiftLeft_add_eq_or_of_lt m.isLt, ← Nat.shiftLeft_add_eq_or_of_lt e.isLt,
    Nat.shiftLeft_eq, Nat.shiftLeft_eq]
  ring

end Packing

theorem fits_unpack (b : BitVec Format.binary64.numBits) :
    Fits (UnpackedFloat.unpack Format.binary64 b) := by
  rw [← packComponents_parts b, unpack_packComponents]
  have hexponent : (unpackExponent b).toNat < 2 ^ 11 := (unpackExponent b).isLt
  have hmantissa : (unpackMantissa b).toNat < 2 ^ 52 := (unpackMantissa b).isLt
  split
  · split <;> trivial
  · rename_i hmax
    have hne : (unpackExponent b).toNat ≠ 2047 := fun h => hmax (BitVec.eq_of_toNat_eq h)
    split
    · split
      · trivial
      · refine ⟨?_, ?_, ?_, .inr rfl⟩ <;> omega
    · rename_i hmin
      have hpos : (unpackExponent b).toNat ≠ 0 := fun h => hmin (BitVec.eq_of_toNat_eq h)
      rw [Fits, toNat_one_append]
      refine ⟨?_, ?_, ?_, .inl ?_⟩ <;> omega

theorem unpack_pack {u : UnpackedFloat} (h : Fits u) :
    UnpackedFloat.unpack Format.binary64 (UnpackedFloat.pack Format.binary64 u) = u := by
  cases u with
  | notANumber => rfl
  | infinity s => cases s <;> rfl
  | zero s => cases s <;> rfl
  | finite s m e hm =>
      obtain ⟨hlt, hlow, hhigh, hform⟩ := h
      have hsmall : ¬2 ^ 11 ≤ (e + 1023 + 52).toNat + 1 := by omega
      have hlog : m.log2 + 1 = 53 ↔ 2 ^ 52 ≤ m := by
        have hle := Nat.le_log2 (k := 52) hm.ne'
        have hlt53 := (Nat.log2_lt (k := 53) hm.ne').2 hlt
        omega
      -- the implicit bit is left out in packing, and its absence is told by the exponent field
      by_cases hnormal : 2 ^ 52 ≤ m
      · have hpack : UnpackedFloat.pack Format.binary64 (.finite s m e hm) =
            packComponents Format.binary64 s (BitVec.ofNat 11 (e + 1023 + 52).toNat)
              (BitVec.ofNat 52 m) :=
          (if_neg hsmall).trans (if_pos (hlog.2 hnormal))
        have hexponent : (BitVec.ofNat 11 (e + 1023 + 52).toNat).toNat = (e + 1023 + 52).toNat := by
          rw [BitVec.toNat_ofNat]
          omega
        rw [hpack, unpack_packComponents, if_neg, if_neg]
        · congr 1
          · rw [toNat_one_append, BitVec.toNat_ofNat]
            omega
          · rw [hexponent]
            omega
        · intro hzero
          rw [hzero] at hexponent
          simp at hexponent
          omega
        · intro hmax
          rw [hmax] at hexponent
          simp at hexponent
          omega
      · have hpack : UnpackedFloat.pack Format.binary64 (.finite s m e hm) =
            packComponents Format.binary64 s 0#11 (BitVec.ofNat 52 m) :=
          (if_neg hsmall).trans (if_neg (mt hlog.1 hnormal))
        have hmantissa : (BitVec.ofNat 52 m).toNat = m := by
          rw [BitVec.toNat_ofNat]
          omega
        rw [hpack, unpack_packComponents, if_neg (by decide), if_pos rfl, dif_neg]
        · congr 1
          omega
        · intro hzero
          rw [hzero] at hmantissa
          simp at hmantissa
          omega

/-! Signs. -/

/-- The parts of a double. -/
abbrev parts (x : Float) : UnpackedFloat := x.toModel.unpack

theorem fits_parts (x : Float) : Fits (parts x) := fits_unpack x.toModel.toBits.toBitVec

theorem parts_pack {u : UnpackedFloat} (h : Fits u) :
    parts (Float.ofModel (Float.Model.pack u)) = u :=
  unpack_pack h

theorem Fits.neg {u : UnpackedFloat} (h : Fits u) : Fits u.neg := by
  cases u with
  | finite s m e hm => exact h
  | _ => trivial

theorem Fits.abs {u : UnpackedFloat} (h : Fits u) : Fits u.abs := by
  cases u with
  | finite s m e hm => exact h
  | _ => trivial

theorem parts_neg (x : Float) : parts (-x) = (parts x).neg := parts_pack (fits_parts x).neg

theorem parts_abs (x : Float) : parts x.abs = (parts x).abs := parts_pack (fits_parts x).abs

theorem neg_neg (x : Float) : - -x = x := by
  have hneg (u : UnpackedFloat) : u.neg.neg = u := by
    cases u with
    | notANumber => rfl
    | infinity s | zero s | finite s => cases s <;> rfl
  refine eq_of_unpack_eq ?_
  show parts (- -x) = parts x
  rw [parts_neg, parts_neg, hneg]

theorem abs_neg (x : Float) : (-x).abs = x.abs := by
  have habs (u : UnpackedFloat) : u.neg.abs = u.abs := by
    cases u <;> rfl
  refine eq_of_unpack_eq ?_
  show parts (-x).abs = parts x.abs
  rw [parts_abs, parts_neg, habs, parts_abs]

theorem settle_settle (x : Float) : settle (settle x) = settle x :=
  settle_of_ne_negative_zero (settle_ne_negative_zero x)

/-- Only zero turns into the negative zero. -/
theorem eq_zero_of_parts_neg {x : Float} (h : parts (-x) = .zero .negative) : x = 0 := by
  refine eq_of_unpack_eq ?_
  rw [parts_neg] at h
  show parts x = _
  cases hx : parts x with
  | zero s =>
      rw [hx] at h
      cases s with
      | positive => rfl
      | negative => cases h
  | notANumber | infinity s | finite s m e =>
      rw [hx] at h
      cases h

/-- A stored number is found again behind two negations. -/
theorem settle_neg_settle_neg (x : Float) : settle (-settle (-settle x)) = settle x := by
  by_cases hzero : parts (-settle x) = .zero .negative
  · rw [eq_zero_of_parts_neg hzero]
    rfl
  · rw [settle_of_ne_negative_zero hzero, neg_neg, settle_settle]

theorem lt_iff_compare {x y : Float} : x < y ↔ (parts x).compare (parts y) = some .lt := by
  have hdecide : x < y ↔ decide (x.toModel < y.toModel) = true := Iff.rfl
  rw [hdecide, decide_eq_true_iff]
  show ((parts x).compare (parts y) == some .lt) = true ↔ _
  rw [beq_iff_eq]

/-- A size is stored as it is. -/
theorem settle_abs (x : Float) : settle x.abs = x.abs := by
  refine settle_of_ne_negative_zero ?_
  show parts x.abs ≠ _
  rw [parts_abs]
  cases parts x <;> simp [UnpackedFloat.abs]

/-- The negation of a positive number is stored as it is. -/
theorem settle_neg_of_pos {x : Float} (h : 0 < x) : settle (-x) = -x := by
  refine settle_of_ne_negative_zero fun hzero => ?_
  obtain rfl := eq_zero_of_parts_neg hzero
  rw [lt_iff_compare] at h
  cases h

/-- A size that compares equal to one is one. -/
theorem isOne_abs_iff {x : Float} : isOne x.abs = true ↔ x.abs = 1 := by
  have hone : (one : Float) = 1 := rfl
  have hsettle : settle (1 : Float) = 1 := settle_of_ne_negative_zero nofun
  show (x.abs == one) = true ↔ _
  rw [hone]
  refine ⟨fun h => ?_, fun h => by rw [h]; exact beq_self_of_not_isNaN rfl⟩
  rw [← settle_abs, ← hsettle] at h ⊢
  exact LawfulSettle.eq_of_beq _ _ h

/-- A number other than zero is its size, or its size negated. -/
theorem sign_and_size {x : Float} (hnan : x.isNaN = false) (hzero : isZero x = false) :
    0 < x.abs ∧ (x < 0 ∧ x = -x.abs ∨ ¬x < 0 ∧ x = x.abs) := by
  have hparts {y : Float} (h : parts x = parts y) : x = y := eq_of_unpack_eq h
  have hnan' : (parts x).isNaN = false := hnan
  have hzero' : parts (0 : Float) = .zero .positive := rfl
  have hne : (parts x).compare (.zero .positive) ≠ some .eq := fun h =>
    Bool.false_ne_true (hzero.symm.trans (beq_iff_compare.2 h))
  have habs := parts_abs x
  have hneg : parts (-x.abs) = (parts x).abs.neg := by rw [parts_neg, parts_abs]
  rw [lt_iff_compare, lt_iff_compare, hzero', parts_abs]
  cases hx : parts x with
  | notANumber =>
      rw [hx] at hnan'
      cases hnan'
  | zero s =>
      rw [hx] at hne
      exact absurd rfl hne
  | infinity s | finite s m e hm =>
      rw [hx] at hneg habs
      cases s with
      | positive => exact ⟨rfl, .inr ⟨nofun, hparts (hx.trans habs.symm)⟩⟩
      | negative => exact ⟨rfl, .inl ⟨rfl, hparts (hx.trans hneg.symm)⟩⟩

theorem isNaN_eq_false {x : Float} (h : x.isFinite = true) : x.isNaN = false := by
  change (parts x).isFinite = true at h
  show (parts x).isNaN = false
  cases hx : parts x with
  | notANumber =>
      rw [hx] at h
      cases h
  | infinity s | zero s | finite s m e => rfl

/-! The exact value. -/

/-- A double put together from a sign, an exponent field and a fraction field. -/
theorem exists_fields (x : Float) : ∃ (s : UnpackedFloat.Sign) (e : BitVec 11) (m : BitVec 52),
    parts x = UnpackedFloat.unpack Format.binary64 (packComponents Format.binary64 s e m) ∧
      x.toBits.toNat = s.toBitVec.toNat * 2 ^ 63 + e.toNat * 2 ^ 52 + m.toNat := by
  let b : BitVec Format.binary64.numBits := x.toModel.toBits.toBitVec
  refine ⟨.ofBitVec (unpackSign b), unpackExponent b, unpackMantissa b, ?_, ?_⟩
  · rw [packComponents_parts]
    rfl
  · rw [← toNat_packComponents, packComponents_parts]
    rfl

/-- Integer arithmetic on the bits of a double takes out its three fields. -/
theorem fields_eq {x : Float} {s : UnpackedFloat.Sign} {e : BitVec 11} {m : BitVec 52}
    (hbits : x.toBits.toNat = s.toBitVec.toNat * 2 ^ 63 + e.toNat * 2 ^ 52 + m.toNat) :
    isNegative x = (s == .negative) ∧ x.toBits.toNat / pow2 52 % pow2 11 = e.toNat ∧
      x.toBits.toNat % pow2 52 = m.toNat := by
  have hexponent : e.toNat < 2 ^ 11 := e.isLt
  have hmantissa : m.toNat < 2 ^ 52 := m.isLt
  have hsign : s.toBitVec.toNat = if s == .negative then 1 else 0 := by
    cases s <;> rfl
  rw [isNegative, hbits, hsign]
  refine ⟨?_, ?_, ?_⟩
  · show decide (2 ^ 63 ≤ _) = _
    cases hs : s == .negative with
    | true => exact decide_eq_true (by simp; omega)
    | false => exact decide_eq_false (by simp; omega)
  · show _ / 2 ^ 52 % 2 ^ 11 = _
    split <;> omega
  · show _ % 2 ^ 52 = _
    split <;> omega

/-- The exact value of a double is that of its parts. -/
theorem toBinary?_eq (x : Float) :
    toBinary? x = match parts x with
      | .finite s m e _ => some ⟨s == .negative, m, e⟩
      | .zero s => some ⟨s == .negative, 0, -1074⟩
      | _ => none := by
  obtain ⟨s, e, m, hparts, hbits⟩ := exists_fields x
  obtain ⟨hnegative, hfield, hfraction⟩ := fields_eq hbits
  rw [hparts, unpack_packComponents]
  simp only [toBinary?, hfield, hfraction, hnegative]
  have hmax : e = -1#11 ↔ e.toNat = 2047 := BitVec.toNat_inj.symm
  have hmin : e = 0#11 ↔ e.toNat = 0 := BitVec.toNat_inj.symm
  have hzero : m = 0#52 ↔ m.toNat = 0 := BitVec.toNat_inj.symm
  -- the greatest exponent field stands for infinity and for no number, the least for numbers
  -- without an implicit bit
  by_cases hspecial : e.toNat = 2047
  · rw [if_pos hspecial, if_pos (hmax.2 hspecial)]
    by_cases hm : m = 0#52
    · rw [if_pos hm]
    · rw [if_neg hm]
  · rw [if_neg hspecial, if_neg (mt hmax.1 hspecial)]
    by_cases hsmall : e.toNat = 0
    · rw [if_pos hsmall, if_pos (hmin.2 hsmall)]
      by_cases hm : m = 0#52
      · rw [dif_pos hm, hzero.1 hm]
      · rw [dif_neg hm]
    · rw [if_neg hsmall, if_neg (mt hmin.1 hsmall)]
      dsimp only
      rw [toNat_one_append]
      rfl

/-- The parts of a double other than zero, from its exact value. -/
theorem parts_of_toBinary? {x : Float} {b : Binary} (h : toBinary? x = some b)
    (hpos : 0 < b.mantissa) :
    parts x = .finite (if b.negative then .negative else .positive) b.mantissa b.exponent hpos := by
  rw [toBinary?_eq] at h
  cases hx : parts x with
  | finite s m e hm =>
      rw [hx] at h
      obtain rfl := Option.some.inj h
      cases s <;> rfl
  | zero s =>
      rw [hx] at h
      obtain rfl := Option.some.inj h
      cases hpos
  | notANumber | infinity s =>
      rw [hx] at h
      cases h

/-! The sign of a zero. -/

/-- The parts are the same, but for the sign of a zero. -/
def SameParts (u v : UnpackedFloat) : Prop := u = v ∨ ∃ s t, u = .zero s ∧ v = .zero t

/-- The doubles are the same, but for the sign of a zero. -/
def Same (x y : Float) : Prop := SameParts (parts x) (parts y)

theorem SameParts.pack {u v : UnpackedFloat} (h : SameParts u v) :
    Same (Float.ofModel (Float.Model.pack u)) (Float.ofModel (Float.Model.pack v)) := by
  obtain rfl | ⟨s, t, rfl, rfl⟩ := h
  · exact .inl rfl
  · exact .inr ⟨s, t, parts_pack trivial, parts_pack trivial⟩

namespace Same

variable {x y z w : Float}

theorem refl (x : Float) : Same x x := .inl rfl

theorem symm (h : Same x y) : Same y x :=
  h.imp Eq.symm fun ⟨s, t, hx, hy⟩ => ⟨t, s, hy, hx⟩

theorem trans (h : Same x y) (h' : Same y z) : Same x z := by
  obtain heq | ⟨s, t, hx, hy⟩ := h
  · rwa [Same, heq]
  · obtain heq | ⟨_, t', _, hz⟩ := h'
    · exact .inr ⟨s, t, hx, heq ▸ hy⟩
    · exact .inr ⟨s, t', hx, hz⟩

theorem settle (x : Float) : Same (settle x) x := by
  by_cases h : parts x = .zero .negative
  · refine .inr ⟨.positive, .negative, ?_, h⟩
    show parts (Float.ofModel (Float.Model.pack
      (UnpackedFloat.add Format.binary64 (parts x) (.zero .positive)))) = _
    rw [h]
    rfl
  · rw [settle_of_ne_negative_zero h]
    exact refl x

theorem eq_of_ne_zero (h : Same x y) (hx : isZero x = false) : x = y := by
  obtain heq | ⟨s, t, hzero, _⟩ := h
  · exact eq_of_unpack_eq heq
  · have htrue : isZero x = true := by
      show ((parts x).compare (.zero .positive) == some .eq) = true
      rw [hzero]
      rfl
    rw [hx] at htrue
    cases htrue

/-- A number other than zero is stored as it is. -/
theorem settle_of_ne_zero (h : isZero x = false) : Arithmetic.settle x = x :=
  ((settle x).symm.eq_of_ne_zero h).symm

theorem neg (h : Same x y) : Same (-x) (-y) := by
  refine SameParts.pack ?_
  obtain heq | ⟨s, t, hx, hy⟩ := h
  · exact .inl (congrArg UnpackedFloat.neg heq)
  · exact .inr ⟨-s, -t, congrArg UnpackedFloat.neg hx, congrArg UnpackedFloat.neg hy⟩

/-- An operation that gives the same at both zeros gives the same at the same doubles. -/
theorem congr_left {f : UnpackedFloat → UnpackedFloat} (h : Same x y)
    (hf : ∀ s t, SameParts (f (.zero s)) (f (.zero t))) :
    SameParts (f (parts x)) (f (parts y)) := by
  obtain heq | ⟨s, t, hx, hy⟩ := h
  · exact .inl (congrArg f heq)
  · rw [hx, hy]
    exact hf s t

theorem add (h : Same x y) (h' : Same z w) : Same (x + z) (y + w) := by
  refine (h.congr_left (f := fun u => u.add Format.binary64 (parts z)) fun s t => ?_).pack.trans
    (h'.congr_left (f := fun u => (parts y).add Format.binary64 u) fun s t => ?_).pack
  · cases parts z with
    | zero r => cases s <;> cases t <;> cases r <;> exact .inr ⟨_, _, rfl, rfl⟩
    | _ => exact .inl rfl
  · cases parts y with
    | zero r => cases s <;> cases t <;> cases r <;> exact .inr ⟨_, _, rfl, rfl⟩
    | _ => exact .inl rfl

theorem sub (h : Same x y) (h' : Same z w) : Same (x - z) (y - w) := by
  refine (h.congr_left (f := fun u => u.sub Format.binary64 (parts z)) fun s t => ?_).pack.trans
    (h'.congr_left (f := fun u => (parts y).sub Format.binary64 u) fun s t => ?_).pack
  · cases parts z with
    | zero r => cases s <;> cases t <;> cases r <;> exact .inr ⟨_, _, rfl, rfl⟩
    | _ => exact .inl rfl
  · cases parts y with
    | zero r => cases s <;> cases t <;> cases r <;> exact .inr ⟨_, _, rfl, rfl⟩
    | _ => exact .inl rfl

theorem mul (h : Same x y) (h' : Same z w) : Same (x * z) (y * w) := by
  refine (h.congr_left (f := fun u => u.mul Format.binary64 (parts z)) fun s t => ?_).pack.trans
    (h'.congr_left (f := fun u => (parts y).mul Format.binary64 u) fun s t => ?_).pack
  · cases parts z with
    | notANumber | infinity => exact .inl rfl
    | _ => exact .inr ⟨_, _, rfl, rfl⟩
  · cases parts y with
    | notANumber | infinity => exact .inl rfl
    | _ => exact .inr ⟨_, _, rfl, rfl⟩

/-- A dividend need only be the same; a divisor has to be equal, because a zero passes its sign to
an infinite quotient. -/
theorem div (h : Same x y) (z : Float) : Same (x / z) (y / z) := by
  refine (h.congr_left (f := fun u => u.div Format.binary64 (parts z)) fun s t => ?_).pack
  cases parts z with
  | notANumber | zero => exact .inl rfl
  | _ => exact .inr ⟨_, _, rfl, rfl⟩

end Same
end EquationEngine.Double
