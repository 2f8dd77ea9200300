import EquationEngine.Proofs.Double.Printer

/-!
Different numbers are written differently.

Digits with an optional point and an optional exponent stand for a rational number. The text of a
finite double without a sign is of this form, and the number it stands for is rounded to the double.
No number is rounded to two doubles, so the text determines the double.
-/

namespace EquationEngine.Double

open Arithmetic
open Float.Model Float.Model.UnpackedFloat

/-! A number is nearest to one double only. -/

theorem Near.mantissa_le {m m' : Nat} {e : Int} {q : ℚ} (h : Near m e q) (h' : Near m' e q) :
    m' ≤ m := by
  by_contra hlt
  rw [not_le] at hlt
  have hpos : (0 : ℚ) < 2 ^ e := by positivity
  have hsucc : (m : ℚ) + 1 ≤ m' := by exact_mod_cast hlt
  have hends : ((m : ℚ) + 1 / 2) * 2 ^ e ≤ (m' - 1 / 2) * 2 ^ e := by
    gcongr
    linarith
  -- the intervals meet in one point at most, which belongs to the even mantissa
  by_cases hodd : m % 2 = 1
  · have := (h.tie hodd).2
    have := h'.half_le
    linarith
  · by_cases hodd' : m' % 2 = 1
    · have := (h'.tie hodd').1
      have := h.high
      linarith
    · have hgap : (m : ℚ) + 1 < m' := by exact_mod_cast (by omega : m + 1 < m')
      have hends : ((m : ℚ) + 1 / 2) * 2 ^ e < (m' - 1 / 2) * 2 ^ e := by
        gcongr
        linarith
      have := h.high
      have := h'.half_le
      linarith

/-- The numbers just below the least mantissa are not nearest to a double with the next smaller
exponent. -/
theorem Near.not_below {m : Nat} {e : Int} {q : ℚ} (h : Near m (e - 1) q)
    (h' : Near (2 ^ 52) e q) (hlt : m < 2 ^ 53) (he : -1074 < e) : False := by
  have hpos : (0 : ℚ) < 2 ^ (e - 1) := by positivity
  have hdouble : (2 : ℚ) ^ e = 2 * 2 ^ (e - 1) := by
    rw [← zpow_one_add₀ two_ne_zero, add_sub_cancel]
  have hlow := h'.low
  rw [if_pos ⟨rfl, he⟩, hdouble] at hlow
  push_cast at hlow
  by_cases hlast : m = 2 ^ 53 - 1
  · have hhigh := (h.tie (by omega)).2
    rw [hlast] at hhigh
    push_cast at hhigh
    linarith
  · have hless : (m : ℚ) + 2 ≤ 2 ^ 53 := by exact_mod_cast (by omega : m + 2 ≤ 2 ^ 53)
    have hhigh : q ≤ (2 ^ 53 - 3 / 2) * 2 ^ (e - 1) := by
      refine h.high.trans ?_
      gcongr
      linarith
    linarith

theorem Near.unique {m m' : Nat} {e e' : Int} {q : ℚ} {s s' : UnpackedFloat.Sign} {hm : 0 < m}
    {hm' : 0 < m'} (hfits : Fits (.finite s m e hm)) (hfits' : Fits (.finite s' m' e' hm'))
    (h : Near m e q) (h' : Near m' e' q) : m = m' ∧ e = e' := by
  obtain ⟨hlt, hlow, -, hform⟩ := hfits
  obtain ⟨hlt', hlow', -, hform'⟩ := hfits'
  obtain ⟨l, hl, hl'⟩ := exists_mem_Ico_zpow (h.pos hm) (one_lt_two (α := ℚ))
  obtain he | ⟨he, hm₂, hn, -⟩ := h.exponent hlt hlow hform hl hl' <;>
    obtain he' | ⟨he', hm₂', hn', -⟩ := h'.exponent hlt' hlow' hform' hl hl'
  · obtain rfl : e = e' := he.symm.trans he'
    exact ⟨le_antisymm (h'.mantissa_le h) (h.mantissa_le h'), rfl⟩
  · obtain rfl : e = e' - 1 := he.symm.trans he'
    subst hm₂'
    exact (h.not_below h' hlt hn').elim
  · obtain rfl : e' = e - 1 := he'.symm.trans he
    subst hm₂
    exact (h'.not_below h hlt' hn).elim
  · exact ⟨hm₂.trans hm₂'.symm, by omega⟩

/-! What a text stands for. -/

/-- Digits with an optional point stand for a number. -/
inductive Mantissa : List Char → ℚ → Prop
  | whole {ds : List Char} : ds ≠ [] → AllDigits ds → Mantissa ds (Nat.ofDigitChars 10 ds 0)
  | pointed {ds fs : List Char} : ds ≠ [] → AllDigits ds → AllDigits fs →
      Mantissa (ds ++ '.' :: fs) (Nat.ofDigitChars 10 (ds ++ fs) 0 / 10 ^ fs.length)

/-- Digits with an optional point and an optional exponent stand for a number. -/
inductive Stands : List Char → ℚ → Prop
  | plain {cs : List Char} {q : ℚ} : Mantissa cs q → Stands cs q
  | marked {cs : List Char} {q : ℚ} (e : Int) : Mantissa cs q →
      Stands (cs ++ exponentMark e) (q * 10 ^ e)

/-- A character of the text of a number without a sign. -/
def isNumeric (c : Char) : Bool := c.isDigit || c == '.' || c == 'e' || c == '+' || c == '-'

theorem AllDigits.isNumeric {cs : List Char} (h : AllDigits cs) : ∀ c ∈ cs, isNumeric c = true := by
  intro c hc
  simp [Double.isNumeric, h c hc]

theorem Mantissa.isNumeric {cs : List Char} {q : ℚ} (h : Mantissa cs q) :
    ∀ c ∈ cs, isNumeric c = true := by
  cases h with
  | whole _ hds => exact hds.isNumeric
  | pointed _ hds hfs =>
      rw [List.forall_mem_append, List.forall_mem_cons]
      exact ⟨hds.isNumeric, rfl, hfs.isNumeric⟩

theorem allDigits_exponent (e : Int) :
    AllDigits (zeros (2 - (Nat.toDigits 10 e.natAbs).length) ++ Nat.toDigits 10 e.natAbs) :=
  (allDigits_zeros _).append (allDigits_toDigits _)

theorem isNumeric_exponentMark (e : Int) : ∀ c ∈ exponentMark e, isNumeric c = true := by
  rw [exponentMark, List.forall_mem_cons, List.forall_mem_cons]
  refine ⟨rfl, ?_, (allDigits_exponent e).isNumeric⟩
  split <;> rfl

theorem Stands.isNumeric {cs : List Char} {q : ℚ} (h : Stands cs q) :
    ∀ c ∈ cs, isNumeric c = true := by
  cases h with
  | plain h => exact h.isNumeric
  | marked e h => exact List.forall_mem_append.2 ⟨h.isNumeric, isNumeric_exponentMark e⟩

theorem Mantissa.exists_cons {cs : List Char} {q : ℚ} (h : Mantissa cs q) :
    ∃ d w, cs = d :: w ∧ d.isDigit = true := by
  cases h with
  | whole hne hds | pointed hne hds =>
      obtain ⟨d, ds, rfl⟩ := List.exists_cons_of_ne_nil hne
      exact ⟨d, _, rfl, hds d List.mem_cons_self⟩

theorem Stands.exists_cons {cs : List Char} {q : ℚ} (h : Stands cs q) :
    ∃ d w, cs = d :: w ∧ d.isDigit = true := by
  cases h with
  | plain h => exact h.exists_cons
  | marked e h =>
      obtain ⟨d, w, rfl, hd⟩ := h.exists_cons
      exact ⟨d, _, rfl, hd⟩

theorem AllDigits.notMem {cs : List Char} (h : AllDigits cs) {c : Char} (hc : c.isDigit = false) :
    c ∉ cs :=
  fun hmem => Bool.false_ne_true (hc.symm.trans (h c hmem))

/-- A mantissa stands for one number. -/
theorem Mantissa.unique {cs ds : List Char} {q r : ℚ} (h : Mantissa cs q) (h' : Mantissa ds r)
    (heq : cs = ds) : q = r := by
  have hpoint (ds : List Char) (fs : List Char) : '.' ∈ ds ++ '.' :: fs := by simp
  cases h with
  | @whole ds _ hds =>
      cases h' with
      | whole => rw [heq]
      | pointed =>
          exact absurd (heq ▸ hpoint _ _) (hds.notMem (by decide))
  | @pointed ds fs _ hds hfs =>
      cases h' with
      | whole _ hds' => exact absurd (heq ▸ hpoint _ _) (hds'.notMem (by decide))
      | pointed _ hds' hfs' =>
          obtain ⟨rfl, -, rfl⟩ := (List.append_cons_inj_of_notMem
            (hds.notMem (c := '.') (by decide)) (hfs.notMem (by decide))).1 heq
          rfl

theorem Mantissa.notMem_mark {cs : List Char} {q : ℚ} (h : Mantissa cs q) : 'e' ∉ cs := by
  cases h with
  | whole _ hds => exact hds.notMem (by decide)
  | pointed _ hds hfs =>
      rw [List.mem_append, List.mem_cons]
      rintro (h | h | h)
      · exact hds.notMem (by decide) h
      · cases h
      · exact hfs.notMem (by decide) h

theorem exponentMark_injective : Function.Injective exponentMark := by
  intro e f h
  obtain ⟨hsign, hdigits⟩ := List.cons.inj (List.cons.inj h).2
  have habs : e.natAbs = f.natAbs := by
    have hvalue := congrArg (Nat.ofDigitChars 10 · 0) hdigits
    simpa only [ofDigitChars_append, ofDigitChars_zeros, zero_mul, zero_add,
      Nat.ofDigitChars_ten_toDigits] using hvalue
  have hneg : e < 0 ↔ f < 0 := by
    split_ifs at hsign with he hf hf
    · exact iff_of_true he hf
    · cases hsign
    · cases hsign
    · exact iff_of_false he hf
  omega

theorem notMem_exponentMark (e : Int) : 'e' ∉ (exponentMark e).tail := by
  rw [exponentMark, List.tail_cons, List.mem_cons]
  rintro (h | h)
  · split_ifs at h <;> cases h
  · exact (allDigits_exponent e).notMem (by decide) h

/-- A text stands for one number. -/
theorem Stands.unique {cs : List Char} {q r : ℚ} (h : Stands cs q) (h' : Stands cs r) : q = r := by
  have hmark (cs : List Char) (e : Int) : 'e' ∈ cs ++ exponentMark e := by simp [exponentMark]
  generalize hds : cs = ds at h'
  cases h with
  | plain h =>
      cases h' with
      | plain h' => exact h.unique h' hds
      | marked e h' => exact absurd (hds ▸ hmark _ e) h.notMem_mark
  | marked e h =>
      cases h' with
      | plain h' => exact absurd (hds ▸ hmark _ e) h'.notMem_mark
      | marked f h' =>
          obtain ⟨rfl, -, htail⟩ := (List.append_cons_inj_of_notMem h.notMem_mark
            (notMem_exponentMark e)).1 hds
          obtain rfl := exponentMark_injective (congrArg ('e' :: ·) htail)
          rw [h.unique h' rfl]

/-! The texts of doubles. -/

theorem stands_scientific {ds : List Char} (hds : AllDigits ds) (hne : ds ≠ []) (point : Int) :
    Stands (scientific ds point) (Nat.ofDigitChars 10 ds 0 * 10 ^ (point - ds.length)) := by
  match ds with
  | [] => exact absurd rfl hne
  | [d] => exact .marked _ (.whole (by simp) hds)
  | d :: d' :: ds =>
      have hfirst : AllDigits [d] := fun c hc => hds c (by simp [List.mem_singleton.1 hc])
      have hrest : AllDigits (d' :: ds) := fun c hc => hds c (List.mem_cons_of_mem _ hc)
      have hmarked := Stands.marked (point - 1) (.pointed (by simp) hfirst hrest)
      have hvalue : (Nat.ofDigitChars 10 (d :: d' :: ds) 0 : ℚ) / 10 ^ (d' :: ds).length *
          10 ^ (point - 1) = Nat.ofDigitChars 10 (d :: d' :: ds) 0 *
            10 ^ (point - (d :: d' :: ds).length) := by
        rw [div_mul_eq_mul_div, mul_div_assoc, ← zpow_natCast, ← zpow_sub₀ (by norm_num)]
        congr 2
        push_cast [List.length_cons]
        ring
      rw [← hvalue]
      simpa [scientific] using hmarked

/-- The text of a double other than zero and without a sign stands for a number that is rounded to
the double. -/
theorem stands_text {x : Float} {b : Binary} (hx : toBinary? x = some b) (hb : 0 < b.mantissa)
    (hneg : b.negative = false) :
    ∃ q, Stands (text x).toList q ∧ Near b.mantissa b.exponent q := by
  obtain ⟨n, hn, htext⟩ | htext := text_cases hx
  · obtain ⟨k, rfl, hk⟩ := toInt?_eq hn
    have hdigits : (text x).toList = Nat.toDigits 10 k := by
      rw [htext, hneg]
      show (Nat.repr k).toList = _
      rw [Nat.repr_eq_ofList_toDigits, String.toList_ofList]
    refine ⟨k, hdigits ▸ ?_, ?_⟩
    · have hstands := Mantissa.whole Nat.toDigits_ne_nil (allDigits_toDigits k)
      rw [Nat.ofDigitChars_ten_toDigits] at hstands
      exact .plain hstands
    · rw [hk]
      exact near_self _ _
  · have hfits := fits_parts x
    rw [parts_of_toBinary? hx hb] at hfits
    obtain ⟨hlt, hlow, hhigh, -⟩ := hfits
    have hnear := Binary.near_shortest hb hlt hlow hhigh
    refine ⟨_, ?_, hnear⟩
    rw [htext, Binary.fullText, if_neg hb.ne', hneg]
    have hn : 0 < b.shortest.digits := by
      refine Nat.pos_of_ne_zero fun hzero => ?_
      rw [hzero] at hnear
      simpa using hnear.pos hb
    simp only [Bool.false_eq_true, if_false, List.nil_append]
    rw [← trimmed_value]
    split
    · obtain ⟨whole, fraction, heq, hne, hwhole, hfraction, hvalue⟩ :=
        positional_eq (allDigits_trimmed b.shortest.digits)
          (b.shortest.exponent + (Nat.toDigits 10 b.shortest.digits).length)
      rw [heq, ← hvalue]
      exact .plain (.pointed hne hwhole hfraction)
    · exact stands_scientific (allDigits_trimmed _) (trimmed_ne_nil hn) _

/-- The numbers that are rounded to a finite double. -/
def Rounds (x : Float) (q : ℚ) : Prop :=
  match parts x with
  | .zero _ => q = 0
  | .finite _ m e _ => Near m e q
  | _ => False

theorem exists_rounds {x : Float} (hx : x.isFinite = true) (hunsigned : Unsigned (parts x)) :
    ∃ q, Stands (text x).toList q ∧ Rounds x q := by
  change (parts x).isFinite = true at hx
  have hbinary := toBinary?_eq x
  unfold Rounds
  cases hparts : parts x with
  | notANumber | infinity s =>
      rw [hparts] at hx
      cases hx
  | zero s =>
      rw [hparts] at hunsigned
      obtain rfl : s = .positive := hunsigned
      obtain rfl : x = 0 := eq_of_unpack_eq hparts
      have htext : text (0 : Float) = "0" := by decide +kernel
      rw [htext]
      exact ⟨_, .plain (.whole (by simp) (allDigits_zeros 1)), by simp [Nat.ofDigitChars]⟩
  | finite s m e hm =>
      rw [hparts] at hunsigned hbinary
      obtain rfl : s = .positive := hunsigned
      exact stands_text hbinary hm rfl

/-- Zero alone is rounded to zero, and to any other double the numbers near to it. -/
theorem Rounds.zero_or_near {x : Float} {q : ℚ} (hx : Unsigned (parts x)) (hq : Rounds x q) :
    (parts x = .zero .positive ∧ q = 0) ∨
      ∃ m e, ∃ hm : 0 < m, parts x = .finite .positive m e hm ∧ Near m e q := by
  unfold Rounds at hq
  cases hparts : parts x with
  | notANumber | infinity s =>
      rw [hparts] at hq
      exact hq.elim
  | zero s =>
      rw [hparts] at hq hx
      obtain rfl : s = .positive := hx
      exact .inl ⟨rfl, hq⟩
  | finite s m e hm =>
      rw [hparts] at hq hx
      obtain rfl : s = .positive := hx
      exact .inr ⟨m, e, hm, rfl, hq⟩

/-- No number is rounded to two doubles without a sign. -/
theorem Rounds.unique {x y : Float} {q : ℚ} (hx : Unsigned (parts x)) (hy : Unsigned (parts y))
    (hqx : Rounds x q) (hqy : Rounds y q) : x = y := by
  refine eq_of_unpack_eq (?_ : parts x = parts y)
  have hfits := fits_parts x
  have hfits' := fits_parts y
  obtain ⟨hzero, hq⟩ | ⟨m, e, hm, hparts, hnear⟩ := hqx.zero_or_near hx <;>
    obtain ⟨hzero', hq'⟩ | ⟨m', e', hm', hparts', hnear'⟩ := hqy.zero_or_near hy
  · rw [hzero, hzero']
  · exact absurd (hq ▸ hnear'.pos hm') (lt_irrefl 0)
  · exact absurd (hq' ▸ hnear.pos hm) (lt_irrefl 0)
  · -- the intervals of two doubles do not meet
    rw [hparts] at hfits
    rw [hparts'] at hfits'
    obtain ⟨rfl, rfl⟩ := Near.unique hfits hfits' hnear hnear'
    rw [hparts, hparts']

/-- Finite doubles without a sign that are written alike are the same. -/
theorem eq_of_text_eq {x y : Float} (hx : x.isFinite = true) (hux : Unsigned (parts x))
    (hy : y.isFinite = true) (huy : Unsigned (parts y)) (h : text x = text y) : x = y := by
  obtain ⟨q, hq, hqx⟩ := exists_rounds hx hux
  obtain ⟨r, hr, hry⟩ := exists_rounds hy huy
  obtain rfl := hq.unique (h ▸ hr)
  exact hqx.unique hux huy hry

/-! Texts with a sign. -/

theorem isFinite_neg (x : Float) : (-x).isFinite = x.isFinite := by
  show (parts (-x)).isFinite = (parts x).isFinite
  rw [parts_neg]
  cases parts x <;> rfl

theorem Binary.toInt?_mk (negative : Bool) (m : Nat) (e : Int) :
    (⟨negative, m, e⟩ : Binary).toInt? =
      (⟨false, m, e⟩ : Binary).toInt?.map fun n => if negative then -n else n := by
  cases negative <;> simp only [toInt?, Bool.false_eq_true, if_false, if_true] <;> split_ifs <;> rfl

theorem Binary.fullText_mk {m : Nat} (hm : 0 < m) (e : Int) :
    (⟨true, m, e⟩ : Binary).fullText = '-' :: (⟨false, m, e⟩ : Binary).fullText := by
  have hshortest : (⟨true, m, e⟩ : Binary).shortest = (⟨false, m, e⟩ : Binary).shortest := rfl
  simp only [fullText, if_neg hm.ne', hshortest]
  rfl

/-- Behind its sign a negative number is written as its negation. -/
theorem text_of_negative {x : Float} {m : Nat} {e : Int} {hm : 0 < m}
    (hx : parts x = .finite .negative m e hm) :
    (text x).toList = '-' :: (text (-x)).toList := by
  have hbinary : toBinary? x = some ⟨true, m, e⟩ := by
    rw [toBinary?_eq, hx]
    rfl
  have hbinary' : toBinary? (-x) = some ⟨false, m, e⟩ := by
    rw [toBinary?_eq, parts_neg, hx]
    rfl
  have hint : toInt? x = (toInt? (-x)).map (- ·) := by
    rw [toInt?, toInt?, hbinary, hbinary']
    exact Binary.toInt?_mk true m e
  have hfull : (fullText x).toList = '-' :: (fullText (-x)).toList := by
    rw [fullText, fullText, hbinary, hbinary', String.toList_ofList, String.toList_ofList]
    exact Binary.fullText_mk hm e
  rw [text, text, hint]
  -- whole numbers of few digits are written as integers, and all others in full
  cases hn : toInt? (-x) with
  | none => exact hfull
  | some n =>
      have hn' : (⟨false, m, e⟩ : Binary).toInt? = some n := by
        rw [toInt?, hbinary'] at hn
        exact hn
      obtain ⟨k, rfl, hk⟩ := toInt?_eq hn'
      have hpos : 0 < k := by
        have hsize : (0 : ℚ) < m * 2 ^ e := by
          have hmantissa : (0 : ℚ) < m := by exact_mod_cast hm
          positivity
        rw [show ((⟨false, m, e⟩ : Binary).size : ℚ) = m * 2 ^ e from rfl] at hk
        exact_mod_cast hk ▸ hsize
      have hunsigned := toList_toString hpos false
      have hsigned := toList_toString hpos true
      simp only [Bool.false_eq_true, if_false, if_true, Option.map_some, Int.natAbs_neg,
        signText] at hunsigned hsigned ⊢
      split
      · rw [hsigned, hunsigned]
        rfl
      · exact hfull

/-- A stored finite number has no sign, or is written as a sign in front of its negation. -/
theorem unsigned_or_negative {x : Float} (hx : x.isFinite = true) (hset : ∃ u, x = settle u) :
    Unsigned (parts x) ∨
      Unsigned (parts (-x)) ∧ (text x).toList = '-' :: (text (-x)).toList := by
  change (parts x).isFinite = true at hx
  cases hparts : parts x with
  | notANumber | infinity s =>
      rw [hparts] at hx
      cases hx
  | zero s =>
      cases s with
      | positive => exact .inl rfl
      | negative =>
          obtain ⟨u, rfl⟩ := hset
          exact absurd hparts (settle_ne_negative_zero u)
  | finite s m e hm =>
      cases s with
      | positive => exact .inl rfl
      | negative =>
          refine .inr ⟨?_, text_of_negative hparts⟩
          rw [parts_neg, hparts]
          rfl

end EquationEngine.Double
