import EquationEngine.Proofs.Double.Shortest
import EquationEngine.Proofs.Expr.Printer

/-!
Texts of doubles are read back.

The text of a finite double is a sign and an integer, digits with a point, or digits with an
exponent. The first two are numbers of the grammar, whose digits stand for the shortest decimal of
the double or for the double itself, and so they are read as its absolute value.
-/

namespace EquationEngine.Double

open Arithmetic

/-! Digits. -/

/-- All characters are decimal digits. -/
def AllDigits (cs : List Char) : Prop := ∀ c ∈ cs, c.isDigit = true

theorem AllDigits.append {cs ds : List Char} (hcs : AllDigits cs) (hds : AllDigits ds) :
    AllDigits (cs ++ ds) :=
  List.forall_mem_append.2 ⟨hcs, hds⟩

theorem allDigits_zeros (n : Nat) : AllDigits (zeros n) := by
  intro c hc
  rw [(List.mem_replicate.1 hc).2]
  rfl

theorem allDigits_toDigits (n : Nat) : AllDigits (Nat.toDigits 10 n) :=
  fun _ hc => Nat.isDigit_of_mem_toDigits (by decide) (by decide) hc

theorem digit?_of_isDigit {c : Char} (h : c.isDigit = true) :
    Text.digit? c = some (c.toNat - '0'.toNat) := by
  have hc : 48 ≤ c.toNat ∧ c.toNat < 58 := by
    simp only [Char.isDigit, Bool.and_eq_true, decide_eq_true_eq, ge_iff_le] at h
    exact ⟨h.1, Nat.lt_succ_of_le h.2⟩
  simp [Text.digit?, Text.zeros, hc.1, hc.2]

theorem natOfDigits_eq {cs : List Char} (h : AllDigits cs) :
    Text.natOfDigits cs = Nat.ofDigitChars 10 cs 0 := by
  have hvalues : cs.filterMap Text.digit? = cs.map fun c => c.toNat - '0'.toNat := by
    rw [← List.filterMap_eq_map]
    exact List.filterMap_congr fun c hc => digit?_of_isDigit (h c hc)
  rw [Text.natOfDigits, hvalues, List.foldl_map, Nat.ofDigitChars_eq_foldl]

theorem ofDigitChars_append (cs ds : List Char) :
    Nat.ofDigitChars 10 (cs ++ ds) 0 =
      Nat.ofDigitChars 10 cs 0 * 10 ^ ds.length + Nat.ofDigitChars 10 ds 0 := by
  rw [Nat.ofDigitChars_append, Nat.ofDigitChars_eq_ofDigitChars_zero, mul_comm]

theorem ofDigitChars_zeros (n : Nat) : Nat.ofDigitChars 10 (zeros n) 0 = 0 :=
  Nat.ofDigitChars_replicate_zero.trans (mul_zero _)

/-! Numbers of the grammar. -/

theorem AllDigits.isDigit {cs : List Char} (h : AllDigits cs) : ∀ c ∈ cs, Text.isDigit c = true :=
  fun c hc => Text.isDigit_of_ascii (h c hc)

theorem AllDigits.ne_point {cs : List Char} (h : AllDigits cs) : ∀ c ∈ cs, (c != '.') = true := by
  intro c hc
  refine bne_iff_ne.2 ?_
  rintro rfl
  cases h '.' hc

theorem constant_whole {α : Type} [Arithmetic α] {ds : List Char} (hds : AllDigits ds) :
    (Parser.constant (String.ofList ds) : Expr α) =
      .number (Arithmetic.ofDecimal (Nat.ofDigitChars 10 ds 0) 0) := by
  have hplaces : ds.dropWhile (· != '.') = [] := List.dropWhile_eq_nil_iff.2 hds.ne_point
  rw [Parser.constant, String.toList_ofList, natOfDigits_eq hds, hplaces]
  rfl

theorem constant_pointed {α : Type} [Arithmetic α] {ds fs : List Char} (hds : AllDigits ds)
    (hfs : AllDigits fs) :
    (Parser.constant (String.ofList (ds ++ '.' :: fs)) : Expr α) =
      .number (Arithmetic.ofDecimal (Nat.ofDigitChars 10 (ds ++ fs) 0) fs.length) := by
  have hdigits : Text.natOfDigits (ds ++ '.' :: fs) = Nat.ofDigitChars 10 (ds ++ fs) 0 := by
    rw [← natOfDigits_eq (hds.append hfs), Text.natOfDigits, Text.natOfDigits,
      List.filterMap_append, List.filterMap_append]
    rfl
  have hplaces : ((ds ++ '.' :: fs).dropWhile (· != '.')).filter Text.isDigit = fs := by
    rw [List.dropWhile_append_of_pos hds.ne_point]
    exact List.filter_eq_self.2 hfs.isDigit
  rw [Parser.constant, String.toList_ofList, hdigits, hplaces]

/-! Digits with a point. -/

/-- Digits of which some stand before the point. -/
theorem positional_natCast (ds : List Char) {k : Nat} (hk : 0 < k) :
    positional ds k =
      ds.take k ++ zeros (k - ds.length) ++ '.' :: if ds.length ≤ k then ['0'] else ds.drop k := by
  have hzeros : k - (ds.take k).length = k - ds.length := by
    rw [List.length_take]
    omega
  have hempty : (ds.drop k).isEmpty = decide (ds.length ≤ k) := by
    rw [Bool.eq_iff_iff, List.isEmpty_iff, List.drop_eq_nil_iff, decide_eq_true_iff]
  rw [positional, if_neg (by omega), Int.toNat_natCast]
  dsimp only
  rw [hzeros, hempty]
  simp only [decide_eq_true_iff]

/-- Digits written out are a number of the grammar, and stand for their own value times a power of
ten. -/
theorem positional_eq {ds : List Char} (hds : AllDigits ds) (point : Int) :
    ∃ whole fraction, positional ds point = whole ++ '.' :: fraction ∧ whole ≠ [] ∧
      AllDigits whole ∧ AllDigits fraction ∧
      (Nat.ofDigitChars 10 (whole ++ fraction) 0 : ℚ) / 10 ^ fraction.length =
        Nat.ofDigitChars 10 ds 0 * 10 ^ (point - ds.length) := by
  have hzero : AllDigits ['0'] := allDigits_zeros 1
  -- the point stands in front of the digits, behind them, or between two of them
  by_cases hpoint : point ≤ 0
  · obtain ⟨k, rfl⟩ : ∃ k : Nat, point = -k := ⟨(-point).toNat, by omega⟩
    refine ⟨['0'], zeros k ++ ds, ?_, by simp, hzero, (allDigits_zeros k).append hds, ?_⟩
    · rw [positional, if_pos hpoint, Int.neg_neg, Int.toNat_natCast]
      rfl
    · have hlength : (zeros k ++ ds).length = k + ds.length := by simp [zeros]
      rw [ofDigitChars_append, ofDigitChars_append, ofDigitChars_zeros, hlength,
        show -(k : Int) - ds.length = -((k + ds.length : Nat) : Int) by push_cast; ring, zpow_neg,
        zpow_natCast, ← div_eq_mul_inv]
      simp [Nat.ofDigitChars]
  · obtain ⟨k, rfl⟩ : ∃ k : Nat, point = k := ⟨point.toNat, by omega⟩
    have hk : 0 < k := by omega
    rw [positional_natCast ds hk]
    by_cases hlength : ds.length ≤ k
    · refine ⟨ds ++ zeros (k - ds.length), ['0'], ?_, ?_, hds.append (allDigits_zeros _), hzero, ?_⟩
      · rw [if_pos hlength, List.take_of_length_le hlength]
      · intro hnil
        have hlengths := congrArg List.length hnil
        simp only [zeros, List.length_append, List.length_replicate, List.length_nil] at hlengths
        omega
      · rw [ofDigitChars_append, ofDigitChars_append, ofDigitChars_zeros, ← Nat.cast_sub hlength,
          zpow_natCast]
        simp [Nat.ofDigitChars, zeros]
    · rw [not_le] at hlength
      refine ⟨ds.take k, ds.drop k, ?_, ?_, fun c hc => hds c (List.mem_of_mem_take hc),
        fun c hc => hds c (List.mem_of_mem_drop hc), ?_⟩
      · rw [if_neg hlength.not_ge, Nat.sub_eq_zero_of_le hlength.le]
        simp [zeros]
      · rw [Ne, List.take_eq_nil_iff]
        rintro (rfl | rfl)
        · omega
        · simp at hlength
      · rw [List.take_append_drop, List.length_drop, div_eq_mul_inv, ← zpow_natCast, ← zpow_neg]
        congr 2
        omega

/-! The digits of the shortest decimal. -/

/-- The digits of a number are those that are kept and zeros. -/
theorem exists_toDigits_eq (n : Nat) : ∃ k, Nat.toDigits 10 n = trimmed n ++ zeros k := by
  rw [trimmed]
  generalize Nat.toDigits 10 n = ds
  obtain ⟨k, hk⟩ : ∃ k, ds.reverse.takeWhile (· == '0') = zeros k := by
    refine ⟨_, List.eq_replicate_iff.2 ⟨rfl, fun c hc => ?_⟩⟩
    have hzero := List.mem_takeWhile_imp (p := (· == '0')) hc
    exact beq_iff_eq.1 hzero
  refine ⟨k, ?_⟩
  calc ds = (ds.reverse.takeWhile (· == '0') ++ ds.reverse.dropWhile (· == '0')).reverse := by
        rw [List.takeWhile_append_dropWhile, List.reverse_reverse]
    _ = (ds.reverse.dropWhile (· == '0')).reverse ++ zeros k := by
        rw [hk, List.reverse_append, zeros, List.reverse_replicate]

theorem allDigits_trimmed (n : Nat) : AllDigits (trimmed n) := by
  obtain ⟨k, hk⟩ := exists_toDigits_eq n
  intro c hc
  exact allDigits_toDigits n c (hk ▸ List.mem_append_left _ hc)

/-- The digits that are kept, with the place of the point, stand for the decimal. -/
theorem trimmed_value (n : Nat) (e : Int) :
    (Nat.ofDigitChars 10 (trimmed n) 0 : ℚ) *
      10 ^ (e + (Nat.toDigits 10 n).length - (trimmed n).length) = n * 10 ^ e := by
  obtain ⟨k, hk⟩ := exists_toDigits_eq n
  have hn : n = Nat.ofDigitChars 10 (trimmed n) 0 * 10 ^ k := by
    have hdigits : Nat.ofDigitChars 10 (Nat.toDigits 10 n) 0 = n :=
      Nat.ofDigitChars_ten_toDigits
    rw [hk, ofDigitChars_append, ofDigitChars_zeros, add_zero] at hdigits
    simpa [zeros] using hdigits.symm
  have hlength : (Nat.toDigits 10 n).length = (trimmed n).length + k := by
    rw [hk]
    simp [zeros]
  have hn : (n : ℚ) = Nat.ofDigitChars 10 (trimmed n) 0 * 10 ^ k := by exact_mod_cast hn
  rw [hn, hlength, mul_assoc, ← zpow_natCast, ← zpow_add₀ (by norm_num)]
  congr 2
  push_cast
  ring

/-- A number other than zero is at least the power of ten that its first digit stands for. -/
theorem ten_pow_le_of_toDigits {n : Nat} (hn : 0 < n) :
    10 ^ ((Nat.toDigits 10 n).length - 1) ≤ n := by
  by_contra hlt
  rw [not_le] at hlt
  have hlength := Nat.length_toDigits_pos (b := 10) (n := n)
  by_cases hone : (Nat.toDigits 10 n).length = 1
  · rw [hone, Nat.sub_self, pow_zero] at hlt
    omega
  · have hle := (Nat.length_toDigits_le_iff (b := 10) (n := n) (by decide) (by omega)).2 hlt
    omega

/-- A decimal whose first digit does not stand far behind the point is not tiny. -/
theorem two_pow_le_decimal {n : Nat} (hn : 0 < n) {e : Int}
    (he : -4 < e + (Nat.toDigits 10 n).length) : (2 : ℚ) ^ (-1000 : Int) ≤ n * 10 ^ e := by
  have hlength := Nat.length_toDigits_pos (b := 10) (n := n)
  have hdigits : (10 : ℚ) ^ ((Nat.toDigits 10 n).length - 1) ≤ n := by
    exact_mod_cast ten_pow_le_of_toDigits hn
  calc (2 : ℚ) ^ (-1000 : Int) ≤ 2 ^ (-14 : Int) := zpow_le_zpow_right₀ one_le_two (by norm_num)
    _ ≤ 10 ^ (-4 : Int) := by norm_num
    _ ≤ 10 ^ (((Nat.toDigits 10 n).length - 1 : Nat) + e) :=
      zpow_le_zpow_right₀ (by norm_num) (by omega)
    _ = 10 ^ ((Nat.toDigits 10 n).length - 1) * 10 ^ e := by
      rw [zpow_add₀ (by norm_num), zpow_natCast]
    _ ≤ n * 10 ^ e := by gcongr

theorem trimmed_ne_nil {n : Nat} (hn : 0 < n) : trimmed n ≠ [] := by
  intro hnil
  have hvalue := trimmed_value n 0
  rw [hnil] at hvalue
  simp [Nat.ofDigitChars] at hvalue
  exact hn.ne (by exact_mod_cast hvalue)

theorem mem_scientific {ds : List Char} (hds : ds ≠ []) (point : Int) :
    'e' ∈ scientific ds point := by
  rcases ds with _ | ⟨d, _ | ⟨d', ds⟩⟩
  · exact absurd rfl hds
  · simp [scientific, exponentMark]
  · simp [scientific, exponentMark]

/-! Whole texts. -/

/-- The sign in front of the text of a number other than zero. -/
def signText (negative : Bool) : List Char := if negative then ['-'] else []

/-- The printed sign and the numeral behind it, from a text without a sign of its own. -/
theorem isSigned_and_numeral {x : Float} {negative : Bool} {w : List Char}
    (htext : (text x).toList = signText negative ++ w) (hw : Token.IsNumeral w) :
    Expr.isSigned x = negative ∧ Expr.numeral x = w := by
  have hhead : w.head? ≠ some '-' := by
    obtain ⟨c, w, rfl, hc⟩ := hw.exists_cons
    rintro ⟨⟩
    rcases hc with hc | hc <;> cases hc
  have hsigned : Expr.isSigned x = negative := by
    show ((text x).toList.head? == some '-') = negative
    rw [htext]
    cases negative with
    | true => rfl
    | false => exact beq_eq_false_iff_ne.2 hhead
  refine ⟨hsigned, ?_⟩
  have htexts := Expr.toList_text x
  rw [show Arithmetic.text x = text x from rfl, htext, hsigned] at htexts
  cases negative with
  | true => exact (List.cons.inj htexts).2.symm
  | false => exact htexts.symm

/-- A text that is a sign and a number of the grammar is legible if the number is nearest to the
absolute value. -/
theorem legible_of_text {x : Float} {b : Binary} (hx : toBinary? x = some b)
    (hb : 0 < b.mantissa) {w : List Char} (htext : (text x).toList = signText b.negative ++ w)
    (hw : Token.IsNumeral w) {n p : Nat}
    (hreads : (Parser.constant (String.ofList w) : Expr Float) =
      .number (Arithmetic.ofDecimal n p))
    (hnear : Near b.mantissa b.exponent (n / 10 ^ p))
    (hsize : (2 : ℚ) ^ (-1000 : Int) ≤ n / 10 ^ p) : Expr.Legible x := by
  obtain ⟨hsigned, hnumeral⟩ := isSigned_and_numeral htext hw
  have hparts := parts_of_toBinary? hx hb
  have hfits := fits_parts x
  rw [hparts] at hfits
  have hread := parts_ofScientific hb hfits hnear hsize
  refine ⟨hnumeral ▸ hw, ?_⟩
  rw [hnumeral, hreads, hsigned]
  have hsettle : settle (Float.ofScientific n true p) = Float.ofScientific n true p :=
    settle_of_ne_negative_zero (by rw [← parts, hread]; simp)
  show Expr.const (settle (Float.ofScientific n true p)) = _
  rw [hsettle]
  congr 1
  refine eq_of_unpack_eq ?_
  show parts (Float.ofScientific n true p) = parts (if b.negative then -x else x)
  rw [hread]
  split
  · rename_i hneg
    rw [parts_neg, hparts, hneg]
    rfl
  · rename_i hneg
    rw [hparts, if_neg hneg]

theorem toInt?_eq {b : Binary} {n : Int} (h : b.toInt? = some n) :
    ∃ k : Nat, n = (if b.negative then -(k : Int) else k) ∧ (k : ℚ) = b.size := by
  unfold Binary.toInt? at h
  dsimp only at h
  split at h
  · rename_i hexponent
    refine ⟨b.mantissa * pow2 b.exponent.toNat, (Option.some.inj h).symm, ?_⟩
    show ((b.mantissa * 2 ^ b.exponent.toNat : Nat) : ℚ) = b.mantissa * 2 ^ b.exponent
    rw [zpow_eq_div two_ne_zero, show (-b.exponent).toNat = 0 by omega]
    simp
  · split at h
    · rename_i hexponent hdivides
      refine ⟨b.mantissa / pow2 (-b.exponent).toNat, (Option.some.inj h).symm, ?_⟩
      rw [Nat.cast_div (Nat.dvd_of_mod_eq_zero hdivides) (by simp [pow2])]
      show (b.mantissa : ℚ) / (2 ^ (-b.exponent).toNat : Nat) = b.mantissa * 2 ^ b.exponent
      rw [zpow_eq_div two_ne_zero, show b.exponent.toNat = 0 by omega]
      push_cast
      ring
    · cases h

theorem toList_toString {k : Nat} (hk : 0 < k) (negative : Bool) :
    (toString (if negative then -(k : Int) else k)).toList =
      signText negative ++ Nat.toDigits 10 k := by
  have hrepr : (Nat.repr k).toList = Nat.toDigits 10 k := by
    rw [Nat.repr_eq_ofList_toDigits, String.toList_ofList]
  cases negative with
  | false => exact hrepr
  | true =>
      obtain ⟨j, rfl⟩ := Nat.exists_eq_succ_of_ne_zero hk.ne'
      show ("-" ++ Nat.repr (j + 1)).toList = _
      rw [String.toList_append, hrepr]
      rfl

theorem isNumeral_toDigits (n : Nat) : Token.IsNumeral (Nat.toDigits 10 n) :=
  .whole Nat.toDigits_ne_nil (allDigits_toDigits n).isDigit

theorem legible_of_toInt? {x : Float} {b : Binary} (hx : toBinary? x = some b)
    (hb : 0 < b.mantissa) {n : Int} (hn : b.toInt? = some n)
    (htext : text x = toString n) : Expr.Legible x := by
  obtain ⟨k, rfl, hk⟩ := toInt?_eq hn
  have hpos : 0 < k := by
    have hsize : 0 < b.size := by
      have hmantissa : (0 : ℚ) < b.mantissa := by exact_mod_cast hb
      rw [Binary.size]
      positivity
    rw [← hk] at hsize
    exact_mod_cast hsize
  have hvalue : (Nat.ofDigitChars 10 (Nat.toDigits 10 k) 0 : ℚ) / 10 ^ 0 = k := by
    rw [Nat.ofDigitChars_ten_toDigits, pow_zero, div_one]
  refine legible_of_text hx hb (htext ▸ toList_toString hpos b.negative) (isNumeral_toDigits k)
    (constant_whole (allDigits_toDigits k)) ?_ ?_
  · rw [hvalue, hk]
    exact near_self _ _
  · rw [hvalue]
    have hone : (1 : ℚ) ≤ k := by exact_mod_cast hpos
    exact le_trans (zpow_le_one_of_nonpos₀ one_le_two (by norm_num)) hone

theorem legible_of_fullText {x : Float} {b : Binary} (hx : toBinary? x = some b)
    (hb : 0 < b.mantissa) (hlt : b.mantissa < 2 ^ 53) (hlow : -1074 ≤ b.exponent)
    (hhigh : b.exponent ≤ 971) (htext : (text x).toList = b.fullText) (hplain : 'e' ∉ b.fullText) :
    Expr.Legible x := by
  have hnear := Binary.near_shortest hb hlt hlow hhigh
  unfold Binary.fullText at htext hplain
  rw [if_neg hb.ne'] at htext hplain
  dsimp only at htext hplain
  generalize b.shortest.digits = n at hnear htext hplain
  generalize b.shortest.exponent = e at hnear htext hplain
  have hn : 0 < n := by
    refine Nat.pos_of_ne_zero ?_
    rintro rfl
    simpa using hnear.pos hb
  generalize hpoint : e + (Nat.toDigits 10 n).length = point at htext hplain
  by_cases hrange : (-4 < point && point ≤ 16) = true
  · rw [if_pos hrange] at htext
    obtain ⟨whole, fraction, heq, hne, hwhole, hfraction, hvalue⟩ :=
      positional_eq (allDigits_trimmed n) point
    rw [← hpoint, trimmed_value] at hvalue
    rw [heq] at htext
    refine legible_of_text hx hb htext (.pointed hne hwhole.isDigit hfraction.isDigit)
      (constant_pointed hwhole hfraction) (hvalue ▸ hnear) ?_
    rw [hvalue]
    exact two_pow_le_decimal hn (by simp at hrange; omega)
  · rw [if_neg hrange] at hplain
    exact absurd (List.mem_append_right _ (mem_scientific (trimmed_ne_nil hn) point)) hplain

theorem legible_zero : Expr.Legible (0 : Float) := by
  have htext : Arithmetic.text (0 : Float) = "0" := by decide +kernel
  have hsigned : Expr.isSigned (0 : Float) = false := by
    rw [Expr.isSigned, htext]
    rfl
  have hnumeral : Expr.numeral (0 : Float) = Nat.toDigits 10 0 := by
    rw [Expr.numeral, hsigned, htext]
    rfl
  refine ⟨hnumeral ▸ isNumeral_toDigits 0, ?_⟩
  rw [hnumeral, constant_whole (allDigits_toDigits 0), hsigned]
  rfl

/-- A double is written as the integer that it is, or by the shortest decimal. -/
theorem text_cases {x : Float} {b : Binary} (hx : toBinary? x = some b) :
    (∃ n, b.toInt? = some n ∧ text x = toString n) ∨ (text x).toList = b.fullText := by
  have hint : toInt? x = b.toInt? := by
    rw [toInt?, hx]
    rfl
  have hfull : (fullText x).toList = b.fullText := by
    rw [fullText, hx, String.toList_ofList]
  rw [text, hint]
  cases hn : b.toInt? with
  | none => exact .inr hfull
  | some n =>
      dsimp only
      split
      · exact .inl ⟨n, rfl, rfl⟩
      · exact .inr hfull

/-- The number is finite, and is written without an exponent. -/
def Plain (x : Float) : Prop := x.isFinite = true ∧ 'e' ∉ (text x).toList

instance : DecidablePred Plain := fun _ => instDecidableAnd

/-- A stored number that is finite and written without an exponent is read back. -/
theorem Plain.legible {x : Float} (h : Plain x) (hset : ∃ u, x = settle u) : Expr.Legible x := by
  obtain ⟨hfinite, hplain⟩ := h
  change (parts x).isFinite = true at hfinite
  have hbinary := toBinary?_eq x
  cases hx : parts x with
  | notANumber | infinity s =>
      rw [hx] at hfinite
      cases hfinite
  | zero s =>
      cases s with
      | negative =>
          obtain ⟨u, rfl⟩ := hset
          exact absurd hx (settle_ne_negative_zero u)
      | positive =>
          obtain rfl : x = 0 := eq_of_unpack_eq hx
          exact legible_zero
  | finite s m e hm =>
      rw [hx] at hbinary
      obtain ⟨hlt, hlow, hhigh, -⟩ := hx ▸ fits_parts x
      obtain ⟨n, hn, htext⟩ | htext := text_cases hbinary
      · exact legible_of_toInt? hbinary hm hn htext
      · exact legible_of_fullText hbinary hm hlt hlow hhigh htext (htext ▸ hplain)

/-! Texts without a sign. -/

theorem AllDigits.head?_ne {cs : List Char} (h : AllDigits cs) : cs.head? ≠ some '-' := by
  intro hhead
  cases h '-' (List.mem_of_head? hhead)

theorem head?_scientific (ds : List Char) (point : Int) :
    (scientific ds point).head? = ds.head? := by
  rcases ds with _ | ⟨d, _ | ⟨d', ds⟩⟩ <;> rfl

theorem head?_fullText {b : Binary} (hb : b.negative = false) : b.fullText.head? ≠ some '-' := by
  unfold Binary.fullText
  simp only [hb, Bool.false_eq_true, if_false, List.nil_append]
  split
  · decide
  · have hdigits := allDigits_trimmed b.shortest.digits
    split
    · obtain ⟨whole, fraction, heq, hne, hwhole, -, -⟩ := positional_eq hdigits
        (b.shortest.exponent + (Nat.toDigits 10 b.shortest.digits).length)
      rw [heq, List.head?_append_of_ne_nil _ hne]
      exact hwhole.head?_ne
    · rw [head?_scientific]
      exact hdigits.head?_ne

/-- Only numbers with a minus sign are written with one. -/
theorem isSigned_eq_false {x : Float} (h : Unsigned (parts x)) : Expr.isSigned x = false := by
  have hbinary := toBinary?_eq x
  refine beq_eq_false_iff_ne.2 ?_
  show (text x).toList.head? ≠ some '-'
  cases hx : parts x with
  | notANumber =>
      obtain rfl : x = Float.nan := eq_of_unpack_eq hx
      decide +kernel
  | infinity s =>
      rw [hx] at h
      obtain rfl : s = .positive := h
      obtain rfl : x = Float.inf := eq_of_unpack_eq hx
      decide +kernel
  | zero s | finite s m e hm =>
      rw [hx] at h hbinary
      obtain rfl : s = .positive := h
      obtain ⟨n, hn, htext⟩ | htext := text_cases hbinary
      · obtain ⟨k, rfl, -⟩ := toInt?_eq hn
        rw [htext]
        show (Nat.repr k).toList.head? ≠ some '-'
        rw [Nat.repr_eq_ofList_toDigits, String.toList_ofList]
        exact (allDigits_toDigits k).head?_ne
      · rw [htext]
        exact head?_fullText rfl

/-- Numbers are read without a sign. -/
theorem isSigned_constant (t : String) :
    ∃ v : Float, Parser.constant t = .const v ∧ Expr.isSigned v = false := by
  have hread (n p : Nat) :
      settle (Float.ofScientific n true p) = Float.ofScientific n true p := by
    refine settle_of_ne_negative_zero fun hzero => ?_
    have hunsigned := unsigned_ofScientific n p
    rw [parts, hzero] at hunsigned
    cases hunsigned
  exact ⟨_, congrArg Expr.const (hread _ _), isSigned_eq_false (unsigned_ofScientific _ _)⟩

end EquationEngine.Double
