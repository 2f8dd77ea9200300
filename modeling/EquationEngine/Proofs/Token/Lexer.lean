import Mathlib
import EquationEngine.Proofs.Run
import EquationEngine.Token.Lexer

/-!
How texts put together from words are split into tokens.

A word is taken off the front as a whole if what follows it cannot prolong it. Numbers and names
are only ever prolonged by their own characters, so in front of a sign, a blank or the end they
stand for themselves. Names that the lexer hands out are words of this kind again.
-/

namespace EquationEngine.Token

open Text

/-- A text is split into tokens with the given lexemes, wherever it stands. -/
def Scans (cs : List Char) (ls : List Lexeme) : Prop :=
  ∀ p, ∃ ts, scan 0 p cs = .ok ts ∧ ts.map (·.lexeme) = ls

theorem Scans.nil : Scans [] [] := fun _ => ⟨[], rfl, rfl⟩

theorem Scans.blank {cs : List Char} {ls : List Lexeme} (h : Scans cs ls) :
    Scans (' ' :: cs) ls :=
  fun p => h (p + 1)

/-- The characters of a word are passed over. -/
theorem scan_skip (w cs : List Char) (p : Nat) :
    scan w.length p (w ++ cs) = scan 0 (p + w.length) cs := by
  induction w generalizing p with
  | nil => rfl
  | cons c w ih =>
      rw [List.length_cons, List.cons_append, scan, ih]
      congr 1
      omega

/-- A word is taken off the front as a whole. -/
theorem scan_word {c : Char} {w cs : List Char} {l : Lexeme} (p : Nat)
    (hblank : isBlank c = false) (hmunch : munch (c :: (w ++ cs)) = some (l, w.length + 1)) :
    scan 0 p (c :: (w ++ cs)) = (do
      let rest ← scan 0 (p + 1 + w.length) cs
      return ⟨l, p⟩ :: rest) := by
  rw [scan, hblank, if_neg Bool.false_ne_true, hmunch]
  show (scan w.length (p + 1) (w ++ cs) >>= _) = _
  rw [scan_skip]

theorem Scans.word {c : Char} {w cs : List Char} {l : Lexeme} {ls : List Lexeme}
    (hblank : isBlank c = false) (hmunch : munch (c :: (w ++ cs)) = some (l, w.length + 1))
    (h : Scans cs ls) : Scans (c :: w ++ cs) (l :: ls) := by
  intro p
  obtain ⟨ts, hts, hls⟩ := h (p + 1 + w.length)
  refine ⟨⟨l, p⟩ :: ts, ?_, congrArg (l :: ·) hls⟩
  rw [List.cons_append, scan_word p hblank hmunch, hts]
  rfl

/-! Classes of characters. -/

theorem mem_zeros_of_isDigit {c : Char} (h : isDigit c = true) :
    ∃ z ∈ zeros, z ≤ c.toNat ∧ c.toNat < z + 10 := by
  rw [isDigit, digit?, Option.isSome_map, List.find?_isSome] at h
  simpa using h

/-- A character below every digit of another script is a digit only if it is an ASCII one. -/
theorem isDigit_iff_of_lt {c : Char} (h : c.toNat < 0x660) :
    isDigit c = true ↔ 48 ≤ c.toNat ∧ c.toNat < 58 := by
  constructor
  · intro hdigit
    obtain ⟨z, hz, hle, hlt⟩ := mem_zeros_of_isDigit hdigit
    have hfirst : ∀ z ∈ zeros, z = 48 ∨ 0x660 ≤ z := by decide
    rcases hfirst z hz with rfl | hz
    · exact ⟨hle, hlt⟩
    · omega
  · rintro ⟨hle, hlt⟩
    simp [isDigit, digit?, zeros, hle, hlt]

theorem not_isBlank_of_isDigit {c : Char} (h : isDigit c = true) : isBlank c = false := by
  obtain ⟨z, hz, hle, hlt⟩ := mem_zeros_of_isDigit h
  have hapart : ∀ z ∈ zeros, ∀ r ∈ blankRanges, r.2 < z ∨ z + 9 < r.1 := by decide
  rw [isBlank, List.any_eq_false]
  intro r hr
  have := hapart z hz r hr
  simp only [Bool.and_eq_true, decide_eq_true_eq]
  omega

theorem toNat_of_startsName {c : Char} (h : startsName c = true) :
    65 ≤ c.toNat ∧ c.toNat < 123 := by
  simp only [startsName, Char.isAlpha, Char.isUpper, Char.isLower, Bool.or_eq_true,
    Bool.and_eq_true, decide_eq_true_eq, beq_iff_eq] at h
  rcases h with (⟨hlow, hhigh⟩ | ⟨hlow, hhigh⟩) | rfl
  · have hlow : 65 ≤ c.toNat := hlow
    have hhigh : c.toNat ≤ 90 := hhigh
    omega
  · have hlow : 97 ≤ c.toNat := hlow
    have hhigh : c.toNat ≤ 122 := hhigh
    omega
  · decide

theorem not_isBlank_of_startsName {c : Char} (h : startsName c = true) : isBlank c = false := by
  obtain ⟨hlow, hhigh⟩ := toNat_of_startsName h
  have hapart : ∀ r ∈ blankRanges, r.2 < 65 ∨ 123 ≤ r.1 := by decide
  rw [isBlank, List.any_eq_false]
  intro r hr
  have := hapart r hr
  simp only [Bool.and_eq_true, decide_eq_true_eq]
  omega

theorem not_isDigit_of_startsName {c : Char} (h : startsName c = true) : isDigit c = false := by
  obtain ⟨hlow, hhigh⟩ := toNat_of_startsName h
  rw [Bool.eq_false_iff, Ne, isDigit_iff_of_lt (by omega)]
  omega

theorem ne_point_of_startsName {c : Char} (h : startsName c = true) : c ≠ '.' := by
  rintro rfl
  cases h

/-! Words. -/

/-- What follows a word begins with nothing that could prolong it. -/
def Stops (cs : List Char) : Prop :=
  ∀ c ∈ cs.head?, isDigit c = false ∧ c ≠ '.' ∧ continuesName c = false

theorem stops_nil : Stops [] := by
  simp [Stops]

theorem stops_cons {c : Char} {cs : List Char} :
    Stops (c :: cs) ↔ isDigit c = false ∧ c ≠ '.' ∧ continuesName c = false := by
  simp [Stops]

theorem takeWhile_append_of_stops {p : Char → Bool} {w cs : List Char} (hw : ∀ c ∈ w, p c = true)
    (hcs : ∀ c ∈ cs.head?, p c = false) : (w ++ cs).takeWhile p = w := by
  rw [List.takeWhile_append_of_pos hw]
  cases cs with
  | nil => simp
  | cons c cs => simp [hcs c rfl]

theorem dropWhile_append_of_stops {p : Char → Bool} {w cs : List Char} (hw : ∀ c ∈ w, p c = true)
    (hcs : ∀ c ∈ cs.head?, p c = false) : (w ++ cs).dropWhile p = cs := by
  rw [List.dropWhile_append_of_pos hw]
  cases cs with
  | nil => rfl
  | cons c cs => simp [hcs c rfl]

/-- Texts are equal word by word if the words end where their kind of characters does. -/
theorem append_inj_of_stops {p : Char → Bool} {w w' cs ds : List Char} (hw : ∀ c ∈ w, p c = true)
    (hcs : ∀ c ∈ cs.head?, p c = false) (hw' : ∀ c ∈ w', p c = true)
    (hds : ∀ c ∈ ds.head?, p c = false) (h : w ++ cs = w' ++ ds) : w = w' ∧ cs = ds := by
  constructor
  · rw [← takeWhile_append_of_stops hw hcs, h, takeWhile_append_of_stops hw' hds]
  · rw [← dropWhile_append_of_stops hw hcs, h, dropWhile_append_of_stops hw' hds]

/-- The characters of a number: digits, with or without a point, or a point and digits. -/
inductive IsNumeral : List Char → Prop
  | fraction {fs : List Char} : fs ≠ [] → (∀ c ∈ fs, isDigit c = true) → IsNumeral ('.' :: fs)
  | whole {ds : List Char} : ds ≠ [] → (∀ c ∈ ds, isDigit c = true) → IsNumeral ds
  | pointed {ds fs : List Char} : ds ≠ [] → (∀ c ∈ ds, isDigit c = true) →
      (∀ c ∈ fs, isDigit c = true) → IsNumeral (ds ++ '.' :: fs)

theorem number?_append {w cs : List Char} (h : IsNumeral w) (hcs : Stops cs) :
    number? (w ++ cs) = some w := by
  have hdigit : ∀ c ∈ cs.head?, isDigit c = false := fun c hc => (hcs c hc).1
  have hpoint (rest : List Char) : ∀ c ∈ ('.' :: rest).head?, isDigit c = false := by
    simp only [List.head?_cons, Option.mem_some_iff, forall_eq']
    decide
  cases h with
  | @fraction fs hne hfs =>
      have hnone : isDigit '.' = false := hpoint [] '.' rfl
      have hbehind := takeWhile_append_of_stops hfs hdigit
      rw [List.cons_append, number?, List.takeWhile_cons_of_neg (by simp [hnone]),
        List.dropWhile_cons_of_neg (by simp [hnone])]
      simp only [hbehind]
  | whole hne hw =>
      rw [number?, takeWhile_append_of_stops hw hdigit, dropWhile_append_of_stops hw hdigit]
      split
      · exact absurd rfl hne
      · exact absurd rfl hne
      · exact absurd rfl (hcs '.' rfl).2.1
      · rfl
  | @pointed ds fs hne hds hfs =>
      rw [List.append_assoc, List.cons_append, number?, takeWhile_append_of_stops hds (hpoint _),
        dropWhile_append_of_stops hds (hpoint _)]
      split
      · exact absurd rfl hne
      · exact absurd rfl hne
      · rename_i rest _ hrest
        cases hrest
        rw [takeWhile_append_of_stops hfs hdigit]
      · rename_i hother _
        exact absurd rfl (hother _)

theorem IsNumeral.exists_cons {w : List Char} (h : IsNumeral w) :
    ∃ c w', w = c :: w' ∧ (isDigit c = true ∨ c = '.') := by
  cases h with
  | fraction => exact ⟨_, _, rfl, .inr rfl⟩
  | @whole ds hne hds | @pointed ds fs hne hds hfs =>
      obtain ⟨c, ds, rfl⟩ := List.exists_cons_of_ne_nil hne
      exact ⟨c, _, rfl, .inl (hds c List.mem_cons_self)⟩

/-- What the lexer takes for a number is one. -/
theorem isNumeral_of_number? {cs w : List Char} (h : number? cs = some w) : IsNumeral w := by
  have hdigits (cs : List Char) : ∀ c ∈ cs.takeWhile isDigit, isDigit c = true :=
    fun c hc => List.mem_takeWhile_imp hc
  unfold number? at h
  split at h
  · split at h
    · cases h
    · rename_i hne
      cases h
      exact .fraction hne (hdigits _)
  · cases h
  · rename_i hne
    cases h
    exact .pointed hne (hdigits _) (hdigits _)
  · rename_i hne _ _
    cases h
    exact .whole hne (hdigits _)

theorem Scans.number {w cs : List Char} {ls : List Lexeme} (hw : IsNumeral w) (hcs : Stops cs)
    (h : Scans cs ls) : Scans (w ++ cs) (.number (String.ofList w) :: ls) := by
  obtain ⟨c, w, rfl, hc⟩ := hw.exists_cons
  have hblank : isBlank c = false := by
    rcases hc with hc | rfl
    · exact not_isBlank_of_isDigit hc
    · decide
  refine .word hblank ?_ h
  rw [← List.cons_append, munch, number?_append hw hcs]
  rfl

/-- A name that the lexer can hand out. -/
def IsName (x : String) : Prop := name? x.toList = some x.toList ∧ isMod x.toList = false

theorem number?_eq_none {c : Char} (hdigit : isDigit c = false) (hpoint : c ≠ '.')
    (cs : List Char) : number? (c :: cs) = none := by
  rw [number?, List.takeWhile_cons_of_neg (by simp [hdigit]),
    List.dropWhile_cons_of_neg (by simp [hdigit])]
  split
  · rename_i hcons
    cases hcons
    exact absurd rfl hpoint
  · rfl
  · contradiction
  · contradiction

theorem number?_of_startsName {c : Char} (hc : startsName c = true) (cs : List Char) :
    number? (c :: cs) = none :=
  number?_eq_none (not_isDigit_of_startsName hc) (ne_point_of_startsName hc) cs

theorem exists_cons_of_name? {cs : List Char} (h : name? cs = some cs) :
    ∃ c w, cs = c :: w ∧ startsName c = true ∧ ∀ d ∈ w, continuesName d = true := by
  cases cs with
  | nil => cases h
  | cons c w =>
      rw [name?] at h
      split at h
      · rename_i hc
        simp only [Option.some.injEq, List.cons.injEq, true_and, List.takeWhile_eq_self_iff] at h
        exact ⟨c, w, rfl, hc, h⟩
      · cases h

theorem Scans.name {x : String} {cs : List Char} {ls : List Lexeme} (hx : IsName x)
    (hcs : Stops cs) (h : Scans cs ls) : Scans (x.toList ++ cs) (.name x :: ls) := by
  obtain ⟨c, w, hxs, hc, hw⟩ := exists_cons_of_name? hx.1
  have hname : name? (c :: (w ++ cs)) = some (c :: w) := by
    rw [name?, if_pos hc, takeWhile_append_of_stops hw fun d hd => (hcs d hd).2.2]
  have hmod : isMod (c :: w) = false := hxs ▸ hx.2
  rw [hxs]
  refine .word (not_isBlank_of_startsName hc) ?_ h
  rw [munch, number?_of_startsName hc, hname]
  simp only [hmod]
  rw [← hxs, String.ofList_toList, hxs]
  rfl

/-- A sign of one character that is no part of a longer one. -/
theorem Scans.sign {c : Char} {s : Symbol} {cs : List Char} {ls : List Lexeme}
    (hblank : isBlank c = false) (hmunch : munch (c :: cs) = some (.symbol s, 1))
    (h : Scans cs ls) : Scans (c :: cs) (.symbol s :: ls) :=
  .word (w := []) hblank hmunch h

/-! What the lexer hands out. -/

theorem name?_of_name? {cs n : List Char} (h : name? cs = some n) : name? n = some n := by
  cases cs with
  | nil => cases h
  | cons c cs =>
      rw [name?] at h
      split at h
      · rename_i hc
        cases h
        rw [name?, if_pos hc, List.takeWhile_idem]
      · cases h

theorem isName_of_munch {cs : List Char} {x : String} {k : Nat}
    (h : munch cs = some (.name x, k)) : IsName x := by
  unfold munch at h
  split at h
  · cases h
  · rename_i n _ hname
    split at h
    · cases h
    · rename_i hmod
      cases h
      rw [IsName, String.toList_ofList]
      exact ⟨name?_of_name? hname, by simpa using hmod⟩
  · cases h
  · cases h

theorem isName_of_scan {skip p : Nat} {cs : List Char} {ts : List Token}
    (h : scan skip p cs = .ok ts) {t : Token} (ht : t ∈ ts) {x : String}
    (hx : t.lexeme = .name x) : IsName x := by
  fun_induction scan skip p cs generalizing ts with
  | case1 =>
      cases h
      cases ht
  | case2 skip p c cs ih => exact ih h ht
  | case3 p c cs _ ih => exact ih h ht
  | case4 p c cs _ _ => cases h
  | case5 p c cs _ lexeme k hmunch ih =>
      obtain ⟨rest, hrest, h⟩ := bind_eq_ok.1 h
      cases h
      obtain rfl | ht := List.mem_cons.1 ht
      · cases hx
        exact isName_of_munch hmunch
      · exact ih hrest ht

end EquationEngine.Token
