import EquationEngine.Proofs.Token.Lexer

/-!
The lexer splits a text by the longest words.

What may stand as a token is said first, word by word and without the lexer: a number, a name or a
sign. Every token is then such a word of the text, as long as one at its place can be, and between
the tokens there is white space only. The lexer gives up at the first character that is no white
space and begins no word.
-/

namespace EquationEngine.Token

open Text

/-- The characters of a name: a letter or an underscore, then also ASCII digits. -/
def IsWord (cs : List Char) : Prop :=
  ∃ c w, cs = c :: w ∧ startsName c = true ∧ ∀ d ∈ w, continuesName d = true

/-- The characters of a number, a name or a sign. -/
inductive IsLexical : List Char → Prop
  | number {w : List Char} : IsNumeral w → IsLexical w
  | name {w : List Char} : IsWord w → IsLexical w
  | sign (s : Symbol) : IsLexical s.text.toList

/-- What a lexeme says is written with these characters. -/
inductive Written : Lexeme → List Char → Prop
  | number {w : List Char} : IsNumeral w → Written (.number (String.ofList w)) w
  | name {w : List Char} : IsWord w → w.map Char.toLower ≠ ['m', 'o', 'd'] →
      Written (.name (String.ofList w)) w
  | sign (s : Symbol) : Written (.symbol s) s.text.toList
  | remainder {w : List Char} : w.map Char.toLower = ['m', 'o', 'd'] → Written (.symbol .percent) w

variable {full : List Char} {p q : Nat} {t : Token} {ts : List Token}

/-- The number of characters that a token takes in its text. -/
def width (full : List Char) (t : Token) : Nat :=
  if t.lexeme = .symbol .percent ∧ full[t.position]? ≠ some '%' then 3 else t.lexeme.text.length

/-- The position behind a token. -/
def stop (full : List Char) (t : Token) : Nat := t.position + t.width full

/-- The part of the text that a token was read from. -/
def slice (full : List Char) (t : Token) : List Char := (full.drop t.position).take (t.width full)

/-- Tokens that make up a text between two positions: each is a word, the longest one at its place,
and there is white space before, between and behind them. -/
structure Splits (full : List Char) (start stop : Nat) (ts : List Token) : Prop where
  ordered : start ≤ stop
  within : ∀ t ∈ ts, start ≤ t.position ∧ t.position < t.stop full ∧ t.stop full ≤ stop
  apart : ts.Pairwise fun t u => t.stop full ≤ u.position
  written : ∀ t ∈ ts, Written t.lexeme (t.slice full)
  longest : ∀ t ∈ ts, ∀ w, w <+: full.drop t.position → IsLexical w → w.length ≤ t.width full
  blank : ∀ k, start ≤ k → k < stop →
    (∃ t ∈ ts, t.position ≤ k ∧ k < t.stop full) ∨ ∃ c, full[k]? = some c ∧ isBlank c = true

/-- A character that is no white space and begins no word. -/
structure Refused (full : List Char) (p : Nat) (c : Char) : Prop where
  here : full[p]? = some c
  visible : isBlank c = false
  nothing : ∀ w, w <+: full.drop p → ¬IsLexical w

/-! The longest word at the front of a text. -/

theorem number?_longest {w : List Char} (h : IsNumeral w) (rest : List Char) :
    ∃ n, number? (w ++ rest) = some n ∧ w.length ≤ n.length := by
  have hpoint : isDigit '.' = false := by decide
  cases h with
  | @fraction fs hne hfs =>
      obtain ⟨f, fs, rfl⟩ := List.exists_cons_of_ne_nil hne
      rw [List.cons_append, number?, List.takeWhile_cons_of_neg (by simp [hpoint]),
        List.dropWhile_cons_of_neg (by simp [hpoint])]
      simp only [List.takeWhile_append_of_pos hfs]
      exact ⟨_, rfl, by simp⟩
  | whole hne hw =>
      obtain ⟨d, ds, rfl⟩ := List.exists_cons_of_ne_nil hne
      rw [number?, List.takeWhile_append_of_pos hw]
      split
      · contradiction
      · contradiction
      · exact ⟨_, rfl, by simp⟩
      · exact ⟨_, rfl, by simp⟩
  | @pointed ds fs hne hds hfs =>
      rw [List.append_assoc, List.cons_append, number?,
        takeWhile_append_of_stops hds fun c hc => by simpa [← Option.some.inj hc] using hpoint,
        dropWhile_append_of_stops hds fun c hc => by simpa [← Option.some.inj hc] using hpoint]
      obtain ⟨d, ds, rfl⟩ := List.exists_cons_of_ne_nil hne
      simp only [List.takeWhile_append_of_pos hfs]
      exact ⟨_, rfl, by simp⟩

/-- A sign begins with a character that begins no number and no name. -/
theorem exists_cons_of_sign (s : Symbol) : ∃ c w, s.text.toList = c :: w ∧
    isDigit c = false ∧ c ≠ '.' ∧ startsName c = false := by
  cases s with
  | relation r spelledOut => cases r <;> cases spelledOut <;> exact ⟨_, _, rfl, by decide⟩
  | _ => exact ⟨_, _, rfl, by decide⟩

theorem symbol?_longest (s : Symbol) (rest : List Char) :
    ∃ s' k, symbol? (s.text.toList ++ rest) = some (s', k) ∧ s.text.length ≤ k := by
  -- Only the two signs that may go on with an equals sign depend on what follows.
  have hopen (c : Char) (hc : c = '>' ∨ c = '<') :
      ∃ s' k, symbol? (c :: rest) = some (s', k) ∧ 1 ≤ k := by
    rcases hc with rfl | rfl <;> unfold symbol? <;> split
    all_goals first
      | exact ⟨_, _, rfl, by decide⟩
      | simp_all
  cases s with
  | relation r spelledOut =>
      cases r <;> cases spelledOut
      all_goals first
        | exact ⟨_, _, rfl, by decide⟩
        | exact hopen _ (by decide)
  | _ => exact ⟨_, _, rfl, by decide⟩

theorem munch_longest {w : List Char} (h : IsLexical w) (rest : List Char) :
    ∃ l k, munch (w ++ rest) = some (l, k) ∧ w.length ≤ k := by
  cases h with
  | number hw =>
      obtain ⟨n, hn, hle⟩ := number?_longest hw rest
      rw [munch, hn]
      exact ⟨_, _, rfl, hle⟩
  | name hw =>
      obtain ⟨c, w, rfl, hc, hw⟩ := hw
      rw [List.cons_append, munch, number?_of_startsName hc, name?, if_pos hc,
        List.takeWhile_append_of_pos hw]
      exact ⟨_, _, rfl, by simp⟩
  | sign s =>
      obtain ⟨c, w, htext, hdigit, hpoint, hname⟩ := exists_cons_of_sign s
      obtain ⟨s', k, hs, hle⟩ := symbol?_longest s rest
      rw [htext, List.cons_append] at hs ⊢
      rw [munch, number?_eq_none hdigit hpoint, name?, if_neg (by simp [hname]), hs]
      exact ⟨_, _, rfl, htext ▸ hle⟩

theorem not_isLexical_of_munch {cs w : List Char} (h : munch cs = none) (hw : w <+: cs) :
    ¬IsLexical w := by
  intro hlex
  obtain ⟨rest, rfl⟩ := hw
  obtain ⟨l, k, hsome, -⟩ := munch_longest hlex rest
  cases h.symm.trans hsome

theorem length_le_of_munch {cs w : List Char} {l : Lexeme} {k : Nat} (h : munch cs = some (l, k))
    (hw : w <+: cs) (hlex : IsLexical w) : w.length ≤ k := by
  obtain ⟨rest, rfl⟩ := hw
  obtain ⟨l', k', hsome, hle⟩ := munch_longest hlex rest
  cases h.symm.trans hsome
  exact hle

/-! What is taken off the front of a text. -/

theorem exists_append_of_number? {cs n : List Char} (h : number? cs = some n) :
    ∃ rest, cs = n ++ rest := by
  have hsplit := List.takeWhile_append_dropWhile (p := isDigit) (l := cs)
  unfold number? at h
  split at h
  · rename_i fs hds hcs
    split at h
    · cases h
    · cases h
      rw [hds, hcs] at hsplit
      exact ⟨fs.dropWhile isDigit, by simp [← hsplit]⟩
  · cases h
  · rename_i fs hcs _
    cases h
    rw [hcs] at hsplit
    exact ⟨fs.dropWhile isDigit, by simp [hsplit]⟩
  · cases h
    exact ⟨_, hsplit.symm⟩

theorem exists_append_of_name? {cs n : List Char} (h : name? cs = some n) :
    IsWord n ∧ ∃ rest, cs = n ++ rest := by
  cases cs with
  | nil => cases h
  | cons c cs =>
      rw [name?] at h
      split at h
      · rename_i hc
        cases h
        refine ⟨⟨c, _, rfl, hc, fun d hd => List.mem_takeWhile_imp hd⟩,
          cs.dropWhile continuesName, ?_⟩
        rw [List.cons_append, List.takeWhile_append_dropWhile]
      · cases h

theorem exists_append_of_symbol? {cs : List Char} {s : Symbol} {k : Nat}
    (h : symbol? cs = some (s, k)) : k = s.text.length ∧ ∃ rest, cs = s.text.toList ++ rest := by
  unfold symbol? at h
  split at h <;> cases h <;> exact ⟨rfl, _, rfl⟩

theorem written_of_munch {cs : List Char} {l : Lexeme} {k : Nat} (h : munch cs = some (l, k)) :
    ∃ w rest, cs = w ++ rest ∧ w.length = k ∧ Written l w := by
  unfold munch at h
  split at h
  · rename_i hn
    cases h
    obtain ⟨rest, hcs⟩ := exists_append_of_number? hn
    exact ⟨_, rest, hcs, rfl, .number (isNumeral_of_number? hn)⟩
  · rename_i hn
    cases h
    obtain ⟨hword, rest, hcs⟩ := exists_append_of_name? hn
    refine ⟨_, rest, hcs, rfl, ?_⟩
    split
    · rename_i hmod
      exact .remainder (by simpa [isMod] using hmod)
    · rename_i hmod
      exact .name hword (by simpa [isMod] using hmod)
  · rename_i hs
    cases h
    obtain ⟨rfl, rest, hcs⟩ := exists_append_of_symbol? hs
    exact ⟨_, rest, hcs, String.length_toList, .sign _⟩
  · cases h

theorem Written.ne_nil {l : Lexeme} {w : List Char} (h : Written l w) : w ≠ [] := by
  cases h with
  | number hw =>
      obtain ⟨c, w, rfl, -⟩ := hw.exists_cons
      exact List.cons_ne_nil c w
  | name hw =>
      obtain ⟨c, w, rfl, -⟩ := hw
      exact List.cons_ne_nil c w
  | sign s =>
      obtain ⟨c, w, htext, -⟩ := exists_cons_of_sign s
      exact htext ▸ List.cons_ne_nil c w
  | remainder hw =>
      rintro rfl
      cases hw

/-- A lexeme is written as its text, but for the word that stands for the remainder sign. -/
theorem Written.text {l : Lexeme} {w : List Char} (h : Written l w) :
    l.text.toList = w ∨ l = .symbol .percent ∧ w.map Char.toLower = ['m', 'o', 'd'] := by
  cases h with
  | number | name => exact .inl String.toList_ofList
  | sign => exact .inl rfl
  | remainder hw => exact .inr ⟨rfl, hw⟩

/-- A token is as wide as the word that stands at its place. -/
theorem width_of_written {l : Lexeme} {w rest : List Char} (h : Written l w)
    (hfull : full.drop p = w ++ rest) : width full ⟨l, p⟩ = w.length := by
  have hhead : full[p]? = (w ++ rest)[0]? := by rw [← hfull, List.getElem?_drop, Nat.add_zero]
  cases h with
  | number => simp [width, Lexeme.text]
  | name => simp [width, Lexeme.text]
  | sign s =>
      rw [width, if_neg, Lexeme.text, String.length_toList]
      rintro ⟨hs, hne⟩
      cases hs
      exact hne hhead
  | remainder hw =>
      rw [width, if_pos]
      · simpa using congrArg List.length hw.symm
      · refine ⟨rfl, fun hpercent => ?_⟩
        cases w with
        | nil => cases hw
        | cons c w =>
            rw [hpercent] at hhead
            cases hhead
            cases hw

/-! Tokens put together. -/

theorem Splits.nil (full : List Char) (p : Nat) : Splits full p p [] where
  ordered := Nat.le_refl p
  within := fun _ h => by cases h
  apart := .nil
  written := fun _ h => by cases h
  longest := fun _ h => by cases h
  blank := fun k hle hlt => absurd hlt (Nat.not_lt.2 hle)

theorem Splits.space {c : Char} (hc : full[p]? = some c) (hblank : isBlank c = true)
    (h : Splits full (p + 1) q ts) : Splits full p q ts where
  ordered := Nat.le_of_succ_le h.ordered
  within := fun t ht => ⟨Nat.le_of_succ_le (h.within t ht).1, (h.within t ht).2⟩
  apart := h.apart
  written := h.written
  longest := h.longest
  blank := fun k hle hlt => by
    obtain rfl | hle := Nat.eq_or_lt_of_le hle
    · exact .inr ⟨c, hc, hblank⟩
    · exact h.blank k hle hlt

theorem Splits.token {l : Lexeme} {w rest : List Char} (hw : Written l w)
    (hfull : full.drop p = w ++ rest)
    (hlongest : ∀ v, v <+: full.drop p → IsLexical v → v.length ≤ w.length)
    (h : Splits full (p + w.length) q ts) : Splits full p q (⟨l, p⟩ :: ts) := by
  have hwidth : width full ⟨l, p⟩ = w.length := width_of_written hw hfull
  have hstop : stop full ⟨l, p⟩ = p + w.length := by rw [stop, hwidth]
  have hslice : slice full ⟨l, p⟩ = w := by rw [slice, hwidth, hfull, List.take_left]
  have hpos : 0 < w.length := List.length_pos_iff.2 hw.ne_nil
  constructor
  case ordered => exact Nat.le_trans (Nat.le_add_right p w.length) h.ordered
  case within =>
    rw [List.forall_mem_cons]
    refine ⟨?_, fun t ht => ?_⟩
    · rw [hstop]
      exact ⟨Nat.le_refl p, Nat.lt_add_of_pos_right hpos, h.ordered⟩
    · exact ⟨Nat.le_trans (Nat.le_add_right p w.length) (h.within t ht).1, (h.within t ht).2⟩
  case apart =>
    refine List.pairwise_cons.2 ⟨fun t ht => ?_, h.apart⟩
    rw [hstop]
    exact (h.within t ht).1
  case written =>
    rw [List.forall_mem_cons, hslice]
    exact ⟨hw, h.written⟩
  case longest =>
    rw [List.forall_mem_cons, hwidth]
    exact ⟨hlongest, h.longest⟩
  case blank =>
    intro k hle hlt
    by_cases hin : k < p + w.length
    · exact .inl ⟨_, List.mem_cons_self, hle, hstop ▸ hin⟩
    · obtain ⟨t, ht, hk⟩ | hblank := h.blank k (Nat.not_lt.1 hin) hlt
      · exact .inl ⟨t, List.mem_cons_of_mem _ ht, hk⟩
      · exact .inr hblank

/-- What the lexer may answer from a position on. -/
inductive Outcome (full : List Char) (p : Nat) : Except Error (List Token) → Prop
  | split {ts : List Token} : Splits full p full.length ts → Outcome full p (.ok ts)
  | refused {ts : List Token} {q : Nat} {c : Char} : Splits full p q ts → Refused full q c →
      Outcome full p (.error (.unexpectedCharacter c q))

theorem Outcome.space {r : Except Error (List Token)} {c : Char} (hc : full[p]? = some c)
    (hblank : isBlank c = true) (h : Outcome full (p + 1) r) : Outcome full p r := by
  cases h with
  | split hts => exact .split (hts.space hc hblank)
  | refused hts hq => exact .refused (hts.space hc hblank) hq

theorem Outcome.token {r : Except Error (List Token)} {l : Lexeme} {w rest : List Char}
    (hw : Written l w) (hfull : full.drop p = w ++ rest)
    (hlongest : ∀ v, v <+: full.drop p → IsLexical v → v.length ≤ w.length)
    (h : Outcome full (p + w.length) r) : Outcome full p (do
      let ts ← r
      return ⟨l, p⟩ :: ts) := by
  cases h with
  | split hts => exact .split (hts.token hw hfull hlongest)
  | refused hts hq => exact .refused (hts.token hw hfull hlongest) hq

theorem getElem?_of_drop_eq_cons {c : Char} {cs : List Char} (h : full.drop p = c :: cs) :
    full[p]? = some c := by
  rw [← Nat.add_zero p, ← List.getElem?_drop, h]
  rfl

/-- By induction on what is left of the text: white space and words are taken off the front one by
one, until it ends or begins with neither. -/
theorem outcome_scan (hp : p ≤ full.length) : Outcome full p (scan 0 p (full.drop p)) := by
  induction hleft : full.length - p using Nat.strong_induction_on generalizing p with
  | _ n ih =>
      cases hcs : full.drop p with
      | nil =>
          obtain rfl := Nat.le_antisymm hp (List.drop_eq_nil_iff.1 hcs)
          exact .split (.nil full full.length)
      | cons c cs =>
          have hc := getElem?_of_drop_eq_cons hcs
          have hlt : p < full.length := (List.getElem?_eq_some_iff.1 hc).1
          cases hblank : isBlank c with
          | true =>
              have hdrop : full.drop (p + 1) = cs := by rw [← List.drop_drop, hcs]; rfl
              rw [scan, if_pos hblank, ← hdrop]
              exact .space hc hblank (ih _ (by omega) hlt rfl)
          | false =>
              cases hmunch : munch (c :: cs) with
              | none =>
                  rw [scan, if_neg (by simp [hblank]), hmunch]
                  exact .refused (.nil full p)
                    ⟨hc, hblank, fun w hw => not_isLexical_of_munch hmunch (hcs ▸ hw)⟩
              | some found =>
                  -- a word is not empty, so there is less text behind it
                  obtain ⟨l, k⟩ := found
                  obtain ⟨w, rest, hw, rfl, hwritten⟩ := written_of_munch hmunch
                  obtain ⟨d, w, rfl⟩ := List.exists_cons_of_ne_nil hwritten.ne_nil
                  rw [List.cons_append] at hw
                  obtain ⟨rfl, rfl⟩ := List.cons.inj hw
                  have hrest : full.drop (p + (c :: w).length) = rest := by
                    rw [← List.drop_drop, hcs]
                    exact List.drop_left
                  have hlength : full.length - p = w.length + 1 + rest.length := by
                    rw [← List.length_drop, hcs, ← List.cons_append, List.length_append,
                      List.length_cons]
                  rw [scan_word p hblank hmunch, Nat.add_right_comm, ← hrest]
                  refine .token hwritten hcs (fun v hv => length_le_of_munch hmunch (hcs ▸ hv))
                    (ih _ ?_ ?_ rfl)
                  all_goals
                    rw [List.length_cons]
                    omega

theorem splits_of_scan {cs : List Char} (h : scan 0 0 cs = .ok ts) :
    Splits cs 0 cs.length ts := by
  have houtcome : Outcome cs 0 (scan 0 0 cs) := outcome_scan (Nat.zero_le _)
  rw [h] at houtcome
  cases houtcome with
  | split hts => exact hts

/-- The positions of tokens increase, up to the end of the text. -/
theorem Splits.increasing (h : Splits full p q ts) :
    (ts.map (·.position) ++ [q]).Pairwise (· < ·) := by
  rw [List.pairwise_append, List.pairwise_map]
  refine ⟨?_, List.pairwise_singleton _ _, ?_⟩
  · exact h.apart.imp_of_mem fun ht _ hle => Nat.lt_of_lt_of_le (h.within _ ht).2.1 hle
  · simp only [List.mem_map, List.mem_singleton]
    rintro _ ⟨t, ht, rfl⟩ _ rfl
    exact Nat.lt_of_lt_of_le (h.within t ht).2.1 (h.within t ht).2.2

/-- With the character behind it a token is no longer a word. -/
theorem Splits.not_isLexical_append (h : Splits full p q ts) (ht : t ∈ ts) {c : Char}
    (hc : full[t.stop full]? = some c) : ¬IsLexical (t.slice full ++ [c]) := by
  intro hlex
  have hslice : t.slice full ++ [c] = (full.drop t.position).take (t.width full + 1) := by
    rw [List.take_add_one, List.getElem?_drop, ← stop, hc]
    rfl
  have hlength : (t.slice full ++ [c]).length = t.width full + 1 := by
    rw [hslice, List.length_take, List.length_drop]
    have := (List.getElem?_eq_some_iff.1 hc).1
    rw [stop] at this
    omega
  have hle := h.longest t ht _ (hslice ▸ List.take_prefix _ _) hlex
  omega

/-- Splitting a text by the longest words. -/
theorem ofText_longest_words (text : String) :
    (∃ tokens, Tokens.ofText text = .ok tokens ∧
        tokens.stop = text.length ∧
        (tokens.list.map (·.position) ++ [tokens.stop]).Pairwise (· < ·) ∧
        Splits text.toList 0 text.length tokens.list ∧
        (∀ t ∈ tokens.list, t.lexeme.text.toList = t.slice text.toList ∨
          t.lexeme = .symbol .percent ∧
            (t.slice text.toList).map Char.toLower = ['m', 'o', 'd']) ∧
        ∀ t ∈ tokens.list, ∀ c, text.toList[t.stop text.toList]? = some c →
          ¬IsNumeral (t.slice text.toList ++ [c]) ∧ ¬IsWord (t.slice text.toList ++ [c]) ∧
            (t.lexeme.text = ">" ∨ t.lexeme.text = "<" → c ≠ '=')) ∨
      ∃ c p ts, Tokens.ofText text = .error (.unexpectedCharacter c p) ∧
        (Error.unexpectedCharacter c p).family = .wording ∧
        (Error.unexpectedCharacter c p).position? = some p ∧
        Refused text.toList p c ∧
        Splits text.toList 0 p ts := by
  have houtcome : Outcome text.toList 0 (scan 0 0 text.toList) := outcome_scan (Nat.zero_le _)
  rw [Tokens.ofText]
  generalize scan 0 0 text.toList = r at houtcome
  cases houtcome with
  | @split ts hts =>
      rw [String.length_toList] at hts
      refine .inl ⟨⟨ts, text.length⟩, rfl, rfl, hts.increasing, hts,
        fun t ht => (hts.written t ht).text, fun t ht c hc => ?_⟩
      have hmore := hts.not_isLexical_append ht hc
      refine ⟨fun h => hmore (.number h), fun h => hmore (.name h), fun hsign heq => hmore ?_⟩
      subst heq
      obtain htext | ⟨hpercent, -⟩ := (hts.written t ht).text
      · rcases hsign with hsign | hsign <;> rw [← htext, hsign]
        · exact .sign (.relation .ge true)
        · exact .sign (.relation .le true)
      · rw [hpercent] at hsign
        exact absurd hsign (by decide)
  | refused hts hp =>
      exact .inr ⟨_, _, _, rfl, rfl, rfl, hp, hts⟩

example : (Tokens.ofText "1.5mOd x>=.2").map (fun tokens => tokens.list.map fun t =>
    (t.lexeme.text, t.position)) =
    .ok [("1.5", 0), ("%", 3), ("x", 7), (">=", 8), (".2", 10)] := by decide +kernel

end EquationEngine.Token
