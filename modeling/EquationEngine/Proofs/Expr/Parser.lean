import EquationEngine.Double.Arithmetic
import EquationEngine.Proofs.Expr.Readers

/-!
The parser accepts exactly its grammar.

Both directions compare a reader's answer with the rules: what a reader takes off the front of the
tokens is derived for the tree it returns, and a derived list is read back in front of any tokens
that cannot continue it. A refusal names a token of the list, or its end.
-/

namespace EquationEngine.Parser

open Grammar

variable {α : Type} [Arithmetic α] {stop : Nat}

/-! What is read is derived, and what is refused is refused at a token or at the end. -/

/-- An error of wording, found at one of the tokens or at the end. -/
def Refuses (stop : Nat) (ts : List Token) (err : Error) : Prop :=
  err.family = .wording ∧ ∃ p, err.position? = some p ∧ (p = stop ∨ ∃ t ∈ ts, t.position = p)

/-- An answer is right for a category behind lexemes read before: it takes tokens off the front
that are derived together with them, or it is a refusal. -/
def Right (c : Category) (before : List Lexeme) (stop : Nat) (ts : List Token) :
    Except Error (Expr α × List Token) → Prop
  | .ok (e, rest) => ∃ front, ts = front ++ rest ∧ Derives c (before ++ front.map (·.lexeme)) e
  | .error err => Refuses stop ts err

theorem Refuses.of_subset {ts us : List Token} {err : Error} (h : Refuses stop us err)
    (hsub : us ⊆ ts) : Refuses stop ts err := by
  obtain ⟨hfamily, p, hp, hplace⟩ := h
  refine ⟨hfamily, p, hp, hplace.imp_right ?_⟩
  rintro ⟨t, ht, hpos⟩
  exact ⟨t, hsub ht, hpos⟩

/-- What holds of a reader followed by another step follows from the refusals of the reader and
from what it may have taken off the front. -/
theorem Right.elim {γ : Type} {c : Category} {before : List Lexeme} {us : List Token}
    {r : Except Error (Expr α × List Token)} {f : Expr α × List Token → Except Error γ}
    {P : Except Error γ → Prop} (hr : Right c before stop us r)
    (herr : ∀ err, Refuses stop us err → P (.error err))
    (hf : ∀ (e : Expr α) (front rest : List Token), us = front ++ rest →
      Derives c (before ++ front.map (·.lexeme)) e → P (f (e, rest))) : P (r >>= f) := by
  cases r with
  | error err => exact herr err hr
  | ok p =>
      obtain ⟨front, hus, h⟩ := hr
      exact hf p.1 front p.2 hus h

theorem Local.right {c : Category} {before : List Lexeme}
    {f : List Token → Except Error (Expr α × List Token)} {ts : List Token}
    (h : Local c before stop f ts) : Right c before stop ts (f ts) := by
  cases hf : f ts with
  | error err =>
      obtain ⟨front, rest, rfl, hrefusal⟩ := h.blames err hf
      refine ⟨hrefusal.wording, here stop rest, hrefusal.position, ?_⟩
      cases rest with
      | nil => exact .inl rfl
      | cons t rest => exact .inr ⟨t, List.mem_append_right front List.mem_cons_self, rfl⟩
  | ok p =>
      obtain ⟨front, hts, hderives, -⟩ := h.taken p.1 p.2 hf
      exact ⟨front, hts, hderives⟩

theorem right_additive (ts : List Token) :
    Right .additive [] stop ts (plain (additive (α := α) stop ts)) :=
  (local_additive ts).right

/-! What is derived is read, in front of any tokens that cannot continue it. -/

/-- How loosely the lexeme binds what stands in front of it, if it is part of the same expression
at all: a parenthesis makes a call, a caret a power, and so on up to a sum. -/
def looseness : Lexeme → Nat
  | .symbol .openParen => 0
  | .symbol .caret => 1
  | .symbol .times | .symbol .slash | .symbol .percent => 2
  | .symbol .plus | .symbol .minus => 3
  | _ => 4

/-- The tokens end, or their first one binds more loosely than `n`. -/
def Loose (n : Nat) (ts : List Token) : Prop := ∀ t ∈ ts.head?, n < looseness t.lexeme

theorem Loose.mono {m n : Nat} {ts : List Token} (h : Loose n ts) (hmn : m ≤ n) : Loose m ts :=
  fun t ht => Nat.lt_of_le_of_lt hmn (h t ht)

theorem loose_nil (n : Nat) : Loose n [] := by
  simp [Loose]

theorem loose_cons {n : Nat} {t : Token} {ts : List Token} :
    Loose n (t :: ts) ↔ n < looseness t.lexeme := by
  simp [Loose]

theorem looseness_sum {t : Token} {op : BinaryOp} (h : sumOp? t = some op) :
    looseness t.lexeme = 3 := by
  unfold sumOp? at h
  split at h <;> cases h <;> rename_i ht <;> rw [ht] <;> rfl

theorem looseness_product {t : Token} {op : BinaryOp} (h : productOp? t = some op) :
    looseness t.lexeme = 2 := by
  unfold productOp? at h
  split at h <;> cases h <;> rename_i ht <;> rw [ht] <;> rfl

theorem plain_additiveFrom_of_loose {ts : List Token} (h : Loose 3 ts) (left : Expr α) :
    plain (additiveFrom stop left ts) = .ok (left, ts) := by
  cases ts with
  | nil => exact plain_additiveFrom_nil left
  | cons t ts =>
      rw [plain_additiveFrom_cons]
      split
      · rfl
      · rename_i hop
        rw [loose_cons, looseness_sum hop] at h
        exact absurd h (Nat.lt_irrefl 3)

theorem plain_multiplicativeFrom_of_loose {ts : List Token} (h : Loose 2 ts) (left : Expr α) :
    plain (multiplicativeFrom stop left ts) = .ok (left, ts) := by
  cases ts with
  | nil => exact plain_multiplicativeFrom_nil left
  | cons t ts =>
      rw [plain_multiplicativeFrom_cons]
      split
      · rfl
      · rename_i hop
        rw [loose_cons, looseness_product hop] at h
        exact absurd h (Nat.lt_irrefl 2)

/-- The reader of a category reads `ts` as `e` in front of `rest`. A chain may go on behind `e`,
which is then its left part. -/
def Reads (stop : Nat) (e : Expr α) (ts rest : List Token) : Category → Prop
  | .additive => Loose 2 rest →
      plain (additive stop (ts ++ rest)) = plain (additiveFrom stop e rest)
  | .multiplicative => Loose 1 rest →
      plain (multiplicative stop (ts ++ rest)) = plain (multiplicativeFrom stop e rest)
  | .unary => Loose 1 rest → plain (signed stop (ts ++ rest)) = .ok (e, rest)
  | .power => Loose 1 rest → plain (exponential stop (ts ++ rest)) = .ok (e, rest)
  | .primary => Loose 0 rest → plain (operand stop (ts ++ rest)) = .ok (e, rest)

theorem Reads.additive_ok {e : Expr α} {ts rest : List Token}
    (h : Reads stop e ts rest .additive) (hrest : Loose 3 rest) :
    plain (additive stop (ts ++ rest)) = .ok (e, rest) :=
  (h (hrest.mono (by decide))).trans (plain_additiveFrom_of_loose hrest e)

theorem Reads.multiplicative_ok {e : Expr α} {ts rest : List Token}
    (h : Reads stop e ts rest .multiplicative) (hrest : Loose 2 rest) :
    plain (multiplicative stop (ts ++ rest)) = .ok (e, rest) :=
  (h (hrest.mono (by decide))).trans (plain_multiplicativeFrom_of_loose hrest e)

theorem reads_sum {t : Token} {op : BinaryOp} (hop : sumOp? t = some op) {ts us rest : List Token}
    {a b : Expr α} (ha : Reads stop a ts (t :: (us ++ rest)) .additive)
    (hb : Reads stop b us rest .multiplicative) :
    Reads stop (.binary op a b) (ts ++ t :: us) rest .additive := by
  intro hrest
  have hfront : Loose 2 (t :: (us ++ rest)) := by
    rw [loose_cons, looseness_sum hop]
    decide
  rw [List.append_assoc, List.cons_append, ha hfront, plain_additiveFrom_cons, hop]
  dsimp only
  rw [hb.multiplicative_ok hrest]
  rfl

theorem reads_product {t : Token} {op : BinaryOp} (hop : productOp? t = some op)
    {ts us rest : List Token} {a b : Expr α}
    (ha : Reads stop a ts (t :: (us ++ rest)) .multiplicative)
    (hb : Reads stop b us rest .unary) :
    Reads stop (.binary op a b) (ts ++ t :: us) rest .multiplicative := by
  intro hrest
  have hfront : Loose 1 (t :: (us ++ rest)) := by
    rw [loose_cons, looseness_product hop]
    decide
  rw [List.append_assoc, List.cons_append, ha hfront, plain_multiplicativeFrom_cons, hop]
  dsimp only
  rw [hb hrest]
  rfl

theorem reads_power {ts us rest : List Token} {a b : Expr α} {p : Nat}
    (ha : Reads stop a ts (⟨.symbol .caret, p⟩ :: (us ++ rest)) .primary)
    (hb : Reads stop b us rest .unary) :
    Reads stop (power a b) (ts ++ ⟨.symbol .caret, p⟩ :: us) rest .power := by
  intro hrest
  rw [List.append_assoc, List.cons_append, plain_exponential, ha (loose_cons.2 Nat.zero_lt_one)]
  show plain (signed stop (us ++ rest)) >>= _ = _
  rw [hb hrest]
  rfl

/-- The token at which a list of lexemes is split. -/
theorem exists_split {ts : List Token} {ls ls' : List Lexeme} {l : Lexeme}
    (h : ts.map (·.lexeme) = ls ++ l :: ls') :
    ∃ us t vs, ts = us ++ t :: vs ∧ us.map (·.lexeme) = ls ∧ t.lexeme = l ∧
      vs.map (·.lexeme) = ls' := by
  obtain ⟨us, vs, rfl, hus, hvs⟩ := List.map_eq_append_iff.1 h
  obtain ⟨t, vs, rfl, ht, hvs⟩ := List.map_eq_cons_iff.1 hvs
  exact ⟨us, t, vs, rfl, hus, ht, hvs⟩

/-- An expression in front of its closing sign `s`, inside what `f` makes of it. -/
theorem reads_enclosed {s : Symbol} (hs : 3 < looseness (.symbol s)) {e : Expr α}
    {ls : List Lexeme} {ts : List Token}
    (he : ∀ {us : List Token}, us.map (·.lexeme) = ls → ∀ rest, Reads stop e us rest .additive)
    (hts : ts.map (·.lexeme) = ls ++ [.symbol s]) (f : Expr α → Expr α) (rest : List Token) :
    (plain (additive stop (ts ++ rest)) >>= fun r => closing stop s (f r.1) r.2) =
      .ok (f e, rest) := by
  obtain ⟨us, t, vs, rfl, hus, ht, hvs⟩ := exists_split hts
  obtain rfl := List.map_eq_nil_iff.1 hvs
  have hclose : Loose 3 (t :: rest) := by rwa [loose_cons, ht]
  rw [List.append_assoc, List.singleton_append, (he hus (t :: rest)).additive_ok hclose]
  exact closing_of_eq ht (f e) rest

theorem reads {c : Category} {ls : List Lexeme} {e : Expr α} (h : Derives c ls e) :
    ∀ {ts : List Token}, ts.map (·.lexeme) = ls → ∀ rest, Reads stop e ts rest c := by
  induction h with
  | term _ ih =>
      intro ts hts rest hrest
      rw [plain_additive, (ih hts rest).multiplicative_ok hrest]
      rfl
  | sum _ _ iha ihb | difference _ _ iha ihb =>
      intro ts hts rest
      obtain ⟨us, t, vs, rfl, hus, ht, hvs⟩ := exists_split hts
      exact reads_sum (by rw [sumOp?, ht]) (iha hus _) (ihb hvs rest)
  | factor _ ih =>
      intro ts hts rest hrest
      rw [plain_multiplicative, ih hts rest hrest]
      rfl
  | product _ _ iha ihb | quotient _ _ iha ihb | remainder _ _ iha ihb =>
      intro ts hts rest
      obtain ⟨us, t, vs, rfl, hus, ht, hvs⟩ := exists_split hts
      exact reads_product (by rw [productOp?, ht]) (iha hus _) (ihb hvs rest)
  | negation _ ih =>
      intro ts hts rest hrest
      obtain ⟨⟨_, p⟩, us, rfl, rfl, hus⟩ := List.map_eq_cons_iff.1 hts
      rw [List.cons_append, plain_signed_minus, ih hus rest hrest]
      rfl
  | unsigned h ih =>
      intro ts hts rest hrest
      obtain ⟨l, ls, rfl⟩ := List.exists_cons_of_ne_nil h.ne_nil
      obtain ⟨t, us, rfl, rfl, hus⟩ := List.map_eq_cons_iff.1 hts
      rw [plain_signed_of_ne, ih hts rest hrest]
      -- A list with a minus in front would be read as signed, but no power has one there.
      rintro p vs hvs
      obtain ⟨rfl, -⟩ := List.cons.inj hvs
      exact h.head_power rfl
  | base _ ih =>
      intro ts hts rest hrest
      rw [plain_exponential, ih hts rest (hrest.mono (Nat.zero_le 1))]
      show powerFrom stop _ rest = _
      unfold powerFrom
      split
      · -- A caret behind the operand would make it a base.
        exact absurd (loose_cons.1 hrest) (Nat.lt_irrefl 1)
      · rfl
  | exponent _ hne _ iha ihb =>
      intro ts hts rest
      obtain ⟨us, ⟨_, p⟩, vs, rfl, hus, rfl, hvs⟩ := exists_split hts
      have hpow := reads_power (iha hus (⟨.symbol .caret, p⟩ :: (vs ++ rest))) (ihb hvs rest)
      rwa [power] at hpow
      exact hne
  | exponential _ _ iha ihb =>
      intro ts hts rest
      obtain ⟨us, ⟨_, p⟩, vs, rfl, hus, rfl, hvs⟩ := exists_split hts
      exact reads_power (iha hus (⟨.symbol .caret, p⟩ :: (vs ++ rest))) (ihb hvs rest)
  | number text =>
      intro ts hts rest _
      obtain ⟨⟨_, p⟩, rfl, rfl⟩ := List.map_eq_singleton_iff.1 hts
      exact plain_operand_number text p rest
  | name x =>
      intro ts hts rest hrest
      obtain ⟨⟨_, p⟩, rfl, rfl⟩ := List.map_eq_singleton_iff.1 hts
      refine plain_operand_name ?_ x p
      -- A parenthesis behind the name would make it a call.
      rintro q us rfl
      exact absurd (loose_cons.1 hrest) (Nat.lt_irrefl 0)
  | @call f op ls e hf _ ih =>
      intro ts hts rest _
      obtain ⟨⟨_, p⟩, us, rfl, rfl, hus⟩ := List.map_eq_cons_iff.1 hts
      obtain ⟨⟨_, q⟩, vs, rfl, rfl, hvs⟩ := List.map_eq_cons_iff.1 hus
      rw [List.cons_append, List.cons_append, plain_operand_call, hf]
      exact reads_enclosed (by decide) ih hvs (.apply op) rest
  | group _ ih =>
      intro ts hts rest _
      obtain ⟨⟨_, p⟩, us, rfl, rfl, hus⟩ := List.map_eq_cons_iff.1 hts
      rw [List.cons_append, plain_operand_group]
      exact reads_enclosed (by decide) ih hus id rest
  | bars _ ih =>
      intro ts hts rest _
      obtain ⟨⟨_, p⟩, us, rfl, rfl, hus⟩ := List.map_eq_cons_iff.1 hts
      rw [List.cons_append, plain_operand_bars]
      exact reads_enclosed (by decide) ih hus (.apply .abs) rest

/-! Whole inputs. -/

/-- The input with left part `a`, from the tokens behind that part. -/
def sentenceFrom (stop : Nat) (a : Expr α) : List Token → Except Error (Expr α)
  | ⟨.symbol (.relation r spelledOut), _⟩ :: rest =>
    if rest.isEmpty then .error (.missingRightSide (Symbol.relation r spelledOut).text stop)
    else plain (additive stop rest) >>= fun p => finish stop (.equation r a p.1) p.2
  | rest => finish stop a rest

theorem outcome_sentence (tokens : Tokens) :
    (sentence (α := α) pure tokens).outcome =
      plain (additive tokens.stop tokens.list) >>= fun p => sentenceFrom tokens.stop p.1 p.2 := by
  rw [sentence]
  cases additive (α := α) tokens.stop tokens.list with
  | error err => rfl
  | ok p =>
      rw [Run.outcome_bind_of_ok rfl, Run.outcome_bind_of_ok rfl]
      show _ = sentenceFrom tokens.stop p.value p.rest
      split
      · rename_i rest hrest
        rw [hrest, sentenceFrom]
        split
        · rfl
        · cases additive (α := α) tokens.stop rest <;> rfl
      · rename_i hrest
        rw [sentenceFrom]
        · rfl
        · exact hrest

/-- A whole input that is derived for a tree is read as that tree. -/
theorem sentence_of_derived {tokens : Tokens} {e : Expr α}
    (h : Sentence (tokens.list.map (·.lexeme)) e) : (sentence pure tokens).outcome = .ok e := by
  rw [outcome_sentence]
  obtain ⟨ts, stop⟩ := tokens
  dsimp only at h ⊢
  generalize hls : ts.map (·.lexeme) = ls at h
  cases h with
  | expression h =>
      rw [← List.append_nil ts, (reads h hls []).additive_ok (loose_nil 3)]
      rfl
  | @equation _ _ a b r spelledOut ha hb =>
      obtain ⟨us, ⟨_, p⟩, vs, rfl, hus, rfl, hvs⟩ := exists_split hls
      have hrelation : 3 < looseness (.symbol (.relation r spelledOut)) := Nat.lt_add_one 3
      rw [(reads ha hus _).additive_ok (loose_cons.2 hrelation)]
      show sentenceFrom stop a (⟨.symbol (.relation r spelledOut), p⟩ :: vs) = _
      have hne : ¬vs.isEmpty := by
        rw [List.isEmpty_iff, ← List.map_eq_nil_iff, hvs]
        exact hb.ne_nil
      rw [sentenceFrom, if_neg hne, ← List.append_nil vs,
        (reads hb hvs []).additive_ok (loose_nil 3)]
      rfl

/-- An answer for a whole input is right if it is a tree of the grammar or a refusal. -/
def RightSentence (tokens : Tokens) : Except Error (Expr α) → Prop
  | .ok e => Sentence (tokens.list.map (·.lexeme)) e
  | .error err => Refuses tokens.stop tokens.list err

theorem right_finish {ts rest : List Token} {e : Expr α} (hsub : rest ⊆ ts)
    (h : rest = [] → Sentence (ts.map (·.lexeme)) e) :
    RightSentence ⟨ts, stop⟩ (finish stop e rest) := by
  cases rest with
  | nil => exact h rfl
  | cons t rest => exact ⟨rfl, t.position, rfl, .inr ⟨t, hsub List.mem_cons_self, rfl⟩⟩

theorem right_sentenceFrom {front : List Token} {a : Expr α}
    (ha : Derives .additive (front.map (·.lexeme)) a) (rest : List Token) :
    RightSentence ⟨front ++ rest, stop⟩ (sentenceFrom stop a rest) := by
  unfold sentenceFrom
  split
  · rename_i r spelledOut p us
    split
    · exact ⟨rfl, stop, rfl, .inl rfl⟩
    · have hsub : us ⊆ front ++ ⟨.symbol (.relation r spelledOut), p⟩ :: us :=
        List.Subset.trans (List.subset_cons_self _ us) (List.subset_append_right front _)
      refine (right_additive us).elim (fun _ h => h.of_subset hsub) ?_
      rintro b front' rest rfl hb
      refine right_finish (List.Subset.trans (List.subset_append_right front' rest) hsub) ?_
      rintro rfl
      rw [List.map_append, List.map_cons, List.append_nil]
      exact .equation r spelledOut ha hb
  · refine right_finish (List.subset_append_right front rest) ?_
    rintro rfl
    rw [List.append_nil]
    exact .expression ha

theorem right_sentence (tokens : Tokens) :
    RightSentence tokens (sentence (α := α) pure tokens).outcome := by
  obtain ⟨ts, stop⟩ := tokens
  rw [outcome_sentence]
  refine (right_additive ts).elim (fun _ h => h) ?_
  rintro a front rest rfl ha
  exact right_sentenceFrom ha rest

/-- The parser accepts exactly its grammar: it answers with a tree if and only if the lexemes have
a derivation for that tree, they have one for at most one tree, and without one the answer is an
error of wording whose position is that of a token or of the end. -/
theorem sentence_accepts_grammar (tokens : Tokens) :
    (∀ e : Expr α, (sentence pure tokens).outcome = .ok e ↔
      Sentence (tokens.list.map (·.lexeme)) e) ∧
    (∀ e e' : Expr α, Sentence (tokens.list.map (·.lexeme)) e →
      Sentence (tokens.list.map (·.lexeme)) e' → e = e') ∧
    ((¬∃ e : Expr α, Sentence (tokens.list.map (·.lexeme)) e) →
      ∃ err, (sentence (α := α) pure tokens).outcome = .error err ∧ err.family = .wording ∧
        ∃ p, err.position? = some p ∧
          (p = tokens.stop ∨ ∃ t ∈ tokens.list, t.position = p)) := by
  have hright := right_sentence (α := α) tokens
  refine ⟨fun e => ⟨fun he => ?_, sentence_of_derived⟩, fun e e' he he' => ?_, fun hnone => ?_⟩
  · rwa [he] at hright
  · exact Except.ok.inj ((sentence_of_derived he).symm.trans (sentence_of_derived he'))
  · cases houtcome : (sentence (α := α) pure tokens).outcome with
    | ok e =>
        rw [houtcome] at hright
        exact absurd ⟨e, hright⟩ hnone
    | error err =>
        rw [houtcome] at hright
        exact ⟨err, rfl, hright⟩

/-- In `|x-|y||` the second bar opens and the third closes. -/
theorem sentence_accepts_nested_bars :
    (sentence pure ⟨[⟨.symbol .bar, 0⟩, ⟨.name "x", 1⟩, ⟨.symbol .minus, 2⟩, ⟨.symbol .bar, 3⟩,
      ⟨.name "y", 4⟩, ⟨.symbol .bar, 5⟩, ⟨.symbol .bar, 6⟩], 7⟩ : Run (Expr Float)).outcome =
      .ok (.apply .abs (.binary .sub (.var "x") (.apply .abs (.var "y")))) := by
  have hx : Derives .multiplicative [.name "x"] (.var "x" : Expr Float) :=
    .factor (.unsigned (.base (.name "x")))
  have hy : Derives .additive [.name "y"] (.var "y" : Expr Float) :=
    .term (.factor (.unsigned (.base (.name "y"))))
  have hdifference := Derives.difference (.term hx) (.factor (.unsigned (.base (.bars hy))))
  have hbars := Derives.term (.factor (.unsigned (.base (.bars hdifference))))
  exact ((sentence_accepts_grammar _).1 _).2 (.expression hbars)

end EquationEngine.Parser
