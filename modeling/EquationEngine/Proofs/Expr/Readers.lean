import EquationEngine.Proofs.Expr.Grammar
import EquationEngine.Proofs.Run

/-!
What the readers of the parser do on their own.

A reader looks no further than the token at which it stops, so it answers alike on all tokens that
begin with the same ones up to there. What it takes off the front is derived for the tree that it
returns. What it has passed when it refuses a token can be completed: an operator may still be
followed by an operand, and an open sign by an operand and its closing sign. An unknown function is
the exception, since it is refused only when the parenthesis behind it has been seen.
-/

namespace EquationEngine.Parser

open Grammar

variable {α β γ : Type} [Arithmetic α] {stop : Nat}

/-- The answer of a reader as a pair of a tree and the tokens left. -/
def plain {n : Nat} (r : Except Error (Parsed α n)) : Except Error (Expr α × List Token) :=
  r.map fun p => (p.value, p.rest)

/-- The tokens behind a closing sign, with the tree that it closes. -/
def closing (stop : Nat) (s : Symbol) (e : Expr α) (ts : List Token) :
    Except Error (Expr α × List Token) :=
  (expect stop s ts).map fun rest => (e, rest.1)

/-- The rest of a power behind its base. -/
def powerFrom (stop : Nat) (base : Expr α) : List Token → Except Error (Expr α × List Token)
  | ⟨.symbol .caret, _⟩ :: us =>
    plain (signed stop us) >>= fun p => .ok (power base p.1, p.2)
  | us => .ok (base, us)

/-! The readers in terms of each other. -/

omit [Arithmetic α] in
theorem plain_bind {n m : Nat} (r : Except Error (Parsed α n))
    {f : Parsed α n → Except Error (Parsed α m)}
    {g : Expr α × List Token → Except Error (Expr α × List Token)}
    (h : ∀ p, plain (f p) = g (p.value, p.rest)) : plain (r >>= f) = plain r >>= g := by
  cases r with
  | error err => rfl
  | ok p => exact h p

omit [Arithmetic α] in
/-- A bound weakened at the end of a reader does not show in its answer. -/
theorem plain_weaken {n m : Nat} (r : Except Error (Parsed α n))
    (h : ∀ p : Parsed α n, p.rest.length < m) :
    plain (r >>= fun p => (return ⟨p.value, p.rest, h p⟩ : Except Error (Parsed α m))) =
      plain r := by
  cases r <;> rfl

theorem plain_additive (ts : List Token) :
    plain (additive (α := α) stop ts) =
      plain (multiplicative stop ts) >>= fun p => plain (additiveFrom stop p.1 p.2) := by
  rw [additive]
  exact plain_bind _ fun first => plain_weaken _ _

theorem plain_multiplicative (ts : List Token) :
    plain (multiplicative (α := α) stop ts) =
      plain (signed stop ts) >>= fun p => plain (multiplicativeFrom stop p.1 p.2) := by
  rw [multiplicative]
  exact plain_bind _ fun first => plain_weaken _ _

theorem plain_additiveFrom_nil (left : Expr α) :
    plain (additiveFrom stop left []) = .ok (left, []) := by
  rw [additiveFrom]
  rfl

theorem plain_additiveFrom_cons (left : Expr α) (t : Token) (ts : List Token) :
    plain (additiveFrom stop left (t :: ts)) =
      match sumOp? t with
      | none => .ok (left, t :: ts)
      | some op => plain (multiplicative stop ts) >>= fun p =>
          plain (additiveFrom stop (.binary op left p.1) p.2) := by
  rw [additiveFrom]
  cases sumOp? t with
  | none => rfl
  | some op => exact plain_bind _ fun next => plain_weaken _ _

theorem plain_multiplicativeFrom_nil (left : Expr α) :
    plain (multiplicativeFrom stop left []) = .ok (left, []) := by
  rw [multiplicativeFrom]
  rfl

theorem plain_multiplicativeFrom_cons (left : Expr α) (t : Token) (ts : List Token) :
    plain (multiplicativeFrom stop left (t :: ts)) =
      match productOp? t with
      | none => .ok (left, t :: ts)
      | some op => plain (signed stop ts) >>= fun p =>
          plain (multiplicativeFrom stop (.binary op left p.1) p.2) := by
  rw [multiplicativeFrom]
  cases productOp? t with
  | none => rfl
  | some op => exact plain_bind _ fun next => plain_weaken _ _

theorem plain_signed_minus (p : Nat) (ts : List Token) :
    plain (signed (α := α) stop (⟨.symbol .minus, p⟩ :: ts)) =
      plain (signed stop ts) >>= fun p => .ok (.negate p.1, p.2) := by
  rw [signed]
  exact plain_bind _ fun e => rfl

theorem plain_signed_of_ne {ts : List Token} (h : ∀ p us, ts ≠ ⟨.symbol .minus, p⟩ :: us) :
    plain (signed (α := α) stop ts) = plain (exponential stop ts) := by
  rw [signed]
  exact h

theorem plain_exponential (ts : List Token) :
    plain (exponential (α := α) stop ts) =
      plain (operand stop ts) >>= fun p => powerFrom stop p.1 p.2 := by
  rw [exponential]
  refine plain_bind _ fun base => ?_
  split
  · rename_i h
    simp only [h]
    exact plain_bind _ fun exponent => rfl
  · rename_i h
    rw [powerFrom]
    · rfl
    · exact h

theorem plain_operand_number (text : String) (p : Nat) (ts : List Token) :
    plain (operand (α := α) stop (⟨.number text, p⟩ :: ts)) = .ok (constant text, ts) := by
  rw [operand]
  rfl

theorem plain_operand_call (f : String) (p q : Nat) (ts : List Token) :
    plain (operand (α := α) stop (⟨.name f, p⟩ :: ⟨.symbol .openParen, q⟩ :: ts)) =
      match function? f with
      | none => .error (.unknownFunction f p)
      | some op => plain (additive stop ts) >>= fun r =>
          closing stop .closeParen (.apply op r.1) r.2 := by
  rw [operand]
  cases function? f with
  | none => rfl
  | some op =>
      refine plain_bind _ fun e => ?_
      rw [closing]
      cases expect stop .closeParen e.rest <;> rfl

theorem plain_operand_name {ts : List Token} (h : ∀ q us, ts ≠ ⟨.symbol .openParen, q⟩ :: us)
    (x : String) (p : Nat) :
    plain (operand (α := α) stop (⟨.name x, p⟩ :: ts)) = .ok (.var x, ts) := by
  rw [operand]
  · rfl
  · exact h

theorem plain_operand_group (p : Nat) (ts : List Token) :
    plain (operand (α := α) stop (⟨.symbol .openParen, p⟩ :: ts)) =
      plain (additive stop ts) >>= fun r => closing stop .closeParen r.1 r.2 := by
  rw [operand]
  refine plain_bind _ fun e => ?_
  rw [closing]
  cases expect stop .closeParen e.rest <;> rfl

theorem plain_operand_bars (p : Nat) (ts : List Token) :
    plain (operand (α := α) stop (⟨.symbol .bar, p⟩ :: ts)) =
      plain (additive stop ts) >>= fun r => closing stop .bar (.apply .abs r.1) r.2 := by
  rw [operand]
  refine plain_bind _ fun e => ?_
  rw [closing]
  cases expect stop .bar e.rest <;> rfl

omit [Arithmetic α] in
theorem closing_of_eq {s : Symbol} {t : Token} (ht : t.lexeme = .symbol s) (e : Expr α)
    (rest : List Token) : closing stop s e (t :: rest) = .ok (e, rest) := by
  rw [closing, expect, if_pos ht]
  rfl

/-! The rules of the operators. -/

theorem derives_sum {t : Token} {op : BinaryOp} (hop : sumOp? t = some op) {ts us : List Lexeme}
    {a b : Expr α} (ha : Derives .additive ts a) (hb : Derives .multiplicative us b) :
    Derives .additive (ts ++ t.lexeme :: us) (.binary op a b) := by
  unfold sumOp? at hop
  split at hop <;> cases hop <;> rename_i ht <;> rw [ht]
  · exact .sum ha hb
  · exact .difference ha hb

theorem derives_product {t : Token} {op : BinaryOp} (hop : productOp? t = some op)
    {ts us : List Lexeme} {a b : Expr α} (ha : Derives .multiplicative ts a)
    (hb : Derives .unary us b) :
    Derives .multiplicative (ts ++ t.lexeme :: us) (.binary op a b) := by
  unfold productOp? at hop
  split at hop <;> cases hop <;> rename_i ht <;> rw [ht]
  · exact .product ha hb
  · exact .quotient ha hb
  · exact .remainder ha hb

theorem derives_power {ts us : List Lexeme} {a b : Expr α} (ha : Derives .primary ts a)
    (hb : Derives .unary us b) : Derives .power (ts ++ .symbol .caret :: us) (power a b) := by
  unfold power
  split
  · exact .exponential ha hb
  · rename_i hne
    exact .exponent ha hne hb

/-! What can be completed. -/

/-- A list of lexemes can be completed to one that is written for a tree of a category. -/
def Begins (α : Type) [Arithmetic α] (c : Category) (ls : List Lexeme) : Prop :=
  ∃ (ls' : List Lexeme) (e : Expr α), ls <+: ls' ∧ Derives c ls' e

theorem begins_name (c : Category) : Begins α c [] := by
  have hx : Derives .primary [.name "x"] (.var "x" : Expr α) := .name "x"
  refine ⟨[.name "x"], .var "x", List.nil_prefix, ?_⟩
  cases c with
  | additive => exact .term (.factor (.unsigned (.base hx)))
  | multiplicative => exact .factor (.unsigned (.base hx))
  | unary => exact .unsigned (.base hx)
  | power => exact .base hx
  | primary => exact hx

theorem Begins.imp {c d : Category} {ls : List Lexeme} (h : Begins α c ls)
    (hcd : ∀ {ls : List Lexeme} {e : Expr α}, Derives c ls e → Derives d ls e) :
    Begins α d ls := by
  obtain ⟨ls', e, hstart, hderives⟩ := h
  exact ⟨ls', e, hstart, hcd hderives⟩

/-- What begins a part begins the whole, with what stands in front of the part. -/
theorem Begins.behind {c d : Category} {ls : List Lexeme} {f : Expr α → Expr α}
    (before : List Lexeme) (h : Begins α c ls)
    (hcd : ∀ {ls : List Lexeme} {e : Expr α}, Derives c ls e → Derives d (before ++ ls) (f e)) :
    Begins α d (before ++ ls) := by
  obtain ⟨ls', e, hstart, hderives⟩ := h
  exact ⟨before ++ ls', f e, (List.prefix_append_right_inj before).2 hstart, hcd hderives⟩

/-- What begins an expression begins a closed one. -/
theorem Begins.closed {s : Symbol} {before ls : List Lexeme} {f : Expr α → Expr α}
    (h : Begins α .additive ls)
    (hclosed : ∀ {ls : List Lexeme} {e : Expr α}, Derives .additive ls e →
      Derives .primary (before ++ (ls ++ [.symbol s])) (f e)) :
    Begins α .primary (before ++ ls) := by
  obtain ⟨ls', e, hstart, hderives⟩ := h
  refine ⟨before ++ (ls' ++ [.symbol s]), f e, ?_, hclosed hderives⟩
  exact (List.prefix_append_right_inj before).2 (hstart.trans (List.prefix_append ls' _))

/-! Looking no further than one token. -/

/-- Behind `front`, the answer of `f` to any tokens with the same first one as `rest` is
`answer`. -/
def Settles (f : List Token → β) (front rest : List Token) (answer : List Token → β) : Prop :=
  ∀ us, us.head? = rest.head? → f (front ++ us) = answer us

/-- An error of `f` is one of wording and names the first of the tokens `rest`, or the end. Unless a
function is unknown, what stands in front of that token is `viable`, and the error does not depend
on what stands behind it. -/
structure Refusal (stop : Nat) (viable : List Lexeme → Prop) (f : List Token → Except Error β)
    (err : Error) (front rest : List Token) : Prop where
  wording : err.family = .wording
  position : err.position? = some (here stop rest)
  first : (∀ name p, err ≠ .unknownFunction name p) →
    viable (front.map (·.lexeme)) ∧ Settles f front rest fun _ => .error err

/-- Every error of `f` on `ts` names one of these tokens, or the end. -/
def Blames (stop : Nat) (viable : List Lexeme → Prop) (f : List Token → Except Error β)
    (ts : List Token) : Prop :=
  ∀ err, f ts = .error err → ∃ front rest, ts = front ++ rest ∧
    Refusal stop viable f err front rest

/-- A reader of a category, behind lexemes read before, looks no further than one token. -/
structure Local (c : Category) (before : List Lexeme) (stop : Nat)
    (f : List Token → Except Error (Expr α × List Token)) (ts : List Token) : Prop where
  taken : ∀ e rest, f ts = .ok (e, rest) → ∃ front, ts = front ++ rest ∧
    Derives c (before ++ front.map (·.lexeme)) e ∧ Settles f front rest fun us => .ok (e, us)
  blames : Blames stop (fun ls => Begins α c (before ++ ls)) f ts

theorem head?_append_congr {front us rest : List Token} (h : us.head? = rest.head?) :
    (front ++ us).head? = (front ++ rest).head? := by
  cases front with
  | nil => exact h
  | cons t front => rfl

omit [Arithmetic α] in
/-- A reader on the tokens behind `front` settles what the two together do. -/
theorem Settles.bind {A : List Token → Except Error (Expr α × List Token)}
    {B : Expr α → List Token → Except Error β} {f : List Token → Except Error β}
    {pre front front' rest us : List Token} {e : Expr α} {answer : List Token → Except Error β}
    (hus : us = front ++ (front' ++ rest))
    (hf : ∀ vs, vs.head? = us.head? → f (pre ++ vs) = A vs >>= fun p => B p.1 p.2)
    (hA : Settles A front (front' ++ rest) fun us => .ok (e, us))
    (hB : Settles (B e) front' rest answer) : Settles f (pre ++ front ++ front') rest answer := by
  intro vs hvs
  have hhead : (front' ++ vs).head? = (front' ++ rest).head? := head?_append_congr hvs
  rw [List.append_assoc, List.append_assoc, hf _ (hus ▸ head?_append_congr hhead), hA _ hhead]
  exact hB vs hvs

omit [Arithmetic α] in
/-- A first reader names the same token for the two together. -/
theorem Settles.bind_error {A : List Token → Except Error (Expr α × List Token)}
    {B : Expr α → List Token → Except Error β} {f : List Token → Except Error β}
    {pre front rest us : List Token} {err : Error} (hus : us = front ++ rest)
    (hf : ∀ vs, vs.head? = us.head? → f (pre ++ vs) = A vs >>= fun p => B p.1 p.2)
    (hA : Settles A front rest fun _ => .error err) :
    Settles f (pre ++ front) rest fun _ => .error err := by
  intro vs hvs
  rw [List.append_assoc, hf _ (hus ▸ head?_append_congr hvs), hA vs hvs]
  rfl

omit [Arithmetic α] in
/-- A refusal by one reader is one by another that settles it as well. -/
theorem Refusal.imp {viable viable' : List Lexeme → Prop} {f : List Token → Except Error β}
    {g : List Token → Except Error γ} {err : Error} {front front' rest : List Token}
    (h : Refusal stop viable f err front rest)
    (hviable : viable (front.map (·.lexeme)) → viable' (front'.map (·.lexeme)))
    (hsettles : Settles f front rest (fun _ => .error err) →
      Settles g front' rest fun _ => .error err) :
    Refusal stop viable' g err front' rest where
  wording := h.wording
  position := h.position
  first hknown := ⟨hviable (h.first hknown).1, hsettles (h.first hknown).2⟩

/-- Two readers that agree on all tokens with the same first one. -/
theorem Blames.congr {viable : List Lexeme → Prop} {f g : List Token → Except Error β}
    {ts : List Token} (h : Blames stop viable g ts)
    (hfg : ∀ us, us.head? = ts.head? → f us = g us) : Blames stop viable f ts := by
  intro err herr
  rw [hfg ts rfl] at herr
  obtain ⟨front, rest, rfl, hrefusal⟩ := h err herr
  refine ⟨front, rest, rfl, hrefusal.imp id fun hsettles us hus => ?_⟩
  rw [hfg _ (head?_append_congr hus), hsettles us hus]

/-- A reader behind the tokens `pre`, and what is done with its answer. -/
theorem Blames.bind {c : Category} {A : List Token → Except Error (Expr α × List Token)}
    {f : List Token → Except Error β} {us : List Token} {viable : List Lexeme → Prop}
    (pre : List Token) (B : Expr α → List Token → Except Error β) (hA : Local c [] stop A us)
    (hf : ∀ vs, vs.head? = us.head? → f (pre ++ vs) = A vs >>= fun p => B p.1 p.2)
    (hviable : ∀ ls, Begins α c ls → viable (pre.map (·.lexeme) ++ ls))
    (hB : ∀ e front rest, A us = .ok (e, rest) → Derives c (front.map (·.lexeme)) e →
      Blames stop (fun ls => viable ((pre ++ front).map (·.lexeme) ++ ls)) (B e) rest) :
    Blames stop viable f (pre ++ us) := by
  intro err herr
  rw [hf us rfl] at herr
  obtain herr | ⟨⟨e, rest⟩, hok, herr⟩ := bind_eq_error.1 herr
  · obtain ⟨front, rest, hus, hrefusal⟩ := hA.blames err herr
    refine ⟨pre ++ front, rest, by rw [hus, List.append_assoc],
      hrefusal.imp (fun hbegins => ?_) (Settles.bind_error hus hf)⟩
    rw [List.map_append]
    exact hviable _ hbegins
  · obtain ⟨front, hus, hderives, hsettles⟩ := hA.taken e rest hok
    obtain ⟨front', rest', hrest, hrefusal⟩ := hB e front rest hok hderives err herr
    subst hrest
    refine ⟨pre ++ front ++ front', rest', by simp [hus],
      hrefusal.imp (fun hbegins => ?_) (hsettles.bind hus hf)⟩
    rwa [List.map_append]

/-- Two readers in a row, the first of them behind the tokens `pre`. -/
theorem Local.bind {c d : Category} {before : List Lexeme}
    {A f : List Token → Except Error (Expr α × List Token)} {us : List Token} (pre : List Token)
    (B : Expr α → List Token → Except Error (Expr α × List Token)) (hA : Local c [] stop A us)
    (hf : ∀ vs, vs.head? = us.head? → f (pre ++ vs) = A vs >>= fun p => B p.1 p.2)
    (hviable : ∀ ls, Begins α c ls → Begins α d (before ++ (pre.map (·.lexeme) ++ ls)))
    (hB : ∀ e front rest, A us = .ok (e, rest) → Derives c (front.map (·.lexeme)) e →
      Local d (before ++ (pre ++ front).map (·.lexeme)) stop (B e) rest) :
    Local d before stop f (pre ++ us) where
  taken e' rest' h := by
    rw [hf us rfl] at h
    obtain ⟨⟨e, rest⟩, hok, h⟩ := bind_eq_ok.1 h
    obtain ⟨front, hus, hderives, hsettles⟩ := hA.taken e rest hok
    obtain ⟨front', hrest, hderives', hsettles'⟩ := (hB e front rest hok hderives).taken e' rest' h
    subst hrest
    refine ⟨pre ++ front ++ front', by simp [hus], ?_, hsettles.bind hus hf hsettles'⟩
    rwa [List.map_append, ← List.append_assoc]
  blames := by
    refine Blames.bind pre B hA hf hviable fun e front rest hok hderives => ?_
    have hblames := (hB e front rest hok hderives).blames
    simp only [List.append_assoc] at hblames
    exact hblames

/-- A reader that takes nothing looks at the first token only. -/
theorem Local.unread {c : Category} {before : List Lexeme} {e : Expr α}
    {f : List Token → Except Error (Expr α × List Token)} {ts : List Token}
    (h : Derives c before e) (hf : ∀ us, us.head? = ts.head? → f us = .ok (e, us)) :
    Local c before stop f ts where
  taken e' rest hok := by
    rw [hf ts rfl] at hok
    cases hok
    exact ⟨[], rfl, by rwa [List.map_nil, List.append_nil], hf⟩
  blames err herr := by
    rw [hf ts rfl] at herr
    cases herr

/-- A reader that takes one token. -/
theorem Local.single {c : Category} {before : List Lexeme} {e : Expr α}
    {f : List Token → Except Error (Expr α × List Token)} {t : Token} {ts : List Token}
    (h : Derives c (before ++ [t.lexeme]) e)
    (hf : ∀ us, us.head? = ts.head? → f (t :: us) = .ok (e, us)) :
    Local c before stop f (t :: ts) where
  taken e' rest hok := by
    rw [hf ts rfl] at hok
    cases hok
    exact ⟨[t], rfl, h, hf⟩
  blames err herr := by
    rw [hf ts rfl] at herr
    cases herr

/-- A reader that refuses the first token. -/
theorem Local.refused {c : Category} {before : List Lexeme}
    {f : List Token → Except Error (Expr α × List Token)} {ts : List Token} (err : Error)
    (h : Begins α c before) (hfamily : err.family = .wording)
    (hposition : err.position? = some (here stop ts))
    (hf : ∀ us, us.head? = ts.head? → f us = .error err) : Local c before stop f ts where
  taken e rest hok := by
    rw [hf ts rfl] at hok
    cases hok
  blames err' herr := by
    rw [hf ts rfl] at herr
    cases herr
    refine ⟨[], ts, rfl, hfamily, hposition, fun _ => ⟨?_, hf⟩⟩
    show Begins α c (before ++ [])
    rwa [List.append_nil]

/-- A reader that knows no function of the name in front. -/
theorem Local.unknown {c : Category} {before : List Lexeme} {name : String} {p : Nat}
    {f : List Token → Except Error (Expr α × List Token)} {ts : List Token}
    (h : f (⟨.name name, p⟩ :: ts) = .error (.unknownFunction name p)) :
    Local c before stop f (⟨.name name, p⟩ :: ts) where
  taken e rest hok := by
    rw [h] at hok
    cases hok
  blames err herr := by
    rw [h] at herr
    cases herr
    exact ⟨[], _, rfl, rfl, rfl, fun hknown => absurd rfl (hknown name p)⟩

/-- Two readers that agree on all tokens with the same first one. -/
theorem Local.congr {c : Category} {before : List Lexeme}
    {f g : List Token → Except Error (Expr α × List Token)} {ts : List Token}
    (h : Local c before stop g ts) (hfg : ∀ us, us.head? = ts.head? → f us = g us) :
    Local c before stop f ts where
  taken e rest hok := by
    rw [hfg ts rfl] at hok
    obtain ⟨front, rfl, hderives, hsettles⟩ := h.taken e rest hok
    refine ⟨front, rfl, hderives, fun us hus => ?_⟩
    rw [hfg _ (head?_append_congr hus), hsettles us hus]
  blames := h.blames.congr hfg

theorem Local.imp {c d : Category} {before : List Lexeme}
    {f : List Token → Except Error (Expr α × List Token)} {ts : List Token}
    (h : Local c before stop f ts)
    (hcd : ∀ {ls : List Lexeme} {e : Expr α}, Derives c ls e → Derives d ls e) :
    Local d before stop f ts where
  taken e rest hok := by
    obtain ⟨front, hts, hderives, hsettles⟩ := h.taken e rest hok
    exact ⟨front, hts, hcd hderives, hsettles⟩
  blames err herr := by
    obtain ⟨front, rest, hts, hrefusal⟩ := h.blames err herr
    exact ⟨front, rest, hts, hrefusal.imp (fun hbegins => hbegins.imp hcd) id⟩

/-! The readers. -/

omit [Arithmetic α] in
theorem shorter_of_plain {n : Nat} {r : Except Error (Parsed α n)} {e : Expr α} {rest : List Token}
    (h : plain r = .ok (e, rest)) : rest.length < n := by
  cases r with
  | error err => cases h
  | ok p =>
      cases h
      exact p.shorter

theorem here_congr {us ts : List Token} (h : us.head? = ts.head?) :
    here stop us = here stop ts := by
  cases us <;> cases ts <;> cases h <;> rfl

theorem front?_congr {us ts : List Token} (h : us.head? = ts.head?) : front? us = front? ts := by
  rw [front?, h, front?]

theorem eq_cons_of_head? {us ts : List Token} {t : Token} (h : us.head? = (t :: ts).head?) :
    ∃ vs, us = t :: vs :=
  List.head?_eq_some_iff.1 h

theorem eq_nil_of_head? {us : List Token} (h : us.head? = ([] : List Token).head?) : us = [] :=
  List.head?_eq_none_iff.1 h

theorem local_closing {s : Symbol} {e : Expr α} {before : List Lexeme} (ts : List Token)
    (h : Derives .primary (before ++ [.symbol s]) e) :
    Local .primary before stop (closing stop s e) ts := by
  have hbegins : Begins α .primary before := ⟨_, e, List.prefix_append before _, h⟩
  cases ts with
  | nil =>
      refine .refused (.expectedToken s.text none stop) hbegins rfl rfl fun us hus => ?_
      rw [eq_nil_of_head? hus]
      rfl
  | cons t ts =>
      by_cases ht : t.lexeme = .symbol s
      · exact .single (by rwa [ht]) fun us _ => closing_of_eq ht e us
      · refine .refused (.expectedToken s.text (some t.lexeme.text) t.position) hbegins rfl rfl
          fun us hus => ?_
        obtain ⟨vs, rfl⟩ := eq_cons_of_head? hus
        rw [closing, expect, if_neg ht]
        rfl

/-- A chain goes on behind its left part if an operator is in front, and ends otherwise. -/
theorem local_chain {c d : Category} {before : List Lexeme} {left : Expr α} {t : Token}
    {ts : List Token} {op? : Token → Option BinaryOp}
    {A f : List Token → Except Error (Expr α × List Token)}
    (B : BinaryOp → Expr α → List Token → Except Error (Expr α × List Token))
    (hA : Local d [] stop A ts) (hleft : Derives c before left)
    (hf : ∀ us, f (t :: us) = match op? t with
      | none => .ok (left, t :: us)
      | some op => A us >>= fun p => B op p.1 p.2)
    (hop : ∀ op, op? t = some op → ∀ {ls : List Lexeme} {e : Expr α}, Derives d ls e →
      Derives c (before ++ t.lexeme :: ls) (.binary op left e))
    (hB : ∀ op e (front rest : List Token), op? t = some op → A ts = .ok (e, rest) →
      Derives d (front.map (·.lexeme)) e →
      Local c (before ++ t.lexeme :: front.map (·.lexeme)) stop (B op e) rest) :
    Local c before stop f (t :: ts) := by
  cases ht : op? t with
  | none =>
      refine .unread hleft fun us hus => ?_
      obtain ⟨us, rfl⟩ := eq_cons_of_head? hus
      rw [hf, ht]
  | some op =>
      refine .bind [t] (B op) hA (fun us _ => ?_) (fun ls hls => ?_)
        fun e front rest hok h => hB op e front rest ht hok h
      · rw [List.singleton_append, hf, ht]
      · rw [← List.append_assoc]
        exact hls.behind _ fun h => by simpa using hop op ht h

/-- An expression between the tokens `pre` and the closing sign `s`. -/
theorem local_enclosed {s : Symbol} {reader : List Token → Except Error (Expr α × List Token)}
    {us : List Token} (pre : List Token) (f : Expr α → Expr α)
    (h : Local .additive [] stop (fun vs => plain (additive (α := α) stop vs)) us)
    (hreader : ∀ vs, reader (pre ++ vs) =
      plain (additive stop vs) >>= fun r => closing stop s (f r.1) r.2)
    (hclosed : ∀ {ls : List Lexeme} {e : Expr α}, Derives .additive ls e →
      Derives .primary (pre.map (·.lexeme) ++ (ls ++ [.symbol s])) (f e)) :
    Local .primary [] stop reader (pre ++ us) := by
  refine .bind pre (fun e => closing stop s (f e)) h (fun vs _ => hreader vs)
    (fun ls hls => hls.closed hclosed) fun e front rest _ hderives => local_closing rest ?_
  rw [List.nil_append, List.map_append, List.append_assoc]
  exact hclosed hderives

/-- A token that begins no operand is refused. -/
theorem local_refused {ts : List Token}
    (h : ∀ t ∈ ts.head?, ∃ s, t.lexeme = .symbol s ∧ s ≠ .openParen ∧ s ≠ .bar) :
    Local .primary [] stop (fun us => plain (operand (α := α) stop us)) ts := by
  refine .refused (.unexpectedToken (front? ts) (here stop ts)) (begins_name .primary) rfl rfl
    fun us hus => ?_
  rw [← hus] at h
  rw [← front?_congr hus, ← here_congr hus, operand]
  · rfl
  all_goals
    intros
    simp_all

-- The induction is the recursion of the readers: each of them is called on fewer tokens, or on as
-- many for a tighter category.

mutual

theorem local_additive (ts : List Token) :
    Local .additive [] stop (fun us => plain (additive (α := α) stop us)) ts := by
  refine .bind [] (fun e us => plain (additiveFrom stop e us))
    (local_multiplicative ts) (fun us _ => plain_additive us) (fun ls hls => hls.imp .term)
    fun e front rest hok h => ?_
  have hlt := shorter_of_plain hok
  exact local_additiveFrom rest (.term h)
termination_by 6 * ts.length + 5

theorem local_additiveFrom (ts : List Token) {before : List Lexeme} {left : Expr α}
    (h : Derives .additive before left) :
    Local .additive before stop (fun us => plain (additiveFrom stop left us)) ts := by
  match ts with
  | [] =>
      refine .unread h fun us hus => ?_
      rw [eq_nil_of_head? hus]
      exact plain_additiveFrom_nil left
  | t :: ts =>
      refine local_chain (fun op e us => plain (additiveFrom stop (.binary op left e) us))
        (local_multiplicative ts) h (plain_additiveFrom_cons left t)
        (fun op hop => derives_sum hop h) fun op e front rest hop hok h' => ?_
      have hlt := shorter_of_plain hok
      exact local_additiveFrom rest (derives_sum hop h h')
termination_by 6 * ts.length + 5

theorem local_multiplicative (ts : List Token) :
    Local .multiplicative [] stop (fun us => plain (multiplicative (α := α) stop us)) ts := by
  refine .bind [] (fun e us => plain (multiplicativeFrom stop e us))
    (local_signed ts) (fun us _ => plain_multiplicative us) (fun ls hls => hls.imp .factor)
    fun e front rest hok h => ?_
  have hlt := shorter_of_plain hok
  exact local_multiplicativeFrom rest (.factor h)
termination_by 6 * ts.length + 4

theorem local_multiplicativeFrom (ts : List Token) {before : List Lexeme} {left : Expr α}
    (h : Derives .multiplicative before left) :
    Local .multiplicative before stop (fun us => plain (multiplicativeFrom stop left us)) ts := by
  match ts with
  | [] =>
      refine .unread h fun us hus => ?_
      rw [eq_nil_of_head? hus]
      exact plain_multiplicativeFrom_nil left
  | t :: ts =>
      refine local_chain (fun op e us => plain (multiplicativeFrom stop (.binary op left e) us))
        (local_signed ts) h (plain_multiplicativeFrom_cons left t)
        (fun op hop => derives_product hop h) fun op e front rest hop hok h' => ?_
      have hlt := shorter_of_plain hok
      exact local_multiplicativeFrom rest (derives_product hop h h')
termination_by 6 * ts.length + 4

theorem local_signed (ts : List Token) :
    Local .unary [] stop (fun us => plain (signed (α := α) stop us)) ts := by
  by_cases hminus : ∃ p us, ts = ⟨.symbol .minus, p⟩ :: us
  · obtain ⟨p, ts, rfl⟩ := hminus
    exact .bind [⟨.symbol .minus, p⟩] (fun e us => .ok (.negate e, us))
      (local_signed ts) (fun us _ => plain_signed_minus p us)
      (fun ls hls => hls.behind [.symbol .minus] .negation)
      fun e front rest _ h => .unread (.negation h) fun us _ => rfl
  · refine ((local_exponential ts).imp .unsigned).congr fun us hus => plain_signed_of_ne ?_
    rintro p vs rfl
    obtain ⟨us, rfl⟩ := eq_cons_of_head? hus.symm
    exact hminus ⟨p, us, rfl⟩
termination_by 6 * ts.length + 3

theorem local_exponential (ts : List Token) :
    Local .power [] stop (fun us => plain (exponential (α := α) stop us)) ts := by
  refine .bind [] (fun e us => powerFrom stop e us) (local_operand ts)
    (fun us _ => plain_exponential us) (fun ls hls => hls.imp .base) fun e front rest hok h => ?_
  have hlt := shorter_of_plain hok
  exact local_powerFrom rest h
termination_by 6 * ts.length + 2

theorem local_powerFrom (ts : List Token) {before : List Lexeme} {base : Expr α}
    (h : Derives .primary before base) :
    Local .power before stop (powerFrom stop base) ts := by
  by_cases hcaret : ∃ p us, ts = ⟨.symbol .caret, p⟩ :: us
  · obtain ⟨p, ts, rfl⟩ := hcaret
    refine .bind [⟨.symbol .caret, p⟩] (fun e us => .ok (power base e, us))
      (local_signed ts) (fun us _ => rfl) (fun ls hls => ?_)
      fun e front rest _ h' => .unread (derives_power h h') fun us _ => rfl
    rw [← List.append_assoc]
    exact hls.behind _ fun h' => by simpa using derives_power h h'
  · refine .unread (.base h) fun us hus => ?_
    rw [powerFrom]
    rintro p vs rfl
    obtain ⟨us, rfl⟩ := eq_cons_of_head? hus.symm
    exact hcaret ⟨p, us, rfl⟩
termination_by 6 * ts.length + 2

theorem local_operand (ts : List Token) :
    Local .primary [] stop (fun us => plain (operand (α := α) stop us)) ts := by
  match ts with
  | [] => exact local_refused nofun
  | ⟨.number text, p⟩ :: us =>
      exact .single (.number text) fun us _ => plain_operand_number text p us
  | ⟨.name x, p⟩ :: us =>
      by_cases hopen : ∃ q vs, us = ⟨.symbol .openParen, q⟩ :: vs
      · obtain ⟨q, us, rfl⟩ := hopen
        cases hop : function? x with
        | none =>
            refine .unknown ?_
            rw [plain_operand_call, hop]
        | some op =>
            refine local_enclosed [⟨.name x, p⟩, ⟨.symbol .openParen, q⟩] (.apply op)
              (local_additive us) (fun vs => ?_) (.call hop)
            exact (plain_operand_call x p q vs).trans (by rw [hop])
      · refine .single (.name x) fun vs hvs => plain_operand_name ?_ x p
        rintro q ws rfl
        obtain ⟨us, rfl⟩ := eq_cons_of_head? hvs.symm
        exact hopen ⟨q, us, rfl⟩
  | ⟨.symbol s, p⟩ :: us =>
      cases s with
      | openParen =>
          exact local_enclosed [⟨.symbol .openParen, p⟩] id (local_additive us)
            (plain_operand_group p) .group
      | bar =>
          exact local_enclosed [⟨.symbol .bar, p⟩] (.apply .abs) (local_additive us)
            (plain_operand_bars p) .bars
      | _ => exact local_refused (by simp)
termination_by 6 * ts.length + 1

end

end EquationEngine.Parser
