import EquationEngine.Proofs.Simplify.Shape

/-!
Marks on constants play no part in a sweep.

A marked number is computed with, compared and written as its value is. So each of the four passes
makes of a marked tree what it makes of the tree without the marks, and with it a whole sweep. This
is shown definition by definition, in the order in which the passes use them.
-/

namespace EquationEngine

open Arithmetic

variable {α : Type}

namespace Placed

variable [Arithmetic α]

@[simp] theorem value_add (x y : Placed α) : (x + y).value = x.value + y.value := rfl
@[simp] theorem value_sub (x y : Placed α) : (x - y).value = x.value - y.value := rfl
@[simp] theorem value_mul (x y : Placed α) : (x * y).value = x.value * y.value := rfl
@[simp] theorem value_div (x y : Placed α) : (x / y).value = x.value / y.value := rfl
@[simp] theorem value_neg (x : Placed α) : (-x).value = -x.value := rfl
@[simp] theorem value_abs (x : Placed α) : (Arithmetic.abs x).value = Arithmetic.abs x.value := rfl
@[simp] theorem isZero_value (x : Placed α) : isZero x.value = isZero x := rfl
@[simp] theorem isOne_value (x : Placed α) : isOne x.value = isOne x := rfl
@[simp] theorem lt_value_zero (x : Placed α) : lt x.value zero = lt x zero := rfl
@[simp] theorem lt_zero_value (x : Placed α) : lt zero x.value = lt zero x := rfl

end Placed

theorem BinaryOp.apply_value [Arithmetic α] (op : BinaryOp) (x y : Placed α) :
    op.apply x.value y.value = (op.apply x y).map Placed.value := by
  cases op with
  | div => cases h : isZero y <;> simp [BinaryOp.apply, h, Except.map]
  | pow =>
      have hfault : powFault x.value y.value = powFault x y := rfl
      rw [BinaryOp.apply, BinaryOp.apply, hfault]
      split <;> rfl
  | mod =>
      have hfault : remFault x.value y.value = remFault x y := rfl
      rw [BinaryOp.apply, BinaryOp.apply, hfault, Placed.isZero_value]
      split
      · rfl
      · split <;> rfl
  | _ => rfl

namespace Expr

/-- The tree without the marks on its constants. -/
abbrev bare (e : Expr (Placed α)) : Expr α := e.map Placed.value

@[simp] theorem bare_apply (op : UnaryOp) (e : Expr (Placed α)) :
    (apply op e).bare = apply op e.bare := by
  induction e with
  | unary op' e ih => cases op <;> cases op' <;> first | rfl | exact ih
  | _ => cases op <;> rfl

@[simp] theorem bare_negate (e : Expr (Placed α)) : (negate e).bare = negate e.bare :=
  bare_apply .neg e

@[simp] theorem isConst_bare (e : Expr (Placed α)) : e.bare.isConst = e.isConst := by
  cases e <;> rfl

@[simp] theorem signedVariable_bare (e : Expr (Placed α)) :
    signedVariable? e.bare = signedVariable? e := by
  cases e with
  | unary op e => cases op <;> cases e <;> rfl
  | _ => rfl

@[simp] theorem sameVariable_bare (a b : Expr (Placed α)) :
    sameVariable? a.bare b.bare = sameVariable? a b := by
  simp only [sameVariable?, signedVariable_bare]

theorem signed_bare (s : Sign) (e : Expr (Placed α)) : signed s e.bare = (signed s e).bare := by
  cases s <;> simp [signed]

theorem join_bare (first : Expr (Placed α)) (rest : List (Sign × Expr (Placed α))) :
    join first.bare (rest.map fun (s, e) => (s, e.bare)) = (join first rest).bare := by
  simp only [join, List.foldl_map]
  induction rest generalizing first with
  | nil => rfl
  | cons p rest ih => exact ih (binary (if p.1 = .minus then .sub else .add) first p.2)

variable [Arithmetic α]

@[simp] theorem bare_number (v : Placed α) : (number v).bare = number v.value := rfl

@[simp] theorem bare_integer (n : Int) : (integer n : Expr (Placed α)).bare = integer n := rfl

@[simp] theorem constValue_bare (e : Expr (Placed α)) :
    constValue? e.bare = (constValue? e).map Placed.value := by
  induction e with
  | unary op e ih => cases op <;> simp [constValue?, ih, Function.comp_def]
  | _ => rfl

theorem render_bare (e : Expr (Placed α)) : e.bare.render = e.render := by
  induction e with
  | const v => rfl
  | var x => rfl
  | unary op e ih => cases op <;> simp [render, ih]
  | binary op a b iha ihb => simp [render, iha, ihb]
  | nary op es ih =>
      simp only [map, render]
      generalize " " ++ op.word ++ " " = separator
      congr 2
      induction es with
      | nil => rfl
      | cons e es ihes =>
          simp only [List.forall_mem_cons] at ih
          cases es with
          | nil => exact ih.1
          | cons e' es => simpa only [mapAll, renderAll, ih.1] using congrArg (_ ++ ·) (ihes ih.2)
  | equation r a b iha ihb => simp [render, iha, ihb]
  | polynomial x e ih => exact ih

theorem beq_bare (s t : Expr (Placed α)) : (s.bare == t.bare) = (s == t) := by
  change beq s.bare t.bare = beq s t
  induction s generalizing t with
  | const u => cases t <;> rfl
  | var x => cases t <;> rfl
  | unary op e ih => cases t <;> simp [beq, ih]
  | binary op a b iha ihb => cases t <;> simp [beq, iha, ihb]
  | nary op es ih =>
      cases t <;> simp only [map, beq]
      case nary op' es' =>
        congr 1
        induction es generalizing es' with
        | nil => cases es' <;> rfl
        | cons e es ihes =>
            cases es' with
            | nil => rfl
            | cons e' es' =>
                simp only [List.forall_mem_cons] at ih
                simp only [mapAll, beqAll, ih.1 e', ihes ih.2 es']
  | equation r a b iha ihb => cases t <;> simp [beq, iha, ihb]
  | polynomial x e ih => cases t <;> simp [beq, ih]

/-! Folding. -/

theorem foldUnary_bare (op : UnaryOp) (e : Expr (Placed α)) :
    foldUnary op e.bare = (foldUnary op e).bare := by
  cases op with
  | neg => cases h : constValue? e <;> simp [foldUnary, h]
  | abs => cases h : constValue? e <;> simp [foldUnary, h]
  | _ => simp [foldUnary]

theorem foldBinary_bare (op : BinaryOp) (a b : Expr (Placed α)) :
    foldBinary op a.bare b.bare = (foldBinary op a b).map bare := by
  simp only [foldBinary, constValue_bare]
  cases constValue? a with
  | none => cases constValue? b <;> rfl
  | some x =>
      cases constValue? b with
      | none => rfl
      | some y =>
          simp only [Option.map_some, Placed.isZero_value, BinaryOp.apply_value]
          split
          · rfl
          · cases op.apply x y with
            | ok v => rfl
            | error err => simp only [Except.map]; split <;> rfl

theorem foldConstants_bare (e : Expr (Placed α)) :
    foldConstants e.bare = (foldConstants e).map bare := by
  induction e with
  | unary op e ih =>
      simp only [map, foldConstants, ih]
      cases foldConstants e with
      | error err => rfl
      | ok e' => exact congrArg Except.ok (foldUnary_bare op e')
  | binary op a b iha ihb =>
      simp only [map, foldConstants, iha, ihb]
      cases foldConstants a with
      | error err => rfl
      | ok a' =>
          cases foldConstants b with
          | error err => rfl
          | ok b' => exact foldBinary_bare op a' b'
  | polynomial x e ih => exact ih
  | _ => rfl

/-! Re-association. -/

theorem offset_bare (e : Expr (Placed α)) (k : Placed α) :
    offset e.bare k.value = (offset e k).bare := by
  cases hzero : isZero k <;> cases hpos : lt zero k <;> simp [offset, hzero, hpos]

theorem scaled_bare (k : Placed α) (e : Expr (Placed α)) :
    scaled k.value e.bare = (scaled k e).bare := by
  cases hzero : isZero k <;> cases hone : isOne k <;> simp [scaled, hzero, hone]

theorem shared_bare (k : Placed α) (e : Expr (Placed α)) :
    shared k.value e.bare = (shared k e).bare := by
  cases hzero : isZero k <;> simp [shared, hzero]

theorem flattenable_bare (e : Expr (Placed α)) :
    flattenable? e.bare = (flattenable? e).map bare := by
  cases e with
  | unary op e =>
      cases e with
      | binary op' a b =>
          cases op <;> try rfl
          cases a <;> cases op' <;> simp [flattenable?]
      | _ => cases op <;> rfl
  | binary op a b => cases op <;> rfl
  | _ => rfl

theorem addInto_bare (minus : Bool) (a b : Expr (Placed α)) (k : Placed α) :
    addInto minus a.bare b.bare k.value = (addInto minus a b k).map bare := by
  cases a with
  | const c =>
      cases hzero : isZero (c + k) <;> cases minus <;>
        simp [addInto, ← Placed.value_add, hzero]
  | _ =>
      cases b with
      | const c => cases minus <;> simp [addInto, ← offset_bare]
      | _ => rfl

theorem subtractFrom_bare (minus : Bool) (a b : Expr (Placed α)) (k : Placed α) :
    subtractFrom minus a.bare b.bare k.value = (subtractFrom minus a b k).map bare := by
  cases a with
  | const c =>
      cases hzero : isZero (c - k) <;> cases hpos : lt zero (c - k) <;> cases minus <;>
        simp [subtractFrom, ← Placed.value_sub, hzero, hpos]
  | _ =>
      cases b with
      | const c => cases minus <;> simp [subtractFrom, ← offset_bare]
      | _ => rfl

theorem subtractSum_bare (k : Placed α) (minus : Bool) (a b : Expr (Placed α)) :
    subtractSum k.value minus a.bare b.bare = (subtractSum k minus a b).map bare := by
  cases a with
  | const c =>
      cases hzero : isZero (k - c) <;> cases minus <;>
        simp [subtractSum, ← Placed.value_sub, hzero]
  | _ =>
      cases b with
      | const c =>
          cases minus
          · cases hzero : isZero (k - c) <;> simp [subtractSum, ← Placed.value_sub, hzero]
          · cases hzero : isZero (k + c) <;> simp [subtractSum, ← Placed.value_add, hzero]
      | _ => rfl

theorem scaleProduct_bare (quotient : Bool) (a b : Expr (Placed α)) (k : Placed α) :
    scaleProduct quotient a.bare b.bare k.value =
      (scaleProduct quotient a b k).map (Option.map bare) := by
  cases a with
  | const c => cases quotient <;> simp [scaleProduct, Except.map, ← scaled_bare, ← shared_bare]
  | _ =>
      cases b with
      | const c =>
          cases hzero : isZero c <;> cases quotient <;>
            simp [scaleProduct, Except.map, ← scaled_bare, hzero]
      | _ => rfl

theorem divideProduct_bare (quotient : Bool) (a b : Expr (Placed α)) (k : Placed α) :
    divideProduct quotient a.bare b.bare k.value =
      (divideProduct quotient a b k).map (Option.map bare) := by
  cases a with
  | const c =>
      cases hzero : isZero k <;> cases quotient <;>
        simp [divideProduct, Except.map, ← scaled_bare, ← shared_bare, hzero]
  | _ =>
      cases b with
      | const c =>
          cases quotient
          · cases hzero : isZero k <;> simp [divideProduct, Except.map, ← scaled_bare, hzero]
          · cases hzero : isZero (c * k) <;> cases hone : isOne (c * k) <;>
              simp [divideProduct, Except.map, ← Placed.value_mul, hzero, hone]
      | _ => rfl

theorem divideByProduct_bare (k : Placed α) (quotient : Bool) (a b : Expr (Placed α)) :
    divideByProduct k.value quotient a.bare b.bare =
      (divideByProduct k quotient a b).map (Option.map bare) := by
  cases a with
  | const c =>
      cases hzero : isZero c <;> cases quotient <;>
        simp [divideByProduct, Except.map, ← scaled_bare, ← shared_bare, hzero]
  | _ =>
      cases b with
      | const c =>
          cases hzero : isZero c <;> cases quotient <;>
            simp [divideByProduct, Except.map, ← shared_bare, hzero]
      | _ => rfl

theorem timesConst_bare (k : Placed α) (e : Expr (Placed α)) :
    timesConst k.value e.bare = (timesConst k e).bare := by
  cases e <;> simp [timesConst]

theorem overConst_bare (k : Placed α) (e : Expr (Placed α)) :
    overConst k.value e.bare = (overConst k e).bare := by
  cases e <;> simp [overConst]

theorem distributeFactor_bare (op : BinaryOp) (a b : Expr (Placed α)) (k : Placed α) :
    distributeFactor op a.bare b.bare k.value = (distributeFactor op a b k).bare := by
  cases hzero : isZero k <;> simp [distributeFactor, timesConst_bare, hzero]

theorem distributeDivisor_bare (op : BinaryOp) (a b : Expr (Placed α)) (k : Placed α) :
    (do return some (← distributeDivisor op a.bare b.bare k.value)) =
      (do return some (← distributeDivisor op a b k) : Except Error _).map (Option.map bare) := by
  cases hzero : isZero k <;>
    simp [distributeDivisor, Except.map, Functor.map, overConst_bare, hzero]

/-! One operand of the root is a constant; of the pairs of operators some have a rule, the others
go through as they are. -/

theorem reassociate_bare_const (op : BinaryOp) (e : Expr (Placed α)) (k : Placed α) :
    reassociate op e.bare (number k.value) =
      (reassociate op e (number k)).map (Option.map bare) := by
  cases e with
  | binary op' a b =>
      cases op <;> cases op' <;> first
        | rfl
        | exact congrArg Except.ok (addInto_bare _ a b (settle k))
        | exact congrArg Except.ok (subtractFrom_bare _ a b (settle k))
        | exact scaleProduct_bare _ a b (settle k)
        | exact divideProduct_bare _ a b (settle k)
        | exact congrArg (fun e => Except.ok (some e)) (distributeFactor_bare _ a b (settle k))
        | exact distributeDivisor_bare _ a b (settle k)
  | _ => cases op <;> rfl

theorem reassociate_const_bare (op : BinaryOp) (k : Placed α) (e : Expr (Placed α)) :
    reassociate op (number k.value) e.bare =
      (reassociate op (number k) e).map (Option.map bare) := by
  cases e with
  | binary op' a b =>
      cases op <;> cases op' <;> first
        | rfl
        | exact congrArg Except.ok (addInto_bare _ a b (settle k))
        | exact congrArg Except.ok (subtractSum_bare (settle k) _ a b)
        | exact scaleProduct_bare _ a b (settle k)
        | exact divideByProduct_bare (settle k) _ a b
        | exact congrArg (fun e => Except.ok (some e)) (distributeFactor_bare _ a b (settle k))
  | _ => cases op <;> rfl

theorem addFractions_bare (op : BinaryOp) (a b : Expr (Placed α)) :
    addFractions? op a.bare b.bare = (addFractions? op a b).map bare := by
  cases op with
  | add =>
      cases a with
      | binary op' a c =>
          cases b with
          | binary op'' b d =>
              cases op' <;> cases op'' <;> try rfl
              simp only [addFractions?, map, constValue_bare, Option.isSome_map, beq_bare]
              split
              · rfl
              · split <;> rfl
          | _ => cases op' <;> rfl
      | _ => rfl
  | _ => rfl

theorem flattenRoot_bare (op : BinaryOp) (a b : Expr (Placed α)) :
    flattenRoot op a.bare b.bare = (flattenRoot op a b).map (Option.map bare) := by
  simp only [flattenRoot, constValue_bare, flattenable_bare]
  cases constValue? a with
  | none =>
      cases constValue? b with
      | none => exact congrArg Except.ok (addFractions_bare op a b)
      | some y =>
          cases flattenable? a with
          | none => rfl
          | some left => exact reassociate_bare_const op left y
  | some x =>
      cases constValue? b with
      | none =>
          cases flattenable? b with
          | none => rfl
          | some right => exact reassociate_const_bare op x right
      | some y => exact reassociate_bare_const op (number x) y

theorem flattenPeaks_bare (e : Expr (Placed α)) :
    flattenPeaks e.bare = (flattenPeaks e).map bare := by
  induction e with
  | unary op e ih =>
      simp only [map, flattenPeaks, ih]
      cases flattenPeaks e with
      | error err => rfl
      | ok e' => exact congrArg Except.ok (bare_apply op e').symm
  | binary op a b iha ihb =>
      simp only [map, flattenPeaks, flattenRoot_bare, iha, ihb]
      cases flattenRoot op a b with
      | error err => rfl
      | ok root =>
          cases root with
          | some e => rfl
          | none =>
              cases flattenPeaks a with
              | error err => rfl
              | ok a' => cases flattenPeaks b <;> rfl
  | _ => rfl

/-! Identity elimination. -/

@[simp] theorem isInt_bare (n : Int) (e : Expr (Placed α)) : isInt n e.bare = isInt n e := by
  rw [isInt, isInt, constValue_bare]
  cases constValue? e <;> rfl

theorem multiple_bare (n : Int) (x : String) :
    (multiple n x : Expr (Placed α)).bare = multiple n x := by
  simp only [multiple, apply_ite bare]
  rfl

theorem dropInSum_bare (a b : Expr (Placed α)) :
    dropInSum a.bare b.bare = (dropInSum a b).bare := by
  cases ha : isInt 0 a <;> cases hb : isInt 0 b <;> cases hx : sameVariable? a b <;>
    simp [dropInSum, multiple_bare, ha, hb, hx]

theorem dropInDifference_bare (a b : Expr (Placed α)) :
    dropInDifference a.bare b.bare = (dropInDifference a b).bare := by
  cases ha : isInt 0 a <;> cases hb : isInt 0 b <;> cases hx : sameVariable? a b <;>
    simp [dropInDifference, multiple_bare, ha, hb, hx]

theorem dropInProduct_bare (a b : Expr (Placed α)) :
    dropInProduct a.bare b.bare = (dropInProduct a b).bare := by
  simp only [dropInProduct, isInt_bare, sameVariable_bare]
  split_ifs
  · rfl
  · rfl
  · rfl
  · exact (bare_negate a).symm
  · exact (bare_negate b).symm
  · cases sameVariable? a b with
    | none => rfl
    | some p =>
        obtain ⟨x, s, t⟩ := p
        cases s <;> cases t <;> simp

theorem dropInQuotient_bare (a b : Expr (Placed α)) :
    dropInQuotient a.bare b.bare = (dropInQuotient a b).map bare := by
  simp only [dropInQuotient, isInt_bare, sameVariable_bare, signedVariable_bare, constValue_bare]
  split_ifs
  · rfl
  · rfl
  · rfl
  · exact congrArg Except.ok (bare_negate a).symm
  · cases sameVariable? a b with
    | some p => rfl
    | none =>
        cases signedVariable? a with
        | none => rfl
        | some p => cases constValue? b <;> rfl

theorem dropInPower_bare (a b : Expr (Placed α)) :
    dropInPower a.bare b.bare = (dropInPower a b).bare := by
  simp only [dropInPower, isInt_bare]
  split_ifs <;> rfl

theorem dropInRemainder_bare (a b : Expr (Placed α)) :
    dropInRemainder a.bare b.bare = (dropInRemainder a b).map bare := by
  simp only [dropInRemainder, isInt_bare, sameVariable_bare]
  split_ifs <;> rfl

theorem dropAtRoot_bare (op : BinaryOp) (a b : Expr (Placed α)) :
    dropAtRoot op a.bare b.bare = (dropAtRoot op a b).map bare := by
  cases op with
  | add => exact congrArg Except.ok (dropInSum_bare a b)
  | sub => exact congrArg Except.ok (dropInDifference_bare a b)
  | mul => exact congrArg Except.ok (dropInProduct_bare a b)
  | div => exact dropInQuotient_bare a b
  | pow => exact congrArg Except.ok (dropInPower_bare a b)
  | mod => exact dropInRemainder_bare a b

theorem dropIdentities_bare (e : Expr (Placed α)) :
    dropIdentities e.bare = (dropIdentities e).map bare := by
  induction e with
  | unary op e ih =>
      simp only [map, dropIdentities, ih]
      cases dropIdentities e with
      | error err => rfl
      | ok e' => exact congrArg Except.ok (bare_apply op e').symm
  | binary op a b iha ihb =>
      simp only [map, dropIdentities, iha, ihb]
      cases dropIdentities a with
      | error err => rfl
      | ok a' =>
          cases dropIdentities b with
          | error err => rfl
          | ok b' => exact dropAtRoot_bare op a' b'
  | _ => rfl

/-! Collection. -/

theorem splitFrom_bare (c : Placed α) (e : Expr (Placed α)) :
    splitFrom c.value e.bare = ((splitFrom c e).1.value, (splitFrom c e).2.bare) := by
  induction e generalizing c with
  | unary op e ih =>
      cases op with
      | neg => exact ih (-c)
      | _ => rfl
  | binary op a b iha ihb =>
      cases op with
      | mul =>
          simp only [map, splitFrom, constValue_bare]
          cases constValue? a with
          | some x => exact ihb (c * x)
          | none =>
              cases constValue? b with
              | some y => exact iha (c * y)
              | none => rfl
      | div =>
          simp only [map, splitFrom, constValue_bare]
          cases constValue? b with
          | none => rfl
          | some y =>
              cases hzero : isZero y with
              | true => simp [hzero]
              | false => simpa [hzero] using iha (c / y)
      | _ => rfl
  | _ => rfl

theorem split_bare (e : Expr (Placed α)) :
    split e.bare = ((split e).1.value, (split e).2.bare) :=
  splitFrom_bare one e

namespace Tally

/-- The sums without the marks on their numbers. -/
def bare (t : Tally (Placed α)) : Tally α where
  linear := t.linear.map fun (x, c) => (x, c.value)
  powers := t.powers.map fun (key, c, e) => (key, c.value, e.bare)
  constant := t.constant.value
  others := t.others.map fun (body, c) => (body.bare, c.value)

theorem addLinear_bare (x : String) (c : Placed α) (l : List (String × Placed α)) :
    addLinear x c.value (l.map fun (x, c) => (x, c.value)) =
      (addLinear x c l).map fun (x, c) => (x, c.value) := by
  induction l with
  | nil => rfl
  | cons p l ih =>
      simp only [List.map_cons, addLinear, ih]
      split_ifs <;> rfl

theorem addPower_bare (key : String × String) (c : Placed α) (e : Expr (Placed α))
    (l : List ((String × String) × Placed α × Expr (Placed α))) :
    addPower key c.value e.bare (l.map fun (key, c, e) => (key, c.value, e.bare)) =
      (addPower key c e l).map fun (key, c, e) => (key, c.value, e.bare) := by
  induction l with
  | nil => rfl
  | cons p l ih =>
      simp only [List.map_cons, addPower, ih]
      split_ifs <;> rfl

theorem addOther_bare (body : Expr (Placed α)) (c : Placed α)
    (l : List (Expr (Placed α) × Placed α)) :
    addOther body.bare c.value (l.map fun (body, c) => (body.bare, c.value)) =
      (addOther body c l).map fun (body, c) => (body.bare, c.value) := by
  induction l with
  | nil => rfl
  | cons p l ih =>
      simp only [List.map_cons, addOther, ih, beq_bare]
      split_ifs <;> rfl

theorem add_bare (t : Tally (Placed α)) (c : Placed α) (body : Expr (Placed α)) :
    t.bare.add c.value body.bare = (t.add c body).bare := by
  simp only [add, constValue_bare]
  cases constValue? body with
  | some v => rfl
  | none =>
      have hother : { t.bare with others := addOther body.bare c.value t.bare.others } =
          bare { t with others := addOther body c t.others } := by
        simp only [bare, addOther_bare]
      cases body with
      | var x => simp only [bare, Option.map_none, Expr.map, addLinear_bare]
      | binary op a e =>
          cases op with
          | pow =>
              cases a with
              | var x =>
                  simp only [bare, Option.map_none, Expr.map, render_bare, addPower_bare]
              | _ => exact hother
          | _ => exact hother
      | _ => exact hother

theorem ofTerms_bare (terms : List (Expr (Placed α))) :
    ofTerms (terms.map Expr.bare) = (ofTerms terms).bare := by
  simp only [ofTerms, List.foldl_map, split_bare]
  change terms.foldl _ (bare (empty : Tally (Placed α))) = _
  generalize (empty : Tally (Placed α)) = t
  induction terms generalizing t with
  | nil => rfl
  | cons e terms ih => simp only [List.foldl_cons, add_bare, ih]

end Tally

theorem item_bare (c : Placed α) (body : Expr (Placed α)) :
    item c.value body.bare = (item c body).map fun (s, e) => (s, e.bare) := by
  have hone : isOne (Arithmetic.abs c.value) = isOne (Arithmetic.abs c) := rfl
  cases hzero : isZero c <;> cases hsize : isOne (Arithmetic.abs c) <;>
    cases hneg : lt c zero <;> simp [item, hone, hzero, hsize, hneg]

theorem items_bare (t : Tally (Placed α)) :
    t.bare.items = t.items.map fun (s, e) => (s, e.bare) := by
  have hitems {ι : Type} (l : List ι) (c : ι → Placed α) (body : ι → Expr (Placed α)) :
      (l.flatMap fun i => item (c i).value (body i).bare) =
        (l.flatMap fun i => item (c i) (body i)).map fun (s, e) => (s, e.bare) := by
    simp only [List.map_flatMap, item_bare]
  have hconstant : (if isZero t.constant.value then ([] : List (Sign × Expr α))
      else [(if lt t.constant.value zero then .minus else .plus,
        number (Arithmetic.abs t.constant.value))]) =
      (if isZero t.constant then []
      else [(if lt t.constant zero then .minus else .plus,
        number (Arithmetic.abs t.constant))]).map fun (s, e) => (s, e.bare) := by
    cases hzero : isZero t.constant <;> cases hneg : lt t.constant zero <;> simp [hzero, hneg]
  simp only [Tally.items, Tally.bare, List.map_append, List.flatMap_map]
  congr 1
  · congr 1
    · congr 1
      · exact hitems t.linear (fun p => p.2) fun p => var p.1
      · exact hitems t.powers (fun p => p.2.1) fun p => binary .pow (var p.1.1) p.2.2
  · exact hitems t.others (fun p => p.2) fun p => p.1

theorem leading_bare (s : Sign) (e : Expr (Placed α)) :
    leading s e.bare = (leading s e).bare := by
  cases s with
  | plus => rfl
  | minus => cases e <;> first | rfl | exact (bare_negate _).symm

theorem combine_bare (terms : List (Expr (Placed α))) :
    combine (terms.map bare) = (combine terms).bare := by
  simp only [combine, Tally.ofTerms_bare, items_bare]
  cases (Tally.ofTerms terms).items with
  | nil => rfl
  | cons p rest => simp only [List.map_cons, leading_bare, join_bare]

theorem collect_and_terms_bare (e : Expr (Placed α)) :
    collect e.bare = (collect e).bare ∧
      ∀ s, collectTerms s e.bare = (collectTerms s e).map bare := by
  induction e with
  | unary op e ih => simp [collect, collectTerms, ih, ← signed_bare]
  | binary op a b iha ihb =>
      cases op with
      | add =>
          simp [collect, collectTerms, iha.2, ihb.2, ← List.map_append, combine_bare]
      | sub =>
          simp [collect, collectTerms, iha.2, ihb.2, ← List.map_append, combine_bare]
      | _ => simp [collect, collectTerms, iha.1, ihb.1, ← signed_bare]
  | _ => simp [collect, collectTerms, ← signed_bare]

/-! Sweeps. -/

/-- How a sweep ends, without the marks. -/
def Sweep.bare : Sweep (Placed α) → Sweep α
  | .constant e => .constant e.bare
  | .swept e => .swept e.bare

/-- The marks play no part in a sweep. -/
theorem sweep_bare (e : Expr (Placed α)) : sweep e.bare = (sweep e).map Sweep.bare := by
  simp only [sweep, foldConstants_bare]
  cases foldConstants e with
  | error err => rfl
  | ok folded =>
      simp only [Except.map, bind, Except.bind, isConst_bare, flattenPeaks_bare]
      cases folded.isConst with
      | true => rfl
      | false =>
          cases flattenPeaks folded with
          | error err => rfl
          | ok flat =>
              simp only [Except.map, isConst_bare, dropIdentities_bare]
              cases flat.isConst with
              | true => rfl
              | false =>
                  cases dropIdentities flat with
                  | error err => rfl
                  | ok plain =>
                      exact congrArg (fun e => Except.ok (Sweep.swept e))
                        (collect_and_terms_bare plain).1

end Expr

end EquationEngine
