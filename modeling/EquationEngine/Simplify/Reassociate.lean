import EquationEngine.Expr.Basic

/-!
Local re-association: a constant next to a sum, difference, product or quotient with another
constant is joined with it, a factor or divisor is distributed over a sum, and two fractions are
added.

The rules look at one operator and its operands. They are tried from the root downwards, and below
a rule that applied the tree is left alone.
-/

namespace EquationEngine.Expr

open Arithmetic

variable {α : Type} [Arithmetic α]

/-- The sum of a tree and a number, written with a positive constant. -/
def offset (e : Expr α) (amount : α) : Expr α :=
  if isZero amount then e
  else if lt zero amount then binary .add e (number amount)
  else binary .sub e (number (-amount))

/-- A product of a constant and a tree, without a factor of one and without the tree if zero. -/
def scaled (factor : α) (e : Expr α) : Expr α :=
  if isZero factor then integer 0 else if isOne factor then e else binary .mul (number factor) e

/-- A constant divided by a tree, without the tree if the constant is zero. -/
def shared (dividend : α) (e : Expr α) : Expr α :=
  if isZero dividend then integer 0 else binary .div (number dividend) e

/-- The form of a tree that the rules below look into: a sum, difference, product or quotient,
where the negation of one is moved onto its left operand. -/
def flattenable? : Expr α → Option (Expr α)
  | unary .neg (binary op a b) =>
    let head := match a with
      | const v => number (-v)
      | _ => negate a
    match op with
    | .add => some (binary .sub head b)
    | .sub => some (binary .add head b)
    | .mul => some (binary .mul head b)
    | .div => some (binary .div head b)
    | _ => none
  | binary op a b =>
    match op with
    | .add | .sub | .mul | .div => some (binary op a b)
    | _ => none
  | _ => none

/-- A sum (`minus` unset) or difference of two operands, plus a constant. -/
def addInto (minus : Bool) (a b : Expr α) (k : α) : Option (Expr α) :=
  match a, b with
  | const c, b =>
    let value := c + k
    if isZero value then some (if minus then negate b else b)
    else some (binary (if minus then .sub else .add) (number value) b)
  | a, const c => some (offset a (if minus then k - c else c + k))
  | _, _ => none

/-- A sum or difference of two operands, minus a constant. -/
def subtractFrom (minus : Bool) (a b : Expr α) (k : α) : Option (Expr α) :=
  match a, b with
  | const c, b =>
    let value := c - k
    let rest := if minus then negate b else b
    if isZero value then some rest
    else if lt zero value then some (binary .add (number value) rest)
    else some (binary .sub rest (number (-value)))
  | a, const c => some (offset a (if minus then -c - k else c - k))
  | _, _ => none

/-- A constant minus a sum or difference of two operands. -/
def subtractSum (k : α) (minus : Bool) (a b : Expr α) : Option (Expr α) :=
  match a, b with
  | const c, b =>
    let value := k - c
    if isZero value then some (if minus then b else negate b)
    else some (binary (if minus then .add else .sub) (number value) b)
  | a, const c =>
    let value := if minus then k + c else k - c
    if isZero value then some (negate a) else some (binary .sub (number value) a)
  | _, _ => none

/-- A product or quotient (`quotient` set) of two operands, times a constant. -/
def scaleProduct (quotient : Bool) (a b : Expr α) (k : α) : Except Error (Option (Expr α)) :=
  match a, b with
  | const c, b => .ok (some (if quotient then shared (c * k) b else scaled (c * k) b))
  | a, const c =>
    if quotient then
      if isZero c then .error .divisionByZero else .ok (some (scaled (k / c) a))
    else .ok (some (scaled (c * k) a))
  | _, _ => .ok none

/-- A product or quotient of two operands, divided by a constant. -/
def divideProduct (quotient : Bool) (a b : Expr α) (k : α) : Except Error (Option (Expr α)) :=
  match a, b with
  | const c, b =>
    if isZero k then .error .divisionByZero
    else .ok (some (if quotient then shared (c / k) b else scaled (c / k) b))
  | a, const c =>
    if quotient then
      let value := c * k
      if isZero value then .error .divisionByZero
      else if isOne value then .ok (some a)
      else .ok (some (binary .div a (number value)))
    else if isZero k then .error .divisionByZero
    else .ok (some (scaled (c / k) a))
  | _, _ => .ok none

/-- A constant divided by a product or quotient of two operands. -/
def divideByProduct (k : α) (quotient : Bool) (a b : Expr α) : Except Error (Option (Expr α)) :=
  match a, b with
  | const c, b =>
    if isZero c then .error .divisionByZero
    else .ok (some (if quotient then scaled (k / c) b else shared (k / c) b))
  | a, const c =>
    if isZero c then .error .divisionByZero
    else .ok (some (shared (if quotient then k * c else k / c) a))
  | _, _ => .ok none

/-- A term times a constant. -/
def timesConst (k : α) : Expr α → Expr α
  | const v => number (v * k)
  | e => binary .mul (number k) e

/-- A term divided by a constant. -/
def overConst (k : α) : Expr α → Expr α
  | const v => number (v / k)
  | e => binary .div e (number k)

/-- A constant factor drawn into a sum or difference. -/
def distributeFactor (op : BinaryOp) (a b : Expr α) (k : α) : Expr α :=
  if isZero k then integer 0 else binary op (timesConst k a) (timesConst k b)

/-- A constant divisor drawn into a sum or difference. -/
def distributeDivisor (op : BinaryOp) (a b : Expr α) (k : α) : Except Error (Expr α) :=
  if isZero k then .error .divisionByZero else .ok (binary op (overConst k a) (overConst k b))

/-- The rule that applies to an operator over two operands of which one is a constant, if any. -/
def reassociate (op : BinaryOp) (left right : Expr α) : Except Error (Option (Expr α)) :=
  match op, left, right with
  | .add, binary .add a b, const k => .ok (addInto false a b k)
  | .add, binary .sub a b, const k => .ok (addInto true a b k)
  | .add, const k, binary .add a b => .ok (addInto false a b k)
  | .add, const k, binary .sub a b => .ok (addInto true a b k)
  | .sub, binary .add a b, const k => .ok (subtractFrom false a b k)
  | .sub, binary .sub a b, const k => .ok (subtractFrom true a b k)
  | .sub, const k, binary .add a b => .ok (subtractSum k false a b)
  | .sub, const k, binary .sub a b => .ok (subtractSum k true a b)
  | .mul, binary .mul a b, const k => scaleProduct false a b k
  | .mul, binary .div a b, const k => scaleProduct true a b k
  | .mul, const k, binary .mul a b => scaleProduct false a b k
  | .mul, const k, binary .div a b => scaleProduct true a b k
  | .mul, binary .add a b, const k => .ok (some (distributeFactor .add a b k))
  | .mul, binary .sub a b, const k => .ok (some (distributeFactor .sub a b k))
  | .mul, const k, binary .add a b => .ok (some (distributeFactor .add a b k))
  | .mul, const k, binary .sub a b => .ok (some (distributeFactor .sub a b k))
  | .div, binary .mul a b, const k => divideProduct false a b k
  | .div, binary .div a b, const k => divideProduct true a b k
  | .div, const k, binary .mul a b => divideByProduct k false a b
  | .div, const k, binary .div a b => divideByProduct k true a b
  | .div, binary .add a b, const k => do return some (← distributeDivisor .add a b k)
  | .div, binary .sub a b, const k => do return some (← distributeDivisor .sub a b k)
  | _, _, _ => .ok none

/-- The sum of two fractions as one fraction, unless both denominators are constants. -/
def addFractions? : BinaryOp → Expr α → Expr α → Option (Expr α)
  | .add, binary .div a b, binary .div c d =>
    if (constValue? b).isSome && (constValue? d).isSome then none
    else if b == d then some (binary .div (binary .add a c) b)
    else some (binary .div (binary .add (binary .mul a d) (binary .mul c b)) (binary .mul b d))
  | _, _, _ => none

/-- The new form of an operator over two operands, if a rule applies to it. -/
def flattenRoot (op : BinaryOp) (a b : Expr α) : Except Error (Option (Expr α)) :=
  match constValue? a, constValue? b with
  | none, none => .ok (addFractions? op a b)
  | some x, some y => reassociate op (number x) (number y)
  | some x, none =>
    match flattenable? b with
    | some right => reassociate op (number x) right
    | none => .ok none
  | none, some y =>
    match flattenable? a with
    | some left => reassociate op left (number y)
    | none => .ok none

/-- The tree after one round of re-association from the root downwards. -/
def flattenPeaks : Expr α → Except Error (Expr α)
  | unary op e => do return apply op (← flattenPeaks e)
  | binary op a b => do
    match ← flattenRoot op a b with
    | some e => return e
    | none =>
      let a' ← flattenPeaks a
      let b' ← flattenPeaks b
      return binary op a' b'
  | e => .ok e

end EquationEngine.Expr
