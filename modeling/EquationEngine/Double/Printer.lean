import EquationEngine.Double.Shortest

/-!
The text of a double.

The digits are the shortest that read back. A value whose leading digit stands for `10 ^ (-4)` up
to `10 ^ 15` is written out with a point, every other value with an exponent of at least two
digits and a sign. Inside expressions an integral value below `10 ^ 16` is written without a
point.
-/

namespace EquationEngine.Double

/-- The digits of a number in base ten, without zeros at the end. -/
def trimmed (n : Nat) : List Char :=
  ((Nat.toDigits 10 n).reverse.dropWhile (· == '0')).reverse

/-- Several zeros. -/
def zeros (n : Nat) : List Char := List.replicate n '0'

/-- Digits whose first stands for `10 ^ (point - 1)`, written out. -/
def positional (digits : List Char) (point : Int) : List Char :=
  if point ≤ 0 then '0' :: '.' :: (zeros (-point).toNat ++ digits)
  else
    let whole := digits.take point.toNat
    let fraction := digits.drop point.toNat
    whole ++ zeros (point.toNat - whole.length) ++ '.' ::
      (if fraction.isEmpty then ['0'] else fraction)

/-- An exponent with its sign and at least two digits. -/
def exponentMark (e : Int) : List Char :=
  let digits := Nat.toDigits 10 e.natAbs
  'e' :: (if e < 0 then '-' else '+') :: (zeros (2 - digits.length) ++ digits)

/-- Digits whose first stands for `10 ^ (point - 1)`, written with an exponent. -/
def scientific (digits : List Char) (point : Int) : List Char :=
  match digits with
  | [] => []
  | d :: [] => d :: exponentMark (point - 1)
  | d :: rest => d :: '.' :: (rest ++ exponentMark (point - 1))

/-- The text of a finite double. -/
def Binary.fullText (b : Binary) : List Char :=
  let sign := if b.negative then ['-'] else []
  if b.mantissa = 0 then sign ++ ['0', '.', '0']
  else
    let decimal := b.shortest
    let point := decimal.exponent + (Nat.toDigits 10 decimal.digits).length
    let digits := trimmed decimal.digits
    sign ++
      if -4 < point && point ≤ 16 then positional digits point else scientific digits point

/-- The text of a double on its own. -/
def fullText (x : Float) : String :=
  match toBinary? x with
  | some b => String.ofList b.fullText
  | none => if x.isNaN then "nan" else if isNegative x then "-inf" else "inf"

/-- The text of a double inside an expression. -/
def text (x : Float) : String :=
  match toInt? x with
  | some n => if n.natAbs < pow10 16 then toString n else fullText x
  | none => fullText x

end EquationEngine.Double
