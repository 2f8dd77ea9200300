import EquationEngine.Simplify.Collect
import EquationEngine.Simplify.Reassociate
import EquationEngine.Proofs.Run

/-!
What re-association can do.

The rules are tried at an operator over two operands of which one is a constant. Most of them treat
a sum and a difference, or a product and a quotient, alike, and some have a mirror image. Which
rule applies is said once, by the shape of the operands; what a rule keeps of its operands is then
shown rule by rule.
-/

namespace EquationEngine.Expr

open Arithmetic

variable {α : Type} [Arithmetic α]

/-- The two kinds of trees that re-association looks into. -/
theorem flattenable?_cases {e r : Expr α} (h : flattenable? e = some r) :
    (∃ op a b, e = unary .neg (binary op a b) ∧
      (op = .add ∧ r = binary .sub (leading .minus a) b ∨
        op = .sub ∧ r = binary .add (leading .minus a) b ∨
        op = .mul ∧ r = binary .mul (leading .minus a) b ∨
        op = .div ∧ r = binary .div (leading .minus a) b)) ∨
    ∃ op a b, e = binary op a b ∧ r = e := by
  unfold flattenable? at h
  split at h
  · rename_i op a b
    refine .inl ⟨op, a, b, rfl, ?_⟩
    cases a <;> cases op <;> simp_all [leading]
  · rename_i op a b
    refine .inr ⟨op, a, b, rfl, ?_⟩
    cases op <;> simp_all
  · cases h

/-- The operator that a rule for sums and differences looks at. -/
abbrev sumOp (minus : Bool) : BinaryOp := if minus then .sub else .add

theorem sumOp_ne_pow (minus : Bool) : sumOp minus ≠ .pow := by cases minus <;> decide

theorem sumOp_undivided (minus : Bool) : sumOp minus ≠ .div ∧ sumOp minus ≠ .mod := by
  cases minus <;> decide

/-- The operator that a rule for products and quotients looks at. -/
abbrev productOp (quotient : Bool) : BinaryOp := if quotient then .div else .mul

/-- `Reassociation op left right o`: at `op` over `left` and `right`, a rule applies with the
outcome `o`, or no rule applies and `o` says so. -/
inductive Reassociation :
    BinaryOp → Expr α → Expr α → Except Error (Option (Expr α)) → Prop
  | addInto (minus : Bool) (a b : Expr α) (k : α) :
      Reassociation .add (binary (sumOp minus) a b) (const k) (.ok (addInto minus a b k))
  | addIntoRight (minus : Bool) (a b : Expr α) (k : α) :
      Reassociation .add (const k) (binary (sumOp minus) a b) (.ok (addInto minus a b k))
  | subtractFrom (minus : Bool) (a b : Expr α) (k : α) :
      Reassociation .sub (binary (sumOp minus) a b) (const k) (.ok (subtractFrom minus a b k))
  | subtractSum (minus : Bool) (a b : Expr α) (k : α) :
      Reassociation .sub (const k) (binary (sumOp minus) a b) (.ok (subtractSum k minus a b))
  | scaleProduct (quotient : Bool) (a b : Expr α) (k : α) :
      Reassociation .mul (binary (productOp quotient) a b) (const k) (scaleProduct quotient a b k)
  | scaleProductRight (quotient : Bool) (a b : Expr α) (k : α) :
      Reassociation .mul (const k) (binary (productOp quotient) a b) (scaleProduct quotient a b k)
  | distributeFactor (minus : Bool) (a b : Expr α) (k : α) :
      Reassociation .mul (binary (sumOp minus) a b) (const k)
        (.ok (some (distributeFactor (sumOp minus) a b k)))
  | distributeFactorRight (minus : Bool) (a b : Expr α) (k : α) :
      Reassociation .mul (const k) (binary (sumOp minus) a b)
        (.ok (some (distributeFactor (sumOp minus) a b k)))
  | divideProduct (quotient : Bool) (a b : Expr α) (k : α) :
      Reassociation .div (binary (productOp quotient) a b) (const k)
        (divideProduct quotient a b k)
  | divideByProduct (quotient : Bool) (a b : Expr α) (k : α) :
      Reassociation .div (const k) (binary (productOp quotient) a b)
        (divideByProduct k quotient a b)
  | distributeDivisor (minus : Bool) (a b : Expr α) (k : α) :
      Reassociation .div (binary (sumOp minus) a b) (const k)
        (do return some (← distributeDivisor (sumOp minus) a b k))
  | none (op : BinaryOp) (left right : Expr α) : Reassociation op left right (.ok none)

theorem reassociation (op : BinaryOp) (left right : Expr α) :
    Reassociation op left right (reassociate op left right) := by
  unfold reassociate
  split
  · exact .addInto false ..
  · exact .addInto true ..
  · exact .addIntoRight false ..
  · exact .addIntoRight true ..
  · exact .subtractFrom false ..
  · exact .subtractFrom true ..
  · exact .subtractSum false ..
  · exact .subtractSum true ..
  · exact .scaleProduct false ..
  · exact .scaleProduct true ..
  · exact .scaleProductRight false ..
  · exact .scaleProductRight true ..
  · exact .distributeFactor false ..
  · exact .distributeFactor true ..
  · exact .distributeFactorRight false ..
  · exact .distributeFactorRight true ..
  · exact .divideProduct false ..
  · exact .divideProduct true ..
  · exact .divideByProduct false ..
  · exact .divideByProduct true ..
  · exact .distributeDivisor false ..
  · exact .distributeDivisor true ..
  · exact .none ..

/-- What re-association can do at an operator: apply a rule there, or go on in the operands. -/
theorem flattenPeaks_cases {op : BinaryOp} {a b r : Expr α}
    (h : flattenPeaks (binary op a b) = .ok r) :
    flattenRoot op a b = .ok (some r) ∨
      ∃ a' b', flattenPeaks a = .ok a' ∧ flattenPeaks b = .ok b' ∧ r = binary op a' b' := by
  obtain ⟨o, ho, h⟩ := bind_eq_ok.1 h
  cases o with
  | some e =>
      cases h
      exact .inl ho
  | none =>
      obtain ⟨a', ha, h⟩ := bind_eq_ok.1 h
      obtain ⟨b', hb, h⟩ := bind_eq_ok.1 h
      cases h
      exact .inr ⟨a', b', ha, hb, rfl⟩

end EquationEngine.Expr
