import Mathlib.Tactic.SplitIfs
import EquationEngine.Simplify.Loop
import EquationEngine.Proofs.Expr.Basic
import EquationEngine.Proofs.Simplify.Reassociation

/-!
Classes of trees that simplification does not leave.

The four passes build their results from subtrees of what they are given: with stored constants,
with negations, sums, differences and products, with operators that were there before, and with
the square of a variable. Negations and other operators over one operand are always applied in such
a way that they collapse with what is below them. A class closed under these constructions is
`Stable`, and every pass keeps it; so does simplification as a whole. The rules that build no
quotient need less of a class: it only has to be a `Base`.

Most classes are closed under bare operators as well, and then they are `Shape`s. Polynomial marks
are the one thing that is removed on the way, so a shape need only hold of the tree without its
marks.
-/

namespace EquationEngine.Expr

open Arithmetic

variable {α : Type} [Arithmetic α]

omit [Arithmetic α] in
/-- What holds of an operand and is kept by a bare negation is kept by one that may collapse. -/
theorem negate_of_neg {P : Expr α → Prop} (hneg : ∀ {e}, P e → P (unary .neg e))
    (hoperand : ∀ {op e}, P (unary op e) → P e) {e : Expr α} (h : P e) : P (negate e) := by
  unfold negate apply
  split
  · exact hoperand h
  · contradiction
  · exact hneg h

omit [Arithmetic α] in
/-- Where any tree of a class may stand below an operator, it may also collapse with it. -/
theorem apply_of_under {P : Expr α → Prop}
    (hunder : ∀ {op e e'}, P (unary op e) → P e' → P (unary op e'))
    (hoperand : ∀ {op e}, P (unary op e) → P e) {op : UnaryOp} {e e' : Expr α}
    (h : P (unary op e)) (h' : P e') : P (apply op e') := by
  fun_induction apply op e' with
  | case1 e' => exact hoperand h'
  | case2 e' ih => exact ih h (hoperand h')
  | case3 op e' => exact hunder h h'

/-- A class of trees closed under taking operands, and under the constructions from which most rules
build their results. -/
structure Base (P : Expr α → Prop) : Prop where
  number (v : α) : P (number v)
  negate {e : Expr α} : P e → P (negate e)
  add {a b : Expr α} : P a → P b → P (binary .add a b)
  sub {a b : Expr α} : P a → P b → P (binary .sub a b)
  mul {a b : Expr α} : P a → P b → P (binary .mul a b)
  square {x : String} : P (var x) → P (binary .pow (var x) (integer 2))
  operand {op : UnaryOp} {e : Expr α} : P (unary op e) → P e
  left {op : BinaryOp} {a b : Expr α} : P (binary op a b) → P a
  right {op : BinaryOp} {a b : Expr α} : P (binary op a b) → P b

/-- A class of trees closed under the constructions of the passes. -/
structure Stable (P : Expr α → Prop) : Prop extends Base P where
  /-- An operator that is applied anew may collapse with its operand. -/
  apply {op : UnaryOp} {e e' : Expr α} : P (unary op e) → P e' → P (apply op e')
  again {op : BinaryOp} {a b a' b' : Expr α} :
    op ≠ .pow → P (binary op a b) → P a' → P b' → P (binary op a' b')
  /-- Powers are free in their operands, or have a bare variable and a constant. -/
  power {a b : Expr α} : P (binary .pow a b) →
    (∀ a' b', P a' → P b' → P (binary .pow a' b')) ∨ ∃ x c, a = var x ∧ b = const c
  part {op : NaryOp} {es : List (Expr α)} {e : Expr α} : P (nary op es) → e ∈ es → P e
  side {r : Relation} {a b : Expr α} : P (equation r a b) → P a ∧ P b
  relate {r : Relation} {a b a' b' : Expr α} :
    P (equation r a b) → P a' → P b' → P (equation r a' b')
  body {x : String} {e : Expr α} : P (polynomial x e) → P e

/-- A stable class that does not look below operators over one operand. -/
structure Shape (P : Expr α → Prop) : Prop extends Stable P where
  neg {e : Expr α} : P e → P (unary .neg e)
  /-- In place of the operand of an operator, any other tree of the class may stand. -/
  under {op : UnaryOp} {e e' : Expr α} : P (unary op e) → P e' → P (unary op e')
  negate h := negate_of_neg (fun h => neg h) (fun h => operand h) h
  apply h h' := apply_of_under (fun h h' => under h h') (fun h => operand h) h h'

/-- The trees whose constants have a property of all stored constants form a class that the passes
keep. -/
theorem shape_everyConst {p : α → Prop} (hp : ∀ v, p (settle v)) :
    Shape (EveryConst p) where
  number v := hp v
  neg h := h
  add ha hb := ⟨ha, hb⟩
  sub ha hb := ⟨ha, hb⟩
  mul ha hb := ⟨ha, hb⟩
  square _ := ⟨trivial, hp _⟩
  operand h := h
  under _ h := h
  left h := h.1
  right h := h.2
  again _ _ ha hb := ⟨ha, hb⟩
  power _ := .inl fun _ _ ha hb => ⟨ha, hb⟩
  part h he := everyConstIn_iff.1 h _ he
  side h := h
  relate _ ha hb := ⟨ha, hb⟩
  body h := h

/-- The tree without the polynomial marks that folding removes. -/
def unmarked : Expr α → Expr α
  | polynomial _ e => unmarked e
  | unary op e => unary op (unmarked e)
  | binary op a b => binary op (unmarked a) (unmarked b)
  | e => e

/-- Every body entered into the sums belongs to a class. -/
structure Tally.Within (P : Expr α → Prop) (t : Tally α) : Prop where
  linear : ∀ p ∈ t.linear, P (var p.1)
  powers : ∀ p ∈ t.powers, P (binary .pow (var p.1.1) p.2.2)
  others : ∀ p ∈ t.others, P p.1

/-- The tree with which a sweep ends. -/
def Sweep.result : Sweep α → Expr α
  | .constant e => e
  | .swept e => e

/-- What a sweep can do: stop at a constant after folding or after re-association, or make all
four passes. -/
theorem sweep_cases {e : Expr α} {s : Sweep α} (h : sweep e = .ok s) :
    ∃ folded, foldConstants e = .ok folded ∧
      (folded.isConst = true ∧ s = .constant folded ∨
        folded.isConst = false ∧ ∃ flat, flattenPeaks folded = .ok flat ∧
          (flat.isConst = true ∧ s = .constant flat ∨
            flat.isConst = false ∧ ∃ plain, dropIdentities flat = .ok plain ∧
              s = .swept (collect plain))) := by
  obtain ⟨folded, hfold, h⟩ := bind_eq_ok.1 h
  refine ⟨folded, hfold, ?_⟩
  split at h
  · rename_i hconst
    cases h
    exact .inl ⟨hconst, rfl⟩
  · rename_i hfolded
    obtain ⟨flat, hflat, h⟩ := bind_eq_ok.1 h
    refine .inr ⟨by simpa using hfolded, flat, hflat, ?_⟩
    split at h
    · rename_i hconst
      cases h
      exact .inl ⟨hconst, rfl⟩
    · rename_i hopen
      obtain ⟨plain, hplain, h⟩ := bind_eq_ok.1 h
      cases h
      exact .inr ⟨by simpa using hopen, plain, hplain, rfl⟩

/-- `Turn restart limit n done e r`: one turn of the loop over `e`, with `n` more to spend, goes on
as `r`. -/
inductive Turn (restart : Expr α → Run (Expr α)) (limit : Int) (n done : Nat) (e : Expr α) :
    Run (Expr α) → Prop
  | failed {err : Error} : sweep e = .error err → Turn restart limit n done e (.fail err)
  | constant {c : Expr α} : sweep e = .ok (.constant c) → Turn restart limit n done e (pure c)
  | still {next : Expr α} : sweep e = .ok (.swept next) →
      (next.isConst || unchanged e next) = true →
      Turn restart limit n done e (do Run.emit (.fixedPoint (done + 1)); return next)
  | again {next : Expr α} : sweep e = .ok (.swept next) → next.isBinary = true →
      Turn restart limit n done e (iterate restart limit n (done + 1) next)
  | collapsed {next : Expr α} : sweep e = .ok (.swept next) → next.isBinary = false →
      Turn restart limit n done e (restart next)

theorem turn (restart : Expr α → Run (Expr α)) (limit : Int) (n done : Nat) (e : Expr α) :
    Turn restart limit n done e (iterate restart limit (n + 1) done e) := by
  cases hs : sweep e with
  | error err =>
      rw [iterate, hs]
      exact .failed hs
  | ok s =>
      have hstep {f : Sweep α → Run (Expr α)} : Run.lift (sweep e) >>= f = f s := by
        rw [hs]
        exact Run.lift_andThen s f
      rw [iterate, hstep]
      cases s with
      | constant c => exact .constant hs
      | swept next =>
          dsimp only
          split_ifs with hstop hbinary
          · exact .still hs hstop
          · exact .again hs hbinary
          · exact .collapsed hs (by simpa using hbinary)

/-- Where constants equal themselves, a sweep changes nothing if it makes an equal tree. -/
theorem unchanged_eq_beq {e next : Expr α} (h : next.EveryConst fun v => (v == v) = true) :
    unchanged e next = (next == e) := by
  simp [unchanged, beq_self h]

namespace Base

variable {P : Expr α → Prop}

theorem integer (hP : Base P) (n : Int) : P (Expr.integer n) := hP.number _

/-! Re-association. -/

theorem offset (hP : Base P) {e : Expr α} (h : P e) (amount : α) : P (Expr.offset e amount) := by
  unfold Expr.offset
  split
  · exact h
  · split
    · exact hP.add h (hP.number _)
    · exact hP.sub h (hP.number _)

theorem scaled (hP : Base P) {e : Expr α} (h : P e) (factor : α) : P (Expr.scaled factor e) := by
  unfold Expr.scaled
  split
  · exact hP.integer 0
  · split
    · exact h
    · exact hP.mul (hP.number _) h

theorem leading (hP : Base P) {s : Sign} {e : Expr α} (h : P e) : P (Expr.leading s e) := by
  unfold Expr.leading
  split
  · exact h
  · exact hP.number _
  · exact hP.negate h

theorem addInto (hP : Base P) {minus : Bool} {a b r : Expr α} {k : α} (ha : P a) (hb : P b)
    (hr : Expr.addInto minus a b k = some r) : P r := by
  unfold Expr.addInto at hr
  split at hr
  · cases minus <;> simp only [Bool.false_eq_true, if_true, if_false] at hr <;>
      split at hr <;> cases hr
    · exact hb
    · exact hP.add (hP.number _) hb
    · exact hP.negate hb
    · exact hP.sub (hP.number _) hb
  · cases hr
    exact hP.offset ha _
  · cases hr

theorem subtractFrom (hP : Base P) {minus : Bool} {a b r : Expr α} {k : α} (ha : P a)
    (hb : P b) (hr : Expr.subtractFrom minus a b k = some r) : P r := by
  unfold Expr.subtractFrom at hr
  split at hr
  · have hrest : P (if minus then Expr.negate b else b) := by
      split
      · exact hP.negate hb
      · exact hb
    generalize (if minus then Expr.negate b else b) = rest at hr hrest
    dsimp only at hr
    split at hr
    · cases hr
      exact hrest
    · split at hr <;> cases hr
      · exact hP.add (hP.number _) hrest
      · exact hP.sub hrest (hP.number _)
  · cases hr
    exact hP.offset ha _
  · cases hr

theorem subtractSum (hP : Base P) {minus : Bool} {a b r : Expr α} {k : α} (ha : P a)
    (hb : P b) (hr : Expr.subtractSum k minus a b = some r) : P r := by
  unfold Expr.subtractSum at hr
  split at hr
  · cases minus <;> simp only [Bool.false_eq_true, if_true, if_false] at hr <;>
      split at hr <;> cases hr
    · exact hP.negate hb
    · exact hP.sub (hP.number _) hb
    · exact hb
    · exact hP.add (hP.number _) hb
  · dsimp only at hr
    generalize (if minus then k + _ else k - _) = value at hr
    split at hr <;> cases hr
    · exact hP.negate ha
    · exact hP.sub (hP.number _) ha
  · cases hr

theorem timesConst (hP : Base P) {e : Expr α} (h : P e) (k : α) : P (Expr.timesConst k e) := by
  unfold Expr.timesConst
  split
  · exact hP.number _
  · exact hP.mul (hP.number _) h

/-! Identity elimination. -/

theorem signedVariable (hP : Base P) {e : Expr α} {x : String} {s : Sign} (h : P e)
    (hx : signedVariable? e = some (x, s)) : P (var x) := by
  unfold signedVariable? at hx
  split at hx <;> cases hx
  · exact h
  · exact hP.operand h

theorem sameVariable (hP : Base P) {a b : Expr α} {x : String} {s t : Sign} (ha : P a)
    (hx : sameVariable? a b = some (x, s, t)) : P (var x) := by
  unfold sameVariable? at hx
  split at hx
  · rename_i hleft _
    split at hx <;> cases hx
    exact hP.signedVariable ha hleft
  · cases hx

theorem multiple (hP : Base P) {x : String} (h : P (var x)) (n : Int) :
    P (Expr.multiple n x) := by
  unfold Expr.multiple
  split
  · exact hP.integer 0
  · split
    · exact h
    · split
      · exact hP.negate h
      · exact hP.mul (hP.integer n) h

theorem dropInSum (hP : Base P) {a b : Expr α} (ha : P a) (hb : P b) :
    P (Expr.dropInSum a b) := by
  unfold Expr.dropInSum
  split
  · exact hb
  · split
    · exact ha
    · split
      · rename_i hx
        exact hP.multiple (hP.sameVariable ha hx) _
      · exact hP.add ha hb

theorem dropInDifference (hP : Base P) {a b : Expr α} (ha : P a) (hb : P b) :
    P (Expr.dropInDifference a b) := by
  unfold Expr.dropInDifference
  split
  · exact hP.negate hb
  · split
    · exact ha
    · split
      · rename_i hx
        exact hP.multiple (hP.sameVariable ha hx) _
      · exact hP.sub ha hb

theorem dropInProduct (hP : Base P) {a b : Expr α} (ha : P a) (hb : P b) :
    P (Expr.dropInProduct a b) := by
  unfold Expr.dropInProduct
  split_ifs
  · exact hP.integer 0
  · exact ha
  · exact hb
  · exact hP.negate ha
  · exact hP.negate hb
  · split
    · rename_i hx
      have hsquare := hP.square (hP.sameVariable ha hx)
      dsimp only
      split
      · exact hsquare
      · exact hP.negate hsquare
    · exact hP.mul ha hb

theorem dropInPower (hP : Base P) {a b : Expr α} (h : P (binary .pow a b)) :
    P (Expr.dropInPower a b) := by
  unfold Expr.dropInPower
  split_ifs
  · exact hP.integer 1
  · exact hP.left h
  · exact hP.integer 0
  · exact hP.integer 1
  · exact h

/-! Collection of like terms. -/

theorem signed (hP : Base P) {s : Sign} {e : Expr α} (h : P e) : P (Expr.signed s e) := by
  cases s
  · exact h
  · exact hP.negate h

theorem splitFrom (hP : Base P) {c : α} {e : Expr α} (h : P e) : P (Expr.splitFrom c e).2 := by
  fun_induction Expr.splitFrom c e with
  | case1 c e ih => exact ih (hP.operand h)
  | case2 c a b x hx ih => exact ih (hP.right h)
  | case3 c a b hx y hy ih => exact ih (hP.left h)
  | case4 c a b hx hy => exact h
  | case5 c a b y hy hzero => exact h
  | case6 c a b y hy hzero ih => exact ih (hP.left h)
  | case7 c a b hy => exact h
  | case8 c e => exact h

theorem addLinear {x : String} {c : α} {l : List (String × α)} (h : P (var x))
    (hl : ∀ p ∈ l, P (var p.1)) : ∀ p ∈ Tally.addLinear x c l, P (var p.1) := by
  fun_induction Tally.addLinear x c l with
  | case1 => simpa using h
  | case2 y d rest _ =>
      rw [List.forall_mem_cons]
      exact ⟨h, hl⟩
  | case3 d rest _ => simpa using hl
  | case4 y d rest _ _ ih =>
      simp only [List.forall_mem_cons] at hl ⊢
      exact ⟨hl.1, ih hl.2⟩

theorem addPower {x t : String} {c : α} {e : Expr α} {l : List ((String × String) × α × Expr α)}
    (h : P (binary .pow (var x) e)) (hl : ∀ p ∈ l, P (binary .pow (var p.1.1) p.2.2)) :
    ∀ p ∈ Tally.addPower (x, t) c e l, P (binary .pow (var p.1.1) p.2.2) := by
  generalize hkey : (x, t) = key
  fun_induction Tally.addPower key c e l with
  | case1 => simpa [← hkey] using h
  | case2 k d e' rest _ =>
      subst hkey
      simp only [List.forall_mem_cons] at hl ⊢
      exact ⟨h, hl⟩
  | case3 d e' rest _ =>
      simp only [List.forall_mem_cons] at hl ⊢
      exact hl
  | case4 k d e' rest _ _ ih =>
      simp only [List.forall_mem_cons] at hl ⊢
      exact ⟨hl.1, ih hl.2⟩

theorem addOther {c : α} {e : Expr α} {l : List (Expr α × α)} (h : P e) (hl : ∀ p ∈ l, P p.1) :
    ∀ p ∈ Tally.addOther e c l, P p.1 := by
  fun_induction Tally.addOther e c l with
  | case1 => simpa using h
  | case2 b d rest _ =>
      simp only [List.forall_mem_cons] at hl ⊢
      exact hl
  | case3 b d rest _ ih =>
      simp only [List.forall_mem_cons] at hl ⊢
      exact ⟨hl.1, ih hl.2⟩

theorem tally_add {t : Tally α} (ht : t.Within P) {c : α} {e : Expr α} (h : P e) :
    (t.add c e).Within P := by
  unfold Tally.add
  split
  · exact ⟨ht.linear, ht.powers, ht.others⟩
  · split
    · exact ⟨addLinear h ht.linear, ht.powers, ht.others⟩
    · exact ⟨ht.linear, addPower h ht.powers, ht.others⟩
    · exact ⟨ht.linear, ht.powers, addOther h ht.others⟩

theorem tally_ofTerms (hP : Base P) {terms : List (Expr α)} (h : ∀ e ∈ terms, P e) :
    (Tally.ofTerms terms).Within P := by
  have hrun : ∀ t : Tally α, t.Within P →
      (terms.foldl (fun t e => t.add (split e).1 (split e).2) t).Within P := by
    induction terms with
    | nil => exact fun t ht => ht
    | cons e terms ih =>
        intro t ht
        simp only [List.forall_mem_cons] at h
        exact ih h.2 _ (tally_add ht (hP.splitFrom h.1))
  exact hrun _ ⟨by simp [Tally.empty], by simp [Tally.empty], by simp [Tally.empty]⟩

theorem item (hP : Base P) {c : α} {e : Expr α} (h : P e) : ∀ p ∈ Expr.item c e, P p.2 := by
  unfold Expr.item
  split
  · simp
  · simp only [List.mem_singleton, forall_eq]
    split
    · exact h
    · exact hP.mul (hP.number _) h

theorem items (hP : Base P) {t : Tally α} (ht : t.Within P) : ∀ p ∈ t.items, P p.2 := by
  intro p hp
  simp only [Tally.items, List.mem_append, List.mem_flatMap] at hp
  obtain ((⟨q, hq, hp⟩ | ⟨q, hq, hp⟩) | hp) | ⟨q, hq, hp⟩ := hp
  · exact hP.item (ht.linear q hq) p hp
  · exact hP.item (ht.powers q hq) p hp
  · split at hp
    · simp at hp
    · rw [List.mem_singleton] at hp
      subst hp
      exact hP.number _
  · exact hP.item (ht.others q hq) p hp

theorem join (hP : Base P) {first : Expr α} {rest : List (Sign × Expr α)} (h : P first)
    (hrest : ∀ p ∈ rest, P p.2) : P (Expr.join first rest) := by
  induction rest generalizing first with
  | nil => exact h
  | cons p rest ih =>
      simp only [List.forall_mem_cons] at hrest
      refine ih ?_ hrest.2
      dsimp only
      split
      · exact hP.sub h hrest.1
      · exact hP.add h hrest.1

theorem combine (hP : Base P) {terms : List (Expr α)} (h : ∀ e ∈ terms, P e) :
    P (Expr.combine terms) := by
  have hitems := hP.items (hP.tally_ofTerms h)
  unfold Expr.combine
  split
  · exact hP.integer 0
  · rename_i hsplit
    rw [hsplit, List.forall_mem_cons] at hitems
    exact hP.join (hP.leading hitems.1) hitems.2

end Base

namespace Stable

variable {P : Expr α → Prop}

/-! Constant folding. -/

theorem foldUnary (hP : Stable P) {op : UnaryOp} {e e' : Expr α} (h : P (unary op e))
    (h' : P e') : P (Expr.foldUnary op e') := by
  unfold Expr.foldUnary
  split
  · split
    · exact hP.number _
    · exact hP.apply h h'
  · split
    · exact hP.number _
    · exact hP.apply h h'
  · exact hP.apply h h'

theorem foldBinary (hP : Stable P) {op : BinaryOp} {a b r : Expr α} (h : P (binary op a b))
    (hr : Expr.foldBinary op a b = .ok r) : P r := by
  unfold Expr.foldBinary at hr
  split at hr
  · split at hr
    · cases hr
      exact h
    · split at hr
      · cases hr
        exact hP.number _
      · split at hr <;> cases hr
        exact h
  · cases hr
    exact h

/-- Rebuilding a node over operands that a pass left alone where they are leaves. -/
theorem rebuild (hP : Stable P) {op : BinaryOp} {a b a' b' : Expr α} (h : P (binary op a b))
    (ha : P a') (hb : P b') (hvar : ∀ x, a = var x → a' = a) (hconst : ∀ c, b = const c → b' = b) :
    P (binary op a' b') := by
  by_cases hop : op = .pow
  · subst hop
    obtain hfree | ⟨x, c, rfl, rfl⟩ := hP.power h
    · exact hfree _ _ ha hb
    · rw [hvar x rfl, hconst c rfl]
      exact h
  · exact hP.again hop h ha hb

/-- A pass gives variables and constants back, so that nodes may be rebuilt over its results. -/
theorem rebuild_pass (hP : Stable P) (pass : Expr α → Except Error (Expr α))
    (hvar : ∀ x, pass (var x) = .ok (var x)) (hconst : ∀ c, pass (const c) = .ok (const c))
    {op : BinaryOp} {a b a' b' : Expr α} (h : P (binary op a b)) (ha : pass a = .ok a')
    (hb : pass b = .ok b') (ha' : P a') (hb' : P b') : P (binary op a' b') := by
  refine hP.rebuild h ha' hb' ?_ ?_
  · rintro x rfl
    exact Except.ok.inj (ha.symm.trans (hvar x))
  · rintro c rfl
    exact Except.ok.inj (hb.symm.trans (hconst c))

theorem foldConstants (hP : Stable P) {e r : Expr α} (h : P e)
    (hr : Expr.foldConstants e = .ok r) : P r := by
  induction e generalizing r with
  | polynomial x e ih => exact ih (hP.body h) hr
  | unary op e ih =>
      obtain ⟨e', he, hr⟩ := bind_eq_ok.1 hr
      cases hr
      exact hP.foldUnary h (ih (hP.operand h) he)
  | binary op a b iha ihb =>
      obtain ⟨a', ha, hr⟩ := bind_eq_ok.1 hr
      obtain ⟨b', hb, hr⟩ := bind_eq_ok.1 hr
      have hnode := hP.rebuild_pass Expr.foldConstants (fun _ => rfl) (fun _ => rfl) h ha hb
        (iha (hP.left h) ha) (ihb (hP.right h) hb)
      exact hP.foldBinary hnode hr
  | _ =>
      cases hr
      exact h

/-! Re-association. -/

theorem shared (hP : Stable P) {a b e : Expr α} (hdiv : P (binary .div a b)) (h : P e)
    (dividend : α) : P (Expr.shared dividend e) := by
  unfold Expr.shared
  split
  · exact hP.integer 0
  · exact hP.again (by decide) hdiv (hP.number _) h

theorem flattenable (hP : Stable P) {e r : Expr α} (h : P e) (hr : flattenable? e = some r) :
    P r := by
  obtain ⟨op, a, b, rfl, hform⟩ | ⟨op, a, b, rfl, rfl⟩ := flattenable?_cases hr
  · have hin := hP.operand h
    have hhead := hP.leading (s := .minus) (hP.left hin)
    have hb := hP.right hin
    obtain ⟨rfl, rfl⟩ | ⟨rfl, rfl⟩ | ⟨rfl, rfl⟩ | ⟨rfl, rfl⟩ := hform
    · exact hP.sub hhead hb
    · exact hP.add hhead hb
    · exact hP.mul hhead hb
    · exact hP.again (by decide) hin hhead hb
  · exact h

theorem scaleProduct (hP : Stable P) {quotient : Bool} {a b r : Expr α} {k : α}
    (hr : Expr.scaleProduct quotient a b k = .ok (some r))
    (h : P (binary (productOp quotient) a b)) : P r := by
  have ha := hP.left h
  have hb := hP.right h
  unfold Expr.scaleProduct at hr
  split at hr
  · cases quotient <;> cases hr
    · exact hP.scaled hb _
    · exact hP.shared h hb _
  · cases quotient
    · cases hr
      exact hP.scaled ha _
    · simp only [if_true] at hr
      split at hr <;> cases hr
      exact hP.scaled ha _
  · cases hr

theorem divideProduct (hP : Stable P) {quotient : Bool} {a b r : Expr α} {k : α}
    (hr : Expr.divideProduct quotient a b k = .ok (some r))
    (h : P (binary (productOp quotient) a b)) : P r := by
  have ha := hP.left h
  have hb := hP.right h
  unfold Expr.divideProduct at hr
  split at hr
  · cases quotient <;> simp only [Bool.false_eq_true, if_true, if_false] at hr <;>
      split at hr <;> cases hr
    · exact hP.scaled hb _
    · exact hP.shared h hb _
  · cases quotient
    · simp only [Bool.false_eq_true, if_false] at hr
      split at hr <;> cases hr
      exact hP.scaled ha _
    · simp only [if_true] at hr
      split at hr
      · cases hr
      · split at hr <;> cases hr
        · exact ha
        · exact hP.again (by decide) h ha (hP.number _)
  · cases hr

theorem divideByProduct (hP : Stable P) {quotient : Bool} {a b r : Expr α} {k : α} {c d : Expr α}
    (hdiv : P (binary .div c d)) (ha : P a) (hb : P b)
    (hr : Expr.divideByProduct k quotient a b = .ok (some r)) : P r := by
  unfold Expr.divideByProduct at hr
  split at hr
  · cases quotient <;> simp only [Bool.false_eq_true, if_true, if_false] at hr <;>
      split at hr <;> cases hr
    · exact hP.shared hdiv hb _
    · exact hP.scaled hb _
  · split at hr <;> cases hr
    exact hP.shared hdiv ha _
  · cases hr

theorem overConst (hP : Stable P) {a b e : Expr α} (hdiv : P (binary .div a b)) (h : P e) (k : α) :
    P (Expr.overConst k e) := by
  unfold Expr.overConst
  split
  · exact hP.number _
  · exact hP.again (by decide) hdiv h (hP.number _)

theorem distributeFactor (hP : Stable P) {op : BinaryOp} (hop : op ≠ .pow) {a b : Expr α}
    (h : P (binary op a b)) (k : α) : P (Expr.distributeFactor op a b k) := by
  unfold Expr.distributeFactor
  split
  · exact hP.integer 0
  · exact hP.again hop h (hP.timesConst (hP.left h) k) (hP.timesConst (hP.right h) k)

theorem distributeDivisor (hP : Stable P) {op : BinaryOp} (hop : op ≠ .pow) {a b c d r : Expr α}
    (hdiv : P (binary .div c d)) (h : P (binary op a b)) {k : α}
    (hr : Expr.distributeDivisor op a b k = .ok r) : P r := by
  unfold Expr.distributeDivisor at hr
  split at hr <;> cases hr
  exact hP.again hop h (hP.overConst hdiv (hP.left h) k) (hP.overConst hdiv (hP.right h) k)

theorem reassociate (hP : Stable P) {op : BinaryOp} {left right r : Expr α}
    (h : P (binary op left right)) (hr : Expr.reassociate op left right = .ok (some r)) : P r := by
  have hl := hP.left h
  have hrt := hP.right h
  have hrule := reassociation op left right
  generalize Expr.reassociate op left right = o at hr hrule
  cases hrule with
  | addInto => exact hP.addInto (hP.left hl) (hP.right hl) (Except.ok.inj hr)
  | addIntoRight => exact hP.addInto (hP.left hrt) (hP.right hrt) (Except.ok.inj hr)
  | subtractFrom => exact hP.subtractFrom (hP.left hl) (hP.right hl) (Except.ok.inj hr)
  | subtractSum => exact hP.subtractSum (hP.left hrt) (hP.right hrt) (Except.ok.inj hr)
  | scaleProduct => exact hP.scaleProduct hr hl
  | scaleProductRight => exact hP.scaleProduct hr hrt
  | distributeFactor minus =>
      cases hr
      exact hP.distributeFactor (sumOp_ne_pow minus) hl _
  | distributeFactorRight minus =>
      cases hr
      exact hP.distributeFactor (sumOp_ne_pow minus) hrt _
  | divideProduct => exact hP.divideProduct hr hl
  | divideByProduct => exact hP.divideByProduct h (hP.left hrt) (hP.right hrt) hr
  | distributeDivisor minus =>
      obtain ⟨e, he, hr⟩ := bind_eq_ok.1 hr
      cases hr
      exact hP.distributeDivisor (sumOp_ne_pow minus) h hl he
  | none => cases hr

theorem addFractions (hP : Stable P) {op : BinaryOp} {a b r : Expr α} (ha : P a) (hb : P b)
    (hr : addFractions? op a b = some r) : P r := by
  unfold addFractions? at hr
  split at hr
  · split at hr
    · cases hr
    · split at hr <;> cases hr
      · exact hP.again (by decide) ha (hP.add (hP.left ha) (hP.left hb)) (hP.right ha)
      · exact hP.again (by decide) ha
          (hP.add (hP.mul (hP.left ha) (hP.right hb)) (hP.mul (hP.left hb) (hP.right ha)))
          (hP.mul (hP.right ha) (hP.right hb))
  · cases hr

theorem flattenRoot (hP : Stable P) {op : BinaryOp} {a b r : Expr α} (h : P (binary op a b))
    (hr : Expr.flattenRoot op a b = .ok (some r)) : P r := by
  -- a power is never rewritten, so the operands may be replaced by their other forms
  have hop : op ≠ .pow := by
    rintro rfl
    unfold Expr.flattenRoot at hr
    split at hr
    · simp [addFractions?] at hr
    · simp [Expr.reassociate] at hr
    · split at hr <;> simp [Expr.reassociate] at hr
    · split at hr <;> simp [Expr.reassociate] at hr
  unfold Expr.flattenRoot at hr
  split at hr
  · exact hP.addFractions (hP.left h) (hP.right h) (Except.ok.inj hr)
  · exact hP.reassociate (hP.again hop h (hP.number _) (hP.number _)) hr
  · split at hr
    · rename_i hform
      exact hP.reassociate
        (hP.again hop h (hP.number _) (hP.flattenable (hP.right h) hform)) hr
    · cases hr
  · split at hr
    · rename_i hform
      exact hP.reassociate
        (hP.again hop h (hP.flattenable (hP.left h) hform) (hP.number _)) hr
    · cases hr

theorem flattenPeaks (hP : Stable P) {e r : Expr α} (h : P e)
    (hr : Expr.flattenPeaks e = .ok r) : P r := by
  induction e generalizing r with
  | unary op e ih =>
      obtain ⟨e', he, hr⟩ := bind_eq_ok.1 hr
      cases hr
      exact hP.apply h (ih (hP.operand h) he)
  | binary op a b iha ihb =>
      obtain hroot | ⟨a', b', ha, hb, rfl⟩ := flattenPeaks_cases hr
      · exact hP.flattenRoot h hroot
      · exact hP.rebuild_pass Expr.flattenPeaks (fun _ => rfl) (fun _ => rfl) h ha hb
          (iha (hP.left h) ha) (ihb (hP.right h) hb)
  | _ =>
      cases hr
      exact h

/-! Identity elimination. -/

theorem dropInQuotient (hP : Stable P) {a b r : Expr α} (h : P (binary .div a b))
    (hr : Expr.dropInQuotient a b = .ok r) : P r := by
  unfold Expr.dropInQuotient at hr
  split_ifs at hr
  · cases hr
    exact hP.integer 0
  · cases hr
    exact hP.left h
  · cases hr
    exact hP.negate (hP.left h)
  · split at hr
    · cases hr
      exact hP.integer _
    · rename_i hx _
      cases hr
      exact hP.mul (hP.again (by decide) h (hP.integer _) (hP.right h))
        (hP.signedVariable (hP.left h) hx)
    · cases hr
      exact h

theorem dropInRemainder (hP : Stable P) {a b r : Expr α} (h : P (binary .mod a b))
    (hr : Expr.dropInRemainder a b = .ok r) : P r := by
  unfold Expr.dropInRemainder at hr
  split_ifs at hr <;> cases hr
  · exact hP.integer 0
  · exact h

theorem dropAtRoot (hP : Stable P) {op : BinaryOp} {a b r : Expr α} (h : P (binary op a b))
    (hr : Expr.dropAtRoot op a b = .ok r) : P r := by
  have ha := hP.left h
  have hb := hP.right h
  cases op with
  | add => exact Except.ok.inj hr ▸ hP.dropInSum ha hb
  | sub => exact Except.ok.inj hr ▸ hP.dropInDifference ha hb
  | mul => exact Except.ok.inj hr ▸ hP.dropInProduct ha hb
  | div => exact hP.dropInQuotient h hr
  | pow => exact Except.ok.inj hr ▸ hP.dropInPower h
  | mod => exact hP.dropInRemainder h hr

theorem dropIdentities (hP : Stable P) {e r : Expr α} (h : P e)
    (hr : Expr.dropIdentities e = .ok r) : P r := by
  induction e generalizing r with
  | unary op e ih =>
      obtain ⟨e', he, hr⟩ := bind_eq_ok.1 hr
      cases hr
      exact hP.apply h (ih (hP.operand h) he)
  | binary op a b iha ihb =>
      obtain ⟨a', ha, hr⟩ := bind_eq_ok.1 hr
      obtain ⟨b', hb, hr⟩ := bind_eq_ok.1 hr
      have hnode := hP.rebuild_pass Expr.dropIdentities (fun _ => rfl) (fun _ => rfl) h ha hb
        (iha (hP.left h) ha) (ihb (hP.right h) hb)
      exact hP.dropAtRoot hnode hr
  | _ =>
      cases hr
      exact h

/-! Collection of like terms. -/

/-- Collection keeps a shape; so do the terms of a chain on their own. -/
theorem collect_and_terms (hP : Stable P) {e : Expr α} (h : P e) :
    P (Expr.collect e) ∧ ∀ s, ∀ t ∈ collectTerms s e, P t := by
  induction e with
  | unary op e ih =>
      have hin := hP.apply h (ih (hP.operand h)).1
      refine ⟨hin, fun s t ht => ?_⟩
      obtain rfl := List.mem_singleton.1 ht
      exact hP.signed hin
  | binary op a b iha ihb =>
      have ha := iha (hP.left h)
      have hb := ihb (hP.right h)
      have hterms : ∀ s s', ∀ t ∈ collectTerms s a ++ collectTerms s' b, P t := by
        intro s s' t ht
        obtain ht | ht := List.mem_append.1 ht
        · exact ha.2 s t ht
        · exact hb.2 s' t ht
      have hnode : P (binary op a.collect b.collect) := by
        refine hP.rebuild h ha.1 hb.1 ?_ ?_
        · rintro x rfl
          rfl
        · rintro c rfl
          rfl
      cases op with
      | add => exact ⟨hP.combine (hterms _ _), fun s => hterms _ _⟩
      | sub => exact ⟨hP.combine (hterms _ _), fun s => hterms _ _⟩
      | _ =>
          refine ⟨hnode, fun s t ht => ?_⟩
          obtain rfl := List.mem_singleton.1 ht
          exact hP.signed hnode
  | _ =>
      refine ⟨h, fun s t ht => ?_⟩
      obtain rfl := List.mem_singleton.1 ht
      exact hP.signed h

theorem collect (hP : Stable P) {e : Expr α} (h : P e) : P (Expr.collect e) :=
  (hP.collect_and_terms h).1

/-! The loop. -/

theorem chain (hP : Stable P) {op : NaryOp} {e : Expr α} {es : List (Expr α)} (h : P e)
    (hes : ∀ t ∈ es, P t) : P (Expr.chain op.binary e es) := by
  induction es generalizing e with
  | nil => exact h
  | cons t es ih =>
      rw [List.forall_mem_cons] at hes
      refine ih ?_ hes.2
      cases op
      · exact hP.add h hes.1
      · exact hP.mul h hes.1

theorem keeps_sweep (hP : Stable P) {e : Expr α} {s : Sweep α} (h : P e)
    (hs : Expr.sweep e = .ok s) : P s.result := by
  obtain ⟨folded, hfold, hs⟩ := sweep_cases hs
  have hfolded := hP.foldConstants h hfold
  obtain ⟨_, rfl⟩ | ⟨_, flat, hflat, hs⟩ := hs
  · exact hfolded
  · have hpeaks := hP.flattenPeaks hfolded hflat
    obtain ⟨_, rfl⟩ | ⟨_, plain, hplain, rfl⟩ := hs
    · exact hpeaks
    · exact hP.collect (hP.dropIdentities hpeaks hplain)

theorem keeps_iterate (hP : Stable P) {restart : Expr α → Run (Expr α)} {limit : Int}
    (hrestart : ∀ e r, P e → (restart e).outcome = .ok r → P r) {n done : Nat} {e r : Expr α}
    (h : P e) (hr : (Expr.iterate restart limit n done e).outcome = .ok r) : P r := by
  induction n generalizing done e with
  | zero =>
      cases hr
      exact h
  | succ n ih =>
      have hturn := turn restart limit n done e
      generalize Expr.iterate restart limit (n + 1) done e = run at hr hturn
      cases hturn with
      | failed _ => cases hr
      | constant hs =>
          cases hr
          exact hP.keeps_sweep h hs
      | still hs _ =>
          cases hr
          exact hP.keeps_sweep h hs
      | again hs _ => exact ih (hP.keeps_sweep h hs) hr
      | collapsed hs _ => exact hrestart _ r (hP.keeps_sweep h hs) hr

theorem keeps_simplifyWith (hP : Stable P) {restart : Expr α → Run (Expr α)} {limit : Int}
    (hrestart : ∀ e r, P e → (restart e).outcome = .ok r → P r) {e r : Expr α} (h : P e)
    (hr : (Expr.simplifyWith restart limit e).outcome = .ok r) : P r := by
  induction e generalizing r with
  | const v | var x =>
      cases hr
      exact h
  | unary op e ih =>
      obtain ⟨e', he, hr⟩ := Run.outcome_bind.1 hr
      cases hr
      exact hP.foldUnary h (ih (hP.operand h) he)
  | binary op a b => exact hP.keeps_iterate hrestart h hr
  | nary op es ih =>
      match es with
      | [] =>
          cases hr
          exact hP.number _
      | [e] => exact ih e (by simp) (hP.part h (by simp)) hr
      | e :: e' :: es =>
          refine hP.keeps_iterate hrestart (hP.chain (hP.part h (by simp)) fun t ht => ?_) hr
          exact hP.part h (List.mem_cons_of_mem _ ht)
  | equation rel a b iha ihb =>
      obtain ⟨a', ha, hr⟩ := Run.outcome_bind.1 hr
      obtain ⟨b', hb, hr⟩ := Run.outcome_bind.1 hr
      cases hr
      exact hP.relate h (iha (hP.side h).1 ha) (ihb (hP.side h).2 hb)
  | polynomial x e ih => exact ih (hP.body h) hr

/-- Simplification keeps every stable class, whatever the limit is. -/
theorem keeps (hP : Stable P) {limit : Int} {e r : Expr α} (h : P e)
    (hr : (Expr.simplify limit e).outcome = .ok r) : P r := by
  unfold Expr.simplify at hr
  generalize restartLimit = n at hr
  induction n generalizing e r with
  | zero =>
      refine hP.keeps_simplifyWith ?_ h hr
      rintro t u ht hu
      cases hu
      exact ht
  | succ n ih => exact hP.keeps_simplifyWith (fun t u ht hu => ih ht hu) h hr

end Stable

/-- Marks play no part in folding. -/
theorem foldConstants_unmarked (e : Expr α) : foldConstants e.unmarked = foldConstants e := by
  induction e with
  | polynomial x e ih => exact ih
  | unary op e ih => rw [unmarked, foldConstants, foldConstants, ih]
  | binary op a b iha ihb => rw [unmarked, foldConstants, foldConstants, iha, ihb]
  | _ => rfl

theorem sweep_unmarked (e : Expr α) : sweep e.unmarked = sweep e := by
  rw [sweep, foldConstants_unmarked, sweep]

/-! Trees that belong to a shape without their marks. -/

namespace Shape

variable {P : Expr α → Prop}

theorem unmarked (hP : Shape P) {e : Expr α} (h : P e) : P e.unmarked := by
  induction e with
  | polynomial x e ih => exact ih (hP.body h)
  | unary op e ih => exact hP.under h (ih (hP.operand h))
  | binary op a b iha ihb =>
      have ha := iha (hP.left h)
      have hb := ihb (hP.right h)
      by_cases hop : op = .pow
      · subst hop
        obtain hfree | ⟨x, c, rfl, rfl⟩ := hP.power h
        · exact hfree _ _ ha hb
        · exact h
      · exact hP.again hop h ha hb
  | _ => exact h

theorem foldConstants (hP : Shape P) {e r : Expr α} (h : P e.unmarked)
    (hr : Expr.foldConstants e = .ok r) : P r :=
  hP.toStable.foldConstants h ((foldConstants_unmarked e).trans hr)

theorem sweep (hP : Shape P) {e : Expr α} {s : Sweep α} (h : P e.unmarked)
    (hs : Expr.sweep e = .ok s) : P s.result :=
  hP.keeps_sweep h ((sweep_unmarked e).trans hs)

/-- Unless there is no iteration to spend, the sweeps end in the shape. -/
theorem iterate (hP : Shape P) {restart : Expr α → Run (Expr α)} {limit : Int}
    (hrestart : ∀ e r, P e → (restart e).outcome = .ok r →
      P r ∨ limit ≤ 0 ∧ (restart e).hitBound = true)
    {n done : Nat} {e r : Expr α} (h : P e.unmarked) (hn : n = 0 → P e ∨ limit ≤ 0)
    (hr : (Expr.iterate restart limit n done e).outcome = .ok r) :
    P r ∨ limit ≤ 0 ∧ (Expr.iterate restart limit n done e).hitBound = true := by
  induction n generalizing done e with
  | zero =>
      cases hr
      exact (hn rfl).imp_right fun hlimit => ⟨hlimit, rfl⟩
  | succ n ih =>
      have hturn := turn restart limit n done e
      generalize Expr.iterate restart limit (n + 1) done e = run at hr hturn ⊢
      cases hturn with
      | failed _ => cases hr
      | constant hs =>
          cases hr
          exact .inl (hP.sweep h hs)
      | still hs _ =>
          cases hr
          exact .inl (hP.sweep h hs)
      | again hs _ =>
          have hnext := hP.sweep h hs
          exact ih (hP.unmarked hnext) (fun _ => .inl hnext) hr
      | collapsed hs _ => exact hrestart _ r (hP.sweep h hs) hr

theorem simplifyWith (hP : Shape P) {restart : Expr α → Run (Expr α)} {limit : Int}
    (hrestart : ∀ e r, P e → (restart e).outcome = .ok r →
      P r ∨ limit ≤ 0 ∧ (restart e).hitBound = true)
    {e r : Expr α} (h : P e.unmarked)
    (hr : (Expr.simplifyWith restart limit e).outcome = .ok r) :
    P r ∨ limit ≤ 0 ∧ (Expr.simplifyWith restart limit e).hitBound = true := by
  have hzero : limit.toNat = 0 → limit ≤ 0 := by omega
  induction e generalizing r with
  | const v =>
      cases hr
      exact .inl h
  | var x =>
      cases hr
      exact .inl h
  | unary op e ih =>
      unfold Expr.simplifyWith at hr ⊢
      obtain ⟨e', he, hr⟩ := Run.outcome_bind.1 hr
      cases hr
      rw [Run.hitBound_bind_of_ok he]
      obtain hin | ⟨hlimit, hhit⟩ := ih (hP.operand h) he
      · exact .inl (hP.foldUnary h hin)
      · exact .inr ⟨hlimit, by simp [hhit]⟩
  | binary op a b _ _ => exact hP.iterate hrestart h (fun hn => .inr (hzero hn)) hr
  | nary op es ih =>
      match es with
      | [] =>
          cases hr
          exact .inl (hP.number _)
      | [e] => exact ih e (by simp) (hP.unmarked (hP.part h (by simp))) hr
      | e :: e' :: es =>
          refine hP.iterate hrestart (hP.unmarked (hP.chain (hP.part h (by simp)) ?_))
            (fun hn => .inr (hzero hn)) hr
          exact fun t ht => hP.part h (List.mem_cons_of_mem _ ht)
  | equation rel a b iha ihb =>
      unfold Expr.simplifyWith at hr ⊢
      obtain ⟨a', ha, hr⟩ := Run.outcome_bind.1 hr
      obtain ⟨b', hb, hr⟩ := Run.outcome_bind.1 hr
      cases hr
      rw [Run.hitBound_bind_of_ok ha, Run.hitBound_bind_of_ok hb]
      obtain hl | ⟨hlimit, hhit⟩ := iha (hP.unmarked (hP.side h).1) ha
      · obtain hrt | ⟨hlimit, hhit⟩ := ihb (hP.unmarked (hP.side h).2) hb
        · exact .inl (hP.relate h hl hrt)
        · exact .inr ⟨hlimit, by simp [hhit]⟩
      · exact .inr ⟨hlimit, by simp [hhit]⟩
  | polynomial x e ih => exact ih h hr

theorem simplifyAtMost (hP : Shape P) {limit : Int} {n : Nat} {e r : Expr α} (h : P e.unmarked)
    (hr : (Expr.simplifyAtMost limit n e).outcome = .ok r) :
    P r ∨ limit ≤ 0 ∧ (Expr.simplifyAtMost limit n e).hitBound = true := by
  induction n generalizing e r with
  | zero =>
      refine hP.simplifyWith ?_ h hr
      rintro t u ht hu
      cases hu
      exact .inl ht
  | succ n ih => exact hP.simplifyWith (fun t u ht hu => ih (hP.unmarked ht) hu) h hr

/-- Simplification keeps every shape, and removes the marks, unless it has no iteration to spend
and says so. -/
theorem simplify (hP : Shape P) {limit : Int} {e r : Expr α} (h : P e.unmarked)
    (hr : (Expr.simplify limit e).outcome = .ok r) :
    P r ∨ limit ≤ 0 ∧ (Expr.simplify limit e).hitBound = true :=
  hP.simplifyAtMost h hr

end Shape


end EquationEngine.Expr
