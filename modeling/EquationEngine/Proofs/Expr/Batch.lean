import Mathlib.Data.List.Forall2
import EquationEngine.Double.Arithmetic
import EquationEngine.Expr.Batch
import EquationEngine.Proofs.Expr.Basic
import EquationEngine.Proofs.Run

/-!
Evaluation at a list of values agrees with evaluation at each of them.

Both evaluations visit the operators of a tree in the same order. At every operator the batch has
already passed the operators before it at all values, so a value at which the operator fails for
the batch is one at which a single evaluation gets there and fails in the same way. What the two
need to agree at one operator is that the test over the list finds the faults of the number type;
this is asked for finite operands only, and overflow is left out, because a batch gives the
limiting value where a single evaluation refuses.
-/

namespace EquationEngine

open Arithmetic

/-- Number types in which the tests of batch evaluation find the faults at finite operands. -/
class Arithmetic.LawfulFaults (α : Type) [Arithmetic α] : Prop where
  powFault_iff {x y : α} : isFinite x = true → isFinite y = true →
    (powFault x y = some .undefined ↔ lacksRealPower x y = true)
  remFault_eq {x : α} (y : α) : isFinite x = true → remFault x y = none
  logFault_iff (x : α) : logFault x = none ↔ le x zero = false

variable {α : Type}

/-! One operator. -/

namespace UnaryOp

/-- Whether batch evaluation refuses an operand. -/
def refuses [Arithmetic α] : UnaryOp → α → Bool
  | log, x => le x zero
  | _, _ => false

/-- The value batch evaluation gives to an operand that it does not refuse. -/
def kernel [Arithmetic α] : UnaryOp → α → α
  | neg => (- ·)
  | abs => Arithmetic.abs
  | log => Arithmetic.log
  | exp => Arithmetic.exp

variable [Arithmetic α]

theorem applyAll_eq (op : UnaryOp) (xs : List α) :
    op.applyAll xs =
      if xs.any op.refuses then .error .logOfNonPositive else .ok (xs.map op.kernel) := by
  cases op with
  | log => rfl
  | _ => simp [applyAll, refuses, kernel]

theorem apply_eq [LawfulFaults α] {op : UnaryOp} {x : α}
    (hrange : op.apply x ≠ .error .outOfRange) :
    op.apply x = if op.refuses x then .error .logOfNonPositive else .ok (op.kernel x) := by
  cases op with
  | neg | abs => rfl
  | log =>
      have hiff := LawfulFaults.logFault_iff x
      simp only [apply, refuses, kernel]
      cases hfault : logFault x with
      | none => simp [hiff.1 hfault]
      | some fault =>
          have hle : le x zero = true := by
            rw [← Bool.not_eq_false, ← hiff, hfault]
            simp
          simp [hle]
  | exp =>
      simp only [apply] at hrange ⊢
      cases hfault : expFault x with
      | none => rfl
      | some fault => simp [hfault] at hrange

end UnaryOp

namespace BinaryOp

/-- Whether batch evaluation refuses two operands. -/
def refuses [Arithmetic α] : BinaryOp → α → α → Bool
  | div, _, y => isZero y
  | pow, x, y => lacksRealPower x y
  | mod, _, y => isZero y
  | _, _, _ => false

/-- The error with which batch evaluation refuses operands. -/
def refusal : BinaryOp → Error
  | div => .divisionByZero
  | mod => .modulusByZero
  | _ => .noRealPowers

/-- The value batch evaluation gives to two operands that it does not refuse. -/
def kernel [Arithmetic α] : BinaryOp → α → α → α
  | add => (· + ·)
  | sub => (· - ·)
  | mul => (· * ·)
  | div => (· / ·)
  | pow => Arithmetic.pow
  | mod => rem

theorem isAlgebraic_refusal (op : BinaryOp) : op.refusal.family.isAlgebraic = true := by
  cases op <;> rfl

theorem any_zip_right {xs ys : List α} (h : xs.length = ys.length) (p : α → Bool) :
    ((xs.zip ys).any fun z => p z.2) = ys.any p := by
  have hmap : (xs.zip ys).map Prod.snd = ys := List.map_snd_zip (Nat.le_of_eq h.symm)
  calc ((xs.zip ys).any fun z => p z.2) = ((xs.zip ys).map Prod.snd).any p := by
        rw [List.any_map]
        rfl
    _ = ys.any p := by rw [hmap]

variable [Arithmetic α]

theorem applyAll_eq (op : BinaryOp) {xs ys : List α} (h : xs.length = ys.length) :
    op.applyAll xs ys =
      if (xs.zip ys).any (fun z => op.refuses z.1 z.2) then .error op.refusal
      else .ok ((xs.zip ys).map fun z => op.kernel z.1 z.2) := by
  have hzip (f : α → α → α) : (xs.zip ys).map (fun z => f z.1 z.2) = xs.zipWith f ys := by
    simp [List.zip]
  rw [hzip op.kernel]
  cases op with
  | div | mod =>
      simp only [refuses, any_zip_right h]
      rfl
  | pow => rfl
  | _ => simp [applyAll, refuses, kernel]

/-- At finite operands and without overflow, an operator has the value of the batch unless the
batch refuses, and then it fails with an error of the same family. -/
theorem apply_of_finite [LawfulFaults α] {op : BinaryOp} {x y : α} (hx : isFinite x = true)
    (hy : isFinite y = true) (hrange : op.apply x y ≠ .error .outOfRange) :
    (op.refuses x y = false → op.apply x y = .ok (op.kernel x y)) ∧
      (op.refuses x y = true →
        ∃ err, op.apply x y = .error err ∧ err.family = op.refusal.family) := by
  cases op with
  | add | sub | mul => exact ⟨fun _ => rfl, nofun⟩
  | div =>
      simp only [apply, refuses, kernel]
      refine ⟨fun hzero => by simp [hzero], fun hzero => ⟨.divisionByZero, by simp [hzero], rfl⟩⟩
  | pow =>
      have hiff := LawfulFaults.powFault_iff hx hy
      simp only [apply, refuses, kernel] at hrange ⊢
      cases hfault : powFault x y with
      | none =>
          refine ⟨fun _ => rfl, fun hlacks => ?_⟩
          have hundefined := hiff.2 hlacks
          rw [hfault] at hundefined
          cases hundefined
      | some fault =>
          cases fault with
          | overflow => simp [hfault] at hrange
          | undefined =>
              have hlacks := hiff.1 hfault
              refine ⟨fun hdefined => ?_, fun _ => ⟨_, rfl, rfl⟩⟩
              rw [hdefined] at hlacks
              cases hlacks
  | mod =>
      have hrem := LawfulFaults.remFault_eq y hx
      simp only [apply, refuses, kernel, hrem]
      refine ⟨fun hzero => by simp [hzero], fun hzero => ⟨.modulusByZero, by simp [hzero], rfl⟩⟩

end BinaryOp

/-! Outcomes over a list against outcomes at its members. -/

/-- An outcome for a whole list agrees with the outcomes at its members: a list of the members'
answers, or an error of the family that some member fails with. -/
def Agrees {ι β : Type} (xs : List ι) (f : ι → Except Error β) : Except Error (List β) → Prop
  | .ok ys => List.Forall₂ (fun x y => f x = .ok y) xs ys
  | .error err => err.family.isAlgebraic = true ∧
      ∃ x ∈ xs, ∃ err', f x = .error err' ∧ err'.family = err.family

namespace Agrees

variable {ι κ β γ : Type} {xs : List ι} {zs : List κ} {f : ι → Except Error β}

theorem exists_beside {R : ι → κ → Prop} (h : List.Forall₂ R xs zs) {z : κ} (hz : z ∈ zs) :
    ∃ x ∈ xs, R x z := by
  induction h with
  | nil => simp at hz
  | cons hxz _ ih =>
      rcases List.mem_cons.1 hz with rfl | hz
      · exact ⟨_, List.mem_cons_self, hxz⟩
      · obtain ⟨x, hx, hxz⟩ := ih hz
        exact ⟨x, List.mem_cons_of_mem _ hx, hxz⟩

theorem forall₂_fst (h : xs.length = zs.length) :
    List.Forall₂ (fun p x => p.1 = x) (xs.zip zs) xs := by
  induction xs generalizing zs with
  | nil => exact .nil
  | cons x xs ih =>
      cases zs with
      | nil => simp at h
      | cons z zs => exact .cons rfl (ih (Nat.succ.inj h))

theorem forall₂_snd (h : xs.length = zs.length) :
    List.Forall₂ (fun p z => p.2 = z) (xs.zip zs) zs := by
  induction xs generalizing zs with
  | nil =>
      cases zs with
      | nil => exact .nil
      | cons z zs => simp at h
  | cons x xs ih =>
      cases zs with
      | nil => simp at h
      | cons z zs => exact .cons rfl (ih (Nat.succ.inj h))

/-- A test over the whole list in front of a pointwise answer. -/
theorem of_test {refuses : ι → Bool} {err : Error} {w : ι → β}
    (hfamily : err.family.isAlgebraic = true)
    (hok : ∀ x ∈ xs, refuses x = false → f x = .ok (w x))
    (herr : ∀ x ∈ xs, refuses x = true → ∃ err', f x = .error err' ∧ err'.family = err.family) :
    Agrees xs f (if xs.any refuses then .error err else .ok (xs.map w)) := by
  by_cases hany : xs.any refuses = true
  · rw [if_pos hany]
    obtain ⟨x, hx, hrefuses⟩ := List.any_eq_true.1 hany
    exact ⟨hfamily, x, hx, herr x hx hrefuses⟩
  · rw [if_neg hany]
    simp only [List.any_eq_true, not_exists, not_and, Bool.not_eq_true] at hany
    show List.Forall₂ _ xs (xs.map w)
    rw [List.forall₂_map_right_iff, List.forall₂_same]
    exact fun x hx => hok x hx (hany x hx)

/-- Agreement with the members of one list is agreement with those of another that stand beside
them and have the same outcomes. -/
theorem transfer {g : κ → Except Error β} {R : ι → κ → Prop} {r : Except Error (List β)}
    (hR : List.Forall₂ R xs zs) (hfg : ∀ x ∈ xs, ∀ z, R x z → f x = g z) (h : Agrees zs g r) :
    Agrees xs f r := by
  cases r with
  | ok ys =>
      change List.Forall₂ _ zs ys at h
      show List.Forall₂ _ xs ys
      induction hR generalizing ys with
      | nil =>
          cases h
          exact .nil
      | cons hxz _ ih =>
          cases h with
          | cons hz hrest =>
              rw [List.forall_mem_cons] at hfg
              exact .cons ((hfg.1 _ hxz).trans hz) (ih hfg.2 _ hrest)
  | error err =>
      obtain ⟨hfamily, z, hz, err', hg, hsame⟩ := h
      obtain ⟨x, hx, hxz⟩ := exists_beside hR hz
      exact ⟨hfamily, x, hx, err', (hfg x hx z hxz).trans hg, hsame⟩

/-- Two steps agree if the first does, and the second does wherever all members pass the first. -/
theorem bind {g : ι → Except Error γ} {r : Except Error (List β)}
    {next : List β → Except Error (List γ)} (h : Agrees xs f r)
    (hfirst : ∀ x ∈ xs, ∀ err, f x = .error err → g x = .error err)
    (hnext : ∀ ys, List.Forall₂ (fun x y => f x = .ok y) xs ys → Agrees xs g (next ys)) :
    Agrees xs g (r >>= next) := by
  cases r with
  | ok ys => exact hnext ys h
  | error err =>
      obtain ⟨hfamily, x, hx, err', hf, hsame⟩ := h
      exact ⟨hfamily, x, hx, err', hfirst x hx err' hf, hsame⟩

theorem map {g : ι → Except Error γ} {r : Except Error (List β)} {w : β → γ} (h : Agrees xs f r)
    (hg : ∀ x ∈ xs, g x = (f x).map w) : Agrees xs g (r.map (List.map w)) := by
  cases r with
  | ok ys =>
      change List.Forall₂ _ xs ys at h
      show List.Forall₂ _ xs (ys.map w)
      rw [List.forall₂_map_right_iff]
      induction h with
      | nil => exact .nil
      | cons hx _ ih =>
          rw [List.forall_mem_cons] at hg
          exact .cons (by rw [hg.1, hx]; rfl) (ih hg.2)
  | error err =>
      obtain ⟨hfamily, x, hx, err', hf, hsame⟩ := h
      exact ⟨hfamily, x, hx, err', by rw [hg x hx, hf]; rfl, hsame⟩

/-- Two lists that stand beside a third stand beside it in pairs. -/
theorem forall₂_zip {R : ι → β → Prop} {S : ι → γ → Prop} {us : List β} {vs : List γ}
    (hR : List.Forall₂ R xs us) (hS : List.Forall₂ S xs vs) :
    List.Forall₂ (fun x z => R x z.1 ∧ S x z.2) xs (us.zip vs) := by
  induction hR generalizing vs with
  | nil =>
      cases hS
      exact .nil
  | cons hx _ ih =>
      cases hS with
      | cons hx' hrest => exact .cons ⟨hx, hx'⟩ (ih hrest)

end Agrees

theorem UnaryOp.applyAll_agrees [Arithmetic α] [LawfulFaults α] (op : UnaryOp) {xs : List α}
    (hrange : ∀ x ∈ xs, op.apply x ≠ .error .outOfRange) :
    Agrees xs op.apply (op.applyAll xs) := by
  rw [applyAll_eq]
  refine .of_test rfl (fun x hx hrefuses => ?_) (fun x hx hrefuses => ?_)
  · rw [apply_eq (hrange x hx), hrefuses]
    rfl
  · refine ⟨.logOfNonPositive, ?_, rfl⟩
    rw [apply_eq (hrange x hx), hrefuses]
    rfl

theorem BinaryOp.applyAll_agrees [Arithmetic α] [LawfulFaults α] (op : BinaryOp) {xs ys : List α}
    (hlength : xs.length = ys.length)
    (hfinite : ∀ z ∈ xs.zip ys, isFinite z.1 = true ∧ isFinite z.2 = true)
    (hrange : ∀ z ∈ xs.zip ys, op.apply z.1 z.2 ≠ .error .outOfRange) :
    Agrees (xs.zip ys) (fun z => op.apply z.1 z.2) (op.applyAll xs ys) := by
  rw [applyAll_eq op hlength]
  have hone := fun z hz => apply_of_finite (hfinite z hz).1 (hfinite z hz).2 (hrange z hz)
  exact .of_test op.isAlgebraic_refusal (fun z hz => (hone z hz).1) (fun z hz => (hone z hz).2)

/-! Whole trees. -/

namespace Expr

mutual

/-- Evaluating a tree, as far as it gets, applies its operators to finite numbers only. -/
def MeetsFinite [Arithmetic α] (env : Assignment α) : Expr α → Prop
  | const _ | var _ => True
  | unary _ e => MeetsFinite env e ∧ ∀ x, eval env e = .ok x → isFinite x = true
  | binary _ a b => MeetsFinite env a ∧ ∀ x, eval env a = .ok x →
      MeetsFinite env b ∧ ∀ y, eval env b = .ok y → isFinite x = true ∧ isFinite y = true
  | nary op es => MeetsFiniteAll env op.binary op.unit es
  | equation _ a b => MeetsFinite env a ∧ ∀ x, eval env a = .ok x → MeetsFinite env b
  | polynomial _ e => MeetsFinite env e
termination_by structural e => e

/-- Joining operands to what has been computed so far applies the operator to finite numbers
only. -/
def MeetsFiniteAll [Arithmetic α] (env : Assignment α) (op : BinaryOp) (soFar : α) :
    List (Expr α) → Prop
  | [] => True
  | e :: es => MeetsFinite env e ∧ ∀ x, eval env e = .ok x →
      (isFinite soFar = true ∧ isFinite x = true) ∧
        ∀ y, op.apply soFar x = .ok y → MeetsFiniteAll env op y es
termination_by structural es => es

end

variable [Arithmetic α] [LawfulFaults α] {name : String} {xs : List α}

/-- The batch agrees with the evaluations of a tree. -/
def AgreesOn (name : String) (xs : List α) (e : Expr α) : Prop :=
  (∀ x ∈ xs, MeetsFinite (.single name x) e) →
    (∀ x ∈ xs, eval (.single name x) e ≠ .error .outOfRange) →
      Agrees xs (fun x => eval (.single name x) e) (evalBatch name xs e)

theorem AgreesOn.unary {op : UnaryOp} {e : Expr α} (ih : AgreesOn name xs e) :
    AgreesOn name xs (unary op e) := by
  intro hfinite hrange
  have heval (x : α) : eval (.single name x) (.unary op e) =
      eval (.single name x) e >>= op.apply := rfl
  refine (ih (fun x hx => (hfinite x hx).1) ?_).bind ?_ ?_
  · intro x hx hout
    exact hrange x hx (by rw [heval, hout]; rfl)
  · intro x hx err hout
    rw [heval, hout]
    rfl
  · intro us hus
    refine Agrees.transfer hus ?_ (op.applyAll_agrees ?_)
    · intro x hx u hu
      rw [heval, hu]
      rfl
    · intro u hu hout
      obtain ⟨x, hx, hxu⟩ := Agrees.exists_beside hus hu
      exact hrange x hx (by rw [heval, hxu]; exact hout)

omit [LawfulFaults α] in
/-- Two operands taken one after the other and joined by `k`. -/
theorem AgreesOn.pair {γ : Type} {a b : Expr α} {k : α → α → Except Error γ}
    {g : α → Except Error γ} {next : List α → List α → Except Error (List γ)}
    (iha : AgreesOn name xs a) (ihb : AgreesOn name xs b)
    (hg : ∀ x, g x = eval (.single name x) a >>= fun u => eval (.single name x) b >>= k u)
    (hfinite : ∀ x ∈ xs, MeetsFinite (.single name x) a ∧
      ∀ u, eval (.single name x) a = .ok u → MeetsFinite (.single name x) b)
    (hrange : ∀ x ∈ xs, g x ≠ .error .outOfRange)
    (hnext : ∀ us vs, us.length = vs.length →
      List.Forall₂ (fun x z => eval (.single name x) a = .ok z.1 ∧
        eval (.single name x) b = .ok z.2) xs (us.zip vs) →
      Agrees (us.zip vs) (fun z => k z.1 z.2) (next us vs)) :
    Agrees xs g (evalBatch name xs a >>= fun us => evalBatch name xs b >>= next us) := by
  have herror {x : α} {err : Error} (hout : eval (.single name x) a = .error err) :
      g x = .error err := by
    rw [hg, hout]
    rfl
  refine (iha (fun x hx => (hfinite x hx).1) ?_).bind (fun x _ err hout => herror hout) ?_
  · exact fun x hx hout => hrange x hx (herror hout)
  intro us hus
  -- every value has passed the left operand, so at none of them the right one is left out
  have hpassed {x : α} (hx : x ∈ xs) : ∃ u, eval (.single name x) a = .ok u := by
    obtain ⟨u, -, hu⟩ := Agrees.exists_beside hus.flip hx
    exact ⟨u, hu⟩
  have herror {x : α} (hx : x ∈ xs) {err : Error}
      (hout : eval (.single name x) b = .error err) : g x = .error err := by
    obtain ⟨u, hu⟩ := hpassed hx
    rw [hg, hu]
    show eval (.single name x) b >>= k u = _
    rw [hout]
    rfl
  refine (ihb ?_ ?_).bind (fun x hx err hout => herror hx hout) ?_
  · intro x hx
    obtain ⟨u, hu⟩ := hpassed hx
    exact (hfinite x hx).2 u hu
  · exact fun x hx hout => hrange x hx (herror hx hout)
  intro vs hvs
  have hpairs := Agrees.forall₂_zip hus hvs
  refine Agrees.transfer hpairs ?_ (hnext us vs (hus.length_eq.symm.trans hvs.length_eq) hpairs)
  rintro x - z ⟨hu, hv⟩
  rw [hg, hu]
  show eval (.single name x) b >>= k z.1 = _
  rw [hv]
  rfl

theorem AgreesOn.binary {op : BinaryOp} {a b : Expr α} (iha : AgreesOn name xs a)
    (ihb : AgreesOn name xs b) : AgreesOn name xs (binary op a b) := by
  intro hfinite hrange
  have hg (x : α) : eval (.single name x) (.binary op a b) =
      eval (.single name x) a >>= fun u => eval (.single name x) b >>= op.apply u := rfl
  refine iha.pair ihb hg (fun x hx => ⟨(hfinite x hx).1, fun u hu => ?_⟩) hrange ?_
  · exact ((hfinite x hx).2 u hu).1
  intro us vs hlength hpairs
  refine op.applyAll_agrees hlength (fun z hz => ?_) (fun z hz hout => ?_)
  · obtain ⟨x, hx, hu, hv⟩ := Agrees.exists_beside hpairs hz
    exact ((hfinite x hx).2 _ hu).2 _ hv
  · obtain ⟨x, hx, hu, hv⟩ := Agrees.exists_beside hpairs hz
    refine hrange x hx ?_
    rw [hg, hu]
    show eval (.single name x) b >>= op.apply z.1 = _
    rw [hv]
    exact hout

omit [Arithmetic α] [LawfulFaults α] in
/-- Relations are tested pair by pair. -/
theorem agrees_zipWith {γ : Type} (w : α → α → γ) (us vs : List α) :
    Agrees (us.zip vs) (fun z => .ok (w z.1 z.2)) (.ok (us.zipWith w vs)) := by
  have hzip : us.zipWith w vs = (us.zip vs).map fun z => w z.1 z.2 := by simp [List.zip]
  show List.Forall₂ _ (us.zip vs) (us.zipWith w vs)
  rw [hzip, List.forall₂_map_right_iff, List.forall₂_same]
  exact fun z _ => rfl

omit [LawfulFaults α] in
theorem AgreesOn.equation {r : Relation} {a b : Expr α} (iha : AgreesOn name xs a)
    (ihb : AgreesOn name xs b) : AgreesOn name xs (equation r a b) := by
  intro hfinite hrange
  refine iha.pair ihb (fun x => rfl) hfinite hrange fun us vs _ _ => ?_
  exact agrees_zipWith (fun u v => if r.holds u v then one else zero) us vs

omit [LawfulFaults α] in
theorem evalAll_cons (env : Assignment α) (op : BinaryOp) (soFar : α) (e : Expr α)
    (es : List (Expr α)) :
    evalAll env op soFar (e :: es) =
      (eval env e >>= op.apply soFar) >>= fun y => evalAll env op y es := by
  rw [evalAll]
  cases eval env e <;> rfl

omit [LawfulFaults α] in
/-- An operand is evaluated at every value, beside what has been computed so far there. -/
theorem AgreesOn.beside {e : Expr α} (h : AgreesOn name xs e) {ss : List α}
    (hlength : xs.length = ss.length)
    (hfinite : ∀ z ∈ xs.zip ss, MeetsFinite (.single name z.1) e)
    (hrange : ∀ z ∈ xs.zip ss, eval (.single name z.1) e ≠ .error .outOfRange) :
    Agrees (xs.zip ss) (fun z => eval (.single name z.1) e) (evalBatch name xs e) := by
  have hpaired := Agrees.forall₂_fst hlength
  refine Agrees.transfer hpaired (by rintro z - x rfl; rfl) (h (fun x hx => ?_) fun x hx => ?_)
  · obtain ⟨z, hz, rfl⟩ := Agrees.exists_beside hpaired hx
    exact hfinite z hz
  · obtain ⟨z, hz, rfl⟩ := Agrees.exists_beside hpaired hx
    exact hrange z hz

omit [Arithmetic α] [LawfulFaults α] in
theorem length_of_zip {R : α × α → α → Prop} {ss us : List α} (hlength : xs.length = ss.length)
    (h : List.Forall₂ R (xs.zip ss) us) : xs.length = us.length := by
  rw [← h.length_eq, List.length_zip, ← hlength, Nat.min_self]

/-- An operand is joined at every value to what has been computed so far there. -/
theorem agrees_applyAll {op : BinaryOp} {e : Expr α} {ss us : List α}
    (hlength : xs.length = ss.length)
    (hus : List.Forall₂ (fun z u => eval (.single name z.1) e = .ok u) (xs.zip ss) us)
    (hfinite : ∀ z ∈ xs.zip ss, ∀ u, eval (.single name z.1) e = .ok u →
      isFinite z.2 = true ∧ isFinite u = true)
    (hrange : ∀ z ∈ xs.zip ss, (eval (.single name z.1) e >>= op.apply z.2) ≠ .error .outOfRange) :
    Agrees (xs.zip ss) (fun z => eval (.single name z.1) e >>= op.apply z.2)
      (op.applyAll ss us) := by
  have hpairs := Agrees.forall₂_zip (Agrees.forall₂_snd hlength) hus
  have hsame {z p : α × α} (hp : z.2 = p.1 ∧ eval (.single name z.1) e = .ok p.2) :
      (eval (.single name z.1) e >>= op.apply z.2) = op.apply p.1 p.2 := by
    rw [hp.1, hp.2]
    rfl
  have hjoined : ss.length = us.length := hlength.symm.trans (length_of_zip hlength hus)
  refine Agrees.transfer hpairs (fun z _ p hp => hsame hp)
    (op.applyAll_agrees hjoined (fun p hp => ?_) fun p hp hout => ?_)
  · obtain ⟨z, hz, hzp⟩ := Agrees.exists_beside hpairs hp
    exact hzp.1 ▸ hfinite z hz _ hzp.2
  · obtain ⟨z, hz, hzp⟩ := Agrees.exists_beside hpairs hp
    exact hrange z hz ((hsame hzp).trans hout)

theorem agrees_evalBatchAll {op : BinaryOp} {es : List (Expr α)}
    (ih : ∀ e ∈ es, AgreesOn name xs e) {ss : List α} (hlength : xs.length = ss.length)
    (hfinite : ∀ z ∈ xs.zip ss, MeetsFiniteAll (.single name z.1) op z.2 es)
    (hrange : ∀ z ∈ xs.zip ss, evalAll (.single name z.1) op z.2 es ≠ .error .outOfRange) :
    Agrees (xs.zip ss) (fun z => evalAll (.single name z.1) op z.2 es)
      (evalBatchAll name xs op ss es) := by
  induction es generalizing ss with
  | nil =>
      refine List.Forall₂.imp ?_ (Agrees.forall₂_snd hlength)
      rintro z s rfl
      rfl
  | cons e es ihes =>
      have hstep (z : α × α) := evalAll_cons (.single name z.1) op z.2 e es
      have hoperand := (ih e List.mem_cons_self).beside hlength (fun z hz => (hfinite z hz).1)
        fun z hz hout => hrange z hz (by rw [hstep, hout]; rfl)
      refine hoperand.bind (fun z _ err hout => by rw [hstep, hout]; rfl) ?_
      intro us hus
      have hjoined := agrees_applyAll hlength hus (fun z hz u hu => ((hfinite z hz).2 u hu).1)
        fun z hz hout => hrange z hz (by rw [hstep, hout]; rfl)
      refine hjoined.bind (fun z _ err hout => by rw [hstep, hout]; rfl) ?_
      intro vs hvs
      -- The rest of the operands meets each value beside what is computed there by now.
      have hpairs := Agrees.forall₂_zip (Agrees.forall₂_fst hlength) hvs
      have hsame {z p : α × α} (hp : z.1 = p.1 ∧
          (eval (.single name z.1) e >>= op.apply z.2) = .ok p.2) :
          evalAll (.single name z.1) op z.2 (e :: es) =
            evalAll (.single name p.1) op p.2 es := by
        rw [hstep, hp.2, hp.1]
        rfl
      have hrest : xs.length = vs.length := length_of_zip hlength hvs
      refine Agrees.transfer hpairs (fun z _ p hp => hsame hp)
        (ihes (fun e he => ih e (List.mem_cons_of_mem _ he)) hrest (fun p hp => ?_) ?_)
      · obtain ⟨z, hz, hzp⟩ := Agrees.exists_beside hpairs hp
        obtain ⟨u, hu, happly⟩ := bind_eq_ok.1 hzp.2
        exact hzp.1 ▸ ((hfinite z hz).2 u hu).2 _ happly
      · intro p hp hout
        obtain ⟨z, hz, hzp⟩ := Agrees.exists_beside hpairs hp
        exact hrange z hz ((hsame hzp).trans hout)

omit [LawfulFaults α] in
theorem agreesOn_const (v : α) : AgreesOn name xs (const v) := by
  intro _ _
  show List.Forall₂ _ xs (xs.map fun _ => v)
  rw [List.forall₂_map_right_iff, List.forall₂_same]
  exact fun x _ => rfl

omit [LawfulFaults α] in
/-- The batch refuses another variable once, so there has to be a value at which it is refused. -/
theorem agreesOn_var (hne : xs ≠ []) (y : String) : AgreesOn name xs (var y : Expr α) := by
  intro _ _
  by_cases hy : y = name
  · subst hy
    have hbatch : evalBatch y xs (.var y) = .ok xs := by simp [evalBatch]
    rw [hbatch]
    show List.Forall₂ _ xs xs
    rw [List.forall₂_same]
    intro x _
    simp [eval, Assignment.single]
  · have hbatch : evalBatch name xs (.var y) = .error (.unbound y) := by simp [evalBatch, hy]
    obtain ⟨x, hx⟩ := List.exists_mem_of_ne_nil xs hne
    rw [hbatch]
    exact ⟨rfl, x, hx, .unbound y, by simp [eval, Assignment.single, hy], rfl⟩

theorem AgreesOn.nary {op : NaryOp} {es : List (Expr α)} (ih : ∀ e ∈ es, AgreesOn name xs e) :
    AgreesOn name xs (nary op es) := by
  intro hfinite hrange
  have hlength : xs.length = (xs.map fun _ => (op.unit : α)).length := by simp
  have hunit {z : α × α} (hz : z ∈ xs.zip (xs.map fun _ => (op.unit : α))) :
      z.1 ∈ xs ∧ z.2 = op.unit := by
    obtain ⟨hx, hu⟩ := List.of_mem_zip (a := z.1) (b := z.2) hz
    obtain ⟨_, _, hu⟩ := List.mem_map.1 hu
    exact ⟨hx, hu.symm⟩
  -- at every value the operands are joined to the unit
  have hpairs : List.Forall₂ (fun x z => x = z.1 ∧ z.2 = op.unit) xs
      (xs.zip (xs.map fun _ => (op.unit : α))) := by
    refine Agrees.forall₂_zip (R := (· = ·)) (S := fun _ u => u = op.unit)
      (List.forall₂_same.2 fun x _ => rfl) ?_
    rw [List.forall₂_map_right_iff, List.forall₂_same]
    exact fun x _ => rfl
  refine Agrees.transfer hpairs ?_ (agrees_evalBatchAll ih hlength ?_ ?_)
  · rintro x - z ⟨rfl, hz⟩
    rw [hz]
    rfl
  · intro z hz
    rw [(hunit hz).2]
    exact hfinite z.1 (hunit hz).1
  · intro z hz
    rw [(hunit hz).2]
    exact hrange z.1 (hunit hz).1

/-- Batch evaluation agrees with the evaluations at the values of a list that is not empty. -/
theorem agreesOn (hne : xs ≠ []) (e : Expr α) : AgreesOn name xs e := by
  induction e with
  | const v => exact agreesOn_const v
  | var y => exact agreesOn_var hne y
  | unary op e ih => exact ih.unary
  | binary op a b iha ihb => exact iha.binary ihb
  | nary op es ih => exact .nary ih
  | equation r a b iha ihb => exact iha.equation ihb
  | polynomial x e ih => exact ih

end Expr

/-- The answers of a batch one by one. -/
def Values.toList : Values α → List (Value α)
  | numbers xs => xs.map .number
  | truths bs => bs.map .truth

namespace Expr

theorem agrees_evaluateBatch [Arithmetic α] [LawfulFaults α] {name : String} {xs : List α}
    (hne : xs ≠ []) {e : Expr α} (hfinite : ∀ x ∈ xs, MeetsFinite (.single name x) e)
    (hrange : ∀ x ∈ xs, evaluate (.single name x) e ≠ .error .outOfRange) :
    Agrees xs (fun x => evaluate (.single name x) e)
      ((evaluateBatch name xs e).map Values.toList) := by
  -- every tree but an equation answers with its number
  have hnumber {e : Expr α} (hfinite : ∀ x ∈ xs, MeetsFinite (.single name x) e)
      (hrange : ∀ x ∈ xs, evaluate (.single name x) e ≠ .error .outOfRange)
      (hone : ∀ env, evaluate env e = (eval env e).map .number)
      (hall : evaluateBatch name xs e = (evalBatch name xs e).map .numbers) :
      Agrees xs (fun x => evaluate (.single name x) e)
        ((evaluateBatch name xs e).map Values.toList) := by
    have hagrees : Agrees xs (fun x => eval (.single name x) e) (evalBatch name xs e) := by
      refine agreesOn hne e hfinite fun x hx hout => hrange x hx ?_
      rw [hone, hout]
      rfl
    have hlist : (evaluateBatch name xs e).map Values.toList =
        (evalBatch name xs e).map (List.map .number) := by
      rw [hall]
      cases evalBatch name xs e <;> rfl
    rw [hlist]
    exact hagrees.map fun x _ => hone _
  induction e with
  | const v | var y | unary op e | binary op a b | nary op es =>
      exact hnumber hfinite hrange (fun env => rfl) rfl
  | equation r a b =>
      have hlist : (evaluateBatch name xs (.equation r a b)).map Values.toList =
          evalBatch name xs a >>= fun us => evalBatch name xs b >>= fun vs =>
            .ok (us.zipWith (fun u v => .truth (r.holds u v)) vs) := by
        rw [evaluateBatch]
        cases evalBatch name xs a with
        | error err => rfl
        | ok us =>
            cases evalBatch name xs b with
            | error err => rfl
            | ok vs =>
                show Except.ok ((us.zipWith r.holds vs).map Value.truth) = _
                rw [List.map_zipWith]
                rfl
      rw [hlist]
      refine (agreesOn hne a).pair (agreesOn hne b) (fun x => rfl) hfinite hrange ?_
      exact fun us vs _ _ => agrees_zipWith (fun u v => Value.truth (r.holds u v)) us vs
  | polynomial y e ih => exact ih hfinite hrange

end Expr

/-! Doubles. -/

theorem Double.lacksRealPower_eq {x y : Float} (hy : y.isFinite = true) :
    lacksRealPower x y = ((x < 0 && (toInt? y).isNone) || (x == 0 && y < 0)) := by
  have hfractional : isFractional y = (toInt? y).isNone := by
    show (!(toInt? y).isSome && (y.isFinite || !(y == y))) = _
    simp [hy]
  show ((decide (x < 0) && isFractional y) || (x == 0 && decide (y < 0))) = _
  rw [hfractional]

instance : LawfulFaults Float where
  powFault_iff {x y} hx hy := by
    have hx : x.isFinite = true := hx
    have hy : y.isFinite = true := hy
    show Double.powFault x y = _ ↔ _
    rw [Double.lacksRealPower_eq hy, Double.powFault, if_pos (by simp [hx, hy])]
    split
    · rename_i hlacks
      simp [hlacks]
    · rename_i hlacks
      simp only [hlacks]
      split <;> simp
  remFault_eq {x} y hx := by
    have hx : x.isFinite = true := hx
    show Double.remFault x y = none
    simp [Double.remFault, Double.isInfinite, hx]
  logFault_iff x := by
    show Double.logFault x = none ↔ decide (x ≤ 0) = false
    simp [Double.logFault]

namespace Expr

/-- Batch evaluation at a list of doubles that is not empty, where every single evaluation meets
finite operands only and does not overflow, fails if and only if one of the single evaluations
does, with an error of the family that one of them fails with; otherwise it answers with the list
of the single answers. -/
theorem evaluateBatch_agrees {e : Expr Float} {name : String} {xs : List Float} (hne : xs ≠ [])
    (hfinite : ∀ x ∈ xs, MeetsFinite (.single name x) e)
    (hrange : ∀ x ∈ xs, evaluate (.single name x) e ≠ .error .outOfRange) :
    ((∃ err, evaluateBatch name xs e = .error err ∧ err.family.isAlgebraic = true) ↔
        ∃ x ∈ xs, ∃ err, evaluate (.single name x) e = .error err ∧
          err.family.isAlgebraic = true) ∧
      (∀ err, evaluateBatch name xs e = .error err → err.family.isAlgebraic = true ∧
        ∃ x ∈ xs, ∃ err', evaluate (.single name x) e = .error err' ∧
          err'.family = err.family) ∧
      ((∀ x ∈ xs, ∀ err, evaluate (.single name x) e = .error err →
          err.family.isAlgebraic = false) →
        ∃ vs, evaluateBatch name xs e = .ok vs ∧
          List.Forall₂ (fun x v => evaluate (.single name x) e = .ok v) xs vs.toList) := by
  have hagrees := agrees_evaluateBatch hne hfinite hrange
  cases hbatch : evaluateBatch name xs e with
  | error err =>
      rw [hbatch] at hagrees
      obtain ⟨hfamily, x, hx, err', hout, hsame⟩ := hagrees
      have halgebraic : err'.family.isAlgebraic = true := by rw [hsame, hfamily]
      refine ⟨⟨fun _ => ⟨x, hx, err', hout, halgebraic⟩, fun _ => ⟨err, rfl, hfamily⟩⟩, ?_, ?_⟩
      · rintro _ ⟨⟩
        exact ⟨hfamily, x, hx, err', hout, hsame⟩
      · intro hnone
        rw [hnone x hx err' hout] at halgebraic
        cases halgebraic
  | ok vs =>
      rw [hbatch] at hagrees
      refine ⟨⟨nofun, ?_⟩, nofun, fun _ => ⟨vs, rfl, hagrees⟩⟩
      rintro ⟨x, hx, err, hout, -⟩
      obtain ⟨v, -, hv⟩ := Agrees.exists_beside hagrees.flip hx
      cases hout.symm.trans hv

/-- A reciprocal fails at zero, and at a list in which zero stands behind two. -/
theorem evaluateBatch_agrees_reciprocal :
    let e : Expr Float := binary .div (const 1) (var "x")
    (∀ x ∈ [2, 0], MeetsFinite (.single "x" x) e) ∧
      (∀ x ∈ [2, 0], evaluate (.single "x" x) e ≠ .error .outOfRange) ∧
      (∃ x ∈ [2, 0], ∃ err, evaluate (.single "x" x) e = .error err ∧
        err.family.isAlgebraic = true) ∧
      ∃ err, evaluateBatch "x" [2, 0] e = .error err ∧ err.family.isAlgebraic = true := by
  intro e
  have heval (x : Float) : evaluate (.single "x" x) e =
      (BinaryOp.div.apply 1 x >>= fun y => .ok (.number y)) := by
    rfl
  have hfinite : ∀ x ∈ [2, 0], MeetsFinite (.single "x" x) e := by
    have hlist : ∀ x ∈ [2, 0], Float.isFinite x = true := by decide +kernel
    intro x hx
    refine ⟨trivial, ?_⟩
    rintro _ ⟨⟩
    refine ⟨trivial, fun y hy => ?_⟩
    obtain rfl : x = y := by simpa [eval, Assignment.single] using hy
    exact ⟨by decide +kernel, hlist x hx⟩
  have hrange : ∀ x ∈ [2, 0], evaluate (.single "x" x) e ≠ .error .outOfRange := by
    intro x _
    rw [heval, BinaryOp.apply]
    split <;> nofun
  have hzero : evaluate (.single "x" 0) e = .error .divisionByZero := by
    rw [heval, BinaryOp.apply, if_pos (by decide +kernel)]
    rfl
  have hfails : ∃ x ∈ [2, 0], ∃ err, evaluate (.single "x" x) e = .error err ∧
      err.family.isAlgebraic = true := ⟨0, by simp, .divisionByZero, hzero, rfl⟩
  exact ⟨hfinite, hrange, hfails,
    (evaluateBatch_agrees (by simp) hfinite hrange).1.2 hfails⟩

end Expr

end EquationEngine
