import EquationEngine.Proofs.Expr.Nodes

/-!
The errors with which simplification ends.

Re-association and identity elimination report a division or a remainder by the constant zero.
Constant folding leaves an operation that fails as it stands, but for one: the remainder of an
infinite dividend, which the folding of other operations may bring about. A tree without
remainders is therefore simplified, or divides by zero.
-/

namespace EquationEngine.Expr

variable {α : Type}

/-- A node other than a remainder. -/
def NoRemainder (n : Expr α) : Prop := n.operatorWord? ≠ some BinaryOp.mod.word

theorem withOperator_mod_eq_nil {e : Expr α} :
    e.withOperator "mod" = [] ↔ EveryNode NoRemainder e := by
  simp [withOperator, EveryNode, NoRemainder, mem_breadthFirst, BinaryOp.word]

theorem shallow_noRemainder : Shallow (NoRemainder : Expr α → Prop) where
  const _ := nofun
  neg _ := by simp [NoRemainder, operatorWord?, UnaryOp.word, BinaryOp.word]
  add _ _ := by simp [NoRemainder, operatorWord?, BinaryOp.word]
  sub _ _ := by simp [NoRemainder, operatorWord?, BinaryOp.word]
  mul _ _ := by simp [NoRemainder, operatorWord?, BinaryOp.word]
  pow _ _ := by simp [NoRemainder, operatorWord?, BinaryOp.word]
  unary _ h := h
  binary _ _ h := h
  equation _ _ h := h

/-- The errors that simplification of a tree may end with. -/
inductive SimplifyError (e : Expr α) : Error → Prop
  | division : SimplifyError e .divisionByZero
  | modulus : SimplifyError e .modulusByZero
  | remainder : ¬EveryNode NoRemainder e → SimplifyError e .remainderOfInfinity

/-- A tree without more remainders has no more errors. -/
theorem SimplifyError.mono {e e' : Expr α} {err : Error} (h : SimplifyError e' err)
    (hmono : EveryNode NoRemainder e → EveryNode NoRemainder e') : SimplifyError e err := by
  cases h with
  | division => exact .division
  | modulus => exact .modulus
  | remainder hmod => exact .remainder fun h => hmod (hmono h)

variable [Arithmetic α]

/-! The passes. -/

theorem foldBinary_error {op : BinaryOp} {a b : Expr α} {err : Error}
    (h : foldBinary op a b = .error err) : op = .mod ∧ err = .remainderOfInfinity := by
  unfold foldBinary at h
  split at h
  · rename_i x y _ _
    split at h
    · cases h
    · rename_i hzero
      cases happly : op.apply x y with
      | ok v =>
          rw [happly] at h
          cases h
      | error e =>
          rw [happly] at h
          dsimp only at h
          split at h
          · cases h
          · rename_i hkeeps
            cases h
            cases op with
            | add | sub | mul => cases happly
            | div => simp_all [BinaryOp.apply]
            | pow =>
                simp only [BinaryOp.apply] at happly
                split at happly <;> cases happly <;> simp [keepsPower] at hkeeps
            | mod =>
                simp only [BinaryOp.apply] at happly
                split at happly
                · simp_all
                · split at happly <;> cases happly
                  exact ⟨rfl, rfl⟩
  · cases h

theorem foldConstants_error {e : Expr α} {err : Error} (h : foldConstants e = .error err) :
    SimplifyError e.unmarked err := by
  induction e with
  | polynomial x e ih => exact ih h
  | unary op e ih =>
      obtain h | ⟨_, _, h⟩ := bind_eq_error.1 h
      · exact (ih h).mono fun hall => (everyNode_unary.1 hall).2
      · cases h
  | binary op a b iha ihb =>
      obtain h | ⟨a', _, h⟩ := bind_eq_error.1 h
      · exact (iha h).mono fun hall => (everyNode_binary.1 hall).2.1
      obtain h | ⟨b', _, h⟩ := bind_eq_error.1 h
      · exact (ihb h).mono fun hall => (everyNode_binary.1 hall).2.2
      obtain ⟨rfl, rfl⟩ := foldBinary_error h
      exact .remainder fun hall => (everyNode_binary.1 hall).1 rfl
  | _ => cases h

theorem scaleProduct_error {quotient : Bool} {a b : Expr α} {k : α} {err : Error}
    (h : scaleProduct quotient a b k = .error err) : err = .divisionByZero := by
  unfold scaleProduct at h
  split at h
  · cases h
  · split_ifs at h
    cases h
    rfl
  · cases h

theorem divideProduct_error {quotient : Bool} {a b : Expr α} {k : α} {err : Error}
    (h : divideProduct quotient a b k = .error err) : err = .divisionByZero := by
  unfold divideProduct at h
  split at h
  · split_ifs at h
    cases h
    rfl
  · dsimp only at h
    split_ifs at h <;> cases h <;> rfl
  · cases h

theorem divideByProduct_error {quotient : Bool} {a b : Expr α} {k : α} {err : Error}
    (h : divideByProduct k quotient a b = .error err) : err = .divisionByZero := by
  unfold divideByProduct at h
  split at h
  · split_ifs at h
    cases h
    rfl
  · split_ifs at h
    cases h
    rfl
  · cases h

theorem distributeDivisor_error {op : BinaryOp} {a b : Expr α} {k : α} {err : Error}
    (h : distributeDivisor op a b k = .error err) : err = .divisionByZero := by
  unfold distributeDivisor at h
  split_ifs at h
  cases h
  rfl

theorem reassociate_error {op : BinaryOp} {left right : Expr α} {err : Error}
    (h : reassociate op left right = .error err) : err = .divisionByZero := by
  have hrule := reassociation op left right
  generalize reassociate op left right = o at h hrule
  cases hrule with
  | scaleProduct | scaleProductRight => exact scaleProduct_error h
  | divideProduct => exact divideProduct_error h
  | divideByProduct => exact divideByProduct_error h
  | distributeDivisor =>
      obtain h | ⟨_, _, h⟩ := bind_eq_error.1 h
      · exact distributeDivisor_error h
      · cases h
  -- the other rules do not divide
  | _ => cases h

theorem flattenRoot_error {op : BinaryOp} {a b : Expr α} {err : Error}
    (h : flattenRoot op a b = .error err) : err = .divisionByZero := by
  unfold flattenRoot at h
  split at h
  · cases h
  · exact reassociate_error h
  · split at h
    · exact reassociate_error h
    · cases h
  · split at h
    · exact reassociate_error h
    · cases h

theorem flattenPeaks_error {e : Expr α} {err : Error} (h : flattenPeaks e = .error err) :
    err = .divisionByZero := by
  induction e with
  | unary op e ih =>
      obtain h | ⟨_, _, h⟩ := bind_eq_error.1 h
      · exact ih h
      · cases h
  | binary op a b iha ihb =>
      obtain h | ⟨root, _, h⟩ := bind_eq_error.1 h
      · exact flattenRoot_error h
      cases root with
      | some e => cases h
      | none =>
          obtain h | ⟨_, _, h⟩ := bind_eq_error.1 h
          · exact iha h
          obtain h | ⟨_, _, h⟩ := bind_eq_error.1 h
          · exact ihb h
          · cases h
  | _ => cases h

theorem dropAtRoot_error {op : BinaryOp} {a b : Expr α} {err : Error}
    (h : dropAtRoot op a b = .error err) : err = .divisionByZero ∨ err = .modulusByZero := by
  cases op with
  | div =>
      simp only [dropAtRoot, dropInQuotient] at h
      split_ifs at h
      · cases h
        exact .inl rfl
      · split at h <;> cases h
  | mod =>
      simp only [dropAtRoot, dropInRemainder] at h
      split_ifs at h
      cases h
      exact .inr rfl
  | _ => cases h

theorem dropIdentities_error {e : Expr α} {err : Error} (h : dropIdentities e = .error err) :
    err = .divisionByZero ∨ err = .modulusByZero := by
  induction e with
  | unary op e ih =>
      obtain h | ⟨_, _, h⟩ := bind_eq_error.1 h
      · exact ih h
      · cases h
  | binary op a b iha ihb =>
      obtain h | ⟨_, _, h⟩ := bind_eq_error.1 h
      · exact iha h
      obtain h | ⟨_, _, h⟩ := bind_eq_error.1 h
      · exact ihb h
      · exact dropAtRoot_error h
  | _ => cases h

/-! The loop. -/

theorem sweep_error {e : Expr α} {err : Error} (h : sweep e = .error err) :
    SimplifyError e.unmarked err := by
  obtain h | ⟨folded, _, h⟩ := bind_eq_error.1 h
  · exact foldConstants_error h
  split_ifs at h
  · cases h
  obtain h | ⟨flat, _, h⟩ := bind_eq_error.1 h
  · rw [flattenPeaks_error h]
    exact .division
  split_ifs at h
  · cases h
  obtain h | ⟨_, _, h⟩ := bind_eq_error.1 h
  · obtain rfl | rfl := dropIdentities_error h
    · exact .division
    · exact .modulus
  · cases h

theorem iterate_error {restart : Expr α → Run (Expr α)} {limit : Int}
    (hrestart : ∀ e err, (restart e).outcome = .error err → SimplifyError e err)
    {n done : Nat} {e : Expr α} {err : Error}
    (h : (iterate restart limit n done e).outcome = .error err) :
    SimplifyError e.unmarked err := by
  induction n generalizing done e with
  | zero => cases h
  | succ n ih =>
      have hnext {next : Expr α} (hs : sweep e = .ok (.swept next))
          (hall : EveryNode NoRemainder e.unmarked) : EveryNode NoRemainder next :=
        shallow_noRemainder.shape.sweep hall hs
      have hturn := turn restart limit n done e
      generalize iterate restart limit (n + 1) done e = run at h hturn
      cases hturn with
      | failed hs =>
          obtain rfl := Except.error.inj h
          exact sweep_error hs
      | constant _ => cases h
      | still _ _ => cases h
      | again hs _ =>
          exact (ih h).mono fun hall => shallow_noRemainder.shape.unmarked (hnext hs hall)
      | collapsed hs _ => exact (hrestart _ err h).mono (hnext hs)

/-- Simplification fails where its loop fails, over operands of the tree. -/
theorem exists_iterate_error {restart : Expr α → Run (Expr α)} {limit : Int} {e : Expr α}
    {err : Error} (h : (simplifyWith restart limit e).outcome = .error err) :
    ∃ e', (iterate restart limit limit.toNat 0 e').outcome = .error err ∧
      ∀ {p : Expr α → Prop}, Shallow p → EveryNode p e → EveryNode p e' := by
  induction e with
  | const v => cases h
  | var x => cases h
  | unary op e ih =>
      unfold simplifyWith at h
      obtain h | ⟨_, _, h⟩ := Run.outcome_bind_error.1 h
      · obtain ⟨e', h, hnodes⟩ := ih h
        exact ⟨e', h, fun hp hall => hnodes hp (everyNode_unary.1 hall).2⟩
      · cases h
  | binary op a b _ _ => exact ⟨binary op a b, h, fun _ hall => hall⟩
  | nary op es ih =>
      rcases es with _ | ⟨e, _ | ⟨e', es⟩⟩
      · cases h
      · obtain ⟨e', h, hnodes⟩ := ih e (by simp) h
        exact ⟨e', h, fun hp hall => hnodes hp ((everyNode_nary.1 hall).2 e (by simp))⟩
      · refine ⟨_, h, fun hp hall => ?_⟩
        have hpart := (everyNode_nary.1 hall).2
        exact hp.shape.chain (hpart e (by simp)) fun t ht => hpart t (List.mem_cons_of_mem _ ht)
  | equation r a b iha ihb =>
      unfold simplifyWith at h
      obtain h | ⟨_, _, h⟩ := Run.outcome_bind_error.1 h
      · obtain ⟨e', h, hnodes⟩ := iha h
        exact ⟨e', h, fun hp hall => hnodes hp (everyNode_equation.1 hall).2.1⟩
      obtain h | ⟨_, _, h⟩ := Run.outcome_bind_error.1 h
      · obtain ⟨e', h, hnodes⟩ := ihb h
        exact ⟨e', h, fun hp hall => hnodes hp (everyNode_equation.1 hall).2.2⟩
      · cases h
  | polynomial x e ih =>
      obtain ⟨e', h, hnodes⟩ := ih h
      exact ⟨e', h, fun hp hall => hnodes hp (everyNode_polynomial.1 hall).2⟩

theorem simplifyWith_error {restart : Expr α → Run (Expr α)} {limit : Int}
    (hrestart : ∀ e err, (restart e).outcome = .error err → SimplifyError e err)
    {e : Expr α} {err : Error} (h : (simplifyWith restart limit e).outcome = .error err) :
    SimplifyError e err := by
  obtain ⟨e', h, hnodes⟩ := exists_iterate_error h
  exact (iterate_error hrestart h).mono fun hall =>
    shallow_noRemainder.shape.unmarked (hnodes shallow_noRemainder hall)

theorem simplifyAtMost_error {limit : Int} {n : Nat} {e : Expr α} {err : Error}
    (h : (simplifyAtMost limit n e).outcome = .error err) : SimplifyError e err := by
  induction n generalizing e err with
  | zero => exact simplifyWith_error (fun _ _ h => by cases h) h
  | succ n ih => exact simplifyWith_error (fun _ _ => ih) h

/-- Simplification divides by zero, or finds the remainder of an infinite dividend in a tree with
a remainder, if it ends in an error at all. -/
theorem simplify_error {limit : Int} {e : Expr α} {err : Error}
    (h : (simplify limit e).outcome = .error err) : SimplifyError e err :=
  simplifyAtMost_error h

/-- Without iterations to spend nothing is computed, and nothing can fail. -/
theorem pos_of_simplifyWith_error {restart : Expr α → Run (Expr α)} {limit : Int} {e : Expr α}
    {err : Error} (h : (simplifyWith restart limit e).outcome = .error err) : 1 ≤ limit := by
  obtain ⟨e', h, -⟩ := exists_iterate_error h
  cases hn : limit.toNat with
  | zero =>
      rw [hn] at h
      cases h
  | succ n => omega

theorem simplifyConfigured_error {limit : Int} {e : Expr α} {err : Error}
    (h : (simplifyConfigured limit e).outcome = .error err) :
    1 ≤ limit ∧ SimplifyError e err := by
  obtain h | ⟨_, _, h⟩ := Run.outcome_bind_error.1 h
  · cases h
  · exact ⟨pos_of_simplifyWith_error h, simplify_error h⟩

end EquationEngine.Expr
