import Mathlib
import EquationEngine.Proofs.Simplify.Shape

/-!
The number of divisions in a tree, and the passes that never raise it.

Constant folding, identity elimination and collection of like terms build no division that was not
there before, and none twice. Re-association is left out: adding two fractions writes their
denominators twice.
-/

namespace EquationEngine.Expr

open Arithmetic

variable {α : Type}

/-- One for a division, and none for any other operator. -/
def ownDivision : BinaryOp → Nat
  | .div => 1
  | _ => 0

/-- The number of divisions above the flat sums and products of a tree. -/
def divisions : Expr α → Nat
  | unary _ e => divisions e
  | binary op a b => divisions a + divisions b + ownDivision op
  | polynomial _ e => divisions e
  | _ => 0

@[simp] theorem divisions_const (v : α) : divisions (const v) = 0 := rfl

@[simp] theorem divisions_var (x : String) : divisions (var x : Expr α) = 0 := rfl

@[simp] theorem divisions_unary (op : UnaryOp) (e : Expr α) :
    divisions (unary op e) = divisions e := rfl

@[simp] theorem divisions_binary (op : BinaryOp) (a b : Expr α) :
    divisions (binary op a b) = divisions a + divisions b + ownDivision op := rfl

@[simp] theorem divisions_apply (op : UnaryOp) (e : Expr α) :
    divisions (apply op e) = divisions e := by
  fun_induction apply op e with
  | case1 e => rfl
  | case2 e ih => exact ih
  | case3 op e => rfl

@[simp] theorem divisions_negate (e : Expr α) : divisions (negate e) = divisions e :=
  divisions_apply .neg e

theorem divisions_left_le (op : BinaryOp) (a b : Expr α) :
    divisions a ≤ divisions (binary op a b) := by
  rw [divisions_binary]
  omega

theorem divisions_right_le (op : BinaryOp) (a b : Expr α) :
    divisions b ≤ divisions (binary op a b) := by
  rw [divisions_binary]
  omega

variable [Arithmetic α]

@[simp] theorem divisions_number (v : α) : divisions (number v) = 0 := rfl

@[simp] theorem divisions_integer (n : Int) : divisions (integer n : Expr α) = 0 := rfl

/-! Constant folding. -/

theorem divisions_foldUnary_le (op : UnaryOp) (e : Expr α) :
    divisions (foldUnary op e) ≤ divisions e := by
  unfold foldUnary
  split
  · split <;> simp
  · split <;> simp
  · simp

theorem divisions_foldBinary_le {op : BinaryOp} {a b r : Expr α} (h : foldBinary op a b = .ok r) :
    divisions r ≤ divisions (binary op a b) := by
  unfold foldBinary at h
  split at h
  · split at h
    · cases h
      exact le_rfl
    · split at h
      · cases h
        exact Nat.zero_le _
      · split at h <;> cases h
        exact le_rfl
  · cases h
    exact le_rfl

theorem divisions_foldConstants_le {e r : Expr α} (h : foldConstants e = .ok r) :
    divisions r ≤ divisions e := by
  induction e generalizing r with
  | polynomial x e ih => exact ih h
  | unary op e ih =>
      obtain ⟨e', he, h⟩ := bind_eq_ok.1 h
      cases h
      exact (divisions_foldUnary_le op e').trans (ih he)
  | binary op a b iha ihb =>
      obtain ⟨a', ha, h⟩ := bind_eq_ok.1 h
      obtain ⟨b', hb, h⟩ := bind_eq_ok.1 h
      refine (divisions_foldBinary_le h).trans ?_
      exact Nat.add_le_add_right (Nat.add_le_add (iha ha) (ihb hb)) _
  | _ =>
      cases h
      exact le_rfl

/-! Identity elimination. -/

theorem divisions_multiple (n : Int) (x : String) : divisions (multiple n x : Expr α) = 0 := by
  unfold multiple
  split_ifs <;> rfl

theorem divisions_dropInSum_le (a b : Expr α) :
    divisions (dropInSum a b) ≤ divisions (binary .add a b) := by
  unfold dropInSum
  split_ifs
  · exact divisions_right_le _ a b
  · exact divisions_left_le _ a b
  · split
    · simp [divisions_multiple]
    · exact le_rfl

theorem divisions_dropInDifference_le (a b : Expr α) :
    divisions (dropInDifference a b) ≤ divisions (binary .sub a b) := by
  unfold dropInDifference
  split_ifs
  · exact (divisions_negate b).trans_le (divisions_right_le _ a b)
  · exact divisions_left_le _ a b
  · split
    · simp [divisions_multiple]
    · exact le_rfl

theorem divisions_dropInProduct_le (a b : Expr α) :
    divisions (dropInProduct a b) ≤ divisions (binary .mul a b) := by
  have hleft := divisions_left_le .mul a b
  have hright := divisions_right_le .mul a b
  unfold dropInProduct
  split_ifs
  · exact Nat.zero_le _
  · exact hleft
  · exact hright
  · exact (divisions_negate a).trans_le hleft
  · exact (divisions_negate b).trans_le hright
  · split
    · dsimp only
      split <;> simp [ownDivision]
    · exact le_rfl

theorem divisions_dropInQuotient_le {a b r : Expr α} (h : dropInQuotient a b = .ok r) :
    divisions r ≤ divisions (binary .div a b) := by
  have hleft := divisions_left_le .div a b
  unfold dropInQuotient at h
  split_ifs at h
  · cases h
    exact Nat.zero_le _
  · cases h
    exact hleft
  · cases h
    exact (divisions_negate a).trans_le hleft
  · split at h <;> cases h
    · exact Nat.zero_le _
    · -- the divisor moves from under the variable to under its sign
      simp [ownDivision]
    · exact le_rfl

theorem divisions_dropInPower_le (a b : Expr α) :
    divisions (dropInPower a b) ≤ divisions (binary .pow a b) := by
  unfold dropInPower
  split_ifs
  · exact Nat.zero_le _
  · exact divisions_left_le _ a b
  · exact Nat.zero_le _
  · exact Nat.zero_le _
  · exact le_rfl

theorem divisions_dropInRemainder_le {a b r : Expr α} (h : dropInRemainder a b = .ok r) :
    divisions r ≤ divisions (binary .mod a b) := by
  unfold dropInRemainder at h
  split_ifs at h <;> cases h
  · exact Nat.zero_le _
  · exact le_rfl

theorem divisions_dropAtRoot_le {op : BinaryOp} {a b r : Expr α} (h : dropAtRoot op a b = .ok r) :
    divisions r ≤ divisions (binary op a b) := by
  cases op with
  | add =>
      cases h
      exact divisions_dropInSum_le a b
  | sub =>
      cases h
      exact divisions_dropInDifference_le a b
  | mul =>
      cases h
      exact divisions_dropInProduct_le a b
  | div => exact divisions_dropInQuotient_le h
  | pow =>
      cases h
      exact divisions_dropInPower_le a b
  | mod => exact divisions_dropInRemainder_le h

theorem divisions_dropIdentities_le {e r : Expr α} (h : dropIdentities e = .ok r) :
    divisions r ≤ divisions e := by
  induction e generalizing r with
  | unary op e ih =>
      obtain ⟨e', he, h⟩ := bind_eq_ok.1 h
      cases h
      simpa using ih he
  | binary op a b iha ihb =>
      obtain ⟨a', ha, h⟩ := bind_eq_ok.1 h
      obtain ⟨b', hb, h⟩ := bind_eq_ok.1 h
      refine (divisions_dropAtRoot_le h).trans ?_
      exact Nat.add_le_add_right (Nat.add_le_add (iha ha) (ihb hb)) _
  | _ =>
      cases h
      exact le_rfl

/-! Collection of like terms. -/

/-- The number of divisions in all bodies entered into the sums. -/
def Tally.divisions (t : Tally α) : Nat :=
  (t.powers.map fun p => p.2.2.divisions).sum + (t.others.map fun p => p.1.divisions).sum

omit [Arithmetic α] in
theorem divisions_signed (s : Sign) (e : Expr α) : divisions (signed s e) = divisions e := by
  cases s
  · rfl
  · exact divisions_negate e

theorem divisions_leading_le (s : Sign) (e : Expr α) : divisions (leading s e) ≤ divisions e := by
  unfold leading
  split
  · exact le_rfl
  · exact Nat.zero_le _
  · exact (divisions_negate e).le

theorem divisions_splitFrom_le (c : α) (e : Expr α) :
    divisions (splitFrom c e).2 ≤ divisions e := by
  fun_induction splitFrom c e with
  | case1 c e ih => exact ih
  | case2 c a b x hx ih => exact ih.trans (divisions_right_le .mul a b)
  | case3 c a b y hy _ ih => exact ih.trans (divisions_left_le .mul a b)
  | case6 c a b y hy _ ih => exact ih.trans (divisions_left_le .div a b)
  | _ => exact le_rfl

theorem divisions_addPower_le (key : String × String) (c : α) (e : Expr α)
    (l : List ((String × String) × α × Expr α)) :
    ((Tally.addPower key c e l).map fun p => p.2.2.divisions).sum ≤
      (l.map fun p => p.2.2.divisions).sum + divisions e := by
  fun_induction Tally.addPower key c e l with
  | case1 => simp
  | case2 k d e' rest _ =>
      simp only [List.map_cons, List.sum_cons]
      omega
  | case3 d e' rest _ =>
      simp only [List.map_cons, List.sum_cons]
      omega
  | case4 k d e' rest _ _ ih =>
      simp only [List.map_cons, List.sum_cons]
      omega

theorem divisions_addOther_le (e : Expr α) (c : α) (l : List (Expr α × α)) :
    ((Tally.addOther e c l).map fun p => p.1.divisions).sum ≤
      (l.map fun p => p.1.divisions).sum + divisions e := by
  fun_induction Tally.addOther e c l with
  | case1 => simp
  | case2 b d rest _ =>
      simp only [List.map_cons, List.sum_cons]
      omega
  | case3 b d rest _ ih =>
      simp only [List.map_cons, List.sum_cons]
      omega

theorem divisions_tally_add_le (t : Tally α) (c : α) (e : Expr α) :
    (t.add c e).divisions ≤ t.divisions + divisions e := by
  unfold Tally.add
  split
  · exact Nat.le_add_right _ _
  · split
    · exact Nat.le_add_right _ _
    · rename_i x e' _
      have hpower := divisions_addPower_le (x, e'.render) c e' t.powers
      simp only [Tally.divisions, divisions_binary, divisions_var]
      omega
    · have hother := divisions_addOther_le e c t.others
      simp only [Tally.divisions]
      omega

theorem divisions_ofTerms_le (terms : List (Expr α)) :
    (Tally.ofTerms terms).divisions ≤ (terms.map divisions).sum := by
  have hrun : ∀ t : Tally α,
      (terms.foldl (fun t e => t.add (split e).1 (split e).2) t).divisions ≤
        t.divisions + (terms.map divisions).sum := by
    induction terms with
    | nil => exact fun t => le_rfl
    | cons e terms ih =>
        intro t
        have hadd := divisions_tally_add_le t (split e).1 (split e).2
        have hbody := divisions_splitFrom_le one e
        have hrest := ih (t.add (split e).1 (split e).2)
        simp only [List.foldl_cons, List.map_cons, List.sum_cons, split] at *
        omega
  have hempty : (Tally.empty : Tally α).divisions = 0 := rfl
  have htotal := hrun Tally.empty
  rwa [hempty, Nat.zero_add] at htotal

theorem divisions_item_le (c : α) (e : Expr α) :
    ((item c e).map fun p => p.2.divisions).sum ≤ divisions e := by
  unfold item
  split
  · exact Nat.zero_le _
  · simp only [List.map_cons, List.map_nil, List.sum_singleton]
    split_ifs <;> simp [ownDivision]

theorem sum_flatMap_item_le {β : Type} (f : β → α × Expr α) (l : List β) :
    ((l.flatMap fun b => item (f b).1 (f b).2).map fun p => p.2.divisions).sum ≤
      (l.map fun b => (f b).2.divisions).sum := by
  induction l with
  | nil => exact le_rfl
  | cons b l ih =>
      have hitem := divisions_item_le (f b).1 (f b).2
      simp only [List.flatMap_cons, List.map_append, List.sum_append, List.map_cons, List.sum_cons]
      omega

theorem divisions_items_le (t : Tally α) :
    (t.items.map fun p => p.2.divisions).sum ≤ t.divisions := by
  have hlinear := sum_flatMap_item_le (fun q : String × α => (q.2, var q.1)) t.linear
  have hpowers := sum_flatMap_item_le
    (fun q : (String × String) × α × Expr α => (q.2.1, binary .pow (var q.1.1) q.2.2)) t.powers
  have hothers := sum_flatMap_item_le (fun q : Expr α × α => (q.2, q.1)) t.others
  have hconst : ((if isZero t.constant then [] else
      [(if lt t.constant zero then Sign.minus else .plus,
        number (Arithmetic.abs t.constant))]).map fun p => p.2.divisions).sum = 0 := by
    split <;> rfl
  simp only [Tally.items, List.map_append, List.sum_append]
  refine (Nat.add_le_add (Nat.add_le_add (Nat.add_le_add hlinear hpowers) hconst.le)
    hothers).trans ?_
  simp [Tally.divisions, ownDivision, List.map_const']

omit [Arithmetic α] in
theorem divisions_join (first : Expr α) (rest : List (Sign × Expr α)) :
    divisions (join first rest) = divisions first + (rest.map fun p => p.2.divisions).sum := by
  induction rest generalizing first with
  | nil => rfl
  | cons p rest ih =>
      have hnode : ownDivision (if p.1 = .minus then .sub else .add) = 0 := by
        split <;> rfl
      rw [join, List.foldl_cons, ← join, ih]
      simp only [divisions_binary, hnode, List.map_cons, List.sum_cons]
      omega

theorem divisions_combine_le (terms : List (Expr α)) :
    divisions (combine terms) ≤ (terms.map divisions).sum := by
  have hitems := (divisions_items_le (Tally.ofTerms terms)).trans (divisions_ofTerms_le terms)
  unfold combine
  split
  · exact Nat.zero_le _
  · rename_i s e rest hsplit
    have hfirst := divisions_leading_le s e
    rw [hsplit, List.map_cons, List.sum_cons] at hitems
    dsimp only at hitems
    rw [divisions_join]
    omega

theorem divisions_collect_and_terms (e : Expr α) :
    divisions (collect e) ≤ divisions e ∧
      ∀ s, ((collectTerms s e).map divisions).sum ≤ divisions e := by
  have hleaf {e e' : Expr α} (h : divisions e' ≤ divisions e) (s : Sign) :
      ([signed s e'].map divisions).sum ≤ divisions e := by
    simpa [divisions_signed] using h
  induction e with
  | unary op e ih =>
      have hnode : divisions (apply op e.collect) ≤ divisions (unary op e) := by
        rw [divisions_apply]
        exact ih.1
      exact ⟨hnode, hleaf hnode⟩
  | binary op a b iha ihb =>
      have hterms (s s' : Sign) : ((collectTerms s a ++ collectTerms s' b).map divisions).sum ≤
          divisions (binary op a b) := by
        have ha := iha.2 s
        have hb := ihb.2 s'
        simp only [List.map_append, List.sum_append, divisions_binary]
        omega
      have hnode : divisions (binary op a.collect b.collect) ≤ divisions (binary op a b) :=
        Nat.add_le_add_right (Nat.add_le_add iha.1 ihb.1) _
      cases op with
      | add => exact ⟨(divisions_combine_le _).trans (hterms _ _), fun s => hterms _ _⟩
      | sub => exact ⟨(divisions_combine_le _).trans (hterms _ _), fun s => hterms _ _⟩
      | _ => exact ⟨hnode, hleaf hnode⟩
  | _ => exact ⟨le_rfl, hleaf le_rfl⟩

theorem divisions_collect_le (e : Expr α) : divisions (collect e) ≤ divisions e :=
  (divisions_collect_and_terms e).1

end EquationEngine.Expr
