import EquationEngine.Proofs.Double.Printer
import EquationEngine.Proofs.Expr.Parser
import EquationEngine.Proofs.Simplify.Spelled

/-!
Texts of trees that were read are read again, with the same value.

A side that is no polynomial is stored as it was read, and spells itself. A polynomial is stored
simplified, and may spell another tree; that tree is no polynomial and has the value of the stored
one, or it is a polynomial and is simplified to it.
-/

namespace EquationEngine

open Arithmetic Grammar

namespace Grammar

variable {α : Type} [Arithmetic α]

/-- A whole input is written for a tree whose sides come from the sides that were read. -/
inductive Stored (R : Expr α → Expr α → Prop) : List Lexeme → Expr α → Prop
  | expression {ts : List Lexeme} {e e' : Expr α} :
      Derives .additive ts e → R e e' → Stored R ts e'
  | equation {ts us : List Lexeme} {a a' b b' : Expr α} (r : Relation) (spelledOut : Bool) :
      Derives .additive ts a → R a a' → Derives .additive us b → R b b' →
      Stored R (ts ++ .symbol (.relation r spelledOut) :: us) (.equation r a' b')

end Grammar

namespace Parser

variable {α : Type} [Arithmetic α]

/-- An expression that was read takes tokens off the front that are written for it. -/
theorem derives_of_additive {stop : Nat} {ts : List Token} {p : Parsed α ts.length}
    (h : additive stop ts = .ok p) :
    ∃ front, ts = front ++ p.rest ∧ Derives .additive (front.map (·.lexeme)) p.value := by
  have hright : Right .additive [] stop ts (plain (additive (α := α) stop ts)) := right_additive ts
  rw [h] at hright
  exact hright

omit [Arithmetic α] in
theorem eq_of_finish {stop : Nat} {e n : Expr α} {rest : List Token}
    (h : finish stop e rest = .ok n) : rest = [] ∧ e = n := by
  unfold finish at h
  split at h
  · rename_i hempty
    exact ⟨List.isEmpty_iff.1 hempty, Except.ok.inj h⟩
  · cases h

/-- The parts of an input that was read, under any judgement `J` of runs and their answers that
holds of two steps only if it holds of each. -/
theorem stored_of_judged {J : {β : Type} → Run β → β → Prop}
    (hbind : ∀ {β γ : Type} {r : Run β} {f : β → Run γ} {c : γ},
      J (r >>= f) c → ∃ b, J r b ∧ J (f b) c)
    (hlift : ∀ {β : Type} {a : Except Error β} {b : β}, J (Run.lift a) b → a = .ok b)
    {tag : Expr α → Run (Expr α)} {tokens : Tokens} {n : Expr α} (h : J (sentence tag tokens) n) :
    Stored (fun e e' => J (tag e) e') (tokens.list.map (·.lexeme)) n := by
  obtain ⟨left, hleft, h⟩ := hbind h
  obtain ⟨a, ha, h⟩ := hbind h
  obtain ⟨front, hts, hfront⟩ := derives_of_additive (hlift hleft)
  rw [hts, List.map_append]
  split at h
  · rename_i r spelledOut p rest hrest
    split_ifs at h
    · cases hlift h
    · obtain ⟨right, hright, h⟩ := hbind h
      obtain ⟨b, hb, h⟩ := hbind h
      obtain ⟨back, hus, hback⟩ := derives_of_additive (hlift hright)
      obtain ⟨hnil, rfl⟩ := eq_of_finish (hlift h)
      rw [hrest, hus, hnil, List.append_nil]
      exact .equation r spelledOut hfront ha hback hb
  · obtain ⟨hnil, rfl⟩ := eq_of_finish (hlift h)
    rw [hnil, List.map_nil, List.append_nil]
    exact .expression hfront ha

theorem stored_of_sentence {tag : Expr α → Run (Expr α)} {tokens : Tokens} {n : Expr α}
    (h : (sentence tag tokens).Completes n) :
    Stored (fun e e' => (tag e).Completes e') (tokens.list.map (·.lexeme)) n :=
  stored_of_judged (J := Run.Completes) Run.completes_bind.1 Run.completes_lift.1 h

theorem stored_of_outcome {tag : Expr α → Run (Expr α)} {tokens : Tokens} {n : Expr α}
    (h : (sentence tag tokens).outcome = .ok n) :
    Stored (fun e e' => (tag e).outcome = .ok e') (tokens.list.map (·.lexeme)) n :=
  stored_of_judged (J := fun r b => r.outcome = .ok b) Run.outcome_bind.1 id h

/-- Tokens that are written for an expression are read as it in front of what cannot belong to it.
-/
theorem additive_of_derives (stop : Nat) {all ts rest : List Token} {ls : List Lexeme} {e : Expr α}
    (hall : all = ts ++ rest) (h : Derives .additive ls e) (hts : ts.map (·.lexeme) = ls)
    (hrest : Loose 3 rest) :
    ∃ p, additive stop all = .ok p ∧ p.value = e ∧ p.rest = rest := by
  subst hall
  have hreads : Reads stop e ts rest .additive := reads h hts rest
  have hplain := hreads.additive_ok hrest
  cases hp : additive (α := α) stop (ts ++ rest) with
  | error err =>
      rw [hp] at hplain
      cases hplain
  | ok p =>
      rw [hp] at hplain
      have hpair : (p.value, p.rest) = (e, rest) := Except.ok.inj hplain
      exact ⟨p, rfl, congrArg Prod.fst hpair, congrArg Prod.snd hpair⟩

/-- Tokens that are written for an expression are stored as its side is. -/
theorem sentence_eq_tag {tag : Expr α → Run (Expr α)} {tokens : Tokens} {e : Expr α}
    (h : Derives .additive (tokens.list.map (·.lexeme)) e) : sentence tag tokens = tag e := by
  obtain ⟨p, hp, hvalue, hrest⟩ := additive_of_derives tokens.stop
    (List.append_nil tokens.list).symm h rfl (loose_nil 3)
  rw [sentence, hp]
  show (Run.lift (.ok p)).andThen _ = _
  rw [Run.lift_andThen, hvalue, hrest]
  exact Run.andThen_lift (tag e)

/-- Tokens that are written for two expressions and a relation between them are stored as the
equation of the two sides. -/
theorem sentence_eq_equation {tag : Expr α → Run (Expr α)} {tokens : Tokens}
    {ls ls' : List Lexeme} {r : Relation} {spelledOut : Bool} {a b : Expr α}
    (hls : tokens.list.map (·.lexeme) = ls ++ .symbol (.relation r spelledOut) :: ls')
    (ha : Derives .additive ls a) (hb : Derives .additive ls' b) :
    sentence tag tokens = (do return .equation r (← tag a) (← tag b)) := by
  obtain ⟨ts, stop⟩ := tokens
  obtain ⟨us, ⟨_, q⟩, vs, rfl, hus, rfl, hvs⟩ := exists_split hls
  have hloose : Loose 3 (⟨.symbol (.relation r spelledOut), q⟩ :: vs) :=
    loose_cons.2 (Nat.lt_add_one 3)
  obtain ⟨p, hp, hvalue, hrest⟩ := additive_of_derives stop rfl ha hus hloose
  obtain ⟨p', hp', hvalue', hrest'⟩ := additive_of_derives stop
    (List.append_nil vs).symm hb hvs (loose_nil 3)
  have hne : ¬vs.isEmpty := by
    rw [List.isEmpty_iff, ← List.map_eq_nil_iff, hvs]
    exact hb.ne_nil
  rw [sentence, hp]
  show (Run.lift (.ok p)).andThen _ = _
  rw [Run.lift_andThen, hvalue, hrest]
  refine bind_congr fun a' => ?_
  show (if vs.isEmpty then _ else _ : Run (Expr α)) = _
  rw [if_neg hne, hp']
  show (Run.lift (.ok p')).andThen _ = _
  rw [Run.lift_andThen, hvalue', hrest']
  rfl

end Parser

namespace Expr

theorem readable_of_simple {e : Expr Float} (he : EveryNode (Simple {x | Token.IsName x}) e)
    (hset : e.Settled) (hconst : e.EveryConst Double.Plain) (hbase : EveryNode HasBase e) :
    EveryNode Readable e := by
  induction e with
  | const v => exact everyNode_const.2 (Double.Plain.legible hconst hset)
  | var x => exact everyNode_var.2 he.root
  | unary op e ih =>
      exact everyNode_unary.2 ⟨trivial, ih (everyNode_unary.1 he).2 hset hconst
        (everyNode_unary.1 hbase).2⟩
  | binary op a b iha ihb =>
      obtain ⟨-, ha, hb⟩ := everyNode_binary.1 he
      obtain ⟨hroot, hbasea, hbaseb⟩ := everyNode_binary.1 hbase
      refine everyNode_binary.2 ⟨?_, iha ha hset.1 hconst.1 hbasea, ihb hb hset.2 hconst.2 hbaseb⟩
      cases op with
      | pow => exact hroot
      | _ => trivial
  | nary op es => exact he.root.elim
  | equation r a b => exact he.root.elim
  | polynomial x e => exact he.root.elim

/-- A tree that was read, without polynomial marks. -/
structure Raw (e : Expr Float) : Prop where
  simple : EveryNode (Simple {x | Token.IsName x}) e
  settled : e.Settled
  spelled : EveryNode (fun n => n.spelled = n) e

theorem everyNode_spelled_apply {α : Type} [Arithmetic α] {op : UnaryOp} {e : Expr α}
    (h : EveryNode (fun n => n.spelled = n) e) :
    EveryNode (fun n => n.spelled = n) (apply op e) := by
  fun_induction apply op e with
  | case1 e => exact (everyNode_unary.1 h).2
  | case2 e ih => exact ih (everyNode_unary.1 h).2
  | case3 op e hneg habs =>
      refine everyNode_unary.2 ⟨?_, h⟩
      rw [Expr.spelled, h.root, apply]
      · exact hneg
      · exact habs

theorem simple_of_derives {α : Type} [Arithmetic α] {V : Set String} {c : Category}
    {ls : List Lexeme} {e : Expr α} (h : Derives c ls e) (hname : ∀ x, .name x ∈ ls → x ∈ V) :
    EveryNode (Simple V) e :=
  h.rule (fun _ => everyNode_const.2 trivial) (fun x hx => everyNode_var.2 (hname x hx))
    (fun op e he => shallow_simple.shape.apply
      (show EveryNode (Simple V) (unary op e) from everyNode_unary.2 ⟨trivial, he⟩) he)
    fun _ _ _ _ ha hb => everyNode_binary.2 ⟨trivial, ha, hb⟩

theorem raw_of_derives {c : Category} {ls : List Lexeme} {e : Expr Float} (h : Derives c ls e)
    (hname : ∀ x, .name x ∈ ls → Token.IsName x) : Raw e where
  simple := simple_of_derives h hname
  settled := h.rule (fun _ => ⟨_, rfl⟩) (fun _ _ => trivial)
    (fun op e he => shape_settled.apply (show (unary op e).Settled from he) he)
    fun _ _ _ _ ha hb => ⟨ha, hb⟩
  spelled := by
    refine h.rule (fun t => ?_) (fun x _ => everyNode_var.2 rfl)
      (fun op e he => everyNode_spelled_apply he)
      fun op a b _ ha hb => everyNode_binary.2 ⟨?_, ha, hb⟩
    · obtain ⟨v, hv, hunsigned⟩ := Double.isSigned_constant t
      rw [hv, everyNode_const, spelled, hunsigned]
      rfl
    · rw [spelled, ha.root, hb.root]

theorem evaluate_of_simple {α : Type} [Arithmetic α] {V : Set String} {e : Expr α}
    (h : Simple V e) (env : Assignment α) :
    evaluate env e = (do return .number (← eval env e)) := by
  cases e with
  | const v | var x | unary op e | binary op a b => rfl
  | nary op es | equation r a b | polynomial x e => exact h.elim

/-- The text of a stored side is split into its words, and they are read as a tree that is stored
with the same value. -/
structure Returns (limit : Int) (a : Expr Float) : Prop where
  scans {cs : List Char} {ls : List Lexeme} (hcs : Token.Stops cs) (h : Token.Scans cs ls) :
    Token.Scans (a.render.toList ++ cs) (written a ++ ls)
  reads : ∃ e b, Derives .additive (written a) e ∧ (tag limit e).outcome = .ok b ∧
    ∀ env, eval env b = eval env a ∧ evaluate env b = evaluate env a

theorem Raw.returns {limit : Int} {e : Expr Float} (h : Raw e) (hx : polynomialVariable? e = none)
    (hread : EveryNode Readable e) : Returns limit e where
  scans := scans_render hread
  reads := by
    have hderives := (derives_written hread).1
    rw [h.spelled.root] at hderives
    refine ⟨e, e, .term (.factor hderives), ?_, fun env => ⟨rfl, rfl⟩⟩
    rw [tag, hx]
    rfl

/-- A stored polynomial returns: what its text spells is either no polynomial and has its value,
or is simplified to it. -/
theorem Normal.returns {limit : Int} {e : Expr Float} (hnormal : Normal e) (hset : e.Settled)
    (hself : e.EveryConst fun v => (v == v) = true) (hread : EveryNode Readable e) (x : String) :
    Returns limit (.polynomial x e) where
  scans := scans_render hread
  reads := by
    have hderives : Derives .additive (written e) (spelled e) :=
      .term (.factor (derives_written hread).1)
    have hsimple : EveryNode (Simple Set.univ) (spelled e) :=
      simple_of_derives hderives fun _ _ => trivial
    have hvalue (env : Assignment Float) : evaluate env (spelled e) = evaluate env e := by
      have hroot : Simple Set.univ e := by
        have hroot := hread.root
        cases e with
        | nary op es | equation r a b | polynomial x e => exact hroot.elim
        | _ => trivial
      rw [evaluate_of_simple hsimple.root, evaluate_of_simple hroot, eval_spelled]
    cases hy : polynomialVariable? (spelled e) with
    | none =>
        refine ⟨spelled e, spelled e, hderives, ?_, fun env => ⟨eval_spelled env e, hvalue env⟩⟩
        rw [tag, hy]
        rfl
    | some y =>
        have htag {r : Expr Float} (hr : (Expr.simplify limit (spelled e)).outcome = .ok r) :
            (tag limit (spelled e)).outcome = .ok (.polynomial y r) := by
          rw [tag, hy]
          exact Run.outcome_bind.2 ⟨r, hr, rfl⟩
        obtain hr | hr := simplify_spelled hnormal hread hset hself hy
        · exact ⟨spelled e, .polynomial y e, hderives, htag hr, fun env => ⟨rfl, rfl⟩⟩
        · exact ⟨spelled e, .polynomial y (spelled e), hderives, htag hr,
            fun env => ⟨eval_spelled env e, hvalue env⟩⟩

/-- What is stored of a side that was read returns. -/
theorem returns_of_tag {limit : Int} {ls : List Lexeme} {e a : Expr Float}
    (h : Derives .additive ls e) (hname : ∀ x, .name x ∈ ls → Token.IsName x)
    (ha : (tag limit e).Completes a) (hconst : a.EveryConst Double.Plain)
    (hbase : EveryNode HasBase a) : Returns limit a := by
  have hraw := raw_of_derives h hname
  unfold tag at ha
  split at ha
  · rename_i x _
    obtain ⟨body, hbody, hpure⟩ := Run.completes_bind.1 ha
    obtain ⟨_, -, hbody⟩ := Run.completes_bind.1 hbody
    rw [Run.completes_pure] at hpure
    subst hpure
    have hkeep {P : Expr Float → Prop} (hP : Shape P) (he : P e) : P body := by
      obtain hr | ⟨-, hhit⟩ := hP.simplify (hP.unmarked he) hbody.1
      · exact hr
      · exact absurd hhit (by rw [hbody.2]; decide)
    have hsettled := hkeep shape_settled hraw.settled
    have hself : body.EveryConst fun v => (v == v) = true :=
      hconst.mono fun v hv => Double.beq_self_of_not_isNaN (Double.isNaN_eq_false hv.1)
    exact (normal_of_simplify hraw.settled hbody).returns hsettled hself
      (readable_of_simple (hkeep shallow_simple.shape hraw.simple) hsettled hconst
        (everyNode_polynomial.1 hbase).2) x
  · rename_i hx
    rw [Run.completes_pure] at ha
    subst ha
    exact hraw.returns hx (readable_of_simple hraw.simple hraw.settled hconst hbase)

section Parse

variable {α : Type} [Arithmetic α] {limit : Int} {text : String} {ls ls' : List Lexeme}

theorem parse_eq_sentence (limit : Int) (h : Token.Scans text.toList ls) :
    ∃ tokens : Tokens, tokens.list.map (·.lexeme) = ls ∧
      parse (α := α) limit text = Parser.sentence (tag limit) tokens := by
  obtain ⟨ts, hts, hls⟩ := h 0
  have htokens : Tokens.ofText text = .ok ⟨ts, text.length⟩ := bind_eq_ok.2 ⟨ts, hts, rfl⟩
  refine ⟨⟨ts, text.length⟩, hls, ?_⟩
  rw [parse, htokens]
  exact Run.lift_andThen _ _

theorem parse_eq_tag {e : Expr α} (h : Token.Scans text.toList ls) (he : Derives .additive ls e) :
    parse limit text = tag limit e := by
  obtain ⟨tokens, rfl, hparse⟩ := parse_eq_sentence (α := α) limit h
  rw [hparse, Parser.sentence_eq_tag he]

theorem parse_eq_equation {r : Relation} {spelledOut : Bool} {a b : Expr α}
    (h : Token.Scans text.toList (ls ++ .symbol (.relation r spelledOut) :: ls'))
    (ha : Derives .additive ls a) (hb : Derives .additive ls' b) :
    parse limit text = (do return .equation r (← tag limit a) (← tag limit b)) := by
  obtain ⟨tokens, hlexemes, hparse⟩ := parse_eq_sentence (α := α) limit h
  rw [hparse, Parser.sentence_eq_equation hlexemes ha hb]

end Parse

/-- Reading a text and printing what was read gives a text that is read again, with the same value
everywhere. The simplification of polynomials must not have been cut short, the constants must be
finite and written without an exponent, and no power may have a base whose text does not bind as
tightly: a negation or negative constant, an exponential, or the variable `e`. -/
theorem parse_render {limit : Int} {text : String} {n : Expr Float}
    (hn : (parse limit text).outcome = .ok n)
    (hbound : (parse limit text : Run (Expr Float)).hitBound = false)
    (hconst : n.EveryConst Double.Plain) (hbase : EveryNode HasBase n) :
    ∃ m, (parse limit n.render).outcome = .ok m ∧ ∀ env, m.evaluate env = n.evaluate env := by
  obtain ⟨tokens, htokens, hsentence⟩ := Run.completes_bind.1 ⟨hn, hbound⟩
  have hname : ∀ x, .name x ∈ tokens.list.map (·.lexeme) → Token.IsName x := by
    intro x hx
    obtain ⟨t, ht, hlexeme⟩ := List.mem_map.1 hx
    obtain ⟨list, hlist, htokens⟩ := bind_eq_ok.1 (Run.completes_lift.1 htokens)
    cases htokens
    exact Token.isName_of_scan hlist ht hlexeme
  have hstored := Parser.stored_of_sentence hsentence
  generalize tokens.list.map (·.lexeme) = ls at hname hstored
  cases hstored with
  | expression h htag =>
      have hreturns := returns_of_tag h hname htag hconst hbase
      obtain ⟨e, m, hderives, hm, hvalue⟩ := hreturns.reads
      have hscans := hreturns.scans Token.stops_nil Token.Scans.nil
      rw [List.append_nil, List.append_nil] at hscans
      exact ⟨m, parse_eq_tag hscans hderives ▸ hm, fun env => (hvalue env).2⟩
  | @equation ts us a a' b b' r spelledOut ha hatag hb hbtag =>
      obtain ⟨-, hbasea, hbaseb⟩ := everyNode_equation.1 hbase
      have hleft := returns_of_tag ha (fun x hx => hname x (List.mem_append_left _ hx))
        hatag hconst.1 hbasea
      have hright := returns_of_tag hb
        (fun x hx => hname x (List.mem_append_right _ (List.mem_cons_of_mem _ hx)))
        hbtag hconst.2 hbaseb
      obtain ⟨e, m, hderives, hm, hvalue⟩ := hleft.reads
      obtain ⟨e', m', hderives', hm', hvalue'⟩ := hright.reads
      have hscans : Token.Scans (equation r a' b').render.toList
          (written a' ++ .symbol (.relation r false) :: written b') := by
        have hback := scans_relation r (hright.scans Token.stops_nil Token.Scans.nil).blank
        simpa [render] using hleft.scans (Token.stops_cons.2 (by decide)) hback.blank
      rw [parse_eq_equation hscans hderives hderives', Run.outcome_bind_of_ok hm,
        Run.outcome_bind_of_ok hm']
      refine ⟨.equation r m m', rfl, fun env => ?_⟩
      rw [evaluate, evaluate, (hvalue env).1, (hvalue' env).1]

/-- In the text of a folded factor the constant is read as a negation, which makes no difference. -/
theorem parse_render_folded :
    ∃ n m : Expr Float, (parse 64 "x * (1 - 3) = |x - 0.5| ^ 2").outcome = .ok n ∧
      (parse 64 "(x * -2) = (|(x - 0.5)| ^ 2)").outcome = .ok m ∧
      ∀ env, m.evaluate env = n.evaluate env := by
  have hscans : Token.Scans "x * (1 - 3) = |x - 0.5| ^ 2".toList
      [.name "x", .symbol .times, .symbol .openParen, .number "1", .symbol .minus, .number "3",
        .symbol .closeParen, .symbol (.relation .eq false), .symbol .bar, .name "x", .symbol .minus,
        .number "0.5", .symbol .bar, .symbol .caret, .number "2"] :=
    fun _ => ⟨_, rfl, rfl⟩
  have hx : Derives .multiplicative [.name "x"] (.var "x" : Expr Float) :=
    .factor (.unsigned (.base (.name "x")))
  have hnumber (t : String) : Derives .unary [.number t] (Parser.constant t : Expr Float) :=
    .unsigned (.base (.number t))
  have hfactor := Derives.difference (.term (.factor (hnumber "1"))) (.factor (hnumber "3"))
  have hleft := Derives.term (.product hx (.unsigned (.base (.group hfactor))))
  have hbars := Derives.bars (.difference (.term hx) (.factor (hnumber "0.5")))
  have hpower := Derives.exponent hbars (by simp [apply]) (hnumber "2")
  have hright := Derives.term (.factor (.unsigned hpower))
  let n : Expr Float := .equation .eq
    (.polynomial "x" (.binary .mul (.var "x") (.const (-2))))
    (.binary .pow (.unary .abs (.binary .sub (.var "x") (.const 0.5))) (.const 2))
  have hn : (parse 64 "x * (1 - 3) = |x - 0.5| ^ 2").Completes n := by
    rw [parse_eq_equation hscans hleft hright]
    exact ⟨rfl, rfl⟩
  have hrender : n.render = "(x * -2) = (|(x - 0.5)| ^ 2)" := by decide +kernel
  have hplain : ∀ v ∈ [-2, 0.5, 2], Double.Plain v := by decide +kernel
  have hconst : n.EveryConst Double.Plain :=
    ⟨⟨trivial, hplain _ (by simp)⟩, ⟨trivial, hplain _ (by simp)⟩, hplain _ (by simp)⟩
  have hbase : EveryNode HasBase n := by
    simp [n, everyNode_equation, everyNode_polynomial, everyNode_binary, everyNode_unary,
      everyNode_const, everyNode_var, HasBase, IsBase]
  obtain ⟨m, hm, hvalue⟩ := parse_render hn.1 hn.2 hconst hbase
  exact ⟨n, m, hn.1, hrender ▸ hm, hvalue⟩

/-- A power of a negation is read again as the negation of a power, and a number that is written
with an exponent is not read again at all. -/
theorem parse_render_fails :
    (∃ n : Expr Float, (parse 64 "(-2) ^ 2").outcome = .ok n ∧
      n = .binary .pow (.unary .neg (.const 2)) (.const 2) ∧
      (parse 64 n.render).outcome =
        .ok (.unary .neg (.binary .pow (.const 2) (.const 2)) : Expr Float)) ∧
    ∃ n : Expr Float, (parse 64 "100000000000000000000").outcome = .ok n ∧
      ∀ m : Expr Float, (parse 64 n.render).outcome ≠ .ok m := by
  have htwo : Derives .primary [.number "2"] (.const 2 : Expr Float) := .number "2"
  have hexponent := Derives.unsigned (.base htwo)
  constructor
  · refine ⟨_, ?_, rfl, ?_⟩
    · have hscans : Token.Scans "(-2) ^ 2".toList [.symbol .openParen, .symbol .minus, .number "2",
          .symbol .closeParen, .symbol .caret, .number "2"] := fun _ => ⟨_, rfl, rfl⟩
      have hbase := Derives.group (.term (.factor (.negation hexponent)))
      have hpower := Derives.exponent hbase (by simp [negate, apply]) hexponent
      rw [parse_eq_tag hscans (.term (.factor (.unsigned hpower)))]
      rfl
    · have hrender : render (.binary .pow (.unary .neg (.const 2)) (.const (2 : Float))) =
          "(-2 ^ 2)" := by decide +kernel
      have hscans : Token.Scans "(-2 ^ 2)".toList [.symbol .openParen, .symbol .minus, .number "2",
          .symbol .caret, .number "2", .symbol .closeParen] := fun _ => ⟨_, rfl, rfl⟩
      have hpower := Derives.unsigned (.exponent htwo (by simp) hexponent)
      have hgroup := Derives.group (.term (.factor (.negation hpower)))
      rw [hrender, parse_eq_tag hscans (.term (.factor (.unsigned (.base hgroup))))]
      rfl
  · refine ⟨.const 100000000000000000000, ?_, fun m hm => ?_⟩
    · have hscans : Token.Scans "100000000000000000000".toList [.number "100000000000000000000"] :=
        fun _ => ⟨_, rfl, rfl⟩
      rw [parse_eq_tag hscans (.term (.factor (.unsigned (.base (.number _)))))]
      rfl
    · have hrender : render (.const (100000000000000000000 : Float)) = "1e+20" := by
        decide +kernel
      have hunread : (parse (α := Float) 64 "1e+20").outcome.isOk = false := by decide +kernel
      rw [← hrender] at hunread
      rw [hm] at hunread
      cases hunread

end Expr

end EquationEngine
