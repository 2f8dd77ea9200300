import EquationEngine.Proofs.Expr.Parser
import EquationEngine.Proofs.Simplify.Errors
import EquationEngine.Proofs.Token.Splitting

/-!
Errors of wording name the first token that cannot follow.

Since no reader looks further than the token at which it stops, an error is shared by every input
that begins with the tokens up to the one it names, and no such input is written for anything. The
tokens in front of that one can be completed to a whole input. Marks play no part in this: what they
may end with is no error of wording.
-/

namespace EquationEngine

/-- The positions of all tokens, and that of the end. -/
def Tokens.places (tokens : Tokens) : List Nat :=
  tokens.list.map (·.position) ++ [tokens.stop]

/-- The tokens of a text have different positions. -/
theorem Tokens.nodup_places {text : String} {tokens : Tokens}
    (h : Tokens.ofText text = .ok tokens) : tokens.places.Nodup := by
  obtain ⟨ts, hts, h⟩ := bind_eq_ok.1 h
  cases h
  have hpairwise := (Token.splits_of_scan hts).increasing
  rw [String.length_toList] at hpairwise
  exact hpairwise.imp Nat.ne_of_lt

namespace Parser

open Grammar

variable {α : Type} [Arithmetic α] {stop : Nat}

/-- A list of lexemes can be completed to a whole input. -/
def BeginsSentence (α : Type) [Arithmetic α] (ls : List Lexeme) : Prop :=
  ∃ (ls' : List Lexeme) (e : Expr α), ls <+: ls' ∧ Sentence ls' e

theorem beginsSentence_of_equation {before ls : List Lexeme} {a : Expr α} (r : Relation)
    (spelledOut : Bool) (ha : Derives .additive before a) (h : Begins α .additive ls) :
    BeginsSentence α (before ++ .symbol (.relation r spelledOut) :: ls) := by
  obtain ⟨ls', b, hstart, hb⟩ := h
  refine ⟨_, .equation r a b, ?_, .equation r spelledOut ha hb⟩
  exact (List.prefix_append_right_inj before).2 (List.cons_prefix_cons.2 ⟨rfl, hstart⟩)

omit [Arithmetic α] in
theorem finish_congr {e : Expr α} {us ts : List Token} (h : us.head? = ts.head?) :
    finish stop e us = finish stop e ts := by
  cases us <;> cases ts <;> cases h <;> rfl

omit [Arithmetic α] in
theorem blames_finish {viable : List Lexeme → Prop} {e : Expr α} (rest : List Token)
    (h : viable []) : Blames stop viable (finish stop e) rest := by
  intro err herr
  have hsettles : Settles (finish stop e) [] rest fun _ => .error err :=
    fun us hus => (finish_congr hus).trans herr
  refine ⟨[], rest, rfl, ?_, ?_, fun _ => ⟨h, hsettles⟩⟩
  all_goals
    unfold finish at herr
    split at herr <;> cases herr
    rfl

theorem blames_sentenceFrom {before : List Lexeme} {a : Expr α} (rest : List Token)
    (ha : Derives .additive before a) :
    Blames stop (fun ls => BeginsSentence α (before ++ ls)) (sentenceFrom stop a) rest := by
  by_cases hrelation : ∃ r spelledOut p us,
      rest = ⟨.symbol (.relation r spelledOut), p⟩ :: us
  · obtain ⟨r, spelledOut, p, us, rfl⟩ := hrelation
    have hbegins {ls : List Lexeme} (h : Begins α .additive ls) :
        BeginsSentence α (before ++ .symbol (.relation r spelledOut) :: ls) :=
      beginsSentence_of_equation r spelledOut ha h
    cases us with
    | nil =>
        -- a relation at the very end is the last word read, and any side may follow it
        intro err herr
        cases herr
        refine ⟨[⟨.symbol (.relation r spelledOut), p⟩], [], rfl, rfl, rfl,
          fun _ => ⟨hbegins (begins_name .additive), fun us hus => ?_⟩⟩
        rw [eq_nil_of_head? hus]
        rfl
    | cons t us =>
        refine .bind [⟨.symbol (.relation r spelledOut), p⟩]
          (fun b => finish stop (.equation r a b)) (local_additive (t :: us))
          (fun vs hvs => ?_) (fun ls hls => hbegins hls) fun b front rest _ hb => ?_
        · obtain ⟨vs, rfl⟩ := eq_cons_of_head? hvs
          rfl
        · refine blames_finish rest ?_
          rw [List.append_nil]
          exact ⟨_, .equation r a b, List.prefix_refl _, .equation r spelledOut ha hb⟩
  · have hfinish (us : List Token) (hus : us.head? = rest.head?) :
        sentenceFrom stop a us = finish stop a us := by
      rw [sentenceFrom]
      rintro r spelledOut p vs rfl
      obtain ⟨us, rfl⟩ := eq_cons_of_head? hus.symm
      exact hrelation ⟨r, spelledOut, p, us, rfl⟩
    have hbegins : BeginsSentence α (before ++ []) := by
      rw [List.append_nil]
      exact ⟨before, a, List.prefix_refl before, .expression ha⟩
    exact (blames_finish rest hbegins).congr hfinish

theorem blames_sentence (ts : List Token) :
    Blames stop (BeginsSentence α)
      (fun us => plain (additive (α := α) stop us) >>= fun p => sentenceFrom stop p.1 p.2) ts := by
  refine .bind [] (sentenceFrom stop) (local_additive ts) (fun us _ => rfl) ?_
    fun e front rest _ h => blames_sentenceFrom rest h
  rintro ls ⟨ls', e, hstart, hderives⟩
  exact ⟨ls', e, hstart, .expression hderives⟩

/-- A refusal that no tag makes is the same without tags. -/
theorem sentence_error_of_tag {tag : Expr α → Run (Expr α)} {tokens : Tokens} {err : Error}
    (h : (sentence tag tokens).outcome = .error err) (htag : ∀ e, (tag e).outcome ≠ .error err) :
    (sentence (α := α) pure tokens).outcome = .error err := by
  have hfinish {stop : Nat} {e e' : Expr α} {rest : List Token}
      (h : finish stop e rest = .error err) : finish stop e' rest = .error err := by
    unfold finish at h ⊢
    split_ifs at h ⊢
    exact h
  unfold sentence at h ⊢
  obtain h | ⟨left, hleft, h⟩ := Run.outcome_bind_error.1 h
  · exact Run.outcome_bind_error.2 (.inl h)
  rw [Run.outcome_bind_of_ok hleft, Run.outcome_bind_of_ok rfl]
  obtain h | ⟨a, -, h⟩ := Run.outcome_bind_error.1 h
  · exact absurd h (htag _)
  generalize left.rest = rest at h ⊢
  split at h
  · split_ifs at h ⊢
    · exact h
    · obtain h | ⟨right, hright, h⟩ := Run.outcome_bind_error.1 h
      · exact Run.outcome_bind_error.2 (.inl h)
      rw [Run.outcome_bind_of_ok hright, Run.outcome_bind_of_ok rfl]
      obtain h | ⟨b, -, h⟩ := Run.outcome_bind_error.1 h
      · exact absurd h (htag _)
      · exact hfinish h
  · exact hfinish h

/-- The first `i` lexemes can be completed to a whole input, and together with the next one, or the
end, they cannot. -/
structure FirstImpossible (α : Type) [Arithmetic α] (ls : List Lexeme) (i : Nat) : Prop where
  within : i ≤ ls.length
  viable : ∃ (more : List Lexeme) (e : Expr α), Sentence (ls.take i ++ more) e
  blocked : i < ls.length → ∀ (more : List Lexeme) (e : Expr α),
    ¬Sentence (ls.take (i + 1) ++ more) e
  unfinished : i = ls.length → ∀ e : Expr α, ¬Sentence ls e

theorem firstImpossible_of_settles {front rest : List Token} {err : Error}
    (hbegins : BeginsSentence α (front.map (·.lexeme)))
    (hsettles : Settles
      (fun us => plain (additive (α := α) stop us) >>= fun p => sentenceFrom stop p.1 p.2)
      front rest fun _ => .error err) :
    FirstImpossible α ((front ++ rest).map (·.lexeme)) front.length := by
  have hno (us : List Token) (hus : us.head? = rest.head?) (e : Expr α) :
      ¬Sentence ((front ++ us).map (·.lexeme)) e := by
    intro h
    have hok : (sentence pure ⟨front ++ us, stop⟩).outcome = .ok e := sentence_of_derived h
    rw [outcome_sentence] at hok
    exact nomatch hok.symm.trans (hsettles us hus)
  have htake : ((front ++ rest).map (·.lexeme)).take front.length = front.map (·.lexeme) := by
    rw [List.map_append, List.take_left' (List.length_map _)]
  refine ⟨by simp, ?_, fun hlt more e h => ?_, fun _ => hno rest rfl⟩
  · obtain ⟨_, e, ⟨more, rfl⟩, h⟩ := hbegins
    exact ⟨more, e, htake ▸ h⟩
  · cases rest with
    | nil => simp at hlt
    | cons t rest =>
        refine hno (t :: more.map fun l => ⟨l, 0⟩) rfl e ?_
        rw [← List.take_append_getElem hlt, htake] at h
        simpa [Function.comp_def] using h

theorem wording_of_tag {limit : Int} {e : Expr α} {err : Error}
    (h : (Expr.tag limit e).outcome = .error err) : err.family ≠ .wording := by
  unfold Expr.tag at h
  split at h
  · obtain h | ⟨_, _, h⟩ := Run.outcome_bind_error.1 h
    · cases (Expr.simplifyConfigured_error h).2 <;> decide
    · cases h
  · cases h

/-- Errors of wording point at the first token that cannot follow. Apart from the report of an
unknown function, such an error is at a token, or the end, in front of which the tokens can be
completed to a whole input; together with that token they cannot be, and for the end they are no
whole input themselves. Where tokens have different positions the error is at no other. -/
theorem sentence_blames_first_impossible (limit : Int) (tokens : Tokens) {err : Error}
    (h : (sentence (α := α) (Expr.tag limit) tokens).outcome = .error err)
    (hfamily : err.family = .wording) (hknown : ∀ name p, err ≠ .unknownFunction name p) :
    ∃ i, tokens.places[i]? = err.position? ∧
      FirstImpossible α (tokens.list.map (·.lexeme)) i ∧
      (tokens.places.Nodup → ∀ j, tokens.places[j]? = err.position? → j = i) := by
  have hplain := sentence_error_of_tag h fun e he => wording_of_tag he hfamily
  rw [outcome_sentence] at hplain
  obtain ⟨front, rest, hts, hrefusal⟩ := blames_sentence tokens.list err hplain
  have hplace : tokens.places[front.length]? = err.position? := by
    rw [hrefusal.position, Tokens.places, hts]
    cases rest <;> simp [here]
  refine ⟨front.length, hplace, ?_, fun hnodup j hj => ?_⟩
  · rw [hts]
    obtain ⟨hbegins, hsettles⟩ := hrefusal.first hknown
    exact firstImpossible_of_settles hbegins hsettles
  · have hlt : front.length < tokens.places.length := by
      rw [Tokens.places, hts]
      simp
    exact ((List.getElem?_inj hlt hnodup).1 (hplace.trans hj.symm)).symm

/-- In `|x - )` the first three tokens can be completed, but not with the parenthesis behind them.
-/
theorem sentence_blames_first_impossible_bar :
    let tokens : Tokens := ⟨[⟨.symbol .bar, 0⟩, ⟨.name "x", 1⟩, ⟨.symbol .minus, 3⟩,
      ⟨.symbol .closeParen, 5⟩], 6⟩
    (sentence (α := Float) (Expr.tag 64) tokens).outcome =
        .error (.unexpectedToken (some ")") 5) ∧
      FirstImpossible Float (tokens.list.map (·.lexeme)) 3 := by
  intro tokens
  have htext : Tokens.ofText "|x - )" = .ok tokens := rfl
  have herror : (sentence (α := Float) (Expr.tag 64) tokens).outcome =
      .error (.unexpectedToken (some ")") 5) := by
    with_unfolding_all rfl
  obtain ⟨i, -, hfirst, honly⟩ := sentence_blames_first_impossible 64 tokens herror rfl nofun
  obtain rfl : 3 = i := honly (Tokens.nodup_places htext) 3 rfl
  exact ⟨herror, hfirst⟩

end Parser

end EquationEngine
