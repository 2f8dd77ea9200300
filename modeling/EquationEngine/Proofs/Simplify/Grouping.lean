import Mathlib
import EquationEngine.Proofs.Expr.Equality
import EquationEngine.Simplify.Collect

/-!
Terms put into groups.

Each split term belongs to a slot: that of a name, of a power of a name, of the constant, or of the
bodies that are none of these. The slots are ordered, and terms of one slot are alike, except that a
body of the last slot is alike only to bodies it equals. Entering the terms one after another into a
list of groups leaves each of them in exactly one group, where the terms stand in their order, and
the groups in the order of their slots, those of the last slot in the order of first appearance.
-/

namespace EquationEngine.Expr

/-! Slots. -/

/-- What the terms of a chain are gathered by. -/
inductive Slot where
  | name (x : String)
  | power (x text : String)
  | constant
  | other

namespace Slot

/-- The place of a slot in the order in which they are written. -/
def key : Slot → Nat ×ₗ String ×ₗ String
  | name x => toLex (0, toLex (x, ""))
  | power x text => toLex (1, toLex (x, text))
  | constant => toLex (2, toLex ("", ""))
  | other => toLex (3, toLex ("", ""))

theorem key_injective : Function.Injective key := by
  intro s t h
  cases s <;> cases t <;> simp_all [key]

instance : LinearOrder Slot := LinearOrder.lift' key key_injective

theorem name_lt_name {x y : String} : name x < name y ↔ x < y := by
  show key _ < key _ ↔ _
  simp [key, Prod.Lex.lt_iff]

theorem power_lt_power {x y v w : String} :
    power x v < power y w ↔ Tally.keyLess (x, v) (y, w) = true := by
  show key _ < key _ ↔ _
  simp [key, Prod.Lex.lt_iff, Tally.keyLess]

/-- Names come first, powers second, the constant third. -/
def rank (s : Slot) : Nat := (ofLex s.key).1

@[simp] theorem rank_name (x : String) : (name x).rank = 0 := rfl

@[simp] theorem rank_power (x text : String) : (power x text).rank = 1 := rfl

@[simp] theorem rank_constant : constant.rank = 2 := rfl

@[simp] theorem rank_other : other.rank = 3 := rfl

theorem rank_mono : Monotone rank := fun _ _ h => Prod.Lex.monotone_fst _ _ h

theorem le_other (s : Slot) : s ≤ other := by
  show key _ ≤ key _
  cases s <;> simp [key, Prod.Lex.le_iff]

theorem constant_lt_iff {s : Slot} : constant < s ↔ s = other := by
  show key _ < key _ ↔ _
  cases s <;> simp [key, Prod.Lex.lt_iff]

end Slot

variable {α : Type}

/-- Split terms that are summed up: the first of them and those that follow. -/
structure Group (α : Type) where
  first : α × Expr α
  rest : List (α × Expr α)

namespace Group

variable (g : Group α)

def body : Expr α := g.first.2

def members : List (α × Expr α) := g.first :: g.rest

/-- The group with one more term. -/
def push (p : α × Expr α) : Group α := ⟨g.first, g.rest ++ [p]⟩

@[simp] theorem body_push (p : α × Expr α) : (g.push p).body = g.body := rfl

@[simp] theorem first_push (p : α × Expr α) : (g.push p).first = g.first := rfl

@[simp] theorem members_push (p : α × Expr α) : (g.push p).members = g.members ++ [p] := rfl

end Group

variable [Arithmetic α]

/-! Likeness and order of bodies. -/

/-- The slot of a body. -/
def slot (body : Expr α) : Slot :=
  match constValue? body with
  | some _ => .constant
  | none =>
    match body with
    | var x => .name x
    | binary .pow (var x) e => .power x e.render
    | _ => .other

/-- Whether terms with these bodies are summed up. -/
def alike (a b : Expr α) : Bool := slot a = slot b && (slot a != .other || a == b)

theorem alike_iff {a b : Expr α} :
    alike a b = true ↔ slot a = slot b ∧ (slot a = .other → (a == b) = true) := by
  simp [alike, or_iff_not_imp_left]

/-- The body of a group is written in front of that of another. -/
def Precedes (a b : Expr α) : Prop :=
  slot a < slot b ∨ slot a = .other ∧ slot b = .other ∧ (a == b) = false

theorem Precedes.not_alike {a b : Expr α} (h : Precedes a b) : alike a b = false := by
  rw [← Bool.not_eq_true, alike_iff]
  rintro ⟨hslot, heq⟩
  obtain hlt | ⟨ha, -, hne⟩ := h
  · exact hlt.ne hslot
  · rw [heq ha] at hne
    cases hne

/-- Two bodies that are not alike stand in order, unless the second has an earlier slot. -/
theorem precedes_of_not_alike {a b : Expr α} (h : alike a b = false) (hlt : ¬slot b < slot a) :
    Precedes a b := by
  obtain hlt' | heq := lt_or_eq_of_le (not_lt.1 hlt)
  · exact .inl hlt'
  · rw [← Bool.not_eq_true, alike_iff] at h
    push Not at h
    obtain ⟨ha, hne⟩ := h heq
    exact .inr ⟨ha, heq ▸ ha, Bool.not_eq_true _ ▸ hne⟩

theorem Precedes.of_lt {a b c : Expr α} (h : slot a < slot b) (h' : Precedes b c) :
    slot a < slot c := by
  obtain hlt | ⟨-, hc, -⟩ := h'
  · exact h.trans hlt
  · exact h.trans_le (hc ▸ Slot.le_other _)

section Equivalence

variable [PartialEquivBEq α] {a b c : Expr α}

theorem alike_symm (h : alike a b = true) : alike b a = true := by
  obtain ⟨hslot, heq⟩ := alike_iff.1 h
  exact alike_iff.2 ⟨hslot.symm, fun hb => PartialEquivBEq.symm (heq (hslot.trans hb))⟩

theorem alike_eq_false_symm (h : alike a b = false) : alike b a = false := by
  rw [← Bool.not_eq_true] at h ⊢
  exact fun h' => h (alike_symm h')

theorem alike_trans (h : alike a b = true) (h' : alike b c = true) : alike a c = true := by
  obtain ⟨hslot, heq⟩ := alike_iff.1 h
  obtain ⟨hslot', heq'⟩ := alike_iff.1 h'
  exact alike_iff.2 ⟨hslot.trans hslot', fun ha =>
    PartialEquivBEq.trans (heq ha) (heq' (hslot ▸ ha))⟩

theorem alike_eq_false_trans (h : alike a b = true) (h' : alike a c = false) :
    alike b c = false := by
  rw [← Bool.not_eq_true] at h' ⊢
  exact fun hbc => h' (alike_trans h hbc)

end Equivalence

/-! Groups. -/

/-- A term entered into a list of groups. -/
def enter (p : α × Expr α) : List (Group α) → List (Group α)
  | [] => [⟨p, []⟩]
  | g :: gs =>
    if slot p.2 < slot g.body then ⟨p, []⟩ :: g :: gs
    else if alike g.body p.2 then g.push p :: gs
    else g :: enter p gs

/-- The groups of a list of terms. -/
def grouped (parts : List (α × Expr α)) : List (Group α) := parts.foldl (fun gs p => enter p gs) []

/-- A term joins the group it is alike to, or becomes a group of its own where the order of slots
puts it. -/
theorem enter_cases (p : α × Expr α) {gs : List (Group α)}
    (hgs : (gs.map Group.body).Pairwise Precedes) : ∃ l r, (∀ g ∈ l, Precedes g.body p.2) ∧
      ((∃ g, gs = l ++ g :: r ∧ alike g.body p.2 = true ∧ enter p gs = l ++ g.push p :: r) ∨
        gs = l ++ r ∧ (∀ g ∈ r, slot p.2 < slot g.body) ∧ enter p gs = l ++ ⟨p, []⟩ :: r) := by
  induction gs with
  | nil => exact ⟨[], [], by simp, .inr ⟨rfl, by simp, rfl⟩⟩
  | cons g gs ih =>
      rw [List.map_cons, List.pairwise_cons] at hgs
      obtain ⟨hg, hgs⟩ := hgs
      by_cases hlt : slot p.2 < slot g.body
      · refine ⟨[], g :: gs, by simp, .inr ⟨rfl, ?_, if_pos hlt⟩⟩
        rw [List.forall_mem_cons]
        exact ⟨hlt, fun g' hg' => Precedes.of_lt hlt (hg _ (List.mem_map_of_mem hg'))⟩
      · by_cases halike : alike g.body p.2 = true
        · refine ⟨[], gs, by simp, .inl ⟨g, rfl, halike, ?_⟩⟩
          rw [enter, if_neg hlt, if_pos halike, List.nil_append]
        · have henter : enter p (g :: gs) = g :: enter p gs := by
            rw [enter, if_neg hlt, if_neg halike]
          obtain ⟨l, r, hl, hcases⟩ := ih hgs
          refine ⟨g :: l, r, List.forall_mem_cons.2 ⟨?_, hl⟩, ?_⟩
          · exact precedes_of_not_alike (Bool.not_eq_true _ ▸ halike) hlt
          · obtain ⟨g', rfl, halike', hr⟩ | ⟨rfl, hlater, hr⟩ := hcases
            · exact .inl ⟨g', rfl, halike', by rw [henter, hr, List.cons_append]⟩
            · exact .inr ⟨rfl, hlater, by rw [henter, hr, List.cons_append]⟩

/-- A group begins with the first term alike to it, and all later such terms follow in order. -/
def Group.Exact (parts : List (α × Expr α)) (g : Group α) : Prop :=
  ∃ before after, parts = before ++ g.first :: after ∧
    (∀ p ∈ before, alike p.2 g.body = false) ∧ g.rest = after.filter fun p => alike g.body p.2

/-- One term stands in front of another, and neither has a term alike to it in front of it. -/
def AppearsBefore (parts : List (α × Expr α)) (p q : α × Expr α) : Prop :=
  ∃ before mid after, parts = before ++ p :: mid ++ q :: after ∧
    (∀ t ∈ before, alike t.2 p.2 = false) ∧ ∀ t ∈ before ++ p :: mid, alike t.2 q.2 = false

/-- The terms put into groups: each term is in exactly one group, a group holds the terms alike to
its first one, and groups stand in the order of their slots, those of the last slot in the order in
which they first appear among the terms. -/
structure Grouping (parts : List (α × Expr α)) (groups : List (Group α)) : Prop where
  perm : (groups.flatMap Group.members).Perm parts
  exact : ∀ g ∈ groups, g.Exact parts
  ordered : (groups.map Group.body).Pairwise Precedes
  appearance : ((groups.map Group.first).filter fun p => slot p.2 = .other).Pairwise
    (AppearsBefore parts)

section Exact

variable {parts : List (α × Expr α)} {g : Group α} {p : α × Expr α}

theorem Group.Exact.alike_of_mem (h : g.Exact parts) (hp : p ∈ g.rest) :
    alike g.body p.2 = true := by
  obtain ⟨before, after, -, -, hrest⟩ := h
  rw [hrest] at hp
  exact (List.mem_filter.1 hp).2

theorem Group.Exact.push (h : g.Exact parts) (hp : alike g.body p.2 = true) :
    (g.push p).Exact (parts ++ [p]) := by
  obtain ⟨before, after, rfl, hbefore, hrest⟩ := h
  refine ⟨before, after ++ [p], by simp, hbefore, ?_⟩
  rw [List.filter_append, List.filter_singleton, body_push, hp, Group.push, hrest]
  rfl

theorem Group.Exact.pass (h : g.Exact parts) (hp : alike g.body p.2 = false) :
    g.Exact (parts ++ [p]) := by
  obtain ⟨before, after, rfl, hbefore, hrest⟩ := h
  refine ⟨before, after ++ [p], by simp, hbefore, ?_⟩
  rw [List.filter_append, List.filter_singleton, hp, hrest]
  simp

theorem exact_singleton (h : ∀ q ∈ parts, alike q.2 p.2 = false) :
    Group.Exact (parts ++ [p]) ⟨p, []⟩ :=
  ⟨parts, [], rfl, h, rfl⟩

theorem AppearsBefore.append {q : α × Expr α} (h : AppearsBefore parts p q) (t : α × Expr α) :
    AppearsBefore (parts ++ [t]) p q := by
  obtain ⟨before, mid, after, rfl, hp, hq⟩ := h
  exact ⟨before, mid, after ++ [t], by simp, hp, hq⟩

/-- The first term of a group appears before a term that nothing in front of it is alike to. -/
theorem Group.Exact.appearsBefore (h : g.Exact parts)
    (hnew : ∀ q ∈ parts, alike q.2 p.2 = false) :
    AppearsBefore (parts ++ [p]) g.first p := by
  obtain ⟨before, after, rfl, hbefore, -⟩ := h
  exact ⟨before, after, [], rfl, hbefore, hnew⟩

end Exact

theorem Grouping.first_mem {parts : List (α × Expr α)} {groups : List (Group α)}
    (h : Grouping parts groups) {g : Group α} (hg : g ∈ groups) : g.first ∈ parts :=
  h.perm.mem_iff.1 (List.mem_flatMap.2 ⟨g, hg, List.mem_cons_self ..⟩)

theorem grouping_nil : Grouping ([] : List (α × Expr α)) [] where
  perm := .nil
  exact _ hg := by cases hg
  ordered := .nil
  appearance := .nil

section Step

variable [PartialEquivBEq α] {parts : List (α × Expr α)} {p : α × Expr α} {l r : List (Group α)}

/-- A term that joins a group keeps the terms grouped. -/
theorem Grouping.join {g : Group α} (h : Grouping parts (l ++ g :: r))
    (hp : alike g.body p.2 = true) : Grouping (parts ++ [p]) (l ++ g.push p :: r) := by
  have hordered := h.ordered
  have hexact := h.exact
  rw [List.map_append, List.map_cons, List.pairwise_append, List.pairwise_cons] at hordered
  obtain ⟨-, ⟨hr, -⟩, hl⟩ := hordered
  rw [List.forall_mem_append, List.forall_mem_cons] at hexact
  obtain ⟨hexactl, hexactg, hexactr⟩ := hexact
  have hpass : ∀ b, alike g.body b = false → alike b p.2 = false := fun b hb =>
    alike_eq_false_symm (alike_eq_false_trans hp hb)
  refine ⟨?_, ?_, ?_, ?_⟩
  · have hperm := h.perm
    simp only [List.flatMap_append, List.flatMap_cons, Group.members_push, List.append_assoc]
      at hperm ⊢
    refine .trans ?_ (hperm.append_right [p])
    simp only [List.append_assoc]
    exact (List.perm_append_comm.append_left _).append_left _
  · rw [List.forall_mem_append, List.forall_mem_cons]
    refine ⟨fun g' hg' => (hexactl g' hg').pass (hpass _ (alike_eq_false_symm ?_)),
      hexactg.push hp, fun g' hg' => (hexactr g' hg').pass (hpass _ ?_)⟩
    · exact (hl _ (List.mem_map_of_mem hg') _ (List.mem_cons_self ..)).not_alike
    · exact (hr _ (List.mem_map_of_mem hg')).not_alike
  · have hordered := h.ordered
    rwa [List.map_append, List.map_cons] at hordered ⊢
  · have happearance := h.appearance
    rw [List.map_append, List.map_cons] at happearance ⊢
    exact happearance.imp fun hfirst => hfirst.append p

/-- A term that is alike to no group keeps the terms grouped as a group of its own. -/
theorem Grouping.insert (h : Grouping parts (l ++ r)) (hl : ∀ g ∈ l, Precedes g.body p.2)
    (hr : ∀ g ∈ r, slot p.2 < slot g.body) : Grouping (parts ++ [p]) (l ++ ⟨p, []⟩ :: r) := by
  have hne : ∀ g ∈ l ++ r, alike g.body p.2 = false := by
    rw [List.forall_mem_append]
    refine ⟨fun g hg => (hl g hg).not_alike, fun g hg => ?_⟩
    rw [← Bool.not_eq_true, alike_iff]
    exact fun halike => (hr g hg).ne' halike.1
  -- every earlier term is alike to the first one of its group, so none is alike to the new one
  have hpart : ∀ q ∈ parts, alike q.2 p.2 = false := by
    intro q hq
    obtain ⟨g, hg, hqg⟩ := List.mem_flatMap.1 (h.perm.mem_iff.2 hq)
    obtain rfl | hqg := List.mem_cons.1 hqg
    · exact hne g hg
    · exact alike_eq_false_trans ((h.exact g hg).alike_of_mem hqg) (hne g hg)
  refine ⟨?_, ?_, ?_, ?_⟩
  · have hperm := h.perm
    simp only [List.flatMap_append, List.flatMap_cons] at hperm ⊢
    refine .trans ?_ (hperm.append_right [p])
    simp only [List.append_assoc]
    exact List.perm_append_comm.append_left _
  · have hexact : ∀ g ∈ l ++ r, g.Exact (parts ++ [p]) := fun g hg =>
      (h.exact g hg).pass (hne g hg)
    rw [List.forall_mem_append] at hexact
    rw [List.forall_mem_append, List.forall_mem_cons]
    exact ⟨hexact.1, exact_singleton hpart, hexact.2⟩
  · have hordered := h.ordered
    rw [List.map_append, List.pairwise_append] at hordered
    obtain ⟨hordl, hordr, hcross⟩ := hordered
    rw [List.map_append, List.map_cons, List.pairwise_append, List.pairwise_cons]
    refine ⟨hordl, ⟨List.forall_mem_map.2 fun g hg => .inl (hr g hg), hordr⟩, ?_⟩
    refine List.forall_mem_map.2 fun g hg => List.forall_mem_cons.2 ⟨hl g hg, hcross _ ?_⟩
    exact List.mem_map_of_mem hg
  · have happearance := h.appearance
    rw [List.map_append, List.filter_append] at happearance
    rw [List.map_append, List.map_cons, List.filter_append]
    by_cases hp : slot p.2 = .other
    · -- nothing is written behind the bodies of the last slot
      have hnil : r = [] := List.eq_nil_iff_forall_not_mem.2 fun g hg =>
        (hp ▸ hr g hg).not_ge (Slot.le_other _)
      subst hnil
      rw [List.map_nil, List.filter_nil, List.append_nil] at happearance
      rw [List.map_nil, List.filter_cons_of_pos (by simpa using hp), List.filter_nil,
        List.pairwise_append]
      refine ⟨happearance.imp fun hfirst => hfirst.append p, List.pairwise_singleton .., ?_⟩
      intro q hq t ht
      obtain rfl := List.mem_singleton.1 ht
      obtain ⟨g, hg, rfl⟩ := List.mem_map.1 (List.mem_of_mem_filter hq)
      exact (h.exact g (by simpa using hg)).appearsBefore hpart
    · rw [List.filter_cons_of_neg (by simpa using hp)]
      exact happearance.imp fun hfirst => hfirst.append p

theorem Grouping.enter {gs : List (Group α)} (h : Grouping parts gs) (p : α × Expr α) :
    Grouping (parts ++ [p]) (enter p gs) := by
  obtain ⟨l, r, hl, ⟨g, rfl, hp, henter⟩ | ⟨rfl, hr, henter⟩⟩ := enter_cases p h.ordered
  · rw [henter]
    exact h.join hp
  · rw [henter]
    exact h.insert hl hr

end Step

/-- Any list of terms is put into groups. -/
theorem grouping_grouped [PartialEquivBEq α] (parts : List (α × Expr α)) :
    Grouping parts (grouped parts) := by
  induction parts using List.reverseRecOn with
  | nil => exact grouping_nil
  | append_singleton parts p ih =>
      rw [grouped, List.foldl_concat]
      exact ih.enter p

end EquationEngine.Expr
