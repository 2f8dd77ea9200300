import EquationEngine.Proofs.Simplify.Grouping

/-!
The tally of a chain as the sums of its groups.

The tally keeps four accumulators with keys of their own. Together they hold one sum for each group
of terms, and the items they are written as are the items of the groups in their order.
-/

namespace EquationEngine.Expr

open Arithmetic

variable {α : Type} [Arithmetic α]

/-! Bodies of each slot. -/

theorem slot_eq_name {body : Expr α} {x : String} : slot body = .name x ↔ body = var x := by
  refine ⟨fun h => ?_, by rintro rfl; rfl⟩
  unfold slot at h
  split at h
  · cases h
  · split at h <;> cases h
    rfl

theorem slot_eq_power {body : Expr α} {x text : String} :
    slot body = .power x text ↔ ∃ e, body = binary .pow (var x) e ∧ e.render = text := by
  refine ⟨fun h => ?_, by rintro ⟨e, rfl, rfl⟩; rfl⟩
  unfold slot at h
  split at h
  · cases h
  · split at h <;> cases h
    exact ⟨_, rfl, rfl⟩

theorem slot_eq_constant {body : Expr α} :
    slot body = .constant ↔ ∃ v, constValue? body = some v := by
  refine ⟨fun h => ?_, fun ⟨v, hv⟩ => by unfold slot; rw [hv]⟩
  unfold slot at h
  split at h
  · exact ⟨_, ‹_›⟩
  · split at h <;> cases h

/-- The operand on the right of a body. -/
def exponent : Expr α → Expr α
  | binary _ _ e => e
  | e => e

/-- What a term adds to the sum of its group. -/
def amount (p : α × Expr α) : α :=
  match constValue? p.2 with
  | some v => p.1 * v
  | none => p.1

/-- An amount is added in the accumulator of its slot. -/
theorem Tally.add_eq (t : Tally α) (p : α × Expr α) : t.add p.1 p.2 =
    match slot p.2 with
    | .name x => { t with linear := addLinear x (amount p) t.linear }
    | .power x text => { t with powers := addPower (x, text) (amount p) (exponent p.2) t.powers }
    | .constant => { t with constant := t.constant + amount p }
    | .other => { t with others := addOther p.2 (amount p) t.others } := by
  obtain ⟨c, body⟩ := p
  unfold add slot amount
  cases hv : constValue? body with
  | some v => rfl
  | none =>
      cases body with
      | binary op a b =>
          cases op with
          | pow => cases a <;> rfl
          | _ => rfl
      | _ => rfl

/-! The accumulators. -/

namespace Tally

theorem addLinear_append {x : String} {c : α} {l r : List (String × α)} (h : ∀ q ∈ l, q.1 < x) :
    addLinear x c (l ++ r) = l ++ addLinear x c r := by
  induction l with
  | nil => rfl
  | cons q l ih =>
      rw [List.forall_mem_cons] at h
      rw [List.cons_append, addLinear, if_neg h.1.not_gt, if_neg h.1.ne', ih h.2, List.cons_append]

theorem addLinear_of_lt {x : String} {c : α} {r : List (String × α)} (h : ∀ q ∈ r, x < q.1) :
    addLinear x c r = (x, c) :: r := by
  cases r with
  | nil => rfl
  | cons q r => rw [addLinear, if_pos (h q (List.mem_cons_self ..))]

theorem keyLess_irrefl (k : String × String) : keyLess k k = false := by
  rw [← Bool.not_eq_true, ← Slot.power_lt_power]
  exact lt_irrefl _

theorem addPower_append {k : String × String} {c : α} {e : Expr α}
    {l r : List ((String × String) × α × Expr α)} (h : ∀ q ∈ l, keyLess q.1 k = true) :
    addPower k c e (l ++ r) = l ++ addPower k c e r := by
  induction l with
  | nil => rfl
  | cons q l ih =>
      rw [List.forall_mem_cons, ← Slot.power_lt_power] at h
      have hless : ¬keyLess k q.1 = true := by
        rw [← Slot.power_lt_power]
        exact h.1.not_gt
      have hne : k ≠ q.1 := by
        rintro rfl
        exact lt_irrefl _ h.1
      rw [List.cons_append, addPower, if_neg hless, if_neg hne, ih h.2, List.cons_append]

theorem addPower_of_lt {k : String × String} {c : α} {e : Expr α}
    {r : List ((String × String) × α × Expr α)} (h : ∀ q ∈ r, keyLess k q.1 = true) :
    addPower k c e r = (k, c, e) :: r := by
  cases r with
  | nil => rfl
  | cons q r => rw [addPower, if_pos (h q (List.mem_cons_self ..))]

theorem addOther_append {body : Expr α} {c : α} {l r : List (Expr α × α)}
    (h : ∀ q ∈ l, (q.1 == body) = false) : addOther body c (l ++ r) = l ++ addOther body c r := by
  induction l with
  | nil => rfl
  | cons q l ih =>
      rw [List.forall_mem_cons] at h
      rw [List.cons_append, addOther, h.1, if_neg Bool.false_ne_true, ih h.2, List.cons_append]

end Tally

/-! Sums of groups. -/

namespace Group

variable (g : Group α)

/-- The sum of a group from left to right; that of the constants starts from zero. -/
def total : α :=
  if slot g.body = .constant then g.members.foldl (fun s p => s + amount p) zero
  else g.rest.foldl (fun s p => s + amount p) (amount g.first)

theorem total_push (p : α × Expr α) : (g.push p).total = g.total + amount p := by
  rw [total, total, body_push, members_push]
  split_ifs <;> simp [push]

theorem total_single {p : α × Expr α} (h : slot p.2 ≠ .constant) :
    (⟨p, []⟩ : Group α).total = amount p := if_neg h

theorem total_single_constant {p : α × Expr α} (h : slot p.2 = .constant) :
    (⟨p, []⟩ : Group α).total = zero + amount p := if_pos h

/-- The entry of a group of variables. -/
def linear? : Option (String × α) :=
  match slot g.body with
  | .name x => some (x, g.total)
  | _ => none

/-- The entry of a group of powers. -/
def power? : Option ((String × String) × α × Expr α) :=
  match slot g.body with
  | .power x text => some ((x, text), g.total, exponent g.body)
  | _ => none

/-- The sum of the group of constants. -/
def constant? : Option α :=
  match slot g.body with
  | .constant => some g.total
  | _ => none

/-- The entry of a group of other bodies. -/
def other? : Option (Expr α × α) :=
  match slot g.body with
  | .other => some (g.body, g.total)
  | _ => none

end Group

/-- The sum of the group of constants, or zero if there is none. -/
def constantSum (groups : List (Group α)) : α :=
  (groups.filterMap Group.constant?).head?.getD zero

/-- The sums of a list of groups. -/
def sums (groups : List (Group α)) : Tally α where
  linear := groups.filterMap Group.linear?
  powers := groups.filterMap Group.power?
  constant := constantSum groups
  others := groups.filterMap Group.other?

/-- Entering a term leaves alone the entries of groups with another slot. -/
theorem filterMap_enter {β : Type} {f : Group α → Option β} {p : α × Expr α}
    (h : ∀ g b, f g = some b → slot g.body ≠ slot p.2) (groups : List (Group α)) :
    (enter p groups).filterMap f = groups.filterMap f := by
  have hnone : ∀ g, slot g.body = slot p.2 → f g = none := fun g hg =>
    Option.eq_none_iff_forall_ne_some.2 fun b hb => h g b hb hg
  fun_induction enter p groups with
  | case1 => rw [List.filterMap_cons_none (hnone _ rfl)]
  | case2 => rw [List.filterMap_cons_none (hnone _ rfl)]
  | case3 g gs _ halike =>
      have hslot := (alike_iff.1 halike).1
      rw [List.filterMap_cons_none (hnone (g.push p) hslot),
        List.filterMap_cons_none (hnone g hslot)]
  | case4 g gs _ _ ih => rw [List.filterMap_cons, ih, List.filterMap_cons]

/-! Entries of each accumulator. -/

section Entries

variable {g : Group α} {p : α × Expr α} {l groups : List (Group α)} {x text : String}

theorem linear?_eq_some {q : String × α} :
    g.linear? = some q ↔ slot g.body = .name q.1 ∧ q.2 = g.total := by
  unfold Group.linear?
  cases slot g.body <;> simp [Prod.ext_iff, eq_comm]

theorem power?_eq_some {q : (String × String) × α × Expr α} : g.power? = some q ↔
    slot g.body = .power q.1.1 q.1.2 ∧ q.2 = (g.total, exponent g.body) := by
  unfold Group.power?
  cases slot g.body <;> simp [Prod.ext_iff, and_assoc, eq_comm]

theorem constant?_eq_some {c : α} :
    g.constant? = some c ↔ slot g.body = .constant ∧ c = g.total := by
  unfold Group.constant?
  cases slot g.body <;> simp [eq_comm]

theorem other?_eq_some {q : Expr α × α} :
    g.other? = some q ↔ slot g.body = .other ∧ q = (g.body, g.total) := by
  unfold Group.other?
  cases slot g.body <;> simp [eq_comm]

theorem lt_of_mem_linear (hl : ∀ g ∈ l, Precedes g.body p.2) (hp : slot p.2 = .name x)
    {q : String × α} (hq : q ∈ l.filterMap Group.linear?) : q.1 < x := by
  obtain ⟨g, hg, hgq⟩ := List.mem_filterMap.1 hq
  obtain hlt | ⟨-, hother, -⟩ := hl g hg
  · rwa [(linear?_eq_some.1 hgq).1, hp, Slot.name_lt_name] at hlt
  · rw [hp] at hother
    cases hother

theorem keyLess_of_mem_powers (hl : ∀ g ∈ l, Precedes g.body p.2) (hp : slot p.2 = .power x text)
    {q : (String × String) × α × Expr α} (hq : q ∈ l.filterMap Group.power?) :
    Tally.keyLess q.1 (x, text) = true := by
  obtain ⟨g, hg, hgq⟩ := List.mem_filterMap.1 hq
  obtain hlt | ⟨-, hother, -⟩ := hl g hg
  · rwa [(power?_eq_some.1 hgq).1, hp, Slot.power_lt_power] at hlt
  · rw [hp] at hother
    cases hother

theorem beq_of_mem_others (hl : ∀ g ∈ l, Precedes g.body p.2) {q : Expr α × α}
    (hq : q ∈ l.filterMap Group.other?) : (q.1 == p.2) = false := by
  obtain ⟨g, hg, hgq⟩ := List.mem_filterMap.1 hq
  obtain ⟨hslot, rfl⟩ := other?_eq_some.1 hgq
  obtain hlt | ⟨-, -, hne⟩ := hl g hg
  · rw [hslot] at hlt
    exact absurd (Slot.le_other _) hlt.not_ge
  · exact hne

theorem filterMap_constant_of_precedes (hl : ∀ g ∈ l, Precedes g.body p.2)
    (hp : slot p.2 = .constant) : l.filterMap Group.constant? = [] := by
  rw [List.filterMap_eq_nil_iff]
  intro g hg
  rw [Option.eq_none_iff_forall_ne_some]
  intro c hc
  obtain hlt | ⟨-, hother, -⟩ := hl g hg
  · rw [(constant?_eq_some.1 hc).1, hp] at hlt
    exact lt_irrefl _ hlt
  · rw [hp] at hother
    cases hother

/-- The entries of the slot of a term after it is entered: behind those of the groups in front, one
entry changes or a new one appears. -/
theorem filterMap_enter_cases {β : Type} {f : Group α → Option β} {entry : Group α → β}
    (hf : ∀ g, slot g.body = slot p.2 → f g = some (entry g))
    (hgroups : (groups.map Group.body).Pairwise Precedes) :
    ∃ l r : List (Group α), (∀ g ∈ l, Precedes g.body p.2) ∧
      ((∃ g, alike g.body p.2 = true ∧
          groups.filterMap f = l.filterMap f ++ entry g :: r.filterMap f ∧
          (enter p groups).filterMap f = l.filterMap f ++ entry (g.push p) :: r.filterMap f) ∨
        (∀ g ∈ r, slot p.2 < slot g.body) ∧
          groups.filterMap f = l.filterMap f ++ r.filterMap f ∧
          (enter p groups).filterMap f = l.filterMap f ++ entry ⟨p, []⟩ :: r.filterMap f) := by
  obtain ⟨l, r, hl, ⟨g, rfl, halike, henter⟩ | ⟨rfl, hr, henter⟩⟩ := enter_cases p hgroups
  · have hslot := (alike_iff.1 halike).1
    refine ⟨l, r, hl, .inl ⟨g, halike, ?_, ?_⟩⟩
    · rw [List.filterMap_append, List.filterMap_cons_some (hf g hslot)]
    · rw [henter, List.filterMap_append, List.filterMap_cons_some (hf (g.push p) hslot)]
  · refine ⟨l, r, hl, .inr ⟨hr, List.filterMap_append, ?_⟩⟩
    rw [henter, List.filterMap_append, List.filterMap_cons_some (hf ⟨p, []⟩ rfl)]

theorem addLinear_enter (hgroups : (groups.map Group.body).Pairwise Precedes)
    (hp : slot p.2 = .name x) : Tally.addLinear x (amount p) (groups.filterMap Group.linear?) =
      (enter p groups).filterMap Group.linear? := by
  have hentry (g : Group α) (hg : slot g.body = slot p.2) : g.linear? = some (x, g.total) :=
    linear?_eq_some.2 ⟨hg.trans hp, rfl⟩
  obtain ⟨l, r, hl, ⟨g, -, h, h'⟩ | ⟨hr, h, h'⟩⟩ := filterMap_enter_cases hentry hgroups
  · rw [h, h', Tally.addLinear_append fun q hq => lt_of_mem_linear hl hp hq, Tally.addLinear,
      if_neg (lt_irrefl x), if_pos rfl, Group.total_push]
  · have hlater : ∀ q ∈ r.filterMap Group.linear?, x < q.1 := by
      intro q hq
      obtain ⟨g, hg, hgq⟩ := List.mem_filterMap.1 hq
      have hlt := hr g hg
      rwa [(linear?_eq_some.1 hgq).1, hp, Slot.name_lt_name] at hlt
    rw [h, h', Tally.addLinear_append fun q hq => lt_of_mem_linear hl hp hq,
      Tally.addLinear_of_lt hlater, Group.total_single (by rw [hp]; nofun)]

theorem addPower_enter (hgroups : (groups.map Group.body).Pairwise Precedes)
    (hp : slot p.2 = .power x text) :
    Tally.addPower (x, text) (amount p) (exponent p.2) (groups.filterMap Group.power?) =
      (enter p groups).filterMap Group.power? := by
  have hentry (g : Group α) (hg : slot g.body = slot p.2) :
      g.power? = some ((x, text), g.total, exponent g.body) :=
    power?_eq_some.2 ⟨hg.trans hp, rfl⟩
  obtain ⟨l, r, hl, ⟨g, -, h, h'⟩ | ⟨hr, h, h'⟩⟩ := filterMap_enter_cases hentry hgroups
  · rw [h, h', Tally.addPower_append fun q hq => keyLess_of_mem_powers hl hp hq, Tally.addPower,
      Tally.keyLess_irrefl, if_neg Bool.false_ne_true, if_pos rfl, Group.total_push,
      Group.body_push]
  · have hlater : ∀ q ∈ r.filterMap Group.power?, Tally.keyLess (x, text) q.1 = true := by
      intro q hq
      obtain ⟨g, hg, hgq⟩ := List.mem_filterMap.1 hq
      have hlt := hr g hg
      rwa [(power?_eq_some.1 hgq).1, hp, Slot.power_lt_power] at hlt
    rw [h, h', Tally.addPower_append fun q hq => keyLess_of_mem_powers hl hp hq,
      Tally.addPower_of_lt hlater, Group.total_single (by rw [hp]; nofun)]
    rfl

theorem addConstant_enter (hgroups : (groups.map Group.body).Pairwise Precedes)
    (hp : slot p.2 = .constant) : constantSum groups + amount p = constantSum (enter p groups) := by
  have hentry (g : Group α) (hg : slot g.body = slot p.2) : g.constant? = some g.total :=
    constant?_eq_some.2 ⟨hg.trans hp, rfl⟩
  obtain ⟨l, r, hl, ⟨g, -, h, h'⟩ | ⟨hr, h, h'⟩⟩ := filterMap_enter_cases hentry hgroups
  · rw [constantSum, constantSum, h, h', filterMap_constant_of_precedes hl hp, Group.total_push]
    rfl
  · have hlater : r.filterMap Group.constant? = [] := by
      rw [List.filterMap_eq_nil_iff]
      intro g hg
      rw [Option.eq_none_iff_forall_ne_some]
      intro c hc
      have hlt := hr g hg
      rw [(constant?_eq_some.1 hc).1, hp] at hlt
      exact lt_irrefl _ hlt
    rw [constantSum, constantSum, h, h', filterMap_constant_of_precedes hl hp, hlater,
      Group.total_single_constant hp]
    rfl

theorem addOther_enter (hgroups : (groups.map Group.body).Pairwise Precedes)
    (hp : slot p.2 = .other) : Tally.addOther p.2 (amount p) (groups.filterMap Group.other?) =
      (enter p groups).filterMap Group.other? := by
  have hentry (g : Group α) (hg : slot g.body = slot p.2) : g.other? = some (g.body, g.total) :=
    other?_eq_some.2 ⟨hg.trans hp, rfl⟩
  obtain ⟨l, r, hl, ⟨g, halike, h, h'⟩ | ⟨hr, h, h'⟩⟩ := filterMap_enter_cases hentry hgroups
  · obtain ⟨hslot, heq⟩ := alike_iff.1 halike
    rw [h, h', Tally.addOther_append fun q hq => beq_of_mem_others hl hq, Tally.addOther,
      if_pos (heq (hslot.trans hp)), Group.total_push, Group.body_push]
  · have hnil : r = [] := List.eq_nil_iff_forall_not_mem.2 fun g hg =>
      (hp ▸ hr g hg).not_ge (Slot.le_other _)
    subst hnil
    rw [h, h', Tally.addOther_append fun q hq => beq_of_mem_others hl hq,
      Group.total_single (by rw [hp]; nofun)]
    rfl

/-- Adding a term to the sums of the groups is entering it into the groups. -/
theorem sums_enter (hgroups : (groups.map Group.body).Pairwise Precedes) :
    (sums groups).add p.1 p.2 = sums (enter p groups) := by
  have hlinear (h : ∀ x, slot p.2 ≠ .name x) :
      (enter p groups).filterMap Group.linear? = groups.filterMap Group.linear? :=
    filterMap_enter (fun g q hq hg => h _ (hg ▸ (linear?_eq_some.1 hq).1)) groups
  have hpowers (h : ∀ x text, slot p.2 ≠ .power x text) :
      (enter p groups).filterMap Group.power? = groups.filterMap Group.power? :=
    filterMap_enter (fun g q hq hg => h _ _ (hg ▸ (power?_eq_some.1 hq).1)) groups
  have hconstant (h : slot p.2 ≠ .constant) :
      constantSum (enter p groups) = constantSum groups :=
    congrArg (fun cs => cs.head?.getD zero)
      (filterMap_enter (fun g c hc hg => h (hg ▸ (constant?_eq_some.1 hc).1)) groups)
  have hothers (h : slot p.2 ≠ .other) :
      (enter p groups).filterMap Group.other? = groups.filterMap Group.other? :=
    filterMap_enter (fun g q hq hg => h (hg ▸ (other?_eq_some.1 hq).1)) groups
  rw [Tally.add_eq, sums, sums]
  cases hp : slot p.2 <;> rw [hp] at hlinear hpowers hconstant hothers
  case name x =>
    rw [hpowers nofun, hconstant nofun, hothers nofun, ← addLinear_enter hgroups hp]
  case power x text =>
    rw [hlinear nofun, hconstant nofun, hothers nofun, ← addPower_enter hgroups hp]
  case constant =>
    rw [hlinear nofun, hpowers nofun, hothers nofun, ← addConstant_enter hgroups hp]
  case other =>
    rw [hlinear nofun, hpowers nofun, hconstant nofun, ← addOther_enter hgroups hp]

end Entries

/-- The tally of a list of terms holds the sums of their groups. -/
theorem ofTerms_eq_sums [PartialEquivBEq α] (terms : List (Expr α)) :
    Tally.ofTerms terms = sums (grouped (terms.map split)) := by
  induction terms using List.reverseRecOn with
  | nil => rfl
  | append_singleton terms t ih =>
      rw [Tally.ofTerms, List.foldl_concat, List.map_append, grouped, List.map_singleton,
        List.foldl_concat]
      change (Tally.ofTerms terms).add _ _ = sums (enter _ (grouped _))
      rw [ih]
      exact sums_enter (grouping_grouped _).ordered

/-! Items of each group. -/

/-- The items of a group: one with its sign, or none if the sum is zero. -/
def Group.item (g : Group α) : List (Sign × Expr α) :=
  if isZero g.total then []
  else [(if lt g.total zero then .minus else .plus,
    if slot g.body = .constant then number (abs g.total)
    else if isOne (abs g.total) then g.body
    else binary .mul (number (abs g.total)) g.body)]

theorem Group.item_of_slot {g : Group α} (h : slot g.body ≠ .constant) :
    g.item = Expr.item g.total g.body := by
  rw [Group.item, Expr.item, if_neg h]

theorem filterMap_eq_nil_of_rank {β : Type} {f : Group α → Option β} {n : Nat}
    {groups : List (Group α)} (hf : ∀ g b, f g = some b → (slot g.body).rank < n)
    (h : ∀ g ∈ groups, n ≤ (slot g.body).rank) : groups.filterMap f = [] :=
  List.filterMap_eq_nil_iff.2 fun g hg => Option.eq_none_iff_forall_ne_some.2 fun b hb =>
    (hf g b hb).not_ge (h g hg)

theorem Precedes.rank_le {a b : Expr α} (h : Precedes a b) : (slot a).rank ≤ (slot b).rank := by
  obtain hlt | ⟨ha, hb, -⟩ := h
  · exact Slot.rank_mono hlt.le
  · rw [ha, hb]

theorem Precedes.eq_other {a b : Expr α} (h : Precedes a b) (ha : Slot.constant ≤ slot a) :
    slot b = .other := by
  obtain hlt | ⟨-, hb, -⟩ := h
  · exact Slot.constant_lt_iff.1 (ha.trans_lt hlt)
  · exact hb

/-- A group in front gives one accumulator an entry. -/
theorem sums_cons (g : Group α) (groups : List (Group α)) : sums (g :: groups) =
    match slot g.body with
    | .name x => { sums groups with linear := (x, g.total) :: (sums groups).linear }
    | .power x text => { sums groups with
        powers := ((x, text), g.total, exponent g.body) :: (sums groups).powers }
    | .constant => { sums groups with constant := g.total }
    | .other => { sums groups with others := (g.body, g.total) :: (sums groups).others } := by
  cases hs : slot g.body <;>
    simp [sums, constantSum, Group.linear?, Group.power?, Group.constant?, Group.other?, hs]

theorem constantSum_eq_zero {groups : List (Group α)} (h : ∀ g ∈ groups, slot g.body = .other) :
    constantSum groups = zero := by
  have hnil : groups.filterMap Group.constant? = [] :=
    filterMap_eq_nil_of_rank (n := 3)
      (fun g c hc => by rw [(constant?_eq_some.1 hc).1]; decide) fun g hg => by rw [h g hg]; rfl
  rw [constantSum, hnil]
  rfl

/-- The tally is written as its groups in their order. -/
theorem items_sums (hzero : isZero (zero : α) = true) {groups : List (Group α)}
    (h : (groups.map Group.body).Pairwise Precedes) :
    (sums groups).items = groups.flatMap Group.item := by
  induction groups with
  | nil => simp [sums, constantSum, Tally.items, hzero]
  | cons g groups ih =>
      rw [List.map_cons, List.pairwise_cons, List.forall_mem_map] at h
      obtain ⟨hg, h⟩ := h
      -- nothing with an earlier slot follows the first group
      have hlinear (hn : 0 < (slot g.body).rank) : (sums groups).linear = [] :=
        filterMap_eq_nil_of_rank (fun g' q hq => by rwa [(linear?_eq_some.1 hq).1])
          fun g' hg' => (hg g' hg').rank_le
      have hpowers (hn : 1 < (slot g.body).rank) : (sums groups).powers = [] :=
        filterMap_eq_nil_of_rank (fun g' q hq => by rwa [(power?_eq_some.1 hq).1])
          fun g' hg' => (hg g' hg').rank_le
      have hconstant (hn : Slot.constant ≤ slot g.body) : (sums groups).constant = zero :=
        constantSum_eq_zero fun g' hg' => (hg g' hg').eq_other hn
      rw [List.flatMap_cons, ← ih h, sums_cons]
      cases hs : slot g.body with
      | name x =>
          rw [Group.item_of_slot (by rw [hs]; nofun), slot_eq_name.1 hs]
          simp [Tally.items]
      | power x text =>
          obtain ⟨e, he, -⟩ := slot_eq_power.1 hs
          rw [Group.item_of_slot (by rw [hs]; nofun), he]
          simp [Tally.items, hlinear (by simp [hs]), exponent]
      | constant =>
          rw [Group.item, if_pos hs]
          simp [Tally.items, hlinear (by simp [hs]), hpowers (by simp [hs]), hconstant hs.ge, hzero]
      | other =>
          rw [Group.item_of_slot (by rw [hs]; nofun)]
          simp [Tally.items, hlinear (by simp [hs]), hpowers (by simp [hs]),
            hconstant (hs ▸ Slot.le_other _), hzero]

end EquationEngine.Expr
