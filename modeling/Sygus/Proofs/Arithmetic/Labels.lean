import Sygus.Proofs.Accounting
import Sygus.Proofs.Arithmetic.Meaning

/-!
# The labels of conditional arithmetic

Where all variables are bound, no program of the grammar meets a fault, in either role. So
every pool over such examples can be grown without one, and a label is known as soon as
the values of a program are.

Programs see nothing but points. If examples with equal points have equal outputs, a label
holds both of them or neither, and then every label is that of a condition, however
the expression looks that it came from.
-/

namespace Sygus.Arithmetic

open Term (Derives Met)

/-- All variables are bound in all examples. -/
def Binds (examples : List Example) : Prop :=
  ∀ e ∈ examples, ∀ v : Variable, (e.input.get? v.name).isSome = true

/-- For examples that are given, this can be decided. -/
theorem binds_of_all {examples : List Example}
    (h : ∀ e ∈ examples, ∀ v ∈ [Variable.x, .y, .z], (e.input.get? v.name).isSome = true) :
    Binds examples := by
  intro e he v
  refine h e he v ?_
  cases v <;> decide

/-- Examples that agree on all variables have the same output. -/
def Consistent (examples : List Example) : Prop :=
  ∀ e ∈ examples, ∀ e' ∈ examples,
    (∀ v : Variable, e.input.get? v.name = e'.input.get? v.name) → e.output = e'.output

/-- An expression as a program. -/
def Expr.program (e : Expr) : Program where
  root := e.term
  complete := by
    obtain ⟨n, h⟩ := e.derives
    exact h.isComplete

/-- A condition as a program. -/
def Cond.program (c : Cond) : Program where
  root := c.term
  complete := by
    obtain ⟨n, h⟩ := c.derives
    exact h.isComplete

/-- Programs that derive from `E` are expressions. -/
theorem exists_expr {p : Program} (h : Derives .arithmetic Role.expression.symbol p.root) :
    ∃ e : Expr, p = e.program := by
  obtain ⟨e, he⟩ := derives_expr_iff.mp h
  refine ⟨e, ?_⟩
  cases p
  cases he
  rfl

/-- Programs that derive from `B` are conditions. -/
theorem exists_cond {p : Program} (h : Derives .arithmetic Role.predicate.symbol p.root) :
    ∃ c : Cond, p = c.program := by
  obtain ⟨c, hc⟩ := derives_cond_iff.mp h
  refine ⟨c, ?_⟩
  cases p
  cases hc
  rfl

theorem Expr.draws (e : Expr) : Role.expression.Draws .arithmetic none e.program :=
  ⟨e.derives, rfl⟩

theorem Cond.draws (c : Cond) : Role.predicate.Draws .arithmetic none c.program :=
  ⟨c.derives, rfl⟩

theorem Expr.satisfies {x : Expr} {e : Example} {p : Point} (h : e.input.At p) :
    Role.expression.satisfies x.program e = .ok (decide (x.eval p = e.output)) := by
  show x.term.produces e = _
  rw [Term.produces, x.value_term h]
  rfl

theorem Cond.satisfies {c : Cond} {e : Example} {p : Point} (h : e.input.At p) :
    Role.predicate.satisfies c.program e = .ok (c.eval p) :=
  c.truth_term h

variable {examples : List Example}

/-- **Programs can be evaluated** where all variables are bound. -/
theorem exists_satisfies (h : Binds examples) {role : Role} {p : Program}
    (hp : Derives .arithmetic role.symbol p.root) {e : Example} (he : e ∈ examples) :
    ∃ b, role.satisfies p e = .ok b := by
  have hat := Assignment.at_point (h e he)
  cases role with
  | expression =>
      obtain ⟨x, rfl⟩ := exists_expr hp
      exact ⟨_, x.satisfies hat⟩
  | predicate =>
      obtain ⟨c, rfl⟩ := exists_cond hp
      exact ⟨_, c.satisfies hat⟩

/-- **Nothing goes wrong in conditional arithmetic** where all variables are bound. -/
theorem faultless (h : Binds examples) (bound : Option Nat) (role : Role) :
    Faultless ⟨.arithmetic, examples⟩ bound role where
  expand := by
    intro t ht
    refine ht.exists_expand closed ?_
    cases role with
    | expression => exact defines_expr
    | predicate => exact defines_cond
  label := fun p hp => Role.exists_label fun e he => exists_satisfies h hp.1 he

/-- An expression has the examples in its label to which it gives their output. -/
theorem Expr.exists_label (h : Binds examples) (x : Expr) :
    ∃ s : ExampleSet, Role.expression.label x.program examples = .ok s
      ∧ s.Sublist (List.range examples.length)
      ∧ ∀ (i : Nat) (hi : i < examples.length),
          i ∈ s ↔ x.eval examples[i].input.point = examples[i].output := by
  obtain ⟨s, hs⟩ := (faultless h none .expression).label _ x.draws
  refine ⟨s, hs, Role.label_sublist hs, ?_⟩
  intro i hi
  have hsat := Role.satisfies_of_label hs (List.getElem?_eq_getElem hi)
  rw [x.satisfies (Assignment.at_point (h _ (List.getElem_mem hi)))] at hsat
  have := Except.ok.inj hsat
  rwa [decide_eq_decide, Iff.comm] at this

/-- A condition has the examples in its label under whose input it holds. -/
theorem Cond.exists_label (h : Binds examples) (c : Cond) :
    ∃ s : ExampleSet, Role.predicate.label c.program examples = .ok s
      ∧ s.Sublist (List.range examples.length)
      ∧ ∀ (i : Nat) (hi : i < examples.length),
          i ∈ s ↔ c.eval examples[i].input.point = true := by
  obtain ⟨s, hs⟩ := (faultless h none .predicate).label _ c.draws
  refine ⟨s, hs, Role.label_sublist hs, ?_⟩
  intro i hi
  have hsat := Role.satisfies_of_label hs (List.getElem?_eq_getElem hi)
  rw [c.satisfies (Assignment.at_point (h _ (List.getElem_mem hi)))] at hsat
  have := Except.ok.inj hsat
  rw [this, decide_eq_true_eq]

/-- An expression is valid if it has all outputs for its values. -/
theorem Expr.isValid_program_iff (h : Binds examples) {x : Expr} :
    x.program.isValid examples = .ok true
      ↔ ∀ e ∈ examples, x.eval e.input.point = e.output := by
  rw [isValid_iff]
  refine forall₂_congr fun e he => ?_
  show x.term.value e.input = .ok e.output ↔ _
  rw [x.value_term (Assignment.at_point (h e he)), Except.ok.injEq]

/-- A valid expression has all examples in its label. -/
theorem Expr.label_eq_range (h : Binds examples) (x : Expr)
    (hx : ∀ e ∈ examples, x.eval e.input.point = e.output) :
    Role.expression.label x.program examples = .ok (List.range examples.length) := by
  refine Role.label_eq_range ?_
  intro e he
  rw [x.satisfies (Assignment.at_point (h e he)), decide_eq_true (hx e he)]

/-- Consistent examples with equal points have equal outputs. -/
theorem Consistent.output_eq (hc : Consistent examples) (h : Binds examples) {e e' : Example}
    (he : e ∈ examples) (he' : e' ∈ examples) (hpoint : e.input.point = e'.input.point) :
    e.output = e'.output := by
  refine hc e he e' he' ?_
  intro v
  rw [Assignment.at_point (h e he) v, Assignment.at_point (h e' he') v, hpoint]

/-- For every example there is a program that satisfies it. -/
theorem exists_label_mem (h : Binds examples) (role : Role) {i : Nat} (hi : i < examples.length) :
    ∃ p s, role.Draws .arithmetic none p ∧ role.label p examples = .ok s ∧ i ∈ s := by
  cases role with
  | expression =>
      obtain ⟨s, hs, _, hmem⟩ := (Expr.constant examples[i].output).exists_label h
      exact ⟨_, s, Expr.draws _, hs, (hmem i hi).mpr (by simp)⟩
  | predicate =>
      obtain ⟨s, hs, _, hmem⟩ := (Cond.at examples[i].input.point).exists_label h
      exact ⟨_, s, Cond.draws _, hs, (hmem i hi).mpr (by simp)⟩

/-- **Some expression gives all outputs** of consistent examples, also if they are changed by a
function. -/
theorem exists_eval_eq (h : Binds examples) (hc : Consistent examples) (f : Int64 → Int64) :
    ∃ x : Expr, ∀ e ∈ examples, x.eval e.input.point = f e.output := by
  refine ⟨Expr.table (examples.map fun e => (e.input.point, f e.output)), ?_⟩
  intro e he
  refine Expr.eval_table (List.mem_map.mpr ⟨e, he, rfl⟩) ?_
  intro m hm
  obtain ⟨e', he', heq⟩ := List.mem_map.mp hm
  obtain ⟨hpoint, rfl⟩ := Prod.mk.inj heq
  rw [hc.output_eq h he' he hpoint]

/-- The label of such an expression holds all examples. -/
theorem exists_label_range (h : Binds examples) (hc : Consistent examples) :
    ∃ p, Role.expression.Draws .arithmetic none p
      ∧ Role.expression.label p examples = .ok (List.range examples.length) := by
  obtain ⟨x, hx⟩ := exists_eval_eq h hc id
  exact ⟨x.program, x.draws, x.label_eq_range h hx⟩

/-- **Every label of an expression is the label of a condition,** if the examples are
consistent. -/
theorem exists_cond_label (h : Binds examples) (hc : Consistent examples) {p : Program}
    {s : ExampleSet} (hp : Role.expression.Draws .arithmetic none p)
    (hs : Role.expression.label p examples = .ok s) :
    ∃ q, Role.predicate.Draws .arithmetic none q ∧ Role.predicate.label q examples = .ok s := by
  obtain ⟨x, rfl⟩ := exists_expr hp.1
  obtain ⟨s', hs', hsub, hmem⟩ := x.exists_label h
  rw [hs] at hs'
  cases hs'
  obtain ⟨t, ht, htsub, htmem⟩ :=
    (Cond.among (s.filterMap fun i => examples[i]?.map (·.input.point))).exists_label h
  suffices heq : t = s by
    subst heq
    exact ⟨_, Cond.draws _, ht⟩
  refine ExampleSet.eq_of_mem_iff htsub hsub fun i => ?_
  refine ⟨?_, ?_⟩
  · intro hi
    have hlt := List.mem_range.mp (htsub.subset hi)
    have hheld := (htmem i hlt).mp hi
    rw [Cond.eval_among, decide_eq_true_eq, List.mem_filterMap] at hheld
    obtain ⟨j, hj, hpoint⟩ := hheld
    have hjlt := List.mem_range.mp (hsub.subset hj)
    rw [List.getElem?_eq_getElem hjlt, Option.map_some, Option.some.injEq] at hpoint
    -- the expression cannot tell the two examples apart
    have hout := hc.output_eq h (List.getElem_mem hjlt) (List.getElem_mem hlt) hpoint
    rw [hmem i hlt, ← hpoint, ← hout]
    exact (hmem j hjlt).mp hj
  · intro hi
    have hlt := List.mem_range.mp (hsub.subset hi)
    rw [htmem i hlt, Cond.eval_among, decide_eq_true_eq, List.mem_filterMap]
    exact ⟨i, hi, by rw [List.getElem?_eq_getElem hlt]; rfl⟩

end Sygus.Arithmetic
