import Sygus.Proofs.Feasibility.Exactness

/-!
# What pruning loses

A partial term can compute whatever one of its completions computes over the unbounded
integers: each hole takes the value of what the completion puts in its place.

So a term is pruned only if no completion computes the output of some example exactly. That
is not what a program is judged by: evaluation wraps around, and a completion that reaches
the output in this way is lost.
-/

namespace Sygus

open Relation (ReflTransGen)
open Arithmetic (Expr Cond exactly)
open Term (Completes Expands completes_node_inv completes_one_inv completes_two_inv
  completes_three_inv)

section Completions

variable {g : Grammar} {k : Nat} {name : String} {us : List Term}

/-- A completion keeps the operator, so it is an expression with that operator. -/
theorem Arithmetic.Expr.op_of_completes {x : Expr} {op : IntOp}
    (h : Completes g k (.node (.terminal name) us) x.term) (hop : IntOp.ofName? name = some op) :
    x.op = op := by
  obtain ⟨ts, hterm, _⟩ := completes_node_inv h
  have hname := Expr.ofName?_of_term hterm
  rw [hop] at hname
  exact (Option.some.inj hname).symm

theorem Arithmetic.Cond.op_of_completes {x : Cond} {op : BoolOp}
    (h : Completes g k (.node (.terminal name) us) x.term) (hop : BoolOp.ofName? name = some op) :
    x.op = op := by
  obtain ⟨ts, hterm, _⟩ := completes_node_inv h
  have hname := Cond.ofName?_of_term hterm
  rw [hop] at hname
  exact (Option.some.inj hname).symm

end Completions

mutual

/-- **A term that has a sketch can compute what any completion computes.** -/
theorem IntSketched.canCompute {g : Grammar} {k : Nat} {n n' : Numbering} {t : Term}
    {s : IntSketch} {x : Expr} {a : Variable → Int} (h : IntSketched n t s n')
    (hx : Completes g k t x.term) : t.CanCompute a (x.exact a) := by
  cases h with
  | hole => exact Term.canCompute_hole
  | ite hop hc ht he =>
      have hxop := x.op_of_completes hx hop
      cases x <;> cases hxop
      obtain ⟨⟨_, hc'⟩, ⟨_, ht'⟩, _, he'⟩ := completes_three_inv hx
      exact (Term.canCompute_ite hop).mpr
        ⟨_, _, _, hc.canDecide hc', ht.canCompute ht', he.canCompute he', rfl⟩
  | add hop hl hr =>
      have hxop := x.op_of_completes hx hop
      cases x <;> cases hxop
      obtain ⟨⟨_, hl'⟩, _, hr'⟩ := completes_two_inv hx
      exact (Term.canCompute_add hop).mpr ⟨_, _, hl.canCompute hl', hr.canCompute hr', rfl⟩
  | multiply hop hl hr =>
      have hxop := x.op_of_completes hx hop
      cases x <;> cases hxop
      obtain ⟨⟨_, hl'⟩, _, hr'⟩ := completes_two_inv hx
      exact (Term.canCompute_multiply hop).mpr ⟨_, _, hl.canCompute hl', hr.canCompute hr', rfl⟩
  | var hop =>
      have hxop := x.op_of_completes hx hop
      cases x <;> cases hxop
      exact (Term.canCompute_var hop).mpr rfl
  | literal hop =>
      have hxop := x.op_of_completes hx hop
      cases x <;> cases hxop
      exact (Term.canCompute_literal hop).mpr rfl

theorem BoolSketched.canDecide {g : Grammar} {k : Nat} {n n' : Numbering} {t : Term}
    {s : BoolSketch} {x : Cond} {a : Variable → Int} (h : BoolSketched n t s n')
    (hx : Completes g k t x.term) : t.CanDecide a (x.exact a) := by
  cases h with
  | hole => exact Term.canDecide_hole
  | lt hop hl hr =>
      have hxop := x.op_of_completes hx hop
      cases x <;> cases hxop
      obtain ⟨⟨_, hl'⟩, _, hr'⟩ := completes_two_inv hx
      exact (Term.canDecide_lt hop).mpr ⟨_, _, hl.canCompute hl', hr.canCompute hr', rfl⟩
  | eq hop hl hr =>
      have hxop := x.op_of_completes hx hop
      cases x <;> cases hxop
      obtain ⟨⟨_, hl'⟩, _, hr'⟩ := completes_two_inv hx
      exact (Term.canDecide_eq hop).mpr ⟨_, _, hl.canCompute hl', hr.canCompute hr', rfl⟩
  | and hop hl hr =>
      have hxop := x.op_of_completes hx hop
      cases x <;> cases hxop
      obtain ⟨⟨_, hl'⟩, _, hr'⟩ := completes_two_inv hx
      exact (Term.canDecide_and hop).mpr ⟨_, _, hl.canDecide hl', hr.canDecide hr', rfl⟩
  | or hop hl hr =>
      have hxop := x.op_of_completes hx hop
      cases x <;> cases hxop
      obtain ⟨⟨_, hl'⟩, _, hr'⟩ := completes_two_inv hx
      exact (Term.canDecide_or hop).mpr ⟨_, _, hl.canDecide hl', hr.canDecide hr', rfl⟩
  | not hop hb =>
      have hxop := x.op_of_completes hx hop
      cases x <;> cases hxop
      obtain ⟨_, hb'⟩ := completes_one_inv hx
      exact (Term.canDecide_not hop).mpr ⟨_, hb.canDecide hb', rfl⟩

end

namespace Arithmetic

/-- The inputs bind the variables, and nothing else. -/
def BindsExactly (examples : List Example) : Prop :=
  ∀ e ∈ examples, ∀ name, (e.input.get? name).isSome = true ↔ ∃ v : Variable, v.name = name

variable {examples : List Example}

theorem BindsExactly.binds (h : BindsExactly examples) : Binds examples :=
  fun e he v => (h e he v.name).mpr ⟨v, rfl⟩

/-- Nothing is said about unknowns. -/
theorem BindsExactly.spares (h : BindsExactly examples) : Spares examples := by
  intro e he i
  by_contra hbound
  obtain ⟨v, hv⟩ := (h e he _).mp (Option.isSome_iff_ne_none.mpr hbound)
  exact name_ne_unknown v i hv

/-- **A term with a completion that computes the output exactly is kept.** -/
theorem builtIn_ne_unsat_of_completes (h : Binds examples) (hspares : Spares examples)
    {e : Example} (he : e ∈ examples) {t : Term} {s : IntSketch} {n : Numbering}
    (hs : IntSketched {} t s n) (ht : t.isLeftmost = true) {k : Nat} {x : Expr}
    (hx : Completes .arithmetic k t x.term)
    (hexact : x.exact (exactly e.input.point) = e.output.toInt) :
    Solver.builtIn s e ≠ .unsat := by
  have hcan := hs.canCompute (a := exactly e.input.point) hx
  rw [hexact] at hcan
  exact (hs.builtIn_ne_unsat_iff (opens h hspares he) (hs.isThin ht)).mpr hcan

/-- A valid expression that does not wrap around computes all outputs exactly. -/
theorem exact_eq_output (h : Binds examples) {e : Example} (he : e ∈ examples) {x : Expr}
    (hvalid : x.program.isValid examples = .ok true) (hwraps : ¬ x.Wraps e.input.point) :
    x.exact (exactly e.input.point) = e.output.toInt := by
  rw [x.exact_eq hwraps, (Expr.isValid_program_iff h).mp hvalid e he]

/-! ## A product out of range -/

/-- What `x * y` wraps around to is asked for. -/
def overflow : List Example :=
  [⟨.ofList [("x", 3), ("y", -6148914691236517203), ("z", 100)], 7⟩]

/-- A product whose first factor is `x`. -/
def timesX : Term := .op "Multiply" [.atom "x", .leaf (.nonTerminal "E")]

/-- The product of `x` and `y`. -/
def timesY : Expr := .multiply (.var .x) (.var .y)

theorem bindsExactly_overflow : BindsExactly overflow := by
  intro e he name
  cases List.mem_singleton.mp he
  show (List.lookup name [("x", 3), ("y", -6148914691236517203), ("z", 100)]).isSome = true ↔ _
  refine ⟨?_, ?_⟩
  · intro hbound
    by_contra hother
    have hx : (name == "x") = false := beq_false_of_ne fun h => hother ⟨.x, h.symm⟩
    have hy : (name == "y") = false := beq_false_of_ne fun h => hother ⟨.y, h.symm⟩
    have hz : (name == "z") = false := beq_false_of_ne fun h => hother ⟨.z, h.symm⟩
    rw [List.lookup_cons, List.lookup_cons, List.lookup_cons, hx, hy, hz] at hbound
    cases hbound
  · intro hexists
    obtain ⟨v, rfl⟩ := hexists
    cases v <;> rfl

theorem reachable_timesX :
    ReflTransGen (Expands .arithmetic) (.leaf (.nonTerminal "E")) timesX := by
  have hproduct : (⟨"E", "Multiply", [.nonTerminal "E", .nonTerminal "E"]⟩ : Production)
      ∈ Grammar.arithmetic.productions := by decide
  have hx : Production.leaf "E" "x" ∈ Grammar.arithmetic.productions := by decide
  exact .tail (.single (.hole rfl hproduct rfl)) (.child (.here rfl (.hole rfl hx rfl)))

theorem timesX_completes : ReflTransGen (Expands .arithmetic) timesX timesY.program.root := by
  have hy : Production.leaf "E" "y" ∈ Grammar.arithmetic.productions := by decide
  exact .single (.child (.later rfl (.here rfl (.hole rfl hy rfl))))

theorem timesX_infeasible : timesX.isFeasible overflow = .ok false := by
  decide +kernel

theorem timesY_valid : timesY.program.isValid overflow = .ok true := by
  decide +kernel

/-! ## Pruned terms -/

/--
**Pruning loses nothing but programs that wrap around.**

If a term that leftmost steps lead to is found infeasible for examples that bind the
variables, there is one example whose output no completion of the term computes over the
unbounded integers. So a completion that is valid all the same is an expression whose
evaluation on this example leaves the 64-bit range.
-/
theorem wraps_of_pruned {t : Term}
    (ht : ReflTransGen (Expands .arithmetic) (.leaf (.nonTerminal "E")) t)
    (h : BindsExactly examples) (hpruned : t.isFeasible examples = .ok false) :
    ∃ e ∈ examples, ∀ p : Program, ReflTransGen (Expands .arithmetic) t p.root →
      ∃ x : Expr, p = x.program ∧ x.exact (exactly e.input.point) ≠ e.output.toInt
        ∧ (p.isValid examples = .ok true → x.Wraps e.input.point) := by
  unfold Term.isFeasible Term.isFeasibleBy at hpruned
  obtain ⟨s, hs, hall⟩ := bind_eq_ok.mp hpruned
  obtain ⟨e, he, hinfeasible⟩ := List.all_eq_false.mp (Except.ok.inj hall)
  rw [decide_eq_true_eq, not_not] at hinfeasible
  obtain ⟨n, hsketched⟩ := exists_sketched hs
  have hleftmost := Term.isLeftmost_of_reachable ht
  refine ⟨e, he, ?_⟩
  intro p hp
  -- the completion derives from `E`, through `t`
  have hderives := Term.exists_completes_of_steps (ht.trans hp) (Term.isBare_leaf _) p.complete
  obtain ⟨x, rfl⟩ := exists_expr hderives
  obtain ⟨k, hx⟩ :=
    Term.exists_completes_of_steps hp (Term.isBare_of_reachable ht) x.program.complete
  have hne : x.exact (exactly e.input.point) ≠ e.output.toInt := fun hexact =>
    builtIn_ne_unsat_of_completes h.binds h.spares he hsketched hleftmost hx hexact hinfeasible
  refine ⟨x, rfl, hne, ?_⟩
  intro hvalid
  by_contra hwraps
  exact hne (exact_eq_output h.binds he hvalid hwraps)

/-- The product of `x` and `y` is lost, and leaves the range. -/
theorem wraps_of_pruned_timesX :
    timesX.isFeasible overflow = .ok false ∧ ∃ e ∈ overflow, ∃ x : Expr,
      timesY.program = x.program ∧ x.exact (exactly e.input.point) ≠ e.output.toInt
        ∧ x.Wraps e.input.point := by
  refine ⟨timesX_infeasible, ?_⟩
  obtain ⟨e, he, hlost⟩ :=
    wraps_of_pruned reachable_timesX bindsExactly_overflow timesX_infeasible
  obtain ⟨x, hx, hne, hwraps⟩ := hlost timesY.program timesX_completes
  exact ⟨e, he, x, hx, hne, hwraps timesY_valid⟩

/-- So a pruned term can have a valid completion. -/
theorem exists_valid_completion_of_pruned :
    ∃ (t : Term) (examples : List Example) (p : Program),
      ReflTransGen (Expands .arithmetic) (.leaf (.nonTerminal "E")) t ∧ BindsExactly examples
        ∧ t.isFeasible examples = .ok false ∧ ReflTransGen (Expands .arithmetic) t p.root
        ∧ p.isValid examples = .ok true :=
  ⟨timesX, overflow, timesY.program, reachable_timesX, bindsExactly_overflow, timesX_infeasible,
    timesX_completes, timesY_valid⟩

end Arithmetic

end Sygus
