import Mathlib.Data.List.Basic
import Sygus.Evaluation

/-!
# The forms of a node

What evaluation does at an operator depends on the name and on the number of arguments, and on
nothing else: it may be one of the known operators over as many arguments as it needs, or it is at
fault. There is a form for each of these cases (`IntForm`, `BoolForm`), every node has one of
them, and how a node of some form is evaluated is said once, in an equation for the form.

A node at fault is so whatever its arguments are: the fault names the operator and counts the
arguments, but it does not look at them.
-/

namespace Sygus

/-- How many arguments an operator has. -/
def IntOp.arity : IntOp → Nat
  | ite => 3
  | add => 2
  | multiply => 2
  | var _ => 0
  | literal _ => 0

/-- How many arguments an operator has. -/
def BoolOp.arity : BoolOp → Nat
  | lt => 2
  | eq => 2
  | and => 2
  | or => 2
  | not => 1

/-- The name of a truth operator. -/
def BoolOp.name : BoolOp → String
  | lt => "Lt"
  | eq => "Eq"
  | and => "And"
  | or => "Or"
  | not => "Not"

theorem BoolOp.eq_name {name : String} {op : BoolOp} (h : BoolOp.ofName? name = some op) :
    name = op.name := by
  unfold BoolOp.ofName? at h
  split at h <;> cases h <;> rfl

theorem IntOp.eq_ite {name : String} (h : IntOp.ofName? name = some .ite) : name = "Ite" := by
  unfold IntOp.ofName? at h
  split at h <;> cases h
  rfl

/-- What a name over some arguments is where an integer is wanted. -/
inductive IntForm (name : String) : List Term → Prop where
  | ite {c t e : Term} :
      IntOp.ofName? name = some .ite → IntForm name [c, t, e]
  | add {l r : Term} : IntOp.ofName? name = some .add → IntForm name [l, r]
  | multiply {l r : Term} :
      IntOp.ofName? name = some .multiply → IntForm name [l, r]
  | var {v : Variable} : IntOp.ofName? name = some (.var v) → IntForm name []
  | literal {n : Nat} : IntOp.ofName? name = some (.literal n) → IntForm name []
  /-- An operator with a wrong number of arguments. -/
  | misplaced {op : IntOp} {args : List Term} :
      IntOp.ofName? name = some op → args.length ≠ op.arity → IntForm name args
  | unknown {args : List Term} : IntOp.ofName? name = none → IntForm name args

/-- What a name over some arguments is where a truth value is wanted. -/
inductive BoolForm (name : String) : List Term → Prop where
  | lt {l r : Term} : BoolOp.ofName? name = some .lt → BoolForm name [l, r]
  | eq {l r : Term} : BoolOp.ofName? name = some .eq → BoolForm name [l, r]
  | and {l r : Term} : BoolOp.ofName? name = some .and → BoolForm name [l, r]
  | or {l r : Term} : BoolOp.ofName? name = some .or → BoolForm name [l, r]
  | not {t : Term} : BoolOp.ofName? name = some .not → BoolForm name [t]
  | misplaced {op : BoolOp} {args : List Term} :
      BoolOp.ofName? name = some op → args.length ≠ op.arity → BoolForm name args
  | unknown {args : List Term} : BoolOp.ofName? name = none → BoolForm name args

/-- Every node has a form. -/
theorem intForm (name : String) (args : List Term) : IntForm name args := by
  cases hop : IntOp.ofName? name with
  | none => exact .unknown hop
  | some op =>
      by_cases hargs : args.length = op.arity
      · cases op with
        | ite =>
            obtain ⟨c, t, e, rfl⟩ := List.length_eq_three.mp hargs
            exact .ite hop
        | add =>
            obtain ⟨l, r, rfl⟩ := List.length_eq_two.mp hargs
            exact .add hop
        | multiply =>
            obtain ⟨l, r, rfl⟩ := List.length_eq_two.mp hargs
            exact .multiply hop
        | var v =>
            cases List.length_eq_zero_iff.mp hargs
            exact .var hop
        | literal n =>
            cases List.length_eq_zero_iff.mp hargs
            exact .literal hop
      · exact .misplaced hop hargs

theorem boolForm (name : String) (args : List Term) : BoolForm name args := by
  cases hop : BoolOp.ofName? name with
  | none => exact .unknown hop
  | some op =>
      by_cases hargs : args.length = op.arity
      · cases op with
        | lt =>
            obtain ⟨l, r, rfl⟩ := List.length_eq_two.mp hargs
            exact .lt hop
        | eq =>
            obtain ⟨l, r, rfl⟩ := List.length_eq_two.mp hargs
            exact .eq hop
        | and =>
            obtain ⟨l, r, rfl⟩ := List.length_eq_two.mp hargs
            exact .and hop
        | or =>
            obtain ⟨l, r, rfl⟩ := List.length_eq_two.mp hargs
            exact .or hop
        | not =>
            obtain ⟨t, rfl⟩ := List.length_eq_one_iff.mp hargs
            exact .not hop
      · exact .misplaced hop hargs

namespace Term

mutual

/-- Induction on a term, with the children of a node in one case. -/
theorem children_induction {P : Term → Prop} (node : ∀ s cs, (∀ c ∈ cs, P c) → P (node s cs)) :
    ∀ t, P t
  | .node s cs => node s cs (forall_mem_children_induction node cs)

theorem forall_mem_children_induction {P : Term → Prop}
    (node : ∀ s cs, (∀ c ∈ cs, P c) → P (.node s cs)) : ∀ (cs : List Term), ∀ c ∈ cs, P c
  | [] => by simp
  | c :: cs => by
      rw [List.forall_mem_cons]
      exact ⟨children_induction node c, forall_mem_children_induction node cs⟩

end

variable {a : Assignment} {name : String} {args : List Term} {c t e l r : Term}

/-! ## Evaluation, form by form -/

-- the equations of both functions are derived here, once for all forms
attribute [local simp] value truth

theorem value_ite (hop : IntOp.ofName? name = some .ite) :
    (node (.terminal name) [c, t, e]).value a
      = c.truth a >>= fun b => if b then t.value a else e.value a := by
  simp only [value, hop]

theorem value_add (hop : IntOp.ofName? name = some .add) :
    (node (.terminal name) [l, r]).value a
      = l.value a >>= fun m => r.value a >>= fun n => .ok (m + n) := by
  simp only [value, hop]
  rfl

theorem value_multiply (hop : IntOp.ofName? name = some .multiply) :
    (node (.terminal name) [l, r]).value a
      = l.value a >>= fun m => r.value a >>= fun n => .ok (m * n) := by
  simp only [value, hop]
  rfl

theorem value_var {v : Variable} (hop : IntOp.ofName? name = some (.var v)) :
    (node (.terminal name) []).value a = match a.get? v.name with
      | some n => .ok n
      | none => .error (.undefinedVariable v.name) := by
  unfold value
  cases hn : a.get? v.name with
  | none => simp only [hop, hn]
  | some n => simp only [hop, hn]

theorem value_literal {n : Nat} (hop : IntOp.ofName? name = some (.literal n)) :
    (node (.terminal name) []).value a = .ok (Int64.ofNat n) := by
  unfold value
  simp only [hop]

theorem value_unknown (hop : IntOp.ofName? name = none) :
    (node (.terminal name) args).value a = .error (.unknownOperator name) := by
  unfold value
  simp only [hop]

theorem value_misplaced {op : IntOp} (hop : IntOp.ofName? name = some op)
    (hargs : args.length ≠ op.arity) :
    (node (.terminal name) args).value a = .error (.arity name op.arity args.length) := by
  unfold value
  split <;> cases op <;> simp_all [IntOp.arity]

theorem truth_lt (hop : BoolOp.ofName? name = some .lt) :
    (node (.terminal name) [l, r]).truth a
      = l.value a >>= fun m => r.value a >>= fun n => .ok (decide (m < n)) := by
  simp only [truth, hop]
  rfl

theorem truth_eq (hop : BoolOp.ofName? name = some .eq) :
    (node (.terminal name) [l, r]).truth a
      = l.value a >>= fun m => r.value a >>= fun n => .ok (decide (m = n)) := by
  simp only [truth, hop]
  rfl

theorem truth_and (hop : BoolOp.ofName? name = some .and) :
    (node (.terminal name) [l, r]).truth a
      = l.truth a >>= fun b => if b then r.truth a else .ok false := by
  simp only [truth, hop]
  rfl

theorem truth_or (hop : BoolOp.ofName? name = some .or) :
    (node (.terminal name) [l, r]).truth a
      = l.truth a >>= fun b => if b then .ok true else r.truth a := by
  simp only [truth, hop]
  rfl

theorem truth_not (hop : BoolOp.ofName? name = some .not) :
    (node (.terminal name) [t]).truth a = t.truth a >>= fun b => .ok (!b) := by
  simp only [truth, hop]
  rfl

theorem truth_unknown (hop : BoolOp.ofName? name = none) :
    (node (.terminal name) args).truth a = .error (.unknownOperator name) := by
  unfold truth
  simp only [hop]

theorem truth_misplaced {op : BoolOp} (hop : BoolOp.ofName? name = some op)
    (hargs : args.length ≠ op.arity) :
    (node (.terminal name) args).truth a = .error (.arity name op.arity args.length) := by
  unfold truth
  split <;> cases op <;> simp_all [BoolOp.arity]

end Term

end Sygus
