import Mathlib.Algebra.Group.Nat.Defs
import Sygus.Evaluation
import Sygus.Proofs.Arithmetic.Syntax
import Sygus.Proofs.Evaluation

/-!
# What conditional arithmetic can express

Under an input that binds all three variables, a program of conditional arithmetic always
has a value, and that depends on nothing but a **point**, the values of the variables.

Arithmetic wraps around, so zero is a power of two, and every other number is a sum of ones.
So every number is a constant, every point has a condition that holds there and nowhere
else, and with these every finite table of points and values is the graph of an expression.
-/

namespace Sygus

/-- Values for all variables. -/
structure Point where
  x : Int64
  y : Int64
  z : Int64
  deriving DecidableEq

/-- The value of a variable. -/
def Point.get (p : Point) : Variable → Int64
  | .x => p.x
  | .y => p.y
  | .z => p.z

/-- The input gives these values to the variables, and maybe others to other names. -/
def Assignment.At (a : Assignment) (p : Point) : Prop := ∀ v : Variable, a.get? v.name = some (p.get v)

/-- The values of the variables, with zero for those that are not bound. -/
def Assignment.point (a : Assignment) : Point :=
  ⟨(a.get? "x").getD 0, (a.get? "y").getD 0, (a.get? "z").getD 0⟩

theorem Assignment.at_point {a : Assignment} (h : ∀ v : Variable, (a.get? v.name).isSome = true) :
    a.At a.point := by
  intro v
  obtain ⟨n, hn⟩ := Option.isSome_iff_exists.mp (h v)
  cases v <;> simp only [Variable.name] at hn <;> simp [Variable.name, point, Point.get, hn]

namespace Arithmetic

mutual

/-- The value of an expression at a point. -/
def Expr.eval (p : Point) : Expr → Int64
  | .ite c this other => if c.eval p then this.eval p else other.eval p
  | .add l r => l.eval p + r.eval p
  | .multiply l r => l.eval p * r.eval p
  | .var v => p.get v
  | .numeral n => Int64.ofNat n.value

/-- The truth value of a condition at a point. -/
def Cond.eval (p : Point) : Cond → Bool
  | .lt l r => decide (l.eval p < r.eval p)
  | .eq l r => decide (l.eval p = r.eval p)
  | .and l r => l.eval p && r.eval p
  | .or l r => l.eval p || r.eval p
  | .not c => !c.eval p

end

variable {a : Assignment} {p : Point}

theorem value_atom {v : Variable} {n : Int64} (h : a.get? v.name = some n) :
    (Term.atom v.name).value a = .ok n := by
  have hop : IntOp.ofName? v.name = some (.var v) := by cases v <;> rfl
  unfold Term.atom Term.leaf Term.value
  rw [hop]
  dsimp only
  rw [h]

mutual

/-- **Expressions always have a value.** -/
theorem Expr.value_term (h : a.At p) (e : Expr) : e.term.value a = .ok (e.eval p) := by
  cases e with
  | ite c this other =>
      simp only [Expr.term, Term.op, Term.value, IntOp.ofName?, Expr.eval]
      rw [c.truth_term h, this.value_term h, other.value_term h]
      cases c.eval p <;> rfl
  | add l r =>
      simp only [Expr.term, Term.op, Term.value, IntOp.ofName?, Expr.eval]
      rw [l.value_term h, r.value_term h]
      rfl
  | multiply l r =>
      simp only [Expr.term, Term.op, Term.value, IntOp.ofName?, Expr.eval]
      rw [l.value_term h, r.value_term h]
      rfl
  | var v => exact value_atom (h v)
  | numeral n => cases n <;> rfl

/-- **Conditions always have a truth value.** -/
theorem Cond.truth_term (h : a.At p) (c : Cond) : c.term.truth a = .ok (c.eval p) := by
  cases c with
  | lt l r =>
      simp only [Cond.term, Term.op, Term.truth, BoolOp.ofName?, Cond.eval]
      rw [l.value_term h, r.value_term h]
      rfl
  | eq l r =>
      simp only [Cond.term, Term.op, Term.truth, BoolOp.ofName?, Cond.eval]
      rw [l.value_term h, r.value_term h]
      rfl
  | and l r =>
      simp only [Cond.term, Term.op, Term.truth, BoolOp.ofName?, Cond.eval]
      rw [l.truth_term h, r.truth_term h]
      cases l.eval p <;> rfl
  | or l r =>
      simp only [Cond.term, Term.op, Term.truth, BoolOp.ofName?, Cond.eval]
      rw [l.truth_term h, r.truth_term h]
      cases l.eval p <;> rfl
  | not c =>
      simp only [Cond.term, Term.op, Term.truth, BoolOp.ofName?, Cond.eval]
      rw [c.truth_term h]
      rfl

end

/-! ## Constants, points and tables -/

/-- A power of two. -/
def Expr.power : Nat → Expr
  | 0 => .numeral .one
  | k + 1 => .multiply (.numeral .two) (.power k)

theorem Expr.eval_power (k : Nat) : (power k).eval p = Int64.ofNat (2 ^ k) := by
  induction k with
  | zero => rfl
  | succ k ih =>
      rw [power, eval, ih, Nat.pow_succ, Nat.mul_comm, Int64.ofNat_mul]
      rfl

/-- A sum of `k` ones, beginning from zero, which is what sixty-four doublings leave. -/
def Expr.count : Nat → Expr
  | 0 => .power 64
  | k + 1 => .add (.count k) (.numeral .one)

theorem Expr.eval_count (k : Nat) : (count k).eval p = Int64.ofNat k := by
  induction k with
  | zero =>
      rw [count, eval_power]
      decide
  | succ k ih =>
      rw [count, eval, ih, Int64.ofNat_add k 1]
      rfl

/-- An expression with a given value. -/
def Expr.constant (n : Int64) : Expr := count n.toBitVec.toNat

@[simp] theorem Expr.eval_constant (n : Int64) : (constant n).eval p = n := by
  rw [constant, eval_count]
  apply Int64.toBitVec_inj.mp
  apply BitVec.eq_of_toNat_eq
  rw [Int64.toBitVec_ofNat', BitVec.toNat_ofNat]
  exact Nat.mod_eq_of_lt n.toBitVec.isLt

/-- The condition that a variable has a certain value. -/
def Cond.has (v : Variable) (n : Int64) : Cond := .eq (.var v) (.constant n)

/-- The condition that holds at one point only. -/
def Cond.at (q : Point) : Cond := .and (has .x q.x) (.and (has .y q.y) (has .z q.z))

@[simp] theorem Cond.eval_at (q : Point) : (Cond.at q).eval p = decide (p = q) := by
  cases p
  cases q
  simp [Cond.at, has, eval, Expr.eval, Point.get]

/-- The condition that holds at certain points only. -/
def Cond.among : List Point → Cond
  | [] => .not (.eq (.numeral .one) (.numeral .one))
  | q :: rest => .or (.at q) (.among rest)

@[simp] theorem Cond.eval_among (points : List Point) :
    (Cond.among points).eval p = decide (p ∈ points) := by
  induction points with
  | nil => simp [among, eval]
  | cons q rest ih => simp [among, eval, ih]

/-- The expression that has certain values at certain points. -/
def Expr.table : List (Point × Int64) → Expr
  | [] => .numeral .one
  | (q, n) :: rest => .ite (.at q) (.constant n) (.table rest)

/-- A table has the values it lists, if it lists only one for each point. -/
theorem Expr.eval_table {entries : List (Point × Int64)} {n : Int64} (h : (p, n) ∈ entries)
    (hunique : ∀ m, (p, m) ∈ entries → m = n) : (table entries).eval p = n := by
  induction entries with
  | nil => simp at h
  | cons entry rest ih =>
      obtain ⟨q, m⟩ := entry
      rw [table, eval, Cond.eval_at, Expr.eval_constant]
      by_cases hpq : p = q
      · subst hpq
        rw [if_pos (by simp)]
        exact hunique m List.mem_cons_self
      · rw [if_neg (by simpa using hpq)]
        refine ih ?_ (fun m hm => hunique m (List.mem_cons_of_mem _ hm))
        rcases List.mem_cons.mp h with heq | hmem
        · exact absurd (Prod.mk.inj heq).1 hpq
        · exact hmem

end Arithmetic

end Sygus
