import Sygus.Proofs.Arithmetic.Meaning

/-!
# Conditional arithmetic over the unbounded integers

Operators mean the same over the unbounded integers as over 64 bits, but for additions and
multiplications that leave the range. An evaluation **wraps** if it comes upon such an
operation; branches that it does not look at do not count. As long as it does not wrap, the
two readings agree.
-/

namespace Sygus.Arithmetic

mutual

/-- The value of an expression over the unbounded integers. -/
def Expr.exact (a : Variable → Int) : Expr → Int
  | .ite c this other => if c.exact a then this.exact a else other.exact a
  | .add l r => l.exact a + r.exact a
  | .multiply l r => l.exact a * r.exact a
  | .var v => a v
  | .numeral n => n.value

/-- The truth value of a condition over the unbounded integers. -/
def Cond.exact (a : Variable → Int) : Cond → Bool
  | .lt l r => decide (l.exact a < r.exact a)
  | .eq l r => decide (l.exact a = r.exact a)
  | .and l r => l.exact a && r.exact a
  | .or l r => l.exact a || r.exact a
  | .not c => !c.exact a

end

mutual

/-- Some addition or multiplication that the evaluation looks at leaves the 64-bit range. -/
def Expr.Wraps (p : Point) : Expr → Prop
  | .ite c this other => c.Wraps p ∨ if c.eval p then this.Wraps p else other.Wraps p
  | .add l r => l.Wraps p ∨ r.Wraps p
      ∨ (l.eval p + r.eval p).toInt ≠ (l.eval p).toInt + (r.eval p).toInt
  | .multiply l r => l.Wraps p ∨ r.Wraps p
      ∨ (l.eval p * r.eval p).toInt ≠ (l.eval p).toInt * (r.eval p).toInt
  | .var _ => False
  | .numeral _ => False

/-- The same for the evaluation of a condition, which may stop at its first argument. -/
def Cond.Wraps (p : Point) : Cond → Prop
  | .lt l r => l.Wraps p ∨ r.Wraps p
  | .eq l r => l.Wraps p ∨ r.Wraps p
  | .and l r => l.Wraps p ∨ l.eval p = true ∧ r.Wraps p
  | .or l r => l.Wraps p ∨ l.eval p = false ∧ r.Wraps p
  | .not c => c.Wraps p

end

/-- The values of the variables as integers. -/
def exactly (p : Point) (v : Variable) : Int := (p.get v).toInt

variable {p : Point}

mutual

/-- **Without wrapping the two readings agree.** -/
theorem Expr.exact_eq : ∀ (e : Expr), ¬ e.Wraps p → e.exact (exactly p) = (e.eval p).toInt
  | .ite c this other, h => by
      rw [Expr.Wraps, not_or] at h
      obtain ⟨hc, hbranch⟩ := h
      rw [Expr.exact, Expr.eval, c.exact_eq hc]
      split
      · rename_i hheld
        rw [if_pos hheld] at hbranch
        exact this.exact_eq hbranch
      · rename_i hfailed
        rw [if_neg hfailed] at hbranch
        exact other.exact_eq hbranch
  | .add l r, h => by
      rw [Expr.Wraps, not_or, not_or, not_not] at h
      rw [Expr.exact, Expr.eval, l.exact_eq h.1, r.exact_eq h.2.1, h.2.2]
  | .multiply l r, h => by
      rw [Expr.Wraps, not_or, not_or, not_not] at h
      rw [Expr.exact, Expr.eval, l.exact_eq h.1, r.exact_eq h.2.1, h.2.2]
  | .var _, _ => rfl
  | .numeral n, _ => by cases n <;> rfl

theorem Cond.exact_eq : ∀ (c : Cond), ¬ c.Wraps p → c.exact (exactly p) = c.eval p
  | .lt l r, h => by
      rw [Cond.Wraps, not_or] at h
      rw [Cond.exact, Cond.eval, l.exact_eq h.1, r.exact_eq h.2]
      exact decide_eq_decide.mpr Int64.lt_iff_toInt_lt.symm
  | .eq l r, h => by
      rw [Cond.Wraps, not_or] at h
      rw [Cond.exact, Cond.eval, l.exact_eq h.1, r.exact_eq h.2]
      exact decide_eq_decide.mpr Int64.toInt_inj
  | .and l r, h => by
      -- the second argument is looked at only if the first one holds
      rw [Cond.Wraps, not_or, not_and] at h
      rw [Cond.exact, Cond.eval, l.exact_eq h.1]
      cases hl : l.eval p with
      | true => rw [r.exact_eq (h.2 hl)]
      | false => rfl
  | .or l r, h => by
      rw [Cond.Wraps, not_or, not_and] at h
      rw [Cond.exact, Cond.eval, l.exact_eq h.1]
      cases hl : l.eval p with
      | true => rfl
      | false => rw [r.exact_eq (h.2 hl)]
  | .not c, h => by
      rw [Cond.exact, Cond.eval, c.exact_eq h]

end

/-! ## Programs that stay in range -/

mutual

/-- An expression and all expressions in it, also those in conditions and in branches that are
not taken. -/
def Expr.subexpressions : Expr → List Expr
  | .ite c this other =>
    .ite c this other :: (c.subexpressions ++ this.subexpressions ++ other.subexpressions)
  | .add l r => .add l r :: (l.subexpressions ++ r.subexpressions)
  | .multiply l r => .multiply l r :: (l.subexpressions ++ r.subexpressions)
  | .var v => [.var v]
  | .numeral n => [.numeral n]

/-- All expressions in a condition. -/
def Cond.subexpressions : Cond → List Expr
  | .lt l r => l.subexpressions ++ r.subexpressions
  | .eq l r => l.subexpressions ++ r.subexpressions
  | .and l r => l.subexpressions ++ r.subexpressions
  | .or l r => l.subexpressions ++ r.subexpressions
  | .not c => c.subexpressions

end

/-- The integer is a 64-bit integer. -/
def InRange (n : Int) : Prop := Int64.minValue.toInt ≤ n ∧ n ≤ Int64.maxValue.toInt

instance (n : Int) : Decidable (InRange n) := inferInstanceAs (Decidable (_ ∧ _))

/-- Over the unbounded integers, the values of all expressions are in range. -/
def Within (a : Variable → Int) (es : List Expr) : Prop := ∀ e ∈ es, InRange (e.exact a)

theorem within_append {a : Variable → Int} {es es' : List Expr} :
    Within a (es ++ es') ↔ Within a es ∧ Within a es' := List.forall_mem_append

theorem within_cons {a : Variable → Int} {e : Expr} {es : List Expr} :
    Within a (e :: es) ↔ InRange (e.exact a) ∧ Within a es := List.forall_mem_cons

/-- A sum in range does not wrap, and neither does a product. -/
theorem toInt_add_of_inRange {m n : Int64} (h : InRange (m.toInt + n.toInt)) :
    (m + n).toInt = m.toInt + n.toInt := by
  rw [InRange, Int64.toInt_minValue, Int64.toInt_maxValue] at h
  rw [Int64.toInt_add]
  exact Int.bmod_eq_of_le (by omega) (by omega)

theorem toInt_mul_of_inRange {m n : Int64} (h : InRange (m.toInt * n.toInt)) :
    (m * n).toInt = m.toInt * n.toInt := by
  rw [InRange, Int64.toInt_minValue, Int64.toInt_maxValue] at h
  rw [Int64.toInt_mul]
  exact Int.bmod_eq_of_le (by omega) (by omega)

mutual

/-- **An evaluation with all values in range does not wrap.** -/
theorem Expr.not_wraps_of_within : ∀ (e : Expr), Within (exactly p) e.subexpressions → ¬ e.Wraps p
  | .ite c this other, h => by
      rw [Expr.subexpressions, within_cons, within_append, within_append] at h
      rw [Expr.Wraps, not_or]
      refine ⟨c.not_wraps_of_within h.2.1.1, ?_⟩
      split
      · exact this.not_wraps_of_within h.2.1.2
      · exact other.not_wraps_of_within h.2.2
  | .add l r, h => by
      rw [Expr.subexpressions, within_cons, within_append, Expr.exact] at h
      have hl := l.not_wraps_of_within h.2.1
      have hr := r.not_wraps_of_within h.2.2
      rw [l.exact_eq hl, r.exact_eq hr] at h
      rw [Expr.Wraps, not_or, not_or, not_not]
      exact ⟨hl, hr, toInt_add_of_inRange h.1⟩
  | .multiply l r, h => by
      rw [Expr.subexpressions, within_cons, within_append, Expr.exact] at h
      have hl := l.not_wraps_of_within h.2.1
      have hr := r.not_wraps_of_within h.2.2
      rw [l.exact_eq hl, r.exact_eq hr] at h
      rw [Expr.Wraps, not_or, not_or, not_not]
      exact ⟨hl, hr, toInt_mul_of_inRange h.1⟩
  | .var _, _ => id
  | .numeral _, _ => id

theorem Cond.not_wraps_of_within : ∀ (c : Cond), Within (exactly p) c.subexpressions → ¬ c.Wraps p
  | .lt l r, h => by
      rw [Cond.subexpressions, within_append] at h
      rw [Cond.Wraps, not_or]
      exact ⟨l.not_wraps_of_within h.1, r.not_wraps_of_within h.2⟩
  | .eq l r, h => by
      rw [Cond.subexpressions, within_append] at h
      rw [Cond.Wraps, not_or]
      exact ⟨l.not_wraps_of_within h.1, r.not_wraps_of_within h.2⟩
  | .and l r, h => by
      rw [Cond.subexpressions, within_append] at h
      rw [Cond.Wraps, not_or, not_and]
      exact ⟨l.not_wraps_of_within h.1, fun _ => r.not_wraps_of_within h.2⟩
  | .or l r, h => by
      rw [Cond.subexpressions, within_append] at h
      rw [Cond.Wraps, not_or, not_and]
      exact ⟨l.not_wraps_of_within h.1, fun _ => r.not_wraps_of_within h.2⟩
  | .not c, h => by
      rw [Cond.subexpressions] at h
      rw [Cond.Wraps]
      exact c.not_wraps_of_within h

end

/-! ## Operators at the root -/

/-- The operator at the root of an expression. -/
def Expr.op : Expr → IntOp
  | .ite .. => .ite
  | .add .. => .add
  | .multiply .. => .multiply
  | .var v => .var v
  | .numeral n => .literal n.value

/-- The operator at the root of a condition. -/
def Cond.op : Cond → BoolOp
  | .lt .. => .lt
  | .eq .. => .eq
  | .and .. => .and
  | .or .. => .or
  | .not _ => .not

/-- The name at the root of an expression's term is that of its operator. -/
theorem Expr.ofName?_of_term {e : Expr} {name : String} {ts : List Term}
    (h : e.term = .node (.terminal name) ts) : IntOp.ofName? name = some e.op := by
  cases e with
  | ite => cases h; rfl
  | add => cases h; rfl
  | multiply => cases h; rfl
  | var v => cases v <;> cases h <;> rfl
  | numeral n => cases n <;> cases h <;> rfl

theorem Cond.ofName?_of_term {c : Cond} {name : String} {ts : List Term}
    (h : c.term = .node (.terminal name) ts) : BoolOp.ofName? name = some c.op := by
  cases c <;> cases h <;> rfl

end Sygus.Arithmetic
