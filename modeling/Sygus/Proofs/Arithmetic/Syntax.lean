import Sygus.Operator
import Sygus.Proofs.Definedness

/-!
# The syntax of conditional arithmetic

The programs of conditional arithmetic as inductive types, one for each category of the
grammar. A term derives from a category exactly if it is the term of an element of
that type, so what is to be shown of all programs can be shown by cases on operators, and
programs can be built without giving a derivation.
-/

namespace Sygus.Arithmetic

open Term (Completes CompletesAll Derives derives_op completes_hole_inv completesAll_nil_inv
  completesAll_one_inv completesAll_two_inv completesAll_three_inv)

/-- The literals of the grammar. -/
inductive Numeral where
  | one
  | two
  | three
  deriving DecidableEq, Repr

/-- The name of a literal in terms. -/
def Numeral.name : Numeral → String
  | one => "1"
  | two => "2"
  | three => "3"

/-- The number that a literal stands for. -/
def Numeral.value : Numeral → Nat
  | one => 1
  | two => 2
  | three => 3

mutual

/-- The programs of category `E`. -/
inductive Expr where
  | ite (c : Cond) (this other : Expr)
  | add (l r : Expr)
  | multiply (l r : Expr)
  | var (v : Variable)
  | numeral (n : Numeral)

/-- The programs of category `B`. -/
inductive Cond where
  | lt (l r : Expr)
  | eq (l r : Expr)
  | and (l r : Cond)
  | or (l r : Cond)
  | not (c : Cond)

end

mutual

def Expr.term : Expr → Term
  | .ite c this other => .op "Ite" [c.term, this.term, other.term]
  | .add l r => .op "Add" [l.term, r.term]
  | .multiply l r => .op "Multiply" [l.term, r.term]
  | .var v => .atom v.name
  | .numeral n => .atom n.name

def Cond.term : Cond → Term
  | .lt l r => .op "Lt" [l.term, r.term]
  | .eq l r => .op "Eq" [l.term, r.term]
  | .and l r => .op "And" [l.term, r.term]
  | .or l r => .op "Or" [l.term, r.term]
  | .not c => .op "Not" [c.term]

end

/-! ## All elements derive -/

mutual

theorem Expr.derives (e : Expr) : Derives .arithmetic (.nonTerminal "E") e.term := by
  cases e with
  | ite c this other =>
      exact derives_op (.cons c.derives (.cons this.derives (.cons other.derives .nil))) (by decide)
  | add l r => exact derives_op (.cons l.derives (.cons r.derives .nil)) (by decide)
  | multiply l r => exact derives_op (.cons l.derives (.cons r.derives .nil)) (by decide)
  | var v => cases v <;> exact derives_op .nil (by decide)
  | numeral n => cases n <;> exact derives_op .nil (by decide)

theorem Cond.derives (c : Cond) : Derives .arithmetic (.nonTerminal "B") c.term := by
  cases c with
  | lt l r => exact derives_op (.cons l.derives (.cons r.derives .nil)) (by decide)
  | eq l r => exact derives_op (.cons l.derives (.cons r.derives .nil)) (by decide)
  | and l r => exact derives_op (.cons l.derives (.cons r.derives .nil)) (by decide)
  | or l r => exact derives_op (.cons l.derives (.cons r.derives .nil)) (by decide)
  | not c => exact derives_op (.cons c.derives .nil) (by decide)

end

/-! ## Nothing else derives -/

section Roots

variable {m : Nat} {p : Production} {ts : List Term}

/-- If the terms that fewer steps derive are those of elements, so are those with such arguments
under a production of `E`. -/
theorem exists_expr_of_root (hp : p ∈ Grammar.arithmetic.productions) (htarget : p.target = "E")
    (hall : CompletesAll .arithmetic m (p.args.map .leaf) ts)
    (expr : ∀ {t}, (∃ i ≤ m, Completes .arithmetic i (.leaf (.nonTerminal "E")) t) →
      ∃ e : Expr, e.term = t)
    (cond : ∀ {t}, (∃ i ≤ m, Completes .arithmetic i (.leaf (.nonTerminal "B")) t) →
      ∃ c : Cond, c.term = t) : ∃ e : Expr, e.term = .op p.operator ts := by
  simp only [Grammar.arithmetic, List.mem_cons, List.not_mem_nil, or_false] at hp
  rcases hp with rfl | rfl | rfl | rfl | rfl | rfl | rfl | rfl | rfl | hp
  · obtain ⟨c, this, other, rfl, hc, hthis, hother⟩ := completesAll_three_inv hall
    obtain ⟨c, rfl⟩ := cond hc
    obtain ⟨this, rfl⟩ := expr hthis
    obtain ⟨other, rfl⟩ := expr hother
    exact ⟨.ite c this other, rfl⟩
  · obtain ⟨l, r, rfl, hl, hr⟩ := completesAll_two_inv hall
    obtain ⟨l, rfl⟩ := expr hl
    obtain ⟨r, rfl⟩ := expr hr
    exact ⟨.add l r, rfl⟩
  · obtain ⟨l, r, rfl, hl, hr⟩ := completesAll_two_inv hall
    obtain ⟨l, rfl⟩ := expr hl
    obtain ⟨r, rfl⟩ := expr hr
    exact ⟨.multiply l r, rfl⟩
  · exact ⟨.var .x, by rw [completesAll_nil_inv hall]; rfl⟩
  · exact ⟨.var .y, by rw [completesAll_nil_inv hall]; rfl⟩
  · exact ⟨.var .z, by rw [completesAll_nil_inv hall]; rfl⟩
  · exact ⟨.numeral .one, by rw [completesAll_nil_inv hall]; rfl⟩
  · exact ⟨.numeral .two, by rw [completesAll_nil_inv hall]; rfl⟩
  · exact ⟨.numeral .three, by rw [completesAll_nil_inv hall]; rfl⟩
  · -- the other productions are those of `B`
    rcases hp with rfl | rfl | rfl | rfl | rfl <;> exact absurd htarget (by decide)

/-- The same under a production of `B`. -/
theorem exists_cond_of_root (hp : p ∈ Grammar.arithmetic.productions) (htarget : p.target = "B")
    (hall : CompletesAll .arithmetic m (p.args.map .leaf) ts)
    (expr : ∀ {t}, (∃ i ≤ m, Completes .arithmetic i (.leaf (.nonTerminal "E")) t) →
      ∃ e : Expr, e.term = t)
    (cond : ∀ {t}, (∃ i ≤ m, Completes .arithmetic i (.leaf (.nonTerminal "B")) t) →
      ∃ c : Cond, c.term = t) : ∃ c : Cond, c.term = .op p.operator ts := by
  simp only [Grammar.arithmetic, List.mem_cons, List.not_mem_nil, or_false] at hp
  rcases hp with rfl | rfl | rfl | rfl | rfl | rfl | rfl | rfl | rfl | hp
  -- the first nine productions are those of `E`
  iterate 9 exact absurd htarget (by decide)
  rcases hp with rfl | rfl | rfl | rfl | rfl
  · obtain ⟨l, r, rfl, hl, hr⟩ := completesAll_two_inv hall
    obtain ⟨l, rfl⟩ := expr hl
    obtain ⟨r, rfl⟩ := expr hr
    exact ⟨.lt l r, rfl⟩
  · obtain ⟨l, r, rfl, hl, hr⟩ := completesAll_two_inv hall
    obtain ⟨l, rfl⟩ := expr hl
    obtain ⟨r, rfl⟩ := expr hr
    exact ⟨.eq l r, rfl⟩
  · obtain ⟨l, r, rfl, hl, hr⟩ := completesAll_two_inv hall
    obtain ⟨l, rfl⟩ := cond hl
    obtain ⟨r, rfl⟩ := cond hr
    exact ⟨.and l r, rfl⟩
  · obtain ⟨l, r, rfl, hl, hr⟩ := completesAll_two_inv hall
    obtain ⟨l, rfl⟩ := cond hl
    obtain ⟨r, rfl⟩ := cond hr
    exact ⟨.or l r, rfl⟩
  · obtain ⟨c, rfl, hc⟩ := completesAll_one_inv hall
    obtain ⟨c, rfl⟩ := cond hc
    exact ⟨.not c, rfl⟩

end Roots

/-- Whatever derives is the term of an element, by induction on the number of steps. -/
theorem exists_of_completes (n : Nat) :
    (∀ t, Completes .arithmetic n (.leaf (.nonTerminal "E")) t → ∃ e : Expr, e.term = t)
      ∧ ∀ t, Completes .arithmetic n (.leaf (.nonTerminal "B")) t → ∃ c : Cond, c.term = t := by
  induction n using Nat.strong_induction_on with
  | _ n ih =>
      have expr : ∀ {m : Nat} {t : Term}, m < n →
          (∃ i ≤ m, Completes .arithmetic i (.leaf (.nonTerminal "E")) t) →
          ∃ e : Expr, e.term = t :=
        fun hm ⟨i, hi, h⟩ => (ih i (by omega)).1 _ h
      have cond : ∀ {m : Nat} {t : Term}, m < n →
          (∃ i ≤ m, Completes .arithmetic i (.leaf (.nonTerminal "B")) t) →
          ∃ c : Cond, c.term = t :=
        fun hm ⟨i, hi, h⟩ => (ih i (by omega)).2 _ h
      refine ⟨?_, ?_⟩
      · intro t h
        obtain ⟨m, hm, p, hp, htarget, ts, rfl, hall⟩ := completes_hole_inv h
        exact exists_expr_of_root hp htarget hall (expr hm) (cond hm)
      · intro t h
        obtain ⟨m, hm, p, hp, htarget, ts, rfl, hall⟩ := completes_hole_inv h
        exact exists_cond_of_root hp htarget hall (expr hm) (cond hm)

/-- **The terms that derive from `E` are the terms of expressions.** -/
theorem derives_expr_iff {t : Term} :
    Derives .arithmetic (.nonTerminal "E") t ↔ ∃ e : Expr, e.term = t := by
  refine ⟨?_, ?_⟩
  · intro hexists
    obtain ⟨n, h⟩ := hexists
    exact (exists_of_completes n).1 t h
  · intro hexists
    obtain ⟨e, rfl⟩ := hexists
    exact e.derives

/-- **The terms that derive from `B` are the terms of conditions.** -/
theorem derives_cond_iff {t : Term} :
    Derives .arithmetic (.nonTerminal "B") t ↔ ∃ c : Cond, c.term = t := by
  refine ⟨?_, ?_⟩
  · intro hexists
    obtain ⟨n, h⟩ := hexists
    exact (exists_of_completes n).2 t h
  · intro hexists
    obtain ⟨c, rfl⟩ := hexists
    exact c.derives

theorem defines_expr : Grammar.arithmetic.Defines "E" := ⟨.leaf "E" "x", by decide, rfl⟩

theorem defines_cond : Grammar.arithmetic.Defines "B" :=
  ⟨⟨"B", "Not", [.nonTerminal "B"]⟩, by decide, rfl⟩

/-- No walk through the grammar meets a term that cannot be expanded. -/
theorem closed : Grammar.arithmetic.Closed := by
  have hargs : ∀ p ∈ Grammar.arithmetic.productions, ∀ s ∈ p.args,
      s = .nonTerminal "E" ∨ s = .nonTerminal "B" := by decide
  intro p hp category hcategory
  rcases hargs p hp _ hcategory with heq | heq
  · cases heq
    exact defines_expr
  · cases heq
    exact defines_cond

/-- Both categories derive something. -/
theorem productive : Grammar.arithmetic.Productive := by
  intro category hdefined
  obtain ⟨p, hp, rfl⟩ := hdefined
  have htarget : ∀ p ∈ Grammar.arithmetic.productions, p.target = "E" ∨ p.target = "B" := by decide
  rcases htarget p hp with heq | heq
  · rw [heq]
    exact ⟨_, (Expr.numeral .one).derives⟩
  · rw [heq]
    exact ⟨_, (Cond.lt (.numeral .one) (.numeral .one)).derives⟩

end Sygus.Arithmetic
