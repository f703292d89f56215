import Sygus.Proofs.Arithmetic.Exact
import Sygus.Proofs.Definedness
import Sygus.Proofs.Evaluation.Visits
import Sygus.Proofs.Feasibility.Sketching

/-!
# Evaluation with wrap-around and exact evaluation

Over the unbounded integers a term has an **exact** value, which is found as lazily as the 64-bit
value is. Sums and products may leave the 64-bit range on the way as often as they like: reduction
modulo `2 ^ 64` commutes with them, so the 64-bit value is the exact one reduced at the end.
Comparisons do not commute with reduction. What is compared has to be in range, but only in those
comparisons that evaluation comes by (`ComparedInRange`).

A sketch is the exact value as a formula. It is drawn of all branches, and so is `exactValue`, which
fails if any of them is faulty; evaluation goes along one of them, and on that one it agrees with the
sketch (`IntSketched.value_eq`).
-/

namespace Sygus

open Arithmetic (InRange)

namespace Term

mutual

/-- The integer value of a term over the unbounded integers, if there is one. -/
def unboundedValue (a : Assignment) : Term → Option Int
  | node (.nonTerminal _) _ => none
  | node (.terminal name) args =>
    match IntOp.ofName? name, args with
    | some .ite, [condition, this, other] => do
      if ← condition.unboundedTruth a then this.unboundedValue a else other.unboundedValue a
    | some .add, [l, r] => do return (← l.unboundedValue a) + (← r.unboundedValue a)
    | some .multiply, [l, r] => do return (← l.unboundedValue a) * (← r.unboundedValue a)
    | some (.var v), [] => (a.get? v.name).map Int64.toInt
    | some (.literal n), [] => some n
    | _, _ => none

/-- The truth value of a term over the unbounded integers, if there is one. -/
def unboundedTruth (a : Assignment) : Term → Option Bool
  | node (.nonTerminal _) _ => none
  | node (.terminal name) args =>
    match BoolOp.ofName? name, args with
    | some .lt, [l, r] => do return decide ((← l.unboundedValue a) < (← r.unboundedValue a))
    | some .eq, [l, r] => do return decide ((← l.unboundedValue a) = (← r.unboundedValue a))
    | some .and, [l, r] => do if ← l.unboundedTruth a then r.unboundedTruth a else return false
    | some .or, [l, r] => do if ← l.unboundedTruth a then return true else r.unboundedTruth a
    | some .not, [t] => do return !(← t.unboundedTruth a)
    | _, _ => none

end

variable {a : Assignment} {name : String} {t c e l r : Term} {i j : Int} {b b' : Bool}

/-! ## Exact evaluation, form by form -/

-- the equations of both functions are derived here, once for all forms
attribute [local simp] unboundedValue unboundedTruth

theorem unboundedValue_ite (hop : IntOp.ofName? name = some .ite) :
    (node (.terminal name) [c, t, e]).unboundedValue a
      = (c.unboundedTruth a).bind fun b =>
          if b then t.unboundedValue a else e.unboundedValue a := by
  simp only [unboundedValue, hop]
  rfl

theorem unboundedValue_add (hop : IntOp.ofName? name = some .add) :
    (node (.terminal name) [l, r]).unboundedValue a
      = (l.unboundedValue a).bind fun i => (r.unboundedValue a).bind fun j => some (i + j) := by
  simp only [unboundedValue, hop]
  rfl

theorem unboundedValue_multiply (hop : IntOp.ofName? name = some .multiply) :
    (node (.terminal name) [l, r]).unboundedValue a
      = (l.unboundedValue a).bind fun i => (r.unboundedValue a).bind fun j => some (i * j) := by
  simp only [unboundedValue, hop]
  rfl

theorem unboundedValue_var {v : Variable} (hop : IntOp.ofName? name = some (.var v)) :
    (node (.terminal name) []).unboundedValue a = (a.get? v.name).map Int64.toInt := by
  unfold unboundedValue
  simp only [hop]

theorem unboundedValue_literal {n : Nat} (hop : IntOp.ofName? name = some (.literal n)) :
    (node (.terminal name) []).unboundedValue a = some (n : Int) := by
  unfold unboundedValue
  simp only [hop]

theorem unboundedTruth_lt (hop : BoolOp.ofName? name = some .lt) :
    (node (.terminal name) [l, r]).unboundedTruth a
      = (l.unboundedValue a).bind fun i =>
          (r.unboundedValue a).bind fun j => some (decide (i < j)) := by
  simp only [unboundedTruth, hop]
  rfl

theorem unboundedTruth_eq (hop : BoolOp.ofName? name = some .eq) :
    (node (.terminal name) [l, r]).unboundedTruth a
      = (l.unboundedValue a).bind fun i =>
          (r.unboundedValue a).bind fun j => some (decide (i = j)) := by
  simp only [unboundedTruth, hop]
  rfl

theorem unboundedTruth_and (hop : BoolOp.ofName? name = some .and) :
    (node (.terminal name) [l, r]).unboundedTruth a
      = (l.unboundedTruth a).bind fun b => if b then r.unboundedTruth a else some false := by
  simp only [unboundedTruth, hop]
  rfl

theorem unboundedTruth_or (hop : BoolOp.ofName? name = some .or) :
    (node (.terminal name) [l, r]).unboundedTruth a
      = (l.unboundedTruth a).bind fun b => if b then some true else r.unboundedTruth a := by
  simp only [unboundedTruth, hop]
  rfl

theorem unboundedTruth_not (hop : BoolOp.ofName? name = some .not) :
    (node (.terminal name) [t]).unboundedTruth a
      = (t.unboundedTruth a).bind fun b => some (!b) := by
  simp only [unboundedTruth, hop]
  rfl

/-! ## Reduction modulo `2 ^ 64` -/

/-- Nothing that the node compares has an exact value out of range. -/
def ComparedInRange (a : Assignment) (u : Term) : Prop :=
  u.symbol = .terminal "Lt" ∨ u.symbol = .terminal "Eq" →
    ∀ c ∈ u.children, ∀ i, c.unboundedValue a = some i → InRange i

/-- The 64-bit value of the term is its exact value, reduced. -/
def Wraps (a : Assignment) (t : Term) : Prop :=
  ∀ n, t.value a = .ok n → (∀ u ∈ t.valueVisits a, ComparedInRange a u) →
    ∃ i, t.unboundedValue a = some i ∧ n = Int64.ofInt i

/-- The truth value of the term is its exact one. -/
def Holds (a : Assignment) (t : Term) : Prop :=
  ∀ b, t.truth a = .ok b → (∀ u ∈ t.truthVisits a, ComparedInRange a u) →
    t.unboundedTruth a = some b

theorem toInt_ofInt_of_inRange {i : Int} (h : InRange i) : (Int64.ofInt i).toInt = i := by
  rw [InRange, Int64.toInt_minValue, Int64.toInt_maxValue] at h
  exact Int64.toInt_ofInt_of_le (by omega) (by omega)

/-- If a sequence of computations succeeds, then all of its visits are made. -/
theorem visits_of_ok {α β : Type} {x : Except Fault α} {f : α → Except Fault β} {y : β}
    {visits : List Term} {next : α → List Term} {P : Term → Prop} (h : (x >>= f) = .ok y)
    (hvisits : ∀ u ∈ visits ++ visitsAfter x next, P u) :
    ∃ v, x = .ok v ∧ f v = .ok y ∧ (∀ u ∈ visits, P u) ∧ ∀ u ∈ next v, P u := by
  obtain ⟨v, rfl, hv⟩ := bind_eq_ok.mp h
  rw [visitsAfter_ok, List.forall_mem_append] at hvisits
  exact ⟨v, rfl, hv, hvisits⟩

/-- What comes of two operands that wrap. -/
theorem unboundedValues_of_ok {β : Type} {f : Int64 → Int64 → β} {y : β} (hl : Wraps a l)
    (hr : Wraps a r) (h : (l.value a >>= fun m => r.value a >>= fun n => .ok (f m n)) = .ok y)
    (hvisits : ∀ u ∈ l.valueVisits a ++ visitsAfter (l.value a) fun _ => r.valueVisits a,
      ComparedInRange a u) :
    ∃ i j, l.unboundedValue a = some i ∧ r.unboundedValue a = some j
      ∧ y = f (Int64.ofInt i) (Int64.ofInt j) := by
  obtain ⟨m, hm, h, hlvisits, hrvisits⟩ := visits_of_ok h hvisits
  obtain ⟨n, hn, h⟩ := bind_eq_ok.mp h
  cases h
  obtain ⟨i, hi, rfl⟩ := hl m hm hlvisits
  obtain ⟨j, hj, rfl⟩ := hr n hn hrvisits
  exact ⟨i, j, hi, hj, rfl⟩

/-- In a comparison that is visited, the operands compare as the exact values do. -/
theorem compare_iff (hu : ComparedInRange a (node (.terminal name) [l, r]))
    (hname : name = "Lt" ∨ name = "Eq") (hl : l.unboundedValue a = some i)
    (hr : r.unboundedValue a = some j) :
    (Int64.ofInt i < Int64.ofInt j ↔ i < j) ∧ (Int64.ofInt i = Int64.ofInt j ↔ i = j) := by
  have hin := hu (by simpa [symbol] using hname)
  have hi := toInt_ofInt_of_inRange (hin l (by simp [children]) i hl)
  have hj := toInt_ofInt_of_inRange (hin r (by simp [children]) j hr)
  rw [Int64.lt_iff_toInt_lt, ← Int64.toInt_inj, hi, hj]
  exact ⟨Iff.rfl, Iff.rfl⟩

theorem wraps_terminal {args : List Term} (ih : ∀ c ∈ args, Wraps a c ∧ Holds a c) :
    Wraps a (node (.terminal name) args) := by
  intro n hn hvisits
  cases intForm name args with
  | @ite c t e hop =>
      rw [value_ite hop] at hn
      rw [valueVisits_ite hop, List.forall_mem_cons] at hvisits
      obtain ⟨b, hb, hn, hcvisits, hvisits⟩ := visits_of_ok hn hvisits.2
      rw [unboundedValue_ite hop, (ih c (by simp)).2 b hb hcvisits, Option.bind_some]
      cases b with
      | true => exact (ih t (by simp)).1 n hn hvisits
      | false => exact (ih e (by simp)).1 n hn hvisits
  | @add l r hop =>
      rw [value_add hop] at hn
      rw [valueVisits_add hop, List.forall_mem_cons] at hvisits
      obtain ⟨i, j, hi, hj, rfl⟩ :=
        unboundedValues_of_ok (ih l (by simp)).1 (ih r (by simp)).1 hn hvisits.2
      exact ⟨i + j, by rw [unboundedValue_add hop, hi, hj]; rfl, (Int64.ofInt_add i j).symm⟩
  | @multiply l r hop =>
      rw [value_multiply hop] at hn
      rw [valueVisits_multiply hop, List.forall_mem_cons] at hvisits
      obtain ⟨i, j, hi, hj, rfl⟩ :=
        unboundedValues_of_ok (ih l (by simp)).1 (ih r (by simp)).1 hn hvisits.2
      exact ⟨i * j, by rw [unboundedValue_multiply hop, hi, hj]; rfl, (Int64.ofInt_mul i j).symm⟩
  | @var v hop =>
      rw [value_var hop] at hn
      rw [unboundedValue_var hop]
      cases hv : a.get? v.name with
      | none =>
          rw [hv] at hn
          cases hn
      | some m =>
          rw [hv] at hn
          cases hn
          exact ⟨n.toInt, rfl, (Int64.ofInt_toInt n).symm⟩
  | @literal k hop =>
      rw [value_literal hop] at hn
      cases hn
      exact ⟨k, unboundedValue_literal hop, Int64.ofInt_eq_ofNat.symm⟩
  | misplaced hop hargs =>
      rw [value_misplaced hop hargs] at hn
      cases hn
  | unknown hop =>
      rw [value_unknown hop] at hn
      cases hn

theorem holds_terminal {args : List Term} (ih : ∀ c ∈ args, Wraps a c ∧ Holds a c) :
    Holds a (node (.terminal name) args) := by
  intro b hb hvisits
  cases boolForm name args with
  | @lt l r hop =>
      rw [truth_lt hop] at hb
      rw [truthVisits_lt hop, List.forall_mem_cons] at hvisits
      obtain ⟨i, j, hi, hj, rfl⟩ :=
        unboundedValues_of_ok (ih l (by simp)).1 (ih r (by simp)).1 hb hvisits.2
      have hlt := (compare_iff hvisits.1 (Or.inl (BoolOp.eq_name hop)) hi hj).1
      rw [unboundedTruth_lt hop, hi, hj, decide_eq_decide.mpr hlt]
      rfl
  | @eq l r hop =>
      rw [truth_eq hop] at hb
      rw [truthVisits_eq hop, List.forall_mem_cons] at hvisits
      obtain ⟨i, j, hi, hj, rfl⟩ :=
        unboundedValues_of_ok (ih l (by simp)).1 (ih r (by simp)).1 hb hvisits.2
      have heq := (compare_iff hvisits.1 (Or.inr (BoolOp.eq_name hop)) hi hj).2
      rw [unboundedTruth_eq hop, hi, hj, decide_eq_decide.mpr heq]
      rfl
  | @and l r hop =>
      rw [truth_and hop] at hb
      rw [truthVisits_and hop, List.forall_mem_cons] at hvisits
      obtain ⟨b', hb', hb, hlvisits, hvisits⟩ := visits_of_ok hb hvisits.2
      rw [unboundedTruth_and hop, (ih l (by simp)).2 b' hb' hlvisits, Option.bind_some]
      cases b' with
      | true => exact (ih r (by simp)).2 b hb hvisits
      | false =>
          cases hb
          rfl
  | @or l r hop =>
      rw [truth_or hop] at hb
      rw [truthVisits_or hop, List.forall_mem_cons] at hvisits
      obtain ⟨b', hb', hb, hlvisits, hvisits⟩ := visits_of_ok hb hvisits.2
      rw [unboundedTruth_or hop, (ih l (by simp)).2 b' hb' hlvisits, Option.bind_some]
      cases b' with
      | true =>
          cases hb
          rfl
      | false => exact (ih r (by simp)).2 b hb hvisits
  | @not t hop =>
      rw [truth_not hop] at hb
      obtain ⟨b', hb', hb⟩ := bind_eq_ok.mp hb
      cases hb
      rw [truthVisits_not hop, List.forall_mem_cons] at hvisits
      rw [unboundedTruth_not hop, (ih t (by simp)).2 b' hb' hvisits.2]
      rfl
  | misplaced hop hargs =>
      rw [truth_misplaced hop hargs] at hb
      cases hb
  | unknown hop =>
      rw [truth_unknown hop] at hb
      cases hb

/-- **Every term wraps as long as it compares in range.** -/
theorem wraps_and_holds (a : Assignment) (t : Term) : Wraps a t ∧ Holds a t := by
  induction t using children_induction with
  | node s args ih =>
      cases s with
      | nonTerminal category =>
          refine ⟨fun n hn => ?_, fun b hb => ?_⟩
          · rw [value] at hn
            cases hn
          · rw [truth] at hb
            cases hb
      | terminal name => exact ⟨wraps_terminal ih, holds_terminal ih⟩

/-! ## Terms without branches -/

theorem ofName?_eq_none_of_comparison (h : name = "Lt" ∨ name = "Eq") :
    IntOp.ofName? name = none := by
  rcases h with rfl | rfl <;> rfl

/-- An operator for integers compares nothing. -/
theorem comparedInRange_of_intOp {op : IntOp} {args : List Term}
    (hop : IntOp.ofName? name = some op) : ComparedInRange a (node (.terminal name) args) := by
  intro h
  rw [symbol, Symbol.terminal.injEq, Symbol.terminal.injEq] at h
  rw [ofName?_eq_none_of_comparison h] at hop
  cases hop

/-- Without branches there are no conditions, and without conditions nothing is compared. -/
theorem comparedInRange_of_no_ite {n : Int64} (hite : Symbol.terminal "Ite" ∉ t.symbols)
    (hn : t.value a = .ok n) : ∀ u ∈ t.valueVisits a, ComparedInRange a u := by
  induction t using children_induction generalizing n with
  | node s args ih =>
      rw [symbols, List.mem_cons, mem_symbolsOfAll, not_or] at hite
      have hargs : ∀ c ∈ args, Symbol.terminal "Ite" ∉ c.symbols :=
        fun c hc hmem => hite.2 ⟨c, hc, hmem⟩
      cases s with
      | nonTerminal category =>
          rw [value] at hn
          cases hn
      | terminal name =>
          cases intForm name args with
          | ite hop => exact absurd (by rw [IntOp.eq_ite hop]) hite.1
          | @add l r hop =>
              -- the term has a value, so both operands have one and the induction applies to both
              rw [value_add hop] at hn
              obtain ⟨m, hm, hn⟩ := bind_eq_ok.mp hn
              obtain ⟨k, hk, _⟩ := bind_eq_ok.mp hn
              rw [valueVisits_add hop, hm, visitsAfter_ok, List.forall_mem_cons,
                List.forall_mem_append]
              exact ⟨comparedInRange_of_intOp hop, ih l (by simp) (hargs l (by simp)) hm,
                ih r (by simp) (hargs r (by simp)) hk⟩
          | @multiply l r hop =>
              rw [value_multiply hop] at hn
              obtain ⟨m, hm, hn⟩ := bind_eq_ok.mp hn
              obtain ⟨k, hk, _⟩ := bind_eq_ok.mp hn
              rw [valueVisits_multiply hop, hm, visitsAfter_ok, List.forall_mem_cons,
                List.forall_mem_append]
              exact ⟨comparedInRange_of_intOp hop, ih l (by simp) (hargs l (by simp)) hm,
                ih r (by simp) (hargs r (by simp)) hk⟩
          | var hop | literal hop =>
              rw [valueVisits_nil, List.forall_mem_singleton]
              exact comparedInRange_of_intOp hop
          | misplaced hop hargs =>
              rw [value_misplaced hop hargs] at hn
              cases hn
          | unknown hop =>
              rw [value_unknown hop] at hn
              cases hn

end Term

/-! ## The exact value as a formula -/

/-- Two operands have exact values if an operator over them has one. -/
theorem two_of_eq_some {β : Type} {x y : Option Int} {op : Int → Int → β} {z : β}
    (h : (x.bind fun i => y.bind fun j => some (op i j)) = some z) :
    ∃ i j, x = some i ∧ y = some j ∧ z = op i j := by
  obtain ⟨i, hi, h⟩ := Option.bind_eq_some_iff.mp h
  obtain ⟨j, hj, h⟩ := Option.bind_eq_some_iff.mp h
  cases h
  exact ⟨i, j, hi, hj, rfl⟩

/-- The variables that the input gives a value have that value in the filling. -/
def Filling.Extends (f : Filling) (a : Assignment) : Prop :=
  ∀ v n, a.get? (Variable.name v) = some n → f.var v = n.toInt

variable {a : Assignment} {f : Filling} {m m' : Numbering} {t : Term}

mutual

/-- A sketch has the exact value of its term. -/
theorem IntSketched.value_eq {m m' : Numbering} {t : Term} {s : IntSketch} {i : Int}
    (hf : f.Extends a) (h : IntSketched m t s m') (hi : t.unboundedValue a = some i) :
    s.value f = i := by
  cases h with
  | hole =>
      rw [Term.unboundedValue] at hi
      cases hi
  | ite hop hc ht he =>
      rw [Term.unboundedValue_ite hop, Option.bind_eq_some_iff] at hi
      obtain ⟨b, hb, hi⟩ := hi
      rw [IntSketch.value, hc.value_eq hf hb]
      cases b with
      | true => exact ht.value_eq hf hi
      | false => exact he.value_eq hf hi
  | add hop hl hr =>
      rw [Term.unboundedValue_add hop] at hi
      obtain ⟨j, k, hj, hk, rfl⟩ := two_of_eq_some hi
      rw [IntSketch.value, hl.value_eq hf hj, hr.value_eq hf hk]
  | multiply hop hl hr =>
      rw [Term.unboundedValue_multiply hop] at hi
      obtain ⟨j, k, hj, hk, rfl⟩ := two_of_eq_some hi
      rw [IntSketch.value, hl.value_eq hf hj, hr.value_eq hf hk]
  | @var _ _ args v hop =>
      -- a sketch takes the variable whatever its children, but with children there is no value
      cases args with
      | nil =>
          rw [Term.unboundedValue_var hop, Option.map_eq_some_iff] at hi
          obtain ⟨n, hn, rfl⟩ := hi
          exact hf v n hn
      | cons c args => simp [Term.unboundedValue, hop] at hi
  | @literal _ _ args k hop =>
      cases args with
      | nil =>
          rw [Term.unboundedValue_literal hop] at hi
          cases hi
          rfl
      | cons c args => simp [Term.unboundedValue, hop] at hi

theorem BoolSketched.value_eq {m m' : Numbering} {t : Term} {s : BoolSketch} {b : Bool}
    (hf : f.Extends a) (h : BoolSketched m t s m') (hb : t.unboundedTruth a = some b) :
    s.value f = b := by
  cases h with
  | hole =>
      rw [Term.unboundedTruth] at hb
      cases hb
  | lt hop hl hr =>
      rw [Term.unboundedTruth_lt hop] at hb
      obtain ⟨j, k, hj, hk, rfl⟩ := two_of_eq_some hb
      rw [BoolSketch.value, hl.value_eq hf hj, hr.value_eq hf hk]
  | eq hop hl hr =>
      rw [Term.unboundedTruth_eq hop] at hb
      obtain ⟨j, k, hj, hk, rfl⟩ := two_of_eq_some hb
      rw [BoolSketch.value, hl.value_eq hf hj, hr.value_eq hf hk]
  | and hop hl hr =>
      rw [Term.unboundedTruth_and hop, Option.bind_eq_some_iff] at hb
      obtain ⟨b', hb', hb⟩ := hb
      rw [BoolSketch.value, hl.value_eq hf hb']
      cases b' with
      | true => exact hr.value_eq hf hb
      | false =>
          cases hb
          rfl
  | or hop hl hr =>
      rw [Term.unboundedTruth_or hop, Option.bind_eq_some_iff] at hb
      obtain ⟨b', hb', hb⟩ := hb
      rw [BoolSketch.value, hl.value_eq hf hb']
      cases b' with
      | true =>
          cases hb
          rfl
      | false => exact hr.value_eq hf hb
  | not hop ht =>
      rw [Term.unboundedTruth_not hop, Option.bind_eq_some_iff] at hb
      obtain ⟨b', hb', hb⟩ := hb
      cases hb
      rw [BoolSketch.value, ht.value_eq hf hb']

end

namespace Term

/--
**The 64-bit value is the exact value, reduced.**

Let a term have a value under an input, and suppose that no operand of a comparison that evaluation
comes by has an exact value out of range; a term without branches comes by no comparison. Then the
term has an exact value, and its value is what remains of that modulo `2 ^ 64`, as a signed integer.
So if the exact value is in range, both are equal. If the term has a sketch, then the sketch has the
exact value, whatever is filled in for holes and for variables without a value.
-/
theorem value_eq_unboundedValue_reduced {n : Int64} (hn : t.value a = .ok n)
    (hcompared : (∀ u ∈ t.valueVisits a, ComparedInRange a u)
      ∨ Symbol.terminal "Ite" ∉ t.symbols) :
    ∃ i, t.unboundedValue a = some i ∧ n.toInt = i.bmod (2 ^ 64) ∧ (InRange i → n.toInt = i)
      ∧ ∀ s, t.sketch = .ok s → ∀ f : Filling, f.Extends a → s.value f = i := by
  have hvisits : ∀ u ∈ t.valueVisits a, ComparedInRange a u :=
    hcompared.elim id fun hite => comparedInRange_of_no_ite hite hn
  obtain ⟨i, hi, rfl⟩ := (wraps_and_holds a t).1 n hn hvisits
  refine ⟨i, hi, Int64.toInt_ofInt, toInt_ofInt_of_inRange, fun s hs f hf => ?_⟩
  obtain ⟨m, hsketched⟩ := exists_sketched hs
  exact hsketched.value_eq hf hi

/-- The input that gives `x` the greatest value there is. -/
def greatestX : Assignment := .ofList [("x", Int64.maxValue)]

/-- The product of `x` and `x + 2`. -/
def overflow : Term := op "Multiply" [atom "x", op "Add" [atom "x", atom "2"]]

/-- The product if `x` is greater than one. -/
def guarded : Term := op "Ite" [op "Lt" [atom "1", atom "x"], overflow, atom "y"]

/-- A comparison of `x + 1`, which is less than `x` after it has wrapped. -/
def unfair : Term :=
  op "Ite" [op "Lt" [op "Add" [atom "x", atom "1"], atom "x"], atom "1", atom "2"]

theorem guarded_compares_in_range :
    ∀ u ∈ guarded.valueVisits greatestX, ComparedInRange greatestX u := by
  have hvisits : guarded.valueVisits greatestX = [guarded, op "Lt" [atom "1", atom "x"], atom "1",
      atom "x", overflow, atom "x", op "Add" [atom "x", atom "2"], atom "x", atom "2"] := rfl
  have hone : (atom "1").unboundedValue greatestX = some 1 := rfl
  have hx : (atom "x").unboundedValue greatestX = some Int64.maxValue.toInt := rfl
  have hboth : ∀ c ∈ [atom "1", atom "x"], ∀ i, c.unboundedValue greatestX = some i →
      InRange i := by
    simp only [List.forall_mem_cons, hone, hx, Option.some.injEq, forall_eq']
    decide
  rw [hvisits]
  simpa [ComparedInRange, guarded, overflow, op, atom, leaf, symbol, children] using hboth

/-- The product is `2 ^ 126 - 1`. The last term shows that a comparison out of range matters: the
exact value is two. -/
theorem value_eq_unboundedValue_reduced_greatestX :
    (guarded.value greatestX = .ok (-1)
        ∧ (-1 : Int64).toInt = (2 ^ 126 - 1 : Int).bmod (2 ^ 64)
        ∧ ∀ s, guarded.sketch = .ok s → ∀ f : Filling, f.Extends greatestX →
            s.value f = 2 ^ 126 - 1)
      ∧ (∃ i, overflow.unboundedValue greatestX = some i ∧ (-1 : Int64).toInt = i.bmod (2 ^ 64))
      ∧ unfair.value greatestX = .ok 1 ∧ unfair.unboundedValue greatestX = some 2 := by
  have hguarded : guarded.value greatestX = .ok (-1) := rfl
  have hoverflow : overflow.value greatestX = .ok (-1) := rfl
  obtain ⟨i, hi, hmod, _, hsketch⟩ :=
    value_eq_unboundedValue_reduced hguarded (Or.inl guarded_compares_in_range)
  obtain ⟨j, hj, hmod', _, _⟩ := value_eq_unboundedValue_reduced hoverflow
    (Or.inr (by simp [overflow, op, atom, leaf, symbols, symbolsOfAll]))
  have hproduct : guarded.unboundedValue greatestX = some (2 ^ 126 - 1) := rfl
  rw [hproduct] at hi
  cases hi
  exact ⟨⟨hguarded, hmod, hsketch⟩, ⟨j, hj, hmod'⟩, rfl, rfl⟩

end Term

end Sygus
