import Sygus.Proofs.Arithmetic.Exact
import Sygus.Proofs.Arithmetic.Labels
import Sygus.Proofs.Feasibility.Fillings

/-!
# Feasibility is decided

What a partial term can compute is said here without sketches, unknowns and sets of values:
each hole is given a value of its own, found by the position of the hole in the term, and the
operators are read over the unbounded integers.

If the variables all have values and nothing is known of the unknowns, what a sketch computes under
some filling is exactly what its term can compute (`IntSketched.permits_iff_canCompute`). Both sides
go through the operators in the same way, because children have no hole in common and what is chosen
for one never stands in the way of what is chosen for another. The set of a leftmost term's sketch
holds the same, so that feasibility is decided.
-/

namespace Sygus

/-- Values for the holes of a term. A hole is found by its position, the numbers of the children
on the way to it. -/
structure Holes where
  int : List Nat → Int
  bool : List Nat → Bool

namespace Holes

/-- The values for the holes below a child. -/
def child (h : Holes) (i : Nat) : Holes := ⟨fun p => h.int (i :: p), fun p => h.bool (i :: p)⟩

/-- Values for a term whose root is no hole, given those for each child. -/
def ofChildren (hs : Nat → Holes) : Holes where
  int
    | [] => 0
    | i :: p => (hs i).int p
  bool
    | [] => false
    | i :: p => (hs i).bool p

end Holes

namespace Term

mutual

/-- The integer that a term computes over the unbounded integers, its holes having these values. A
variable or a literal is taken as it is, whatever its children. -/
@[simp] def exactValue (a : Variable → Int) (h : Holes) : Term → Option Int
  | node (.nonTerminal _) _ => some (h.int [])
  | node (.terminal name) args =>
    match IntOp.ofName? name, args with
    | some .ite, [condition, this, other] => do
      let b ← condition.exactTruth a (h.child 0)
      let i ← this.exactValue a (h.child 1)
      let j ← other.exactValue a (h.child 2)
      return if b then i else j
    | some .add, [l, r] => do
      return (← l.exactValue a (h.child 0)) + (← r.exactValue a (h.child 1))
    | some .multiply, [l, r] => do
      return (← l.exactValue a (h.child 0)) * (← r.exactValue a (h.child 1))
    | some (.var v), _ => some (a v)
    | some (.literal n), _ => some n
    | _, _ => none

/-- The truth value that a term computes. -/
@[simp] def exactTruth (a : Variable → Int) (h : Holes) : Term → Option Bool
  | node (.nonTerminal _) _ => some (h.bool [])
  | node (.terminal name) args =>
    match BoolOp.ofName? name, args with
    | some .lt, [l, r] => do
      return decide ((← l.exactValue a (h.child 0)) < (← r.exactValue a (h.child 1)))
    | some .eq, [l, r] => do
      return decide ((← l.exactValue a (h.child 0)) = (← r.exactValue a (h.child 1)))
    | some .and, [l, r] => do
      return (← l.exactTruth a (h.child 0)) && (← r.exactTruth a (h.child 1))
    | some .or, [l, r] => do
      return (← l.exactTruth a (h.child 0)) || (← r.exactTruth a (h.child 1))
    | some .not, [t] => do return !(← t.exactTruth a (h.child 0))
    | _, _ => none

end

/-- What the term computes for some values of its holes. -/
def CanCompute (a : Variable → Int) (t : Term) (n : Int) : Prop := ∃ h, t.exactValue a h = some n

/-- The truth values that the term computes for some values of its holes. -/
def CanDecide (a : Variable → Int) (t : Term) (b : Bool) : Prop := ∃ h, t.exactTruth a h = some b

end Term

/-! ## Children have no hole in common -/

section Children

variable {α β γ δ : Type} (x : Holes → Option α) (y : Holes → Option β) (z : Holes → Option γ)

theorem exists_holes_one (f : α → δ) {d : δ} :
    (∃ h : Holes, (do return f (← x (h.child 0))) = some d) ↔ ∃ a, (∃ h, x h = some a) ∧ d = f a := by
  refine ⟨?_, ?_⟩
  · rintro ⟨h, hd⟩
    obtain ⟨a, ha, hd⟩ := Option.bind_eq_some_iff.mp hd
    exact ⟨a, ⟨_, ha⟩, (Option.some.inj hd).symm⟩
  · rintro ⟨a, ⟨h, ha⟩, rfl⟩
    exact ⟨.ofChildren fun _ => h, Option.bind_eq_some_iff.mpr ⟨a, ha, rfl⟩⟩

theorem exists_holes_two (f : α → β → δ) {d : δ} :
    (∃ h : Holes, (do return f (← x (h.child 0)) (← y (h.child 1))) = some d)
      ↔ ∃ a b, (∃ h, x h = some a) ∧ (∃ h, y h = some b) ∧ d = f a b := by
  refine ⟨?_, ?_⟩
  · rintro ⟨h, hd⟩
    obtain ⟨a, ha, hd⟩ := Option.bind_eq_some_iff.mp hd
    obtain ⟨b, hb, hd⟩ := Option.bind_eq_some_iff.mp hd
    exact ⟨a, b, ⟨_, ha⟩, ⟨_, hb⟩, (Option.some.inj hd).symm⟩
  · rintro ⟨a, b, ⟨h, ha⟩, ⟨h', hb⟩, rfl⟩
    refine ⟨.ofChildren fun i => if i = 0 then h else h', ?_⟩
    exact Option.bind_eq_some_iff.mpr ⟨a, ha, Option.bind_eq_some_iff.mpr ⟨b, hb, rfl⟩⟩

theorem exists_holes_three (f : α → β → γ → δ) {d : δ} :
    (∃ h : Holes, (do return f (← x (h.child 0)) (← y (h.child 1)) (← z (h.child 2))) = some d)
      ↔ ∃ a b c, (∃ h, x h = some a) ∧ (∃ h, y h = some b) ∧ (∃ h, z h = some c) ∧ d = f a b c := by
  refine ⟨?_, ?_⟩
  · rintro ⟨h, hd⟩
    obtain ⟨a, ha, hd⟩ := Option.bind_eq_some_iff.mp hd
    obtain ⟨b, hb, hd⟩ := Option.bind_eq_some_iff.mp hd
    obtain ⟨c, hc, hd⟩ := Option.bind_eq_some_iff.mp hd
    exact ⟨a, b, c, ⟨_, ha⟩, ⟨_, hb⟩, ⟨_, hc⟩, (Option.some.inj hd).symm⟩
  · rintro ⟨a, b, c, ⟨h, ha⟩, ⟨h', hb⟩, ⟨h'', hc⟩, rfl⟩
    refine ⟨.ofChildren fun i => if i = 0 then h else if i = 1 then h' else h'', ?_⟩
    exact Option.bind_eq_some_iff.mpr ⟨a, ha, Option.bind_eq_some_iff.mpr ⟨b, hb,
      Option.bind_eq_some_iff.mpr ⟨c, hc, rfl⟩⟩⟩

/-- What has no hole computes the same for all values of holes. -/
theorem exists_const_eq_some {d d' : δ} : (∃ _ : Holes, some d = some d') ↔ d' = d := by
  refine ⟨?_, ?_⟩
  · rintro ⟨_, heq⟩
    exact (Option.some.inj heq).symm
  · rintro rfl
    exact ⟨⟨fun _ => 0, fun _ => false⟩, rfl⟩

end Children

namespace Term

variable {a : Variable → Int} {name category : String} {cs : List Term} {c t e l r u : Term}
  {n : Int} {b : Bool}

theorem canCompute_hole : CanCompute a (node (.nonTerminal category) cs) n := by
  refine ⟨⟨fun _ => n, fun _ => false⟩, ?_⟩
  rw [exactValue]

theorem canDecide_hole : CanDecide a (node (.nonTerminal category) cs) b := by
  refine ⟨⟨fun _ => 0, fun _ => b⟩, ?_⟩
  rw [exactTruth]

theorem canCompute_ite (hop : IntOp.ofName? name = some .ite) :
    CanCompute a (node (.terminal name) [c, t, e]) n
      ↔ ∃ b i j, CanDecide a c b ∧ CanCompute a t i ∧ CanCompute a e j ∧ n = if b then i else j := by
  unfold CanCompute CanDecide
  simp only [exactValue, hop]
  exact exists_holes_three (c.exactTruth a) (t.exactValue a) (e.exactValue a)
    fun b i j => if b then i else j

theorem canCompute_add (hop : IntOp.ofName? name = some .add) :
    CanCompute a (node (.terminal name) [l, r]) n
      ↔ ∃ i j, CanCompute a l i ∧ CanCompute a r j ∧ n = i + j := by
  unfold CanCompute
  simp only [exactValue, hop]
  exact exists_holes_two (l.exactValue a) (r.exactValue a) (· + ·)

theorem canCompute_multiply (hop : IntOp.ofName? name = some .multiply) :
    CanCompute a (node (.terminal name) [l, r]) n
      ↔ ∃ i j, CanCompute a l i ∧ CanCompute a r j ∧ n = i * j := by
  unfold CanCompute
  simp only [exactValue, hop]
  exact exists_holes_two (l.exactValue a) (r.exactValue a) (· * ·)

theorem canCompute_var {v : Variable} (hop : IntOp.ofName? name = some (.var v)) :
    CanCompute a (node (.terminal name) cs) n ↔ n = a v := by
  unfold CanCompute exactValue
  simp only [hop]
  exact exists_const_eq_some

theorem canCompute_literal {m : Nat} (hop : IntOp.ofName? name = some (.literal m)) :
    CanCompute a (node (.terminal name) cs) n ↔ n = m := by
  unfold CanCompute exactValue
  simp only [hop]
  exact exists_const_eq_some

theorem canDecide_lt (hop : BoolOp.ofName? name = some .lt) :
    CanDecide a (node (.terminal name) [l, r]) b
      ↔ ∃ i j, CanCompute a l i ∧ CanCompute a r j ∧ b = decide (i < j) := by
  unfold CanCompute CanDecide
  simp only [exactTruth, hop]
  exact exists_holes_two (l.exactValue a) (r.exactValue a) fun i j => decide (i < j)

theorem canDecide_eq (hop : BoolOp.ofName? name = some .eq) :
    CanDecide a (node (.terminal name) [l, r]) b
      ↔ ∃ i j, CanCompute a l i ∧ CanCompute a r j ∧ b = decide (i = j) := by
  unfold CanCompute CanDecide
  simp only [exactTruth, hop]
  exact exists_holes_two (l.exactValue a) (r.exactValue a) fun i j => decide (i = j)

theorem canDecide_and (hop : BoolOp.ofName? name = some .and) :
    CanDecide a (node (.terminal name) [l, r]) b
      ↔ ∃ i j, CanDecide a l i ∧ CanDecide a r j ∧ b = (i && j) := by
  unfold CanDecide
  simp only [exactTruth, hop]
  exact exists_holes_two (l.exactTruth a) (r.exactTruth a) (· && ·)

theorem canDecide_or (hop : BoolOp.ofName? name = some .or) :
    CanDecide a (node (.terminal name) [l, r]) b
      ↔ ∃ i j, CanDecide a l i ∧ CanDecide a r j ∧ b = (i || j) := by
  unfold CanDecide
  simp only [exactTruth, hop]
  exact exists_holes_two (l.exactTruth a) (r.exactTruth a) (· || ·)

theorem canDecide_not (hop : BoolOp.ofName? name = some .not) :
    CanDecide a (node (.terminal name) [t]) b ↔ ∃ i, CanDecide a t i ∧ b = !i := by
  unfold CanDecide
  simp only [exactTruth, hop]
  exact exists_holes_one (t.exactTruth a) (! ·)

end Term

/-! ## What a sketch computes and what its term computes -/

section Values

variable {k : Known} {a : Variable → Int}

/-- Everything is known about the variables and nothing about the unknowns. -/
structure Known.Opens (k : Known) (a : Variable → Int) : Prop where
  var (v : Variable) : k.var v = some (a v)
  int (i : Nat) : k.int i = none

theorem Known.Opens.complete (h : k.Opens a) : k.Complete := by
  intro v
  rw [h.var v]
  rfl

mutual

/-- **What fillings make of a sketch is what its term can compute.** -/
theorem IntSketched.permits_iff_canCompute (hk : k.Opens a) {n n' : Numbering} {t : Term}
    {s : IntSketch} (h : IntSketched n t s n') (m : Int) :
    k.Permits (fun f => s.value f) m ↔ t.CanCompute a m := by
  cases h with
  | hole =>
      have hopen : (Values.ofKnown (k.int n.ints)).Mem m := by
        rw [hk.int]
        exact Values.mem_every m
      exact iff_of_true ((k.mem_ofKnown_int_iff _).mp hopen) Term.canCompute_hole
  | ite hop hc ht he =>
      have hc' := hc.permits_iff_canDecide hk
      have ht' := ht.permits_iff_canCompute hk
      have he' := he.permits_iff_canCompute hk
      rw [Term.canCompute_ite hop]
      simp only [← hc', ← ht', ← he']
      exact Known.permits_three hk.complete hc.spans ht.spans he.spans
        fun b i j => if b then i else j
  | add hop hl hr =>
      have hl' := hl.permits_iff_canCompute hk
      have hr' := hr.permits_iff_canCompute hk
      rw [Term.canCompute_add hop]
      simp only [← hl', ← hr']
      exact Known.permits_two hk.complete hl.spans hr.spans (· + ·)
  | multiply hop hl hr =>
      have hl' := hl.permits_iff_canCompute hk
      have hr' := hr.permits_iff_canCompute hk
      rw [Term.canCompute_multiply hop]
      simp only [← hl', ← hr']
      exact Known.permits_two hk.complete hl.spans hr.spans (· * ·)
  | var hop =>
      rw [Term.canCompute_var hop]
      exact Known.permits_var (hk.var _)
  | literal hop =>
      rw [Term.canCompute_literal hop]
      exact Known.permits_const

theorem BoolSketched.permits_iff_canDecide (hk : k.Opens a) {n n' : Numbering} {t : Term}
    {s : BoolSketch} (h : BoolSketched n t s n') (b : Bool) :
    k.Permits (fun f => s.value f) b ↔ t.CanDecide a b := by
  cases h with
  | hole => exact iff_of_true (k.permits_bool _ b) Term.canDecide_hole
  | lt hop hl hr =>
      have hl' := hl.permits_iff_canCompute hk
      have hr' := hr.permits_iff_canCompute hk
      rw [Term.canDecide_lt hop]
      simp only [← hl', ← hr']
      exact Known.permits_two hk.complete hl.spans hr.spans fun i j => decide (i < j)
  | eq hop hl hr =>
      have hl' := hl.permits_iff_canCompute hk
      have hr' := hr.permits_iff_canCompute hk
      rw [Term.canDecide_eq hop]
      simp only [← hl', ← hr']
      exact Known.permits_two hk.complete hl.spans hr.spans fun i j => decide (i = j)
  | and hop hl hr =>
      have hl' := hl.permits_iff_canDecide hk
      have hr' := hr.permits_iff_canDecide hk
      rw [Term.canDecide_and hop]
      simp only [← hl', ← hr']
      exact Known.permits_two hk.complete hl.spans hr.spans (· && ·)
  | or hop hl hr =>
      have hl' := hl.permits_iff_canDecide hk
      have hr' := hr.permits_iff_canDecide hk
      rw [Term.canDecide_or hop]
      simp only [← hl', ← hr']
      exact Known.permits_two hk.complete hl.spans hr.spans (· || ·)
  | not hop hb =>
      have hb' := hb.permits_iff_canDecide hk
      rw [Term.canDecide_not hop]
      simp only [← hb']
      exact Known.permits_one (!·)

end

/-- A sketch reaches the output of an example if its term can compute it. -/
theorem IntSketched.reaches_iff_canCompute {e : Example} (hk : (Known.ofInput e.input).Opens a)
    {n n' : Numbering} {t : Term} {s : IntSketch} (h : IntSketched n t s n') :
    s.Reaches e ↔ t.CanCompute a e.output.toInt :=
  h.permits_iff_canCompute hk e.output.toInt

/-- The built-in solver keeps a sketch if its term can compute the output, and no other. -/
theorem IntSketched.builtIn_ne_unsat_iff {e : Example} (hk : (Known.ofInput e.input).Opens a)
    {n n' : Numbering} {t : Term} {s : IntSketch} (h : IntSketched n t s n')
    (hs : s.isThin = true) : Solver.builtIn s e ≠ .unsat ↔ t.CanCompute a e.output.toInt := by
  rw [h.builtIn_ne_unsat_iff_reaches hk.complete hs, h.reaches_iff_canCompute hk]

end Values

namespace Arithmetic

open Relation (ReflTransGen)
open Term (Expands)

variable {examples : List Example}

/-- No input gives a value to an unknown integer. -/
def Spares (examples : List Example) : Prop :=
  ∀ e ∈ examples, ∀ i : Nat, e.input.get? s!"E{i}" = none

/-- The names of unknowns begin with an `E`. -/
theorem ne_unknown_of_head {name : String} (h : name.toList.head? ≠ some 'E') (i : Nat) :
    name ≠ s!"E{i}" := by
  intro heq
  rw [heq] at h
  simp [toString] at h

/-- The names of unknowns are not those of variables. -/
theorem name_ne_unknown (v : Variable) (i : Nat) : v.name ≠ s!"E{i}" := by
  refine ne_unknown_of_head ?_ i
  cases v <;> decide

/-- Inputs with no names but those of the variables spare the unknowns. -/
theorem spares_of_names (h : ∀ e ∈ examples, ∀ entry ∈ e.input.entries, entry.1 ∈ ["x", "y", "z"]) :
    Spares examples := by
  intro e he i
  refine List.lookup_eq_none_iff.mpr fun entry hentry => bne_iff_ne.mpr ?_
  have hname := h e he entry hentry
  simp only [List.mem_cons, List.not_mem_nil, or_false] at hname
  rcases hname with heq | heq | heq
  · rw [heq]
    exact (name_ne_unknown .x i).symm
  · rw [heq]
    exact (name_ne_unknown .y i).symm
  · rw [heq]
    exact (name_ne_unknown .z i).symm

/-- Inputs that bind the variables and spare the unknowns leave nothing but the unknowns open. -/
theorem opens (h : Binds examples) (hspares : Spares examples) {e : Example} (he : e ∈ examples) :
    (Known.ofInput e.input).Opens (exactly e.input.point) where
  var v := by
    show (e.input.get? v.name).map Int64.toInt = _
    rw [Assignment.at_point (h e he) v]
    rfl
  int i := by
    show (e.input.get? s!"E{i}").map Int64.toInt = none
    rw [hspares e he i]
    rfl

/--
**Feasibility is decided exactly.**

For a term that leftmost steps lead to and that has a sketch, under inputs that bind the
variables and spare the unknowns, the verdict says of every example by itself whether the
holes can be given values, each hole its own, with which the term computes the output over
the unbounded integers.
-/
theorem feasible_iff_canCompute {g : Grammar} {category : String} {t : Term}
    (ht : ReflTransGen (Expands g) (.leaf (.nonTerminal category)) t)
    (hs : ∃ s, t.sketch = .ok s) (h : Binds examples) (hspares : Spares examples) :
    ∃ verdict, t.isFeasible examples = .ok verdict
      ∧ (verdict = true
        ↔ ∀ e ∈ examples, t.CanCompute (exactly e.input.point) e.output.toInt) := by
  obtain ⟨s, hs⟩ := hs
  obtain ⟨n, hsketched⟩ := exists_sketched hs
  have hthin := hsketched.isThin (Term.isLeftmost_of_reachable ht)
  refine ⟨_, hsketched.isFeasibleBy_eq .builtIn examples, ?_⟩
  rw [List.all_eq_true]
  refine forall₂_congr fun e he => ?_
  rw [decide_eq_true_eq]
  exact hsketched.builtIn_ne_unsat_iff (opens h hspares he) hthin

/-- Twice an integer. -/
def twice : Term := .op "Multiply" [.atom "2", .leaf (.nonTerminal "E")]

/-- An odd number is asked for. -/
def odd : List Example := [⟨.ofList [("x", 1), ("y", 2), ("z", 3)], 3⟩]

/-- No integer is half of three. -/
theorem feasible_iff_canCompute_twice :
    twice.isFeasible odd = .ok false
      ∧ ¬ ∀ e ∈ odd, twice.CanCompute (exactly e.input.point) e.output.toInt := by
  have hproduct : (⟨"E", "Multiply", [.nonTerminal "E", .nonTerminal "E"]⟩ : Production)
      ∈ Grammar.arithmetic.productions := by decide
  have htwo : Production.leaf "E" "2" ∈ Grammar.arithmetic.productions := by decide
  have hreachable : ReflTransGen (Expands .arithmetic) (.leaf (.nonTerminal "E")) twice :=
    .tail (.single (.hole rfl hproduct rfl)) (.child (.here rfl (.hole rfl htwo rfl)))
  have hbinds : Binds odd := by
    intro e he v
    cases List.mem_singleton.mp he
    cases v <;> rfl
  have hspares : Spares odd := spares_of_names (by decide)
  have hverdict : twice.isFeasible odd = .ok false := by decide +kernel
  obtain ⟨verdict, heq, hiff⟩ :=
    feasible_iff_canCompute hreachable ⟨_, rfl⟩ hbinds hspares
  refine ⟨hverdict, ?_⟩
  rw [hverdict] at heq
  cases heq
  exact fun hall => Bool.false_ne_true (hiff.mpr hall)

end Arithmetic

end Sygus
