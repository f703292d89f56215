import Sygus.DecisionTree.Stitching

/-!
# What a tree evaluates to, and what it means to be valid

Evaluation is lazy, so a tree `Ite(guard, this, other)` has the value of one branch
only: the branch that is not taken may be faulty and does no harm. All that a tree
needs is a guard that evaluates.

A program **fits** a set of example numbers if it gives the output of each of them.
Fitting all numbers of a list is the same as being valid for it.
-/

namespace Sygus

/-- A sequence succeeds if both of its parts do. -/
theorem bind_eq_ok {α β : Type} {x : Except Fault α} {f : α → Except Fault β} {b : β} :
    (x >>= f) = .ok b ↔ ∃ a, x = .ok a ∧ f a = .ok b := by
  cases x with
  | error fault => simp [bind, Except.bind]
  | ok a => simp [bind, Except.bind]

/-- A tree has the value of the branch that its guard picks. -/
theorem evaluate_ite {guard this other : Program} {a : Assignment} {b : Bool}
    (h : guard.root.truth a = .ok b) :
    (Program.ite guard this other).evaluate a
      = if b then this.evaluate a else other.evaluate a := by
  have htree : (Program.ite guard this other).evaluate a
      = (do if ← guard.root.truth a then this.root.value a else other.root.value a) := rfl
  rw [htree, h]
  rfl

theorem satisfies_expression {p : Program} {e : Example} :
    Role.expression.satisfies p e = .ok true ↔ p.evaluate e.input = .ok e.output := by
  show p.root.produces e = .ok true ↔ p.root.value e.input = .ok e.output
  unfold Term.produces
  rw [bind_eq_ok]
  refine ⟨?_, ?_⟩
  · intro hexists
    obtain ⟨n, hn, hd⟩ := hexists
    have hd' : n = e.output := by simpa [pure, Except.pure] using hd
    rw [hn, hd']
  · intro h
    exact ⟨e.output, h, by simp [pure, Except.pure]⟩

/-- Being valid means giving every output. -/
theorem isValid_iff {p : Program} {examples : List Example} :
    p.isValid examples = .ok true ↔ ∀ e ∈ examples, p.evaluate e.input = .ok e.output := by
  induction examples with
  | nil => simp [Program.isValid]
  | cons e rest ih =>
      rw [Program.isValid, bind_eq_ok, List.forall_mem_cons, ← ih, ← satisfies_expression]
      refine ⟨?_, ?_⟩
      · intro hexists
        obtain ⟨b, hb, hrest⟩ := hexists
        cases b with
        | true => exact ⟨hb, hrest⟩
        | false => simp [pure, Except.pure] at hrest
      · intro hboth
        obtain ⟨he, hrest⟩ := hboth
        exact ⟨true, he, hrest⟩

/-- The program gives the outputs of the examples with these numbers. -/
def Program.Fits (p : Program) (examples : List Example) (s : ExampleSet) : Prop :=
  ∀ i ∈ s, ∃ e, examples[i]? = some e ∧ p.evaluate e.input = .ok e.output

/-- A program that fits all numbers is valid. -/
theorem isValid_of_fits {p : Program} {examples : List Example}
    (h : p.Fits examples (List.range examples.length)) : p.isValid examples = .ok true := by
  rw [isValid_iff]
  intro e he
  obtain ⟨i, hi, hget⟩ := List.mem_iff_getElem.mp he
  obtain ⟨e', he', hv⟩ := h i (List.mem_range.mpr hi)
  rw [List.getElem?_eq_getElem hi, hget] at he'
  cases he'
  exact hv

end Sygus
