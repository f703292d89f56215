import Mathlib.Data.Set.Basic
import Sygus.Proofs.Accounting
import Sygus.Proofs.Answer

/-!
# Satisfied sets

What a program satisfies is a set of examples. Pools note it down as a list of numbers,
which is the same thing as long as no example has two numbers: the translation `holding`
takes members to members, differences to differences, and different labels to different
sets.

Two families of such sets, one of expressions and one of predicates, say what can be
stitched at all. A **chain** uses up a set of examples with sets of the first family, all of
which but the last have to be in the second one as well. Nothing is said there about
pools, their order, or programs that have the same set.
-/

namespace Sygus

open Term (Derives)

/-- The examples with these numbers. -/
def ExampleSet.holding (examples : List Example) (s : ExampleSet) : Set Example :=
  {e | ∃ i ∈ s, examples[i]? = some e}

/-- The examples that a program satisfies. -/
def Role.satisfied (role : Role) (examples : List Example) (p : Program) : Set Example :=
  {e | e ∈ examples ∧ role.satisfies p e = .ok true}

/-- The satisfied sets of the programs of a role that are not deeper than a bound. -/
def Role.family (problem : Problem) (d : Nat) (role : Role) : Set (Set Example) :=
  {S | ∃ p : Program, Derives problem.grammar role.symbol p.root ∧ p.root.depth ≤ d
    ∧ S = role.satisfied problem.examples p}

/-- A set of examples can be used up with members of the first family, all of which but the last
are members of the second family too. -/
inductive Chain (expressions predicates : Set (Set Example)) : Set Example → Prop where
  | last {S needed : Set Example} : S ∈ expressions → needed ⊆ S →
      Chain expressions predicates needed
  | branch {S needed : Set Example} : S ∈ expressions → S ∈ predicates →
      (needed ∩ S).Nonempty → ¬ needed ⊆ S → Chain expressions predicates (needed \ S) →
      Chain expressions predicates needed

/-- Every example that a chain uses up is in some set of the first family. -/
theorem Chain.covers {expressions predicates : Set (Set Example)} {needed : Set Example}
    (h : Chain expressions predicates needed) {e : Example} (he : e ∈ needed) :
    ∃ S ∈ expressions, e ∈ S := by
  induction h with
  | last hS hsub => exact ⟨_, hS, hsub he⟩
  | @branch S needed hS _ _ _ _ ih =>
      by_cases heS : e ∈ S
      · exact ⟨S, hS, heS⟩
      · exact ih ⟨he, heS⟩

theorem nodup_eraseDups {α : Type} [DecidableEq α] (l : List α) : l.eraseDups.Nodup := by
  induction hlen : l.length using Nat.strong_induction_on generalizing l with
  | _ n ih =>
      cases l with
      | nil => simp
      | cons a rest =>
          rw [List.eraseDups_cons, List.nodup_cons, List.mem_eraseDups]
          have hle := List.length_filter_le (fun b => !b == a) rest
          refine ⟨by simp, ih _ ?_ _ rfl⟩
          rw [← hlen, List.length_cons]
          omega

namespace ExampleSet

variable {examples : List Example} {s t : ExampleSet} {i : Nat} {e : Example}

theorem mem_holding_iff (h : examples.Nodup) (he : examples[i]? = some e) :
    e ∈ s.holding examples ↔ i ∈ s := by
  refine ⟨?_, ?_⟩
  · intro hexists
    obtain ⟨j, hj, hje⟩ := hexists
    obtain ⟨hi, _⟩ := List.getElem?_eq_some_iff.mp he
    have : i = j := List.getElem?_inj hi h |>.mp (he.trans hje.symm)
    rwa [this]
  · intro hi
    exact ⟨i, hi, he⟩

theorem holding_subset (h : s ⊆ t) : s.holding examples ⊆ t.holding examples := by
  intro e hexists
  obtain ⟨i, hi, he⟩ := hexists
  exact ⟨i, h hi, he⟩

/-- Without repeated examples, a set of numbers can be told from the examples. -/
theorem subset_of_holding_subset (h : examples.Nodup) (hs : s ⊆ List.range examples.length)
    (hsub : s.holding examples ⊆ t.holding examples) : s ⊆ t := by
  intro i hi
  have hget := List.getElem?_eq_getElem (List.mem_range.mp (hs hi))
  exact (mem_holding_iff h hget).mp (hsub ⟨i, hi, hget⟩)

theorem holding_without (h : examples.Nodup) :
    (s.without t).holding examples = s.holding examples \ t.holding examples := by
  ext e
  refine ⟨?_, ?_⟩
  · intro hexists
    obtain ⟨i, hi, he⟩ := hexists
    obtain ⟨his, hit⟩ := mem_without.mp hi
    exact ⟨⟨i, his, he⟩, fun het => hit ((mem_holding_iff h he).mp het)⟩
  · intro hexists
    obtain ⟨⟨i, hi, he⟩, het⟩ := hexists
    exact ⟨i, mem_without.mpr ⟨hi, fun hit => het ⟨i, hit, he⟩⟩, he⟩

theorem holding_inj (h : examples.Nodup) (hs : s.Sublist (List.range examples.length))
    (ht : t.Sublist (List.range examples.length))
    (heq : s.holding examples = t.holding examples) : s = t :=
  eq_of_mem_iff hs ht fun _ =>
    ⟨fun hi => subset_of_holding_subset h hs.subset heq.subset hi,
      fun hi => subset_of_holding_subset h ht.subset heq.symm.subset hi⟩

/-- All numbers hold all examples. -/
theorem holding_range (examples : List Example) :
    holding examples (List.range examples.length) = {e | e ∈ examples} := by
  ext e
  refine ⟨?_, ?_⟩
  · intro hexists
    obtain ⟨i, _, he⟩ := hexists
    exact List.mem_of_getElem? he
  · intro he
    obtain ⟨i, hi, hget⟩ := List.mem_iff_getElem.mp he
    exact ⟨i, List.mem_range.mpr hi, by rw [List.getElem?_eq_getElem hi, hget]⟩

end ExampleSet

/-- **A label holds what the program satisfies.** -/
theorem Role.holding_label {role : Role} {examples : List Example} {p : Program} {s : ExampleSet}
    (h : role.label p examples = .ok s) : s.holding examples = role.satisfied examples p := by
  ext e
  refine ⟨?_, ?_⟩
  · intro hexists
    obtain ⟨i, hi, he⟩ := hexists
    exact ⟨List.mem_of_getElem? he, by rw [satisfies_of_label h he, decide_eq_true hi]⟩
  · intro hboth
    obtain ⟨he, hsat⟩ := hboth
    obtain ⟨i, hi, hget⟩ := List.mem_iff_getElem.mp he
    have he' : examples[i]? = some e := by rw [List.getElem?_eq_getElem hi, hget]
    rw [satisfies_of_label h he'] at hsat
    exact ⟨i, of_decide_eq_true (Except.ok.inj hsat), he'⟩

/-- What is satisfied is a matter of the set of examples. -/
theorem Role.satisfied_eraseDups (role : Role) (examples : List Example) (p : Program) :
    role.satisfied examples.eraseDups p = role.satisfied examples p := by
  unfold satisfied
  simp only [List.mem_eraseDups]

end Sygus
