import Sygus.Proofs.DivideAndConquer.Arithmetic
import Sygus.Proofs.Potential
import Sygus.Proofs.Satisfied

/-!
# When a bounded run of divide and conquer finds a program

Under a bound on depth all attempts to grow a pool end, so all runs do. What they find is
compared here with the satisfied sets of *all* programs within the bound.

Entries carry such sets, so a tree is a chain (`chain_of_solvable`). A run may find it long
before its pools are complete. It gives up only on exhausted pools, though, and these have
an entry for every satisfied set that is not empty; a chain never needs the empty one, so
it can be followed in the pools (`solvable_of_chain`).
-/

namespace Sygus

open Term (Derives Met)

variable {problem : Problem} {d : Nat} {role : Role}

theorem Role.draws_iff {g : Grammar} {p : Program} :
    role.Draws g (some d) p ↔ Derives g role.symbol p.root ∧ p.root.depth ≤ d := by
  unfold Draws
  rw [Term.fits, decide_eq_true_eq]

namespace Pool

variable {p : Pool}

/-- The label of an entry is in the family of its role. -/
theorem Steady.holding_mem_family (h : p.Steady problem (some d) role) {e : Entry Program}
    (he : e ∈ p.entries) : e.label.holding problem.examples ∈ role.family problem d := by
  obtain ⟨hdraws, hlabel⟩ := h.entries e he
  obtain ⟨hderives, hdepth⟩ := Role.draws_iff.mp hdraws
  exact ⟨e.piece, hderives, hdepth, Role.holding_label hlabel⟩

/-- **An exhausted pool has an entry for every member of the family** that is not empty. -/
theorem Steady.exists_entry (h : p.Steady problem (some d) role)
    (hf : Faultless problem (some d) role) (hdry : p.Dry) {S : Set Example}
    (hS : S ∈ role.family problem d) (hne : S.Nonempty) :
    ∃ e ∈ p.entries, e.label.holding problem.examples = S := by
  obtain ⟨q, hderives, hdepth, rfl⟩ := hS
  have hdraws := Role.draws_iff.mpr ⟨hderives, hdepth⟩
  obtain ⟨s, hs⟩ := hf.label q hdraws
  rcases h.spurns_of_dry hdry hdraws hs with rfl | ⟨e, he, rfl⟩
  · rw [← Role.holding_label hs] at hne
    obtain ⟨_, _, hi, _⟩ := hne
    simp at hi
  · exact ⟨e, he, Role.holding_label hs⟩

/-- An exhausted pool covers the examples if its family does. -/
theorem Steady.covers_of_dry (h : p.Steady problem (some d) role)
    (hf : Faultless problem (some d) role) (hdry : p.Dry) (hnd : problem.examples.Nodup)
    (hcovers : ∀ e ∈ problem.examples, ∃ S ∈ role.family problem d, e ∈ S) :
    p.covers problem.examples.length = true := by
  rw [h.covers_iff]
  intro i hi
  have hget := List.getElem?_eq_getElem hi
  obtain ⟨S, hS, heS⟩ := hcovers _ (List.getElem_mem hi)
  obtain ⟨e, he, rfl⟩ := h.exists_entry hf hdry hS ⟨_, heS⟩
  exact ⟨e, he, (ExampleSet.mem_holding_iff hnd hget).mp heS⟩

end Pool

namespace DivideAndConquer

variable {c : Setting} {pools : Pools}

/-- A tree that can be stitched is a chain of satisfied sets. -/
theorem chain_of_solvable (hpools : pools.Steady c.problem (some d))
    (hnd : c.problem.examples.Nodup) {needed : ExampleSet}
    (hneeded : needed ⊆ List.range c.problem.examples.length)
    (h : (pools.stitcher c.recalls c.stop).Solvable needed) :
    Chain (Role.expression.family c.problem d) (Role.predicate.family c.problem d)
      (needed.holding c.problem.examples) := by
  induction h with
  | last he hsub =>
      exact .last (hpools.expressions.holding_mem_family he) (ExampleSet.holding_subset hsub)
  | @branch e guard needed he hguard hlabel hpart hmeets _ ih =>
      have hguard' := hpools.predicates.holding_mem_family hguard
      rw [hlabel] at hguard'
      have hleft : needed.without e.label ⊆ List.range c.problem.examples.length :=
        fun i hi => hneeded ((ExampleSet.without_sublist _ _).subset hi)
      have hrest := ih hleft
      rw [ExampleSet.holding_without hnd] at hrest
      refine .branch (hpools.expressions.holding_mem_family he) hguard' ?_ ?_ hrest
      · obtain ⟨i, hi, hie⟩ := hmeets
        have hget := List.getElem?_eq_getElem (List.mem_range.mp (hneeded hi))
        exact ⟨_, ⟨i, hi, hget⟩, ⟨i, hie, hget⟩⟩
      · exact fun hsub => hpart (ExampleSet.subset_of_holding_subset hnd hneeded hsub)

/-- A chain of satisfied sets can be followed in exhausted pools. -/
theorem solvable_of_chain (hpools : pools.Steady c.problem (some d))
    (hf : ∀ role, Faultless c.problem (some d) role) (he : pools.expressions.Dry)
    (hp : pools.predicates.Dry) (hnd : c.problem.examples.Nodup) {S : Set Example}
    (h : Chain (Role.expression.family c.problem d) (Role.predicate.family c.problem d) S)
    {needed : ExampleSet} (hneeded : needed ⊆ List.range c.problem.examples.length)
    (hS : needed.holding c.problem.examples = S) (hne : S.Nonempty) :
    (pools.stitcher c.recalls c.stop).Solvable needed := by
  induction h generalizing needed with
  | @last T _ hT hsub =>
      obtain ⟨e, hmem, rfl⟩ :=
        hpools.expressions.exists_entry (hf _) he hT (hne.mono hsub)
      subst hS
      exact .last hmem (ExampleSet.subset_of_holding_subset hnd hneeded hsub)
  | @branch T S hT hT' hmeets hpart _ ih =>
      -- exhausted pools have an entry for every satisfied set but the empty one
      have hTne : T.Nonempty := hmeets.mono Set.inter_subset_right
      obtain ⟨e, hmem, hlabel⟩ := hpools.expressions.exists_entry (hf _) he hT hTne
      obtain ⟨guard, hguard, hguardLabel⟩ := hpools.predicates.exists_entry (hf _) hp hT' hTne
      -- guard and branch have the same satisfied set, so they have the same label
      have hsame : guard.label = e.label :=
        ExampleSet.holding_inj hnd
          (Role.label_sublist (hpools.predicates.entries guard hguard).2)
          (Role.label_sublist (hpools.expressions.entries e hmem).2)
          (hguardLabel.trans hlabel.symm)
      subst hS hlabel
      refine .branch hmem hguard hsame ?_ ?_ (ih ?_ (ExampleSet.holding_without hnd) ?_)
      · exact fun hsub => hpart (ExampleSet.holding_subset hsub)
      · obtain ⟨x, ⟨i, hi, hx⟩, hxe⟩ := hmeets
        exact ⟨i, hi, (ExampleSet.mem_holding_iff hnd hx).mp hxe⟩
      · exact fun i hi => hneeded ((ExampleSet.without_sublist _ _).subset hi)
      · exact Set.sdiff_nonempty.mpr hpart

/-- Under a bound all attempts to grow end. -/
theorem tame_bounded (hcalm : c.stop = .never) (hf : ∀ role, Faultless c.problem (some d) role) :
    Tame c (some d) where
  calm := hcalm
  faultless := hf
  uncovered := fun hp _ j => Pool.exists_grow (Pool.acc_stir_of_bounded hp.bound_eq) j
  unsolvable := fun hpools _ _ =>
    ⟨fun j => Pool.exists_grow (Pool.acc_stir_of_bounded hpools.expressions.bound_eq) j,
      fun j => Pool.exists_grow (Pool.acc_stir_of_bounded hpools.predicates.bound_eq) j⟩

/-- What the families of a problem have to be like for a tree to exist: every example is in some
member of the second one, and a chain uses up all of them. -/
def Attainable (problem : Problem) (d : Nat) : Prop :=
  (∀ e ∈ problem.examples, ∃ S ∈ Role.predicate.family problem d, e ∈ S)
    ∧ Chain (Role.expression.family problem d) (Role.predicate.family problem d)
        {e | e ∈ problem.examples}

/-- A run that settles has found a program exactly if there is one to be found. -/
theorem Settled.attainable_iff (hf : ∀ role, Faultless c.problem (some d) role)
    (hnd : c.problem.examples.Nodup) (hne : c.problem.examples ≠ []) {r : Run}
    (h : Settled c (some d) r) :
    ((∃ p, r.result = .ok (some p)) ∧ Attainable c.problem d)
      ∨ (r.result = .ok none ∧ ¬ Attainable c.problem d) := by
  have hnonempty : {e | e ∈ c.problem.examples}.Nonempty := List.exists_mem_of_ne_nil _ hne
  cases h with
  | @found pools tree j hpools hcover hsolvable =>
      refine Or.inl ⟨⟨tree, rfl⟩, ?_, ?_⟩
      · intro e he
        obtain ⟨i, hi, hget⟩ := List.mem_iff_getElem.mp he
        obtain ⟨entry, hentry, hie⟩ := hpools.predicates.covers_iff.mp hcover.2 i hi
        refine ⟨_, hpools.predicates.holding_mem_family hentry, i, hie, ?_⟩
        rw [List.getElem?_eq_getElem hi, hget]
      · rw [← ExampleSet.holding_range]
        exact chain_of_solvable hpools hnd (fun _ h => h) hsolvable
  | @uncovered role p j hp hdry hcovers =>
      refine Or.inr ⟨rfl, ?_⟩
      intro hboth
      obtain ⟨hcover, hchain⟩ := hboth
      have hall : ∀ e ∈ c.problem.examples, ∃ S ∈ role.family c.problem d, e ∈ S := by
        cases role with
        | expression => exact fun e he => hchain.covers he
        | predicate => exact hcover
      -- an exhausted pool covers all that can be covered
      rw [hp.covers_of_dry (hf role) hdry hnd hall] at hcovers
      exact absurd hcovers (by simp)
  | unsolvable hpools _ he hp hunsolvable =>
      refine Or.inr ⟨rfl, ?_⟩
      intro hexists
      obtain ⟨_, hchain⟩ := hexists
      exact hunsolvable (solvable_of_chain hpools hf he hp hnd hchain (fun _ h => h)
        (ExampleSet.holding_range _) hnonempty)

/-- Repeated examples do not matter for what is attainable. -/
theorem attainable_eraseDups (problem : Problem) (d : Nat) :
    Attainable { problem with examples := problem.examples.eraseDups } d
      ↔ Attainable problem d := by
  have hfamily : ∀ role : Role,
      role.family { problem with examples := problem.examples.eraseDups } d
        = role.family problem d := by
    intro role
    unfold Role.family
    simp only [Role.satisfied_eraseDups]
  unfold Attainable
  rw [hfamily, hfamily]
  simp only [List.mem_eraseDups]

/--
**A bounded run finds a program exactly if one is attainable.**

Take any grammar, any bound on depth and any examples, at least one, such that within the
bound everything can be expanded and every program can be evaluated in its role. Then a
run that nobody stops ends, whether it recalls answers or not. If the families of satisfied
sets of the programs within the bound allow it, it ends with a program; if not, with
nothing.
-/
theorem found_iff_attainable (problem : Problem) (recalls : Bool) (d : Nat)
    (hne : problem.examples ≠ [])
    (hexpand : ∀ (role : Role) (t : Term), Met problem.grammar (some d) role.symbol t →
      ∃ results, t.expand problem.grammar = .ok results)
    (hevaluate : ∀ (role : Role) (p : Program), Derives problem.grammar role.symbol p.root →
      p.root.depth ≤ d → ∀ e ∈ problem.examples, ∃ b, role.satisfies p e = .ok b) :
    ∃ fuel₀ r, (∀ fuel ≥ fuel₀, run problem recalls (some d) .never fuel = some r)
      ∧ ((∃ p, r.result = .ok (some p)) ↔ Attainable problem d)
      ∧ (¬ Attainable problem d → r.result = .ok none) := by
  have hf : ∀ role, Faultless (Setting.of problem recalls .never).problem (some d) role := by
    intro role
    refine ⟨hexpand role, ?_⟩
    intro p hp
    obtain ⟨hderives, hdepth⟩ := Role.draws_iff.mp hp
    exact Role.exists_label fun e he =>
      hevaluate role p hderives hdepth e (List.mem_eraseDups.mp he)
  -- the run works on the distinct examples, which satisfy the same
  have hne' : problem.examples.eraseDups ≠ [] := by
    obtain ⟨e, he⟩ := List.exists_mem_of_ne_nil _ hne
    exact List.ne_nil_of_mem (List.mem_eraseDups.mpr he)
  have htame : Tame (.of problem recalls .never) (some d) := tame_bounded rfl hf
  obtain ⟨fuel₀, r, hrun, hsettled⟩ := htame.exists_run hne
  have hiff : Attainable (Setting.of problem recalls .never).problem d ↔ Attainable problem d :=
    attainable_eraseDups problem d
  refine ⟨fuel₀, r, hrun, ?_⟩
  rcases hsettled.attainable_iff hf (nodup_eraseDups _) hne' with
    ⟨hfound, hattainable⟩ | ⟨hnone, hunattainable⟩
  · rw [hiff] at hattainable
    exact ⟨⟨fun _ => hattainable, fun _ => hfound⟩, fun hno => absurd hattainable hno⟩
  · rw [hiff] at hunattainable
    refine ⟨⟨?_, fun h => absurd h hunattainable⟩, fun _ => hnone⟩
    intro hexists
    obtain ⟨p, hp⟩ := hexists
    rw [hnone] at hp
    exact absurd hp (by simp)

/-- Conditional arithmetic meets no fault on the two examples of `Problem.branching`. -/
theorem found_iff_attainable_branching :
    ∃ fuel₀ r, (∀ fuel ≥ fuel₀, run .branching false (some 2) .never fuel = some r)
      ∧ ((∃ p, r.result = .ok (some p)) ↔ Attainable .branching 2)
      ∧ (¬ Attainable .branching 2 → r.result = .ok none) :=
  found_iff_attainable .branching false 2 (by simp [Problem.branching])
    (fun role => (Arithmetic.faultless binds_branching (some 2) role).expand)
    (fun _ _ hderives _ _ he => Arithmetic.exists_satisfies binds_branching hderives he)

end DivideAndConquer

end Sygus
