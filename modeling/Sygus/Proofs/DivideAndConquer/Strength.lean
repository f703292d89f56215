import Sygus.Proofs.DivideAndConquer.Bounded
import Sygus.Proofs.DivideAndConquer.Turns
import Sygus.Proofs.Search.Testing
import Sygus.Proofs.Termination

/-!
# Divide and conquer finds a program where top-down search does

A program that top-down search finds is an expression within the bound that satisfies all examples.
If there is a condition within the bound that holds for all examples as well, divide and conquer
cannot end without a program: an exhausted pool has an entry for every label that some program has,
so both pools cover the examples, and one expression is a tree by itself.

Such a condition is an equation of literals. It has depth two, as has the least condition there is.
So under a bound of one the pool of predicates stays empty. Divide and conquer then gives up if
there is an example, though a variable or a literal may be all that is asked for.
-/

namespace Sygus

open Term (Derives)

/-- Some program of a role, within the bound, satisfies all examples. -/
def Role.HasUniversal (role : Role) (problem : Problem) (bound : Option Nat) : Prop :=
  ∃ p, role.Draws problem.grammar bound p
    ∧ role.label p problem.examples = .ok (List.range problem.examples.length)

/-- An exhausted pool has an entry for all examples if some program satisfies all of them. -/
theorem Pool.Steady.exists_universal {problem : Problem} {bound : Option Nat} {role : Role}
    {p : Pool} (h : p.Steady problem bound role) (hdry : p.Dry) (hne : problem.examples ≠ [])
    (huniversal : role.HasUniversal problem bound) :
    ∃ e ∈ p.entries, e.label = List.range problem.examples.length := by
  obtain ⟨q, hdraws, hlabel⟩ := huniversal
  rcases h.spurns_of_dry hdry hdraws hlabel with hnil | hentry
  · exact absurd hnil (by simpa [List.range_eq_nil] using hne)
  · exact hentry

namespace DivideAndConquer

variable {c : Setting} {bound : Option Nat} {r : Run}

/-- **A run finds a program** if each role has a program that satisfies all examples. -/
theorem Settled.found_of_universal (h : Settled c bound r) (hne : c.problem.examples ≠ [])
    (huniversal : ∀ role : Role, role.HasUniversal c.problem bound) :
    ∃ tree, r.result = .ok (some tree) := by
  cases h with
  | found _ _ _ => exact ⟨_, rfl⟩
  | @uncovered role p j hp hdry hcovers =>
      obtain ⟨e, he, hall⟩ := hp.exists_universal hdry hne (huniversal role)
      have hcovered : p.covers c.problem.examples.length = true := by
        rw [hp.covers_iff]
        intro i hi
        exact ⟨e, he, by rw [hall]; exact List.mem_range.mpr hi⟩
      rw [hcovered] at hcovers
      cases hcovers
  | unsolvable hpools _ hdry _ hunsolvable =>
      -- one expression is a tree by itself
      obtain ⟨e, he, hall⟩ :=
        hpools.expressions.exists_universal hdry hne (huniversal .expression)
      exact absurd (.last he (by rw [hall]; exact fun _ hi => hi)) hunsolvable

/-- A run finds nothing if no predicate is within the bound. -/
theorem Settled.none_of_no_predicate (h : Settled c bound r) (hne : c.problem.examples ≠ [])
    (hnone : ∀ p, ¬ Role.predicate.Draws c.problem.grammar bound p) : r.result = .ok none := by
  cases h with
  | @found pools _ _ hpools hcover _ =>
      obtain ⟨e, he, _⟩ :=
        hpools.predicates.covers_iff.mp hcover.2 0 (List.length_pos_iff.mpr hne)
      exact absurd (hpools.predicates.entries e he).1 (hnone e.piece)
  | uncovered _ _ _ => rfl
  | unsolvable _ _ _ _ _ => rfl

end DivideAndConquer

namespace Arithmetic

variable {examples : List Example} {bound : Option Nat}

/-- A condition that always holds. -/
def Cond.always : Cond := .eq (.numeral .one) (.numeral .one)

/-- Conditions have operands. -/
theorem Cond.two_le_depth (c : Cond) : 2 ≤ c.term.depth := by
  have hoperand : ∀ (name : String) (t : Term) (ts : List Term),
      2 ≤ (Term.op name (t :: ts)).depth := by
    intro name t ts
    have hpos := t.depth_pos
    rw [Term.op, Term.depth, Term.maxDepth]
    omega
  cases c <;> exact hoperand _ _ _

/-- No condition has depth one. -/
theorem not_draws_predicate (p : Program) : ¬ Role.predicate.Draws .arithmetic (some 1) p := by
  rintro ⟨hderives, hfits⟩
  obtain ⟨c, rfl⟩ := exists_cond hderives
  have hdepth : c.term.depth ≤ 1 := of_decide_eq_true hfits
  have htwo := c.two_le_depth
  omega

/-- Under all greater bounds there is a condition that always holds. -/
theorem hasUniversal_predicate (hbinds : Binds examples) (hbound : ∀ d, bound = some d → 2 ≤ d) :
    Role.predicate.HasUniversal ⟨.arithmetic, examples⟩ bound := by
  refine ⟨Cond.always.program, ⟨Cond.always.derives, ?_⟩, Role.label_eq_range ?_⟩
  · cases bound with
    | none => rfl
    | some d => exact decide_eq_true (hbound d rfl)
  · intro e he
    exact Cond.always.satisfies (Assignment.at_point (hbinds e he))

/-- Repeated examples bind no more than the others. -/
theorem Binds.eraseDups (h : Binds examples) : Binds examples.eraseDups :=
  fun e he => h e (List.mem_eraseDups.mp he)

theorem Consistent.eraseDups (h : Consistent examples) : Consistent examples.eraseDups :=
  fun e he e' he' => h e (List.mem_eraseDups.mp he) e' (List.mem_eraseDups.mp he')

/-- Examples for which an expression is valid are consistent. -/
theorem consistent_of_eval {x : Expr} (hx : ∀ e ∈ examples, x.eval e.input.point = e.output) :
    Consistent examples := by
  intro e he e' he' hsame
  have hpoint : e.input.point = e'.input.point := by
    have hx := hsame .x
    have hy := hsame .y
    have hz := hsame .z
    simp only [Variable.name] at hx hy hz
    rw [Assignment.point, Assignment.point, hx, hy, hz]
  rw [← hx e he, ← hx e' he', hpoint]

/-- Nothing fits a bound of zero. -/
theorem not_fits_zero (t : Term) : t.fits (some 0) = false :=
  decide_eq_false (by have := t.depth_pos; omega)

end Arithmetic

/-- Without examples the first answer of an enumerator settles the matter. -/
theorem TopDown.exists_next_of_run {problem : Problem} {bound : Option Nat} {fuel : Nat} {r : Run}
    {p : Program} (hnil : problem.examples = [])
    (h : TopDown.run problem bound .never fuel = some r) (hp : r.result = .ok (some p)) :
    ∃ fuel₀ pull, ((Enumerator.ofSymbol problem.grammar.startSymbol).withBound bound).next
        problem.grammar .never fuel₀ .empty = some pull ∧ pull.result = .ok (some p) := by
  obtain ⟨answers, e', hcalls, hsettled, _⟩ := exists_calls_of_search h
  rw [hp, hnil] at hsettled
  have hfirst : ∀ {answer}, settles? [] answer = some (.ok (some p)) → answer = .ok (some p) := by
    intro answer hanswer
    rcases answer with fault | (_ | q)
    · cases hanswer
    · cases hanswer
    · exact Option.some.inj hanswer
  cases hcalls with
  | nil => exact absurd rfl hsettled.ne_nil
  | @cons e e₁ fuel₀ j pull rest hnext _ =>
      have hresult : pull.result = .ok (some p) := by
        cases hsettled with
        | last hanswer => exact hfirst hanswer
        | @cons _ _ hopen _ =>
            -- no answer leaves the matter open
            rcases hpull : pull.result with fault | (_ | q) <;> rw [hpull] at hopen <;> cases hopen
      obtain ⟨j₁, hnext'⟩ := Enumerator.exists_next_of_next hnext .empty
      exact ⟨fuel₀, _, hnext', hresult⟩

namespace DivideAndConquer

open Arithmetic

variable {examples : List Example} {bound : Option Nat}

/-- A run without examples finds the program that top-down search finds. -/
theorem exists_run_nil {problem : Problem} (recalls : Bool) {fuel : Nat} {r : Run} {p : Program}
    (hstart : problem.grammar.startSymbol = Role.expression.symbol) (hnil : problem.examples = [])
    (h : TopDown.run problem bound .never fuel = some r) (hp : r.result = .ok (some p)) :
    ∃ fuel₀ r', (∀ fuel ≥ fuel₀, run problem recalls bound .never fuel = some r')
      ∧ r'.result = .ok (some p) := by
  obtain ⟨fuel₀, pull, hnext, hresult⟩ := TopDown.exists_next_of_run hnil h hp
  refine ⟨fuel₀, ⟨pull.result, pull.journal⟩, ?_, hresult⟩
  intro fuel hle
  rw [run_eq]
  dsimp only
  rw [if_pos hnil, firstExpression]
  rw [hstart] at hnext
  have hmore := Enumerator.next_mono hnext hle
  exact Option.bind_eq_some_iff.mpr ⟨pull, hmore, rfl⟩

/-- In conditional arithmetic a run settles: under a bound all runs do, and without one the examples
are consistent. -/
theorem exists_settled (recalls : Bool) (hne : examples ≠ []) (hbinds : Binds examples)
    (hconsistent : Consistent examples) (bound : Option Nat) :
    ∃ fuel₀ r, (∀ fuel ≥ fuel₀, run ⟨.arithmetic, examples⟩ recalls bound .never fuel = some r)
      ∧ Settled (.of ⟨.arithmetic, examples⟩ recalls .never) bound r := by
  have hne' : (Setting.of ⟨.arithmetic, examples⟩ recalls .never).problem.examples ≠ [] :=
    mt examples_of_eq_nil_iff.mp hne
  have htame : Tame (.of ⟨.arithmetic, examples⟩ recalls .never) bound := by
    cases bound with
    | none => exact tame_arithmetic hbinds.eraseDups hconsistent.eraseDups hne' recalls
    | some d => exact tame_bounded rfl (Arithmetic.faultless hbinds.eraseDups (some d))
  exact htame.exists_run hne

/--
**Divide and conquer finds a program where top-down search does,** except under a bound of one.

The inputs bind the variables, and top-down search has found a program. Then divide and conquer ends
under the same bound, whether it recalls answers or not. It ends with a program unless the bound is
one and there is an example, and in that case it ends with nothing.
-/
theorem finds_what_topDown_finds (recalls : Bool) (hbinds : Binds examples) {fuel : Nat} {r : Run}
    {p : Program} (h : TopDown.run ⟨.arithmetic, examples⟩ bound .never fuel = some r)
    (hp : r.result = .ok (some p)) :
    ∃ fuel₀ r', (∀ fuel ≥ fuel₀, run ⟨.arithmetic, examples⟩ recalls bound .never fuel = some r')
      ∧ (¬ (bound = some 1 ∧ examples ≠ []) → ∃ q, r'.result = .ok (some q))
      ∧ (bound = some 1 ∧ examples ≠ [] → r'.result = .ok none) := by
  by_cases hne : examples = []
  · obtain ⟨fuel₀, r', hruns, hfound⟩ := exists_run_nil recalls rfl hne h hp
    exact ⟨fuel₀, r', hruns, fun _ => ⟨p, hfound⟩, fun hexcept => absurd hne hexcept.2⟩
  · -- what has been found is an expression within the bound that gives all outputs
    obtain ⟨hmet, hvalid⟩ := BreadthFirst.met_and_isValid_of_search h
      (BreadthFirst.met_initial _ bound) hp
    have hfits : p.root.fits bound = true := hmet.fits_of_isComplete p.complete
    obtain ⟨x, rfl⟩ := exists_expr (hmet.derives_of_isComplete p.complete)
    have hx := (Expr.isValid_program_iff hbinds).mp hvalid
    obtain ⟨fuel₀, r', hruns, hsettled⟩ :=
      exists_settled recalls hne hbinds (consistent_of_eval hx) bound
    have hne' : (Setting.of ⟨.arithmetic, examples⟩ recalls .never).problem.examples ≠ [] :=
      mt examples_of_eq_nil_iff.mp hne
    refine ⟨fuel₀, r', hruns, ?_, ?_⟩
    · intro hexcept
      have hbound : ∀ d, bound = some d → 2 ≤ d := by
        intro d hd
        subst hd
        have hone : d ≠ 1 := fun heq => hexcept ⟨by rw [heq], hne⟩
        have hzero : d ≠ 0 := by
          rintro rfl
          rw [not_fits_zero] at hfits
          cases hfits
        omega
      refine hsettled.found_of_universal hne' ?_
      intro role
      cases role with
      | expression =>
          exact ⟨x.program, ⟨x.derives, hfits⟩,
            x.label_eq_range hbinds.eraseDups fun e he => hx e (List.mem_eraseDups.mp he)⟩
      | predicate => exact hasUniversal_predicate hbinds.eraseDups hbound
    · rintro ⟨rfl, _⟩
      exact hsettled.none_of_no_predicate hne' not_draws_predicate

/-- The value of `x` is asked for. -/
def seven : List Example := [⟨.ofList [("x", 7), ("y", 8), ("z", 9)], 7⟩]

theorem binds_seven : Binds seven := binds_of_all (by decide)

/-- Under a bound of two the variable `x` is found by both, under a bound of one only by top-down
search. -/
theorem finds_what_topDown_finds_seven :
    (∃ fuel₀ r q, (∀ fuel ≥ fuel₀, run ⟨.arithmetic, seven⟩ true (some 2) .never fuel = some r)
      ∧ r.result = .ok (some q))
    ∧ ∃ fuel₀ r, (∀ fuel ≥ fuel₀, run ⟨.arithmetic, seven⟩ true (some 1) .never fuel = some r)
      ∧ r.result = .ok none := by
  have htop : ∀ d ∈ [1, 2], (TopDown.run ⟨.arithmetic, seven⟩ (some d) .never 100).map (·.result)
      = some (.ok (some (Expr.var .x).program)) := by decide +kernel
  refine ⟨?_, ?_⟩
  · obtain ⟨r, hr, hp⟩ := Option.map_eq_some_iff.mp (htop 2 (by decide))
    obtain ⟨fuel₀, r', hruns, hfound, _⟩ := finds_what_topDown_finds true binds_seven hr hp
    obtain ⟨q, hq⟩ := hfound (by simp)
    exact ⟨fuel₀, r', q, hruns, hq⟩
  · obtain ⟨r, hr, hp⟩ := Option.map_eq_some_iff.mp (htop 1 (by decide))
    obtain ⟨fuel₀, r', hruns, _, hnone⟩ := finds_what_topDown_finds true binds_seven hr hp
    exact ⟨fuel₀, r', hruns, hnone ⟨rfl, by simp [seven]⟩⟩

/-- **Under a bound of one, divide and conquer can be weaker.** Top-down search finds a program, and
no run of divide and conquer does. -/
theorem exists_found_by_topDown_only :
    ∃ (examples : List Example) (bound : Option Nat), Binds examples
      ∧ (∃ fuel r p, TopDown.run ⟨.arithmetic, examples⟩ bound .never fuel = some r
        ∧ r.result = .ok (some p))
      ∧ ∀ recalls fuel r, run ⟨.arithmetic, examples⟩ recalls bound .never fuel = some r →
        r.result = .ok none := by
  refine ⟨seven, some 1, binds_seven, ?_, ?_⟩
  · have htop : (TopDown.run ⟨.arithmetic, seven⟩ (some 1) .never 100).map (·.result)
        = some (.ok (some (Expr.var .x).program)) := by decide +kernel
    obtain ⟨r, hr, hp⟩ := Option.map_eq_some_iff.mp htop
    exact ⟨100, r, _, hr, hp⟩
  · intro recalls fuel r hr
    have hends : ∀ recalls, (run ⟨.arithmetic, seven⟩ recalls (some 1) .never 100).map (·.result)
        = some (.ok none) := by decide +kernel
    obtain ⟨r', hr', hnone⟩ := Option.map_eq_some_iff.mp (hends recalls)
    -- both runs are the one with the greater fuel
    have hmore := run_mono hr (Nat.le_max_left fuel 100)
    rw [run_mono hr' (Nat.le_max_right fuel 100)] at hmore
    cases hmore
    exact hnone

end DivideAndConquer

end Sygus
