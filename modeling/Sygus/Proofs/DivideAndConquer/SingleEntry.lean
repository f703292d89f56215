import Sygus.Proofs.DivideAndConquer.Exhaustion
import Sygus.Proofs.DivideAndConquer.Strength
import Sygus.Proofs.Search.Solving
import Sygus.Proofs.Sifting

/-!
# Without branches both searches find the same

Divide and conquer may find that a single expression is right on all examples. It has kept only the
first expression with every label, though, and has tried expressions in an order of its own. But
the only label that matters here is that of all examples, and its expression is the first one in the
enumeration that has it. Top-down search goes through the same enumeration and stops at the first
valid program. It does not stop before: an expression that came earlier has been evaluated on all
examples without a fault, and is wrong on one of them.
-/

namespace Sygus

open Relation (ReflTransGen)

namespace Pool

variable {problem : Problem} {role : Role} {bound : Option Nat} {stop : Stop} {p p' : Pool}
  {answers : List (Except Fault (Option Program))} {grew : Except Fault Bool}

/-! ## Pools that nobody has disturbed -/

/-- An answer of the source with which nothing is wrong. -/
inductive Clear (problem : Problem) (role : Role) : Except Fault (Option Program) → Prop where
  | ended : Clear problem role (.ok none)
  | labelled {q : Program} {s : ExampleSet} : role.label q problem.examples = .ok s →
      Clear problem role (.ok (some q))

/-- A pool grows without a fault if nothing is wrong with what it draws. -/
theorem Attempt.clear (h : Attempt problem stop p answers grew p') {b : Bool} (hgrew : grew = .ok b) :
    ∀ answer ∈ answers, Clear problem p.role answer := by
  induction h with
  | ended _ => exact List.forall_mem_singleton.mpr .ended
  | failed _ => cases hgrew
  | unlabelled _ _ => cases hgrew
  | took _ hlabel _ => exact List.forall_mem_singleton.mpr (.labelled hlabel)
  | spurned _ hlabel _ _ ih => exact List.forall_mem_cons.mpr ⟨.labelled hlabel, ih hgrew⟩

/-- An attempt that is not stopped makes calls that are not stopped. -/
theorem Attempt.calls (h : Attempt problem .never p answers grew p') :
    Enumerator.Calls problem.grammar p.source answers p'.source := by
  induction h with
  | ended hnext => exact .cons hnext .nil
  | failed hnext => exact .cons hnext .nil
  | unlabelled hnext _ => exact .cons hnext .nil
  | took hnext _ _ => exact .cons hnext .nil
  | spurned hnext _ _ _ ih => exact .cons hnext ih

/-- The pool is what is left of answers that came without a stop and without a fault. -/
def Undisturbed (problem : Problem) (bound : Option Nat) (role : Role) (p : Pool) : Prop :=
  ∃ answers, Enumerator.Calls problem.grammar ((Enumerator.ofRole role).withBound bound) answers
      p.source
    ∧ p.Sifted problem role answers ∧ ∀ answer ∈ answers, Clear problem role answer

theorem undisturbed_fresh (problem : Problem) (bound : Option Nat) (role : Role) :
    (fresh role bound).Undisturbed problem bound role :=
  ⟨[], .nil, sifted_fresh problem role bound, by simp⟩

/-- **Growing without a stop and without a fault leaves a pool undisturbed.** -/
theorem Undisturbed.grow (h : p.Undisturbed problem bound role) {fuel : Nat} {j : Journal}
    {g : Growth} (hg : p.grow problem .never fuel j = some g) {b : Bool} (hgrew : g.grew = .ok b) :
    g.pool.Undisturbed problem bound role := by
  obtain ⟨answers, hcalls, hsifted, hclear⟩ := h
  have hattempt := attempt_of_grow hg
  refine ⟨_, hcalls.append hattempt.calls, hsifted.grow hg, ?_⟩
  rw [List.forall_mem_append]
  exact ⟨hclear, hsifted.role_eq ▸ hattempt.clear hgrew⟩

end Pool

/-! ## The first program that is right everywhere -/

/-- The answers up to a program. -/
theorem exists_split_of_programs {answers : List (Except Fault (Option Program))} {i : Nat}
    {p : Program} (h : (programs answers)[i]? = some p) :
    ∃ before after, answers = before ++ .ok (some p) :: after
      ∧ ∀ q, .ok (some q) ∈ before → ∃ k < i, (programs answers)[k]? = some q := by
  induction answers generalizing i with
  | nil => cases h
  | cons answer answers ih =>
      rcases answer with fault | _ | q
      · obtain ⟨before, after, rfl, hbefore⟩ := ih h
        exact ⟨.error fault :: before, after, rfl, fun q hq => hbefore q (by simpa using hq)⟩
      · obtain ⟨before, after, rfl, hbefore⟩ := ih h
        exact ⟨.ok none :: before, after, rfl, fun q hq => hbefore q (by simpa using hq)⟩
      · have hcons : programs (.ok (some q) :: answers) = q :: programs answers := rfl
        rw [hcons] at h ⊢
        cases i with
        | zero =>
            cases h
            exact ⟨[], answers, rfl, nofun⟩
        | succ i =>
            obtain ⟨before, after, rfl, hbefore⟩ := ih h
            refine ⟨.ok (some q) :: before, after, rfl, fun q' hq' => ?_⟩
            rcases List.mem_cons.mp hq' with heq | hq'
            · cases heq
              exact ⟨0, Nat.succ_pos i, rfl⟩
            · obtain ⟨k, hk, hget⟩ := hbefore q' hq'
              exact ⟨k + 1, Nat.succ_lt_succ hk, hget⟩

/-- Answers that leave the matter open, and one that settles it. -/
theorem TopDown.settled_concat {examples : List Example} {result answer : Except Fault (Option Program)}
    {before : List (Except Fault (Option Program))}
    (hbefore : ∀ r ∈ before, settles? examples r = none) (h : settles? examples answer = some result) :
    Settled examples result (before ++ [answer]) := by
  induction before with
  | nil => exact .last h
  | cons r before ih =>
      rw [List.forall_mem_cons] at hbefore
      exact .cons hbefore.1 (ih hbefore.2)

/-- A program that is right on all examples has the label of all. -/
theorem Role.Marks.eq_range {p : Program} {examples : List Example} {s : ExampleSet}
    (h : Role.expression.Marks examples p s) (hvalid : p.isValid examples = .ok true) :
    s = List.range examples.length := by
  have hall : Role.expression.label p examples = .ok (List.range examples.length) :=
    label_eq_range fun e he => satisfies_expression.mpr (isValid_iff.mp hvalid e he)
  exact h.unique (label_eq_ok_iff.mp hall)

/-- A test depends on the examples in a list only, and not on how often they are in it. -/
theorem isValid_eraseDups_iff {p : Program} {examples : List Example} :
    p.isValid examples.eraseDups = .ok true ↔ p.isValid examples = .ok true := by
  simp only [isValid_iff, List.mem_eraseDups]

/-- A program with a label is valid or not. -/
theorem exists_isValid_of_label {p : Program} {examples : List Example} {s : ExampleSet}
    (h : Role.expression.label p examples.eraseDups = .ok s) :
    ∃ valid, p.isValid examples = .ok valid := by
  refine Program.exists_isValid fun e he => ?_
  obtain ⟨i, hi⟩ := List.mem_iff_getElem?.mp (List.mem_eraseDups.mpr he)
  exact ⟨_, Role.satisfies_of_label h hi⟩

/-- **The entry that is right on all examples is the first valid program that comes.** Before it
come programs that are not valid. -/
theorem Pool.Undisturbed.exists_settled {problem : Problem} {bound : Option Nat} {p : Pool}
    (h : p.Undisturbed { problem with examples := problem.examples.eraseDups } bound .expression)
    {e : Entry Program} (he : e ∈ p.entries) (hvalid : e.piece.isValid problem.examples = .ok true) :
    ∃ answers e', Enumerator.Calls problem.grammar
        ((Enumerator.ofRole .expression).withBound bound) answers e'
      ∧ TopDown.Settled problem.examples (.ok (some e.piece)) answers := by
  obtain ⟨answers, hcalls, hsifted, hclear⟩ := h
  obtain ⟨i, hfirst⟩ := hsifted.exists_first he
  obtain ⟨before, after, rfl, hbefore⟩ := exists_split_of_programs hfirst.getElem?_eq
  rw [List.append_cons] at hcalls
  obtain ⟨e', hcalls⟩ := hcalls.of_append
  refine ⟨_, e', hcalls, TopDown.settled_concat ?_ (by simp [TopDown.settles?, hvalid])⟩
  intro answer hanswer
  cases hclear answer (List.mem_append_left _ hanswer) with
  | ended => exact absurd hanswer (Enumerator.ok_none_not_mem_of_calls hcalls)
  | @labelled q s hlabel =>
      obtain ⟨valid, hq⟩ := exists_isValid_of_label hlabel
      cases valid with
      | false => exact TopDown.settles?_of_refuted hq
      | true =>
          -- it would have the label of all examples, as the entry has
          have hmarks := Role.label_eq_ok_iff.mp hlabel
          have hs := hmarks.eq_range (isValid_eraseDups_iff.mpr hq)
          have heq := hfirst.marks.eq_range (isValid_eraseDups_iff.mpr hvalid)
          obtain ⟨k, hk, hget⟩ := hbefore q hanswer
          exact absurd (heq ▸ hs ▸ hmarks) (hfirst.earliest k hk q hget)

namespace DivideAndConquer

variable {problem : Problem} {recalls : Bool} {bound : Option Nat}

/-! ## Runs -/

/-- Neither pool has been disturbed. -/
def State.Undisturbed (problem : Problem) (bound : Option Nat) (s : State) : Prop :=
  ∀ role, (s.pools.of role).Undisturbed problem bound role

theorem undisturbed_of_reaches {s : State} (h : (machine problem recalls bound).Reaches .never s) :
    s.Undisturbed (Setting.of problem recalls .never).problem bound := by
  induction h with
  | refl =>
      intro role
      cases role <;> exact Pool.undisturbed_fresh _ _ _
  | tail _ hturn ih => exact Turn.preserves (fun hp hg hgrew => hp.grow hg hgrew) hturn ih

theorem stage_ne_first {stop : Stop} {s : State} (hne : problem.examples ≠ [])
    (h : (machine problem recalls bound).Reaches stop s) : s.stage ≠ .first := by
  cases h with
  | refl =>
      have hstart : (State.initial (.of problem recalls .never) bound).stage
          = .covering .expression := if_neg (mt examples_of_eq_nil_iff.mp hne)
      intro hfirst
      have hfirst' : (State.initial (.of problem recalls .never) bound).stage = .first := hfirst
      rw [hstart] at hfirst'
      cases hfirst'
  | tail _ hturn => cases hturn <;> simp

/-- The run ends with this program, and the program is an entry of its pool of expressions. -/
def ReturnsEntry (problem : Problem) (recalls : Bool) (bound : Option Nat) (r : Run) (p : Program) :
    Prop :=
  ∃ s, (machine problem recalls bound).Reaches .never s
    ∧ (machine problem recalls bound).ending .never s r ∧ r.result = .ok (some p)
    ∧ ∃ e ∈ s.pools.expressions.entries, e.piece = p

theorem eq_of_conclude {c : Setting} {tree p : Program} {j : Journal}
    (h : (conclude c tree j).result = .ok (some p)) : p = tree := by
  unfold conclude at h
  split at h
  · cases h
  · cases h
  · cases h
    rfl

/-- A tree for one example has no branch. -/
theorem returnsEntry_of_one_example (hone : problem.examples.eraseDups.length = 1) {fuel : Nat}
    {r : Run} {p : Program} (h : run problem recalls bound .never fuel = some r)
    (hp : r.result = .ok (some p)) : ReturnsEntry problem recalls bound r p := by
  have hne : problem.examples ≠ [] := by
    intro hnil
    rw [hnil] at hone
    cases hone
  obtain ⟨s, hs, hend⟩ := run_cases h
  refine ⟨s, hs, hend, hp, ?_⟩
  have hstage := stage_ne_first hne hs
  cases hend with
  | first _ => exact absurd rfl hstage
  | concluded hsearch =>
      obtain rfl := eq_of_conclude hp
      obtain ⟨branches, last, rfl, hchain⟩ :=
        Stitcher.stitch_finds (Stitcher.inductive_stitched _) hsearch
      have hlength := length_lt_of_stitched hne hchain
      rw [hone, Nat.lt_one_iff, List.length_eq_zero_iff] at hlength
      subst hlength
      exact hchain.exists_entry last (by simp [chained])
  | faultyCovering _ _ _ => cases hp
  | fallsShort _ _ _ => cases hp
  | cancelled _ => cases hp
  | faultyExpression _ _ => cases hp
  | faultyPredicate _ _ => cases hp
  | bothDry _ _ _ => cases hp

/-- **What is found without branches is what top-down search finds.** -/
theorem exists_topDown_run (hstart : problem.grammar.startSymbol = Role.expression.symbol)
    {fuel : Nat} {r : Run} {p : Program}
    (h : run problem recalls bound .never fuel = some r)
    (hp : ReturnsEntry problem recalls bound r p) :
    ∃ fuel₀ r', (∀ fuel ≥ fuel₀, TopDown.run problem bound .never fuel = some r')
      ∧ r'.result = .ok (some p) := by
  obtain ⟨s, hs, _, hfound, e, he, rfl⟩ := hp
  have hvalid : e.piece.isValid problem.examples = .ok true :=
    isValid_iff.mpr (evaluate_of_run h hfound)
  obtain ⟨answers, e', hcalls, hsettled⟩ :=
    (undisturbed_of_reaches hs .expression).exists_settled he hvalid
  have hwalk : (BreadthFirst.State.initial problem.grammar).walk bound
      = (Enumerator.ofRole .expression).withBound bound := by
    rw [BreadthFirst.walk_initial, hstart]
    rfl
  obtain ⟨fuel₀, r', hsearch, hresult, _⟩ :=
    TopDown.exists_search_of_calls hcalls hwalk hsettled
  exact ⟨fuel₀, r', fun _ hle => BreadthFirst.search_mono hsearch hle, hresult⟩

/--
**Without branches, divide and conquer finds what top-down search finds.**

Let the start symbol of the grammar be the category of expressions. Take a run of divide and conquer
that nobody stops, under any bound and whether it recalls answers or not. If it returns an entry of
its pool of expressions, then top-down search with the same bound ends and returns the same program.
So it does if there is but one distinct example, whatever the run returns.
-/
theorem finds_entry_as_topDown_does (problem : Problem) (recalls : Bool) (bound : Option Nat)
    (hstart : problem.grammar.startSymbol = Role.expression.symbol) (fuel : Nat) (r : Run)
    (p : Program) (h : run problem recalls bound .never fuel = some r)
    (hp : ReturnsEntry problem recalls bound r p
      ∨ (problem.examples.eraseDups.length = 1 ∧ r.result = .ok (some p))) :
    ∃ fuel₀ r', (∀ fuel ≥ fuel₀, TopDown.run problem bound .never fuel = some r')
      ∧ r'.result = .ok (some p) := by
  rcases hp with hentry | ⟨hone, hfound⟩
  · exact exists_topDown_run hstart h hentry
  · exact exists_topDown_run hstart h (returnsEntry_of_one_example hone h hfound)

/-- The value of `x` is asked for twice, and both searches find the variable. -/
theorem finds_entry_as_topDown_does_seven :
    ∃ p, (∃ r, run ⟨.arithmetic, seven ++ seven⟩ true (some 2) .never 100 = some r
        ∧ r.result = .ok (some p))
      ∧ ∃ fuel₀ r', (∀ fuel ≥ fuel₀,
          TopDown.run ⟨.arithmetic, seven ++ seven⟩ (some 2) .never fuel = some r')
        ∧ r'.result = .ok (some p) := by
  have hends : (run ⟨.arithmetic, seven ++ seven⟩ true (some 2) .never 100).map (·.result)
      = some (.ok (some ⟨.atom "x", rfl⟩)) := by decide +kernel
  obtain ⟨r, hr, hfound⟩ := Option.map_eq_some_iff.mp hends
  refine ⟨_, ⟨r, hr, hfound⟩, ?_⟩
  exact finds_entry_as_topDown_does ⟨.arithmetic, seven ++ seven⟩ true (some 2) rfl 100 r _ hr
    (.inr ⟨by decide, hfound⟩)

end DivideAndConquer

end Sygus
