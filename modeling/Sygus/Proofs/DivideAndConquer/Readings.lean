import Sygus.Proofs.Alike
import Sygus.Proofs.DivideAndConquer.Branches
import Sygus.Proofs.Termination

/-!
# Only the readings of the examples matter

Two runs on problems that are alike have pools that are alike, all the way. A turn of one run is
matched by a turn of the other one, and an ending by an ending, but for the fault: the first
example that a program cannot be evaluated on need not be the same.
-/

namespace Sygus

open Relation (ReflTransGen)

namespace DivideAndConquer

/-- Nobody stops the runs, and their problems are alike. -/
structure Setting.Alike (c c' : Setting) : Prop where
  calm : c.stop = .never
  calm' : c'.stop = .never
  problem : c.problem.Alike c'.problem

/-- The pools of each role are alike. -/
def Pools.Alike (c c' : Setting) (pools pools' : Pools) : Prop :=
  ∀ role, (pools.of role).Alike c.problem c'.problem role (pools'.of role)

/-- The runs are about to do the same with pools that are alike. -/
structure State.Alike (c c' : Setting) (s s' : State) : Prop where
  stage : s.stage = s'.stage
  pools : s.pools.Alike c c' s'.pools

variable {c c' : Setting} {pools pools' : Pools} {s s' s₁ : State} {r : Run}

theorem Pools.Alike.set (h : pools.Alike c c' pools') {role : Role} {p p' : Pool}
    (hp : p.Alike c.problem c'.problem role p') :
    (pools.set p role).Alike c c' (pools'.set p' role) := by
  intro role'
  rw [of_set, of_set]
  split
  · rename_i heq
    subst heq
    exact hp
  · exact h role'

theorem Pools.Alike.stitcher (h : pools.Alike c c' pools') :
    (pools.stitcher c.recalls c.stop).Alike c.problem.examples c'.problem.examples
      (pools'.stitcher c'.recalls c'.stop) :=
  ⟨(h .expression).entries, (h .predicate).entries⟩

theorem Pools.Alike.cover_iff (h : pools.Alike c c' pools') (hc : c.Alike c') :
    pools.Cover c ↔ pools'.Cover c' :=
  and_congr ((h .expression).covers_congr hc.problem) ((h .predicate).covers_congr hc.problem)

theorem Pools.Alike.exists_growToCover (h : pools.Alike c c' pools') (hc : c.Alike c') {role : Role}
    {fuel : Nat} {j : Journal} {g : Growth} (hg : growToCover c fuel (pools.of role) j = some g)
    (j' : Journal) :
    ∃ g', growToCover c' fuel (pools'.of role) j' = some g'
      ∧ g.Alike c.problem c'.problem role g' := by
  unfold growToCover at hg ⊢
  have hcovers := (h role).covers_congr hc.problem
  split at hg
  · rename_i hcovered
    cases hg
    exact ⟨_, if_pos (hcovers.mp hcovered), .same _, h role⟩
  · rename_i hmissing
    rw [hc.calm] at hg
    obtain ⟨g', hg', halike⟩ := (h role).exists_grow hc.problem hg j'
    refine ⟨g', ?_, halike⟩
    rw [hc.calm']
    exact (if_neg (fun hcovered => hmissing (hcovers.mpr hcovered))).trans hg'

theorem Pools.Alike.exists_grow (h : pools.Alike c c' pools') (hc : c.Alike c') (role : Role)
    {fuel : Nat} {j : Journal} {g : Growth}
    (hg : (pools.of role).grow c.problem c.stop fuel j = some g) (j' : Journal) :
    ∃ g', (pools'.of role).grow c'.problem c'.stop fuel j' = some g'
      ∧ g.Alike c.problem c'.problem role g' := by
  rw [hc.calm] at hg
  rw [hc.calm']
  exact (h role).exists_grow hc.problem hg j'

/-- The searches find the same tree. -/
theorem Pools.Alike.search_fst_eq (h : pools.Alike c c' pools') (hc : c.Alike c') (j j' : Journal) :
    (search c pools j).1 = (search c' pools' j').1 := by
  unfold search
  rw [Stitcher.stitch_eq hc.calm, Stitcher.stitch_eq hc.calm']
  exact h.stitcher.answer_eq hc.problem.readings

theorem Pools.Alike.exists_search (h : pools.Alike c c' pools') (hc : c.Alike c') {j j₁ : Journal}
    {found : Option Program} (hsearch : search c pools j = (found, j₁)) (j' : Journal) :
    ∃ j₁', search c' pools' j' = (found, j₁') := by
  have hfst := h.search_fst_eq hc j j'
  rw [hsearch] at hfst
  exact ⟨(search c' pools' j').2, Prod.ext hfst.symm rfl⟩

/-- A tree that passes the test is returned. -/
theorem conclude_result {tree : Program} (h : tree.isValid c.problem.examples = .ok true)
    (j : Journal) : (conclude c tree j).result = .ok (some tree) := by
  unfold conclude
  rw [h]

/-- **A turn of one run is matched by a turn of the other one.** -/
theorem Turn.exists_alike (hc : c.Alike c') (hs : s.Alike c c' s') (h : Turn c s s₁) :
    ∃ s₁', Turn c' s' s₁' ∧ s₁.Alike c c' s₁' := by
  obtain ⟨stage', pools', j'⟩ := s'
  obtain ⟨hstage, hpools⟩ := hs
  cases hstage
  cases h with
  | covered hcover =>
      exact ⟨_, .covered ((hpools.cover_iff hc).mp hcover), rfl, hpools⟩
  | covers hcover hgrow hgrew =>
      obtain ⟨g', hgrow', halike⟩ := hpools.exists_growToCover hc hgrow j'
      exact ⟨_, .covers (fun hrole => mt (hpools.cover_iff hc).mpr (hcover hrole)) hgrow'
        (hgrew ▸ halike.grew).eq_ok, rfl, hpools.set halike.pool⟩
  | announced _ =>
      exact ⟨_, .announced (by rw [hc.calm']; rfl), rfl, hpools⟩
  | failed hsearch =>
      obtain ⟨j₁', hsearch'⟩ := hpools.exists_search hc hsearch j'
      exact ⟨_, .failed hsearch', rfl, hpools⟩
  | grew hgrow hgrew =>
      obtain ⟨g', hgrow', halike⟩ := hpools.exists_grow hc .expression hgrow j'
      exact ⟨_, .grew hgrow' (hgrew ▸ halike.grew).eq_ok, rfl, hpools.set halike.pool⟩
  | again hgrow hgrew hany =>
      obtain ⟨g', hgrow', halike⟩ := hpools.exists_grow hc .predicate hgrow j'
      exact ⟨_, .again hgrow' (hgrew ▸ halike.grew).eq_ok hany, rfl, hpools.set halike.pool⟩
  | stopped _ _ hraised =>
      rw [hc.calm] at hraised
      cases hraised

/-- So are any number of turns. -/
theorem exists_turns_alike (hc : c.Alike c') (hs : s.Alike c c' s')
    (h : ReflTransGen (Turn c) s s₁) :
    ∃ s₁', ReflTransGen (Turn c') s' s₁' ∧ s₁.Alike c c' s₁' := by
  induction h with
  | refl => exact ⟨s', .refl, hs⟩
  | tail _ hturn ih =>
      obtain ⟨s₂', hturns', hs₂⟩ := ih
      obtain ⟨s₁', hturn', hs₁⟩ := hturn.exists_alike hc hs₂
      exact ⟨s₁', hturns'.tail hturn', hs₁⟩

/-- **An ending of one run is matched by an ending of the other one.** -/
theorem Ending.exists_alike (hc : c.Alike c') (hs : s.Alike c c' s') (h : Ending c s r) :
    ∃ r', Ending c' s' r' ∧ Concur r.result r'.result := by
  obtain ⟨stage', pools', j'⟩ := s'
  obtain ⟨hstage, hpools⟩ := hs
  cases hstage
  cases h with
  | @first pools _ _ _ hpull =>
      have hsource : pools.expressions.source = pools'.expressions.source :=
        (hpools .expression).source
      rw [hc.calm, hc.problem.grammar, hsource] at hpull
      obtain ⟨j₁', hpull'⟩ := Enumerator.exists_next_of_next hpull j'
      rw [← hc.calm'] at hpull'
      exact ⟨_, .first hpull', .same _⟩
  | faultyCovering hcover hgrow hgrew =>
      obtain ⟨g', hgrow', halike⟩ := hpools.exists_growToCover hc hgrow j'
      obtain ⟨fault', hgrew'⟩ := (hgrew ▸ halike.grew).exists_error
      exact ⟨_, .faultyCovering (fun hrole => mt (hpools.cover_iff hc).mpr (hcover hrole)) hgrow'
        hgrew', .faults _ _⟩
  | fallsShort hcover hgrow hgrew =>
      obtain ⟨g', hgrow', halike⟩ := hpools.exists_growToCover hc hgrow j'
      exact ⟨_, .fallsShort (fun hrole => mt (hpools.cover_iff hc).mpr (hcover hrole)) hgrow'
        (hgrew ▸ halike.grew).eq_ok, .same _⟩
  | cancelled hraised =>
      rw [hc.calm] at hraised
      cases hraised
  | concluded hsearch =>
      obtain ⟨j₁', hsearch'⟩ := hpools.exists_search hc hsearch j'
      refine ⟨_, .concluded hsearch', ?_⟩
      rw [conclude_result (isValid_of_search hpools.stitcher.labelled hsearch),
        conclude_result (isValid_of_search hpools.stitcher.symm.labelled hsearch')]
      exact .same _
  | faultyExpression hgrow hgrew =>
      obtain ⟨g', hgrow', halike⟩ := hpools.exists_grow hc .expression hgrow j'
      obtain ⟨fault', hgrew'⟩ := (hgrew ▸ halike.grew).exists_error
      exact ⟨_, .faultyExpression hgrow' hgrew', .faults _ _⟩
  | faultyPredicate hgrow hgrew =>
      obtain ⟨g', hgrow', halike⟩ := hpools.exists_grow hc .predicate hgrow j'
      obtain ⟨fault', hgrew'⟩ := (hgrew ▸ halike.grew).exists_error
      exact ⟨_, .faultyPredicate hgrow' hgrew', .faults _ _⟩
  | bothDry hgrow hgrew _ =>
      obtain ⟨g', hgrow', halike⟩ := hpools.exists_grow hc .predicate hgrow j'
      exact ⟨_, .bothDry hgrow' (hgrew ▸ halike.grew).eq_ok (by rw [hc.calm']; rfl), .same _⟩

theorem alike_initial (hc : c.Alike c') (bound : Option Nat) :
    (State.initial c bound).Alike c c' (State.initial c' bound) := by
  refine ⟨?_, ?_⟩
  · have hnil : c.problem.examples = [] ↔ c'.problem.examples = [] := by
      rw [← readings_eq_empty_iff, ← readings_eq_empty_iff, hc.problem.readings]
    unfold State.initial
    simp only [hnil]
  · intro role
    cases role <;> exact Pool.alike_fresh _ _ _ bound

section

variable {problem problem' : Problem} {recalls : Bool} {bound : Option Nat}

theorem alike_of (h : problem.Alike problem') :
    (Setting.of problem recalls .never).Alike (Setting.of problem' recalls .never) := by
  refine ⟨rfl, rfl, h.grammar, ?_⟩
  unfold Setting.of
  rw [readings_eraseDups, readings_eraseDups, h.readings]

/-- **If one run ends, so does the other one,** turn by turn. -/
theorem exists_run_alike (h : problem.Alike problem') {fuel : Nat}
    (hr : run problem recalls bound .never fuel = some r) :
    ∃ fuel₀ r', (∀ fuel ≥ fuel₀, run problem' recalls bound .never fuel = some r')
      ∧ Concur r.result r'.result := by
  have hc : (Setting.of problem recalls .never).Alike (Setting.of problem' recalls .never) :=
    alike_of h
  obtain ⟨s, hturns, hend⟩ := run_cases hr
  obtain ⟨s', hturns', hs⟩ := exists_turns_alike hc (alike_initial hc bound) hturns
  obtain ⟨r', hend', hconcur⟩ := hend.exists_alike hc hs
  obtain ⟨fuel₀, hrun⟩ := exists_run_of_turns hturns' hend'
  exact ⟨fuel₀, r', hrun, hconcur⟩

/-- A run that nobody stops ends with this result. -/
def Yields (problem : Problem) (recalls : Bool) (bound : Option Nat)
    (result : Except Fault (Option Program)) : Prop :=
  ∃ fuel₀ r, (∀ fuel ≥ fuel₀, run problem recalls bound .never fuel = some r) ∧ r.result = result

theorem yields_of_run {fuel : Nat} (h : run problem recalls bound .never fuel = some r) :
    Yields problem recalls bound r.result :=
  ⟨fuel, r, fun _ hle => run_mono h hle, rfl⟩

/-- A run has no more than one result. -/
theorem Yields.unique {result result' : Except Fault (Option Program)}
    (h : Yields problem recalls bound result) (h' : Yields problem recalls bound result') :
    result = result' := by
  obtain ⟨fuel₀, r, hrun, rfl⟩ := h
  obtain ⟨fuel₀', r', hrun', rfl⟩ := h'
  have heq := (hrun (max fuel₀ fuel₀') (Nat.le_max_left _ _)).symm.trans
    (hrun' (max fuel₀ fuel₀') (Nat.le_max_right _ _))
  rw [Option.some.inj heq]

end

/--
**Of the examples only their readings matter.**

Take any grammar, any bound on depth, and recall answers or not. Let two lists of examples have the
same readings: what they say about the variables and the output is the same, but they may say it in
another order, more than once, and with bindings of other names. Then two runs that nobody stops
have the same result, be it a program or nothing, or both end with a fault, or none of them ends.
-/
theorem result_of_readings (grammar : Grammar) (bound : Option Nat) (recalls : Bool)
    (examples examples' : List Example) (h : readings examples = readings examples') :
    (∃ answer, Yields ⟨grammar, examples⟩ recalls bound (.ok answer)
        ∧ Yields ⟨grammar, examples'⟩ recalls bound (.ok answer))
      ∨ (∃ fault fault', Yields ⟨grammar, examples⟩ recalls bound (.error fault)
        ∧ Yields ⟨grammar, examples'⟩ recalls bound (.error fault'))
      ∨ ∀ fuel, run ⟨grammar, examples⟩ recalls bound .never fuel = none
        ∧ run ⟨grammar, examples'⟩ recalls bound .never fuel = none := by
  have halike : Problem.Alike ⟨grammar, examples⟩ ⟨grammar, examples'⟩ := ⟨rfl, h⟩
  by_cases hends : ∃ fuel r, run ⟨grammar, examples⟩ recalls bound .never fuel = some r
  · obtain ⟨fuel, r, hr⟩ := hends
    obtain ⟨fuel₀, r', hr', hconcur⟩ := exists_run_alike halike hr
    have hyields := yields_of_run hr
    have hyields' := yields_of_run (hr' fuel₀ (Nat.le_refl _))
    cases hresult : r.result with
    | ok answer =>
        rw [hresult] at hyields hconcur
        rw [hconcur.eq_ok] at hyields'
        exact Or.inl ⟨answer, hyields, hyields'⟩
    | error fault =>
        rw [hresult] at hyields hconcur
        obtain ⟨fault', hresult'⟩ := hconcur.exists_error
        rw [hresult'] at hyields'
        exact Or.inr (Or.inl ⟨fault, fault', hyields, hyields'⟩)
  · refine Or.inr (Or.inr fun fuel => ⟨?_, ?_⟩)
    · rw [Option.eq_none_iff_forall_ne_some]
      exact fun r hr => hends ⟨fuel, r, hr⟩
    · rw [Option.eq_none_iff_forall_ne_some]
      intro r' hr'
      obtain ⟨fuel₀, r, hr, _⟩ := exists_run_alike halike.symm hr'
      exact hends ⟨fuel₀, r, hr fuel₀ (Nat.le_refl _)⟩

/-- The examples of `Problem.branching` in another order, one of them twice, once with a further
name. -/
def shuffled : List Example :=
  [⟨.ofList [("w", 7), ("x", 0), ("y", 9), ("z", 0)], 9⟩,
    ⟨.ofList [("x", 5), ("y", 1), ("z", 0)], 5⟩, ⟨.ofList [("x", 0), ("y", 9), ("z", 0)], 9⟩]

theorem readings_shuffled : readings Problem.branching.examples = readings shuffled := by
  have hname : Assignment.values (.ofList [("w", 7), ("x", 0), ("y", 9), ("z", 0)])
      = Assignment.values (.ofList [("x", 0), ("y", 9), ("z", 0)]) := by
    funext v
    cases v <;> rfl
  ext q
  simp only [readings, Problem.branching, shuffled, List.mem_cons, List.not_mem_nil, or_false,
    exists_eq_or_imp, exists_eq_left, Set.mem_ofPred_eq, Example.reading, hname]
  tauto

/-- The greater of two numbers is the same program, however its examples are put. -/
theorem result_of_readings_branching :
    ∃ p, Yields .branching true none (.ok (some p))
      ∧ Yields ⟨.arithmetic, shuffled⟩ true none (.ok (some p)) := by
  obtain ⟨r, p, hr, hp⟩ : ∃ r p, run .branching true none .never 100 = some r
      ∧ r.result = .ok (some p) := ⟨_, _, rfl, rfl⟩
  have hyields : Yields .branching true none (.ok (some p)) := hp ▸ yields_of_run hr
  rcases result_of_readings .arithmetic none true _ _ readings_shuffled with
    ⟨answer, hanswer, hanswer'⟩ | ⟨fault, _, hfault, _⟩ | hnone
  · cases hyields.unique hanswer
    exact ⟨p, hyields, hanswer'⟩
  · cases hyields.unique hfault
  · cases hr.symm.trans (hnone 100).1

end DivideAndConquer

end Sygus
