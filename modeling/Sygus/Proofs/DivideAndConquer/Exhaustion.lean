import Sygus.Proofs.DivideAndConquer.Branches
import Sygus.Proofs.DivideAndConquer.Cancellation

/-!
# Exhausted, or cut short?

An enumerator that gives nothing more is exhausted, or it has found the flag up. A pool that does
not grow does not say which of the two it was, so whoever reports that programs have run out has to
look at the flag. The second phase of a run does, the first one does not: from the first attempt on,
a run that is cut short says so, but before that it reports that the programs fall short.
-/

namespace Sygus

open Relation (ReflTransGen)

namespace Pool

variable {problem : Problem} {p : Pool}

/-- Nothing more than stirring is left to do, and it ends with the source exhausted. -/
def Drains (problem : Problem) (p : Pool) : Prop := ∃ p', ReflTransGen (Stir problem) p p' ∧ p'.Dry

/-- **A pool that does not grow although nobody stops it has drained its source.** -/
theorem drains_of_grow {fuel : Nat} {j : Journal} {g : Growth}
    (h : p.grow problem .never fuel j = some g) (hgrew : g.grew = .ok false) :
    p.Drains problem ∧ g.pool.Dry := by
  obtain ⟨p', hstirs, hend⟩ := grow_cases h
  rw [hgrew] at hend
  generalize g.pool = after at hend
  cases hend with
  | dry hdry => exact ⟨⟨p', hstirs, hdry⟩, hdry⟩
  | stopped hraised => cases hraised

theorem Dry.drains (h : p.Dry) : p.Drains problem := ⟨p, .refl, h⟩

/-- Whatever holds of the reports so far and of new entries holds of the reports after growing. -/
theorem forall_events_of_grow {stop : Stop} {P : Event → Prop}
    (hpooled : ∀ role program label, P (.pooled role program label)) {fuel : Nat} {j : Journal}
    {g : Growth} (h : p.grow problem stop fuel j = some g) (hj : ∀ e ∈ j.events, P e) :
    ∀ e ∈ g.journal.events, P e := by
  rcases grow_events h with heq | ⟨program, s, heq⟩
  · rwa [heq]
  · rw [heq, List.forall_mem_append]
    exact ⟨hj, List.forall_mem_singleton.mpr (hpooled _ _ _)⟩

end Pool

/-- A report of the first phase. -/
inductive Event.Entry : Event → Prop where
  | pooled (role : Role) (p : Program) (label : ExampleSet) : Entry (.pooled role p label)

/-- A report of a run that goes on. -/
inductive Event.Step : Event → Prop where
  | pooled (role : Role) (p : Program) (label : ExampleSet) : Step (.pooled role p label)
  | stitching (expressions predicates : Nat) : Step (.stitching expressions predicates)

namespace DivideAndConquer

variable {c : Setting} {s s' : State} {r : Run} {problem : Problem} {recalls : Bool}
  {bound : Option Nat} {stop : Stop}

theorem forall_events_of_growToCover {P : Event → Prop}
    (hpooled : ∀ role program label, P (.pooled role program label)) {fuel : Nat} {p : Pool}
    {j : Journal} {g : Growth} (h : growToCover c fuel p j = some g) (hj : ∀ e ∈ j.events, P e) :
    ∀ e ∈ g.journal.events, P e := by
  rcases growToCover_cases h with ⟨_, rfl⟩ | ⟨_, hgrow⟩
  · exact hj
  · exact Pool.forall_events_of_grow hpooled hgrow hj

/-- No attempt has been made before this stage. -/
def Stage.Early : Stage → Prop
  | first | covering _ => True
  | attempting | searching | growing | growingPredicates _ => False

/-- What has been reported so far fits the stage. -/
structure State.Orderly (s : State) : Prop where
  steps : ∀ e ∈ s.journal.events, e.Step
  entries : s.stage.Early → ∀ e ∈ s.journal.events, e.Entry

theorem orderly_initial (c : Setting) (bound : Option Nat) : (State.initial c bound).Orderly where
  steps := by simp [State.initial, Journal.empty]
  entries := by simp [State.initial, Journal.empty]

theorem Turn.orderly (h : Turn c s s') (hs : s.Orderly) : s'.Orderly := by
  obtain ⟨hsteps, hentries⟩ := hs
  cases h with
  | covered _ => exact ⟨hsteps, False.elim⟩
  | covers _ hgrow _ =>
      exact ⟨forall_events_of_growToCover .pooled hgrow hsteps,
        fun _ => forall_events_of_growToCover .pooled hgrow (hentries trivial)⟩
  | announced _ =>
      refine ⟨?_, False.elim⟩
      show ∀ e ∈ _ ++ [_], Event.Step e
      rw [List.forall_mem_append]
      exact ⟨hsteps, List.forall_mem_singleton.mpr (.stitching _ _)⟩
  | failed hsearch =>
      refine ⟨?_, False.elim⟩
      rw [search_events hsearch]
      exact hsteps
  | grew hgrow _ => exact ⟨Pool.forall_events_of_grow .pooled hgrow hsteps, False.elim⟩
  | again hgrow _ _ => exact ⟨Pool.forall_events_of_grow .pooled hgrow hsteps, False.elim⟩
  | stopped hgrow _ _ => exact ⟨Pool.forall_events_of_grow .pooled hgrow hsteps, False.elim⟩

/-- If only the predicates can still grow, the expressions are exhausted. -/
def State.Halved (s : State) : Prop :=
  s.stage = .growingPredicates false → s.pools.expressions.Dry

theorem Turn.halved (hcalm : c.stop = .never) (h : Turn c s s') : s'.Halved := by
  intro hstage
  cases h with
  | grew hgrow hgrew =>
      cases hstage
      rw [hcalm] at hgrow
      exact (Pool.drains_of_grow hgrow hgrew).2
  | covered _ => cases hstage
  | covers _ _ _ => cases hstage
  | announced _ => cases hstage
  | failed _ => cases hstage
  | again _ _ _ => cases hstage
  | stopped _ _ _ => cases hstage

/-! ## The last report -/

/-- How a run comes to make its last report. -/
inductive Closing (c : Setting) : State → Run → Event → Prop where
  | fallsShort {role : Role} {pools : Pools} {j : Journal} {fuel : Nat} {g : Growth} :
      (role = .expression → ¬ pools.Cover c) →
      growToCover c fuel (pools.of role) j = some g → g.grew = .ok false →
      Closing c ⟨.covering role, pools, j⟩ ⟨.ok none, g.journal.report (.fallsShort role)⟩
        (.fallsShort role)
  | cancelled {pools : Pools} {j : Journal} : c.stop.isRaised j = true →
      Closing c ⟨.attempting, pools, j⟩ ⟨.ok none, j.polled.report .stitchingCancelled⟩
        .stitchingCancelled
  | found {s : State} {j : Journal} {tree : Program} :
      Closing c s ⟨.ok (some tree), j.report (.found tree)⟩ (.found tree)
  | bothDry {pools : Pools} {j : Journal} {fuel : Nat} {g : Growth} :
      pools.predicates.grow c.problem c.stop fuel j = some g → g.grew = .ok false →
      c.stop.isRaised g.journal = false →
      Closing c ⟨.growingPredicates false, pools, j⟩
        ⟨.ok none, g.journal.polled.report .bothDry⟩ .bothDry

/-- **An ending makes one report at most, the last one.** Without one, a run finds nothing only if
it has not made an attempt. -/
theorem Ending.closing (h : Ending c s r) (hs : s.Orderly)
    (hpools : s.pools.Sourced c.problem bound) :
    ((∀ e ∈ r.journal.events, e.Step)
        ∧ (r.result = .ok none → ∀ e ∈ r.journal.events, e.Entry))
      ∨ ∃ before e, r.journal.events = before ++ [e] ∧ (∀ e ∈ before, e.Step)
        ∧ (s.stage.Early → ∀ e ∈ before, e.Entry) ∧ Closing c s r e := by
  obtain ⟨hsteps, hentries⟩ := hs
  cases h with
  | first hpull =>
      rw [Enumerator.next_events hpull]
      exact Or.inl ⟨hsteps, fun _ => hentries trivial⟩
  | faultyCovering _ hgrow _ =>
      exact Or.inl ⟨forall_events_of_growToCover .pooled hgrow hsteps, by simp⟩
  | fallsShort hno hgrow hgrew =>
      exact Or.inr ⟨_, _, rfl, forall_events_of_growToCover .pooled hgrow hsteps,
        fun _ => forall_events_of_growToCover .pooled hgrow (hentries trivial),
        .fallsShort hno hgrow hgrew⟩
  | cancelled hraised => exact Or.inr ⟨_, _, rfl, hsteps, False.elim, .cancelled hraised⟩
  | @concluded _ _ j' tree hsearch =>
      have hvalid := isValid_of_search (hpools.labelled _ _) hsearch
      have heq : conclude c tree j' = ⟨.ok (some tree), j'.report (.found tree)⟩ := by
        rw [conclude, hvalid]
      rw [heq]
      refine Or.inr ⟨j'.events, _, rfl, ?_, False.elim, .found⟩
      rw [search_events hsearch]
      exact hsteps
  | faultyExpression hgrow _ =>
      exact Or.inl ⟨Pool.forall_events_of_grow .pooled hgrow hsteps, by simp⟩
  | faultyPredicate hgrow _ =>
      exact Or.inl ⟨Pool.forall_events_of_grow .pooled hgrow hsteps, by simp⟩
  | bothDry hgrow hgrew hdown =>
      exact Or.inr ⟨_, _, rfl, Pool.forall_events_of_grow .pooled hgrow hsteps, False.elim,
        .bothDry hgrow hgrew hdown⟩

/-! ## Runs -/

/-- The run is the undisturbed one, and in the end the source of the role is exhausted. -/
def EndsDry (problem : Problem) (recalls : Bool) (bound : Option Nat) (r : Run) (role : Role) :
    Prop :=
  ∃ s, (machine problem recalls bound).Reaches .never s
    ∧ (machine problem recalls bound).ending .never s r
    ∧ (s.pools.of role).Drains (Setting.of problem recalls .never).problem

theorem EndsDry.yields {role : Role} (h : EndsDry problem recalls bound r role) :
    (machine problem recalls bound).Yields .never r := by
  obtain ⟨s, hs, hend, _⟩ := h
  exact ⟨s, hs, hend⟩

theorem halved_of_reaches (h : (machine problem recalls bound).Reaches .never s) : s.Halved := by
  cases h with
  | refl =>
      intro hstage
      have hearly : (State.initial (.of problem recalls .never) bound).stage.Early := by
        unfold State.initial
        dsimp only
        split <;> trivial
      have hstage' : (State.initial (.of problem recalls .never) bound).stage
          = .growingPredicates false := hstage
      rw [hstage'] at hearly
      exact hearly.elim
  | tail _ hturn => exact Turn.halved rfl hturn

/-- **A run that reports that both enumerators are dry is right.** It has looked at the flag. -/
theorem endsDry_of_bothDry (hs : (machine problem recalls bound).Reaches stop s)
    (h : Closing (.of problem recalls stop) s r .bothDry) (role : Role) :
    EndsDry problem recalls bound r role := by
  cases h with
  | @bothDry _ _ _ g hgrow hgrew hdown =>
      have hdown' : stop.isRaised g.journal = false := hdown
      rcases (stoppable problem recalls bound).reaches hs with hcalm | ⟨hraised, _⟩
      · rcases grow_calm_or_halted hgrow with hgrow' | hhalted
        · refine ⟨_, hcalm, Ending.bothDry hgrow' hgrew rfl, ?_⟩
          cases role with
          | expression => exact (halved_of_reaches hcalm rfl).drains
          | predicate => exact (Pool.drains_of_grow hgrow' hgrew).1
        · exact absurd hhalted.raised (by simp [hdown])
      · exact absurd ((Pool.grow_before hgrow).isRaised hraised) (by simp [hdown'])

/-- **A run that reports that programs fall short is right, or the flag is up.** -/
theorem endsDry_or_raised_of_fallsShort {role : Role}
    (hs : (machine problem recalls bound).Reaches stop s)
    (h : Closing (.of problem recalls stop) s r (.fallsShort role)) :
    EndsDry problem recalls bound r role ∨ stop.isRaised r.journal = true := by
  cases h with
  | fallsShort hno hgrow hgrew =>
      rcases (stoppable problem recalls bound).reaches hs with hcalm | ⟨hraised, _⟩
      · rcases growToCover_calm_or_halted hgrow with hgrow' | hhalted
        · refine Or.inl ⟨_, hcalm, Ending.fallsShort hno hgrow' hgrew, ?_⟩
          rcases growToCover_cases hgrow' with ⟨_, rfl⟩ | ⟨_, hgrow''⟩
          · cases hgrew
          · exact (Pool.drains_of_grow hgrow'' hgrew).1
        · exact Or.inr ((Journal.Before.report _ _).isRaised hhalted.raised)
      · exact Or.inr (((growToCover_before hgrow).trans (.report _ _)).isRaised hraised)

/-- What is known of a run when it ends. -/
theorem exists_closing_of_run {fuel : Nat} (h : run problem recalls bound stop fuel = some r) :
    ∃ s, (machine problem recalls bound).Reaches stop s
      ∧ (((∀ e ∈ r.journal.events, e.Step)
          ∧ (r.result = .ok none → ∀ e ∈ r.journal.events, e.Entry))
        ∨ ∃ before e, r.journal.events = before ++ [e] ∧ (∀ e ∈ before, e.Step)
          ∧ (s.stage.Early → ∀ e ∈ before, e.Entry)
          ∧ Closing (.of problem recalls stop) s r e) := by
  obtain ⟨s, ⟨hreaches, horderly, hpools⟩, hend⟩ := exists_ending_of_run
    (P := fun s => (machine problem recalls bound).Reaches stop s ∧ s.Orderly
      ∧ s.pools.Sourced (Setting.of problem recalls stop).problem bound)
    (fun hs hturn => ⟨hs.1.tail hturn, hturn.orderly hs.2.1, hturn.sourced hs.2.2⟩) h
    ⟨.refl, orderly_initial _ _, Pools.sourced_fresh _ _⟩
  exact ⟨s, hreaches, hend.closing horderly hpools⟩

/-- A report that a run cannot go on from is its last one. -/
theorem closing_of_mem {fuel : Nat} {e : Event} (h : run problem recalls bound stop fuel = some r)
    (he : e ∈ r.journal.events) (hlast : ¬ e.Step) :
    ∃ s before, (machine problem recalls bound).Reaches stop s
      ∧ r.journal.events = before ++ [e] ∧ (s.stage.Early → ∀ e ∈ before, e.Entry)
      ∧ Closing (.of problem recalls stop) s r e := by
  obtain ⟨s, hs, ⟨hsteps, _⟩ | ⟨before, last, hevents, hsteps, hentries, hclosing⟩⟩ :=
    exists_closing_of_run h
  · exact absurd (hsteps e he) hlast
  · rw [hevents] at he
    rcases List.mem_append.mp he with he | he
    · exact absurd (hsteps e he) hlast
    · cases List.mem_singleton.mp he
      exact ⟨s, before, hs, hevents, hentries, hclosing⟩

/-- Nothing has been attempted if no report but the last one is about more than entries. -/
theorem stitching_not_mem {events before : List Event} {role : Role}
    (hevents : events = before ++ [.fallsShort role]) (hbefore : ∀ e ∈ before, e.Entry)
    (expressions predicates : Nat) : .stitching expressions predicates ∉ events := by
  intro hmem
  rw [hevents] at hmem
  rcases List.mem_append.mp hmem with hmem | hmem
  · cases hbefore _ hmem
  · cases List.mem_singleton.mp hmem

/--
**When a report that programs have run out can be trusted.**

Take any run, whether it recalls answers or not, under any bound, and whenever its flag goes up. If
it reports that both enumerators are dry, it is the undisturbed run and both are exhausted. If it
reports that the programs of a role fall short, it is the undisturbed run and the enumerator of the
role is exhausted, or the flag is up and no attempt has been made. So a run that is cut short after
its first attempt reports just that.
-/
theorem dry_or_cut_short (problem : Problem) (recalls : Bool) (bound : Option Nat) (stop : Stop)
    (fuel : Nat) (r : Run) (h : run problem recalls bound stop fuel = some r) :
    (.bothDry ∈ r.journal.events → ∀ role, EndsDry problem recalls bound r role)
      ∧ (∀ role, .fallsShort role ∈ r.journal.events → EndsDry problem recalls bound r role
        ∨ (stop.isRaised r.journal = true ∧ ∀ m n, .stitching m n ∉ r.journal.events))
      ∧ (¬ (machine problem recalls bound).Yields .never r →
        ∀ m n, .stitching m n ∈ r.journal.events →
          r.journal.events.getLast? = some .stitchingCancelled
            ∧ .bothDry ∉ r.journal.events ∧ ∀ role, .fallsShort role ∉ r.journal.events) := by
  have hboth : .bothDry ∈ r.journal.events → ∀ role, EndsDry problem recalls bound r role := by
    intro hmem
    obtain ⟨s, _, hs, _, _, hclosing⟩ := closing_of_mem h hmem nofun
    exact endsDry_of_bothDry hs hclosing
  have hshort : ∀ role, .fallsShort role ∈ r.journal.events → EndsDry problem recalls bound r role
      ∨ (stop.isRaised r.journal = true ∧ ∀ m n, .stitching m n ∉ r.journal.events) := by
    intro role hmem
    obtain ⟨s, before, hs, hevents, hentries, hclosing⟩ := closing_of_mem h hmem nofun
    rcases endsDry_or_raised_of_fallsShort hs hclosing with hdry | hraised
    · exact Or.inl hdry
    · cases hclosing
      exact Or.inr ⟨hraised, stitching_not_mem hevents (hentries trivial)⟩
  refine ⟨hboth, hshort, ?_⟩
  intro hcut m n hattempt
  have hno : .bothDry ∉ r.journal.events := fun hmem => hcut (hboth hmem .expression).yields
  have hno' : ∀ role, .fallsShort role ∉ r.journal.events := by
    intro role hmem
    rcases hshort role hmem with hdry | ⟨_, hnone⟩
    · exact hcut hdry.yields
    · exact hnone m n hattempt
  refine ⟨?_, hno, hno'⟩
  have hresult : r.result = .ok none := by
    rcases (stoppable problem recalls bound).outcome ((computedBy problem recalls bound).yields h)
      with hsame | ⟨hnone, _⟩
    · exact absurd hsame hcut
    · exact hnone
  obtain ⟨s, hs, ⟨_, hentries⟩ | ⟨before, e, hevents, _, _, hclosing⟩⟩ := exists_closing_of_run h
  · cases hentries hresult _ hattempt
  · rw [hevents] at hno hno' ⊢
    rw [List.getLast?_concat]
    cases hclosing with
    | cancelled _ => rfl
    | found => cases hresult
    | fallsShort _ _ _ => exact absurd (List.mem_concat_self) (hno' _)
    | bothDry _ _ _ => exact absurd (List.mem_concat_self) hno

/-- A run that finds nothing is not the undisturbed one if that finds a program. -/
theorem not_yields_of_found (fuel : Nat) {r₀ : Run} {p : Program}
    (h₀ : run problem recalls bound .never fuel = some r₀) (hfound : r₀.result = .ok (some p))
    (hnone : r.result = .ok none) : ¬ (machine problem recalls bound).Yields .never r := by
  intro hr
  have hrun := computedBy problem recalls bound
  rw [hrun.eq_of_yields hr (hrun.yields h₀), hfound] at hnone
  cases hnone

/-- Two examples that are covered by expressions, and which no predicate tells apart. -/
def untold : Problem where
  grammar := ⟨"E", [.leaf "E" "x", .leaf "E" "y",
    ⟨"B", "Eq", [.nonTerminal "E", .nonTerminal "E"]⟩]⟩
  examples := [⟨.ofList [("x", 0), ("y", 1)], 0⟩, ⟨.ofList [("x", 1), ("y", 0)], 0⟩]

/-- Where no predicate tells the examples apart, both enumerators are exhausted in the end; where
nothing fits the bound, that of the expressions is. A run for the greater of two numbers that is
stopped with its first attempt says that it was stopped. -/
theorem dry_or_cut_short_untold :
    (∃ r, run untold true none .never 30 = some r ∧ .bothDry ∈ r.journal.events
        ∧ ∀ role, EndsDry untold true none r role)
      ∧ (∃ r, run untold true (some 0) .never 30 = some r
        ∧ .fallsShort .expression ∈ r.journal.events
        ∧ (EndsDry untold true (some 0) r .expression
          ∨ (Stop.never.isRaised r.journal = true ∧ ∀ m n, .stitching m n ∉ r.journal.events)))
      ∧ ∃ r, run .branching true none (.atEvent 5) 100 = some r
        ∧ ¬ (machine .branching true none).Yields .never r ∧ .stitching 2 2 ∈ r.journal.events
        ∧ r.journal.events.getLast? = some .stitchingCancelled ∧ .bothDry ∉ r.journal.events
        ∧ ∀ role, .fallsShort role ∉ r.journal.events := by
  refine ⟨⟨_, rfl, by decide, ?_⟩, ⟨_, rfl, by decide, ?_⟩, ?_⟩
  · exact (dry_or_cut_short untold true none .never 30 _ rfl).1 (by decide)
  · exact (dry_or_cut_short untold true (some 0) .never 30 _ rfl).2.1 _ (by decide)
  · obtain ⟨r, hr, hnone, hattempt⟩ : ∃ r, run .branching true none (.atEvent 5) 100 = some r
        ∧ r.result = .ok none ∧ .stitching 2 2 ∈ r.journal.events := ⟨_, rfl, rfl, by decide⟩
    have hcut : ¬ (machine .branching true none).Yields .never r :=
      not_yields_of_found 100 rfl rfl hnone
    exact ⟨r, hr, hcut, hattempt,
      (dry_or_cut_short .branching true none (.atEvent 5) 100 r hr).2.2 hcut 2 2 hattempt⟩

/-- **A run that is cut short may report that programs fall short.** If the flag goes up before the
start, a run for the greater of two numbers blames the expressions, and if it goes up with the first
entry, the predicates. Undisturbed, the run finds a program. -/
theorem falls_short_when_cut_short :
    ∃ r r' r₀ p, run .branching true none (.atEvent 0) 100 = some r
      ∧ run .branching true none (.atEvent 1) 100 = some r'
      ∧ run .branching true none .never 100 = some r₀ ∧ r₀.result = .ok (some p)
      ∧ .fallsShort .expression ∈ r.journal.events
      ∧ ¬ EndsDry .branching true none r .expression
      ∧ .fallsShort .predicate ∈ r'.journal.events
      ∧ ¬ EndsDry .branching true none r' .predicate := by
  refine ⟨_, _, _, _, rfl, rfl, rfl, rfl, by decide, ?_, by decide, ?_⟩
  · exact fun h => not_yields_of_found 100 rfl rfl rfl h.yields
  · exact fun h => not_yields_of_found 100 rfl rfl rfl h.yields

end DivideAndConquer

end Sygus
