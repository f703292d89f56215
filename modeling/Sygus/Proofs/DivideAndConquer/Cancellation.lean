import Sygus.Proofs.DivideAndConquer.Turns
import Sygus.Proofs.Machines

/-!
# Stopping a run of divide and conquer

The flag is looked at in many places: for every term that an enumerator takes, for every expression
that a stitching tries, and before every attempt. Wherever it is found up, the call that found it
gives nothing, and the run goes on with this. A turn is therefore undisturbed, or it ends with the
flag up; then neither pool grows any more, no tree is found, and no fault is met, so that all the
run can end with is nothing.
-/

namespace Sygus.DivideAndConquer

variable {c : Setting} {s s' s'' : State} {r : Run} {fuel fuel' : Nat} {j j' : Journal}

/-- The setting in which nobody stops the run. -/
def Setting.calm (c : Setting) : Setting := { c with stop := .never }

/-! ## Calls -/

/-- What does not change with more fuel does not depend on it. -/
theorem eq_of_mono {α : Type} {f : Nat → Option α}
    (hmono : ∀ {m n a}, f m = some a → m ≤ n → f n = some a) {a b : α} (ha : f fuel = some a)
    (hb : f fuel' = some b) : a = b :=
  Option.some.inj ((hmono ha (Nat.le_max_left fuel fuel')).symm.trans
    (hmono hb (Nat.le_max_right fuel fuel')))

theorem grow_unique {p : Pool} {g g' : Growth} (h : p.grow c.problem c.stop fuel j = some g)
    (h' : p.grow c.problem c.stop fuel' j = some g') : g = g' :=
  eq_of_mono (fun hg hle => Pool.grow_mono hg hle) h h'

theorem growToCover_unique {p : Pool} {g g' : Growth} (h : growToCover c fuel p j = some g)
    (h' : growToCover c fuel' p j = some g') : g = g' :=
  eq_of_mono (fun hg hle => growToCover_mono hg hle) h h'

/-- A pool that has not grown because of the flag, which has heard enough. -/
structure Halted (c : Setting) (j : Journal) (g : Growth) : Prop where
  grew : g.grew = .ok false
  raised : c.stop.isRaised g.journal = true
  heard : c.stop.Heard j

theorem grow_calm_or_halted {p : Pool} {g : Growth} (h : p.grow c.problem c.stop fuel j = some g) :
    p.grow c.calm.problem c.calm.stop fuel j = some g ∨ Halted c j g := by
  rcases Pool.grow_never_or_stopped h with hcalm | ⟨hgrew, hraised⟩
  · exact Or.inl hcalm
  · exact Or.inr ⟨hgrew, hraised,
      Stop.heard_of_isRaised hraised (Pool.grow_events_of_ne h (by simp [hgrew]))⟩

theorem growToCover_calm_or_halted {p : Pool} {g : Growth}
    (h : growToCover c fuel p j = some g) :
    growToCover c.calm fuel p j = some g ∨ Halted c j g := by
  unfold growToCover at h ⊢
  split at h
  · rename_i hcovers
    exact Or.inl ((if_pos hcovers).trans h)
  · rename_i hcovers
    rcases grow_calm_or_halted h with hcalm | hhalted
    · exact Or.inl ((if_neg hcovers).trans hcalm)
    · exact Or.inr hhalted

theorem growToCover_before {p : Pool} {g : Growth} (h : growToCover c fuel p j = some g) :
    j.Before g.journal := by
  rcases growToCover_cases h with ⟨_, rfl⟩ | ⟨_, hgrow⟩
  · exact .refl j
  · exact Pool.grow_before hgrow

/-- Under a raised flag, growing to cover meets no fault. -/
theorem growToCover_of_raised {p : Pool} {g : Growth} {fault : Fault}
    (hraised : c.stop.isRaised j = true) (h : growToCover c fuel p j = some g) :
    g.grew ≠ .error fault := by
  rcases growToCover_cases h with ⟨_, rfl⟩ | ⟨_, hgrow⟩
  · simp
  · simp [Pool.grow_of_raised hraised hgrow]

/-- A search reports nothing. -/
theorem search_events {pools : Pools} {found : Option Program}
    (h : search c pools j = (found, j')) : j'.events = j.events := by
  have hsilent := Stitcher.solve_silent (c := pools.stitcher c.recalls c.stop)
    ((List.range c.problem.examples.length).length + 1) (List.range c.problem.examples.length)
    { journal := j }
  rw [show j' = (search c pools j).2 by rw [h]]
  exact hsilent

theorem search_calm_or_stopped {pools : Pools} {found : Option Program}
    (h : search c pools j = (found, j')) :
    search c.calm pools j = (found, j')
      ∨ (found = none ∧ c.stop.isRaised j' = true ∧ c.stop.Heard j) := by
  rcases Stitcher.stitch_never_or_stopped (pools.stitcher c.recalls c.stop)
    (List.range c.problem.examples.length) j with hsame | ⟨hnone, hraised⟩
  · exact Or.inl (hsame.symm.trans h)
  · have hfound : (search c pools j).1 = none := hnone
    have hup : c.stop.isRaised (search c pools j).2 = true := hraised
    rw [h] at hfound hup
    exact Or.inr ⟨hfound, hup, Stop.heard_of_isRaised hup (search_events h)⟩

/-- A search under a raised flag finds nothing. -/
theorem search_of_raised {pools : Pools} {found : Option Program}
    (hraised : c.stop.isRaised j = true) (h : search c pools j = (found, j')) :
    found = none ∧ c.stop.isRaised j' = true := by
  have hstitch := Stitcher.stitch_of_raised (c := pools.stitcher c.recalls c.stop) hraised
    (List.range c.problem.examples.length)
  have hsearch : (search c pools j).1 = none ∧ c.stop.isRaised (search c pools j).2 = true := hstitch
  rwa [h] at hsearch

/-! ## Turns -/

/-- There is but one turn to make. -/
theorem Turn.deterministic (h : Turn c s s') (h' : Turn c s s'') : s' = s'' := by
  cases h with
  | covered hcover =>
      cases h' with
      | covered _ => rfl
      | covers hno _ _ => exact absurd hcover (hno rfl)
  | covers hno hgrow _ =>
      cases h' with
      | covered hcover => exact absurd hcover (hno rfl)
      | covers _ hgrow' _ =>
          cases growToCover_unique hgrow hgrow'
          rfl
  | announced _ =>
      cases h' with
      | announced _ => rfl
  | failed hsearch =>
      cases h' with
      | failed hsearch' =>
          cases hsearch.symm.trans hsearch'
          rfl
  | grew hgrow hgrew =>
      cases h' with
      | grew hgrow' hgrew' =>
          cases grow_unique hgrow hgrow'
          cases hgrew.symm.trans hgrew'
          rfl
  | again hgrow hgrew hany =>
      cases h' with
      | again hgrow' _ _ =>
          cases grow_unique hgrow hgrow'
          rfl
      | stopped hgrow' hgrew' _ =>
          cases grow_unique hgrow hgrow'
          cases hgrew.symm.trans hgrew'
          cases hany
  | stopped hgrow hgrew _ =>
      cases h' with
      | again hgrow' hgrew' hany =>
          cases grow_unique hgrow hgrow'
          cases hgrew.symm.trans hgrew'
          cases hany
      | stopped hgrow' _ _ =>
          cases grow_unique hgrow hgrow'
          rfl

/-- **A turn is undisturbed, or it ends with the flag up.** -/
theorem Turn.calm_or_raised (h : Turn c s s') :
    Turn c.calm s s' ∨ (c.stop.isRaised s'.journal = true ∧ c.stop.Heard s.journal) := by
  cases h with
  | covered hcover => exact Or.inl (.covered hcover)
  | announced _ => exact Or.inl (.announced rfl)
  | covers hno hgrow hgrew =>
      rcases growToCover_calm_or_halted hgrow with hcalm | hhalted
      · exact Or.inl (.covers hno hcalm hgrew)
      · cases hgrew.symm.trans hhalted.grew
  | failed hsearch =>
      rcases search_calm_or_stopped hsearch with hcalm | ⟨_, hraised, hheard⟩
      · exact Or.inl (.failed hcalm)
      · exact Or.inr ⟨hraised, hheard⟩
  | grew hgrow hgrew =>
      rcases grow_calm_or_halted hgrow with hcalm | hhalted
      · exact Or.inl (.grew hcalm hgrew)
      · exact Or.inr ⟨hhalted.raised, hhalted.heard⟩
  | again hgrow hgrew hany =>
      rcases grow_calm_or_halted hgrow with hcalm | hhalted
      · exact Or.inl (.again hcalm hgrew hany)
      · exact Or.inr ⟨hhalted.raised, hhalted.heard⟩
  | stopped hgrow hgrew hraised =>
      have hevents := Pool.grow_events_of_ne hgrow (by simp [hgrew])
      exact Or.inr ⟨Stop.isRaised_polled hraised, Stop.heard_of_isRaised hraised hevents⟩

theorem Turn.raised (h : Turn c s s') (hraised : c.stop.isRaised s.journal = true) :
    c.stop.isRaised s'.journal = true := by
  cases h with
  | covered _ => exact hraised
  | covers _ hgrow _ => exact (growToCover_before hgrow).isRaised hraised
  | announced hdown => exact absurd hraised (by simp [hdown])
  | failed hsearch => exact (search_of_raised hraised hsearch).2
  | grew hgrow _ => exact (Pool.grow_before hgrow).isRaised hraised
  | again hgrow _ _ => exact (Pool.grow_before hgrow).isRaised hraised
  | stopped _ _ hup => exact Stop.isRaised_polled hup

theorem Turn.events (h : Turn c s s') : s.journal.events <+: s'.journal.events := by
  cases h with
  | covered _ => exact List.prefix_refl _
  | covers _ hgrow _ => exact (growToCover_before hgrow).events
  | announced _ => exact ((Journal.Before.polled _).trans (.report _ _)).events
  | failed hsearch => exact ⟨[], by rw [List.append_nil, search_events hsearch]⟩
  | grew hgrow _ => exact (Pool.grow_before hgrow).events
  | again hgrow _ _ => exact (Pool.grow_before hgrow).events
  | stopped hgrow _ _ => exact ((Pool.grow_before hgrow).trans (.polled _)).events

/-! ## Endings -/

/-- A run that ends makes no turn. -/
theorem Ending.no_turn (h : Ending c s r) : ¬ Turn c s s' := by
  intro hturn
  cases h with
  | first _ => cases hturn
  | faultyCovering hno hgrow hgrew =>
      cases hturn with
      | covered hcover => exact hno rfl hcover
      | covers _ hgrow' hgrew' =>
          cases growToCover_unique hgrow hgrow'
          cases hgrew.symm.trans hgrew'
  | fallsShort hno hgrow hgrew =>
      cases hturn with
      | covered hcover => exact hno rfl hcover
      | covers _ hgrow' hgrew' =>
          cases growToCover_unique hgrow hgrow'
          cases hgrew.symm.trans hgrew'
  | cancelled hraised =>
      cases hturn with
      | announced hdown => simp [hdown] at hraised
  | concluded hsearch =>
      cases hturn with
      | failed hsearch' => cases hsearch.symm.trans hsearch'
  | faultyExpression hgrow hgrew =>
      cases hturn with
      | grew hgrow' hgrew' =>
          cases grow_unique hgrow hgrow'
          cases hgrew.symm.trans hgrew'
  | faultyPredicate hgrow hgrew =>
      cases hturn with
      | again hgrow' hgrew' _ =>
          cases grow_unique hgrow hgrow'
          cases hgrew.symm.trans hgrew'
      | stopped hgrow' hgrew' _ =>
          cases grow_unique hgrow hgrow'
          cases hgrew.symm.trans hgrew'
  | bothDry hgrow hgrew hdown =>
      cases hturn with
      | again hgrow' hgrew' hany =>
          cases grow_unique hgrow hgrow'
          cases hgrew.symm.trans hgrew'
          cases hany
      | stopped hgrow' _ hraised =>
          cases grow_unique hgrow hgrow'
          simp [hdown] at hraised

/-- **An ending is undisturbed, or it gives nothing.** -/
theorem Ending.calm_or_none (h : Ending c s r) :
    Ending c.calm s r ∨ (r.result = .ok none ∧ c.stop.Heard s.journal) := by
  cases h with
  | first hpull =>
      rcases Enumerator.next_never_or_stopped hpull with hcalm | ⟨hnone, hraised⟩
      · exact Or.inl (.first hcalm)
      · exact Or.inr ⟨hnone, Stop.heard_of_isRaised hraised (Enumerator.next_events hpull)⟩
  | faultyCovering hno hgrow hgrew =>
      rcases growToCover_calm_or_halted hgrow with hcalm | hhalted
      · exact Or.inl (.faultyCovering hno hcalm hgrew)
      · cases hgrew.symm.trans hhalted.grew
  | fallsShort hno hgrow hgrew =>
      rcases growToCover_calm_or_halted hgrow with hcalm | hhalted
      · exact Or.inl (.fallsShort hno hcalm hgrew)
      · exact Or.inr ⟨rfl, hhalted.heard⟩
  | cancelled hraised => exact Or.inr ⟨rfl, Stop.heard_of_isRaised hraised rfl⟩
  | concluded hsearch =>
      rcases search_calm_or_stopped hsearch with hcalm | ⟨hnone, _, _⟩
      · exact Or.inl (.concluded hcalm)
      · cases hnone
  | faultyExpression hgrow hgrew =>
      rcases grow_calm_or_halted hgrow with hcalm | hhalted
      · exact Or.inl (.faultyExpression hcalm hgrew)
      · cases hgrew.symm.trans hhalted.grew
  | faultyPredicate hgrow hgrew =>
      rcases grow_calm_or_halted hgrow with hcalm | hhalted
      · exact Or.inl (.faultyPredicate hcalm hgrew)
      · cases hgrew.symm.trans hhalted.grew
  | bothDry hgrow hgrew hdown =>
      rcases grow_calm_or_halted hgrow with hcalm | hhalted
      · exact Or.inl (.bothDry hcalm hgrew rfl)
      · exact absurd hhalted.raised (by simp [hdown])

/-- Under a raised flag a run ends with nothing. -/
theorem Ending.none_of_raised (h : Ending c s r) (hraised : c.stop.isRaised s.journal = true) :
    r.result = .ok none := by
  cases h with
  | first hpull => exact Enumerator.next_of_raised hraised hpull
  | faultyCovering _ hgrow hgrew => exact absurd hgrew (growToCover_of_raised hraised hgrow)
  | fallsShort _ _ _ => rfl
  | cancelled _ => rfl
  | concluded hsearch => cases (search_of_raised hraised hsearch).1
  | faultyExpression hgrow hgrew => cases hgrew.symm.trans (Pool.grow_of_raised hraised hgrow)
  | faultyPredicate hgrow hgrew => cases hgrew.symm.trans (Pool.grow_of_raised hraised hgrow)
  | bothDry _ _ _ => rfl

theorem conclude_events (tree : Program) (j : Journal) :
    j.events <+: (conclude c tree j).journal.events := by
  unfold conclude
  split
  · exact List.prefix_refl _
  · exact (Journal.Before.report _ _).events
  · exact (Journal.Before.report _ _).events

theorem Ending.events (h : Ending c s r) : s.journal.events <+: r.journal.events := by
  cases h with
  | first hpull => exact (Enumerator.next_before hpull).events
  | faultyCovering _ hgrow _ => exact (growToCover_before hgrow).events
  | fallsShort _ hgrow _ => exact ((growToCover_before hgrow).trans (.report _ _)).events
  | cancelled _ => exact ((Journal.Before.polled _).trans (.report _ _)).events
  | @concluded _ _ j' tree hsearch =>
      rw [← search_events hsearch]
      exact conclude_events tree j'
  | faultyExpression hgrow _ => exact (Pool.grow_before hgrow).events
  | faultyPredicate hgrow _ => exact (Pool.grow_before hgrow).events
  | bothDry hgrow _ _ =>
      exact ((Pool.grow_before hgrow).trans ((Journal.Before.polled _).trans (.report _ _))).events

/-! ## Runs -/

/-- A run of divide and conquer as a machine. -/
def machine (problem : Problem) (recalls : Bool) (bound : Option Nat) : Machine State where
  initial := .initial (.of problem recalls .never) bound
  journal := State.journal
  turn stop := Turn (.of problem recalls stop)
  ending stop := Ending (.of problem recalls stop)

/-- A fresh pool covers no example. -/
theorem not_covers_fresh {role : Role} {bound : Option Nat} {count : Nat} (h : 0 < count) :
    (Pool.fresh role bound).covers count ≠ true := by
  intro hcovers
  have hnone : 0 = count := of_decide_eq_true hcovers
  omega

/-- A run whose flag is up before the start ends at once. -/
theorem exists_ending_of_raised {problem : Problem} {recalls : Bool} {bound : Option Nat}
    {stop : Stop} (hraised : stop.isRaised .empty = true) :
    ∃ r, Ending (.of problem recalls stop) (.initial (.of problem recalls stop) bound) r := by
  unfold State.initial
  by_cases hnil : (Setting.of problem recalls stop).problem.examples = []
  · rw [if_pos hnil]
    obtain ⟨pull, hpull⟩ := Enumerator.exists_next_of_raised hraised problem.grammar
      (Pools.fresh bound).expressions.source
    exact ⟨_, .first hpull⟩
  · -- the expressions cover nothing, and they do not grow
    rw [if_neg hnil]
    have hcovers : ¬ (Pools.fresh bound).expressions.covers
        (Setting.of problem recalls stop).problem.examples.length = true :=
      not_covers_fresh (List.length_pos_of_ne_nil hnil)
    obtain ⟨g, hg, hgrew⟩ : ∃ g, (Pools.fresh bound).expressions.grow
        (Setting.of problem recalls stop).problem stop 2 .empty = some g ∧ g.grew = .ok false :=
      Pool.exists_grow_of_raised hraised _
    have hgrow : growToCover (.of problem recalls stop) 2
        ((Pools.fresh bound).of .expression) .empty = some g := (if_neg hcovers).trans hg
    exact ⟨_, .fallsShort (fun _ hcover => hcovers hcover.1) hgrow hgrew⟩

/-- **A flag does to a run what it may do.** -/
theorem stoppable (problem : Problem) (recalls : Bool) (bound : Option Nat) :
    (machine problem recalls bound).Stoppable where
  begins := rfl
  deterministic h h' := Turn.deterministic h h'
  no_turn h := Ending.no_turn h
  turn_never h := Turn.calm_or_raised h
  turn_raised h hraised := Turn.raised h hraised
  turn_events h := Turn.events h
  ending_never h := Ending.calm_or_none h
  ending_raised h hraised := Ending.none_of_raised h hraised
  ending_events h := Ending.events h
  initial_raised hraised := by
    obtain ⟨r, hr⟩ := exists_ending_of_raised hraised
    exact ⟨r, _, .refl, hr⟩

/-- A run computes what its machine yields. -/
theorem computedBy (problem : Problem) (recalls : Bool) (bound : Option Nat) :
    (machine problem recalls bound).ComputedBy (run problem recalls bound) where
  yields h := run_cases h
  exists_fuel h := by
    obtain ⟨_, hs, hend⟩ := h
    exact exists_run_of_turns hs hend

end Sygus.DivideAndConquer
