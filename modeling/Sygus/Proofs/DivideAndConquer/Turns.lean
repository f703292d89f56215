import Mathlib.Logic.Relation
import Sygus.Proofs.DivideAndConquer.Totality

/-!
# What a run of divide and conquer does

A run makes **turns** until it comes to an **ending**. Between two turns it is about to do one
thing, its **stage**: to grow a pool, to begin an attempt, or to search for a tree. A turn grows
one pool at most and makes one report at most, so the states between the turns are all the moments
at which something new can be seen of a run.

`run_cases` takes a run apart in this way, and `exists_run_of_turns` puts one together. Only the
proofs of these two open the loops: what is said of a run is said of a single turn and of the
endings.
-/

namespace Sygus

open Relation (ReflTransGen)

/-- The role whose pool grows after this one's. -/
def Role.other : Role → Role
  | expression => predicate
  | predicate => expression

namespace DivideAndConquer

/-- What a run is about to do. -/
inductive Stage where
  /-- To hand out the first expression, as there are no examples. -/
  | first
  /-- To grow the pool of a role, unless it covers the examples. -/
  | covering (role : Role)
  /-- To begin an attempt. -/
  | attempting
  /-- To search for a tree. -/
  | searching
  /-- To grow the expressions after a failed attempt. -/
  | growing
  /-- To grow the predicates after that. -/
  | growingPredicates (grewExpression : Bool)

/-- A run under way. -/
structure State where
  stage : Stage
  pools : Pools
  journal : Journal

variable {c : Setting} {s s' : State} {r : Run}

/-- A run that has not begun. -/
def State.initial (c : Setting) (bound : Option Nat) : State where
  stage := if c.problem.examples = [] then .first else .covering .expression
  pools := .fresh bound
  journal := .empty

/-- The pool of a role. -/
def Pools.of (pools : Pools) : Role → Pool
  | .expression => pools.expressions
  | .predicate => pools.predicates

/-- The pools with another pool for a role. -/
def Pools.set (pools : Pools) (p : Pool) : Role → Pools
  | .expression => ⟨p, pools.predicates⟩
  | .predicate => ⟨pools.expressions, p⟩

theorem Pools.of_set (pools : Pools) (p : Pool) (role role' : Role) :
    (pools.set p role).of role' = if role' = role then p else pools.of role' := by
  cases role <;> cases role' <;> rfl

/-- The search of an attempt, after the attempt has been reported. -/
def search (c : Setting) (pools : Pools) (j : Journal) : Option Program × Journal :=
  (pools.stitcher c.recalls c.stop).stitch (List.range c.problem.examples.length) j

theorem attempt_eq_search (c : Setting) (pools : Pools) (j : Journal) :
    attempt c pools j = search c pools (attemptJournal pools j) := rfl

/-- A turn after which the run goes on. -/
inductive Turn (c : Setting) : State → State → Prop where
  /-- Both pools cover the examples. -/
  | covered {pools : Pools} {j : Journal} : pools.Cover c →
      Turn c ⟨.covering .expression, pools, j⟩ ⟨.attempting, pools, j⟩
  /-- A pool has grown, or there was no need to. -/
  | covers {role : Role} {pools : Pools} {j : Journal} {fuel : Nat} {g : Growth} :
      (role = .expression → ¬ pools.Cover c) →
      growToCover c fuel (pools.of role) j = some g → g.grew = .ok true →
      Turn c ⟨.covering role, pools, j⟩ ⟨.covering role.other, pools.set g.pool role, g.journal⟩
  /-- An attempt is reported. -/
  | announced {pools : Pools} {j : Journal} : c.stop.isRaised j = false →
      Turn c ⟨.attempting, pools, j⟩ ⟨.searching, pools, attemptJournal pools j.polled⟩
  /-- There is no tree. -/
  | failed {pools : Pools} {j j' : Journal} : search c pools j = (none, j') →
      Turn c ⟨.searching, pools, j⟩ ⟨.growing, pools, j'⟩
  /-- The expressions had their chance to grow. -/
  | grew {pools : Pools} {j : Journal} {fuel : Nat} {g : Growth} {grewExpression : Bool} :
      pools.expressions.grow c.problem c.stop fuel j = some g → g.grew = .ok grewExpression →
      Turn c ⟨.growing, pools, j⟩
        ⟨.growingPredicates grewExpression, pools.set g.pool .expression, g.journal⟩
  /-- One of the pools has grown. -/
  | again {pools : Pools} {j : Journal} {fuel : Nat} {g : Growth}
      {grewExpression grewPredicate : Bool} :
      pools.predicates.grow c.problem c.stop fuel j = some g → g.grew = .ok grewPredicate →
      (grewExpression || grewPredicate) = true →
      Turn c ⟨.growingPredicates grewExpression, pools, j⟩
        ⟨.attempting, pools.set g.pool .predicate, g.journal⟩
  /-- No pool has grown, but the flag is up. -/
  | stopped {pools : Pools} {j : Journal} {fuel : Nat} {g : Growth} :
      pools.predicates.grow c.problem c.stop fuel j = some g → g.grew = .ok false →
      c.stop.isRaised g.journal = true →
      Turn c ⟨.growingPredicates false, pools, j⟩
        ⟨.attempting, pools.set g.pool .predicate, g.journal.polled⟩

/-- The ways in which a run ends. -/
inductive Ending (c : Setting) : State → Run → Prop where
  /-- Without examples the first expression is the answer. -/
  | first {pools : Pools} {j : Journal} {fuel : Nat} {pull : Pull} :
      pools.expressions.source.next c.problem.grammar c.stop fuel j = some pull →
      Ending c ⟨.first, pools, j⟩ ⟨pull.result, pull.journal⟩
  | faultyCovering {role : Role} {pools : Pools} {j : Journal} {fuel : Nat} {g : Growth}
      {fault : Fault} : (role = .expression → ¬ pools.Cover c) →
      growToCover c fuel (pools.of role) j = some g → g.grew = .error fault →
      Ending c ⟨.covering role, pools, j⟩ ⟨.error fault, g.journal⟩
  | fallsShort {role : Role} {pools : Pools} {j : Journal} {fuel : Nat} {g : Growth} :
      (role = .expression → ¬ pools.Cover c) →
      growToCover c fuel (pools.of role) j = some g → g.grew = .ok false →
      Ending c ⟨.covering role, pools, j⟩ ⟨.ok none, g.journal.report (.fallsShort role)⟩
  | cancelled {pools : Pools} {j : Journal} : c.stop.isRaised j = true →
      Ending c ⟨.attempting, pools, j⟩ ⟨.ok none, j.polled.report .stitchingCancelled⟩
  | concluded {pools : Pools} {j j' : Journal} {tree : Program} :
      search c pools j = (some tree, j') → Ending c ⟨.searching, pools, j⟩ (conclude c tree j')
  | faultyExpression {pools : Pools} {j : Journal} {fuel : Nat} {g : Growth} {fault : Fault} :
      pools.expressions.grow c.problem c.stop fuel j = some g → g.grew = .error fault →
      Ending c ⟨.growing, pools, j⟩ ⟨.error fault, g.journal⟩
  | faultyPredicate {pools : Pools} {j : Journal} {fuel : Nat} {g : Growth} {fault : Fault}
      {grewExpression : Bool} :
      pools.predicates.grow c.problem c.stop fuel j = some g → g.grew = .error fault →
      Ending c ⟨.growingPredicates grewExpression, pools, j⟩ ⟨.error fault, g.journal⟩
  | bothDry {pools : Pools} {j : Journal} {fuel : Nat} {g : Growth} :
      pools.predicates.grow c.problem c.stop fuel j = some g → g.grew = .ok false →
      c.stop.isRaised g.journal = false →
      Ending c ⟨.growingPredicates false, pools, j⟩ ⟨.ok none, g.journal.polled.report .bothDry⟩

/-! ## Taking a run apart -/

theorem Pools.cover_iff {pools : Pools} : pools.Cover c
    ↔ (pools.expressions.covers c.problem.examples.length
      && pools.predicates.covers c.problem.examples.length) = true := by
  unfold Cover
  rw [Bool.and_eq_true]

/-- The first phase is a number of turns, and an ending if it ends the run. -/
theorem cover_cases {fuel : Nat} {pools : Pools} {j : Journal} {phase : Phase}
    (h : cover c fuel pools j = some phase) :
    ∃ s, ReflTransGen (Turn c) ⟨.covering .expression, pools, j⟩ s
      ∧ ((∃ r, phase = .ended r ∧ Ending c s r)
        ∨ ∃ pools' j', phase = .ready pools' j' ∧ s = ⟨.attempting, pools', j'⟩) := by
  induction fuel generalizing pools j with
  | zero => exact absurd h (by simp [cover])
  | succ fuel ih =>
      rw [cover] at h
      split at h
      · rename_i hboth
        cases h
        exact ⟨_, .single (.covered (Pools.cover_iff.mpr hboth)), Or.inr ⟨_, _, rfl, rfl⟩⟩
      · rename_i hboth
        have hcover : ¬ pools.Cover c := fun h => hboth (Pools.cover_iff.mp h)
        rw [Option.bind_eq_bind, Option.bind_eq_some_iff] at h
        obtain ⟨e, he, h⟩ := h
        split at h
        · rename_i fault hgrew
          cases h
          exact ⟨_, .refl, Or.inl ⟨_, rfl, .faultyCovering (fun _ => hcover) he hgrew⟩⟩
        · rename_i hgrew
          cases h
          exact ⟨_, .refl, Or.inl ⟨_, rfl, .fallsShort (fun _ => hcover) he hgrew⟩⟩
        · rename_i hegrew
          have hturn : Turn c ⟨.covering .expression, pools, j⟩ _ :=
            .covers (fun _ => hcover) he hegrew
          rw [Option.bind_eq_some_iff] at h
          obtain ⟨p, hp, h⟩ := h
          split at h
          · rename_i fault hgrew
            cases h
            have hend : Ending c ⟨.covering .predicate, pools.set e.pool .expression, e.journal⟩ _ :=
              .faultyCovering (by simp) hp hgrew
            exact ⟨_, .single hturn, Or.inl ⟨_, rfl, hend⟩⟩
          · rename_i hgrew
            cases h
            have hend : Ending c ⟨.covering .predicate, pools.set e.pool .expression, e.journal⟩ _ :=
              .fallsShort (by simp) hp hgrew
            exact ⟨_, .single hturn, Or.inl ⟨_, rfl, hend⟩⟩
          · rename_i hpgrew
            obtain ⟨s, hturns, hends⟩ := ih h
            have hturn' : Turn c ⟨.covering .predicate, pools.set e.pool .expression, e.journal⟩ _ :=
              .covers (by simp) hp hpgrew
            exact ⟨s, .head hturn (.head hturn' hturns), hends⟩

/-- The second phase is a number of turns and an ending. -/
theorem conquer_cases {fuel : Nat} {pools : Pools} {j : Journal}
    (h : conquer c fuel pools j = some r) :
    ∃ s, ReflTransGen (Turn c) ⟨.attempting, pools, j⟩ s ∧ Ending c s r := by
  induction fuel generalizing pools j with
  | zero => exact absurd h (by simp [conquer])
  | succ fuel ih =>
      rw [conquer] at h
      split at h
      · rename_i hraised
        cases h
        exact ⟨_, .refl, .cancelled hraised⟩
      · rename_i hcalm
        have hannounced : Turn c ⟨.attempting, pools, j⟩ _ := .announced (by simpa using hcalm)
        rw [attempt_eq_search] at h
        split at h
        · rename_i tree j' hsearch
          cases h
          exact ⟨_, .single hannounced, .concluded hsearch⟩
        · rename_i j' hsearch
          have hfailed := (ReflTransGen.single hannounced).tail (.failed hsearch)
          rw [Option.bind_eq_bind, Option.bind_eq_some_iff] at h
          obtain ⟨e, he, h⟩ := h
          split at h
          · rename_i fault hgrew
            cases h
            exact ⟨_, hfailed, .faultyExpression he hgrew⟩
          · rename_i grewExpression hegrew
            have hgrew := hfailed.tail (.grew he hegrew)
            rw [Option.bind_eq_some_iff] at h
            obtain ⟨p, hp, h⟩ := h
            split at h
            · rename_i fault hpgrew
              cases h
              exact ⟨_, hgrew, .faultyPredicate hp hpgrew⟩
            · rename_i grewPredicate hpgrew
              split at h
              · rename_i hany
                obtain ⟨s, hturns, hend⟩ := ih h
                exact ⟨s, (hgrew.tail (.again hp hpgrew hany)).trans hturns, hend⟩
              · rename_i hnone
                rw [Bool.not_eq_true, Bool.or_eq_false_iff] at hnone
                obtain ⟨rfl, rfl⟩ := hnone
                split at h
                · rename_i hraised
                  obtain ⟨s, hturns, hend⟩ := ih h
                  exact ⟨s, (hgrew.tail (.stopped hp hpgrew hraised)).trans hturns, hend⟩
                · rename_i hcalm
                  cases h
                  exact ⟨_, hgrew, .bothDry hp hpgrew (by simpa using hcalm)⟩

variable {problem : Problem} {recalls : Bool} {bound : Option Nat} {stop : Stop}

theorem examples_of_eq_nil_iff : (Setting.of problem recalls stop).problem.examples = []
    ↔ problem.examples = [] := by
  unfold Setting.of
  cases problem.examples with
  | nil => simp
  | cons e rest => simp [List.eraseDups_cons]

/-- **A run is a number of turns and an ending.** -/
theorem run_cases {fuel : Nat} (h : run problem recalls bound stop fuel = some r) :
    ∃ s, ReflTransGen (Turn (.of problem recalls stop)) (.initial (.of problem recalls stop) bound) s
      ∧ Ending (.of problem recalls stop) s r := by
  rw [run_eq] at h
  dsimp only at h
  unfold State.initial
  by_cases hnil : problem.examples = []
  · rw [if_pos hnil] at h
    rw [if_pos (examples_of_eq_nil_iff.mpr hnil)]
    unfold firstExpression at h
    rw [Option.bind_eq_bind, Option.bind_eq_some_iff] at h
    obtain ⟨pull, hpull, h⟩ := h
    cases h
    exact ⟨_, .refl, .first hpull⟩
  · rw [if_neg hnil, Option.bind_eq_some_iff] at h
    rw [if_neg (fun heq => hnil (examples_of_eq_nil_iff.mp heq))]
    obtain ⟨phase, hphase, h⟩ := h
    obtain ⟨s, hturns, ⟨r', rfl, hend⟩ | ⟨pools, j, rfl, rfl⟩⟩ := cover_cases hphase
    · cases h
      exact ⟨s, hturns, hend⟩
    · obtain ⟨s, hturns', hend⟩ := conquer_cases h
      exact ⟨s, hturns.trans hturns', hend⟩

/-- **What turns preserve holds where a run ends.** -/
theorem exists_ending_of_run {P : State → Prop}
    (hstep : ∀ {s s'}, P s → Turn (.of problem recalls stop) s s' → P s') {fuel : Nat}
    (h : run problem recalls bound stop fuel = some r)
    (hinitial : P (.initial (.of problem recalls stop) bound)) :
    ∃ s, P s ∧ Ending (.of problem recalls stop) s r := by
  obtain ⟨s, hturns, hend⟩ := run_cases h
  refine ⟨s, ?_, hend⟩
  clear hend
  induction hturns with
  | refl => exact hinitial
  | tail _ hturn ih => exact hstep ih hturn

/-- A turn lets a pool grow without a fault or leaves it alone. -/
theorem Turn.of_cases (h : Turn c s s') (role : Role) :
    s'.pools.of role = s.pools.of role
      ∨ ∃ fuel j g grew, (s.pools.of role).grow c.problem c.stop fuel j = some g
          ∧ g.grew = .ok grew ∧ s'.pools.of role = g.pool := by
  cases h with
  | covered _ => exact Or.inl rfl
  | announced _ => exact Or.inl rfl
  | failed _ => exact Or.inl rfl
  | @covers role' pools j fuel g _ hgrow hgrew =>
      rw [Pools.of_set]
      split
      · rename_i heq
        subst heq
        rcases growToCover_cases hgrow with ⟨_, rfl⟩ | ⟨_, hgrow'⟩
        · exact Or.inl rfl
        · exact Or.inr ⟨fuel, j, g, _, hgrow', hgrew, rfl⟩
      · exact Or.inl rfl
  | @grew pools j fuel g _ hgrow hgrew =>
      rw [Pools.of_set]
      cases role with
      | expression => exact Or.inr ⟨fuel, j, g, _, hgrow, hgrew, rfl⟩
      | predicate => exact Or.inl rfl
  | @again pools j fuel g _ _ hgrow hgrew _ =>
      rw [Pools.of_set]
      cases role with
      | expression => exact Or.inl rfl
      | predicate => exact Or.inr ⟨fuel, j, g, _, hgrow, hgrew, rfl⟩
  | @stopped pools j fuel g hgrow hgrew _ =>
      rw [Pools.of_set]
      cases role with
      | expression => exact Or.inl rfl
      | predicate => exact Or.inr ⟨fuel, j, g, _, hgrow, hgrew, rfl⟩

/-- **What growing without a fault preserves, turns preserve.** -/
theorem Turn.preserves {P : Role → Pool → Prop}
    (hgrow : ∀ {role p fuel j g grew}, P role p → p.grow c.problem c.stop fuel j = some g →
      g.grew = .ok grew → P role g.pool)
    (h : Turn c s s') (hs : ∀ role, P role (s.pools.of role)) (role : Role) :
    P role (s'.pools.of role) := by
  rcases h.of_cases role with heq | ⟨fuel, j, g, grew, hg, hgrew, heq⟩
  · rw [heq]
    exact hs role
  · rw [heq]
    exact hgrow (hs role) hg hgrew

/-! ## Putting a run together -/

/-- The rest of a run after its first phase. -/
def finish (c : Setting) (fuel : Nat) : Phase → Option Run
  | .ended run => some run
  | .ready pools j => conquer c fuel pools j

/-- The rest of the first phase when the predicates are to grow. -/
def coverOn (c : Setting) (fuel : Nat) (pools : Pools) (j : Journal) : Option Phase := do
  let p ← growToCover c fuel pools.predicates j
  match p.grew with
  | .error fault => some (.ended ⟨.error fault, p.journal⟩)
  | .ok false => some (.ended ⟨.ok none, p.journal.report (.fallsShort .predicate)⟩)
  | .ok true => cover c fuel ⟨pools.expressions, p.pool⟩ p.journal

/-- The rest of a run when the predicates are to grow after a failed attempt. -/
def growPredicatesOn (c : Setting) (fuel : Nat) (grewExpression : Bool) (pools : Pools)
    (j : Journal) : Option Run := do
  let p ← pools.predicates.grow c.problem c.stop fuel j
  match p.grew with
  | .error fault => some ⟨.error fault, p.journal⟩
  | .ok grewPredicate =>
    let pools := ⟨pools.expressions, p.pool⟩
    if grewExpression || grewPredicate then conquer c fuel pools p.journal
    else if c.stop.isRaised p.journal then conquer c fuel pools p.journal.polled
    else some ⟨.ok none, p.journal.polled.report .bothDry⟩

/-- The rest of a run after a failed attempt. -/
def growOn (c : Setting) (fuel : Nat) (pools : Pools) (j : Journal) : Option Run := do
  let e ← pools.expressions.grow c.problem c.stop fuel j
  match e.grew with
  | .error fault => some ⟨.error fault, e.journal⟩
  | .ok grewExpression => growPredicatesOn c fuel grewExpression ⟨e.pool, pools.predicates⟩ e.journal

/-- The rest of a run when an attempt has been reported. -/
def searchOn (c : Setting) (fuel : Nat) (pools : Pools) (j : Journal) : Option Run :=
  match search c pools j with
  | (some tree, j) => some (conclude c tree j)
  | (none, j) => growOn c fuel pools j

/-- The rest of a run from a state on. -/
def State.rest (c : Setting) (fuel : Nat) (s : State) : Option Run :=
  match s.stage with
  | .first => do
    let pull ← s.pools.expressions.source.next c.problem.grammar c.stop fuel s.journal
    some ⟨pull.result, pull.journal⟩
  | .covering .expression => (cover c fuel s.pools s.journal).bind (finish c fuel)
  | .covering .predicate => (coverOn c fuel s.pools s.journal).bind (finish c fuel)
  | .attempting => conquer c fuel s.pools s.journal
  | .searching => searchOn c fuel s.pools s.journal
  | .growing => growOn c fuel s.pools s.journal
  | .growingPredicates grewExpression => growPredicatesOn c fuel grewExpression s.pools s.journal

/-- The rest of a run comes to this, with any amount of fuel beyond some number. -/
def State.Leads (c : Setting) (r : Run) (s : State) : Prop :=
  ∃ fuel₀, ∀ fuel ≥ fuel₀, s.rest c fuel = some r

theorem bind_finish_mono {x : Option Phase} {fuel fuel' : Nat} (h : x.bind (finish c fuel) = some r)
    (hle : fuel ≤ fuel') : x.bind (finish c fuel') = some r := by
  rw [Option.bind_eq_some_iff] at h ⊢
  obtain ⟨phase, hphase, h⟩ := h
  refine ⟨phase, hphase, ?_⟩
  cases phase with
  | ended run => exact h
  | ready pools j => exact conquer_mono h hle

/-- A round of the first phase goes on with the predicates if the expressions do not fall short. -/
theorem cover_eq_coverOn {fuel : Nat} {pools : Pools} {j : Journal} {e : Growth}
    (hcover : ¬ pools.Cover c) (he : growToCover c fuel pools.expressions j = some e)
    (hgrew : e.grew = .ok true) :
    cover c (fuel + 1) pools j = coverOn c fuel ⟨e.pool, pools.predicates⟩ e.journal := by
  rw [cover, if_neg (fun h => hcover (Pools.cover_iff.mpr h)), Option.bind_eq_bind, he,
    Option.bind_some, hgrew]
  rfl

/-- A round of the second phase that is not stopped goes on with a search. -/
theorem conquer_eq_searchOn {fuel : Nat} {pools : Pools} {j : Journal}
    (hcalm : c.stop.isRaised j = false) :
    conquer c (fuel + 1) pools j = searchOn c fuel pools (attemptJournal pools j.polled) := by
  rw [conquer, if_neg (by simp [hcalm]), attempt_eq_search]
  unfold searchOn growOn growPredicatesOn
  rcases search c pools (attemptJournal pools j.polled) with ⟨_ | tree, j'⟩ <;> rfl

/-- **What comes after a turn is what is left before it.** -/
theorem Turn.leads (h : Turn c s s') (hs : s'.Leads c r) : s.Leads c r := by
  obtain ⟨fuel₀, hrest⟩ := hs
  cases h with
  | @covered pools j hcover =>
      refine ⟨fuel₀ + 1, fun fuel hle => ?_⟩
      obtain ⟨fuel, rfl⟩ : ∃ k, fuel = k + 1 := ⟨fuel - 1, by omega⟩
      have hready : cover c (fuel + 1) pools j = some (.ready pools j) := by
        rw [cover, if_pos (Pools.cover_iff.mp hcover)]
      have hconquer : conquer c (fuel + 1) pools j = some r := hrest (fuel + 1) (by omega)
      show (cover c (fuel + 1) pools j).bind _ = _
      rw [hready]
      exact hconquer
  | @covers role pools j fuel₁ g hcover hgrow hgrew =>
      refine ⟨fuel₀ + fuel₁ + 1, fun fuel hle => ?_⟩
      obtain ⟨fuel, rfl⟩ : ∃ k, fuel = k + 1 := ⟨fuel - 1, by omega⟩
      cases role with
      | expression =>
          have hrest' : (coverOn c fuel ⟨g.pool, pools.predicates⟩ g.journal).bind (finish c fuel)
              = some r := hrest fuel (by omega)
          show (cover c (fuel + 1) pools j).bind _ = _
          rw [cover_eq_coverOn (hcover rfl) (growToCover_mono hgrow (by omega)) hgrew]
          exact bind_finish_mono hrest' (Nat.le_succ _)
      | predicate =>
          have hrest' : (cover c (fuel + 1) ⟨pools.expressions, g.pool⟩ g.journal).bind
              (finish c (fuel + 1)) = some r := hrest (fuel + 1) (by omega)
          show (coverOn c (fuel + 1) pools j).bind _ = _
          have hgrow' : growToCover c (fuel + 1) pools.predicates j = some g :=
            growToCover_mono hgrow (by omega)
          rw [coverOn, hgrow', Option.bind_eq_bind, Option.bind_some, hgrew]
          exact hrest'
  | announced hcalm =>
      refine ⟨fuel₀ + 1, fun fuel hle => ?_⟩
      obtain ⟨fuel, rfl⟩ : ∃ k, fuel = k + 1 := ⟨fuel - 1, by omega⟩
      exact (conquer_eq_searchOn hcalm).trans (hrest fuel (by omega))
  | failed hsearch =>
      refine ⟨fuel₀, fun fuel hle => ?_⟩
      show searchOn c fuel _ _ = _
      rw [searchOn, hsearch]
      exact hrest fuel hle
  | @grew pools j fuel₁ g _ hgrow hgrew =>
      refine ⟨fuel₀ + fuel₁, fun fuel hle => ?_⟩
      show growOn c fuel pools j = _
      rw [growOn, Pool.grow_mono hgrow (by omega), Option.bind_eq_bind, Option.bind_some, hgrew]
      exact hrest fuel (by omega)
  | @again pools j fuel₁ g grewExpression _ hgrow hgrew hany =>
      refine ⟨fuel₀ + fuel₁, fun fuel hle => ?_⟩
      show growPredicatesOn c fuel grewExpression pools j = _
      rw [growPredicatesOn, Pool.grow_mono hgrow (by omega), Option.bind_eq_bind, Option.bind_some,
        hgrew]
      exact (if_pos hany).trans (hrest fuel (by omega))
  | @stopped pools j fuel₁ g hgrow hgrew hraised =>
      refine ⟨fuel₀ + fuel₁, fun fuel hle => ?_⟩
      show growPredicatesOn c fuel false pools j = _
      rw [growPredicatesOn, Pool.grow_mono hgrow (by omega), Option.bind_eq_bind, Option.bind_some,
        hgrew]
      exact (if_pos hraised).trans (hrest fuel (by omega))

/-- In the first phase a pool that has to grow and does not ends the run. -/
theorem leads_of_not_grown {role : Role} {pools : Pools} {j : Journal} {fuel : Nat} {g : Growth}
    (hcover : role = .expression → ¬ pools.Cover c)
    (hgrow : growToCover c fuel (pools.of role) j = some g) (hgrew : g.grew ≠ .ok true) :
    State.Leads c (match g.grew with
      | .error fault => ⟨.error fault, g.journal⟩
      | .ok _ => ⟨.ok none, g.journal.report (.fallsShort role)⟩) ⟨.covering role, pools, j⟩ := by
  refine ⟨fuel + 1, fun fuel' hle => ?_⟩
  obtain ⟨fuel', rfl⟩ : ∃ k, fuel' = k + 1 := ⟨fuel' - 1, by omega⟩
  cases role with
  | expression =>
      have hgrow' : growToCover c fuel' pools.expressions j = some g :=
        growToCover_mono hgrow (by omega)
      show (cover c (fuel' + 1) pools j).bind _ = _
      rw [cover, if_neg (fun h => hcover rfl (Pools.cover_iff.mpr h)), Option.bind_eq_bind, hgrow',
        Option.bind_some]
      rcases hg : g.grew with fault | _ | _
      · rfl
      · rfl
      · exact absurd hg hgrew
  | predicate =>
      have hgrow' : growToCover c (fuel' + 1) pools.predicates j = some g :=
        growToCover_mono hgrow (by omega)
      show (coverOn c (fuel' + 1) pools j).bind _ = _
      rw [coverOn, hgrow', Option.bind_eq_bind, Option.bind_some]
      rcases hg : g.grew with fault | _ | _
      · rfl
      · rfl
      · exact absurd hg hgrew

/-- At an ending nothing is left. -/
theorem Ending.leads (h : Ending c s r) : s.Leads c r := by
  cases h with
  | @first pools j fuel₁ pull hpull =>
      refine ⟨fuel₁, fun fuel hle => ?_⟩
      show (pools.expressions.source.next _ _ fuel j).bind _ = _
      rw [Enumerator.next_mono hpull hle]
      rfl
  | faultyCovering hcover hgrow hgrew =>
      obtain ⟨fuel₀, hrest⟩ := leads_of_not_grown hcover hgrow (by simp [hgrew])
      exact ⟨fuel₀, fun fuel hle => by rw [hrest fuel hle, hgrew]⟩
  | fallsShort hcover hgrow hgrew =>
      obtain ⟨fuel₀, hrest⟩ := leads_of_not_grown hcover hgrow (by simp [hgrew])
      exact ⟨fuel₀, fun fuel hle => by rw [hrest fuel hle, hgrew]⟩
  | cancelled hraised =>
      refine ⟨1, fun fuel hle => ?_⟩
      obtain ⟨fuel, rfl⟩ : ∃ k, fuel = k + 1 := ⟨fuel - 1, by omega⟩
      show conquer c (fuel + 1) _ _ = _
      rw [conquer, if_pos hraised]
  | concluded hsearch =>
      refine ⟨0, fun fuel _ => ?_⟩
      show searchOn c fuel _ _ = _
      rw [searchOn, hsearch]
  | @faultyExpression pools j fuel₁ g _ hgrow hgrew =>
      refine ⟨fuel₁, fun fuel hle => ?_⟩
      show growOn c fuel pools j = _
      rw [growOn, Pool.grow_mono hgrow hle, Option.bind_eq_bind, Option.bind_some, hgrew]
  | @faultyPredicate pools j fuel₁ g _ grewExpression hgrow hgrew =>
      refine ⟨fuel₁, fun fuel hle => ?_⟩
      show growPredicatesOn c fuel grewExpression pools j = _
      rw [growPredicatesOn, Pool.grow_mono hgrow hle, Option.bind_eq_bind, Option.bind_some, hgrew]
  | @bothDry pools j fuel₁ g hgrow hgrew hcalm =>
      refine ⟨fuel₁, fun fuel hle => ?_⟩
      show growPredicatesOn c fuel false pools j = _
      rw [growPredicatesOn, Pool.grow_mono hgrow hle, Option.bind_eq_bind, Option.bind_some, hgrew]
      simp [hcalm]

/-- **Turns and an ending make a run,** with any amount of fuel beyond some number. -/
theorem exists_run_of_turns
    (h : ReflTransGen (Turn (.of problem recalls stop)) (.initial (.of problem recalls stop) bound) s)
    (hend : Ending (.of problem recalls stop) s r) :
    ∃ fuel₀, ∀ fuel ≥ fuel₀, run problem recalls bound stop fuel = some r := by
  have hleads : (State.initial (.of problem recalls stop) bound).Leads (.of problem recalls stop) r := by
    generalize State.initial (.of problem recalls stop) bound = s₀ at h
    induction h using ReflTransGen.head_induction_on with
    | refl => exact hend.leads
    | head hturn _ ih => exact hturn.leads ih
  obtain ⟨fuel₀, hrest⟩ := hleads
  refine ⟨fuel₀, fun fuel hle => ?_⟩
  have hrest := hrest fuel hle
  unfold State.initial State.rest at hrest
  rw [run_eq]
  dsimp only
  by_cases hnil : problem.examples = []
  · rw [if_pos (examples_of_eq_nil_iff.mpr hnil)] at hrest
    rw [if_pos hnil]
    exact hrest
  · rw [if_neg (fun heq => hnil (examples_of_eq_nil_iff.mp heq))] at hrest
    rw [if_neg hnil]
    exact hrest

end DivideAndConquer

end Sygus
