import Sygus.Proofs.Accounting
import Sygus.Proofs.Answer
import Sygus.Proofs.DivideAndConquer.Soundness

/-!
# When undisturbed runs end, and how

A run is two loops around attempts to grow a pool. A round of either loop that does not end
the run has grown a pool, and there is no room for ever more entries, so the loops end if
the attempts do (`Tame`). How the run then ends can be told from the pools: with a tree
that exists, or with pools that are exhausted and still not good enough (`Settled`).

A run depends on its fuel only as long as it does not end, so all that is said here holds
for every amount of fuel above some number.
-/

namespace Sygus

/-- Every attempt to grow the pool comes to an end. -/
def Pool.Responsive (problem : Problem) (p : Pool) : Prop :=
  ∀ j, ∃ fuel g, p.grow problem .never fuel j = some g

namespace DivideAndConquer

variable {c : Setting} {bound : Option Nat}

/-! ## Fuel -/

theorem growToCover_mono {fuel fuel' : Nat} {p : Pool} {j : Journal} {g : Growth}
    (h : growToCover c fuel p j = some g) (hle : fuel ≤ fuel') :
    growToCover c fuel' p j = some g := by
  unfold growToCover at h ⊢
  split
  · rename_i hcovers
    rwa [if_pos hcovers] at h
  · rename_i hcovers
    rw [if_neg hcovers] at h
    exact Pool.grow_mono h hle

theorem cover_mono {fuel fuel' : Nat} {pools : Pools} {j : Journal} {phase : Phase}
    (h : cover c fuel pools j = some phase) (hle : fuel ≤ fuel') :
    cover c fuel' pools j = some phase := by
  induction fuel generalizing fuel' pools j with
  | zero => exact absurd h (by simp [cover])
  | succ fuel ih =>
      obtain ⟨fuel', rfl⟩ : ∃ m, fuel' = m + 1 := ⟨fuel' - 1, by omega⟩
      rw [cover] at h ⊢
      split
      · rename_i hcovers
        rwa [if_pos hcovers] at h
      · rename_i hcovers
        rw [if_neg hcovers, Option.bind_eq_bind, Option.bind_eq_some_iff] at h
        rw [Option.bind_eq_bind, Option.bind_eq_some_iff]
        obtain ⟨e, he, h⟩ := h
        refine ⟨e, growToCover_mono he (by omega), ?_⟩
        rcases hgrew : e.grew with fault | grew
        · rwa [hgrew] at h
        · rw [hgrew] at h
          cases grew with
          | false => exact h
          | true =>
              dsimp only at h ⊢
              rw [Option.bind_eq_some_iff] at h ⊢
              obtain ⟨p, hp, h⟩ := h
              refine ⟨p, growToCover_mono hp (by omega), ?_⟩
              rcases hgrew' : p.grew with fault | grew
              · rwa [hgrew'] at h
              · rw [hgrew'] at h
                cases grew with
                | false => exact h
                | true => exact ih h (by omega)

theorem conquer_mono {fuel fuel' : Nat} {pools : Pools} {j : Journal} {run : Run}
    (h : conquer c fuel pools j = some run) (hle : fuel ≤ fuel') :
    conquer c fuel' pools j = some run := by
  induction fuel generalizing fuel' pools j with
  | zero => exact absurd h (by simp [conquer])
  | succ fuel ih =>
      obtain ⟨fuel', rfl⟩ : ∃ m, fuel' = m + 1 := ⟨fuel' - 1, by omega⟩
      rw [conquer] at h ⊢
      split
      · rename_i hraised
        rwa [if_pos hraised] at h
      · rename_i hraised
        rw [if_neg hraised] at h
        rcases ha : attempt c pools j.polled with ⟨_ | tree, j'⟩
        · rw [ha] at h
          dsimp only at h ⊢
          rw [Option.bind_eq_bind, Option.bind_eq_some_iff] at h ⊢
          obtain ⟨e, he, h⟩ := h
          refine ⟨e, Pool.grow_mono he (by omega), ?_⟩
          rcases hgrew : e.grew with fault | grew
          · rwa [hgrew] at h
          · rw [hgrew] at h
            dsimp only at h ⊢
            rw [Option.bind_eq_some_iff] at h ⊢
            obtain ⟨p, hp, h⟩ := h
            refine ⟨p, Pool.grow_mono hp (by omega), ?_⟩
            rcases hgrew' : p.grew with fault | grew'
            · rwa [hgrew'] at h
            · rw [hgrew'] at h
              dsimp only at h ⊢
              split
              · rename_i hany
                rw [if_pos hany] at h
                exact ih h (by omega)
              · rename_i hnone
                rw [if_neg hnone] at h
                split
                · rename_i hup
                  rw [if_pos hup] at h
                  exact ih h (by omega)
                · rename_i hdown
                  rwa [if_neg hdown] at h
        · rwa [ha] at h

/-! ## Rounds -/

/-- Both pools account for all programs. -/
structure Pools.Steady (problem : Problem) (bound : Option Nat) (pools : Pools) : Prop where
  expressions : pools.expressions.Steady problem bound .expression
  predicates : pools.predicates.Steady problem bound .predicate

theorem Pools.Steady.labelled {pools : Pools} {problem : Problem}
    (h : pools.Steady problem bound) (recalls : Bool) (stop : Stop) :
    (pools.stitcher recalls stop).Labelled problem.examples :=
  ⟨fun e he => (h.expressions.entries e he).2, fun e he => (h.predicates.entries e he).2⟩

/-- There is a tree for all examples. -/
def Pools.Solvable (c : Setting) (pools : Pools) : Prop :=
  (pools.stitcher c.recalls c.stop).Solvable (List.range c.problem.examples.length)

/-- How many more entries there is room for at most. -/
def Pools.room (c : Setting) (pools : Pools) : Nat :=
  2 * 2 ^ c.problem.examples.length
    - (pools.expressions.entries.length + pools.predicates.entries.length)

/-- Growing takes up room. -/
theorem Pools.Steady.room_lt {pools pools' : Pools} (h : pools'.Steady c.problem bound)
    (hlt : pools.expressions.entries.length + pools.predicates.entries.length
      < pools'.expressions.entries.length + pools'.predicates.entries.length) :
    pools'.room c < pools.room c := by
  have he := h.expressions.length_entries_le
  have hp := h.predicates.length_entries_le
  unfold room
  omega

/-- Both pools cover the examples. -/
def Pools.Cover (c : Setting) (pools : Pools) : Prop :=
  pools.expressions.covers c.problem.examples.length = true
    ∧ pools.predicates.covers c.problem.examples.length = true

/-- A run to which nothing happens, and in which every attempt to grow ends that is made
while a pool does not cover the examples or while there is no tree for them. -/
structure Tame (c : Setting) (bound : Option Nat) : Prop where
  calm : c.stop = .never
  faultless : ∀ role, Faultless c.problem bound role
  uncovered : ∀ {role : Role} {p : Pool}, p.Steady c.problem bound role →
    p.covers c.problem.examples.length = false → p.Responsive c.problem
  unsolvable : ∀ {pools : Pools}, pools.Steady c.problem bound → pools.Cover c →
    ¬ pools.Solvable c → pools.expressions.Responsive c.problem ∧ pools.predicates.Responsive c.problem

/-- The ways in which such a run can end. -/
inductive Settled (c : Setting) (bound : Option Nat) : Run → Prop where
  | found {pools : Pools} {tree : Program} {j : Journal} : pools.Steady c.problem bound →
      pools.Cover c → pools.Solvable c → Settled c bound ⟨.ok (some tree), j⟩
  /-- A pool is exhausted and does not cover the examples. -/
  | uncovered {role : Role} {p : Pool} {j : Journal} : p.Steady c.problem bound role → p.Dry →
      p.covers c.problem.examples.length = false → Settled c bound ⟨.ok none, j⟩
  /-- Both pools are exhausted and there is no tree. -/
  | unsolvable {pools : Pools} {j : Journal} : pools.Steady c.problem bound → pools.Cover c →
      pools.expressions.Dry → pools.predicates.Dry → ¬ pools.Solvable c →
      Settled c bound ⟨.ok none, j⟩

theorem Tame.grow (h : Tame c bound) {role : Role} {p : Pool} (hp : p.Steady c.problem bound role)
    {fuel : Nat} {j : Journal} {g : Growth} (hg : p.grow c.problem c.stop fuel j = some g) :
    g.pool.Steady c.problem bound role
      ∧ ((g.grew = .ok true ∧ g.pool.entries.length = p.entries.length + 1)
        ∨ (g.grew = .ok false ∧ g.pool.Dry ∧ g.pool.entries = p.entries)) := by
  rw [h.calm] at hg
  exact hp.grow (h.faultless role) hg

/-- Growing to cover ends. If the pool covers nothing more afterwards, it is exhausted. -/
theorem Tame.exists_growToCover (h : Tame c bound) {role : Role} {p : Pool}
    (hp : p.Steady c.problem bound role) (j : Journal) :
    ∃ fuel g, growToCover c fuel p j = some g ∧ g.pool.Steady c.problem bound role
      ∧ ((g.grew = .ok true ∧ (p.covers c.problem.examples.length = true ∧ g.pool = p
            ∨ g.pool.entries.length = p.entries.length + 1))
        ∨ (g.grew = .ok false ∧ g.pool.Dry
            ∧ g.pool.covers c.problem.examples.length = false)) := by
  cases hcovers : p.covers c.problem.examples.length with
  | true =>
      refine ⟨0, ⟨.ok true, p, j⟩, by simp [growToCover, hcovers], hp, Or.inl ⟨rfl, ?_⟩⟩
      exact Or.inl ⟨rfl, rfl⟩
  | false =>
      obtain ⟨fuel, g, hg⟩ := h.uncovered hp hcovers j
      rw [← h.calm] at hg
      refine ⟨fuel, g, by simpa [growToCover, hcovers] using hg, ?_⟩
      obtain ⟨hsteady, ⟨hgrew, hlength⟩ | ⟨hgrew, hdry, hentries⟩⟩ := h.grow hp hg
      · exact ⟨hsteady, Or.inl ⟨hgrew, Or.inr hlength⟩⟩
      · refine ⟨hsteady, Or.inr ⟨hgrew, hdry, ?_⟩⟩
        -- nothing has been taken in, so no more is covered than before
        rw [Bool.eq_false_iff] at hcovers ⊢
        exact fun hcovered => hcovers (hsteady.covers_of_subset hp (hentries ▸ fun _ h => h) hcovered)

/-- If a pool does not cover the examples, growing both to cover leaves less room. -/
theorem Pools.Steady.room_lt_of_cover {pools pools' : Pools} (h : pools'.Steady c.problem bound)
    (hboth : (pools.expressions.covers c.problem.examples.length
      && pools.predicates.covers c.problem.examples.length) = false)
    (he : pools.expressions.covers c.problem.examples.length = true
        ∧ pools'.expressions = pools.expressions
      ∨ pools'.expressions.entries.length = pools.expressions.entries.length + 1)
    (hp : pools.predicates.covers c.problem.examples.length = true
        ∧ pools'.predicates = pools.predicates
      ∨ pools'.predicates.entries.length = pools.predicates.entries.length + 1) :
    pools'.room c < pools.room c := by
  refine h.room_lt ?_
  rcases he with ⟨hecovers, hepool⟩ | helength
  · rcases hp with ⟨hpcovers, _⟩ | hplength
    · -- both covered the examples before
      rw [hecovers, hpcovers] at hboth
      exact absurd hboth (by simp)
    · rw [hepool]
      omega
  · rcases hp with ⟨_, hppool⟩ | hplength
    · rw [hppool]
      omega
    · omega

/-- A round of the first phase in which expressions do not fall short goes on if predicates do
not either. -/
theorem cover_of_growToCover {fuel : Nat} {pools : Pools} {j : Journal} {e p : Growth}
    (hboth : (pools.expressions.covers c.problem.examples.length
      && pools.predicates.covers c.problem.examples.length) = false)
    (he : growToCover c fuel pools.expressions j = some e) (hegrew : e.grew = .ok true)
    (hp : growToCover c fuel pools.predicates e.journal = some p) {grewPredicate : Bool}
    (hpgrew : p.grew = .ok grewPredicate) :
    cover c (fuel + 1) pools j
      = if grewPredicate then cover c fuel ⟨e.pool, p.pool⟩ p.journal
        else some (.ended ⟨.ok none, p.journal.report (.fallsShort .predicate)⟩) := by
  rw [cover]
  simp only [hboth, he, hegrew, hp, hpgrew, Bool.false_eq_true, if_false, Option.bind_eq_bind,
    Option.bind_some]
  cases grewPredicate <;> rfl

/-- **The first phase ends,** by induction on the room that is left. -/
theorem Tame.exists_cover (h : Tame c bound) {pools : Pools}
    (hpools : pools.Steady c.problem bound) (j : Journal) :
    ∃ fuel phase, cover c fuel pools j = some phase
      ∧ ((∃ run, phase = .ended run ∧ Settled c bound run)
        ∨ ∃ pools' j', phase = .ready pools' j' ∧ pools'.Steady c.problem bound
            ∧ pools'.Cover c) := by
  induction hroom : pools.room c using Nat.strong_induction_on generalizing pools j with
  | _ room ih =>
      cases hboth : (pools.expressions.covers c.problem.examples.length
          && pools.predicates.covers c.problem.examples.length) with
      | true =>
          have hcover : pools.Cover c := by
            rwa [Bool.and_eq_true] at hboth
          exact ⟨1, .ready pools j, by simp [cover, hboth], Or.inr ⟨pools, j, rfl, hpools, hcover⟩⟩
      | false =>
          obtain ⟨fuel, e, he, hesteady, hecases⟩ :=
            h.exists_growToCover hpools.expressions j
          rcases hecases with ⟨hegrew, hemore⟩ | ⟨hegrew, hedry, hecovers⟩
          · obtain ⟨fuel', p, hp, hpsteady, hpcases⟩ :=
              h.exists_growToCover hpools.predicates e.journal
            rcases hpcases with ⟨hpgrew, hpmore⟩ | ⟨hpgrew, hpdry, hpcovers⟩
            · have hsteady : (⟨e.pool, p.pool⟩ : Pools).Steady c.problem bound :=
                ⟨hesteady, hpsteady⟩
              have hlt := hsteady.room_lt_of_cover hboth hemore hpmore
              obtain ⟨fuel'', phase, hphase, hends⟩ := ih _ (hroom ▸ hlt) hsteady p.journal rfl
              refine ⟨max fuel (max fuel' fuel'') + 1, phase, ?_, hends⟩
              rw [cover_of_growToCover hboth (growToCover_mono he (by omega)) hegrew
                (growToCover_mono hp (by omega)) hpgrew, if_pos rfl]
              exact cover_mono hphase (by omega)
            · refine ⟨max fuel fuel' + 1, .ended ⟨.ok none, p.journal.report (.fallsShort .predicate)⟩,
                ?_, Or.inl ⟨_, rfl, .uncovered hpsteady hpdry hpcovers⟩⟩
              rw [cover_of_growToCover hboth (growToCover_mono he (by omega)) hegrew
                (growToCover_mono hp (by omega)) hpgrew]
              exact if_neg Bool.false_ne_true
          · refine ⟨fuel + 1, .ended ⟨.ok none, e.journal.report (.fallsShort .expression)⟩, ?_,
              Or.inl ⟨_, rfl, .uncovered hesteady hedry hecovers⟩⟩
            rw [cover]
            simp only [hboth, Bool.false_eq_true, if_false, Option.bind_eq_bind]
            rw [he, Option.bind_some, hegrew]

/-- An undisturbed attempt gives the answer of the stitcher. -/
theorem attempt_fst (hc : c.stop = .never) (pools : Pools) (j : Journal) :
    (attempt c pools j).1
      = (pools.stitcher c.recalls c.stop).answer (List.range c.problem.examples.length) :=
  Stitcher.stitch_eq hc _ _

/-- A round in which no tree is found goes on if one of the pools has grown. -/
theorem conquer_of_attempt_none (hcalm : ∀ j, c.stop.isRaised j = false) {fuel : Nat}
    {pools : Pools} {j j' : Journal} (ha : attempt c pools j.polled = (none, j')) {e p : Growth}
    (he : pools.expressions.grow c.problem c.stop fuel j' = some e)
    (hp : pools.predicates.grow c.problem c.stop fuel e.journal = some p)
    {grewExpression grewPredicate : Bool} (hegrew : e.grew = .ok grewExpression)
    (hpgrew : p.grew = .ok grewPredicate) :
    conquer c (fuel + 1) pools j
      = if grewExpression || grewPredicate then conquer c fuel ⟨e.pool, p.pool⟩ p.journal
        else some ⟨.ok none, p.journal.polled.report .bothDry⟩ := by
  rw [conquer]
  simp only [hcalm, ha, he, hp, hegrew, hpgrew, Bool.false_eq_true, if_false, Option.bind_eq_bind,
    Option.bind_some]

/-- A round in which no tree is found leaves less room, or it leaves everything as it was. -/
theorem Tame.exists_round (h : Tame c bound) {pools : Pools}
    (hpools : pools.Steady c.problem bound) (hcovers : pools.Cover c)
    (hunsolvable : ¬ pools.Solvable c) (j : Journal) :
    ∃ fuel e p grewExpression grewPredicate,
      pools.expressions.grow c.problem c.stop fuel j = some e
        ∧ pools.predicates.grow c.problem c.stop fuel e.journal = some p
        ∧ e.grew = .ok grewExpression ∧ p.grew = .ok grewPredicate
        ∧ (⟨e.pool, p.pool⟩ : Pools).Steady c.problem bound ∧ (⟨e.pool, p.pool⟩ : Pools).Cover c
        ∧ (((grewExpression || grewPredicate) = true
            ∧ (⟨e.pool, p.pool⟩ : Pools).room c < pools.room c)
          ∨ ((grewExpression || grewPredicate) = false ∧ e.pool.Dry ∧ p.pool.Dry
            ∧ ¬ (⟨e.pool, p.pool⟩ : Pools).Solvable c)) := by
  obtain ⟨herespond, hprespond⟩ := h.unsolvable hpools hcovers hunsolvable
  obtain ⟨fuel, e, he⟩ := herespond j
  obtain ⟨fuel', p, hp⟩ := hprespond e.journal
  rw [← h.calm] at he hp
  obtain ⟨hesteady, hecases⟩ := h.grow hpools.expressions he
  obtain ⟨hpsteady, hpcases⟩ := h.grow hpools.predicates hp
  have hsteady : (⟨e.pool, p.pool⟩ : Pools).Steady c.problem bound := ⟨hesteady, hpsteady⟩
  have hcovers' : (⟨e.pool, p.pool⟩ : Pools).Cover c :=
    ⟨hpools.expressions.covers_of_subset hesteady (Pool.entries_subset_grow he) hcovers.1,
      hpools.predicates.covers_of_subset hpsteady (Pool.entries_subset_grow hp) hcovers.2⟩
  have hroom : pools.expressions.entries.length + pools.predicates.entries.length
      < e.pool.entries.length + p.pool.entries.length →
      (⟨e.pool, p.pool⟩ : Pools).room c < pools.room c := fun hmore => hsteady.room_lt hmore
  have he' := Pool.grow_mono he (Nat.le_max_left fuel fuel')
  have hp' := Pool.grow_mono hp (Nat.le_max_right fuel fuel')
  rcases hecases with ⟨hegrew, helength⟩ | ⟨hegrew, hedry, heentries⟩
  · rcases hpcases with ⟨hpgrew, hplength⟩ | ⟨hpgrew, _, hpentries⟩
    · exact ⟨_, e, p, true, true, he', hp', hegrew, hpgrew, hsteady, hcovers',
        Or.inl ⟨rfl, hroom (by omega)⟩⟩
    · exact ⟨_, e, p, true, false, he', hp', hegrew, hpgrew, hsteady, hcovers',
        Or.inl ⟨rfl, hroom (by rw [hpentries]; omega)⟩⟩
  · rcases hpcases with ⟨hpgrew, hplength⟩ | ⟨hpgrew, hpdry, hpentries⟩
    · exact ⟨_, e, p, false, true, he', hp', hegrew, hpgrew, hsteady, hcovers',
        Or.inl ⟨rfl, hroom (by rw [heentries]; omega)⟩⟩
    · refine ⟨_, e, p, false, false, he', hp', hegrew, hpgrew, hsteady, hcovers',
        Or.inr ⟨rfl, hedry, hpdry, ?_⟩⟩
      -- the entries are the same, so there is still no tree
      unfold Pools.Solvable Pools.stitcher at hunsolvable ⊢
      rwa [heentries, hpentries]

/-- **The second phase ends,** again by induction on the room that is left. -/
theorem Tame.exists_conquer (h : Tame c bound) {pools : Pools}
    (hpools : pools.Steady c.problem bound) (hcovers : pools.Cover c) (j : Journal) :
    ∃ fuel run, conquer c fuel pools j = some run ∧ Settled c bound run := by
  induction hroom : pools.room c using Nat.strong_induction_on generalizing pools j with
  | _ room ih =>
      have hcalm : ∀ j, c.stop.isRaised j = false := fun j => by rw [h.calm]; rfl
      have hanswer := attempt_fst h.calm pools j.polled
      rcases ha : attempt c pools j.polled with ⟨answer, j'⟩
      rw [ha] at hanswer
      have hsolvable : pools.Solvable c ↔ answer.isSome = true := by
        rw [show answer = _ from hanswer, Stitcher.answer_isSome_iff]
        rfl
      cases answer with
      | some tree =>
          -- the tree is right, so the round ends the run
          have hvalid := isValid_of_attempt (hpools.labelled c.recalls c.stop) ha
          refine ⟨1, ⟨.ok (some tree), j'.report (.found tree)⟩, ?_,
            .found hpools hcovers (hsolvable.mpr rfl)⟩
          simp [conquer, hcalm, ha, conclude, hvalid]
      | none =>
          have hunsolvable : ¬ pools.Solvable c := fun hs => absurd (hsolvable.mp hs) (by simp)
          obtain ⟨fuel, e, p, a, b, he, hp, hegrew, hpgrew, hsteady, hcovers', hcases⟩ :=
            h.exists_round hpools hcovers hunsolvable j'
          rcases hcases with ⟨hany, hlt⟩ | ⟨hnone, hedry, hpdry, hunsolvable'⟩
          · -- the next round has less room
            obtain ⟨fuel', run, hrun, hends⟩ :=
              ih _ (hroom ▸ hlt) hsteady hcovers' p.journal rfl
            refine ⟨max fuel fuel' + 1, run, ?_, hends⟩
            rw [conquer_of_attempt_none hcalm ha (Pool.grow_mono he (Nat.le_max_left _ _))
              (Pool.grow_mono hp (Nat.le_max_left _ _)) hegrew hpgrew, if_pos hany]
            exact conquer_mono hrun (Nat.le_max_right _ _)
          · refine ⟨fuel + 1, ⟨.ok none, p.journal.polled.report .bothDry⟩, ?_,
              .unsolvable hsteady hcovers' hedry hpdry hunsolvable'⟩
            rw [conquer_of_attempt_none hcalm ha he hp hegrew hpgrew, if_neg (by simp [hnone])]

/-- **A tame run ends,** in one of the ways of `Settled`. -/
theorem Tame.exists_run {problem : Problem} {recalls : Bool}
    (h : Tame (.of problem recalls .never) bound) (hne : problem.examples ≠ []) :
    ∃ fuel₀ r, (∀ fuel ≥ fuel₀, run problem recalls bound .never fuel = some r)
      ∧ Settled (.of problem recalls .never) bound r := by
  have hfresh : (Pools.fresh bound).Steady (Setting.of problem recalls .never).problem bound :=
    ⟨Pool.steady_fresh _ _ _, Pool.steady_fresh _ _ _⟩
  obtain ⟨fuel, phase, hphase, hends⟩ := h.exists_cover hfresh .empty
  rcases hends with ⟨r, rfl, hr⟩ | ⟨pools, j, rfl, hpools, hcovers⟩
  · refine ⟨fuel, r, ?_, hr⟩
    intro fuel' hle
    rw [run_eq]
    dsimp only
    rw [if_neg hne, cover_mono hphase hle]
    rfl
  · obtain ⟨fuel', r, hconquer, hr⟩ := h.exists_conquer hpools hcovers j
    refine ⟨max fuel fuel', r, ?_, hr⟩
    intro fuel'' hle
    rw [run_eq]
    dsimp only
    rw [if_neg hne, cover_mono hphase (by omega)]
    exact conquer_mono hconquer (by omega)

end DivideAndConquer

end Sygus
