import Sygus.Proofs.Cancellation
import Sygus.Proofs.Looking

/-!
# A run depends on nothing but its looks

What has been said of calls goes for turns and for endings, and so for whole runs: a run that ends
would have ended just so under any flag that is up for the same of its looks. In particular nothing
comes of a flag that goes up after the last look.
-/

namespace Sygus

namespace Machine

variable {σ : Type} {M : Machine σ} {stop stop' : Stop} {r : Run}

/-- What turns and endings owe to a flag they owe to their looks. -/
structure Attentive (M : Machine σ) : Prop where
  turn_polls : ∀ {stop s s'}, M.turn stop s s' → (M.journal s).polls ≤ (M.journal s').polls
  ending_polls : ∀ {stop s r}, M.ending stop s r → (M.journal s).polls ≤ r.journal.polls
  turn_congr : ∀ {stop stop' s s'}, M.turn stop s s' →
    stop.Agrees stop' (M.journal s').polls → M.turn stop' s s'
  ending_congr : ∀ {stop stop' s r}, M.ending stop s r →
    stop.Agrees stop' r.journal.polls → M.ending stop' s r

/-- **What a run yields depends on its looks alone.** -/
theorem Attentive.yields (hM : M.Attentive) (h : M.Yields stop r)
    (hagrees : stop.Agrees stop' r.journal.polls) : M.Yields stop' r := by
  obtain ⟨s, hs, hend⟩ := h
  refine ⟨s, ?_, hM.ending_congr hend hagrees⟩
  have hsofar := hagrees.mono (hM.ending_polls hend)
  clear hend
  induction hs with
  | refl => exact .refl
  | tail _ hturn ih => exact (ih (hsofar.mono (hM.turn_polls hturn))).tail (hM.turn_congr hturn hsofar)

end Machine

namespace BreadthFirst

variable {m : Manner} {problem : Problem} {bound : Option Nat} {stop stop' : Stop} {s s' : State}
  {r : Run}

theorem Turn.of_agrees (h : Turn m problem bound stop s s')
    (hagrees : stop.Agrees stop' s'.journal.polls) : Turn m problem bound stop' s s' := by
  cases h with
  | refuted hp hdown hvalid => exact .refuted hp ((hagrees.isRaised_eq (.refl _)).trans hdown) hvalid
  | pruned hp hdown hpartial hworth =>
      exact .pruned hp ((hagrees.isRaised_eq (.reportAll _ _)).trans hdown) hpartial hworth
  | expanded hp hdown hpartial hworth hexp =>
      exact .expanded hp ((hagrees.isRaised_eq (.reportAll _ _)).trans hdown) hpartial hworth hexp

theorem Ending.of_agrees (h : Ending m problem stop s r) (hagrees : stop.Agrees stop' r.journal.polls) :
    Ending m problem stop' s r := by
  cases h with
  | exhausted hempty => exact .exhausted hempty
  | stopped hp hup => exact .stopped hp ((hagrees.isRaised_eq (.report _ _)).trans hup)
  | accepted hp hdown hvalid =>
      exact .accepted hp ((hagrees.isRaised_eq (.report _ _)).trans hdown) hvalid
  | faultyCandidate hp hdown hvalid =>
      exact .faultyCandidate hp ((hagrees.isRaised_eq (.refl _)).trans hdown) hvalid
  | faultyVerdict hp hdown hpartial hworth =>
      exact .faultyVerdict hp ((hagrees.isRaised_eq (.refl _)).trans hdown) hpartial hworth
  | faultyExpansion hp hdown hpartial hworth hexp =>
      exact .faultyExpansion hp ((hagrees.isRaised_eq (.reportAll _ _)).trans hdown) hpartial hworth
        hexp

theorem attentive (m : Manner) (problem : Problem) (bound : Option Nat) :
    (machine m problem bound).Attentive where
  turn_polls h := (Turn.before h).polls
  ending_polls h := (Ending.before h).polls
  turn_congr h hagrees := Turn.of_agrees h hagrees
  ending_congr h hagrees := Ending.of_agrees h hagrees

end BreadthFirst

namespace DivideAndConquer

variable {c : Setting} {stop stop' : Stop} {s s' : State} {r : Run} {fuel : Nat} {j j' : Journal}
  {pools : Pools} {found : Option Program}

/-- The setting with another flag. -/
def Setting.under (c : Setting) (stop : Stop) : Setting := { c with stop }

theorem growToCover_congr {p : Pool} {g : Growth} (h : growToCover c fuel p j = some g)
    (hagrees : c.stop.Agrees stop' g.journal.polls) :
    growToCover (c.under stop') fuel p j = some g := by
  unfold growToCover at h ⊢
  split at h
  · rename_i hcovers
    exact (if_pos hcovers).trans h
  · rename_i hcovers
    exact (if_neg hcovers).trans (Pool.grow_congr h hagrees)

theorem search_polls (h : search c pools j = (found, j')) : j.polls ≤ j'.polls := by
  have hle := ((pools.stitcher c.recalls c.stop).solve_heeds c.stop
    ((List.range c.problem.examples.length).length + 1) (List.range c.problem.examples.length)
    { journal := j }).1
  rw [show j' = (search c pools j).2 by rw [h]]
  exact hle

theorem search_congr (h : search c pools j = (found, j')) (hagrees : c.stop.Agrees stop' j'.polls) :
    search (c.under stop') pools j = (found, j') := by
  have hcongr := ((pools.stitcher c.recalls c.stop).solve_heeds stop'
    ((List.range c.problem.examples.length).length + 1) (List.range c.problem.examples.length)
    { journal := j }).2
  rw [show j' = (search c pools j).2 by rw [h]] at hagrees
  have hsame : ((pools.stitcher c.recalls c.stop).under stop').stitch
      (List.range c.problem.examples.length) j
        = (pools.stitcher c.recalls c.stop).stitch (List.range c.problem.examples.length) j := by
    rw [Stitcher.stitch, Stitcher.stitch, hcongr hagrees]
  exact hsame.trans h

theorem Turn.polls (h : Turn c s s') : s.journal.polls ≤ s'.journal.polls := by
  cases h with
  | covered _ => exact le_refl _
  | covers _ hgrow _ => exact (growToCover_before hgrow).polls
  | announced _ => exact Nat.le_succ _
  | failed hsearch => exact search_polls hsearch
  | grew hgrow _ => exact (Pool.grow_before hgrow).polls
  | again hgrow _ _ => exact (Pool.grow_before hgrow).polls
  | stopped hgrow _ _ => exact (Pool.grow_before hgrow).polls.trans (Nat.le_succ _)

theorem Turn.of_agrees (h : Turn c s s') (hagrees : c.stop.Agrees stop' s'.journal.polls) :
    Turn (c.under stop') s s' := by
  cases h with
  | covered hcover => exact .covered hcover
  | covers hno hgrow hgrew => exact .covers hno (growToCover_congr hgrow hagrees) hgrew
  | announced hdown => exact .announced ((hagrees.isRaised_eq (.report _ _)).trans hdown)
  | failed hsearch => exact .failed (search_congr hsearch hagrees)
  | grew hgrow hgrew => exact .grew (Pool.grow_congr hgrow hagrees) hgrew
  | again hgrow hgrew hany => exact .again (Pool.grow_congr hgrow hagrees) hgrew hany
  | stopped hgrow hgrew hup =>
      exact .stopped (Pool.grow_congr hgrow (hagrees.mono (Nat.le_succ _))) hgrew
        ((hagrees.isRaised_eq (.refl _)).trans hup)

theorem conclude_polls (tree : Program) (j : Journal) :
    (conclude c tree j).journal.polls = j.polls := by
  unfold conclude
  split <;> rfl

theorem Ending.polls (h : Ending c s r) : s.journal.polls ≤ r.journal.polls := by
  cases h with
  | first hpull => exact (Enumerator.next_before hpull).polls
  | faultyCovering _ hgrow _ => exact (growToCover_before hgrow).polls
  | fallsShort _ hgrow _ => exact (growToCover_before hgrow).polls
  | cancelled _ => exact Nat.le_succ _
  | concluded hsearch =>
      rw [conclude_polls]
      exact search_polls hsearch
  | faultyExpression hgrow _ => exact (Pool.grow_before hgrow).polls
  | faultyPredicate hgrow _ => exact (Pool.grow_before hgrow).polls
  | bothDry hgrow _ _ => exact (Pool.grow_before hgrow).polls.trans (Nat.le_succ _)

theorem Ending.of_agrees (h : Ending c s r) (hagrees : c.stop.Agrees stop' r.journal.polls) :
    Ending (c.under stop') s r := by
  cases h with
  | first hpull => exact .first (Enumerator.next_congr hpull hagrees)
  | faultyCovering hno hgrow hgrew =>
      exact .faultyCovering hno (growToCover_congr hgrow hagrees) hgrew
  | fallsShort hno hgrow hgrew => exact .fallsShort hno (growToCover_congr hgrow hagrees) hgrew
  | cancelled hup => exact .cancelled ((hagrees.isRaised_eq (.report _ _)).trans hup)
  | concluded hsearch =>
      rw [conclude_polls] at hagrees
      exact .concluded (search_congr hsearch hagrees)
  | faultyExpression hgrow hgrew => exact .faultyExpression (Pool.grow_congr hgrow hagrees) hgrew
  | faultyPredicate hgrow hgrew => exact .faultyPredicate (Pool.grow_congr hgrow hagrees) hgrew
  | bothDry hgrow hgrew hdown =>
      exact .bothDry (Pool.grow_congr hgrow (hagrees.mono (Nat.le_succ _))) hgrew
        ((hagrees.isRaised_eq (.report _ _)).trans hdown)

theorem attentive (problem : Problem) (recalls : Bool) (bound : Option Nat) :
    (machine problem recalls bound).Attentive where
  turn_polls h := Turn.polls h
  ending_polls h := Ending.polls h
  turn_congr h hagrees := Turn.of_agrees h hagrees
  ending_congr h hagrees := Ending.of_agrees h hagrees

end DivideAndConquer

namespace Settings

variable (settings : Settings) (problem : Problem)

theorem attentive : (settings.machine problem).2.Attentive := by
  obtain ⟨strategy, recalls, bound⟩ := settings
  cases strategy with
  | topDown => exact BreadthFirst.attentive _ _ _
  | divideAndConquer => exact DivideAndConquer.attentive _ _ _
  | constraintBased => exact BreadthFirst.attentive _ _ _

variable {settings problem} {stop stop' : Stop} {fuel : Nat} {r : Run}

/-- **A run ends in the same way under every flag that is up for the same of its looks.** -/
theorem run_congr (h : settings.run problem stop fuel = some r)
    (hagrees : stop.Agrees stop' r.journal.polls) :
    ∃ fuel₀, ∀ fuel' ≥ fuel₀, settings.run problem stop' fuel' = some r := by
  have hrun := settings.computedBy problem
  exact hrun.exists_fuel ((settings.attentive problem).yields (hrun.yields h) hagrees)

end Settings

end Sygus
