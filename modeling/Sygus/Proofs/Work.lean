import Mathlib.Algebra.Order.BigOperators.Group.List
import Sygus.Proofs.Enumeration.Calls
import Sygus.Proofs.Potential

/-!
# How much work a bounded walk can be

Under a bound, every step lowers the potential of a term, and no term has more results than there
are productions. So the terms that a walk can ever take out of its frontier on account of one
term are no more than a power of the number of productions, with the potential as exponent.
That is the **work** that the term can make, and the work of a frontier is the sum over its terms.

Taking a term out lowers the work of a frontier, also when the term makes way for its expansions.
This holds for every frontier there can be, whatever bound was in force before. So the work at the
start is as many turns as there can be, in calls of enumerators and in everything that is built
on them.
-/

namespace Sygus

open Relation (ReflTransGen)

variable {g : Grammar} {d : Nat}

namespace Term

/-- The number of terms that a walk can take out of a frontier on account of a term, at most. -/
def work (g : Grammar) (d : Nat) (t : Term) : Nat :=
  (g.productions.length + 1) ^ t.potential g (d - 1)

theorem work_pos (t : Term) : 0 < t.work g d := Nat.pow_pos (Nat.succ_pos _)

theorem length_choices_le (t : Term) : (t.choices g).length ≤ g.productions.length := by
  unfold choices
  cases t.firstHole? with
  | none => exact Nat.zero_le _
  | some category =>
      dsimp only
      rw [List.length_map]
      exact List.length_filter_le _ _

/-- A lower potential leaves room for as many terms as there are productions, and for one more. -/
theorem Lower.work_le {t u : Term} (h : Lower g d u t) :
    (g.productions.length + 1) * u.work g d ≤ t.work g d := by
  unfold work
  rw [← Nat.pow_succ']
  exact Nat.pow_le_pow_right (Nat.succ_pos _) h

/-- **What fits of the expansions of a term makes less work than the term.** -/
theorem sum_work_lt {t : Term} {terms : List Term} (h : t.expand g = .ok terms) :
    ((terms.filter (·.fits (some d))).map (work g d)).sum < t.work g d := by
  have hlength : (terms.filter (·.fits (some d))).length ≤ g.productions.length := by
    refine Nat.le_trans (List.length_filter_le _ _) ?_
    rw [eq_choices_of_expand h]
    exact length_choices_le t
  -- the work of each, times one more than there are productions, is no more than that of `t`
  have hshare : ∀ n ∈ (terms.filter (·.fits (some d))).map
      (fun u => (g.productions.length + 1) * u.work g d), n ≤ t.work g d := by
    intro n hn
    obtain ⟨u, hu, rfl⟩ := List.mem_map.mp hn
    obtain ⟨hmem, hfits⟩ := List.mem_filter.mp hu
    exact (((mem_expand_iff t h).mp hmem).lower hfits).work_le
  have hsum := List.sum_le_card_nsmul _ _ hshare
  rw [List.sum_map_mul_left, List.length_map, smul_eq_mul] at hsum
  refine Nat.lt_of_mul_lt_mul_left (a := g.productions.length + 1) ?_
  calc (g.productions.length + 1) * ((terms.filter (·.fits (some d))).map (work g d)).sum
      ≤ (terms.filter (·.fits (some d))).length * t.work g d := hsum
    _ ≤ g.productions.length * t.work g d := Nat.mul_le_mul_right _ hlength
    _ < (g.productions.length + 1) * t.work g d :=
        Nat.mul_lt_mul_of_pos_right (Nat.lt_succ_self _) t.work_pos

end Term

namespace Frontier

/-- The work that all terms of a frontier can make. -/
def work (g : Grammar) (d : Nat) (q : Frontier) : Nat := (q.toList.map (Term.work g d)).sum

theorem work_of_pop? {q rest : Frontier} {t : Term} (h : q.pop? = some (t, rest)) :
    q.work g d = t.work g d + rest.work g d := by
  unfold work
  rw [toList_of_pop? h, List.map_cons, List.sum_cons]

theorem work_append (q : Frontier) (terms : List Term) :
    (q.append terms).work g d = q.work g d + (terms.map (Term.work g d)).sum := by
  unfold work
  rw [toList_append, List.map_append, List.sum_append]

theorem work_eq_zero_iff {q : Frontier} : q.work g d = 0 ↔ q.toList = [] := by
  refine ⟨?_, ?_⟩
  · intro h
    cases hp : q.pop? with
    | none => exact pop?_eq_none_iff.mp hp
    | some r =>
        rw [work_of_pop? hp] at h
        have hpos := r.1.work_pos (g := g) (d := d)
        omega
  · intro h
    rw [work, h]
    rfl

/-- Taking a term out lowers the work. -/
theorem work_lt_of_pop? {q rest : Frontier} {t : Term} (h : q.pop? = some (t, rest)) :
    rest.work g d < q.work g d := by
  rw [work_of_pop? h]
  exact Nat.lt_add_of_pos_left t.work_pos

/-- **A term that makes way for its expansions lowers the work.** -/
theorem work_append_lt {q rest : Frontier} {t : Term} {terms : List Term}
    (h : q.pop? = some (t, rest)) (hexp : t.expand g = .ok terms) :
    (rest.append (terms.filter (·.fits (some d)))).work g d < q.work g d := by
  rw [work_append, work_of_pop? h, Nat.add_comm]
  exact Nat.add_lt_add_right (Term.sum_work_lt hexp) _

end Frontier

namespace Enumerator

variable {e e' : Enumerator} {stop : Stop}

/-- **A bounded turn lowers the work.** -/
theorem Turn.work_lt (h : Turn g e e') (hd : e.bound = some d) :
    e'.frontier.work g d < e.frontier.work g d := by
  cases h with
  | expand hp _ hexp =>
      unfold enqueue
      dsimp only
      rw [hd]
      exact Frontier.work_append_lt hp hexp

theorem turns_work_le (h : ReflTransGen (Turn g) e e') (hd : e.bound = some d) :
    e'.frontier.work g d ≤ e.frontier.work g d ∧ e'.bound = some d := by
  induction h with
  | refl => exact ⟨Nat.le_refl _, hd⟩
  | tail _ hturn ih =>
      have hlt := hturn.work_lt ih.2
      exact ⟨by omega, hturn.bound_eq.trans ih.2⟩

/-- An ending takes a term out, unless there is none. -/
theorem Ending.work_lt {answer : Except Fault (Option Program)} (h : Ending g stop e answer e') :
    (answer = .ok none ∧ e'.frontier.toList = [] ∨ e'.frontier.work g d < e.frontier.work g d)
      ∧ e'.bound = e.bound := by
  cases h with
  | dry hdry => exact ⟨Or.inl ⟨rfl, hdry⟩, rfl⟩
  | stopped hp _ => exact ⟨Or.inr (Frontier.work_lt_of_pop? hp), rfl⟩
  | handed hp => exact ⟨Or.inr (Frontier.work_lt_of_pop? hp), rfl⟩
  | failed hp _ _ => exact ⟨Or.inr (Frontier.work_lt_of_pop? hp), rfl⟩

/-- **A call lowers the work,** or it leaves nothing behind to work on. -/
theorem work_of_next {fuel : Nat} {j : Journal} {pull : Pull}
    (h : next g stop fuel e j = some pull) (hd : e.bound = some d) :
    pull.result = .ok none ∧ pull.rest.frontier.toList = []
      ∨ pull.rest.frontier.work g d < e.frontier.work g d := by
  obtain ⟨e', hturns, hend⟩ := next_cases h
  obtain ⟨hle, _⟩ := turns_work_le hturns hd
  exact (hend.work_lt (d := d)).1.imp_right fun hlt => Nat.lt_of_lt_of_le hlt hle

theorem work_le_of_next {fuel : Nat} {j : Journal} {pull : Pull}
    (h : next g stop fuel e j = some pull) (hd : e.bound = some d) :
    pull.rest.frontier.work g d ≤ e.frontier.work g d := by
  rcases work_of_next h hd with ⟨_, hempty⟩ | hlt
  · rw [Frontier.work_eq_zero_iff.mpr hempty]
    exact Nat.zero_le _
  · exact Nat.le_of_lt hlt

/-- **A bounded call ends,** after no more turns than there is work. -/
theorem exists_next_of_work {fuel : Nat} (hd : e.bound = some d)
    (hfuel : e.frontier.work g d < fuel) (j : Journal) :
    ∃ pull, next g stop fuel e j = some pull := by
  induction fuel generalizing e j with
  | zero => omega
  | succ fuel ih =>
      rcases next_step g stop e j with ⟨pull, hpull⟩ | ⟨e', hturn, hnext⟩
      · exact ⟨pull, hpull fuel⟩
      · have hlt := hturn.work_lt hd
        rw [hnext]
        exact ih (hturn.bound_eq.trans hd) (by omega) j.polled

/-- **There are no more calls than work before nothing is left.** -/
theorem Pulls.work_add_length_le {answers : List (Except Fault (Option Program))}
    (h : Pulls g e answers e') (hd : e.bound = some d) :
    e'.frontier.toList = []
      ∨ e'.frontier.work g d + answers.length ≤ e.frontier.work g d := by
  induction h with
  | nil => exact Or.inr (Nat.le_refl _)
  | cons hnext _ ih =>
      rcases ih ((bound_of_next hnext).trans hd) with hempty | hle
      · exact Or.inl hempty
      · rcases work_of_next hnext hd with ⟨_, hempty⟩ | hlt
        · -- nothing was left after the first call, and nothing has been added
          rw [Frontier.work_eq_zero_iff.mpr hempty] at hle
          exact Or.inl (Frontier.work_eq_zero_iff (g := g) (d := d).mp (by omega))
        · rw [List.length_cons]
          exact Or.inr (by omega)

/-- A call that finds nothing leaves nothing. -/
theorem next_of_empty (hempty : e.frontier.toList = []) (fuel : Nat) (j : Journal) :
    next g stop (fuel + 1) e j = some ⟨.ok none, e, j⟩ := by
  simp [next, Frontier.pop?_eq_none_iff.mpr hempty]

end Enumerator

end Sygus
