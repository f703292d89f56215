import Sygus.Proofs.Search.Turns
import Sygus.Search.TopDown

/-!
# Searches that prune

A search that prunes goes through the terms of a search that does not, in the same order, and
skips some of them. As long as it skips only what is **lost**, that is, what cannot become
the answer, it comes to the same answer.

The two searches are compared turn by turn. The frontier of the one that prunes is the
frontier of the other one, **thinned**: only lost terms are missing. A term that is in both
frontiers is dealt with in both searches alike; while the other search deals with a term that
is missing, the one that prunes stands still.
-/

namespace Sygus.BreadthFirst

open Term (Expands)

/-- The second list is the first one without some terms that are lost. -/
inductive Thinned (lost : Term → Prop) : List Term → List Term → Prop where
  | nil : Thinned lost [] []
  | keep {t : Term} {ts us : List Term} : Thinned lost ts us → Thinned lost (t :: ts) (t :: us)
  | skip {t : Term} {ts us : List Term} : lost t → Thinned lost ts us → Thinned lost (t :: ts) us

namespace Thinned

variable {lost : Term → Prop} {ts us ts' us' : List Term}

theorem refl (ts : List Term) : Thinned lost ts ts := by
  induction ts with
  | nil => exact .nil
  | cons t ts ih => exact .keep ih

theorem append (h : Thinned lost ts us) (h' : Thinned lost ts' us') :
    Thinned lost (ts ++ ts') (us ++ us') := by
  induction h with
  | nil => exact h'
  | keep _ ih => exact .keep ih
  | skip hlost _ ih => exact .skip hlost ih

theorem of_forall_lost (h : ∀ t ∈ ts, lost t) : Thinned lost ts [] := by
  induction ts with
  | nil => exact .nil
  | cons t ts ih =>
      rw [List.forall_mem_cons] at h
      exact .skip h.1 (ih h.2)

/-- Lost terms may join at the end. -/
theorem append_lost (h : Thinned lost ts us) (hlost : ∀ t ∈ ts', lost t) :
    Thinned lost (ts ++ ts') us := by
  have happend := h.append (of_forall_lost hlost)
  rwa [List.append_nil] at happend

end Thinned

/-- A manner that always comes to a verdict and prunes only what is lost, which stays lost in
expansions. Only terms that walks meet count. -/
structure Prudent (m : Manner) (g : Grammar) (bound : Option Nat) (lost : Term → Prop) : Prop where
  verdict : ∀ t, t.Met g bound g.startSymbol → t.isComplete = false →
    ∃ worth, m.worthwhile t = .ok worth ∧ (worth = false → lost t)
  lost_of_expands : ∀ t u, t.Met g bound g.startSymbol → lost t → Expands g t u → lost u

section Agreement

variable {m : Manner} {problem : Problem} {bound : Option Nat} {lost : Term → Prop}
  {s s' u : State}

/-- **A turn of the search that does not prune** is a turn of the other search too, or that search
stands still. -/
theorem Turn.thinned (hm : Prudent m problem.grammar bound lost)
    (h : Turn TopDown.manner problem bound .never s s') (hs : s.Met problem bound)
    (hu : Thinned lost s.frontier.toList u.frontier.toList) :
    Thinned lost s'.frontier.toList u.frontier.toList
      ∨ ∃ u', Turn m problem bound .never u u'
          ∧ Thinned lost s'.frontier.toList u'.frontier.toList := by
  cases h with
  | @refuted p rest hp _ hvalid =>
      rw [Frontier.toList_of_pop? hp] at hu
      generalize hqueue : u.frontier.toList = queue at hu
      cases hu with
      | keep hrest =>
          obtain ⟨rest', hp', rfl⟩ := Frontier.exists_pop? hqueue
          exact Or.inr ⟨_, .refuted hp' rfl hvalid, hrest⟩
      | skip _ hrest => exact Or.inl hrest
  | pruned _ _ _ hworth => cases hworth
  | @expanded t rest terms hp _ hpartial _ hexp =>
      have hmet := hs t (Frontier.mem_of_pop? hp)
      -- what a lost term expands to is lost
      have hterms : lost t → ∀ v ∈ terms.filter (·.fits bound), lost v := by
        intro hlost v hv
        have hstep := (Term.mem_expand_iff t hexp).mp (List.mem_filter.mp hv).1
        exact hm.lost_of_expands t v hmet hlost hstep
      rw [Frontier.toList_of_pop? hp] at hu
      rw [Frontier.toList_append]
      generalize hqueue : u.frontier.toList = queue at hu
      cases hu with
      | keep hrest =>
          obtain ⟨rest', hp', rfl⟩ := Frontier.exists_pop? hqueue
          obtain ⟨worth, hworth, hlost⟩ := hm.verdict t hmet hpartial
          cases worth with
          | true =>
              refine Or.inr ⟨_, .expanded hp' rfl hpartial hworth hexp, ?_⟩
              rw [Frontier.toList_append]
              exact hrest.append (.refl _)
          | false =>
              exact Or.inr ⟨_, .pruned hp' rfl hpartial hworth,
                hrest.append_lost (hterms (hlost rfl))⟩
      | skip hlost hrest => exact Or.inl (hrest.append_lost (hterms hlost))

/-- Where the search that does not prune ends with an answer that is not lost, the other one
ends with the same answer. -/
theorem Ending.thinned {run : Run} (h : Ending TopDown.manner problem .never s run)
    (hu : Thinned lost s.frontier.toList u.frontier.toList)
    (hrun : run.result = .ok none ∨ ∃ p : Program, run.result = .ok (some p) ∧ ¬ lost p.root) :
    ∃ run', Ending m problem .never u run' ∧ run'.result = run.result := by
  cases h with
  | exhausted hempty =>
      rw [hempty] at hu
      generalize hqueue : u.frontier.toList = queue at hu
      cases hu
      exact ⟨_, .exhausted hqueue, rfl⟩
  | stopped _ hraised => cases hraised
  | @accepted p rest hp _ hvalid =>
      rw [Frontier.toList_of_pop? hp] at hu
      generalize hqueue : u.frontier.toList = queue at hu
      cases hu with
      | keep _ =>
          obtain ⟨rest', hp', _⟩ := Frontier.exists_pop? hqueue
          exact ⟨_, .accepted hp' rfl hvalid, rfl⟩
      | skip hlost _ =>
          rcases hrun with hnone | ⟨q, hq, hkept⟩
          · cases hnone
          · cases hq
            exact absurd hlost hkept
  | faultyCandidate _ _ _ => rcases hrun with hnone | ⟨q, hq, _⟩ <;> contradiction
  | faultyVerdict _ _ _ _ => rcases hrun with hnone | ⟨q, hq, _⟩ <;> contradiction
  | faultyExpansion _ _ _ _ _ => rcases hrun with hnone | ⟨q, hq, _⟩ <;> contradiction

/-- **A search that prunes only what is lost comes to the same answer,** if the answer is not
lost, within the same fuel. -/
theorem search_thinned (hm : Prudent m problem.grammar bound lost) {fuel : Nat} {run : Run}
    (h : search TopDown.manner problem bound .never fuel s = some run) (hs : s.Met problem bound)
    (hu : Thinned lost s.frontier.toList u.frontier.toList)
    (hrun : run.result = .ok none ∨ ∃ p : Program, run.result = .ok (some p) ∧ ¬ lost p.root) :
    ∃ run', search m problem bound .never fuel u = some run' ∧ run'.result = run.result := by
  induction fuel generalizing s u with
  | zero => exact absurd h (by simp [search])
  | succ fuel ih =>
      rcases search_cases h with hend | ⟨s', hturn, hsearch⟩
      · obtain ⟨run', hend', hsame⟩ := hend.thinned hu hrun
        exact ⟨run', hend'.search_eq bound fuel, hsame⟩
      · rcases hturn.thinned hm hs hu with hstill | ⟨u', hturn', hu'⟩
        · obtain ⟨run', hrun', hsame⟩ := ih hsearch (hturn.met hs) hstill
          exact ⟨run', search_mono hrun' (Nat.le_succ fuel), hsame⟩
        · obtain ⟨run', hrun', hsame⟩ := ih hsearch (hturn.met hs) hu'
          exact ⟨run', (hturn'.search_eq fuel).trans hrun', hsame⟩

end Agreement

end Sygus.BreadthFirst
