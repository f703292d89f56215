import Sygus.Proofs.Search.Testing

/-!
# Breadth-first search is fair

A valid program that is due stays due, and every turn brings it nearer, whatever else the frontier
holds. Two things can come in between. A search that prunes may prune a term that the program
completes, and a step may fail. If neither happens, the search ends, and since no turn is left to
be made when it does, it ends with a valid program: the one that is due, or one that came
before it.
-/

namespace Sygus.BreadthFirst

open Relation (ReflTransGen)
open Term (Completes Derives)

variable {m : Manner} {problem : Problem} {bound : Option Nat} {stop : Stop} {s s' : State}
  {q : Program} {n i : Nat}

/-- No step of a search fails. Only terms that walks meet count. -/
structure Flawless (m : Manner) (problem : Problem) (bound : Option Nat) : Prop where
  verdict : ∀ t : Term, t.Met problem.grammar bound problem.grammar.startSymbol →
    ∃ worth, m.worthwhile t = .ok worth
  expansion : ∀ t : Term, t.Met problem.grammar bound problem.grammar.startSymbol →
    ∃ terms, t.expand problem.grammar = .ok terms
  validity : ∀ p : Program, p.root.Met problem.grammar bound problem.grammar.startSymbol →
    ∃ valid, p.isValid problem.examples = .ok valid

/-- No partial term is pruned that a program completes. -/
def Spared (m : Manner) (problem : Problem) (bound : Option Nat) (q : Program) : Prop :=
  ∀ (t : Term) (n : Nat), t.Met problem.grammar bound problem.grammar.startSymbol →
    t.isComplete = false → Completes problem.grammar n t q.root → m.worthwhile t ≠ .ok false

/-- **A turn brings a valid program nearer** that is due and spared. -/
theorem Turn.due (h : Turn m problem bound stop s s') (hs : s.Met problem bound)
    (hspared : Spared m problem bound q) (hfits : q.root.fits bound = true)
    (hvalid : q.isValid problem.examples = .ok true)
    (hdue : (s.walk bound).Due problem.grammar q.root n i) :
    ∃ k j, Prod.Lex (· < ·) (· < ·) (k, j) (n, i)
      ∧ (s'.walk bound).Due problem.grammar q.root k j := by
  cases h with
  | @refuted p rest hp _ hinvalid =>
      have hp' : (s.walk bound).frontier.pop? = some (p.root, rest) := hp
      rcases Enumerator.due_of_pop? hp' hdue with heq | ⟨j, hj, hdue'⟩
      · -- what has been turned down is not valid
        rw [Program.eq_of_root heq, hinvalid] at hvalid
        cases hvalid
      · exact ⟨n, j, .right _ hj, hdue'⟩
  | @pruned t rest hp _ hpartial hworth =>
      obtain ⟨u, hu, hcompletes⟩ := hdue
      have hlist : (s.walk bound).frontier.toList = t :: rest.toList := Frontier.toList_of_pop? hp
      rw [hlist] at hu
      cases i with
      | zero =>
          -- the program completes the term that is pruned, but it is spared
          simp only [List.getElem?_cons_zero, Option.some.injEq] at hu
          subst hu
          have hmet := hs t (Frontier.mem_of_pop? hp)
          exact absurd hworth (hspared t n hmet hpartial hcompletes)
      | succ i =>
          rw [List.getElem?_cons_succ] at hu
          exact ⟨n, i, .right _ (Nat.lt_succ_self i), u, hu, hcompletes⟩
  | expanded hp _ hpartial _ hexp =>
      have hturn : Enumerator.Turn problem.grammar (s.walk bound) _ := .expand hp hpartial hexp
      exact hturn.due hfits hdue

/-- A search that is not stopped and does not fail ends with a valid program, or with an empty
frontier. -/
theorem Ending.found_or_exhausted {r : Run} (h : Ending m problem .never s r)
    (hs : s.Met problem bound) (hm : Flawless m problem bound) :
    (∃ p, r.result = .ok (some p) ∧ p.isValid problem.examples = .ok true)
      ∨ s.frontier.toList = [] := by
  have hmet : ∀ {t rest}, s.frontier.pop? = some (t, rest) →
      t.Met problem.grammar bound problem.grammar.startSymbol := by
    intro t rest hp
    exact hs t (Frontier.mem_of_pop? hp)
  cases h with
  | exhausted hempty => exact Or.inr hempty
  | accepted _ _ hvalid => exact Or.inl ⟨_, rfl, hvalid⟩
  | stopped _ hraised => cases hraised
  | faultyCandidate hp _ hfault =>
      obtain ⟨valid, hvalid⟩ := hm.validity _ (hmet hp)
      rw [hvalid] at hfault
      cases hfault
  | faultyVerdict hp _ _ hfault =>
      obtain ⟨worth, hworth⟩ := hm.verdict _ (hmet hp)
      rw [hworth] at hfault
      cases hfault
  | faultyExpansion hp _ _ _ hfault =>
      obtain ⟨terms, hterms⟩ := hm.expansion _ (hmet hp)
      rw [hterms] at hfault
      cases hfault

/-- Turns lead to an ending with a valid program, by induction on how near the one is that is
due. -/
theorem exists_ending_of_due (hm : Flawless m problem bound) (hspared : Spared m problem bound q)
    (hfits : q.root.fits bound = true) (hvalid : q.isValid problem.examples = .ok true)
    (ni : Nat × Nat) (hs : s.Met problem bound)
    (hdue : (s.walk bound).Due problem.grammar q.root ni.1 ni.2) :
    ∃ s' r p, ReflTransGen (Turn m problem bound .never) s s' ∧ Ending m problem .never s' r
      ∧ r.result = .ok (some p) ∧ p.isValid problem.examples = .ok true := by
  induction ni using Enumerator.wellFounded_nearer.induction generalizing s with
  | _ ni ih =>
      rcases turn_or_ending m problem bound .never s with ⟨s', hturn⟩ | ⟨r, hend⟩
      · obtain ⟨k, j, hnearer, hdue'⟩ := hturn.due hs hspared hfits hvalid hdue
        obtain ⟨s'', r, p, hturns, hrest⟩ := ih (k, j) hnearer (hturn.met hs) hdue'
        exact ⟨s'', r, p, .head hturn hturns, hrest⟩
      · rcases hend.found_or_exhausted hs hm with ⟨p, hfound, hpvalid⟩ | hempty
        · exact ⟨s, r, p, .refl, hend, hfound, hpvalid⟩
        · -- something is due, so the frontier is not empty
          obtain ⟨u, hu, _⟩ := hdue
          have hnone : (s.walk bound).frontier.toList = [] := hempty
          rw [hnone] at hu
          cases hu

/-- **A search finds a valid program if there is one that it spares,** unless a step fails. -/
theorem exists_run_of_spared (hm : Flawless m problem bound) (hspared : Spared m problem bound q)
    (hderives : Derives problem.grammar problem.grammar.startSymbol q.root)
    (hfits : q.root.fits bound = true) (hvalid : q.isValid problem.examples = .ok true) :
    ∃ fuel₀ r p, (∀ fuel ≥ fuel₀, run m problem bound .never fuel = some r)
      ∧ r.result = .ok (some p) ∧ p.isValid problem.examples = .ok true := by
  obtain ⟨n, i, hdue⟩ := Enumerator.pending_ofSymbol hderives bound
  obtain ⟨s', r, p, hturns, hend, hfound, hpvalid⟩ :=
    exists_ending_of_due hm hspared hfits hvalid (n, i) (met_initial problem bound) hdue
  obtain ⟨fuel₀, hruns⟩ := exists_search_of_turns hturns hend
  exact ⟨fuel₀, r, p, hruns, hfound, hpvalid⟩

end Sygus.BreadthFirst
