import Sygus.Proofs.Accounting

/-!
# What pools draw, whenever the flag goes up

A call that is stopped loses the term that it has taken out of the frontier, so a pool of a run
that is stopped need not be steady. What is in the frontier has still been met by a walk from the
category of the role, and within the bound. So the entries of a pool can always be drawn, and
they are labelled: this is all of `Steady` that does not speak of programs still to come.
-/

namespace Sygus

open Relation (ReflTransGen)
open Term (Met)

variable {g : Grammar} {bound : Option Nat} {s : Symbol} {stop : Stop}

namespace Enumerator

/-- The enumerator walks from a symbol and keeps to a bound. -/
structure Walks (g : Grammar) (bound : Option Nat) (s : Symbol) (e : Enumerator) : Prop where
  bound_eq : e.bound = bound
  met : ∀ t ∈ e.frontier.toList, Met g bound s t

theorem walks_ofSymbol (g : Grammar) (bound : Option Nat) (s : Symbol) :
    ((ofSymbol s).withBound bound).Walks g bound s where
  bound_eq := rfl
  met := by
    intro t ht
    rw [List.mem_singleton.mp ht]
    exact .start

variable {e e' : Enumerator}

theorem Walks.turn (h : e.Walks g bound s) (hturn : Turn g e e') : e'.Walks g bound s := by
  have hbound : e'.bound = bound := hturn.bound_eq.trans h.bound_eq
  have hmet := hturn.met (s := s) (by rw [h.bound_eq]; exact h.met)
  rw [hbound] at hmet
  exact ⟨hbound, hmet⟩

/-- What is taken out of the frontier has been met, and the rest goes on. -/
theorem Walks.pop (h : e.Walks g bound s) {t : Term} {frontier : Frontier}
    (hp : e.frontier.pop? = some (t, frontier)) :
    Met g bound s t ∧ ({ e with frontier } : Enumerator).Walks g bound s := by
  have hmet := h.met
  rw [Frontier.toList_of_pop? hp, List.forall_mem_cons] at hmet
  exact ⟨hmet.1, h.bound_eq, hmet.2⟩

/-- **A call hands out only what a walk meets,** and the enumerator goes on walking. -/
theorem Walks.next (h : e.Walks g bound s) {fuel : Nat} {j : Journal} {pull : Pull}
    (hpull : next g stop fuel e j = some pull) :
    pull.rest.Walks g bound s ∧ ∀ p, pull.result = .ok (some p) → Met g bound s p.root := by
  obtain ⟨e', hturns, hend⟩ := next_cases hpull
  have hwalks : e'.Walks g bound s := by
    clear hend
    induction hturns with
    | refl => exact h
    | tail _ hturn ih => exact ih.turn hturn
  generalize pull.result = result, pull.rest = rest at hend
  cases hend with
  | dry _ => exact ⟨hwalks, by simp⟩
  | stopped hp _ => exact ⟨(hwalks.pop hp).2, by simp⟩
  | failed hp _ _ => exact ⟨(hwalks.pop hp).2, by simp⟩
  | handed hp =>
      obtain ⟨hmet, hrest⟩ := hwalks.pop hp
      refine ⟨hrest, ?_⟩
      intro p heq
      cases heq
      exact hmet

end Enumerator

/-- A program that walks from the category of a role meet can be drawn in that role. -/
theorem Role.draws_of_met {role : Role} {p : Program} (h : Met g bound role.symbol p.root) :
    role.Draws g bound p :=
  ⟨h.derives_of_isComplete p.complete, h.fits_of_isComplete p.complete⟩

namespace Pool

variable {problem : Problem} {role : Role} {p : Pool}

/-- The entries can be drawn and carry their labels, and so will all further ones. -/
structure Sourced (problem : Problem) (bound : Option Nat) (role : Role) (p : Pool) : Prop where
  role_eq : p.role = role
  walks : p.source.Walks problem.grammar bound role.symbol
  entries : ∀ e ∈ p.entries, role.Draws problem.grammar bound e.piece
    ∧ role.label e.piece problem.examples = .ok e.label

theorem sourced_fresh (problem : Problem) (bound : Option Nat) (role : Role) :
    (fresh role bound).Sourced problem bound role :=
  ⟨rfl, Enumerator.walks_ofSymbol _ _ _, by simp [fresh]⟩

theorem Sourced.withSource (h : p.Sourced problem bound role) {e : Enumerator}
    (he : e.Walks problem.grammar bound role.symbol) :
    (p.withSource e).Sourced problem bound role :=
  ⟨h.role_eq, he, h.entries⟩

theorem Sourced.take (h : p.Sourced problem bound role) {program : Program} {label : ExampleSet}
    (hdraws : role.Draws problem.grammar bound program)
    (hlabel : role.label program problem.examples = .ok label) :
    (p.take program label).Sourced problem bound role := by
  refine ⟨h.role_eq, h.walks, ?_⟩
  intro e he
  rcases List.mem_append.mp he with he | he
  · exact h.entries e he
  · rw [List.mem_singleton.mp he]
    exact ⟨hdraws, hlabel⟩

/-- **Growing takes in only what can be drawn,** by induction on the programs that are spurned. -/
theorem Sourced.grow (h : p.Sourced problem bound role) {fuel : Nat} {j : Journal}
    {growth : Growth} (hgrow : p.grow problem stop fuel j = some growth) :
    growth.pool.Sourced problem bound role := by
  induction fuel generalizing p j with
  | zero => exact absurd hgrow (by simp [Pool.grow])
  | succ fuel ih =>
      rw [Pool.grow, Option.bind_eq_bind, Option.bind_eq_some_iff] at hgrow
      obtain ⟨pull, hpull, hgrow⟩ := hgrow
      obtain ⟨hwalks, hmet⟩ := h.walks.next hpull
      have hrest := h.withSource hwalks
      obtain ⟨result, rest, journal⟩ := pull
      rcases result with fault | _ | program
      · cases hgrow
        exact hrest
      · cases hgrow
        exact hrest
      · dsimp only at hgrow
        split at hgrow
        · cases hgrow
          exact hrest
        · rename_i label hlabel
          split at hgrow
          · exact ih hrest hgrow
          · cases hgrow
            rw [h.role_eq] at hlabel
            exact hrest.take (Role.draws_of_met (hmet program rfl)) hlabel

end Pool

end Sygus
