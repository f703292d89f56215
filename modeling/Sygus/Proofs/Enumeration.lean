import Mathlib.Data.Prod.Lex
import Sygus.Proofs.Derivation
import Sygus.Proofs.Walk

/-!
# What a walk meets, and what is still to come

A walk from a symbol **meets** a term if leftmost steps lead there through terms that fit
the bound. Complete terms that are met derive from the symbol and fit the bound.

Conversely, a program that derives from the symbol and fits is never lost: it stays
**due** until it is handed out, because the frontier holds a partial term that it
completes, and the depth of that term is no obstacle. How long it takes is measured by
two numbers, the steps from that partial term to the program and the place of the
partial term in the queue. Every turn lowers one of them, in this order of importance;
this is all there is to the fairness of a breadth-first walk.
-/

namespace Sygus

open Relation (ReflTransGen)
open Term (Expands Completes Derives)

variable {g : Grammar} {bound : Option Nat} {s : Symbol}

/-- A program is known by its root. -/
theorem Program.eq_of_root {p q : Program} (h : p.root = q.root) : p = q := by
  cases p
  cases q
  cases h
  rfl

theorem Term.fits_of_depth_le {t u : Term} (h : u.depth ≤ t.depth) (ht : t.fits bound = true) :
    u.fits bound = true := by
  cases bound with
  | none => rfl
  | some d =>
      simp only [Term.fits, decide_eq_true_eq] at ht ⊢
      exact Nat.le_trans h ht

/-- The terms that a walk from a symbol meets if it keeps to a bound. -/
inductive Term.Met (g : Grammar) (bound : Option Nat) (s : Symbol) : Term → Prop where
  | start : Met g bound s (leaf s)
  | step {t u : Term} : Met g bound s t → Expands g t u → u.fits bound = true → Met g bound s u

namespace Term.Met

theorem isBare {t : Term} (h : Met g bound s t) : t.isBare = true := by
  induction h with
  | start => exact isBare_leaf s
  | step _ hstep _ ih => exact hstep.isBare ih

/-- Walks take leftmost steps. -/
theorem steps {t : Term} (h : Met g bound s t) : ReflTransGen (Expands g) (leaf s) t := by
  induction h with
  | start => exact .refl
  | step _ hstep _ ih => exact ih.tail hstep

/-- What completes a term that is met derives from the symbol. -/
theorem derives {t u : Term} {n : Nat} (h : Met g bound s u) (ht : Completes g n u t) :
    Derives g s t := by
  induction h generalizing n with
  | start => exact ⟨n, ht⟩
  | step hmet hstep _ ih => exact ih (.of_expands hstep hmet.isBare ht)

theorem derives_of_isComplete {t : Term} (h : Met g bound s t) (ht : t.isComplete = true) :
    Derives g s t :=
  h.derives (Term.completes_self ht)

/-- Only the start may fail to fit, and a category is no complete term. -/
theorem fits_of_isComplete {category : String} {t : Term}
    (h : Met g bound (.nonTerminal category) t) (ht : t.isComplete = true) :
    t.fits bound = true := by
  cases h with
  | start => simp [leaf, isComplete, Symbol.isTerminal] at ht
  | step _ _ hfits => exact hfits

end Term.Met

namespace Enumerator

/-- The term number `i` of the frontier is `n` steps away from `t`. -/
def Due (g : Grammar) (t : Term) (e : Enumerator) (n i : Nat) : Prop :=
  ∃ u, e.frontier.toList[i]? = some u ∧ Completes g n u t

/-- The term is still to come. -/
def Pending (g : Grammar) (t : Term) (e : Enumerator) : Prop := ∃ n i, e.Due g t n i

/-- Nothing comes nearer for ever. -/
theorem wellFounded_nearer :
    WellFounded (Prod.Lex (· < · : Nat → Nat → Prop) (· < · : Nat → Nat → Prop)) :=
  (Prod.lex inferInstance inferInstance).wf

theorem toList_enqueue (e : Enumerator) (terms : List Term) :
    (e.enqueue terms).frontier.toList
      = e.frontier.toList ++ terms.filter (·.fits e.bound) := by
  simp [enqueue]

/-- **A turn brings a due term nearer.** -/
theorem Turn.due {t : Term} {e e' : Enumerator} {n i : Nat} (h : Turn g e e')
    (ht : t.fits e.bound = true) (hdue : e.Due g t n i) :
    ∃ m k, Prod.Lex (· < ·) (· < ·) (m, k) (n, i) ∧ e'.Due g t m k := by
  obtain ⟨u, hu, hcompletes⟩ := hdue
  cases h with
  | @expand t₀ frontier terms hp hpartial hexp =>
      rw [Frontier.toList_of_pop? hp] at hu
      have hlist := toList_enqueue ({ e with frontier } : Enumerator) terms
      dsimp only at hlist
      cases i with
      | zero =>
          -- the term itself is expanded, and one of the results is a step nearer
          simp only [List.getElem?_cons_zero, Option.some.injEq] at hu
          subst hu
          obtain ⟨m, u', hn, hstep, hrest⟩ := hcompletes.exists_expands hpartial
          have hmem : u' ∈ terms := (Term.mem_expand_iff t₀ hexp).mpr hstep
          have hfits : u'.fits e.bound = true := Term.fits_of_depth_le hrest.depth_le ht
          have hqueued : u' ∈ (({ e with frontier } : Enumerator).enqueue terms).frontier.toList := by
            rw [hlist]
            exact List.mem_append_right _ (List.mem_filter.mpr ⟨hmem, hfits⟩)
          obtain ⟨k, hk⟩ := List.mem_iff_getElem?.mp hqueued
          exact ⟨m, k, .left _ _ (by omega), u', hk, hrest⟩
      | succ i =>
          -- another term is expanded, and this one moves up
          rw [List.getElem?_cons_succ] at hu
          refine ⟨n, i, .right _ (by omega), u, ?_, hcompletes⟩
          rw [hlist, List.getElem?_append_left (List.getElem?_eq_some_iff.mp hu).1, hu]

/-- When a program is taken out of the frontier, another one that is due comes nearer. -/
theorem due_of_pop? {t : Term} {e : Enumerator} {p : Program} {frontier : Frontier} {n i : Nat}
    (hp : e.frontier.pop? = some (p.root, frontier)) (hdue : e.Due g t n i) :
    t = p.root ∨ ∃ k, k < i ∧ ({ e with frontier } : Enumerator).Due g t n k := by
  obtain ⟨u, hu, hcompletes⟩ := hdue
  rw [Frontier.toList_of_pop? hp] at hu
  cases i with
  | zero =>
      simp only [List.getElem?_cons_zero, Option.some.injEq] at hu
      subst hu
      exact Or.inl (hcompletes.eq_of_isComplete p.complete).2.symm
  | succ i =>
      rw [List.getElem?_cons_succ] at hu
      exact Or.inr ⟨i, by omega, u, hu, hcompletes⟩

theorem Turn.bound_eq {e e' : Enumerator} (h : Turn g e e') : e'.bound = e.bound := by
  cases h; rfl

theorem Ending.bound_eq {stop : Stop} {e e' : Enumerator} {answer : Except Fault (Option Program)}
    (h : Ending g stop e answer e') : e'.bound = e.bound := by
  cases h <;> rfl

/-- A call does not change the bound. -/
theorem bound_of_next {stop : Stop} {fuel : Nat} {e : Enumerator} {j : Journal} {pull : Pull}
    (h : next g stop fuel e j = some pull) : pull.rest.bound = e.bound := by
  obtain ⟨e', hturns, hend⟩ := next_cases h
  refine hend.bound_eq.trans ?_
  clear hend h
  induction hturns with
  | refl => rfl
  | tail _ hturn ih => exact hturn.bound_eq.trans ih

/-- A turn of a walk meets only what walks meet. -/
theorem Turn.met {e e' : Enumerator} (h : Turn g e e')
    (hmet : ∀ t ∈ e.frontier.toList, t.Met g e.bound s) :
    ∀ t ∈ e'.frontier.toList, t.Met g e'.bound s := by
  cases h with
  | @expand t₀ frontier terms hp hpartial hexp =>
      rw [Frontier.toList_of_pop? hp, List.forall_mem_cons] at hmet
      intro t ht
      rw [toList_enqueue] at ht
      rcases List.mem_append.mp ht with ht | ht
      · exact hmet.2 t ht
      · obtain ⟨hmem, hfits⟩ := List.mem_filter.mp ht
        exact .step hmet.1 ((Term.mem_expand_iff t₀ hexp).mp hmem) hfits

/-- A fresh enumerator owes everything that derives from its symbol. -/
theorem pending_ofSymbol {t : Term} (h : Derives g s t) (bound : Option Nat) :
    ((ofSymbol s).withBound bound).Pending g t := by
  obtain ⟨n, hn⟩ := h
  exact ⟨n, 0, _, rfl, hn⟩

end Enumerator

end Sygus
