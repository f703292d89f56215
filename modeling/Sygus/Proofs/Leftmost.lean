import Mathlib.Logic.Relation
import Sygus.Proofs.Derivation

/-!
# Leftmost terms

Leftmost steps work on a term from the left, so beside an incomplete child there are only
complete ones on its left, and on its right what the production put there, which is
without children. Such terms are **leftmost**, and all that is reached by steps from a
symbol is.
-/

namespace Sygus

open Relation (ReflTransGen)

variable {g : Grammar}

namespace Term

mutual

/-- Whether leftmost steps can have led to the term. -/
def isLeftmost : Term → Bool
  | node (.nonTerminal _) cs => cs.isEmpty
  | node (.terminal _) cs => allLeftmost cs

/-- The same for the children of a node. -/
def allLeftmost : List Term → Bool
  | [] => true
  | c :: cs =>
    if c.isComplete then allLeftmost cs else c.isLeftmost && cs.all (·.children.isEmpty)

end

theorem isLeftmost_of_childless {t : Term} (h : t.children.isEmpty = true) :
    t.isLeftmost = true := by
  cases t with
  | node s cs =>
      rw [children, List.isEmpty_iff] at h
      subst h
      cases s <;> simp [isLeftmost, allLeftmost]

theorem allLeftmost_of_childless {cs : List Term} (h : cs.all (·.children.isEmpty) = true) :
    allLeftmost cs = true := by
  induction cs with
  | nil => rfl
  | cons c cs ih =>
      rw [List.all_cons, Bool.and_eq_true] at h
      rw [allLeftmost]
      split
      · exact ih h.2
      · rw [isLeftmost_of_childless h.1, h.2]
        rfl

theorem allLeftmost_of_allComplete {cs : List Term} (h : allComplete cs = true) :
    allLeftmost cs = true := by
  induction cs with
  | nil => rfl
  | cons c cs ih =>
      rw [allComplete, Bool.and_eq_true] at h
      rw [allLeftmost, if_pos h.1]
      exact ih h.2

theorem isLeftmost_of_isComplete {t : Term} (h : t.isComplete = true) : t.isLeftmost = true := by
  cases t with
  | node s cs =>
      rw [isComplete, Bool.and_eq_true] at h
      cases s with
      | terminal name => exact allLeftmost_of_allComplete h.2
      | nonTerminal name => simp [Symbol.isTerminal] at h

/-- The first child is complete, or the others have not been touched. -/
theorem allLeftmost_cons {c : Term} {cs : List Term} (h : allLeftmost (c :: cs) = true) :
    c.isLeftmost = true ∧ allLeftmost cs = true
      ∧ (c.isComplete = true ∨ cs.all (·.children.isEmpty) = true) := by
  rw [allLeftmost] at h
  split at h
  · rename_i hc
    exact ⟨isLeftmost_of_isComplete hc, h, Or.inl hc⟩
  · rw [Bool.and_eq_true] at h
    exact ⟨h.1, allLeftmost_of_childless h.2, Or.inr h.2⟩

/-- Of two operands of a leftmost term, one is complete or without children. -/
theorem allLeftmost_two {l r : Term} (h : allLeftmost [l, r] = true) :
    l.isLeftmost = true ∧ r.isLeftmost = true
      ∧ (l.isComplete = true ∨ r.children.isEmpty = true) := by
  obtain ⟨hl, hrest, hbeside⟩ := allLeftmost_cons h
  obtain ⟨hr, _, _⟩ := allLeftmost_cons hrest
  exact ⟨hl, hr, hbeside.imp_right fun h => by simpa using h⟩

mutual

/-- Leftmost steps lead from leftmost terms to leftmost terms. -/
theorem Expands.isLeftmost {t u : Term} (h : Expands g t u) (ht : t.isLeftmost = true) :
    u.isLeftmost = true := by
  cases h with
  | @hole _ _ p _ _ _ =>
      refine allLeftmost_of_childless ?_
      simp [leaf, children]
  | @child s cs cs' hcs =>
      cases s with
      | terminal name => exact hcs.allLeftmost ht
      | nonTerminal name =>
          rw [Term.isLeftmost, List.isEmpty_iff] at ht
          subst ht
          cases hcs

theorem ExpandsFirst.allLeftmost {cs cs' : List Term} (h : ExpandsFirst g cs cs')
    (hcs : allLeftmost cs = true) : Term.allLeftmost cs' = true := by
  cases h with
  | here hpartial hstep =>
      rw [Term.allLeftmost, if_neg (by simp [hpartial]), Bool.and_eq_true] at hcs
      rw [Term.allLeftmost]
      split
      · exact allLeftmost_of_childless hcs.2
      · rw [hstep.isLeftmost hcs.1, hcs.2]
        rfl
  | later hcomplete hrest =>
      rw [Term.allLeftmost, if_pos hcomplete] at hcs ⊢
      exact hrest.allLeftmost hcs

end

/-- **Whatever leftmost steps lead to from a symbol is leftmost.** -/
theorem isLeftmost_of_reachable {s : Symbol} {t : Term}
    (h : ReflTransGen (Expands g) (leaf s) t) : t.isLeftmost = true := by
  induction h with
  | refl => exact isLeftmost_of_childless rfl
  | tail _ hstep ih => exact hstep.isLeftmost ih

theorem isBare_of_reachable {s : Symbol} {t : Term} (h : ReflTransGen (Expands g) (leaf s) t) :
    t.isBare = true := by
  induction h with
  | refl => exact isBare_leaf s
  | tail _ hstep ih => exact hstep.isBare ih

/-- Steps that end in a complete term complete the term they begin with. -/
theorem exists_completes_of_steps {t u : Term} (h : ReflTransGen (Expands g) t u)
    (ht : t.isBare = true) (hu : u.isComplete = true) : ∃ n, Completes g n t u := by
  induction h using ReflTransGen.head_induction_on with
  | refl => exact ⟨0, completes_self hu⟩
  | head hstep _ ih =>
      obtain ⟨n, hn⟩ := ih (hstep.isBare ht)
      exact ⟨n + 1, .of_expands hstep ht hn⟩

end Term

end Sygus
