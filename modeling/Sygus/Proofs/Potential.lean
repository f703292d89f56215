import Mathlib.Logic.Hydra
import Sygus.Proofs.Accounting

/-!
# A bound on depth makes walks end

A hole that stands at a certain level can be replaced by no more holes than a production
has arguments, and those stand one level lower. Below the bound there is no level left, so
the holes of a term carry a **potential**, more the higher they stand, that every step
within the bound lowers.

A turn of a bounded walk then cuts one term off the frontier and grows finitely many terms
of lower potential, and taking a term out grows none. That is a game of hydra, and it ends
whatever the frontier is that it begins with.
-/

namespace Sygus

open Relation (CutExpand)

variable {g : Grammar}

namespace Grammar

/-- The greatest number of arguments of a production. -/
def breadth (g : Grammar) : Nat := (g.productions.map (·.args.length)).foldr max 0

theorem length_args_le {p : Production} (hp : p ∈ g.productions) : p.args.length ≤ g.breadth := by
  unfold breadth
  generalize g.productions = ps at hp ⊢
  induction ps with
  | nil => simp at hp
  | cons q ps ih =>
      rw [List.map_cons, List.foldr_cons]
      rcases List.mem_cons.mp hp with rfl | hp
      · exact Nat.le_max_left _ _
      · exact Nat.le_trans (ih hp) (Nat.le_max_right _ _)

/-- What a hole weighs that has so many levels below it. -/
def weight (g : Grammar) : Nat → Nat
  | 0 => 1
  | below + 1 => g.breadth * g.weight below + 1

theorem weight_pos (below : Nat) : 0 < g.weight below := by
  cases below with
  | zero => simp [weight]
  | succ below => simp [weight]

end Grammar

namespace Term

mutual

/-- The weight of all holes of a term that may grow so many levels below its root. -/
def potential (g : Grammar) (below : Nat) : Term → Nat
  | node s cs => (if s.isTerminal then 0 else g.weight below) + totalPotential g (below - 1) cs

/-- The weight of all holes of a list of terms. -/
def totalPotential (g : Grammar) (below : Nat) : List Term → Nat
  | [] => 0
  | c :: cs => c.potential g below + totalPotential g below cs

end

/-- Fresh arguments weigh no more than one hole for each of them. -/
theorem totalPotential_leaves_le (below : Nat) (args : List Symbol) :
    totalPotential g below (args.map leaf) ≤ args.length * g.weight below := by
  induction args with
  | nil => simp [totalPotential]
  | cons s args ih =>
      rw [List.map_cons, totalPotential, List.length_cons, Nat.succ_mul]
      have hleaf : (leaf s).potential g below ≤ g.weight below := by
        rw [leaf, potential, totalPotential]
        split <;> omega
      omega

theorem maxDepth_pos {c : Term} {cs : List Term} : 1 ≤ maxDepth (c :: cs) := by
  rw [maxDepth]
  exact Nat.le_trans (depth_pos c) (Nat.le_max_left _ _)

mutual

/-- **Every step within the bound lowers the potential.** -/
theorem Expands.potential_lt {below : Nat} {t u : Term} (h : Expands g t u)
    (hu : u.depth ≤ below + 1) : u.potential g below < t.potential g below := by
  cases h with
  | @hole category cs p _ hp _ =>
      rw [Production.term, depth] at hu
      rw [Production.term, potential, potential]
      simp only [Production.operatorSymbol, Symbol.isTerminal, if_true, Bool.false_eq_true,
        if_false]
      have hpos := g.weight_pos below
      cases hargs : p.args with
      | nil =>
          rw [List.map_nil, totalPotential]
          omega
      | cons s args =>
          -- there are arguments, so there is a level below for them
          rw [hargs, List.map_cons] at hu
          have hdeep : 1 ≤ maxDepth (leaf s :: args.map leaf) := maxDepth_pos
          obtain ⟨b, rfl⟩ : ∃ b, below = b + 1 := ⟨below - 1, by omega⟩
          have hle := totalPotential_leaves_le (g := g) b p.args
          have hmul := Nat.mul_le_mul_right (g.weight b) (g.length_args_le hp)
          rw [hargs] at hle hmul
          rw [Nat.add_sub_cancel, Grammar.weight]
          omega
  | @child s cs cs' hcs =>
      rw [depth] at hu
      rw [potential, potential]
      have hpos : 1 ≤ maxDepth cs' := by
        cases hcs with
        | here _ _ => exact maxDepth_pos
        | later _ _ => exact maxDepth_pos
      obtain ⟨b, rfl⟩ : ∃ b, below = b + 1 := ⟨below - 1, by omega⟩
      rw [Nat.add_sub_cancel]
      exact Nat.add_lt_add_left (hcs.totalPotential_lt (by omega)) _

theorem ExpandsFirst.totalPotential_lt {below : Nat} {cs cs' : List Term}
    (h : ExpandsFirst g cs cs') (hu : maxDepth cs' ≤ below + 1) :
    totalPotential g below cs' < totalPotential g below cs := by
  cases h with
  | here _ hstep =>
      rw [maxDepth] at hu
      rw [totalPotential, totalPotential]
      have := hstep.potential_lt (Nat.le_trans (Nat.le_max_left _ _) hu)
      omega
  | later _ hstep =>
      rw [maxDepth] at hu
      rw [totalPotential, totalPotential]
      have := hstep.totalPotential_lt (Nat.le_trans (Nat.le_max_right _ _) hu)
      omega

end

/-- Having a lower potential, under a bound. -/
def Lower (g : Grammar) (d : Nat) (u t : Term) : Prop :=
  u.potential g (d - 1) < t.potential g (d - 1)

theorem wellFounded_lower (d : Nat) : WellFounded (Lower g d) :=
  InvImage.wf _ Nat.lt_wfRel.wf

/-- What a step leads to within the bound has a lower potential. -/
theorem Expands.lower {d : Nat} {t u : Term} (h : Expands g t u)
    (hfits : u.fits (some d) = true) : Lower g d u t := by
  have hdepth : u.depth ≤ d := by simpa [fits] using hfits
  have hpos := depth_pos u
  exact h.potential_lt (by omega)

/-- Trading the first of some terms for lower ones at the end is a move in the game of hydra. -/
theorem cutExpand_append {d : Nat} {t : Term} {rest terms : List Term}
    (h : ∀ u ∈ terms, Lower g d u t) :
    CutExpand (Lower g d) ((rest ++ terms : List Term) : Multiset Term) (t :: rest : List Term) := by
  refine ⟨(terms : Multiset Term), t, fun u hu => h u (Multiset.mem_coe.mp hu), ?_⟩
  simp only [← Multiset.coe_add, ← Multiset.cons_coe, ← Multiset.singleton_add]
  ac_rfl

end Term

/-- The frontier of an enumerator as heads of a hydra. -/
def Enumerator.heads (e : Enumerator) : Multiset Term := e.frontier.toList

/-- **A bounded turn cuts one head off and grows only smaller ones.** -/
theorem Enumerator.Turn.cutExpand {d : Nat} {e e' : Enumerator} (h : Turn g e e')
    (hd : e.bound = some d) : CutExpand (Term.Lower g d) e'.heads e.heads := by
  cases h with
  | @expand t frontier terms hp hpartial hexp =>
      unfold heads
      rw [toList_enqueue, Frontier.toList_of_pop? hp]
      refine Term.cutExpand_append ?_
      intro u hu
      obtain ⟨hmem, hfits⟩ := List.mem_filter.mp hu
      rw [hd] at hfits
      exact ((Term.mem_expand_iff t hexp).mp hmem).lower hfits

/-- Taking a term out cuts one head off and grows none. -/
theorem Enumerator.cutExpand_of_pop? {d : Nat} {e : Enumerator} {t : Term} {frontier : Frontier}
    (hp : e.frontier.pop? = some (t, frontier)) :
    CutExpand (Term.Lower g d) ({ e with frontier } : Enumerator).heads e.heads := by
  have hcut : CutExpand (Term.Lower g d) ((frontier.toList ++ [] : List Term) : Multiset Term)
      (t :: frontier.toList : List Term) := Term.cutExpand_append (by simp)
  rw [List.append_nil] at hcut
  unfold heads
  rwa [Frontier.toList_of_pop? hp]

/-- **Stirring a bounded pool ends.** -/
theorem Pool.acc_stir_of_bounded {problem : Problem} {d : Nat} {p : Pool}
    (hd : p.source.bound = some d) : Acc (fun a b => Stir problem b a) p := by
  have hwf := (Term.wellFounded_lower (g := problem.grammar) d).cutExpand
  generalize hm : p.source.heads = m
  induction m using hwf.induction generalizing p with
  | _ m ih =>
      subst hm
      refine Acc.intro _ ?_
      intro p' hstir
      cases hstir with
      | @turn e hturn => exact ih _ (hturn.cutExpand hd) (hturn.bound_eq.trans hd) rfl
      | spurn hp _ _ => exact ih _ (Enumerator.cutExpand_of_pop? hp) hd rfl

end Sygus
