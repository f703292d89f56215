import Mathlib.Data.List.Forall2
import Mathlib.Logic.Relation
import Sygus.Proofs.Derivation
import Sygus.Proofs.Evaluation.Visits

/-!
# Evaluating a term before it is finished

What a term evaluates to is **settled** if it is anything but the complaint about a hole, be it a
value or a fault. Expanding the term does not change what is settled: evaluation has not come by any
hole, and what it came by stays.

An outcome **anticipates** another one if they are equal once it is settled. This goes through a
sequence of computations (`Anticipates.bind`), so through every operator, whichever of its arguments
it looks at: a node anticipates another one with the same symbol if its children do
(`foretells_node`). Only a hole may become a node with another symbol, and nothing about a hole is
settled.
-/

namespace Sygus

open Relation (ReflTransGen)

/-- The first outcome is a complaint about a hole, or the second one is the same. -/
def Anticipates {α : Type} (x y : Except Fault α) : Prop :=
  (∃ w, x = .error (.incompleteTerm w)) ∨ y = x

namespace Anticipates

variable {α β : Type} {x y z : Except Fault α} {f g : α → Except Fault β}

theorem refl (x : Except Fault α) : Anticipates x x := Or.inr rfl

theorem trans (hxy : Anticipates x y) (hyz : Anticipates y z) : Anticipates x z := by
  rcases hxy with hx | rfl
  · exact Or.inl hx
  · exact hyz

/-- If the first part is settled, then the second part decides. -/
theorem bind (hx : Anticipates x y) (hf : ∀ v, Anticipates (f v) (g v)) :
    Anticipates (x >>= f) (y >>= g) := by
  rcases hx with ⟨w, rfl⟩ | rfl
  · exact Or.inl ⟨w, rfl⟩
  · cases y with
    | error fault => exact refl (.error fault)
    | ok v => exact hf v

theorem eq_of_settled (h : Anticipates x y) (hx : ∀ w, x ≠ .error (.incompleteTerm w)) : y = x := by
  rcases h with ⟨w, hw⟩ | h
  · exact absurd hw (hx w)
  · exact h

end Anticipates

namespace Term

variable {g : Grammar} {s : Symbol} {cs cs' : List Term} {t u v w : Term} {a : Assignment}

/-- What the first term evaluates to anticipates what the second one does. -/
def Foretells (t u : Term) : Prop :=
  ∀ a, Anticipates (t.value a) (u.value a) ∧ Anticipates (t.truth a) (u.truth a)

theorem Foretells.refl (t : Term) : Foretells t t := fun _ => ⟨.refl _, .refl _⟩

theorem Foretells.trans (htu : Foretells t u) (huv : Foretells u v) : Foretells t v :=
  fun a => ⟨(htu a).1.trans (huv a).1, (htu a).2.trans (huv a).2⟩

/-- Nothing about a hole is settled. -/
theorem foretells_hole {category : String} : Foretells (node (.nonTerminal category) cs) u :=
  fun _ => ⟨Or.inl ⟨_, by rw [value]⟩, Or.inl ⟨_, by rw [truth]⟩⟩

theorem anticipates_value_node {name : String} (h : List.Forall₂ Foretells cs cs')
    (a : Assignment) :
    Anticipates ((node (.terminal name) cs).value a) ((node (.terminal name) cs').value a) := by
  cases intForm name cs with
  | ite hop =>
      rcases h with _ | ⟨hc, _ | ⟨ht, _ | ⟨he, _ | _⟩⟩⟩
      rw [value_ite hop, value_ite hop]
      refine (hc a).2.bind fun b => ?_
      cases b with
      | true => exact (ht a).1
      | false => exact (he a).1
  | add hop =>
      rcases h with _ | ⟨hl, _ | ⟨hr, _ | _⟩⟩
      rw [value_add hop, value_add hop]
      exact (hl a).1.bind fun _ => (hr a).1.bind fun _ => .refl _
  | multiply hop =>
      rcases h with _ | ⟨hl, _ | ⟨hr, _ | _⟩⟩
      rw [value_multiply hop, value_multiply hop]
      exact (hl a).1.bind fun _ => (hr a).1.bind fun _ => .refl _
  | var hop | literal hop =>
      cases h
      exact .refl _
  | misplaced hop hargs =>
      -- the fault counts the arguments, and there are as many as before
      have hargs' := hargs
      rw [h.length_eq] at hargs'
      rw [value_misplaced hop hargs, value_misplaced hop hargs', h.length_eq]
      exact .refl _
  | unknown hop =>
      rw [value_unknown hop, value_unknown hop]
      exact .refl _

theorem anticipates_truth_node {name : String} (h : List.Forall₂ Foretells cs cs')
    (a : Assignment) :
    Anticipates ((node (.terminal name) cs).truth a) ((node (.terminal name) cs').truth a) := by
  cases boolForm name cs with
  | lt hop =>
      rcases h with _ | ⟨hl, _ | ⟨hr, _ | _⟩⟩
      rw [truth_lt hop, truth_lt hop]
      exact (hl a).1.bind fun _ => (hr a).1.bind fun _ => .refl _
  | eq hop =>
      rcases h with _ | ⟨hl, _ | ⟨hr, _ | _⟩⟩
      rw [truth_eq hop, truth_eq hop]
      exact (hl a).1.bind fun _ => (hr a).1.bind fun _ => .refl _
  | and hop =>
      rcases h with _ | ⟨hl, _ | ⟨hr, _ | _⟩⟩
      rw [truth_and hop, truth_and hop]
      refine (hl a).2.bind fun b => ?_
      cases b with
      | true => exact (hr a).2
      | false => exact .refl _
  | or hop =>
      rcases h with _ | ⟨hl, _ | ⟨hr, _ | _⟩⟩
      rw [truth_or hop, truth_or hop]
      refine (hl a).2.bind fun b => ?_
      cases b with
      | true => exact .refl _
      | false => exact (hr a).2
  | not hop =>
      rcases h with _ | ⟨ht, _ | _⟩
      rw [truth_not hop, truth_not hop]
      exact (ht a).2.bind fun _ => .refl _
  | misplaced hop hargs =>
      have hargs' := hargs
      rw [h.length_eq] at hargs'
      rw [truth_misplaced hop hargs, truth_misplaced hop hargs', h.length_eq]
      exact .refl _
  | unknown hop =>
      rw [truth_unknown hop, truth_unknown hop]
      exact .refl _

/-- A node looks at its children only, and at a child only for what it evaluates to. -/
theorem foretells_node (h : List.Forall₂ Foretells cs cs') :
    Foretells (node s cs) (node s cs') := by
  cases s with
  | nonTerminal category => exact foretells_hole
  | terminal name => exact fun a => ⟨anticipates_value_node h a, anticipates_truth_node h a⟩

mutual

/-- A step changes nothing that is settled. -/
theorem Expands.foretells {t u : Term} (h : Expands g t u) : Foretells t u := by
  cases h with
  | hole _ _ _ => exact foretells_hole
  | child h => exact foretells_node h.foretells

theorem ExpandsFirst.foretells {cs cs' : List Term} (h : ExpandsFirst g cs cs') :
    List.Forall₂ Foretells cs cs' := by
  cases h with
  | here _ h => exact .cons h.foretells (List.forall₂_same.mpr fun c _ => .refl c)
  | later _ h => exact .cons (.refl _) h.foretells

end

/-- Neither does a sequence of steps. -/
theorem foretells_of_steps (h : ReflTransGen (Expands g) t u) : Foretells t u := by
  induction h with
  | refl => exact .refl t
  | tail _ hstep ih => exact ih.trans hstep.foretells

/-- A complete term has no hole to visit. -/
theorem isNonTerminal_of_visited (ht : t.isComplete = true)
    (h : Visited a w t) : w.symbol.isNonTerminal = false := by
  obtain ⟨p, hp⟩ := exists_at?_of_visited h
  have hterminal := isTerminal_of_symbolAt? ht (by rw [symbolAt?, hp, Option.map_some])
  cases hw : w.symbol with
  | terminal name => rfl
  | nonTerminal category =>
      rw [hw] at hterminal
      cases hterminal

/--
**What a term evaluates to early is final.**

If a term with holes, or without, has a value or a fault other than the complaint about a hole, then
all that is reached from it by steps has the same value or the same fault. The complaint is made
exactly if evaluation visits a hole, and that hole is the one complained about; so it is never made
about a complete term. The same holds of truth values.
-/
theorem settled_outcome_is_final (g : Grammar) (a : Assignment) (t : Term) :
    (∀ u, ReflTransGen (Expands g) t u →
        ((∀ w, t.value a ≠ .error (.incompleteTerm w)) → u.value a = t.value a)
        ∧ ((∀ w, t.truth a ≠ .error (.incompleteTerm w)) → u.truth a = t.truth a))
      ∧ (∀ w, t.value a = .error (.incompleteTerm w)
          ↔ w ∈ t.valueVisits a ∧ w.symbol.isNonTerminal = true)
      ∧ (∀ w, t.truth a = .error (.incompleteTerm w)
          ↔ w ∈ t.truthVisits a ∧ w.symbol.isNonTerminal = true)
      ∧ (t.isComplete = true → ∀ w, t.value a ≠ .error (.incompleteTerm w)
          ∧ t.truth a ≠ .error (.incompleteTerm w)) := by
  obtain ⟨hvalue, htruth⟩ := reported a t
  refine ⟨fun u hu => ?_, hvalue, htruth, fun ht w => ⟨?_, ?_⟩⟩
  · obtain ⟨hv, hb⟩ := foretells_of_steps hu a
    exact ⟨hv.eq_of_settled, hb.eq_of_settled⟩
  · rw [Ne, hvalue w]
    rintro ⟨hw, hkind⟩
    rw [isNonTerminal_of_visited ht (Or.inl hw)] at hkind
    cases hkind
  · rw [Ne, htruth w]
    rintro ⟨hw, hkind⟩
    rw [isNonTerminal_of_visited ht (Or.inr hw)] at hkind
    cases hkind

/-- A term with a hole, which has a child of its own, in the branch that is not taken. -/
def undecided : Term :=
  op "Ite" [op "Lt" [atom "1", atom "2"], atom "3", node (.nonTerminal "E") [atom "x"]]

/-- The term has a value before the hole is filled. A hole that is visited is complained about, but
not if a fault comes before it. -/
theorem settled_outcome_is_final_undecided :
    (∀ u, ReflTransGen (Expands .arithmetic) undecided u → u.value .empty = .ok 3)
      ∧ ReflTransGen (Expands .arithmetic) undecided
          (op "Ite" [op "Lt" [atom "1", atom "2"], atom "3", atom "y"])
      ∧ (∀ u, ReflTransGen (Expands .arithmetic) (op "Add" [atom "y", leaf (.nonTerminal "E")]) u →
          u.value .empty = .error (.undefinedVariable "y"))
      ∧ (op "Add" [atom "1", leaf (.nonTerminal "E")]).value .empty
          = .error (.incompleteTerm (leaf (.nonTerminal "E"))) := by
  have hy : Production.leaf "E" "y" ∈ Grammar.arithmetic.productions := by decide
  refine ⟨fun u hu => ?_, ?_, fun u hu => ?_, ?_⟩
  · exact (((settled_outcome_is_final .arithmetic .empty undecided).1 u hu).1 (by nofun)).trans rfl
  · exact .single (.child (.later rfl (.later rfl (.here rfl (.hole rfl hy rfl)))))
  · exact (((settled_outcome_is_final .arithmetic .empty _).1 u hu).1 (by nofun)).trans rfl
  · exact ((settled_outcome_is_final .arithmetic .empty _).2.1 _).mpr ⟨by decide, rfl⟩

end Term

end Sygus
