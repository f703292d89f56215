import Sygus.Term

/-!
# Positions in a term

The **position** of a node is the way to it from the root, as the numbers of the children that
it goes through. What stands at which position is all there is to a term: two terms with the
same symbols at the same positions are equal (`ext_symbolAt?`).

Positions come with an order of visits. In `postorder` a node comes after its children, and
children come from left to right; every node is listed there with its symbol
(`mem_postorder_iff`).
-/

namespace Sygus.Term

/-- The node at a position, with all that is below it. -/
def at? : Term → List Nat → Option Term
  | t, [] => some t
  | node _ cs, i :: p => cs[i]?.bind (·.at? p)

/-- The symbol at a position. -/
def symbolAt? (t : Term) (p : List Nat) : Option Symbol := (t.at? p).map symbol

/-- The name at a position. -/
def nameAt? (t : Term) (p : List Nat) : Option String := (t.symbolAt? p).map Symbol.name

variable {s : Symbol} {cs : List Term} {t : Term} {i : Nat} {p : List Nat}

@[simp] theorem at?_nil : t.at? [] = some t := by
  cases t
  rfl

@[simp] theorem at?_cons : (node s cs).at? (i :: p) = cs[i]?.bind (·.at? p) := rfl

@[simp] theorem symbolAt?_nil : (node s cs).symbolAt? [] = some s := rfl

@[simp] theorem symbolAt?_cons :
    (node s cs).symbolAt? (i :: p) = cs[i]?.bind (·.symbolAt? p) := by
  rw [symbolAt?, at?_cons]
  cases cs[i]? <;> rfl

@[simp] theorem nameAt?_nil : (node s cs).nameAt? [] = some s.name := rfl

@[simp] theorem nameAt?_cons : (node s cs).nameAt? (i :: p) = cs[i]?.bind (·.nameAt? p) := by
  rw [nameAt?, symbolAt?_cons]
  cases cs[i]? <;> rfl

/-- A way that goes on. -/
theorem at?_append (t : Term) (p q : List Nat) : t.at? (p ++ q) = (t.at? p).bind (·.at? q) := by
  induction p generalizing t with
  | nil => rw [List.nil_append, at?_nil, Option.bind_some]
  | cons i p ih =>
      cases t with
      | node s cs =>
          rw [List.cons_append, at?_cons, at?_cons]
          cases cs[i]? with
          | none => rfl
          | some c => exact ih c

mutual

/-- **A term is what stands at its positions.** -/
theorem ext_symbolAt? : ∀ {t u : Term}, (∀ p, t.symbolAt? p = u.symbolAt? p) → t = u
  | node s cs, node s' ds, h => by
      have hs : s = s' := by simpa using h []
      have hcs : cs = ds := ext_all fun i p => by simpa using h (i :: p)
      rw [hs, hcs]

theorem ext_all : ∀ {cs ds : List Term},
    (∀ (i : Nat) p, cs[i]?.bind (symbolAt? · p) = ds[i]?.bind (symbolAt? · p)) → cs = ds
  | [], [], _ => rfl
  | [], node _ _ :: _, h => by simpa using h 0 []
  | node _ _ :: _, [], h => by simpa using h 0 []
  | c :: cs, d :: ds, h => by
      have hc : c = d := ext_symbolAt? fun p => by simpa using h 0 p
      have hcs : cs = ds := ext_all fun i p => by simpa using h (i + 1) p
      rw [hc, hcs]

end

/-! ## The order of visits -/

mutual

/-- All nodes by their positions, each with its symbol: a node after its children, and children
from left to right. -/
def postorder : Term → List (List Nat × Symbol)
  | node s cs => postorderFrom 0 cs ++ [([], s)]

/-- The same for children of which the first one has the number `i`. -/
def postorderFrom (i : Nat) : List Term → List (List Nat × Symbol)
  | [] => []
  | c :: cs => c.postorder.map (fun x => (i :: x.1, x.2)) ++ postorderFrom (i + 1) cs

end

mutual

/-- **Every node is visited, with its symbol.** -/
theorem mem_postorder_iff : ∀ (t : Term) {p : List Nat} {s : Symbol},
    (p, s) ∈ t.postorder ↔ t.symbolAt? p = some s
  | node s' cs, p, s => by
      rw [postorder, List.mem_append, mem_postorderFrom_iff cs, List.mem_singleton, Prod.mk.injEq]
      cases p with
      | nil => simp [eq_comm]
      | cons i p =>
          rw [symbolAt?_cons]
          refine ⟨?_, fun h => Or.inl ⟨i, p, by rw [Nat.zero_add], h⟩⟩
          rintro (⟨j, q, heq, hq⟩ | ⟨hnil, _⟩)
          · rw [Nat.zero_add] at heq
            cases heq
            exact hq
          · cases hnil

theorem mem_postorderFrom_iff : ∀ (cs : List Term) {i : Nat} {p : List Nat} {s : Symbol},
    (p, s) ∈ postorderFrom i cs
      ↔ ∃ j q, p = (i + j) :: q ∧ cs[j]?.bind (·.symbolAt? q) = some s
  | [], i, p, s => by simp [postorderFrom]
  | c :: cs, i, p, s => by
      rw [postorderFrom, List.mem_append, mem_postorderFrom_iff cs, List.mem_map]
      refine ⟨?_, ?_⟩
      · rintro (⟨⟨q, s'⟩, hq, heq⟩ | ⟨j, q, rfl, hq⟩)
        · cases heq
          exact ⟨0, q, rfl, (mem_postorder_iff c).mp hq⟩
        · exact ⟨j + 1, q, by rw [Nat.add_right_comm, Nat.add_assoc], by simpa using hq⟩
      · rintro ⟨j, q, rfl, hq⟩
        cases j with
        | zero => exact Or.inl ⟨(q, s), (mem_postorder_iff c).mpr (by simpa using hq), rfl⟩
        | succ j =>
            exact Or.inr ⟨j, q, by rw [Nat.add_right_comm, Nat.add_assoc], by simpa using hq⟩

end

mutual

/-- A term is complete if no non-terminal is met on the visits. -/
theorem isComplete_iff_postorder : ∀ (t : Term),
    t.isComplete = true ↔ ∀ x ∈ t.postorder, x.2.isTerminal = true
  | node s cs => by
      rw [isComplete, Bool.and_eq_true, allComplete_iff_postorderFrom cs (i := 0), postorder,
        List.forall_mem_append, List.forall_mem_singleton, and_comm]

theorem allComplete_iff_postorderFrom : ∀ (cs : List Term) {i : Nat},
    allComplete cs = true ↔ ∀ x ∈ postorderFrom i cs, x.2.isTerminal = true
  | [], i => by simp [allComplete, postorderFrom]
  | c :: cs, i => by
      rw [allComplete, Bool.and_eq_true, isComplete_iff_postorder c,
        allComplete_iff_postorderFrom cs (i := i + 1), postorderFrom, List.forall_mem_append,
        List.forall_mem_map]

end

/-- In a complete term only terminals stand anywhere. -/
theorem isTerminal_of_symbolAt? (ht : t.isComplete = true) (h : t.symbolAt? p = some s) :
    s.isTerminal = true :=
  (isComplete_iff_postorder t).mp ht _ ((mem_postorder_iff t).mpr h)

end Sygus.Term
