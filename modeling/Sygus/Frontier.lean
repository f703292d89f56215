import Sygus.Term

/-!
# Frontiers

The terms that a search still has to look at, first in, first out. The queue is
held as two lists, the second one reversed; `toList` is what it means.
-/

namespace Sygus

/-- A queue of terms. -/
structure Frontier where
  /-- The terms to be taken next. -/
  front : List Term
  /-- The terms to be taken after those, the last one first. -/
  back : List Term
  deriving DecidableEq

namespace Frontier

/-- The terms in the order in which they will be taken. -/
def toList (q : Frontier) : List Term := q.front ++ q.back.reverse

/-- A queue of one term. -/
def singleton (t : Term) : Frontier := ⟨[t], []⟩

/-- The first term and the rest of the queue. -/
def pop? (q : Frontier) : Option (Term × Frontier) :=
  match q.front with
  | t :: front => some (t, ⟨front, q.back⟩)
  | [] =>
    match q.back.reverse with
    | [] => none
    | t :: front => some (t, ⟨front, []⟩)

/-- Terms join at the end, in their order. -/
def append (q : Frontier) (terms : List Term) : Frontier :=
  ⟨q.front, terms.reverse ++ q.back⟩

@[simp] theorem toList_singleton (t : Term) : (singleton t).toList = [t] := rfl

@[simp] theorem toList_append (q : Frontier) (terms : List Term) :
    (q.append terms).toList = q.toList ++ terms := by
  simp [append, toList]

theorem pop?_eq_none_iff {q : Frontier} : q.pop? = none ↔ q.toList = [] := by
  rcases q with ⟨_ | ⟨t, front⟩, back⟩
  · rcases h : back.reverse with _ | ⟨t, rest⟩ <;> simp [pop?, toList, h]
  · simp [pop?, toList]

theorem toList_of_pop? {q rest : Frontier} {t : Term} (h : q.pop? = some (t, rest)) :
    q.toList = t :: rest.toList := by
  rcases q with ⟨_ | ⟨u, front⟩, back⟩
  · rcases hb : back.reverse with _ | ⟨u, more⟩
    · simp [pop?, hb] at h
    · simp only [pop?, hb, Option.some.injEq, Prod.mk.injEq] at h
      simp [toList, hb, ← h.1, ← h.2]
  · simp only [pop?, Option.some.injEq, Prod.mk.injEq] at h
    simp [toList, ← h.1, ← h.2]

/-- What is taken was in the queue. -/
theorem mem_of_pop? {q rest : Frontier} {t : Term} (h : q.pop? = some (t, rest)) :
    t ∈ q.toList := by
  rw [toList_of_pop? h]
  exact List.mem_cons_self

theorem exists_pop? {q : Frontier} {t : Term} {terms : List Term} (h : q.toList = t :: terms) :
    ∃ rest, q.pop? = some (t, rest) ∧ rest.toList = terms := by
  cases hp : q.pop? with
  | none =>
    rw [pop?_eq_none_iff.mp hp] at h
    cases h
  | some r =>
    rw [toList_of_pop? hp] at h
    cases h
    exact ⟨r.2, rfl, rfl⟩

end Frontier

end Sygus
