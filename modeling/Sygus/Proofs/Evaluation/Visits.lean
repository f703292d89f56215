import Sygus.Proofs.Evaluation.Forms
import Sygus.Proofs.Faults
import Sygus.Proofs.Positions

/-!
# What evaluation visits

Evaluation is lazy and gives up at the first fault, so it does not come by all of a term. Its
**visits** are listed here beside it: a node before its arguments, an argument only if those before
it have been evaluated and did not make it needless.

Evaluation complains about an incomplete term exactly if it has visited a hole, and the complaint is
about that hole (`Term.reported`). Evaluation stops there, so there is one hole among the visits at
most.
-/

namespace Sygus

/-- The visits after something has been computed: none if that failed. -/
def visitsAfter {α : Type} (x : Except Fault α) (visits : α → List Term) : List Term :=
  match x with
  | .ok v => visits v
  | .error _ => []

@[simp] theorem visitsAfter_ok {α : Type} (v : α) (visits : α → List Term) :
    visitsAfter (.ok v) visits = visits v := rfl

theorem mem_visitsAfter {α : Type} {x : Except Fault α} {visits : α → List Term} {w : Term} :
    w ∈ visitsAfter x visits ↔ ∃ v, x = .ok v ∧ w ∈ visits v := by
  cases x with
  | error fault => simp [visitsAfter]
  | ok v => simp [visitsAfter]

namespace Term

mutual

/-- The terms that are visited when a term is evaluated to an integer. -/
def valueVisits (a : Assignment) : Term → List Term
  | node (.nonTerminal category) args => [node (.nonTerminal category) args]
  | node (.terminal name) args =>
    node (.terminal name) args :: match IntOp.ofName? name, args with
      | some .ite, [c, t, e] =>
        c.truthVisits a
          ++ visitsAfter (c.truth a) fun b => if b then t.valueVisits a else e.valueVisits a
      | some .add, [l, r] => l.valueVisits a ++ visitsAfter (l.value a) fun _ => r.valueVisits a
      | some .multiply, [l, r] =>
        l.valueVisits a ++ visitsAfter (l.value a) fun _ => r.valueVisits a
      | _, _ => []

/-- The terms that are visited when a term is evaluated to a truth value. -/
def truthVisits (a : Assignment) : Term → List Term
  | node (.nonTerminal category) args => [node (.nonTerminal category) args]
  | node (.terminal name) args =>
    node (.terminal name) args :: match BoolOp.ofName? name, args with
      | some .lt, [l, r] => l.valueVisits a ++ visitsAfter (l.value a) fun _ => r.valueVisits a
      | some .eq, [l, r] => l.valueVisits a ++ visitsAfter (l.value a) fun _ => r.valueVisits a
      | some .and, [l, r] =>
        l.truthVisits a ++ visitsAfter (l.truth a) fun b => if b then r.truthVisits a else []
      | some .or, [l, r] =>
        l.truthVisits a ++ visitsAfter (l.truth a) fun b => if b then [] else r.truthVisits a
      | some .not, [t] => t.truthVisits a
      | _, _ => []

end

variable {a : Assignment} {name category : String} {s : Symbol} {args : List Term}
  {c t e l r w : Term}

/-! ## Visits, form by form -/

-- the equations of both functions are derived here, once for all forms
attribute [local simp] valueVisits truthVisits

theorem valueVisits_ite (hop : IntOp.ofName? name = some .ite) :
    (node (.terminal name) [c, t, e]).valueVisits a = node (.terminal name) [c, t, e] ::
      (c.truthVisits a
        ++ visitsAfter (c.truth a) fun b => if b then t.valueVisits a else e.valueVisits a) := by
  simp only [valueVisits, hop]

theorem valueVisits_add (hop : IntOp.ofName? name = some .add) :
    (node (.terminal name) [l, r]).valueVisits a = node (.terminal name) [l, r] ::
      (l.valueVisits a ++ visitsAfter (l.value a) fun _ => r.valueVisits a) := by
  simp only [valueVisits, hop]

theorem valueVisits_multiply (hop : IntOp.ofName? name = some .multiply) :
    (node (.terminal name) [l, r]).valueVisits a = node (.terminal name) [l, r] ::
      (l.valueVisits a ++ visitsAfter (l.value a) fun _ => r.valueVisits a) := by
  simp only [valueVisits, hop]

theorem valueVisits_unknown (hop : IntOp.ofName? name = none) :
    (node (.terminal name) args).valueVisits a = [node (.terminal name) args] := by
  unfold valueVisits
  simp only [hop]

theorem valueVisits_nil :
    (node (.terminal name) []).valueVisits a = [node (.terminal name) []] := by
  unfold valueVisits
  split <;> simp_all

theorem valueVisits_misplaced {op : IntOp} (hop : IntOp.ofName? name = some op)
    (hargs : args.length ≠ op.arity) :
    (node (.terminal name) args).valueVisits a = [node (.terminal name) args] := by
  unfold valueVisits
  split <;> cases op <;> simp_all [IntOp.arity]

theorem truthVisits_lt (hop : BoolOp.ofName? name = some .lt) :
    (node (.terminal name) [l, r]).truthVisits a = node (.terminal name) [l, r] ::
      (l.valueVisits a ++ visitsAfter (l.value a) fun _ => r.valueVisits a) := by
  simp only [truthVisits, hop]

theorem truthVisits_eq (hop : BoolOp.ofName? name = some .eq) :
    (node (.terminal name) [l, r]).truthVisits a = node (.terminal name) [l, r] ::
      (l.valueVisits a ++ visitsAfter (l.value a) fun _ => r.valueVisits a) := by
  simp only [truthVisits, hop]

theorem truthVisits_and (hop : BoolOp.ofName? name = some .and) :
    (node (.terminal name) [l, r]).truthVisits a = node (.terminal name) [l, r] ::
      (l.truthVisits a ++ visitsAfter (l.truth a) fun b => if b then r.truthVisits a else []) := by
  simp only [truthVisits, hop]

theorem truthVisits_or (hop : BoolOp.ofName? name = some .or) :
    (node (.terminal name) [l, r]).truthVisits a = node (.terminal name) [l, r] ::
      (l.truthVisits a ++ visitsAfter (l.truth a) fun b => if b then [] else r.truthVisits a) := by
  simp only [truthVisits, hop]

theorem truthVisits_not (hop : BoolOp.ofName? name = some .not) :
    (node (.terminal name) [t]).truthVisits a = node (.terminal name) [t] :: t.truthVisits a := by
  simp only [truthVisits, hop]

theorem truthVisits_unknown (hop : BoolOp.ofName? name = none) :
    (node (.terminal name) args).truthVisits a = [node (.terminal name) args] := by
  unfold truthVisits
  simp only [hop]

theorem truthVisits_misplaced {op : BoolOp} (hop : BoolOp.ofName? name = some op)
    (hargs : args.length ≠ op.arity) :
    (node (.terminal name) args).truthVisits a = [node (.terminal name) args] := by
  unfold truthVisits
  split <;> cases op <;> simp_all [BoolOp.arity]

/-! ## Where visits are -/

/-- What is visited comes first, or after something has been computed. -/
theorem mem_visits_then {α : Type} {x : Except Fault α} {visits : List Term}
    {next : α → List Term} (h : w ∈ visits ++ visitsAfter x next) :
    w ∈ visits ∨ ∃ v, w ∈ next v := by
  rw [List.mem_append, mem_visitsAfter] at h
  exact h.imp_right fun ⟨v, _, hw⟩ => ⟨v, hw⟩

/-- The term is visited when another one is evaluated. -/
def Visited (a : Assignment) (w t : Term) : Prop := w ∈ t.valueVisits a ∨ w ∈ t.truthVisits a

/-- A visit is at the node or below a child. -/
theorem eq_or_visited_child (h : Visited a w (node s args)) :
    w = node s args ∨ ∃ c ∈ args, Visited a w c := by
  cases s with
  | nonTerminal category =>
      rw [Visited, valueVisits, truthVisits, or_self, List.mem_singleton] at h
      exact Or.inl h
  | terminal name =>
      rcases h with hvalue | htruth
      · cases intForm name args with
        | @ite c t e hop =>
            rw [valueVisits_ite hop, List.mem_cons] at hvalue
            refine hvalue.imp_right fun h => ?_
            rcases mem_visits_then h with hc | ⟨b, hb⟩
            · exact ⟨c, by simp, Or.inr hc⟩
            · cases b with
              | true => exact ⟨t, by simp, Or.inl hb⟩
              | false => exact ⟨e, by simp, Or.inl hb⟩
        | @add l r hop | @multiply l r hop =>
            simp only [valueVisits_add, valueVisits_multiply, hop, List.mem_cons] at hvalue
            refine hvalue.imp_right fun h => ?_
            rcases mem_visits_then h with hl | ⟨_, hr⟩
            · exact ⟨l, by simp, Or.inl hl⟩
            · exact ⟨r, by simp, Or.inl hr⟩
        | var hop | literal hop =>
            rw [valueVisits_nil, List.mem_singleton] at hvalue
            exact Or.inl hvalue
        | misplaced hop hargs =>
            rw [valueVisits_misplaced hop hargs, List.mem_singleton] at hvalue
            exact Or.inl hvalue
        | unknown hop =>
            rw [valueVisits_unknown hop, List.mem_singleton] at hvalue
            exact Or.inl hvalue
      · cases boolForm name args with
        | @lt l r hop | @eq l r hop =>
            simp only [truthVisits_lt, truthVisits_eq, hop, List.mem_cons] at htruth
            refine htruth.imp_right fun h => ?_
            rcases mem_visits_then h with hl | ⟨_, hr⟩
            · exact ⟨l, by simp, Or.inl hl⟩
            · exact ⟨r, by simp, Or.inl hr⟩
        | @and l r hop | @or l r hop =>
            simp only [truthVisits_and, truthVisits_or, hop, List.mem_cons] at htruth
            refine htruth.imp_right fun h => ?_
            rcases mem_visits_then h with hl | ⟨b, hr⟩
            · exact ⟨l, by simp, Or.inr hl⟩
            · refine ⟨r, by simp, Or.inr ?_⟩
              cases b <;> simp_all
        | @not t hop =>
            rw [truthVisits_not hop, List.mem_cons] at htruth
            exact htruth.imp_right fun h => ⟨t, by simp, Or.inr h⟩
        | misplaced hop hargs =>
            rw [truthVisits_misplaced hop hargs, List.mem_singleton] at htruth
            exact Or.inl htruth
        | unknown hop =>
            rw [truthVisits_unknown hop, List.mem_singleton] at htruth
            exact Or.inl htruth

/-- Only nodes of the term are visited. -/
theorem exists_at?_of_visited (h : Visited a w t) : ∃ p, t.at? p = some w := by
  induction t using children_induction with
  | node s args ih =>
      rcases eq_or_visited_child h with rfl | ⟨c, hc, hw⟩
      · exact ⟨[], at?_nil⟩
      · obtain ⟨i, hi, rfl⟩ := List.getElem_of_mem hc
        obtain ⟨p, hp⟩ := ih _ hc hw
        exact ⟨i :: p, by rw [at?_cons, List.getElem?_eq_getElem hi, Option.bind_some, hp]⟩

/-! ## Holes among the visits -/

/-- The complaint about an incomplete term is about a hole among the visits, and every hole among
them is complained about. -/
def Reported {α : Type} (x : Except Fault α) (visits : List Term) : Prop :=
  ∀ w, x = .error (.incompleteTerm w) ↔ w ∈ visits ∧ w.symbol.isNonTerminal = true

section Reported

variable {α β : Type} {x : Except Fault α} {visits : List Term}

theorem reported_ok (v : α) : Reported (.ok v) [] := by
  intro w
  simp

theorem reported_error {fault : Fault} (h : ∀ w, fault ≠ .incompleteTerm w) :
    Reported (.error fault : Except Fault α) [] := by
  intro w
  simp [h w]

theorem reported_hole (category : String) (args : List Term) :
    Reported (.error (.incompleteTerm (node (.nonTerminal category) args)) : Except Fault α)
      [node (.nonTerminal category) args] := by
  intro w
  rw [Except.error.injEq, Fault.incompleteTerm.injEq, List.mem_singleton, eq_comm]
  refine ⟨?_, And.left⟩
  rintro rfl
  exact ⟨rfl, rfl⟩

/-- What is computed next adds its visits. -/
theorem Reported.bind {f : α → Except Fault β} {next : α → List Term} (hx : Reported x visits)
    (hf : ∀ v, Reported (f v) (next v)) :
    Reported (x >>= f) (visits ++ visitsAfter x next) := by
  intro w
  rw [bind_eq_error, hx w, List.mem_append, mem_visitsAfter, or_and_right]
  refine or_congr_right ⟨?_, ?_⟩
  · rintro ⟨v, hv, hw⟩
    obtain ⟨hmem, hkind⟩ := (hf v w).mp hw
    exact ⟨⟨v, hv, hmem⟩, hkind⟩
  · rintro ⟨⟨v, hv, hmem⟩, hkind⟩
    exact ⟨v, hv, (hf v w).mpr ⟨hmem, hkind⟩⟩

theorem Reported.map (hx : Reported x visits) (f : α → β) :
    Reported (x >>= fun v => .ok (f v)) visits := by
  intro w
  rw [bind_eq_error, hx w]
  simp

/-- An operator is no hole. -/
theorem Reported.node (hx : Reported x visits) :
    Reported x (node (.terminal name) args :: visits) := by
  intro w
  rw [hx w, List.mem_cons]
  refine ⟨And.imp_left Or.inr, ?_⟩
  rintro ⟨rfl | hmem, hkind⟩
  · cases hkind
  · exact ⟨hmem, hkind⟩

end Reported

/-- **Evaluation complains about an incomplete term exactly if it visits a hole.** -/
theorem reported (a : Assignment) (t : Term) :
    Reported (t.value a) (t.valueVisits a) ∧ Reported (t.truth a) (t.truthVisits a) := by
  induction t using children_induction with
  | node s args ih =>
      cases s with
      | nonTerminal category =>
          rw [value, truth, valueVisits, truthVisits]
          exact ⟨reported_hole category args, reported_hole category args⟩
      | terminal name =>
          refine ⟨?_, ?_⟩
          · cases intForm name args with
            | @ite c t e hop =>
                rw [value_ite hop, valueVisits_ite hop]
                refine ((ih c (by simp)).2.bind fun b => ?_).node
                cases b with
                | true => exact (ih t (by simp)).1
                | false => exact (ih e (by simp)).1
            | @add l r hop =>
                rw [value_add hop, valueVisits_add hop]
                exact ((ih l (by simp)).1.bind fun _ => (ih r (by simp)).1.map _).node
            | @multiply l r hop =>
                rw [value_multiply hop, valueVisits_multiply hop]
                exact ((ih l (by simp)).1.bind fun _ => (ih r (by simp)).1.map _).node
            | @var v hop =>
                rw [value_var hop, valueVisits_nil]
                cases a.get? v.name with
                | none => exact (reported_error (by simp)).node
                | some n => exact (reported_ok n).node
            | literal hop =>
                rw [value_literal hop, valueVisits_nil]
                exact (reported_ok _).node
            | misplaced hop hargs =>
                rw [value_misplaced hop hargs, valueVisits_misplaced hop hargs]
                exact (reported_error (by simp)).node
            | unknown hop =>
                rw [value_unknown hop, valueVisits_unknown hop]
                exact (reported_error (by simp)).node
          · cases boolForm name args with
            | @lt l r hop =>
                rw [truth_lt hop, truthVisits_lt hop]
                exact ((ih l (by simp)).1.bind fun _ => (ih r (by simp)).1.map _).node
            | @eq l r hop =>
                rw [truth_eq hop, truthVisits_eq hop]
                exact ((ih l (by simp)).1.bind fun _ => (ih r (by simp)).1.map _).node
            | @and l r hop =>
                rw [truth_and hop, truthVisits_and hop]
                refine ((ih l (by simp)).2.bind fun b => ?_).node
                cases b with
                | true => exact (ih r (by simp)).2
                | false => exact reported_ok false
            | @or l r hop =>
                rw [truth_or hop, truthVisits_or hop]
                refine ((ih l (by simp)).2.bind fun b => ?_).node
                cases b with
                | true => exact reported_ok true
                | false => exact (ih r (by simp)).2
            | @not t hop =>
                rw [truth_not hop, truthVisits_not hop]
                exact ((ih t (by simp)).2.map _).node
            | misplaced hop hargs =>
                rw [truth_misplaced hop hargs, truthVisits_misplaced hop hargs]
                exact (reported_error (by simp)).node
            | unknown hop =>
                rw [truth_unknown hop, truthVisits_unknown hop]
                exact (reported_error (by simp)).node

end Term

end Sygus
