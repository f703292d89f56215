import Sygus.Proofs.Definedness
import Sygus.Proofs.Leftmost

/-!
# The choices of a derivation

A leftmost step replaces the **first hole** of a term, and which production it replaces it by
is all there is to choose. So `choices` lists the results of a step by the numbers of the
productions, and a list of numbers says how to derive a term, one number for each step.

`expand_eq` says that expansion makes all choices, or fails if there are none to make though
there is a hole.
-/

namespace Sygus

open Relation (ReflTransGen)

variable {g : Grammar}

/-- The category that a symbol stands for. -/
def Symbol.category? : Symbol → Option String
  | terminal _ => none
  | nonTerminal category => some category

namespace Term

mutual

/-- The category of the hole that comes first, children before their node. -/
def firstHole? : Term → Option String
  | node s cs => (firstHoleOf? cs).or s.category?

/-- The same for a list of terms, from left to right. -/
def firstHoleOf? : List Term → Option String
  | [] => none
  | c :: cs => c.firstHole?.or (firstHoleOf? cs)

end

mutual

/-- Puts a term in the place of the first hole. -/
def fill : Term → Term → Term
  | node s cs, u => if allComplete cs then u else node s (fillOf cs u)

/-- The same in a list of terms. -/
def fillOf : List Term → Term → List Term
  | [], _ => []
  | c :: cs, u => if c.isComplete then c :: fillOf cs u else c.fill u :: cs

end

mutual

theorem firstHole?_eq_none_iff : ∀ (t : Term), t.firstHole? = none ↔ t.isComplete = true
  | node s cs => by
      rw [firstHole?, isComplete, Bool.and_eq_true, ← firstHoleOf?_eq_none_iff cs]
      cases firstHoleOf? cs <;> cases s <;> simp [Symbol.category?, Symbol.isTerminal]

theorem firstHoleOf?_eq_none_iff : ∀ (cs : List Term), firstHoleOf? cs = none ↔ allComplete cs = true
  | [] => by simp [firstHoleOf?, allComplete]
  | c :: cs => by
      rw [firstHoleOf?, allComplete, Bool.and_eq_true, ← firstHole?_eq_none_iff c,
        ← firstHoleOf?_eq_none_iff cs]
      cases c.firstHole? <;> simp

end

/-- A term of which all children are complete is itself the first hole, if it is one. -/
theorem firstHole?_of_allComplete {s : Symbol} {cs : List Term} (h : allComplete cs = true) :
    (node s cs).firstHole? = s.category? := by
  rw [firstHole?, (firstHoleOf?_eq_none_iff cs).mpr h, Option.none_or]

/-- Otherwise its first hole is that of its children. -/
theorem firstHole?_of_not_allComplete {s : Symbol} {cs : List Term} (h : allComplete cs = false) :
    (node s cs).firstHole? = firstHoleOf? cs := by
  rw [firstHole?]
  cases hfirst : firstHoleOf? cs with
  | some category => rfl
  | none =>
      rw [(firstHoleOf?_eq_none_iff cs).mp hfirst] at h
      cases h

theorem firstHoleOf?_of_isComplete {c : Term} {cs : List Term} (h : c.isComplete = true) :
    firstHoleOf? (c :: cs) = firstHoleOf? cs := by
  rw [firstHoleOf?, (firstHole?_eq_none_iff c).mpr h, Option.none_or]

theorem firstHoleOf?_of_not_isComplete {c : Term} {cs : List Term} (h : c.isComplete = false) :
    firstHoleOf? (c :: cs) = c.firstHole? := by
  rw [firstHoleOf?]
  cases hfirst : c.firstHole? with
  | some category => rfl
  | none =>
      rw [(firstHole?_eq_none_iff c).mp hfirst] at h
      cases h

mutual

/-- **A leftmost step puts a production in the place of the first hole.** -/
theorem expands_iff : ∀ (t : Term) {u : Term}, Expands g t u
    ↔ ∃ p ∈ g.productions, t.firstHole? = some p.target ∧ u = t.fill p.term
  | node s cs, u => by
      cases hall : allComplete cs with
      | true =>
          rw [firstHole?_of_allComplete hall]
          refine ⟨?_, ?_⟩
          · intro h
            cases h with
            | hole _ hp htarget => exact ⟨_, hp, by rw [htarget]; rfl, by rw [fill, if_pos hall]⟩
            | child hcs =>
                rw [allComplete_false_of_expandsFirst hcs] at hall
                cases hall
          · rintro ⟨p, hp, hfirst, rfl⟩
            cases s with
            | terminal name => cases hfirst
            | nonTerminal category =>
                cases hfirst
                rw [fill, if_pos hall]
                exact .hole hall hp rfl
      | false =>
          rw [firstHole?_of_not_allComplete hall]
          have hfill : ∀ v, (node s cs).fill v = node s (fillOf cs v) := by
            intro v
            rw [fill, if_neg (by simp [hall])]
          refine ⟨?_, ?_⟩
          · intro h
            cases h with
            | hole hcomplete _ _ =>
                rw [hcomplete] at hall
                cases hall
            | child hcs =>
                obtain ⟨p, hp, hfirst, rfl⟩ := (expandsFirst_iff cs).mp hcs
                exact ⟨p, hp, hfirst, (hfill _).symm⟩
          · rintro ⟨p, hp, hfirst, rfl⟩
            rw [hfill]
            exact .child ((expandsFirst_iff cs).mpr ⟨p, hp, hfirst, rfl⟩)

theorem expandsFirst_iff : ∀ (cs : List Term) {cs' : List Term}, ExpandsFirst g cs cs'
    ↔ ∃ p ∈ g.productions, firstHoleOf? cs = some p.target ∧ cs' = fillOf cs p.term
  | [], cs' => by
      refine ⟨?_, ?_⟩
      · intro h
        cases h
      · rintro ⟨p, _, hfirst, _⟩
        cases hfirst
  | c :: cs, cs' => by
      cases hc : c.isComplete with
      | true =>
          rw [firstHoleOf?_of_isComplete hc]
          refine ⟨?_, ?_⟩
          · intro h
            cases h with
            | here hpartial _ =>
                rw [hc] at hpartial
                cases hpartial
            | later _ hrest =>
                obtain ⟨p, hp, hfirst, rfl⟩ := (expandsFirst_iff cs).mp hrest
                exact ⟨p, hp, hfirst, by rw [fillOf, if_pos hc]⟩
          · rintro ⟨p, hp, hfirst, rfl⟩
            rw [fillOf, if_pos hc]
            exact .later hc ((expandsFirst_iff cs).mpr ⟨p, hp, hfirst, rfl⟩)
      | false =>
          rw [firstHoleOf?_of_not_isComplete hc]
          have hfill : ∀ v, fillOf (c :: cs) v = c.fill v :: cs := by
            intro v
            rw [fillOf, if_neg (by simp [hc])]
          refine ⟨?_, ?_⟩
          · intro h
            cases h with
            | here _ hstep =>
                obtain ⟨p, hp, hfirst, rfl⟩ := (expands_iff c).mp hstep
                exact ⟨p, hp, hfirst, (hfill _).symm⟩
            | later hcomplete _ =>
                rw [hc] at hcomplete
                cases hcomplete
          · rintro ⟨p, hp, hfirst, rfl⟩
            rw [hfill]
            exact .here hc ((expands_iff c).mpr ⟨p, hp, hfirst, rfl⟩)

end

theorem map_map_ok {α β γ : Type} (r : Except Fault (List α)) (f : α → β) (h : β → γ) :
    (do return (← r.map (·.map f)).map h) = r.map (·.map fun a => h (f a)) := by
  cases r with
  | error fault => rfl
  | ok as => simp [Except.map, List.map_map, Function.comp_def]

mutual

/-- **Expansion offers every production for the first hole, in order.** -/
theorem expand_eq : ∀ (t : Term), t.expand g = match t.firstHole? with
    | none => .ok []
    | some category => (g.productionsOf category).map (·.map fun p => t.fill p.term)
  | node s cs => by
      unfold expand
      rw [expandFirst?_eq cs]
      cases hall : allComplete cs with
      | true =>
          rw [(firstHoleOf?_eq_none_iff cs).mpr hall, firstHole?_of_allComplete hall]
          cases s with
          | terminal name => rfl
          | nonTerminal category =>
              simp only [fill, hall, if_true]
              rfl
      | false =>
          rw [firstHole?_of_not_allComplete hall]
          cases hfirst : firstHoleOf? cs with
          | none =>
              rw [(firstHoleOf?_eq_none_iff cs).mp hfirst] at hall
              cases hall
          | some category =>
              simp only [Option.map_some, fill, hall, Bool.false_eq_true, if_false]
              exact map_map_ok _ _ _

theorem expandFirst?_eq : ∀ (cs : List Term), expandFirst? g cs = (firstHoleOf? cs).map fun category =>
    (g.productionsOf category).map (·.map fun p => fillOf cs p.term)
  | [] => rfl
  | c :: cs => by
      rw [expandFirst?, expandFirst?_eq cs, expand_eq c]
      cases hc : c.isComplete with
      | true =>
          rw [if_pos rfl, firstHoleOf?_of_isComplete hc]
          simp only [fillOf, hc, if_true]
          cases firstHoleOf? cs with
          | none => rfl
          | some category => exact congrArg some (map_map_ok _ _ _)
      | false =>
          rw [firstHoleOf?_of_not_isComplete hc]
          simp only [fillOf, hc, Bool.false_eq_true, if_false]
          cases hfirst : c.firstHole? with
          | none =>
              rw [(firstHole?_eq_none_iff c).mp hfirst] at hc
              cases hc
          | some category => exact congrArg some (map_map_ok _ _ _)

end

/-! ## Numbered choices -/

/-- The results of a step, by the numbers of the productions for the first hole. A term without
holes has none, and neither has one that is stuck at a category without productions. -/
def choices (g : Grammar) (t : Term) : List Term :=
  match t.firstHole? with
  | none => []
  | some category => (g.productions.filter (·.target = category)).map fun p => t.fill p.term

theorem mem_choices_iff {t u : Term} : u ∈ t.choices g ↔ Expands g t u := by
  rw [expands_iff, choices]
  cases t.firstHole? with
  | none => simp
  | some category =>
      simp only [List.mem_map, List.mem_filter, decide_eq_true_eq, Option.some.injEq]
      refine ⟨?_, ?_⟩
      · rintro ⟨p, ⟨hp, rfl⟩, rfl⟩
        exact ⟨p, hp, rfl, rfl⟩
      · rintro ⟨p, hp, rfl, rfl⟩
        exact ⟨p, ⟨hp, rfl⟩, rfl⟩

theorem choices_of_isComplete {t : Term} (h : t.isComplete = true) : t.choices g = [] := by
  rw [choices, (firstHole?_eq_none_iff t).mpr h]

/-- The first hole is of a category that has no production. -/
def StuckAt (g : Grammar) (category : String) (t : Term) : Prop :=
  t.firstHole? = some category ∧ ¬ g.Defines category

theorem StuckAt.filter_eq_nil {category : String} {t : Term} (h : t.StuckAt g category) :
    g.productions.filter (·.target = category) = [] := by
  rw [List.filter_eq_nil_iff]
  intro p hp htarget
  exact h.2 ⟨p, hp, of_decide_eq_true htarget⟩

theorem StuckAt.choices_eq {category : String} {t : Term} (h : t.StuckAt g category) :
    t.choices g = [] := by
  rw [choices, h.1]
  dsimp only
  rw [h.filter_eq_nil, List.map_nil]

/-- Expansion fails at a category that has no production. -/
theorem StuckAt.expand_eq {category : String} {t : Term} (h : t.StuckAt g category) :
    t.expand g = .error (.undefinedNonTerminal category) := by
  rw [Term.expand_eq, h.1]
  dsimp only
  rw [Grammar.productionsOf, h.filter_eq_nil]
  rfl

/-- **Expansion makes all choices, unless it is stuck.** -/
theorem expand_eq_choices {t : Term} (h : ∀ category, ¬ t.StuckAt g category) :
    t.expand g = .ok (t.choices g) := by
  rw [Term.expand_eq, choices]
  cases hfirst : t.firstHole? with
  | none => rfl
  | some category =>
      have hdefined : g.Defines category := by
        by_contra hundefined
        exact h category ⟨hfirst, hundefined⟩
      dsimp only
      rw [hdefined.productionsOf_eq]
      rfl

/-- Expansion makes all choices if it succeeds. -/
theorem eq_choices_of_expand {t : Term} {results : List Term} (h : t.expand g = .ok results) :
    results = t.choices g := by
  have hfree : ∀ category, ¬ t.StuckAt g category := by
    intro category hstuck
    rw [hstuck.expand_eq] at h
    cases h
  rw [expand_eq_choices hfree] at h
  exact (Except.ok.inj h).symm

/-- Expansion fails only where it is stuck. -/
theorem exists_stuckAt_of_expand {t : Term} {fault : Fault} (h : t.expand g = .error fault) :
    ∃ category, t.StuckAt g category ∧ fault = .undefinedNonTerminal category := by
  by_contra hnone
  have hfree : ∀ category, ¬ t.StuckAt g category := by
    intro category hstuck
    rw [hstuck.expand_eq] at h
    exact hnone ⟨category, hstuck, (Except.error.inj h).symm⟩
  rw [expand_eq_choices hfree] at h
  cases h

theorem StuckAt.isComplete_eq {category : String} {t : Term} (h : t.StuckAt g category) :
    t.isComplete = false := by
  rw [← Bool.not_eq_true, ← firstHole?_eq_none_iff, h.1]
  exact Option.some_ne_none _

/-- The term that a list of choices leads to, if all of them can be made. -/
def follow (g : Grammar) (t : Term) : List Nat → Option Term
  | [] => some t
  | i :: picks => (t.choices g)[i]?.bind (follow g · picks)

theorem follow_concat {t : Term} {picks : List Nat} {i : Nat} :
    t.follow g (picks ++ [i]) = (t.follow g picks).bind fun u => (u.choices g)[i]? := by
  induction picks generalizing t with
  | nil =>
      rw [List.nil_append, follow, follow, Option.bind_some]
      cases (t.choices g)[i]? <;> rfl
  | cons j picks ih =>
      rw [List.cons_append, follow, follow]
      cases (t.choices g)[j]? with
      | none => rfl
      | some u => exact ih

/-- Choices are leftmost steps. -/
theorem steps_of_follow {t u : Term} {picks : List Nat} (h : t.follow g picks = some u) :
    ReflTransGen (Expands g) t u := by
  induction picks generalizing t with
  | nil =>
      cases h
      exact .refl
  | cons i picks ih =>
      obtain ⟨v, hv, hrest⟩ := Option.bind_eq_some_iff.mp h
      exact .head (mem_choices_iff.mp (List.mem_of_getElem? hv)) (ih hrest)

/-- **Whatever completes a term is led to by choices.** -/
theorem Completes.exists_follow {n : Nat} {t u : Term} (h : Completes g n t u) :
    ∃ picks, t.follow g picks = some u := by
  induction n generalizing t with
  | zero =>
      cases ht : t.isComplete with
      | true => exact ⟨[], by rw [follow, (h.eq_of_isComplete ht).2]⟩
      | false =>
          obtain ⟨m, _, hm, _, _⟩ := h.exists_expands ht
          omega
  | succ n ih =>
      cases ht : t.isComplete with
      | true =>
          have := (h.eq_of_isComplete ht).1
          omega
      | false =>
          obtain ⟨m, v, hm, hstep, hrest⟩ := h.exists_expands ht
          cases hm
          obtain ⟨picks, hpicks⟩ := ih hrest
          obtain ⟨i, hi⟩ := List.mem_iff_getElem?.mp (mem_choices_iff.mpr hstep)
          exact ⟨i :: picks, by rw [follow, hi, Option.bind_some, hpicks]⟩

/-! ## Different choices -/

end Term

/-- No two productions of one category have the same operator and as many arguments. -/
def Grammar.Unambiguous (g : Grammar) : Prop :=
  g.productions.Pairwise fun p q =>
    ¬ (p.target = q.target ∧ p.operator = q.operator ∧ p.args.length = q.args.length)

instance (g : Grammar) : Decidable g.Unambiguous :=
  inferInstanceAs (Decidable (List.Pairwise _ _))

namespace Term

mutual

/-- A completion shows by which operator the first hole was replaced, and with how many
arguments. -/
theorem shape_of_completes_fill : ∀ (t : Term) {p q : Production} {m n : Nat} {u : Term},
    t.isBare = true → t.isComplete = false → Completes g m (t.fill p.term) u →
    Completes g n (t.fill q.term) u →
    p.operator = q.operator ∧ p.args.length = q.args.length
  | node s cs, p, q, m, n, u, hbare, hpartial, hp, hq => by
      cases hall : allComplete cs with
      | true =>
          rw [fill, if_pos hall] at hp hq
          obtain ⟨ts, rfl, hps⟩ := completes_node_inv hp
          obtain ⟨ts', hterm, hqs⟩ := completes_node_inv hq
          obtain ⟨hsymbol, rfl⟩ := Term.node.inj hterm
          have hlength := hps.length_eq.trans hqs.length_eq.symm
          rw [List.length_map, List.length_map] at hlength
          exact ⟨Symbol.terminal.inj hsymbol, hlength⟩
      | false =>
          rw [fill, if_neg (by simp [hall])] at hp hq
          cases s with
          | terminal name =>
              obtain ⟨ts, rfl, hps⟩ := completes_node_inv hp
              obtain ⟨ts', hterm, hqs⟩ := completes_node_inv hq
              obtain ⟨_, rfl⟩ := Term.node.inj hterm
              exact shape_of_completesAll_fillOf cs hbare hall hps hqs
          | nonTerminal category =>
              -- a bare hole has no children that are not complete
              rw [isBare, List.isEmpty_iff] at hbare
              subst hbare
              cases hall

theorem shape_of_completesAll_fillOf : ∀ (cs : List Term) {p q : Production} {m n : Nat}
    {us : List Term}, allBare cs = true → allComplete cs = false →
    CompletesAll g m (fillOf cs p.term) us → CompletesAll g n (fillOf cs q.term) us →
    p.operator = q.operator ∧ p.args.length = q.args.length
  | [], _, _, _, _, _, _, hpartial, _, _ => by cases hpartial
  | c :: cs, p, q, m, n, us, hbare, hpartial, hp, hq => by
      rw [allBare, Bool.and_eq_true] at hbare
      cases hc : c.isComplete with
      | true =>
          rw [allComplete, hc, Bool.true_and] at hpartial
          rw [fillOf, if_pos hc] at hp hq
          cases hp with
          | cons _ hp =>
              cases hq with
              | cons _ hq => exact shape_of_completesAll_fillOf cs hbare.2 hpartial hp hq
      | false =>
          rw [fillOf, if_neg (by simp [hc])] at hp hq
          cases hp with
          | cons hp _ =>
              cases hq with
              | cons hq _ => exact shape_of_completes_fill c hbare.1 hc hp hq

end

/-- In an unambiguous grammar, the productions of a category have different shapes. -/
theorem eq_of_same_shape (hg : g.Unambiguous) {category : String} {p q : Production} {i j : Nat}
    (hp : (g.productions.filter (·.target = category))[i]? = some p)
    (hq : (g.productions.filter (·.target = category))[j]? = some q)
    (hoperator : p.operator = q.operator) (hlength : p.args.length = q.args.length) : i = j := by
  have hpairwise := List.pairwise_iff_getElem.mp (List.Pairwise.filter (·.target = category) hg)
  have htarget : ∀ r ∈ g.productions.filter (·.target = category), r.target = category :=
    fun r hr => of_decide_eq_true (List.mem_filter.mp hr).2
  have hpq : p.target = q.target :=
    (htarget p (List.mem_of_getElem? hp)).trans (htarget q (List.mem_of_getElem? hq)).symm
  obtain ⟨hi, rfl⟩ := List.getElem?_eq_some_iff.mp hp
  obtain ⟨hj, rfl⟩ := List.getElem?_eq_some_iff.mp hq
  rcases Nat.lt_trichotomy i j with hlt | heq | hgt
  · exact absurd ⟨hpq, hoperator, hlength⟩ (hpairwise i j hi hj hlt)
  · exact heq
  · exact absurd ⟨hpq.symm, hoperator.symm, hlength.symm⟩ (hpairwise j i hj hi hgt)

/-- In an unambiguous grammar, different choices for one hole have no completion in common. -/
theorem eq_of_completes_choices (hg : g.Unambiguous) {t v w u : Term} {i j m n : Nat}
    (ht : t.isBare = true) (hi : (t.choices g)[i]? = some v) (hj : (t.choices g)[j]? = some w)
    (hv : Completes g m v u) (hw : Completes g n w u) : i = j := by
  unfold choices at hi hj
  cases hfirst : t.firstHole? with
  | none =>
      rw [hfirst] at hi
      cases hi
  | some category =>
      have hpartial : t.isComplete = false := by
        rw [← Bool.not_eq_true, ← firstHole?_eq_none_iff, hfirst]
        exact Option.some_ne_none _
      rw [hfirst] at hi hj
      dsimp only at hi hj
      rw [List.getElem?_map, Option.map_eq_some_iff] at hi hj
      obtain ⟨p, hp, rfl⟩ := hi
      obtain ⟨q, hq, rfl⟩ := hj
      obtain ⟨hoperator, hlength⟩ := shape_of_completes_fill t ht hpartial hv hw
      exact eq_of_same_shape hg hp hq hoperator hlength

/-- **In an unambiguous grammar, a complete term has one derivation.** -/
theorem follow_injective (hg : g.Unambiguous) {t u : Term} {picks picks' : List Nat}
    (ht : t.isBare = true) (hu : u.isComplete = true) (h : t.follow g picks = some u)
    (h' : t.follow g picks' = some u) : picks = picks' := by
  induction picks generalizing t picks' with
  | nil =>
      cases h
      cases picks' with
      | nil => rfl
      | cons j picks' =>
          rw [follow, choices_of_isComplete hu] at h'
          cases h'
  | cons i picks ih =>
      cases picks' with
      | nil =>
          cases h'
          rw [follow, choices_of_isComplete hu] at h
          cases h
      | cons j picks' =>
          obtain ⟨v, hi, hv⟩ := Option.bind_eq_some_iff.mp h
          obtain ⟨w, hj, hw⟩ := Option.bind_eq_some_iff.mp h'
          have hvbare := (mem_choices_iff.mp (List.mem_of_getElem? hi)).isBare ht
          have hwbare := (mem_choices_iff.mp (List.mem_of_getElem? hj)).isBare ht
          obtain ⟨m, hvu⟩ := exists_completes_of_steps (steps_of_follow hv) hvbare hu
          obtain ⟨n, hwu⟩ := exists_completes_of_steps (steps_of_follow hw) hwbare hu
          obtain rfl := eq_of_completes_choices hg ht hi hj hvu hwu
          rw [hi] at hj
          cases hj
          rw [ih hvbare hv hw]

end Term

end Sygus
