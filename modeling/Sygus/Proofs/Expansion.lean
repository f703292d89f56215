import Mathlib.Data.List.Forall2
import Sygus.Proofs.Choices
import Sygus.Proofs.Positions

/-!
# What one expansion does to a term

An expansion step happens at one place, the **foremost** non-terminal: the one that is visited first
when children are visited before their node. The subtree there, be it a bare hole or one with
children, gives way to an operator over fresh arguments, and all that stands elsewhere stays.

The way down to the place is the same for all that is proved here: through children that follow
complete ones, until a non-terminal has complete children only. So it is an induction principle
(`incomplete_induction`) with one case for the place and one for a step on the way.
-/

namespace Sygus.Term

variable {g : Grammar} {s : Symbol} {before after cs : List Term} {c c' t u u' v : Term}

/-- The first non-terminal that is visited, with its position. -/
def foremost? (t : Term) : Option (List Nat × Symbol) := t.postorder.find? (·.2.isNonTerminal)

/-- The term `u` is what becomes of `t` if `v` takes the place of the node at `p` and of all below
it. -/
structure Replaces (t : Term) (p : List Nat) (v u : Term) : Prop where
  replaced : u.at? p = some v
  /-- What is neither at `p` nor below it stays, and nothing is added. -/
  kept : ∀ q, ¬ p <+: q → u.symbolAt? q = t.symbolAt? q

/-- Where and by what something is replaced says what comes of it. -/
theorem Replaces.unique {p : List Nat} (hu : t.Replaces p v u) (hu' : t.Replaces p v u') :
    u = u' := by
  refine ext_symbolAt? fun q => ?_
  by_cases hq : p <+: q
  · obtain ⟨r, rfl⟩ := hq
    rw [symbolAt?, symbolAt?, at?_append, at?_append, hu.replaced, hu'.replaced]
  · rw [hu.kept q hq, hu'.kept q hq]

/-! ## The way to the first hole -/

theorem allComplete_append :
    allComplete (before ++ after) = (allComplete before && allComplete after) := by
  induction before with
  | nil => rfl
  | cons c before ih => rw [List.cons_append, allComplete, allComplete, ih, Bool.and_assoc]

theorem not_allComplete_append (hc : c.isComplete = false) :
    allComplete (before ++ c :: after) = false := by
  rw [allComplete_append, allComplete, hc, Bool.false_and, Bool.and_false]

theorem not_isComplete_hole {category : String} :
    (node (.nonTerminal category) cs).isComplete = false := rfl

theorem not_isComplete_child (hc : c.isComplete = false) :
    (node s (before ++ c :: after)).isComplete = false := by
  rw [isComplete, not_allComplete_append hc, Bool.and_false]

theorem exists_first_incomplete (hcs : allComplete cs = false) : ∃ before c after,
    cs = before ++ c :: after ∧ allComplete before = true ∧ c.isComplete = false := by
  induction cs with
  | nil => simp [allComplete] at hcs
  | cons c cs ih =>
      cases hc : c.isComplete with
      | false => exact ⟨[], c, cs, rfl, rfl, hc⟩
      | true =>
          rw [allComplete, hc, Bool.true_and] at hcs
          obtain ⟨before, d, after, rfl, hbefore, hd⟩ := ih hcs
          exact ⟨c :: before, d, after, rfl, by rw [allComplete, hc, hbefore]; rfl, hd⟩

/-- Induction on the way to the first hole of a term. -/
theorem incomplete_induction {P : (t : Term) → t.isComplete = false → Prop}
    (hole : ∀ category cs, allComplete cs = true →
      P (node (.nonTerminal category) cs) not_isComplete_hole)
    (child : ∀ s before c after, allComplete before = true → ∀ hc : c.isComplete = false,
      P c hc → P (node s (before ++ c :: after)) (not_isComplete_child hc)) :
    ∀ (t : Term) (ht : t.isComplete = false), P t ht
  | node s cs, ht => by
      cases hcs : allComplete cs with
      | true =>
          cases s with
          | terminal name => simp [isComplete, Symbol.isTerminal, hcs] at ht
          | nonTerminal category => exact hole category cs hcs
      | false =>
          obtain ⟨before, c, after, heq, hbefore, hc⟩ := exists_first_incomplete hcs
          have hmem : c ∈ cs := by simp [heq]
          have hP : P c hc := incomplete_induction hole child c hc
          subst heq
          exact child s before c after hbefore hc hP
termination_by t => sizeOf t
decreasing_by
  have hlt := List.sizeOf_lt_of_mem hmem
  rw [node.sizeOf_spec]
  omega

/-! ## What is done there -/

theorem firstHoleOf?_append (hbefore : allComplete before = true) (hc : c.isComplete = false) :
    firstHoleOf? (before ++ c :: after) = c.firstHole? := by
  induction before with
  | nil => exact firstHoleOf?_of_not_isComplete hc
  | cons d before ih =>
      rw [allComplete, Bool.and_eq_true] at hbefore
      rw [List.cons_append, firstHoleOf?_of_isComplete hbefore.1, ih hbefore.2]

theorem fillOf_append (hbefore : allComplete before = true) (hc : c.isComplete = false) :
    fillOf (before ++ c :: after) v = before ++ c.fill v :: after := by
  induction before with
  | nil => rw [List.nil_append, fillOf, if_neg (by simp [hc]), List.nil_append]
  | cons d before ih =>
      rw [allComplete, Bool.and_eq_true] at hbefore
      rw [List.cons_append, fillOf, if_pos hbefore.1, ih hbefore.2, List.cons_append]

/-- A child is looked for the first hole if all before it are complete. -/
theorem firstHole?_child (hbefore : allComplete before = true) (hc : c.isComplete = false) :
    (node s (before ++ c :: after)).firstHole? = c.firstHole? := by
  rw [firstHole?_of_not_allComplete (not_allComplete_append hc), firstHoleOf?_append hbefore hc]

/-- Filling the first hole of a child fills that of its parent. -/
theorem fill_child (hbefore : allComplete before = true) (hc : c.isComplete = false) :
    (node s (before ++ c :: after)).fill v = node s (before ++ c.fill v :: after) := by
  rw [fill, if_neg (by simp [not_allComplete_append hc]), fillOf_append hbefore hc]

theorem fill_hole (hcs : allComplete cs = true) : (node s cs).fill v = v := by
  rw [fill, if_pos hcs]

/-! ## Where it is done -/

theorem foremost?_eq_none_iff : t.foremost? = none ↔ t.isComplete = true := by
  rw [foremost?, List.find?_eq_none, isComplete_iff_postorder]
  simp [Symbol.isNonTerminal]

/-- Complete children hold no non-terminal. -/
theorem find?_postorderFrom_of_allComplete {i : Nat} (hcs : allComplete cs = true) :
    (postorderFrom i cs).find? (·.2.isNonTerminal) = none := by
  rw [List.find?_eq_none]
  intro x hx
  simp [Symbol.isNonTerminal, (allComplete_iff_postorderFrom cs).mp hcs x hx]

theorem find?_postorderFrom_append {i : Nat} {p : List Nat}
    (hbefore : allComplete before = true) (hc : c.foremost? = some (p, s)) :
    (postorderFrom i (before ++ c :: after)).find? (·.2.isNonTerminal)
      = some ((i + before.length) :: p, s) := by
  induction before generalizing i with
  | nil =>
      rw [foremost?] at hc
      rw [List.nil_append, postorderFrom, List.find?_append, List.find?_map]
      simp only [Function.comp_def]
      rw [hc]
      rfl
  | cons d before ih =>
      rw [allComplete, Bool.and_eq_true] at hbefore
      have hd : d.postorder.find? (·.2.isNonTerminal) = none := foremost?_eq_none_iff.mpr hbefore.1
      rw [List.cons_append, postorderFrom, List.find?_append, List.find?_map]
      simp only [Function.comp_def]
      rw [hd, Option.map_none, Option.none_or, ih hbefore.2, List.length_cons, Nat.add_assoc,
        Nat.add_comm 1]

/-- A node over complete children is visited after them. -/
theorem foremost?_hole {category : String} (hcs : allComplete cs = true) :
    (node (.nonTerminal category) cs).foremost? = some ([], .nonTerminal category) := by
  rw [foremost?, postorder, List.find?_append, find?_postorderFrom_of_allComplete hcs]
  rfl

theorem foremost?_child {p : List Nat} {s' : Symbol} (hbefore : allComplete before = true)
    (hc : c.foremost? = some (p, s')) :
    (node s (before ++ c :: after)).foremost? = some (before.length :: p, s') := by
  rw [foremost?, postorder, List.find?_append, find?_postorderFrom_append hbefore hc, Nat.zero_add]
  rfl

/-! ## What stays -/

theorem replaces_root : t.Replaces [] v v := ⟨at?_nil, fun _ hq => absurd List.nil_prefix hq⟩

/-- Replacing in a child leaves its parent and its siblings as they are. -/
theorem Replaces.child {p : List Nat} (h : c.Replaces p v c') :
    (node s (before ++ c :: after)).Replaces (before.length :: p) v
      (node s (before ++ c' :: after)) where
  replaced := by
    rw [at?_cons, List.getElem?_append_right (Nat.le_refl _), Nat.sub_self, List.getElem?_cons_zero]
    exact h.replaced
  kept := by
    intro q hq
    cases q with
    | nil => rfl
    | cons i q =>
        rw [symbolAt?_cons, symbolAt?_cons]
        by_cases hi : i = before.length
        · subst hi
          rw [List.getElem?_append_right (Nat.le_refl _), Nat.sub_self, List.getElem?_cons_zero,
            List.getElem?_append_right (Nat.le_refl _), Nat.sub_self, List.getElem?_cons_zero]
          exact h.kept q fun hp => hq (List.cons_prefix_cons.mpr ⟨rfl, hp⟩)
        · have hsame : (before ++ c' :: after)[i]? = (before ++ c :: after)[i]? := by
            rw [List.getElem?_append, List.getElem?_append]
            split
            · rfl
            · have hpos : i - before.length = (i - before.length - 1) + 1 := by omega
              rw [hpos, List.getElem?_cons_succ, List.getElem?_cons_succ]
          rw [hsame]

/-- **A partial term has a foremost non-terminal, and filling its first hole replaces that.** -/
theorem exists_foremost (ht : t.isComplete = false) :
    ∃ p category, t.foremost? = some (p, .nonTerminal category) ∧ t.firstHole? = some category
      ∧ ∀ v, t.Replaces p v (t.fill v) := by
  induction t, ht using incomplete_induction with
  | hole category cs hcs =>
      refine ⟨[], category, foremost?_hole hcs, firstHole?_of_allComplete hcs, fun v => ?_⟩
      rw [fill_hole hcs]
      exact replaces_root
  | child s before c after hbefore hc ih =>
      obtain ⟨p, category, hfirst, hhole, hfill⟩ := ih
      refine ⟨_, category, foremost?_child hbefore hfirst, ?_, fun v => ?_⟩
      · rw [firstHole?_child hbefore hc, hhole]
      · rw [fill_child hbefore hc]
        exact (hfill v).child

/-! ## The symbols in a row -/

theorem symbolsOfAll_append :
    symbolsOfAll (before ++ after) = symbolsOfAll before ++ symbolsOfAll after := by
  induction before with
  | nil => rfl
  | cons c before ih => rw [List.cons_append, symbolsOfAll, symbolsOfAll, ih, List.append_assoc]

theorem symbolsOfAll_leaves (args : List Symbol) : symbolsOfAll (args.map leaf) = args := by
  induction args with
  | nil => rfl
  | cons s args ih =>
      rw [List.map_cons, symbolsOfAll, ih]
      rfl

theorem symbols_production (p : Production) : p.term.symbols = p.operatorSymbol :: p.args := by
  rw [Production.term, symbols, symbolsOfAll_leaves]

mutual

/-- A term is complete if it has no symbols but terminals. -/
theorem isComplete_iff_symbols : ∀ (t : Term),
    t.isComplete = true ↔ ∀ s ∈ t.symbols, s.isTerminal = true
  | node s cs => by
      rw [isComplete, Bool.and_eq_true, allComplete_iff_symbolsOfAll cs, symbols,
        List.forall_mem_cons]

theorem allComplete_iff_symbolsOfAll : ∀ (cs : List Term),
    allComplete cs = true ↔ ∀ s ∈ symbolsOfAll cs, s.isTerminal = true
  | [] => by simp [allComplete, symbolsOfAll]
  | c :: cs => by
      rw [allComplete, Bool.and_eq_true, isComplete_iff_symbols c, allComplete_iff_symbolsOfAll cs,
        symbolsOfAll, List.forall_mem_append]

end

theorem isBare_of_allBare_append (h : allBare (before ++ c :: after) = true) : c.isBare = true := by
  induction before with
  | nil =>
      rw [List.nil_append, allBare, Bool.and_eq_true] at h
      exact h.1
  | cons d before ih =>
      rw [List.cons_append, allBare, Bool.and_eq_true] at h
      exact ih h.2

/-- **If no hole has children, filling the first one changes the row of symbols at its first
non-terminal.** -/
theorem exists_symbols_fill (ht : t.isComplete = false) (hbare : t.isBare = true) :
    ∃ category left right, t.firstHole? = some category
      ∧ t.symbols = left ++ .nonTerminal category :: right
      ∧ (∀ s ∈ left, s.isTerminal = true)
      ∧ ∀ v : Term, (t.fill v).symbols = left ++ v.symbols ++ right := by
  induction t, ht using incomplete_induction with
  | hole category cs hcs =>
      rw [isBare, List.isEmpty_iff] at hbare
      subst hbare
      refine ⟨category, [], [], rfl, rfl, by simp, fun v => ?_⟩
      rw [fill_hole hcs, List.nil_append, List.append_nil]
  | child s before c after hbefore hc ih =>
      cases s with
      | nonTerminal category => simp [isBare] at hbare
      | terminal name =>
          obtain ⟨category, left, right, hfirst, hsymbols, hleft, hfill⟩ :=
            ih (isBare_of_allBare_append hbare)
          refine ⟨category, .terminal name :: (symbolsOfAll before ++ left),
            right ++ symbolsOfAll after, ?_, ?_, ?_, fun v => ?_⟩
          · rw [firstHole?_child hbefore hc, hfirst]
          · rw [symbols, symbolsOfAll_append, symbolsOfAll, hsymbols]
            simp
          · rw [List.forall_mem_cons, List.forall_mem_append]
            exact ⟨rfl, (allComplete_iff_symbolsOfAll before).mp hbefore, hleft⟩
          · rw [fill_child hbefore hc, symbols, symbolsOfAll_append, symbolsOfAll, hfill]
            simp

/-! ## All together -/

/-- The category of the first hole decides whether there are results, and how many. -/
theorem expand_of_firstHole? {category : String} {ps : List Production}
    (hfirst : t.firstHole? = some category)
    (hps : g.productions.filter (·.target = category) = ps) :
    (ps = [] → t.expand g = .error (.undefinedNonTerminal category))
      ∧ (ps ≠ [] → t.expand g = .ok (ps.map fun p => t.fill p.term)) := by
  rw [expand_eq, hfirst]
  dsimp only
  rw [Grammar.productionsOf, hps]
  cases ps with
  | nil => exact ⟨fun _ => rfl, fun h => absurd rfl h⟩
  | cons p ps => exact ⟨fun h => (List.cons_ne_nil _ _ h).elim, fun _ => rfl⟩

theorem forall₂_map_self {α β : Type} {R : α → β → Prop} {f : α → β} {as : List α}
    (h : ∀ a ∈ as, R a (f a)) : List.Forall₂ R as (as.map f) := by
  rw [List.forall₂_map_right_iff, List.forall₂_same]
  exact h

/--
**Expansion is one leftmost step and nothing else.**

Take any grammar and any term, whose non-terminals may have children. If no non-terminal is visited,
the result is the empty list. Otherwise let `p` be the position of the foremost non-terminal. If its
category has no production, this is the fault. If it has some, there are as many results, in the
order of the productions, and each is the term with an operator over fresh arguments in the place of
what was at `p`; everywhere else it has the symbols that it had.

So there is no result exactly for complete terms. If no non-terminal has children, each result has
the row of symbols of the term, but for the first non-terminal of the row: in its place are the
operator and the arguments of a production.
-/
theorem expand_replaces_foremost (g : Grammar) (t : Term) :
    (t.foremost? = none → t.expand g = .ok [])
      ∧ (∀ p s, t.foremost? = some (p, s) →
        t.symbolAt? p = some s ∧ ∃ category, s = .nonTerminal category ∧
          ∀ ps, g.productions.filter (·.target = category) = ps →
            (ps = [] → t.expand g = .error (.undefinedNonTerminal category))
              ∧ (ps ≠ [] → ∃ results, t.expand g = .ok results ∧ results ≠ []
                ∧ List.Forall₂ (fun production u => t.Replaces p production.term u) ps results))
      ∧ (t.expand g = .ok [] ↔ t.isComplete = true)
      ∧ (t.isBare = true → ∀ results, t.expand g = .ok results → results ≠ [] →
        ∃ left category right, t.symbols = left ++ .nonTerminal category :: right
          ∧ (∀ s ∈ left, s.isTerminal = true)
          ∧ List.Forall₂ (fun production u =>
              u.symbols = left ++ production.operatorSymbol :: (production.args ++ right))
            (g.productions.filter (·.target = category)) results) := by
  have hcomplete : t.isComplete = true → t.expand g = .ok [] := by
    intro h
    rw [expand_eq, (firstHole?_eq_none_iff t).mpr h]
  refine ⟨fun h => hcomplete (foremost?_eq_none_iff.mp h), ?_, ⟨?_, hcomplete⟩, ?_⟩
  · intro p s hp
    have hpartial : t.isComplete = false := by
      rw [← Bool.not_eq_true, ← foremost?_eq_none_iff, hp]
      exact Option.some_ne_none _
    obtain ⟨q, category, hq, hfirst, hfill⟩ := exists_foremost hpartial
    rw [hq] at hp
    cases hp
    refine ⟨(mem_postorder_iff t).mp (List.mem_of_find?_eq_some hq), category, rfl, ?_⟩
    intro ps hps
    obtain ⟨hnone, hsome⟩ := expand_of_firstHole? hfirst hps
    refine ⟨hnone, fun hne => ⟨_, hsome hne, ?_, forall₂_map_self fun _ _ => hfill _⟩⟩
    rwa [ne_eq, List.map_eq_nil_iff]
  · intro h
    by_contra hpartial
    rw [Bool.not_eq_true] at hpartial
    obtain ⟨_, category, _, hfirst, _⟩ := exists_foremost hpartial
    obtain ⟨hnone, hsome⟩ := expand_of_firstHole? (g := g) hfirst rfl
    by_cases hps : g.productions.filter (·.target = category) = []
    · cases (hnone hps).symm.trans h
    · have hnil := Except.ok.inj ((hsome hps).symm.trans h)
      exact hps (List.map_eq_nil_iff.mp hnil)
  · intro hbare results hresults hne
    have hpartial : t.isComplete = false := by
      rw [← Bool.not_eq_true]
      intro h
      exact hne (Except.ok.inj (hresults.symm.trans (hcomplete h)))
    obtain ⟨category, left, right, hfirst, hsymbols, hleft, hfill⟩ :=
      exists_symbols_fill hpartial hbare
    obtain ⟨hnone, hsome⟩ := expand_of_firstHole? (g := g) hfirst rfl
    have hps : g.productions.filter (·.target = category) ≠ [] := by
      intro h
      cases (hnone h).symm.trans hresults
    cases (hsome hps).symm.trans hresults
    refine ⟨left, category, right, hsymbols, hleft, forall₂_map_self fun production _ => ?_⟩
    rw [hfill, symbols_production, List.append_assoc, List.cons_append]

/-- A hole whose children are not complete: the hole below has a child as well. -/
def nested : Term :=
  node (.nonTerminal "E") [atom "x", op "Not" [node (.nonTerminal "B") [atom "y"]], hole "E"]

/-- The hole below is replaced, with its child. Without productions for it there is a fault,
whatever there is for the hole above. With bare holes the symbols stay in their row. -/
theorem expand_replaces_foremost_nested :
    (∃ results, nested.expand .arithmetic = .ok results ∧ results ≠ []
        ∧ List.Forall₂ (fun production u => nested.Replaces [1, 0] production.term u)
          (Grammar.arithmetic.productions.filter (·.target = "B")) results)
      ∧ nested.expand ⟨"E", [.leaf "E" "x"]⟩ = .error (.undefinedNonTerminal "B")
      ∧ ∃ left category right, [Symbol.terminal "Add", .terminal "x", .nonTerminal "E"]
          = left ++ .nonTerminal category :: right
        ∧ (∀ s ∈ left, s.isTerminal = true)
        ∧ List.Forall₂ (fun production u =>
            u.symbols = left ++ production.operatorSymbol :: (production.args ++ right))
          ((⟨"E", [.leaf "E" "x", ⟨"E", "Id", [.nonTerminal "E"]⟩]⟩ : Grammar).productions.filter
            (·.target = category))
          [op "Add" [atom "x", atom "x"], op "Add" [atom "x", op "Id" [hole "E"]]] := by
  have hplace : nested.foremost? = some ([1, 0], .nonTerminal "B") := by decide
  obtain ⟨_, category, heq, hstep⟩ :=
    (expand_replaces_foremost .arithmetic nested).2.1 _ _ hplace
  obtain ⟨_, category', heq', hstuck⟩ :=
    (expand_replaces_foremost ⟨"E", [.leaf "E" "x"]⟩ nested).2.1 _ _ hplace
  cases heq
  cases heq'
  exact ⟨(hstep _ rfl).2 (by decide), (hstuck _ rfl).1 (by decide),
    (expand_replaces_foremost ⟨"E", [.leaf "E" "x", ⟨"E", "Id", [.nonTerminal "E"]⟩]⟩
      (op "Add" [atom "x", hole "E"])).2.2.2 rfl _ rfl (by decide)⟩

end Sygus.Term
