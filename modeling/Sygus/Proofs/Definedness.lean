import Sygus.Proofs.Enumeration

/-!
# Expansion without faults

The only fault that expansion knows is a hole whose category has no production. If some
categories keep to themselves, that is, if their productions have arguments of these
categories only, then leftmost steps bring in no hole of another category. So if all of them
are defined, whatever a walk from one of them meets can be expanded. A grammar is **closed** if
the defined categories keep to themselves.

A category may be defined and still derive nothing. If every defined category derives something,
every term whose holes are defined has a completion.
-/

namespace Sygus

variable {g : Grammar}

namespace Grammar

/-- The category has a production. -/
def Defines (g : Grammar) (category : String) : Prop := ∃ p ∈ g.productions, p.target = category

/-- The category of every argument has a production. -/
def Closed (g : Grammar) : Prop :=
  ∀ p ∈ g.productions, ∀ category, Symbol.nonTerminal category ∈ p.args → g.Defines category

/-- The productions of these categories have arguments of these categories only. -/
def KeepsTo (g : Grammar) (C : String → Prop) : Prop :=
  ∀ p ∈ g.productions, C p.target → ∀ category, Symbol.nonTerminal category ∈ p.args → C category

theorem Closed.keepsTo (h : g.Closed) : g.KeepsTo g.Defines := fun p hp _ => h p hp

/-- Every defined category derives something. -/
def Productive (g : Grammar) : Prop :=
  ∀ category, g.Defines category → ∃ t, Term.Derives g (.nonTerminal category) t

theorem Defines.productionsOf_eq {category : String} (h : g.Defines category) :
    g.productionsOf category = .ok (g.productions.filter (·.target = category)) := by
  obtain ⟨p, hp, htarget⟩ := h
  unfold productionsOf
  split
  · rename_i hnone
    have : p ∈ g.productions.filter (·.target = category) :=
      List.mem_filter.mpr ⟨hp, by simpa using htarget⟩
    rw [hnone] at this
    simp at this
  · rename_i hsome
    rw [hsome]

end Grammar

namespace Term

/-- Every hole is of one of these categories. -/
def HolesIn (C : String → Prop) (t : Term) : Prop :=
  ∀ category, Symbol.nonTerminal category ∈ t.symbols → C category

theorem mem_symbolsOfAll {cs : List Term} {s : Symbol} :
    s ∈ symbolsOfAll cs ↔ ∃ c ∈ cs, s ∈ c.symbols := by
  induction cs with
  | nil => simp [symbolsOfAll]
  | cons c cs ih => simp [symbolsOfAll, ih]

theorem holesIn_node {C : String → Prop} {s : Symbol} {cs : List Term} :
    (node s cs).HolesIn C
      ↔ (∀ category, s = .nonTerminal category → C category) ∧ ∀ c ∈ cs, c.HolesIn C := by
  unfold HolesIn
  simp only [symbols, List.mem_cons, mem_symbolsOfAll]
  refine ⟨?_, ?_⟩
  · intro h
    exact ⟨fun category hs => h category (Or.inl hs.symm),
      fun c hc category hmem => h category (Or.inr ⟨c, hc, hmem⟩)⟩
  · rintro ⟨hs, hcs⟩ category (heq | ⟨c, hc, hmem⟩)
    · exact hs category heq.symm
    · exact hcs c hc category hmem

theorem holesIn_leaf {C : String → Prop} {s : Symbol}
    (h : ∀ category, s = .nonTerminal category → C category) : (leaf s).HolesIn C :=
  holesIn_node.mpr ⟨h, by simp⟩

mutual

/-- **A term whose holes are all defined can be expanded.** -/
theorem exists_expand : ∀ (t : Term), t.HolesIn g.Defines → ∃ results, t.expand g = .ok results
  | node s cs, h => by
      rw [holesIn_node] at h
      unfold expand
      rcases exists_expandFirst? cs h.2 with hnone | ⟨lists, hlists⟩
      · rw [hnone]
        cases s with
        | terminal name => exact ⟨_, rfl⟩
        | nonTerminal category =>
            dsimp only
            rw [(h.1 category rfl).productionsOf_eq]
            exact ⟨_, rfl⟩
      · rw [hlists]
        exact ⟨_, rfl⟩

theorem exists_expandFirst? : ∀ (cs : List Term), (∀ c ∈ cs, c.HolesIn g.Defines) →
    expandFirst? g cs = none ∨ ∃ lists, expandFirst? g cs = some (.ok lists)
  | [], _ => Or.inl rfl
  | c :: cs, h => by
      rw [expandFirst?]
      split
      · rcases exists_expandFirst? cs (fun d hd => h d (List.mem_cons_of_mem _ hd)) with
          hnone | ⟨lists, hlists⟩
        · rw [hnone]
          exact Or.inl rfl
        · rw [hlists]
          exact Or.inr ⟨_, rfl⟩
      · obtain ⟨results, hresults⟩ := exists_expand c (h c List.mem_cons_self)
        rw [hresults]
        exact Or.inr ⟨_, rfl⟩

end

mutual

/-- Steps bring in no hole of another category. -/
theorem Expands.holesIn {C : String → Prop} {t u : Term} (hC : g.KeepsTo C) (h : Expands g t u)
    (ht : t.HolesIn C) : u.HolesIn C := by
  cases h with
  | @hole category cs p _ hp htarget =>
      rw [holesIn_node] at ht
      refine holesIn_node.mpr ⟨by simp [Production.operatorSymbol], ?_⟩
      intro c hc
      obtain ⟨s, hs, rfl⟩ := List.mem_map.mp hc
      have htargetC : C p.target := htarget ▸ ht.1 category rfl
      exact holesIn_leaf fun category' heq => hC p hp htargetC category' (heq ▸ hs)
  | child hcs =>
      rw [holesIn_node] at ht
      exact holesIn_node.mpr ⟨ht.1, hcs.holesIn hC ht.2⟩

theorem ExpandsFirst.holesIn {C : String → Prop} {cs cs' : List Term} (hC : g.KeepsTo C)
    (h : ExpandsFirst g cs cs') (hcs : ∀ c ∈ cs, c.HolesIn C) : ∀ c ∈ cs', c.HolesIn C := by
  cases h with
  | here _ hstep =>
      rw [List.forall_mem_cons] at hcs ⊢
      exact ⟨hstep.holesIn hC hcs.1, hcs.2⟩
  | later _ hrest =>
      rw [List.forall_mem_cons] at hcs ⊢
      exact ⟨hcs.1, hrest.holesIn hC hcs.2⟩

end

/-- What a walk meets has holes of the categories that it begins with. -/
theorem Met.holesIn {C : String → Prop} {bound : Option Nat} {category : String} {t : Term}
    (hC : g.KeepsTo C) (hcategory : C category) (h : Met g bound (.nonTerminal category) t) :
    t.HolesIn C := by
  induction h with
  | start =>
      exact holesIn_leaf fun category' heq => by
        cases heq
        exact hcategory
  | step _ hstep _ ih => exact hstep.holesIn hC ih

/-- **Whatever a walk of a closed grammar meets can be expanded.** -/
theorem Met.exists_expand {bound : Option Nat} {category : String} {t : Term} (hg : g.Closed)
    (hdefined : g.Defines category) (h : Met g bound (.nonTerminal category) t) :
    ∃ results, t.expand g = .ok results :=
  Term.exists_expand t (h.holesIn hg.keepsTo hdefined)

mutual

/-- **In a productive grammar, a term with defined holes has a completion.** -/
theorem exists_completes (hg : g.Productive) : ∀ (t : Term), t.isBare = true →
    t.HolesIn g.Defines → ∃ n u, Completes g n t u
  | node (.terminal name) cs, hbare, h => by
      obtain ⟨n, us, hall⟩ := exists_completesAll hg cs hbare (holesIn_node.mp h).2
      exact ⟨n, _, .node hall⟩
  | node (.nonTerminal category) cs, hbare, h => by
      rw [isBare, List.isEmpty_iff] at hbare
      subst hbare
      obtain ⟨t, n, hn⟩ := hg category ((holesIn_node.mp h).1 category rfl)
      exact ⟨n, t, hn⟩

theorem exists_completesAll (hg : g.Productive) : ∀ (cs : List Term), allBare cs = true →
    (∀ c ∈ cs, c.HolesIn g.Defines) → ∃ n us, CompletesAll g n cs us
  | [], _, _ => ⟨0, [], .nil⟩
  | c :: cs, hbare, h => by
      rw [allBare, Bool.and_eq_true] at hbare
      rw [List.forall_mem_cons] at h
      obtain ⟨n, u, hu⟩ := exists_completes hg c hbare.1 h.1
      obtain ⟨m, us, hus⟩ := exists_completesAll hg cs hbare.2 h.2
      exact ⟨n + m, u :: us, .cons hu hus⟩

end

end Term

end Sygus
