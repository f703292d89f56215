import Mathlib.Data.List.Basic
import Sygus.Term.Expansion

/-!
# Derivations

`expand` computes all results of one leftmost step; `Expands` says what one such step does.
A complete term that leftmost steps lead to is a **completion**: every hole is replaced by
some tree of its category, and nothing else changes. `Completes g n u t` says so about the
trees alone, with no order of steps in it, and counts how many holes there are to replace.

The two views are joined step by step. A partial term that has a completion can make a step
that is one nearer to it (`Completes.exists_expands`), and what completes the result of a
step completes the term before it (`Completes.of_expands`). Terms that derive from a symbol
have **bare** holes, that is, holes without children; only for those the second view is
complete.
-/

namespace Sygus

variable {g : Grammar}

theorem mem_productionsOf {category : String} {ps : List Production}
    (h : g.productionsOf category = .ok ps) {p : Production} :
    p ∈ ps ↔ p ∈ g.productions ∧ p.target = category := by
  unfold Grammar.productionsOf at h
  split at h
  · exact absurd h (by simp)
  · rename_i hf
    cases h
    rw [← hf, List.mem_filter, decide_eq_true_eq]

namespace Term

mutual

/-- One leftmost step. -/
inductive Expands (g : Grammar) : Term → Term → Prop where
  /-- A hole over complete children is replaced by a production of its category. -/
  | hole {category : String} {cs : List Term} {p : Production} :
      allComplete cs = true → p ∈ g.productions → p.target = category →
      Expands g (node (.nonTerminal category) cs) p.term
  | child {s : Symbol} {cs cs' : List Term} :
      ExpandsFirst g cs cs' → Expands g (node s cs) (node s cs')

/-- One leftmost step in the first incomplete term of a list. -/
inductive ExpandsFirst (g : Grammar) : List Term → List Term → Prop where
  | here {c c' : Term} {cs : List Term} :
      c.isComplete = false → Expands g c c' → ExpandsFirst g (c :: cs) (c' :: cs)
  | later {c : Term} {cs cs' : List Term} :
      c.isComplete = true → ExpandsFirst g cs cs' → ExpandsFirst g (c :: cs) (c :: cs')

end

theorem expandFirst?_eq_none_iff {cs : List Term} :
    expandFirst? g cs = none ↔ allComplete cs = true := by
  induction cs with
  | nil => simp [expandFirst?, allComplete]
  | cons c cs ih =>
      rw [expandFirst?, allComplete, Bool.and_eq_true]
      split
      · rename_i hc
        rw [Option.map_eq_none_iff, ih]
        simp [hc]
      · rename_i hc
        simp [hc]

theorem allComplete_false_of_expandsFirst {cs cs' : List Term} (h : ExpandsFirst g cs cs') :
    allComplete cs = false := by
  cases h with
  | here hc _ => simp [allComplete, hc]
  | later hc h => simp [allComplete, allComplete_false_of_expandsFirst h]

/-- A term is expanded in its first incomplete child, or at its root if all are complete. -/
theorem expand_cases {s : Symbol} {cs results : List Term}
    (h : (node s cs).expand g = .ok results) :
    (∃ lists, expandFirst? g cs = some (.ok lists) ∧ results = lists.map (node s))
      ∨ allComplete cs = true ∧ ((∃ name, s = .terminal name) ∧ results = []
        ∨ ∃ category ps, s = .nonTerminal category ∧ g.productionsOf category = .ok ps
          ∧ results = ps.map Production.term) := by
  unfold expand at h
  cases hfirst : expandFirst? g cs with
  | some r =>
      rw [hfirst] at h
      cases r with
      | error fault => cases h
      | ok lists =>
          cases h
          exact Or.inl ⟨lists, rfl, rfl⟩
  | none =>
      rw [hfirst] at h
      refine Or.inr ⟨expandFirst?_eq_none_iff.mp hfirst, ?_⟩
      cases s with
      | terminal name =>
          cases h
          exact Or.inl ⟨⟨name, rfl⟩, rfl⟩
      | nonTerminal category =>
          dsimp only at h
          cases hps : g.productionsOf category with
          | error fault =>
              rw [hps] at h
              cases h
          | ok ps =>
              rw [hps] at h
              cases h
              exact Or.inr ⟨category, ps, rfl, hps, rfl⟩

/-- A list of terms is expanded in its first term, or behind it if that is complete. -/
theorem expandFirst?_cons_cases {c : Term} {cs : List Term} {lists : List (List Term)}
    (h : expandFirst? g (c :: cs) = some (.ok lists)) :
    (c.isComplete = true ∧ ∃ rest, expandFirst? g cs = some (.ok rest) ∧ lists = rest.map (c :: ·))
      ∨ c.isComplete = false ∧ ∃ results, c.expand g = .ok results
        ∧ lists = results.map (· :: cs) := by
  rw [expandFirst?] at h
  split at h
  · rename_i hc
    cases hfirst : expandFirst? g cs with
    | none =>
        rw [hfirst] at h
        cases h
    | some r =>
        rw [hfirst] at h
        cases r with
        | error fault => cases h
        | ok rest =>
            cases h
            exact Or.inl ⟨hc, rest, rfl, rfl⟩
  · rename_i hc
    rw [Bool.not_eq_true] at hc
    cases hexp : c.expand g with
    | error fault =>
        rw [hexp] at h
        cases h
    | ok results =>
        rw [hexp] at h
        cases h
        exact Or.inr ⟨hc, results, rfl, rfl⟩

mutual

/-- **The results of `expand` are the leftmost steps.** -/
theorem mem_expand_iff : ∀ (t : Term) {results : List Term}, t.expand g = .ok results →
    ∀ {u : Term}, u ∈ results ↔ Expands g t u
  | node s cs, results, h, u => by
      rcases expand_cases h with ⟨lists, hfirst, rfl⟩ | ⟨hcomplete, hroot⟩
      · rw [List.mem_map]
        refine ⟨?_, ?_⟩
        · intro hexists
          obtain ⟨cs', hcs', rfl⟩ := hexists
          exact .child ((mem_expandFirst?_iff cs hfirst).mp hcs')
        · intro hu
          cases hu with
          | hole hcomplete _ _ =>
              rw [expandFirst?_eq_none_iff.mpr hcomplete] at hfirst
              cases hfirst
          | child hcs' => exact ⟨_, (mem_expandFirst?_iff cs hfirst).mpr hcs', rfl⟩
      · -- no child can be expanded, so a step is a step at the root
        have hno : ∀ {cs'}, ¬ ExpandsFirst g cs cs' := by
          intro cs' hcs'
          rw [allComplete_false_of_expandsFirst hcs'] at hcomplete
          cases hcomplete
        rcases hroot with ⟨⟨name, rfl⟩, rfl⟩ | ⟨category, ps, rfl, hps, rfl⟩
        · refine ⟨?_, ?_⟩
          · intro hu
            cases hu
          · intro hu
            cases hu with
            | child hcs' => exact absurd hcs' hno
        · rw [List.mem_map]
          refine ⟨?_, ?_⟩
          · intro hexists
            obtain ⟨p, hp, rfl⟩ := hexists
            obtain ⟨hmem, htarget⟩ := (mem_productionsOf hps).mp hp
            exact .hole hcomplete hmem htarget
          · intro hu
            cases hu with
            | @hole _ _ p _ hmem htarget =>
                exact ⟨p, (mem_productionsOf hps).mpr ⟨hmem, htarget⟩, rfl⟩
            | child hcs' => exact absurd hcs' hno

theorem mem_expandFirst?_iff : ∀ (cs : List Term) {lists : List (List Term)},
    expandFirst? g cs = some (.ok lists) → ∀ {cs' : List Term}, cs' ∈ lists ↔ ExpandsFirst g cs cs'
  | [], lists, h, cs' => by simp [expandFirst?] at h
  | c :: cs, lists, h, cs' => by
      rcases expandFirst?_cons_cases h with ⟨hc, rest, hrest, rfl⟩ | ⟨hc, results, hexp, rfl⟩
      · rw [List.mem_map]
        refine ⟨?_, ?_⟩
        · intro hexists
          obtain ⟨ds, hds, rfl⟩ := hexists
          exact .later hc ((mem_expandFirst?_iff cs hrest).mp hds)
        · intro hu
          cases hu with
          | here hc' _ =>
              rw [hc] at hc'
              cases hc'
          | later _ hds => exact ⟨_, (mem_expandFirst?_iff cs hrest).mpr hds, rfl⟩
      · rw [List.mem_map]
        refine ⟨?_, ?_⟩
        · intro hexists
          obtain ⟨d, hd, rfl⟩ := hexists
          exact .here hc ((mem_expand_iff c hexp).mp hd)
        · intro hu
          cases hu with
          | here _ hd => exact ⟨_, (mem_expand_iff c hexp).mpr hd, rfl⟩
          | later hc' _ =>
              rw [hc] at hc'
              cases hc'

end

/-! ## Completions -/

mutual

/-- `Completes g n u t`: replacing the holes of `u`, and the holes that this brings in, by
productions of their categories gives the complete term `t` after `n` replacements. -/
inductive Completes (g : Grammar) : Nat → Term → Term → Prop where
  | hole {n : Nat} {category name : String} {p : Production} {ts : List Term} :
      p ∈ g.productions → p.target = category → p.operator = name →
      CompletesAll g n (p.args.map leaf) ts →
      Completes g (n + 1) (node (.nonTerminal category) []) (node (.terminal name) ts)
  | node {n : Nat} {name : String} {us ts : List Term} :
      CompletesAll g n us ts → Completes g n (node (.terminal name) us) (node (.terminal name) ts)

/-- The same for a list of terms, all of whose holes count. -/
inductive CompletesAll (g : Grammar) : Nat → List Term → List Term → Prop where
  | nil : CompletesAll g 0 [] []
  | cons {m n : Nat} {u t : Term} {us ts : List Term} :
      Completes g m u t → CompletesAll g n us ts → CompletesAll g (m + n) (u :: us) (t :: ts)

end

/-- A term that derives from a symbol. -/
def Derives (g : Grammar) (s : Symbol) (t : Term) : Prop := ∃ n, Completes g n (leaf s) t

mutual

theorem Completes.isComplete {n : Nat} {u t : Term} (h : Completes g n u t) :
    t.isComplete = true := by
  cases h with
  | hole _ _ _ hall => simp [Term.isComplete, Symbol.isTerminal, hall.allComplete]
  | node hall => simp [Term.isComplete, Symbol.isTerminal, hall.allComplete]

theorem CompletesAll.allComplete {n : Nat} {us ts : List Term} (h : CompletesAll g n us ts) :
    allComplete ts = true := by
  cases h with
  | nil => rfl
  | cons hhead htail => simp [Term.allComplete, hhead.isComplete, htail.allComplete]

end

mutual

/-- A complete term completes itself. -/
theorem completes_self : ∀ {t : Term}, t.isComplete = true → Completes g 0 t t
  | Term.node (.terminal _) cs, h => by
      rw [Term.isComplete, Bool.and_eq_true] at h
      exact .node (completesAll_self h.2)
  | Term.node (.nonTerminal _) _, h => by simp [Term.isComplete, Symbol.isTerminal] at h

theorem completesAll_self : ∀ {cs : List Term}, allComplete cs = true → CompletesAll g 0 cs cs
  | [], _ => .nil
  | _ :: _, h => by
      rw [allComplete, Bool.and_eq_true] at h
      exact .cons (completes_self h.1) (completesAll_self h.2)

end

mutual

/-- A complete term has no other completion. -/
theorem Completes.eq_of_isComplete {n : Nat} {u t : Term} (h : Completes g n u t)
    (hu : u.isComplete = true) : n = 0 ∧ u = t := by
  cases h with
  | hole _ _ _ _ => simp [Term.isComplete, Symbol.isTerminal] at hu
  | node hall =>
      rw [Term.isComplete, Bool.and_eq_true] at hu
      obtain ⟨hn, heq⟩ := hall.eq_of_allComplete hu.2
      exact ⟨hn, by rw [heq]⟩

theorem CompletesAll.eq_of_allComplete {n : Nat} {us ts : List Term}
    (h : CompletesAll g n us ts) (hu : Term.allComplete us = true) : n = 0 ∧ us = ts := by
  cases h with
  | nil => exact ⟨rfl, rfl⟩
  | cons hhead htail =>
      rw [Term.allComplete, Bool.and_eq_true] at hu
      obtain ⟨hm, heq⟩ := hhead.eq_of_isComplete hu.1
      obtain ⟨hn, heqs⟩ := htail.eq_of_allComplete hu.2
      exact ⟨by omega, by rw [heq, heqs]⟩

end

theorem depth_pos (t : Term) : 1 ≤ t.depth := by
  cases t with
  | node s cs => rw [depth]; omega

mutual

/-- Completing a term does not make it less deep. -/
theorem Completes.depth_le {n : Nat} {u t : Term} (h : Completes g n u t) :
    u.depth ≤ t.depth := by
  cases h with
  | hole _ _ _ _ => exact Nat.le_trans (by simp [depth, maxDepth]) (depth_pos _)
  | node hall =>
      rw [depth, depth]
      exact Nat.add_le_add_left hall.maxDepth_le 1

theorem CompletesAll.maxDepth_le {n : Nat} {us ts : List Term} (h : CompletesAll g n us ts) :
    maxDepth us ≤ maxDepth ts := by
  cases h with
  | nil => exact Nat.le_refl _
  | cons hhead htail =>
      rw [maxDepth, maxDepth]
      have h₁ := hhead.depth_le
      have h₂ := htail.maxDepth_le
      omega

end

mutual

/-- **A partial term that has a completion can make a step towards it.** -/
theorem Completes.exists_expands {n : Nat} {u t : Term} (h : Completes g n u t)
    (hu : u.isComplete = false) :
    ∃ m u', n = m + 1 ∧ Expands g u u' ∧ Completes g m u' t := by
  cases h with
  | @hole n category name p ts hp htarget hname hall =>
      refine ⟨n, p.term, rfl, .hole rfl hp htarget, ?_⟩
      subst hname
      exact .node hall
  | @node n name us ts hall =>
      have hus : allComplete us = false := by
        simpa [Term.isComplete, Symbol.isTerminal] using hu
      obtain ⟨m, us', hn, hstep, hrest⟩ := hall.exists_expandsFirst hus
      exact ⟨m, _, hn, .child hstep, .node hrest⟩

theorem CompletesAll.exists_expandsFirst {n : Nat} {us ts : List Term}
    (h : CompletesAll g n us ts) (hus : Term.allComplete us = false) :
    ∃ m us', n = m + 1 ∧ ExpandsFirst g us us' ∧ CompletesAll g m us' ts := by
  cases h with
  | nil => simp [Term.allComplete] at hus
  | @cons k l u t us ts hhead htail =>
      rw [Term.allComplete, Bool.and_eq_false_iff] at hus
      cases hu : u.isComplete with
      | false =>
          obtain ⟨m, u', hk, hstep, hrest⟩ := hhead.exists_expands hu
          exact ⟨m + l, u' :: us, by omega, .here hu hstep, .cons hrest htail⟩
      | true =>
          have hus' := hus.resolve_left (by simp [hu])
          obtain ⟨m, us', hl, hstep, hrest⟩ := htail.exists_expandsFirst hus'
          exact ⟨k + m, u :: us', by omega, .later hu hstep, .cons hhead hrest⟩

end

/-! ## Bare holes -/

mutual

/-- Whether no hole has children. -/
def isBare : Term → Bool
  | node (.terminal _) cs => allBare cs
  | node (.nonTerminal _) cs => cs.isEmpty

/-- Whether no hole of a list of terms has children. -/
def allBare : List Term → Bool
  | [] => true
  | c :: cs => c.isBare && allBare cs

end

theorem allBare_leaves (args : List Symbol) : allBare (args.map leaf) = true := by
  induction args with
  | nil => rfl
  | cons s args ih =>
      cases s with
      | terminal name => simpa [allBare, isBare, leaf] using ih
      | nonTerminal name => simpa [allBare, isBare, leaf] using ih

theorem isBare_leaf (s : Symbol) : (leaf s).isBare = true := by
  have := allBare_leaves [s]
  simpa [allBare] using this

mutual

theorem Expands.isBare {u u' : Term} (h : Expands g u u') (hu : u.isBare = true) :
    u'.isBare = true := by
  cases h with
  | hole _ _ _ => exact allBare_leaves _
  | @child s cs cs' hcs =>
      cases s with
      | terminal name => exact hcs.allBare hu
      | nonTerminal name =>
          rw [Term.isBare, List.isEmpty_iff] at hu
          subst hu
          cases hcs

theorem ExpandsFirst.allBare {us us' : List Term} (h : ExpandsFirst g us us')
    (hu : Term.allBare us = true) : Term.allBare us' = true := by
  cases h with
  | here _ hstep =>
      rw [Term.allBare, Bool.and_eq_true] at hu ⊢
      exact ⟨hstep.isBare hu.1, hu.2⟩
  | later _ hstep =>
      rw [Term.allBare, Bool.and_eq_true] at hu ⊢
      exact ⟨hu.1, hstep.allBare hu.2⟩

end

mutual

/-- **What completes the result of a step completes the term before it.** -/
theorem Completes.of_expands {n : Nat} {u u' t : Term} (h : Expands g u u')
    (hu : u.isBare = true) (ht : Completes g n u' t) : Completes g (n + 1) u t := by
  cases h with
  | hole _ hp htarget =>
      rw [Term.isBare, List.isEmpty_iff] at hu
      subst hu
      cases ht with
      | node hall => exact .hole hp htarget rfl hall
  | @child s cs cs' hcs =>
      cases s with
      | terminal name =>
          cases ht with
          | node hall => exact .node (.of_expandsFirst hcs hu hall)
      | nonTerminal name =>
          rw [Term.isBare, List.isEmpty_iff] at hu
          subst hu
          cases hcs

theorem CompletesAll.of_expandsFirst {n : Nat} {us us' ts : List Term}
    (h : ExpandsFirst g us us') (hus : Term.allBare us = true) (ht : CompletesAll g n us' ts) :
    CompletesAll g (n + 1) us ts := by
  cases h with
  | here _ hstep =>
      rw [Term.allBare, Bool.and_eq_true] at hus
      cases ht with
      | @cons k l _ _ _ _ hhead htail =>
          rw [show k + l + 1 = k + 1 + l by omega]
          exact .cons (.of_expands hstep hus.1 hhead) htail
  | later _ hstep =>
      rw [Term.allBare, Bool.and_eq_true] at hus
      cases ht with
      | @cons k l _ _ _ _ hhead htail =>
          rw [show k + l + 1 = k + (l + 1) by omega]
          exact .cons hhead (.of_expandsFirst hstep hus.2 htail)

end

/-! ## Building derivations, and taking them apart -/

/-- Terms that derive from as many symbols. -/
def DerivesAll (g : Grammar) (args : List Symbol) (ts : List Term) : Prop :=
  ∃ n, CompletesAll g n (args.map leaf) ts

theorem DerivesAll.nil : DerivesAll g [] [] := ⟨0, .nil⟩

theorem DerivesAll.cons {s : Symbol} {t : Term} {args : List Symbol}
    {ts : List Term} (h : Derives g s t) (hs : DerivesAll g args ts) :
    DerivesAll g (s :: args) (t :: ts) := by
  obtain ⟨m, hm⟩ := h
  obtain ⟨n, hn⟩ := hs
  exact ⟨m + n, .cons hm hn⟩

/-- A production over arguments that derive gives a term that derives. -/
theorem derives_op {category name : String} {args : List Symbol} {ts : List Term}
    (hs : DerivesAll g args ts) (hp : ⟨category, name, args⟩ ∈ g.productions) :
    Derives g (.nonTerminal category) (.op name ts) := by
  obtain ⟨n, hn⟩ := hs
  exact ⟨n + 1, .hole hp rfl rfl hn⟩

variable {n : Nat} {ts : List Term}

theorem completesAll_nil_inv (h : CompletesAll g n [] ts) : ts = [] := by
  cases h
  rfl

theorem completesAll_cons_inv {u : Term} {us : List Term} (h : CompletesAll g n (u :: us) ts) :
    ∃ t ts', ts = t :: ts' ∧ (∃ i ≤ n, Completes g i u t) ∧ ∃ i ≤ n, CompletesAll g i us ts' := by
  cases h with
  | @cons k l _ _ _ _ hhead htail =>
      exact ⟨_, _, rfl, ⟨k, by omega, hhead⟩, l, by omega, htail⟩

theorem completesAll_one_inv {u : Term} (h : CompletesAll g n [u] ts) :
    ∃ t, ts = [t] ∧ ∃ i ≤ n, Completes g i u t := by
  obtain ⟨t, _, rfl, ht, _, _, hnil⟩ := completesAll_cons_inv h
  rw [completesAll_nil_inv hnil]
  exact ⟨t, rfl, ht⟩

theorem completesAll_two_inv {u v : Term} (h : CompletesAll g n [u, v] ts) :
    ∃ t t', ts = [t, t'] ∧ (∃ i ≤ n, Completes g i u t) ∧ ∃ i ≤ n, Completes g i v t' := by
  obtain ⟨t, _, rfl, ht, i, hi, hone⟩ := completesAll_cons_inv h
  obtain ⟨t', rfl, j, hj, ht'⟩ := completesAll_one_inv hone
  exact ⟨t, t', rfl, ht, j, by omega, ht'⟩

theorem completesAll_three_inv {u v w : Term} (h : CompletesAll g n [u, v, w] ts) :
    ∃ t t' t'', ts = [t, t', t''] ∧ (∃ i ≤ n, Completes g i u t)
      ∧ (∃ i ≤ n, Completes g i v t') ∧ ∃ i ≤ n, Completes g i w t'' := by
  obtain ⟨t, _, rfl, ht, i, hi, htwo⟩ := completesAll_cons_inv h
  obtain ⟨t', t'', rfl, ⟨j, hj, ht'⟩, k, hk, ht''⟩ := completesAll_two_inv htwo
  exact ⟨t, t', t'', rfl, ht, ⟨j, by omega, ht'⟩, k, by omega, ht''⟩

/-- A term that derives begins with a production, and fewer steps derive its children. -/
theorem completes_hole_inv {category : String} {t : Term}
    (h : Completes g n (.leaf (.nonTerminal category)) t) :
    ∃ m < n, ∃ p ∈ g.productions, p.target = category
      ∧ ∃ ts, t = .op p.operator ts ∧ CompletesAll g m (p.args.map leaf) ts := by
  cases h with
  | @hole n _ _ p ts hp htarget hname hall =>
      subst hname
      exact ⟨n, by omega, p, hp, htarget, ts, rfl, hall⟩

/-- Completing leaves an operator where it is. -/
theorem completes_node_inv {name : String} {us : List Term} {t : Term}
    (h : Completes g n (node (.terminal name) us) t) :
    ∃ ts, t = node (.terminal name) ts ∧ CompletesAll g n us ts := by
  cases h with
  | node hall => exact ⟨_, rfl, hall⟩

/-- What can be completed to a node is a hole or a node with the same operator. -/
theorem completes_op_inv {name : String} {u : Term} (h : Completes g n u (.op name ts)) :
    (∃ category, u = .hole category)
      ∨ ∃ us, u = node (.terminal name) us ∧ CompletesAll g n us ts := by
  cases h with
  | hole _ _ _ _ => exact Or.inl ⟨_, rfl⟩
  | node hall => exact Or.inr ⟨_, rfl, hall⟩

/-- A completion of a node completes its children. -/
theorem completes_one_inv {name name' : String} {u t : Term}
    (h : Completes g n (.node (.terminal name) [u]) (.op name' [t])) : ∃ i, Completes g i u t := by
  obtain ⟨ts, hterm, hall⟩ := completes_node_inv h
  cases hterm
  obtain ⟨_, hts, i, _, hu⟩ := completesAll_one_inv hall
  cases hts
  exact ⟨i, hu⟩

theorem completes_two_inv {name name' : String} {u v t t' : Term}
    (h : Completes g n (.node (.terminal name) [u, v]) (.op name' [t, t'])) :
    (∃ i, Completes g i u t) ∧ ∃ i, Completes g i v t' := by
  obtain ⟨ts, hterm, hall⟩ := completes_node_inv h
  cases hterm
  obtain ⟨_, _, hts, ⟨i, _, hu⟩, j, _, hv⟩ := completesAll_two_inv hall
  cases hts
  exact ⟨⟨i, hu⟩, j, hv⟩

theorem completes_three_inv {name name' : String} {u v w t t' t'' : Term}
    (h : Completes g n (.node (.terminal name) [u, v, w]) (.op name' [t, t', t''])) :
    (∃ i, Completes g i u t) ∧ (∃ i, Completes g i v t') ∧ ∃ i, Completes g i w t'' := by
  obtain ⟨ts, hterm, hall⟩ := completes_node_inv h
  cases hterm
  obtain ⟨_, _, _, hts, ⟨i, _, hu⟩, ⟨j, _, hv⟩, l, _, hw⟩ := completesAll_three_inv hall
  cases hts
  exact ⟨⟨i, hu⟩, ⟨j, hv⟩, l, hw⟩

theorem CompletesAll.length_eq {us : List Term} (h : CompletesAll g n us ts) :
    us.length = ts.length := by
  induction us generalizing n ts with
  | nil =>
      cases h
      rfl
  | cons u us ih =>
      cases h with
      | cons _ htail => rw [List.length_cons, List.length_cons, ih htail]

/-- What can be completed to a node with so many children is a hole or such a node. -/
theorem completes_to_one {name : String} {u t : Term} (h : Completes g n u (.op name [t])) :
    (∃ category, u = .hole category)
      ∨ ∃ v, u = node (.terminal name) [v] ∧ ∃ i, Completes g i v t := by
  rcases completes_op_inv h with hhole | ⟨us, rfl, hall⟩
  · exact Or.inl hhole
  · obtain ⟨v, rfl⟩ := List.length_eq_one_iff.mp hall.length_eq
    exact Or.inr ⟨v, rfl, completes_one_inv h⟩

theorem completes_to_two {name : String} {u t t' : Term} (h : Completes g n u (.op name [t, t'])) :
    (∃ category, u = .hole category)
      ∨ ∃ v w, u = node (.terminal name) [v, w] ∧ (∃ i, Completes g i v t)
        ∧ ∃ i, Completes g i w t' := by
  rcases completes_op_inv h with hhole | ⟨us, rfl, hall⟩
  · exact Or.inl hhole
  · obtain ⟨v, w, rfl⟩ := List.length_eq_two.mp hall.length_eq
    exact Or.inr ⟨v, w, rfl, completes_two_inv h⟩

theorem completes_to_three {name : String} {u t t' t'' : Term}
    (h : Completes g n u (.op name [t, t', t''])) :
    (∃ category, u = .hole category)
      ∨ ∃ v w z, u = node (.terminal name) [v, w, z] ∧ (∃ i, Completes g i v t)
        ∧ (∃ i, Completes g i w t') ∧ ∃ i, Completes g i z t'' := by
  rcases completes_op_inv h with hhole | ⟨us, rfl, hall⟩
  · exact Or.inl hhole
  · obtain ⟨v, w, z, rfl⟩ := List.length_eq_three.mp hall.length_eq
    exact Or.inr ⟨v, w, z, rfl, completes_three_inv h⟩

end Term

end Sygus
