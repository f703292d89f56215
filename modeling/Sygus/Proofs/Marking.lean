import Sygus.Proofs.Catalogue
import Sygus.Proofs.Expansion
import Sygus.Term.Expansion

/-!
# What the marks of a term say

A mark is written when its node is built and is read for ever after, in other terms too, since an
expansion step takes over all nodes that are not on its way. So what has to be shown is that no
node with a wrong mark comes into being.

The marks of a term are a function of its symbols: `MarkedTerm.ofTerm` puts them to a plain term,
and every marked term that is built node by node is the marking of a plain one. An expansion step on
the marking of a term gives the markings of the results for the term (`expand_ofTerm`). So all
marked terms that arise are markings (`Arises.exists_ofTerm`), and what is to be known of their marks
can be read off the plain terms.
-/

namespace Sygus

namespace MarkedTerm

variable {g : Grammar} {cs : List MarkedTerm} {t u v : MarkedTerm}

/-! ## Markings -/

theorem ofTerm_node (s : Symbol) (cs : List Term) :
    ofTerm (.node s cs) = build s (ofTerms cs) := by rw [ofTerm]

theorem ofTerms_eq_map (cs : List Term) : ofTerms cs = cs.map ofTerm := by
  induction cs with
  | nil => rfl
  | cons c cs ih => rw [ofTerms, ih, List.map_cons]

mutual

theorem term_ofTerm : ∀ (t : Term), (ofTerm t).term = t
  | .node s cs => by rw [ofTerm, build, term, terms_ofTerms cs]

theorem terms_ofTerms : ∀ (cs : List Term), terms (ofTerms cs) = cs
  | [] => rfl
  | c :: cs => by rw [ofTerms, terms, term_ofTerm c, terms_ofTerms cs]

end

/-- Terms that are marked alike are the same. -/
theorem ofTerm_inj {t u : Term} : ofTerm t = ofTerm u ↔ t = u := by
  constructor
  · intro h
    rw [← term_ofTerm t, h, term_ofTerm]
  · intro h
    rw [h]

mutual

/-- **The mark at the root says whether the term is complete.** -/
theorem isComplete_ofTerm : ∀ (t : Term), (ofTerm t).isComplete = t.isComplete
  | .node s cs => by
      rw [ofTerm, build, isComplete, all_ofTerms cs, Term.isComplete]

theorem all_ofTerms : ∀ (cs : List Term), (ofTerms cs).all isComplete = Term.allComplete cs
  | [] => rfl
  | c :: cs => by
      rw [ofTerms, List.all_cons, isComplete_ofTerm c, all_ofTerms cs, Term.allComplete]

end

mutual

theorem symbols_ofTerm : ∀ (t : Term), (ofTerm t).symbols = t.symbols
  | .node s cs => by rw [ofTerm, build, symbols, symbolsOfAll_ofTerms cs, Term.symbols]

theorem symbolsOfAll_ofTerms : ∀ (cs : List Term),
    symbolsOfAll (ofTerms cs) = Term.symbolsOfAll cs
  | [] => rfl
  | c :: cs => by
      rw [ofTerms, symbolsOfAll, symbols_ofTerm c, symbolsOfAll_ofTerms cs, Term.symbolsOfAll]

end

/-! ## Expansion -/

theorem ofTerms_leaves (args : List Symbol) : ofTerms (args.map Term.leaf) = args.map leaf := by
  rw [ofTerms_eq_map, List.map_map]
  rfl

theorem ofTerm_production (p : Production) : ofTerm p.term = ofProduction p := by
  rw [Production.term, ofTerm_node, ofTerms_leaves, ofProduction]

theorem map_ofProduction (ps : List Production) :
    ps.map ofProduction = (ps.map Production.term).map ofTerm := by
  rw [List.map_map]
  exact List.map_congr_left fun p _ => (ofTerm_production p).symm

/-- Results that are made out of other results, in two ways that come to the same. -/
theorem map_map_comm {α β γ δ : Type} (r : Except Fault (List α)) {f : α → β} {h : β → δ}
    {k : α → γ} {l : γ → δ} (hcomm : ∀ a, h (f a) = l (k a)) :
    (do return (← r.map (·.map f)).map h) = (do return (← r).map k : Except _ _).map (·.map l) := by
  rw [Term.map_map_ok]
  cases r with
  | error fault => rfl
  | ok as =>
      have hmap : as.map (fun a => h (f a)) = (as.map k).map l := by
        rw [List.map_map]
        exact List.map_congr_left fun a _ => hcomm a
      exact congrArg Except.ok hmap

mutual

/-- **A step by the marks is a step.** -/
theorem expand_ofTerm : ∀ (t : Term),
    (ofTerm t).expand g.catalogue = (t.expand g).map (·.map ofTerm)
  | .node s cs => by
      rw [ofTerm, build]
      unfold expand Term.expand
      rw [expandFirst?_ofTerms cs]
      cases Term.expandFirst? g cs with
      | some results => exact map_map_comm results fun ds => (ofTerm_node s ds).symm
      | none =>
          cases s with
          | terminal name => rfl
          | nonTerminal category =>
              simp only [Option.map_none, Catalogue.productionsOf_catalogue]
              cases g.productionsOf category with
              | error fault => rfl
              | ok ps => exact congrArg Except.ok (map_ofProduction ps)

theorem expandFirst?_ofTerms : ∀ (cs : List Term), expandFirst? g.catalogue (ofTerms cs)
    = (Term.expandFirst? g cs).map (·.map (·.map ofTerms))
  | [] => rfl
  | c :: cs => by
      rw [ofTerms, expandFirst?, isComplete_ofTerm, Term.expandFirst?]
      cases c.isComplete with
      | true =>
          rw [if_pos rfl, if_pos rfl, expandFirst?_ofTerms cs]
          cases Term.expandFirst? g cs with
          | none => rfl
          | some results => exact congrArg some (map_map_comm results fun ds => rfl)
      | false =>
          rw [if_neg Bool.false_ne_true, if_neg Bool.false_ne_true, expand_ofTerm c]
          exact congrArg some (map_map_comm (c.expand g) fun d => rfl)

end

/-- What is followed on marked terms is a derivation of plain ones. -/
theorem derive_cons (g : Grammar) (t : Term) (pick : Nat) (picks : List Nat) :
    t.derive g (pick :: picks) = match t.expand g with
      | .error fault => [.failed fault]
      | .ok results =>
        match results[pick % results.length]? with
        | none => [.finished]
        | some next => .chosen results.length next :: next.derive g picks := by
  rw [Term.derive, derive, expand_ofTerm]
  cases t.expand g with
  | error fault => rfl
  | ok results =>
      simp only [Except.map, List.length_map, List.getElem?_map]
      cases results[pick % results.length]? with
      | none => rfl
      | some next =>
          simp only [Option.map_some, term_ofTerm]
          rfl

/-! ## All nodes -/

/-- A term is the other one or stands somewhere below its root. -/
inductive Occurs : MarkedTerm → MarkedTerm → Prop where
  | here (t : MarkedTerm) : Occurs t t
  | inside {t c : MarkedTerm} (s : Symbol) {cs : List MarkedTerm} (m : Bool) (hc : c ∈ cs)
      (h : Occurs t c) : Occurs t (node s cs m)

/-- What stands in a marking is a marking. -/
theorem Occurs.exists_ofTerm (h : v.Occurs t) {u : Term} (ht : t = ofTerm u) :
    ∃ w, v = ofTerm w := by
  induction h generalizing u with
  | here => exact ⟨u, ht⟩
  | inside _ _ hc _ ih =>
      cases u with
      | node s' us =>
          rw [ofTerm_node, build] at ht
          cases ht
          rw [ofTerms_eq_map, List.mem_map] at hc
          obtain ⟨w, _, hw⟩ := hc
          exact ih hw.symm

/-- The marked terms that arise: they are built node by node, or come out of an expansion step of
some grammar. -/
inductive Arises : MarkedTerm → Prop where
  | build (s : Symbol) {cs : List MarkedTerm} (hcs : ∀ c ∈ cs, Arises c) : Arises (build s cs)
  | leaf (s : Symbol) : Arises (leaf s)
  | op (name : String) {args : List MarkedTerm} (hargs : ∀ c ∈ args, Arises c) :
      Arises (op name args)
  | atom (name : String) : Arises (atom name)
  | hole (name : String) : Arises (hole name)
  | expanded (g : Grammar) {t u : MarkedTerm} {results : List MarkedTerm} (ht : Arises t)
      (hresults : t.expand g.catalogue = .ok results) (hu : u ∈ results) : Arises u

theorem exists_ofTerms (h : ∀ c ∈ cs, ∃ u, c = ofTerm u) : ∃ us, cs = ofTerms us := by
  induction cs with
  | nil => exact ⟨[], rfl⟩
  | cons c cs ih =>
      obtain ⟨u, rfl⟩ := h c List.mem_cons_self
      obtain ⟨us, rfl⟩ := ih fun d hd => h d (List.mem_cons_of_mem _ hd)
      exact ⟨u :: us, rfl⟩

theorem exists_ofTerm_of_build (s : Symbol) (h : ∀ c ∈ cs, ∃ u, c = ofTerm u) :
    ∃ u, build s cs = ofTerm u := by
  obtain ⟨us, rfl⟩ := exists_ofTerms h
  exact ⟨.node s us, (ofTerm_node s us).symm⟩

theorem exists_ofTerm_of_leaf (s : Symbol) : ∃ u, leaf s = ofTerm u :=
  exists_ofTerm_of_build s fun _ hc => absurd hc List.not_mem_nil

/-- **Every marked term that arises is the marking of a term.** -/
theorem Arises.exists_ofTerm (h : t.Arises) : ∃ u, t = ofTerm u := by
  induction h with
  | build s _ ih => exact exists_ofTerm_of_build s ih
  | leaf s => exact exists_ofTerm_of_leaf s
  | op name _ ih => exact exists_ofTerm_of_build (.terminal name) ih
  | atom name => exact exists_ofTerm_of_leaf (.terminal name)
  | hole name => exact exists_ofTerm_of_leaf (.nonTerminal name)
  | expanded g _ hresults hu ih =>
      -- the term before the step is a marking, so the results are markings of its results
      obtain ⟨u, rfl⟩ := ih
      rw [expand_ofTerm] at hresults
      cases hterms : u.expand g with
      | error fault =>
          rw [hterms] at hresults
          cases hresults
      | ok terms =>
          rw [hterms] at hresults
          cases hresults
          obtain ⟨w, _, hw⟩ := List.mem_map.mp hu
          exact ⟨w, hw.symm⟩

/-! ## Equality -/

mutual

/-- The symbols are equal and the children are so in turn, whatever the marks. -/
def Alike : MarkedTerm → MarkedTerm → Prop
  | node s cs _, node s' ds _ => s = s' ∧ AllAlike cs ds

/-- The terms of two lists are alike, one by one. -/
def AllAlike : List MarkedTerm → List MarkedTerm → Prop
  | [], [] => True
  | c :: cs, d :: ds => c.Alike d ∧ AllAlike cs ds
  | _, _ => False

end

mutual

theorem alike_iff : ∀ (t u : MarkedTerm), t.Alike u ↔ t.term = u.term
  | node s cs _, node s' ds _ => by
      rw [Alike, term, term, Term.node.injEq, allAlike_iff cs ds]

theorem allAlike_iff : ∀ (cs ds : List MarkedTerm), AllAlike cs ds ↔ terms cs = terms ds
  | [], [] => by simp [AllAlike]
  | [], d :: ds => by simp [AllAlike, terms]
  | c :: cs, [] => by simp [AllAlike, terms]
  | c :: cs, d :: ds => by
      rw [AllAlike, terms, terms, List.cons.injEq, alike_iff c d, allAlike_iff cs ds]

end

/-- **Terms that arise and look alike have the same marks.** -/
theorem Arises.eq_iff_alike (ht : t.Arises) (hu : u.Arises) : t = u ↔ t.Alike u := by
  obtain ⟨a, rfl⟩ := ht.exists_ofTerm
  obtain ⟨b, rfl⟩ := hu.exists_ofTerm
  rw [alike_iff, term_ofTerm, term_ofTerm, ofTerm_inj]

/-! ## All together -/

/--
**A mark says whether a non-terminal is at or below its node.**

Take marked terms that have been built node by node, in any way, or have come out of any number of
expansion steps of any grammars. At every node of such a term, the mark says that it is complete
exactly if no non-terminal is among the symbols at and below the node. Two such terms are equal,
marks included, exactly if symbols and children are equal all the way down; so a collection of such
terms holds one exactly if it holds one that looks like it.

And a step that goes by the marks has the results, in their order, that a step of the term without
marks has.
-/
theorem mark_iff_no_nonTerminal (ht : t.Arises) (hu : u.Arises) :
    (∀ v : MarkedTerm, v.Occurs t →
        (v.isComplete = true ↔ ∀ s ∈ v.symbols, s.isNonTerminal = false))
      ∧ (t = u ↔ t.Alike u)
      ∧ (∀ seen : List MarkedTerm, (∀ v ∈ seen, v.Arises) → (t ∈ seen ↔ ∃ v ∈ seen, t.Alike v))
      ∧ ∀ g : Grammar, (t.expand g.catalogue).map (·.map term) = t.term.expand g := by
  refine ⟨?_, ht.eq_iff_alike hu, ?_, ?_⟩
  · intro v hv
    obtain ⟨a, ha⟩ := ht.exists_ofTerm
    obtain ⟨b, rfl⟩ := hv.exists_ofTerm ha
    rw [isComplete_ofTerm, symbols_ofTerm, Term.isComplete_iff_symbols]
    simp [Symbol.isNonTerminal]
  · intro seen hseen
    constructor
    · intro hmem
      exact ⟨t, hmem, (ht.eq_iff_alike ht).mp rfl⟩
    · intro h
      obtain ⟨v, hv, halike⟩ := h
      rw [(ht.eq_iff_alike (hseen v hv)).mpr halike]
      exact hv
  · intro g
    obtain ⟨a, rfl⟩ := ht.exists_ofTerm
    rw [expand_ofTerm, term_ofTerm]
    cases a.expand g with
    | error fault => rfl
    | ok results =>
        have hterm : (results.map ofTerm).map term = results := by
          rw [List.map_map]
          exact List.map_id'' term_ofTerm results
        exact congrArg Except.ok hterm

/-- The operator `Add` over `x` and a hole, with its marks. -/
def halfSum : MarkedTerm :=
  node (.terminal "Add") [node (.terminal "x") [] true, node (.nonTerminal "E") [] false] false

/-- Two steps lead from a hole to the term. -/
theorem arises_halfSum : halfSum.Arises := by
  have hfirst : (hole "E").expand Grammar.arithmetic.catalogue
      = .ok ((Grammar.arithmetic.productions.take 9).map ofProduction) := rfl
  have hsum : (op "Add" [hole "E", hole "E"]).Arises :=
    .expanded .arithmetic (.hole "E") hfirst (by decide)
  have hsecond : (op "Add" [hole "E", hole "E"]).expand Grammar.arithmetic.catalogue
      = .ok ((Grammar.arithmetic.productions.take 9).map fun p =>
        build (.terminal "Add") [ofProduction p, hole "E"]) := rfl
  exact .expanded .arithmetic hsum hsecond (by decide)

theorem arises_op_half : (op "Add" [atom "x", hole "E"]).Arises := by
  refine .op "Add" fun c hc => ?_
  rw [List.mem_cons, List.mem_singleton] at hc
  cases hc with
  | inl hx =>
      rw [hx]
      exact .atom "x"
  | inr hhole =>
      rw [hhole]
      exact .hole "E"

/-- The term that was derived and the one that was put together are equal, and a set that has the
one has the other. The mark of the derived term is right at its root and at the leaf below. -/
theorem mark_iff_no_nonTerminal_halfSum :
    halfSum.Arises ∧ (op "Add" [atom "x", hole "E"]).Arises
      ∧ halfSum = op "Add" [atom "x", hole "E"]
      ∧ halfSum ∈ [atom "x", op "Add" [atom "x", hole "E"]]
      ∧ halfSum.Occurs halfSum ∧ (halfSum.isComplete = true ↔
        ∀ s ∈ [Symbol.terminal "Add", .terminal "x", .nonTerminal "E"], s.isNonTerminal = false)
      ∧ (atom "x").Occurs halfSum ∧ ((atom "x").isComplete = true ↔
        ∀ s ∈ [Symbol.terminal "x"], s.isNonTerminal = false) := by
  obtain ⟨hmarks, heq, hset, _⟩ := mark_iff_no_nonTerminal arises_halfSum arises_op_half
  have halike : halfSum.Alike (op "Add" [atom "x", hole "E"]) := by
    simp [halfSum, op, atom, hole, leaf, build, Alike, AllAlike]
  have hseen : ∀ v ∈ [atom "x", op "Add" [atom "x", hole "E"]], v.Arises := by
    intro v hv
    rw [List.mem_cons, List.mem_singleton] at hv
    cases hv with
    | inl hx =>
        rw [hx]
        exact .atom "x"
    | inr hop =>
        rw [hop]
        exact arises_op_half
  have hleaf : (atom "x").Occurs halfSum := .inside _ _ (by decide) (.here _)
  exact ⟨arises_halfSum, arises_op_half, heq.mpr halike,
    (hset _ hseen).mpr ⟨_, by decide, halike⟩, .here _, hmarks _ (.here _), hleaf, hmarks _ hleaf⟩

end MarkedTerm

end Sygus
