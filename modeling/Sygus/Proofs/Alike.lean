import Mathlib.Data.List.Forall2
import Sygus.Proofs.Answer
import Sygus.Proofs.Readings

/-!
# Pools over examples with the same readings

Two problems are **alike** if they have the same grammar and their examples the same readings. The
examples may come in another order and another number, so the labels that a program has in one
problem mean nothing in the other one. But they denote the same readings. So what is decided by
labels is decided in the same way for both problems: whether a program has a new label, whether a
pool covers the examples, what an expression leaves over, which guards it has.

Pools that hold the same programs therefore have the same trees, and as long as their sources are
the same, they take in the same programs.
-/

namespace Sygus

/-- The two problems ask for the same: there is no reading that only one of them has. -/
structure Problem.Alike (problem problem' : Problem) : Prop where
  grammar : problem.grammar = problem'.grammar
  readings : readings problem.examples = readings problem'.examples

theorem Problem.Alike.symm {problem problem' : Problem} (h : problem.Alike problem') :
    problem'.Alike problem :=
  ⟨h.grammar.symm, h.readings.symm⟩

/-- The outcomes are the same, or both are faults. -/
inductive Concur {α : Type} : Except Fault α → Except Fault α → Prop where
  | same (outcome : Except Fault α) : Concur outcome outcome
  | faults (fault fault' : Fault) : Concur (.error fault) (.error fault')

variable {α : Type} {x : Except Fault α}

theorem Concur.eq_ok {a : α} (h : Concur (.ok a) x) : x = .ok a := by
  cases h
  rfl

theorem Concur.exists_error {fault : Fault} (h : Concur (.error fault) x) :
    ∃ fault', x = .error fault' := by
  cases h with
  | same => exact ⟨fault, rfl⟩
  | faults _ fault' => exact ⟨fault', rfl⟩

/-! ## Entries -/

/-- One program, labelled over two lists of examples. -/
structure Entry.Alike (role : Role) (examples examples' : List Example) (e e' : Entry Program) :
    Prop where
  piece : e.piece = e'.piece
  label : role.label e.piece examples = .ok e.label
  label' : role.label e'.piece examples' = .ok e'.label

/-- Two lists of entries hold the same programs in the same order. -/
abbrev AlikeEntries (role : Role) (examples examples' : List Example) :
    List (Entry Program) → List (Entry Program) → Prop :=
  List.Forall₂ (Entry.Alike role examples examples')

section Entries

variable {role : Role} {examples examples' : List Example} {e e' : Entry Program}
  {entries entries' : List (Entry Program)}

theorem Entry.Alike.symm (h : e.Alike role examples examples' e') :
    e'.Alike role examples' examples e :=
  ⟨h.piece.symm, h.label', h.label⟩

theorem Entry.Alike.denotes (h : e.Alike role examples examples' e') :
    e.label.Denotes examples (role.accepted e.piece) :=
  ExampleSet.denotes_label h.label

theorem Entry.Alike.denotes' (h : e.Alike role examples examples' e') :
    e'.label.Denotes examples' (role.accepted e.piece) :=
  h.piece ▸ h.symm.denotes

theorem AlikeEntries.symm (h : AlikeEntries role examples examples' entries entries') :
    AlikeEntries role examples' examples entries' entries :=
  (h.imp fun _ _ he => he.symm).flip

theorem AlikeEntries.labelled (h : AlikeEntries role examples examples' entries entries') :
    ∀ e ∈ entries, role.label e.piece examples = .ok e.label :=
  ((List.forall₂_and_left _ _).mp (h.imp fun _ _ he => ⟨he.label, he⟩)).1

/-- What is so of an entry of one list is so of an entry of the other one. -/
theorem exists_mem_iff_of_forall₂ {R : Entry Program → Entry Program → Prop}
    {P P' : Entry Program → Prop} (h : List.Forall₂ R entries entries')
    (hP : ∀ {e e'}, R e e' → (P e ↔ P' e')) :
    (∃ e ∈ entries, P e) ↔ ∃ e' ∈ entries', P' e' := by
  induction h with
  | nil => simp
  | cons he _ ih => rw [List.exists_mem_cons_iff, List.exists_mem_cons_iff, hP he, ih]

/-- What is found first in one list is found first in the other one. -/
theorem findSome?_eq_of_forall₂ {R : Entry Program → Entry Program → Prop}
    {f f' : Entry Program → Option Program} (h : List.Forall₂ R entries entries')
    (hf : ∀ {e e'}, R e e' → f e = f' e') :
    entries.findSome? f = entries'.findSome? f' := by
  induction h with
  | nil => rfl
  | cons he _ ih => rw [List.findSome?_cons, List.findSome?_cons, hf he, ih]

end Entries

/-! ## Stitching -/

namespace Stitcher

variable {examples examples' : List Example} {c c' : Stitcher Program} {needed needed' : ExampleSet}
  {Q : Set Reading}

/-- The pools hold the same programs. -/
structure Alike (examples examples' : List Example) (c c' : Stitcher Program) : Prop where
  expressions : AlikeEntries .expression examples examples' c.expressions c'.expressions
  predicates : AlikeEntries .predicate examples examples' c.predicates c'.predicates

theorem Alike.symm (h : c.Alike examples examples' c') : c'.Alike examples' examples c :=
  ⟨h.expressions.symm, h.predicates.symm⟩

theorem Alike.labelled (h : c.Alike examples examples' c') : c.Labelled examples :=
  ⟨h.expressions.labelled, h.predicates.labelled⟩

/-- Sets that denote the same have the same guards. -/
theorem Alike.guards_eq (h : c.Alike examples examples' c')
    (hreadings : readings examples = readings examples') {s s' : ExampleSet}
    (hs : s.Denotes examples Q) (hs' : s'.Denotes examples' Q) : c.guards s = c'.guards s' := by
  have hlabel : ∀ {e e' : Entry Program}, e.Alike .predicate examples examples' e' →
      (decide (e.label = s) = true ↔ decide (e'.label = s') = true) := by
    intro e e' he
    rw [decide_eq_true_iff, decide_eq_true_iff, he.denotes.eq_iff hs, he.denotes'.eq_iff hs',
      hreadings]
  have hkept := List.rel_filter (p := (·.label = s)) (q := (·.label = s')) (fun _ _ he => hlabel he)
    h.predicates
  have hprograms := List.rel_map (P := (· = ·)) (fun _ _ he => he.piece) hkept
  rwa [List.forall₂_eq_eq_eq] at hprograms

/-- **Sets that denote the same have the same tree.** -/
theorem Alike.tree_eq (h : c.Alike examples examples' c')
    (hreadings : readings examples = readings examples') {depth depth' : Nat}
    (hneeded : needed.Denotes examples Q) (hneeded' : needed'.Denotes examples' Q)
    (hdepth : needed.length < depth) (hdepth' : needed'.length < depth') :
    c.tree depth needed = c'.tree depth' needed' := by
  induction depth generalizing depth' needed needed' Q with
  | zero => omega
  | succ depth ih =>
      obtain ⟨depth', rfl⟩ : ∃ m, depth' = m + 1 := ⟨depth' - 1, by omega⟩
      rw [tree, tree]
      refine findSome?_eq_of_forall₂ h.expressions fun {e e'} he => ?_
      have hall : (needed.without e.label).isEmpty = true
          ↔ (needed'.without e'.label).isEmpty = true := by
        rw [ExampleSet.without_isEmpty_iff, ExampleSet.without_isEmpty_iff,
          hneeded.subset_iff he.denotes, hneeded'.subset_iff he.denotes', hreadings]
      have hnone : (needed.without e.label).length = needed.length
          ↔ (needed'.without e'.label).length = needed'.length := by
        rw [ExampleSet.length_without_eq_iff, ExampleSet.length_without_eq_iff,
          hneeded.disjoint_iff he.denotes, hneeded'.disjoint_iff he.denotes', hreadings]
      dsimp only
      by_cases hempty : (needed.without e.label).isEmpty = true
      · rw [if_pos hempty, if_pos (hall.mp hempty), he.piece]
      · rw [if_neg hempty, if_neg (fun h => hempty (hall.mpr h))]
        by_cases hsame : (needed.without e.label).length = needed.length
        · rw [if_pos hsame, if_pos (hnone.mp hsame)]
        · have hsame' : (needed'.without e'.label).length ≠ needed'.length :=
            fun h => hsame (hnone.mpr h)
          -- what is left denotes the same again, and is less
          have hlt := ExampleSet.length_without_lt hsame
          have hlt' := ExampleSet.length_without_lt hsame'
          have hrest : c.tree depth (needed.without e.label)
              = c'.tree depth' (needed'.without e'.label) :=
            ih (hneeded.without he.denotes) (hneeded'.without he.denotes') (by omega) (by omega)
          rw [if_neg hsame, if_neg hsame', h.guards_eq hreadings he.denotes he.denotes',
            he.piece, hrest]

/-- The answers for all examples are the same. -/
theorem Alike.answer_eq (h : c.Alike examples examples' c')
    (hreadings : readings examples = readings examples') :
    c.answer (List.range examples.length) = c'.answer (List.range examples'.length) :=
  h.tree_eq hreadings (ExampleSet.denotes_range _) (ExampleSet.denotes_range _)
    (Nat.lt_succ_self _) (Nat.lt_succ_self _)

end Stitcher

/-! ## Pools -/

/-- Two pools that have the same source and hold the same programs, over the examples of two
problems. -/
structure Pool.Alike (problem problem' : Problem) (role : Role) (p p' : Pool) : Prop where
  role_eq : p.role = role
  role_eq' : p'.role = role
  source : p.source = p'.source
  entries : AlikeEntries role problem.examples problem'.examples p.entries p'.entries
  tallied : p.Tallied
  tallied' : p'.Tallied

/-- Two attempts with the same answer, unless it is a fault, that leave pools behind which are
alike. -/
structure Growth.Alike (problem problem' : Problem) (role : Role) (g g' : Growth) : Prop where
  grew : Concur g.grew g'.grew
  pool : g.pool.Alike problem problem' role g'.pool

namespace Pool

variable {problem problem' : Problem} {role : Role} {p p' : Pool}

theorem alike_fresh (problem problem' : Problem) (role : Role) (bound : Option Nat) :
    (fresh role bound).Alike problem problem' role (fresh role bound) :=
  ⟨rfl, rfl, rfl, .nil, tallied_fresh _ _, tallied_fresh _ _⟩

theorem Alike.withSource (h : p.Alike problem problem' role p') (e : Enumerator) :
    (p.withSource e).Alike problem problem' role (p'.withSource e) :=
  ⟨h.role_eq, h.role_eq', rfl, h.entries, h.tallied.withSource e, h.tallied'.withSource e⟩

theorem Alike.take (h : p.Alike problem problem' role p') {program : Program} {s s' : ExampleSet}
    (hs : role.label program problem.examples = .ok s)
    (hs' : role.label program problem'.examples = .ok s') :
    (p.take program s).Alike problem problem' role (p'.take program s') :=
  ⟨h.role_eq, h.role_eq', h.source, List.rel_append h.entries (.cons ⟨rfl, hs, hs'⟩ .nil),
    h.tallied.take program s, h.tallied'.take program s'⟩

/-- A program is of use to both pools or to none. -/
theorem Alike.spurns_congr (h : p.Alike problem problem' role p')
    (hproblem : problem.Alike problem') {program : Program} {s s' : ExampleSet}
    (hs : role.label program problem.examples = .ok s)
    (hs' : role.label program problem'.examples = .ok s') : p.Spurns s ↔ p'.Spurns s' := by
  have hQ := ExampleSet.denotes_label hs
  have hQ' := ExampleSet.denotes_label hs'
  unfold Spurns
  rw [hQ.eq_nil_iff, hQ'.eq_nil_iff, hproblem.readings]
  refine or_congr_right (exists_mem_iff_of_forall₂ h.entries fun he => ?_)
  rw [he.denotes.eq_iff hQ, he.denotes'.eq_iff hQ', hproblem.readings]

/-- A pool covers the examples if each of their readings satisfies some program of it. -/
theorem Tallied.covers_iff_readings {examples : List Example} (htally : p.Tallied)
    (h : ∀ e ∈ p.entries, role.label e.piece examples = .ok e.label) :
    p.covers examples.length = true
      ↔ ∀ q ∈ readings examples, ∃ e ∈ p.entries, q ∈ role.accepted e.piece := by
  have hall := (ExampleSet.denotes_range examples).forall_iff
    (P := fun i => ∃ e ∈ p.entries, i ∈ e.label)
    (A := fun q => ∃ e ∈ p.entries, q ∈ role.accepted e.piece) ?_
  · rw [htally.covers_iff fun e he _ hi => Role.lt_of_mem_label (h e he) hi]
    simpa using hall
  · intro i x hi
    refine exists_congr fun e => and_congr_right fun he => ?_
    exact (ExampleSet.denotes_label (h e he)).mem_iff hi

/-- Both pools cover the examples or none does. -/
theorem Alike.covers_congr (h : p.Alike problem problem' role p')
    (hproblem : problem.Alike problem') :
    p.covers problem.examples.length = true ↔ p'.covers problem'.examples.length = true := by
  rw [h.tallied.covers_iff_readings h.entries.labelled,
    h.tallied'.covers_iff_readings h.entries.symm.labelled, hproblem.readings]
  refine forall₂_congr fun q _ => exists_mem_iff_of_forall₂ h.entries fun he => ?_
  rw [he.piece]

/-- **Pools that are alike grow alike,** by induction on the programs that are spurned. -/
theorem Alike.exists_grow (h : p.Alike problem problem' role p') (hproblem : problem.Alike problem')
    {fuel : Nat} {j : Journal} {g : Growth} (hg : p.grow problem .never fuel j = some g)
    (j' : Journal) :
    ∃ g', p'.grow problem' .never fuel j' = some g' ∧ g.Alike problem problem' role g' := by
  induction fuel generalizing p p' j j' with
  | zero => exact absurd hg (by simp [grow])
  | succ fuel ih =>
      rw [grow, Option.bind_eq_bind, Option.bind_eq_some_iff] at hg
      obtain ⟨pull, hpull, hg⟩ := hg
      rw [hproblem.grammar, h.source] at hpull
      obtain ⟨j₁, hpull'⟩ := Enumerator.exists_next_of_next hpull j'
      rw [grow, Option.bind_eq_bind, hpull', Option.bind_some]
      obtain ⟨result, rest, journal⟩ := pull
      have hrest := h.withSource rest
      rcases result with fault | _ | program
      · cases hg
        exact ⟨_, rfl, .same _, hrest⟩
      · cases hg
        exact ⟨_, rfl, .same _, hrest⟩
      · have hrole : p.role.label program = role.label program := by rw [h.role_eq]
        have hrole' : p'.role.label program = role.label program := by rw [h.role_eq']
        dsimp only at hg ⊢
        rw [hrole] at hg
        rw [hrole']
        rcases Role.labels_or_faults hproblem.readings role program with
          ⟨s, s', hlabel, hlabel'⟩ | ⟨fault, fault', hlabel, hlabel'⟩
        · rw [hlabel] at hg
          rw [hlabel']
          have hspurns : (s.isEmpty || (p.withSource rest).hasLabel s) = true
              ↔ (s'.isEmpty || (p'.withSource rest).hasLabel s') = true := by
            rw [spurns_iff, spurns_iff]
            exact hrest.spurns_congr hproblem hlabel hlabel'
          dsimp only at hg ⊢
          split at hg
          · rename_i hspurned
            obtain ⟨g', hg', halike⟩ := ih hrest hg j₁
            exact ⟨g', (if_pos (hspurns.mp hspurned)).trans hg', halike⟩
          · rename_i hnew
            cases hg
            exact ⟨_, if_neg (fun hspurned => hnew (hspurns.mpr hspurned)), .same _,
              hrest.take hlabel hlabel'⟩
        · rw [hlabel] at hg
          rw [hlabel']
          cases hg
          exact ⟨_, rfl, .faults _ _, hrest⟩

end Pool

end Sygus
