import Sygus.Proofs.Enumeration.Order
import Sygus.Proofs.DivideAndConquer.Soundness

/-!
# A pool is a sieve

To grow a pool is to go through the programs that its source hands out and to keep the first one
with every label. The **record** of a pool is the list of all answers that it has ever got from its
source, over any number of attempts to grow, however each of them ended. What is in the pool is
determined by its record: the entries are the programs in the record that are the first ones with
their labels, in this order, and no program in the record has a label that is neither empty nor
that of an entry. This is the invariant `Sifted`. One answer after the other keeps it, and so does
an attempt, however it ends.
-/

namespace Sygus

/-! ## Labels as sets -/

/-- The set holds the numbers of the examples that a program satisfies and no others, and the
program evaluates on all examples. -/
structure Role.Marks (role : Role) (examples : List Example) (p : Program) (s : ExampleSet) :
    Prop where
  /-- A set of examples in ascending order. -/
  sublist : s.Sublist (List.range examples.length)
  satisfies : ∀ i e, examples[i]? = some e → role.satisfies p e = .ok (decide (i ∈ s))

variable {role : Role} {examples : List Example} {p : Program}

/-- A program satisfies one set of examples only. -/
theorem Role.Marks.unique {s t : ExampleSet} (hs : role.Marks examples p s)
    (ht : role.Marks examples p t) : s = t := by
  refine ExampleSet.eq_of_mem_iff hs.sublist ht.sublist fun i => ?_
  by_cases hi : i < examples.length
  · have heq := (hs.satisfies i _ (List.getElem?_eq_getElem hi)).symm.trans
      (ht.satisfies i _ (List.getElem?_eq_getElem hi))
    exact decide_eq_decide.mp (Except.ok.inj heq)
  · exact ⟨fun h => absurd (List.mem_range.mp (hs.sublist.subset h)) hi,
      fun h => absurd (List.mem_range.mp (ht.sublist.subset h)) hi⟩

/-- **The label of a program is the set of the examples that it satisfies.** -/
theorem Role.label_eq_ok_iff {s : ExampleSet} :
    role.label p examples = .ok s ↔ role.Marks examples p s := by
  have hmarks : ∀ {s}, role.label p examples = .ok s → role.Marks examples p s := fun h =>
    ⟨label_sublist h, fun _ _ he => satisfies_of_label h he⟩
  refine ⟨hmarks, ?_⟩
  intro h
  have hevaluates : ∀ e ∈ examples, ∃ b, role.satisfies p e = .ok b := by
    intro e he
    obtain ⟨i, hi⟩ := List.mem_iff_getElem?.mp he
    exact ⟨_, h.satisfies i e hi⟩
  obtain ⟨t, ht⟩ := exists_label hevaluates
  rw [ht, h.unique (hmarks ht)]

namespace Pool

variable {problem : Problem} {bound : Option Nat} {stop : Stop}

/-! ## Records -/

/-- The answers that an attempt to grow gets from the source. -/
def drawn (problem : Problem) (stop : Stop) :
    Nat → Pool → Journal → List (Except Fault (Option Program))
  | 0, _, _ => []
  | fuel + 1, p, j =>
    match p.source.next problem.grammar stop fuel j with
    | none => []
    | some pull =>
      let p := { p with source := pull.rest }
      pull.result ::
        match pull.result with
        | .error _ => []
        | .ok none => []
        | .ok (some program) =>
          match p.role.label program problem.examples with
          | .error _ => []
          | .ok label =>
            if label.isEmpty || p.hasLabel label then drawn problem stop fuel p pull.journal
            else []

/-- The pools that successive attempts to grow build, each attempt with a flag of its own and
whatever it answers, with all answers that they have got from their sources. -/
inductive Record (problem : Problem) (role : Role) (bound : Option Nat) :
    List (Except Fault (Option Program)) → Pool → Prop where
  | fresh : Record problem role bound [] (.fresh role bound)
  | grow {answers : List (Except Fault (Option Program))} {p : Pool} {stop : Stop} {fuel : Nat}
      {j : Journal} {g : Growth} :
      Record problem role bound answers p → p.grow problem stop fuel j = some g →
      Record problem role bound (answers ++ p.drawn problem stop fuel j) g.pool

/-- What an attempt does with one answer after the other. -/
inductive Attempt (problem : Problem) (stop : Stop) :
    Pool → List (Except Fault (Option Program)) → Except Fault Bool → Pool → Prop where
  /-- Nothing comes. -/
  | ended {p : Pool} {fuel : Nat} {j j' : Journal} {rest : Enumerator} :
      p.source.next problem.grammar stop fuel j = some ⟨.ok none, rest, j'⟩ →
      Attempt problem stop p [.ok none] (.ok false) (p.withSource rest)
  /-- The source fails. -/
  | failed {p : Pool} {fuel : Nat} {j j' : Journal} {rest : Enumerator} {fault : Fault} :
      p.source.next problem.grammar stop fuel j = some ⟨.error fault, rest, j'⟩ →
      Attempt problem stop p [.error fault] (.error fault) (p.withSource rest)
  /-- A program comes that cannot be evaluated. -/
  | unlabelled {p : Pool} {fuel : Nat} {j j' : Journal} {rest : Enumerator} {program : Program}
      {fault : Fault} :
      p.source.next problem.grammar stop fuel j = some ⟨.ok (some program), rest, j'⟩ →
      p.role.label program problem.examples = .error fault →
      Attempt problem stop p [.ok (some program)] (.error fault) (p.withSource rest)
  /-- A program comes that has a new label. -/
  | took {p : Pool} {fuel : Nat} {j j' : Journal} {rest : Enumerator} {program : Program}
      {s : ExampleSet} :
      p.source.next problem.grammar stop fuel j = some ⟨.ok (some program), rest, j'⟩ →
      p.role.label program problem.examples = .ok s → ¬ p.Spurns s →
      Attempt problem stop p [.ok (some program)] (.ok true) ((p.withSource rest).take program s)
  /-- A program comes that is of no use, and the attempt goes on behind it. -/
  | spurned {p p' : Pool} {fuel : Nat} {j j' : Journal} {rest : Enumerator} {program : Program}
      {s : ExampleSet} {answers : List (Except Fault (Option Program))} {grew : Except Fault Bool} :
      p.source.next problem.grammar stop fuel j = some ⟨.ok (some program), rest, j'⟩ →
      p.role.label program problem.examples = .ok s → p.Spurns s →
      Attempt problem stop (p.withSource rest) answers grew p' →
      Attempt problem stop p (.ok (some program) :: answers) grew p'

/-- To grow is to make such an attempt. -/
theorem attempt_of_grow {fuel : Nat} {p : Pool} {j : Journal} {g : Growth}
    (h : p.grow problem stop fuel j = some g) :
    Attempt problem stop p (p.drawn problem stop fuel j) g.grew g.pool := by
  induction fuel generalizing p j with
  | zero => cases h
  | succ fuel ih =>
      rw [grow, Option.bind_eq_bind, Option.bind_eq_some_iff] at h
      obtain ⟨⟨result, rest, journal⟩, hpull, h⟩ := h
      rw [drawn, hpull]
      rcases result with fault | _ | program
      · cases h
        exact .failed hpull
      · cases h
        exact .ended hpull
      · dsimp only at h ⊢
        cases hlabel : p.role.label program problem.examples with
        | error fault =>
            rw [hlabel] at h
            cases h
            exact .unlabelled hpull hlabel
        | ok s =>
            rw [hlabel] at h
            dsimp only at h ⊢
            split
            · rename_i hspurned
              rw [if_pos hspurned] at h
              exact .spurned hpull hlabel (spurns_iff.mp hspurned) (ih h)
            · rename_i hnew
              rw [if_neg hnew] at h
              cases h
              exact .took hpull hlabel fun hs => hnew (spurns_iff.mpr hs)

variable {p p' : Pool} {answers answers' : List (Except Fault (Option Program))}
  {grew : Except Fault Bool}

/-- An attempt gets its answers by calls of the source, one after the other. -/
theorem Attempt.pulls (h : Attempt problem stop p answers grew p') :
    Enumerator.Pulls problem.grammar p.source answers p'.source := by
  induction h with
  | ended hnext => exact .cons hnext .nil
  | failed hnext => exact .cons hnext .nil
  | unlabelled hnext _ => exact .cons hnext .nil
  | took hnext _ _ => exact .cons hnext .nil
  | spurned hnext _ _ _ ih => exact .cons hnext ih

/-- An attempt that takes nothing in changes nothing but the source. -/
theorem Attempt.eq_withSource (h : Attempt problem stop p answers grew p') (hgrew : grew ≠ .ok true) :
    p' = p.withSource p'.source := by
  induction h with
  | ended | failed | unlabelled => rfl
  | took => exact absurd rfl hgrew
  | spurned _ _ _ _ ih => exact ih hgrew

/-! ## What a record tells of a pool -/

/-- An entry is the program in this place of a list, and that is the first one with its label. -/
structure First (problem : Problem) (role : Role) (programs : List Program) (i : Nat)
    (e : Entry Program) : Prop where
  getElem?_eq : programs[i]? = some e.piece
  marks : role.Marks problem.examples e.piece e.label
  earliest : ∀ k < i, ∀ q, programs[k]? = some q → ¬ role.Marks problem.examples q e.label

/-- The pool is what is left of the programs in its record. -/
structure Sifted (problem : Problem) (role : Role)
    (answers : List (Except Fault (Option Program))) (p : Pool) : Prop where
  role_eq : p.role = role
  /-- The entries are the first programs with their labels, and in order. -/
  firsts : ∃ places : List Nat, places.Pairwise (· < ·)
    ∧ List.Forall₂ (First problem role (programs answers)) places p.entries
  nonempty : ∀ e ∈ p.entries, e.label ≠ []
  distinct : (p.entries.map (·.label)).Nodup
  /-- No label is lost. -/
  spurns : ∀ q ∈ programs answers, ∀ s, role.label q problem.examples = .ok s → p.Spurns s
  tallied : p.Tallied

theorem sifted_fresh (problem : Problem) (role : Role) (bound : Option Nat) :
    (fresh role bound).Sifted problem role [] where
  role_eq := rfl
  firsts := ⟨[], .nil, .nil⟩
  nonempty := by simp [fresh]
  distinct := by simp [fresh]
  spurns := by simp [programs]
  tallied := tallied_fresh role bound

theorem First.append {l l' : List Program} {i : Nat} {e : Entry Program}
    (h : First problem role l i e) : First problem role (l ++ l') i e := by
  have hlt : i < l.length := (List.getElem?_eq_some_iff.mp h.getElem?_eq).1
  refine ⟨(List.getElem?_append_left hlt).trans h.getElem?_eq, h.marks, ?_⟩
  intro k hk q hq
  rw [List.getElem?_append_left (hk.trans hlt)] at hq
  exact h.earliest k hk q hq

theorem programs_concat (answers : List (Except Fault (Option Program))) (q : Program) :
    programs (answers ++ [.ok (some q)]) = programs answers ++ [q] :=
  programs_append answers [.ok (some q)]

/-- **An answer that is of no use goes through the sieve.** -/
theorem Sifted.pass (h : p.Sifted problem role answers) {answer : Except Fault (Option Program)}
    (huseless : ∀ q s, answer = .ok (some q) → p.role.label q problem.examples = .ok s → p.Spurns s)
    (source : Enumerator) :
    (p.withSource source).Sifted problem role (answers ++ [answer]) where
  role_eq := h.role_eq
  firsts := by
    obtain ⟨places, hsorted, hfirst⟩ := h.firsts
    rw [programs_append]
    exact ⟨places, hsorted, hfirst.imp fun _ _ => First.append⟩
  nonempty := h.nonempty
  distinct := h.distinct
  spurns := by
    intro q hq s hs
    rcases List.mem_append.mp (mem_programs.mp hq) with hq | hq
    · exact h.spurns q (mem_programs.mpr hq) s hs
    · rw [← h.role_eq] at hs
      exact huseless q s (List.mem_singleton.mp hq).symm hs
  tallied := h.tallied.withSource source

/-- **The first program with a label stays.** -/
theorem Sifted.take (h : p.Sifted problem role answers) {q : Program} {s : ExampleSet}
    (hs : p.role.label q problem.examples = .ok s) (hnew : ¬ p.Spurns s) (source : Enumerator) :
    ((p.withSource source).take q s).Sifted problem role (answers ++ [.ok (some q)]) where
  role_eq := h.role_eq
  firsts := by
    obtain ⟨places, hsorted, hfirst⟩ := h.firsts
    refine ⟨places ++ [(programs answers).length], ?_, ?_⟩
    · refine List.pairwise_append.mpr ⟨hsorted, List.pairwise_singleton _ _, ?_⟩
      intro i hi k hk
      obtain ⟨n, hn, rfl⟩ := List.mem_iff_getElem.mp hi
      have hplace := hfirst.get hn (hfirst.length_eq ▸ hn)
      rw [List.mem_singleton.mp hk]
      exact (List.getElem?_eq_some_iff.mp hplace.getElem?_eq).1
    · rw [programs_concat]
      refine List.rel_append (hfirst.imp fun _ _ => First.append) (.cons ?_ .nil)
      refine ⟨by simp, Role.label_eq_ok_iff.mp (h.role_eq ▸ hs), ?_⟩
      -- with such a program before it, the label would have been in the pool
      intro k hk q' hq' hmarks
      rw [List.getElem?_append_left hk] at hq'
      exact hnew (h.spurns q' (List.mem_of_getElem? hq') s (Role.label_eq_ok_iff.mpr hmarks))
  nonempty := nonempty_take h.nonempty hnew q
  distinct := distinct_take h.distinct hnew q
  spurns := by
    intro q' hq' s' hs'
    rw [programs_concat] at hq'
    rcases List.mem_append.mp hq' with hq' | hq'
    · exact (h.spurns q' hq' s' hs').take q
    · rw [List.mem_singleton.mp hq', ← h.role_eq, hs] at hs'
      cases hs'
      exact Or.inr ⟨⟨q, s⟩, List.mem_append_right _ List.mem_cons_self, rfl⟩
  tallied := (h.tallied.withSource source).take q s

/-- An attempt sifts one answer after the other. -/
theorem Attempt.sifted (h : Attempt problem stop p answers' grew p')
    (hp : p.Sifted problem role answers) : p'.Sifted problem role (answers ++ answers') := by
  induction h generalizing answers with
  | ended => exact hp.pass (by simp) _
  | failed => exact hp.pass (by simp) _
  | @unlabelled _ _ _ _ _ program fault _ hlabel =>
      refine hp.pass (fun q s hq hs => ?_) _
      cases hq
      cases hlabel.symm.trans hs
  | took _ hlabel hnew => exact hp.take hlabel hnew _
  | @spurned _ _ _ _ _ _ program s answers' _ _ hlabel hspurns _ ih =>
      rw [List.append_cons]
      refine ih (hp.pass (fun q t hq ht => ?_) _)
      cases hq
      cases hlabel.symm.trans ht
      exact hspurns

/-- **Growing sifts what comes from the source, however it ends.** -/
theorem Sifted.grow (hp : p.Sifted problem role answers) {fuel : Nat} {j : Journal} {g : Growth}
    (h : p.grow problem stop fuel j = some g) :
    g.pool.Sifted problem role (answers ++ p.drawn problem stop fuel j) :=
  (attempt_of_grow h).sifted hp

theorem Record.sifted (h : Record problem role bound answers p) :
    p.Sifted problem role answers := by
  induction h with
  | fresh => exact sifted_fresh problem role bound
  | grow _ hgrow ih => exact ih.grow hgrow

theorem Record.pulls (h : Record problem role bound answers p) :
    Enumerator.Pulls problem.grammar ((Enumerator.ofRole role).withBound bound) answers p.source := by
  induction h with
  | fresh => exact .nil
  | grow _ hgrow ih => exact ih.append (attempt_of_grow hgrow).pulls

/-- An entry has its place in the record. -/
theorem Sifted.exists_first (h : p.Sifted problem role answers) {e : Entry Program}
    (he : e ∈ p.entries) : ∃ i, First problem role (programs answers) i e := by
  obtain ⟨places, _, hfirst⟩ := h.firsts
  obtain ⟨n, hn, rfl⟩ := List.mem_iff_getElem.mp he
  exact ⟨_, hfirst.get (hfirst.length_eq ▸ hn) hn⟩

/-- The entries carry the labels of their programs. -/
theorem Sifted.marks (h : p.Sifted problem role answers) {e : Entry Program} (he : e ∈ p.entries) :
    role.Marks problem.examples e.piece e.label :=
  let ⟨_, hfirst⟩ := h.exists_first he
  hfirst.marks

/-- No two entries satisfy the same examples. -/
theorem Sifted.pairwise_ne (h : p.Sifted problem role answers) :
    p.entries.Pairwise fun e e' => ∃ i, ¬ (i ∈ e.label ↔ i ∈ e'.label) := by
  refine (List.pairwise_map.mp h.distinct).imp_of_mem ?_
  intro e e' he he' hne
  by_contra hsame
  push Not at hsame
  exact hne (ExampleSet.eq_of_mem_iff (h.marks he).sublist (h.marks he').sublist hsame)

theorem Sifted.covers_iff (h : p.Sifted problem role answers) :
    p.covers problem.examples.length = true
      ↔ ∀ i < problem.examples.length, ∃ e ∈ p.entries, i ∈ e.label :=
  h.tallied.covers_iff fun _ he _ hi => List.mem_range.mp ((h.marks he).sublist.subset hi)

/-- **A program that evaluates satisfies nothing, or satisfies what some entry satisfies.** -/
theorem Sifted.accounted (h : p.Sifted problem role answers) {q : Program}
    (hq : q ∈ programs answers)
    (hevaluates : ∀ x ∈ problem.examples, ∃ b, role.satisfies q x = .ok b) :
    (∀ x ∈ problem.examples, role.satisfies q x = .ok false)
      ∨ ∃ e ∈ p.entries, role.Marks problem.examples q e.label := by
  obtain ⟨s, hs⟩ := Role.exists_label hevaluates
  have hmarks := Role.label_eq_ok_iff.mp hs
  rcases h.spurns q hq s hs with rfl | ⟨e, he, rfl⟩
  · refine Or.inl fun x hx => ?_
    obtain ⟨i, hi⟩ := List.mem_iff_getElem?.mp hx
    simpa using hmarks.satisfies i x hi
  · exact Or.inr ⟨e, he, hmarks⟩

/--
**A pool keeps the first program with every behaviour.**

Take a pool of either kind after any number of attempts to grow it, whatever they answered, and all
answers that they got from the source, which are those of successive calls. Every entry is labelled
with exactly the examples that it satisfies. Labels are not empty and different from each other, and
what is covered are the examples in some label. Among the programs that came, those that evaluate on
all examples satisfy none of them or the same ones as some entry. The entries are the first programs
that satisfy what they satisfy, in the order in which they came. And if a further attempt does not
take anything in, then entries and what is covered stay as they were.
-/
theorem pools_keep_first_programs (h : Record problem role bound answers p) :
    Enumerator.Pulls problem.grammar ((Enumerator.ofRole role).withBound bound) answers p.source
    ∧ (∀ e ∈ p.entries, e.label ≠ [] ∧ role.Marks problem.examples e.piece e.label)
    ∧ p.entries.Pairwise (fun e e' => ∃ i, ¬ (i ∈ e.label ↔ i ∈ e'.label))
    ∧ (∀ i, i ∈ p.covered ↔ ∃ e ∈ p.entries, i ∈ e.label)
    ∧ (p.covers problem.examples.length = true
        ↔ ∀ i < problem.examples.length, ∃ e ∈ p.entries, i ∈ e.label)
    ∧ (∀ q ∈ programs answers, (∀ x ∈ problem.examples, ∃ b, role.satisfies q x = .ok b) →
        (∀ x ∈ problem.examples, role.satisfies q x = .ok false)
          ∨ ∃ e ∈ p.entries, role.Marks problem.examples q e.label)
    ∧ (∃ places : List Nat, places.Pairwise (· < ·)
        ∧ List.Forall₂ (First problem role (programs answers)) places p.entries)
    ∧ ∀ (stop : Stop) (fuel : Nat) (j : Journal) (g : Growth),
        p.grow problem stop fuel j = some g → g.grew ≠ .ok true →
          g.pool.entries = p.entries ∧ g.pool.covered = p.covered := by
  have hsifted := h.sifted
  refine ⟨h.pulls, fun e he => ⟨hsifted.nonempty e he, hsifted.marks he⟩, hsifted.pairwise_ne,
    hsifted.tallied.mem_iff, hsifted.covers_iff, fun q => hsifted.accounted, hsifted.firsts, ?_⟩
  intro stop fuel j g hgrow hgrew
  rw [(attempt_of_grow hgrow).eq_withSource hgrew]
  exact ⟨rfl, rfl⟩

/-- After two attempts over the examples of `Problem.branching`, each of them has its expression. -/
theorem pools_keep_first_programs_branching :
    ∃ answers p, Record .branching .expression none answers p
      ∧ ∀ i < 2, ∃ e ∈ p.entries, i ∈ e.label := by
  have hfirst : (fresh .expression none).grow .branching .never 100 .empty = some _ := rfl
  have hrecord : Record .branching .expression none _ _ :=
    .grow (.grow .fresh hfirst) (rfl : grow .branching .never 100 _ .empty = some _)
  obtain ⟨-, -, -, -, hcovers, -⟩ := pools_keep_first_programs hrecord
  exact ⟨_, _, hrecord, hcovers.mp rfl⟩

end Pool

end Sygus
