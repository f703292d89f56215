import Mathlib.Data.Set.Basic
import Sygus.Proofs.Label

/-!
# What programs can see of examples

Of an input a program sees the values of the variables. So all that an example is to a program is
its **reading**, these values and the output: a program does the same on two examples with the
same reading, wherever they stand in a list.

A set of example numbers **denotes** a set of readings if it holds exactly the numbers of the
examples that have one of them. Labels do, and so does all that is made of labels by taking away.
What is asked of sets of numbers can then be asked of what they denote, and the order and the
number of the examples are out of the question.
-/

namespace Sygus

/-- The values that the variables have, as far as they have any. -/
def Assignment.values (a : Assignment) (v : Variable) : Option Int64 := a.get? v.name

/-- All that a program can see of an example. -/
structure Reading where
  values : Variable → Option Int64
  output : Int64

namespace Example

/-- The reading of an example: bindings of other names are left out. -/
def reading (e : Example) : Reading := ⟨e.input.values, e.output⟩

end Example

/-- The readings of a list of examples. -/
def readings (examples : List Example) : Set Reading := {q | ∃ e ∈ examples, e.reading = q}

variable {examples : List Example}

theorem mem_readings_iff {q : Reading} :
    q ∈ readings examples ↔ ∃ (i : Nat) (e : Example), examples[i]? = some e ∧ e.reading = q := by
  refine ⟨?_, ?_⟩
  · rintro ⟨e, he, hq⟩
    obtain ⟨i, hi⟩ := List.mem_iff_getElem?.mp he
    exact ⟨i, e, hi, hq⟩
  · rintro ⟨i, e, hi, hq⟩
    exact ⟨e, List.mem_of_getElem? hi, hq⟩

/-- Examples that are repeated say nothing new. -/
theorem readings_eraseDups : readings examples.eraseDups = readings examples := by
  unfold readings
  simp only [List.mem_eraseDups]

theorem readings_eq_empty_iff : readings examples = ∅ ↔ examples = [] := by
  rw [Set.eq_empty_iff_forall_notMem, List.eq_nil_iff_forall_not_mem]
  exact ⟨fun h e he => h e.reading ⟨e, he, rfl⟩, fun h q ⟨e, he, _⟩ => h e he⟩

/-! ## Programs -/

namespace Term

mutual

/-- A value depends on the variables only. -/
theorem value_congr {a a' : Assignment} (h : a.values = a'.values) :
    (t : Term) → t.value a = t.value a'
  | node (.nonTerminal _) _ => by unfold value; rfl
  | node (.terminal name) args => by
      have hget : ∀ v : Variable, a.get? v.name = a'.get? v.name := congrFun h
      have hvalue : ∀ t ∈ args, t.value a = t.value a' := fun t _ => value_congr h t
      have htruth : ∀ t ∈ args, t.truth a = t.truth a' := fun t _ => truth_congr h t
      -- one case for each operator with the right number of arguments, and one with a wrong one
      unfold value
      split <;> simp [*]

/-- So does a truth value. -/
theorem truth_congr {a a' : Assignment} (h : a.values = a'.values) :
    (t : Term) → t.truth a = t.truth a'
  | node (.nonTerminal _) _ => by unfold truth; rfl
  | node (.terminal name) args => by
      have hvalue : ∀ t ∈ args, t.value a = t.value a' := fun t _ => value_congr h t
      have htruth : ∀ t ∈ args, t.truth a = t.truth a' := fun t _ => truth_congr h t
      unfold truth
      split <;> simp [*]

end

end Term

namespace Role

variable {role : Role} {p : Program} {s : ExampleSet}

/-- **Examples with the same reading are the same to a program.** -/
theorem satisfies_congr (role : Role) (p : Program) {e e' : Example}
    (h : e.reading = e'.reading) : role.satisfies p e = role.satisfies p e' := by
  obtain ⟨hvalues, houtput⟩ := Reading.mk.inj h
  cases role with
  | expression =>
      show p.root.produces e = p.root.produces e'
      unfold Term.produces
      rw [Term.value_congr hvalues, houtput]
  | predicate => exact Term.truth_congr hvalues p.root

/-- The readings that a program satisfies. -/
def accepted (role : Role) (p : Program) : Set Reading :=
  {q | ∃ e : Example, e.reading = q ∧ role.satisfies p e = .ok true}

theorem reading_mem_accepted_iff {e : Example} :
    e.reading ∈ role.accepted p ↔ role.satisfies p e = .ok true := by
  refine ⟨?_, fun h => ⟨e, rfl, h⟩⟩
  rintro ⟨e', he', h⟩
  rwa [role.satisfies_congr p he'] at h

variable {examples' : List Example}

/-- A label that can be computed can be computed from any examples with the same readings. -/
theorem exists_label_of_readings (h : readings examples = readings examples')
    (hs : role.label p examples = .ok s) :
    ∃ s', role.label p examples' = .ok s' := by
  refine exists_label fun e' he' => ?_
  have hmem : e'.reading ∈ readings examples := h ▸ ⟨e', he', rfl⟩
  obtain ⟨i, e, hi, heq⟩ := mem_readings_iff.mp hmem
  exact ⟨_, (role.satisfies_congr p heq).symm.trans (satisfies_of_label hs hi)⟩

/-- **Examples with the same readings give a program a label each time or a fault each time.** -/
theorem labels_or_faults (h : readings examples = readings examples') (role : Role) (p : Program) :
    (∃ s s', role.label p examples = .ok s ∧ role.label p examples' = .ok s')
      ∨ ∃ fault fault', role.label p examples = .error fault
          ∧ role.label p examples' = .error fault' := by
  cases hs : role.label p examples with
  | ok s =>
      obtain ⟨s', hs'⟩ := exists_label_of_readings h hs
      exact Or.inl ⟨s, s', rfl, hs'⟩
  | error fault =>
      cases hs' : role.label p examples' with
      | ok s' =>
          obtain ⟨s, hok⟩ := exists_label_of_readings h.symm hs'
          cases hs.symm.trans hok
      | error fault' => exact Or.inr ⟨fault, fault', rfl, rfl⟩

end Role

/-! ## Sets of examples -/

namespace ExampleSet

/-- The set holds the numbers of the examples that have one of these readings. -/
structure Denotes (s : ExampleSet) (examples : List Example) (Q : Set Reading) : Prop where
  sublist : s.Sublist (List.range examples.length)
  mem_iff : ∀ {i : Nat} {e : Example}, examples[i]? = some e → (i ∈ s ↔ e.reading ∈ Q)

variable {s t : ExampleSet} {Q R : Set Reading}

/-- All numbers denote all readings. -/
theorem denotes_range (examples : List Example) :
    Denotes (List.range examples.length) examples Set.univ := by
  refine ⟨List.Sublist.refl _, ?_⟩
  intro i e hi
  obtain ⟨hlt, _⟩ := List.getElem?_eq_some_iff.mp hi
  exact iff_of_true (List.mem_range.mpr hlt) trivial

/-- A label denotes the readings that its program satisfies. -/
theorem denotes_label {role : Role} {p : Program} (h : role.label p examples = .ok s) :
    s.Denotes examples (role.accepted p) := by
  refine ⟨Role.label_sublist h, ?_⟩
  intro i e hi
  rw [Role.reading_mem_accepted_iff, Role.satisfies_of_label h hi, Except.ok.injEq,
    decide_eq_true_iff]

theorem Denotes.without (hs : s.Denotes examples Q) (ht : t.Denotes examples R) :
    (s.without t).Denotes examples (Q \ R) := by
  refine ⟨(without_sublist s t).trans hs.sublist, ?_⟩
  intro i e hi
  rw [mem_without, hs.mem_iff hi, ht.mem_iff hi]
  rfl

/-- A number of the set is the number of an example. -/
theorem Denotes.exists_example (hs : s.Denotes examples Q) {i : Nat} (hi : i ∈ s) :
    ∃ e, examples[i]? = some e :=
  ⟨_, List.getElem?_eq_getElem (List.mem_range.mp (hs.sublist.subset hi))⟩

/-- What holds for the numbers of a set holds for the readings that it denotes. -/
theorem Denotes.forall_iff (hs : s.Denotes examples Q) {P : Nat → Prop} {A : Reading → Prop}
    (h : ∀ {i e}, examples[i]? = some e → (P i ↔ A e.reading)) :
    (∀ i ∈ s, P i) ↔ ∀ q ∈ readings examples, q ∈ Q → A q := by
  refine ⟨?_, ?_⟩
  · intro hall q hq hqQ
    obtain ⟨i, e, hi, rfl⟩ := mem_readings_iff.mp hq
    exact (h hi).mp (hall i ((hs.mem_iff hi).mpr hqQ))
  · intro hall i his
    obtain ⟨e, hi⟩ := hs.exists_example his
    exact (h hi).mpr (hall _ (mem_readings_iff.mpr ⟨i, e, hi, rfl⟩) ((hs.mem_iff hi).mp his))

theorem Denotes.eq_nil_iff (hs : s.Denotes examples Q) :
    s = [] ↔ ∀ q ∈ readings examples, q ∉ Q := by
  rw [List.eq_nil_iff_forall_not_mem]
  exact hs.forall_iff (P := fun _ => False) (A := fun _ => False) (fun _ => Iff.rfl)

theorem Denotes.subset_iff (hs : s.Denotes examples Q) (ht : t.Denotes examples R) :
    s ⊆ t ↔ ∀ q ∈ readings examples, q ∈ Q → q ∈ R :=
  hs.forall_iff ht.mem_iff

theorem Denotes.disjoint_iff (hs : s.Denotes examples Q) (ht : t.Denotes examples R) :
    (∀ i ∈ s, i ∉ t) ↔ ∀ q ∈ readings examples, q ∈ Q → q ∉ R :=
  hs.forall_iff fun hi => not_congr (ht.mem_iff hi)

/-- **Sets are the same if they denote the same among the readings that there are.** -/
theorem Denotes.eq_iff (hs : s.Denotes examples Q) (ht : t.Denotes examples R) :
    s = t ↔ ∀ q ∈ readings examples, (q ∈ Q ↔ q ∈ R) := by
  have hboth : s = t ↔ s ⊆ t ∧ t ⊆ s := by
    refine ⟨fun h => h ▸ ⟨fun _ hi => hi, fun _ hi => hi⟩, fun h => ?_⟩
    exact eq_of_mem_iff hs.sublist ht.sublist fun i => ⟨fun hi => h.1 hi, fun hi => h.2 hi⟩
  rw [hboth, hs.subset_iff ht, ht.subset_iff hs]
  exact ⟨fun h q hq => ⟨h.1 q hq, h.2 q hq⟩,
    fun h => ⟨fun q hq => (h q hq).mp, fun q hq => (h q hq).mpr⟩⟩

end ExampleSet

end Sygus
