import Mathlib.Algebra.Group.Nat.Defs
import Mathlib.Data.List.Sublists
import Sygus.Proofs.Evaluation

/-!
# Labels tell the truth

A label is computed by evaluating a program on one example after the other. If that
succeeds, the program evaluates on *all* examples, and the label holds exactly the
numbers of those that it satisfies, in ascending order.

Ascending order makes labels canonical: two labels with the same members are the same
list, so comparing lists compares sets. It also bounds their number, since every label
is a sublist of `0, …, n - 1`.
-/

namespace Sygus

namespace ExampleSet

theorem mem_without {s t : ExampleSet} {i : Nat} : i ∈ s.without t ↔ i ∈ s ∧ i ∉ t := by
  unfold without
  rw [List.mem_filter, List.contains_eq_mem, Bool.not_eq_true', decide_eq_false_iff_not]

theorem without_sublist (s t : ExampleSet) : (s.without t).Sublist s :=
  List.filter_sublist

/-- Nothing is left exactly if the other set holds everything. -/
theorem without_isEmpty_iff {s t : ExampleSet} : (s.without t).isEmpty = true ↔ s ⊆ t := by
  rw [List.isEmpty_iff, List.eq_nil_iff_forall_not_mem]
  refine ⟨?_, ?_⟩
  · intro h i hi
    rcases Classical.em (i ∈ t) with ht | ht
    · exact ht
    · exact absurd (mem_without.mpr ⟨hi, ht⟩) (h i)
  · intro h i hi
    obtain ⟨hs, ht⟩ := mem_without.mp hi
    exact ht (h hs)

/-- Everything is left exactly if the other set has nothing to do with this one. -/
theorem length_without_eq_iff {s t : ExampleSet} :
    (s.without t).length = s.length ↔ ∀ i ∈ s, i ∉ t := by
  refine ⟨?_, ?_⟩
  · intro h i hi
    have heq : s.without t = s := (without_sublist s t).eq_of_length h
    rw [← heq] at hi
    exact (mem_without.mp hi).2
  · intro h
    unfold without
    rw [List.length_filter_eq_length_iff]
    intro i hi
    simp [h i hi]

/-- Taking something away makes a set shorter. -/
theorem length_without_lt {s t : ExampleSet} (h : (s.without t).length ≠ s.length) :
    (s.without t).length < s.length :=
  Nat.lt_of_le_of_ne (without_sublist s t).length_le h

/-- So does taking away a set that meets it. -/
theorem length_without_lt_of_meets {s t : ExampleSet} (h : ∃ i ∈ s, i ∈ t) :
    (s.without t).length < s.length := by
  obtain ⟨i, hi, ht⟩ := h
  exact length_without_lt fun heq => length_without_eq_iff.mp heq i hi ht

theorem mem_insert {s : ExampleSet} {i k : Nat} : k ∈ insert i s ↔ k = i ∨ k ∈ s := by
  induction s with
  | nil => simp [insert]
  | cons j s ih =>
      rw [insert]
      split
      · simp
      · split
        · rename_i heq
          subst heq
          simp
        · rw [List.mem_cons, ih, List.mem_cons]
          exact or_left_comm

theorem mem_union {s t : ExampleSet} {k : Nat} : k ∈ s.union t ↔ k ∈ s ∨ k ∈ t := by
  unfold union
  induction t generalizing s with
  | nil => simp
  | cons i t ih => rw [List.foldl_cons, ih, mem_insert, List.mem_cons, or_comm (a := k = i), or_assoc]

/-- A set that is made up member by member is ascending. -/
theorem ascending_insert {s : ExampleSet} (h : s.Pairwise (· < ·)) (i : Nat) :
    (insert i s).Pairwise (· < ·) := by
  induction s with
  | nil => exact List.pairwise_singleton _ _
  | cons j s ih =>
      obtain ⟨hfirst, hrest⟩ := List.pairwise_cons.mp h
      rw [insert]
      split
      · rename_i hlt
        refine List.pairwise_cons.mpr ⟨List.forall_mem_cons.mpr ⟨hlt, fun k hk => ?_⟩, h⟩
        exact Nat.lt_trans hlt (hfirst k hk)
      · split
        · exact h
        · refine List.pairwise_cons.mpr ⟨fun k hk => ?_, ih hrest⟩
          rcases mem_insert.mp hk with rfl | hk
          · omega
          · exact hfirst k hk

theorem ascending_union {s : ExampleSet} (h : s.Pairwise (· < ·)) (t : ExampleSet) :
    (s.union t).Pairwise (· < ·) := by
  unfold union
  induction t generalizing s with
  | nil => exact h
  | cons i t ih => exact ih (ascending_insert h i)

/-- Among the first `n` numbers, a set of `n` is the set of all. -/
theorem length_eq_iff {s : ExampleSet} {n : Nat} (h : s.Pairwise (· < ·)) (hs : ∀ i ∈ s, i < n) :
    s.length = n ↔ ∀ i < n, i ∈ s := by
  have hnodup : s.Nodup := h.imp Nat.ne_of_lt
  have hsub : s ⊆ List.range n := fun i hi => List.mem_range.mpr (hs i hi)
  refine ⟨?_, ?_⟩
  · intro hlength i hi
    have hperm := (hnodup.subperm hsub).perm_of_length_le (by simp [hlength])
    exact hperm.mem_iff.mpr (List.mem_range.mpr hi)
  · intro hall
    have hperm : s.Perm (List.range n) := (List.perm_ext_iff_of_nodup hnodup List.nodup_range).mpr
      fun i => ⟨fun hi => hsub hi, fun hi => hall i (List.mem_range.mp hi)⟩
    rw [hperm.length_eq, List.length_range]

/-- Two ascending sets with the same members are the same list. -/
theorem eq_of_mem_iff {n : Nat} {s t : ExampleSet} (hs : s.Sublist (List.range n))
    (ht : t.Sublist (List.range n)) (h : ∀ i, i ∈ s ↔ i ∈ t) : s = t := by
  have hperm : s.Perm t :=
    (List.perm_ext_iff_of_nodup (List.nodup_range.sublist hs) (List.nodup_range.sublist ht)).mpr h
  have hsorted : ∀ {u : ExampleSet}, u.Sublist (List.range n) → u.Pairwise (· < ·) :=
    fun hu => List.pairwise_lt_range.sublist hu
  refine hperm.eq_of_pairwise ?_ (hsorted hs) (hsorted ht)
  intro a b _ _ hab hba
  omega

end ExampleSet

namespace Role

variable {role : Role} {p : Program} {examples : List Example} {s : ExampleSet}

/-- The first example is in the label if it is satisfied, and the label goes on with the others. -/
theorem labelFrom_cons {first : Nat} {e : Example} {rest : List Example}
    (h : role.labelFrom p first (e :: rest) = .ok s) :
    ∃ b t, role.satisfies p e = .ok b ∧ role.labelFrom p (first + 1) rest = .ok t
      ∧ s = if b then first :: t else t := by
  rw [labelFrom, bind_eq_ok] at h
  obtain ⟨b, hb, h⟩ := h
  cases b with
  | true =>
      rw [if_pos rfl, bind_eq_ok] at h
      obtain ⟨t, ht, hs⟩ := h
      exact ⟨true, t, hb, ht, (Except.ok.inj hs).symm⟩
  | false =>
      rw [if_neg Bool.false_ne_true] at h
      exact ⟨false, s, hb, h, rfl⟩

theorem labelFrom_sublist {first : Nat} (h : role.labelFrom p first examples = .ok s) :
    s.Sublist (List.range' first examples.length) := by
  induction examples generalizing first s with
  | nil =>
      cases h
      exact List.nil_sublist _
  | cons e rest ih =>
      obtain ⟨b, t, _, ht, rfl⟩ := labelFrom_cons h
      rw [List.length_cons, List.range'_succ]
      cases b with
      | true => exact (ih ht).cons_cons _
      | false => exact (ih ht).cons _

theorem satisfies_of_labelFrom {first : Nat} (h : role.labelFrom p first examples = .ok s) {i : Nat}
    {e : Example} (he : examples[i]? = some e) :
    role.satisfies p e = .ok (decide (first + i ∈ s)) := by
  induction examples generalizing first s i with
  | nil => simp at he
  | cons e' rest ih =>
      obtain ⟨b, t, hb, ht, rfl⟩ := labelFrom_cons h
      cases i with
      | zero =>
          -- the numbers of the others are greater
          have hnew : first ∉ t := by
            intro hmem
            have hrange := List.mem_range'.mp ((labelFrom_sublist ht).subset hmem)
            omega
          rw [List.getElem?_cons_zero, Option.some.injEq] at he
          subst he
          rw [hb]
          cases b <;> simp [hnew]
      | succ i =>
          rw [List.getElem?_cons_succ] at he
          have hindex : first + (i + 1) = first + 1 + i := by omega
          have hne : first + 1 + i ≠ first := by omega
          rw [ih ht he, hindex]
          cases b <;> simp [hne]

/-- Labels are ascending numbers of examples. -/
theorem label_sublist (h : role.label p examples = .ok s) :
    s.Sublist (List.range examples.length) := by
  rw [List.range_eq_range']
  exact labelFrom_sublist h

theorem lt_of_mem_label (h : role.label p examples = .ok s) {i : Nat} (hi : i ∈ s) :
    i < examples.length :=
  List.mem_range.mp ((label_sublist h).subset hi)

/-- **A label decides every example.** The program evaluates on each of them, and satisfies
those in the label and no others. -/
theorem satisfies_of_label (h : role.label p examples = .ok s) {i : Nat} {e : Example}
    (he : examples[i]? = some e) : role.satisfies p e = .ok (decide (i ∈ s)) := by
  have := satisfies_of_labelFrom h he
  rwa [Nat.zero_add] at this

/-- A program that evaluates on all examples has a label. -/
theorem exists_labelFrom (h : ∀ e ∈ examples, ∃ b, role.satisfies p e = .ok b) (first : Nat) :
    ∃ s, role.labelFrom p first examples = .ok s := by
  induction examples generalizing first with
  | nil => exact ⟨[], rfl⟩
  | cons e rest ih =>
      obtain ⟨b, hb⟩ := h e List.mem_cons_self
      obtain ⟨s, hs⟩ := ih (fun e' he' => h e' (List.mem_cons_of_mem _ he')) (first + 1)
      rw [labelFrom, hb]
      cases b with
      | true => exact ⟨first :: s, by simp [bind, Except.bind, hs, pure, Except.pure]⟩
      | false => exact ⟨s, by simpa [bind, Except.bind] using hs⟩

theorem exists_label (h : ∀ e ∈ examples, ∃ b, role.satisfies p e = .ok b) :
    ∃ s, role.label p examples = .ok s :=
  exists_labelFrom h 0

/-- A program that satisfies all examples has all of them in its label. -/
theorem label_eq_range (h : ∀ e ∈ examples, role.satisfies p e = .ok true) :
    role.label p examples = .ok (List.range examples.length) := by
  obtain ⟨s, hs⟩ := exists_label fun e he => ⟨true, h e he⟩
  have hall : s = List.range examples.length := by
    refine ExampleSet.eq_of_mem_iff (label_sublist hs) (List.Sublist.refl _) fun i => ?_
    refine ⟨fun hi => (label_sublist hs).subset hi, ?_⟩
    intro hi
    have hlt := List.mem_range.mp hi
    have hsat := satisfies_of_label hs (List.getElem?_eq_getElem hlt)
    rw [h _ (List.getElem_mem hlt)] at hsat
    exact of_decide_eq_true (Except.ok.inj hsat).symm
  rw [hs, hall]

/-- There are no more labels than subsets. -/
theorem length_labels_le {n : Nat} {labels : List ExampleSet} (hnd : labels.Nodup)
    (h : ∀ s ∈ labels, s.Sublist (List.range n)) : labels.length ≤ 2 ^ n := by
  have hsub : labels ⊆ (List.range n).sublists := fun s hs => List.mem_sublists.mpr (h s hs)
  have := (hnd.subperm hsub).length_le
  rwa [List.length_sublists, List.length_range] at this

/-- There are fewer labels than subsets if none of them is empty. -/
theorem length_labels_lt {n : Nat} {labels : List ExampleSet} (hnd : labels.Nodup)
    (hnil : [] ∉ labels) (h : ∀ s ∈ labels, s.Sublist (List.range n)) : labels.length < 2 ^ n :=
  length_labels_le (List.nodup_cons.mpr ⟨hnil, hnd⟩)
    (List.forall_mem_cons.mpr ⟨List.nil_sublist _, h⟩)

end Role

end Sygus
