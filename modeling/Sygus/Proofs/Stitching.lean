import Sygus.Proofs.Growth

/-!
# Stitched trees are right

A tree is right where its first branch is right, because the guard has exactly the label
of that branch: on the other examples the guard evaluates, and to false, so the rest of
the tree decides. `fits_ite` is that argument. The induction over the search is about any
property that is handed on from branch to branch (`Inductive`): it carries the property through
the guards, the entries and the recalled answers.

Nothing here depends on the stop flag. A flag that is raised in the middle of the search
makes answers disappear, and a disappeared answer may be recalled as such, but no wrong
tree can come of it.
-/

namespace Sygus

variable {examples : List Example}

/-- An expression fits its own label. -/
theorem fits_of_label {p : Program} {s t : ExampleSet}
    (h : Role.expression.label p examples = .ok s) (hts : t ⊆ s) : p.Fits examples t := by
  intro i hi
  have hlt : i < examples.length :=
    List.mem_range.mp ((Role.label_sublist h).subset (hts hi))
  have hget := List.getElem?_eq_getElem hlt
  refine ⟨examples[i], hget, ?_⟩
  rw [← satisfies_expression, Role.satisfies_of_label h hget, decide_eq_true (hts hi)]

/-- **A guard with exactly the label of its branch is enough.** -/
theorem fits_ite {guard this other : Program} {s needed : ExampleSet}
    (hguard : Role.predicate.label guard examples = .ok s)
    (hthis : Role.expression.label this examples = .ok s)
    (hother : other.Fits examples (needed.without s)) :
    (Program.ite guard this other).Fits examples needed := by
  intro i hi
  by_cases his : i ∈ s
  · -- the guard holds, and its branch has the same label
    obtain ⟨e, he, hv⟩ := fits_of_label hthis (fun _ h => h) i his
    refine ⟨e, he, ?_⟩
    have htruth : guard.root.truth e.input = .ok (decide (i ∈ s)) :=
      Role.satisfies_of_label hguard he
    rw [evaluate_ite htruth, decide_eq_true his]
    exact hv
  · -- the guard fails, and the rest of the tree is asked
    obtain ⟨e, he, hv⟩ := hother i (ExampleSet.mem_without.mpr ⟨hi, his⟩)
    refine ⟨e, he, ?_⟩
    have htruth : guard.root.truth e.input = .ok (decide (i ∈ s)) :=
      Role.satisfies_of_label hguard he
    rw [evaluate_ite htruth, decide_eq_false his]
    exact hv

namespace Stitcher

/-- Both pools carry the labels of their programs. -/
structure Labelled (c : Stitcher Program) (examples : List Example) : Prop where
  expressions : ∀ e ∈ c.expressions, Role.expression.label e.piece examples = .ok e.label
  predicates : ∀ e ∈ c.predicates, Role.predicate.label e.piece examples = .ok e.label

variable {α : Type} {c : Stitcher α}

theorem mem_guards {s : ExampleSet} {guard : α} :
    guard ∈ c.guards s ↔ ∃ e ∈ c.predicates, e.label = s ∧ e.piece = guard := by
  unfold guards
  simp only [List.mem_map, List.mem_filter, decide_eq_true_eq]
  refine ⟨?_, ?_⟩
  · rintro ⟨e, ⟨he, hs⟩, hg⟩; exact ⟨e, he, hs, hg⟩
  · rintro ⟨e, he, hs, hg⟩; exact ⟨e, ⟨he, hs⟩, hg⟩

/-- The recalled trees have a property, each for the set that it was sought for. -/
def State.RecallsOnly (P : ExampleSet → α → Prop) (s : State α) : Prop :=
  ∀ needed tree, (needed, some tree) ∈ s.answers → P needed tree

/-- A search gives only trees with a property, and leaves only such trees to be recalled. -/
def FindsOnly (P : ExampleSet → α → Prop) (needed : ExampleSet)
    (search : State α → Option α × State α) : Prop :=
  ∀ s, s.RecallsOnly P →
    (search s).2.RecallsOnly P ∧ ∀ tree, (search s).1 = some tree → P needed tree

/-- A property that stitching establishes: an expression that will do by itself has it, and a tree
with one more branch has it if the rest of the tree has it for what is left. -/
structure Inductive [Piece α] (c : Stitcher α) (P : ExampleSet → α → Prop) : Prop where
  last : ∀ {e : Entry α} {needed : ExampleSet}, e ∈ c.expressions → needed ⊆ e.label →
    P needed e.piece
  branch : ∀ {e guard : Entry α} {needed : ExampleSet} {other : α}, e ∈ c.expressions →
    guard ∈ c.predicates → guard.label = e.label → ¬ needed ⊆ e.label →
    (∃ i ∈ needed, i ∈ e.label) → P (needed.without e.label) other →
    P needed (Piece.ite guard.piece e.piece other)

variable {P : ExampleSet → α → Prop}

theorem recall_finds {s : State α} (hs : s.RecallsOnly P) {needed : ExampleSet} {tree : α}
    (h : s.recall needed = some (some tree)) : P needed tree := by
  unfold State.recall at h
  rw [List.lookup_eq_some_iff] at h
  obtain ⟨l₁, l₂, hl, _⟩ := h
  refine hs needed tree ?_
  rw [hl]
  exact List.mem_append_right _ List.mem_cons_self

theorem remember_recallsOnly {s : State α} (hs : s.RecallsOnly P) {needed : ExampleSet}
    {answer : Option α} (h : ∀ tree, answer = some tree → P needed tree) :
    (c.remember needed answer s).RecallsOnly P := by
  unfold remember
  split
  · intro needed' tree htree
    rcases List.mem_cons.mp htree with heq | htree
    · obtain ⟨rfl, hanswer⟩ := Prod.mk.injEq .. ▸ heq
      exact h tree hanswer.symm
    · exact hs needed' tree htree
  · exact hs

variable [Piece α]

/-- Any of the guards will do, as long as the rest of the tree is good for what is left. -/
theorem tryGuards_findsOnly {rest : State α → Option α × State α} {this : α}
    {left needed : ExampleSet} (hrest : FindsOnly P left rest) {guards : List α}
    (hguards : ∀ guard ∈ guards, ∀ other, P left other → P needed (Piece.ite guard this other)) :
    FindsOnly P needed (tryGuards rest this guards) := by
  induction guards with
  | nil => exact fun st hst => ⟨hst, by simp [tryGuards]⟩
  | cons guard guards ih =>
      intro st hst
      obtain ⟨hst', htree⟩ := hrest st hst
      rw [tryGuards]
      split
      · rename_i other st' heq
        rw [heq] at hst' htree
        refine ⟨hst', ?_⟩
        intro tree hsome
        cases hsome
        exact hguards guard List.mem_cons_self other (htree other rfl)
      · rename_i st' heq
        rw [heq] at hst'
        exact ih (fun g hg => hguards g (List.mem_cons_of_mem _ hg)) st' hst'

theorem tryEntries_findsOnly (hP : c.Inductive P)
    {solve : ExampleSet → State α → Option α × State α}
    (hsolve : ∀ needed, FindsOnly P needed (solve needed)) {needed : ExampleSet}
    {entries : List (Entry α)} (hentries : entries ⊆ c.expressions) :
    FindsOnly P needed (c.tryEntries solve needed entries) := by
  induction entries with
  | nil => exact fun st hst => ⟨hst, by simp [tryEntries]⟩
  | cons e entries ih =>
      have hrest := ih (fun e' he' => hentries (List.mem_cons_of_mem _ he'))
      have he : e ∈ c.expressions := hentries List.mem_cons_self
      intro st hst
      rw [tryEntries]
      dsimp only
      split
      · exact ⟨hst, by simp⟩
      · split
        · rename_i hall
          refine ⟨hst, ?_⟩
          intro tree hsome
          cases hsome
          exact hP.last he (ExampleSet.without_isEmpty_iff.mp hall)
        · rename_i hall
          split
          · exact hrest _ hst
          · -- the expression takes something away, so it is a branch of a tree
            rename_i hnone
            have hpart : ¬ needed ⊆ e.label := fun hsub =>
              hall (ExampleSet.without_isEmpty_iff.mpr hsub)
            have hmeets : ∃ i ∈ needed, i ∈ e.label := by
              rw [ExampleSet.length_without_eq_iff] at hnone
              push Not at hnone
              exact hnone
            have hguards : ∀ guard ∈ c.guards e.label, ∀ other, P (needed.without e.label) other →
                P needed (Piece.ite guard e.piece other) := by
              intro guard hguard other hother
              obtain ⟨e', he', hlabel, rfl⟩ := mem_guards.mp hguard
              exact hP.branch he he' hlabel hpart hmeets hother
            obtain ⟨hst', htree⟩ := tryGuards_findsOnly (hsolve (needed.without e.label)) hguards
              { st with journal := st.journal.polled } hst
            split
            · rename_i heq
              rw [heq] at hst' htree
              exact ⟨hst', htree⟩
            · rename_i heq
              rw [heq] at hst'
              exact hrest _ hst'

/-- **Every tree that is found has what stitching establishes,** whenever the flag goes up. -/
theorem solve_findsOnly (hP : c.Inductive P) (depth : Nat) (needed : ExampleSet) :
    FindsOnly P needed (c.solve depth needed) := by
  induction depth generalizing needed with
  | zero => exact fun st hst => ⟨hst, by simp [solve]⟩
  | succ depth ih =>
      intro st hst
      rw [solve]
      split
      · rename_i answer hanswer
        refine ⟨hst, ?_⟩
        intro tree htree
        exact recall_finds hst (by rw [hanswer]; exact congrArg some htree)
      · obtain ⟨hst', htree⟩ : _ ∧ _ := tryEntries_findsOnly hP ih (fun _ he => he) st hst
        exact ⟨remember_recallsOnly hst' htree, htree⟩

/-- A stitching finds only trees with what stitching establishes. -/
theorem stitch_finds (hP : c.Inductive P) {needed : ExampleSet} {j j' : Journal} {tree : α}
    (h : c.stitch needed j = (some tree, j')) : P needed tree :=
  (solve_findsOnly hP (needed.length + 1) needed { journal := j }
    (fun _ _ hmem => by simp at hmem)).2 tree (congrArg Prod.fst h)

/-! ## Trees are right -/

/-- The recalled trees are right. -/
def State.Sound (examples : List Example) (s : State Program) : Prop :=
  ∀ needed tree, (needed, some tree) ∈ s.answers → tree.Fits examples needed

/-- A search gives only right trees for a set, and leaves only right ones to be recalled. -/
def SoundFor (examples : List Example) (needed : ExampleSet)
    (search : State Program → Option Program × State Program) : Prop :=
  ∀ s, s.Sound examples →
    (search s).2.Sound examples ∧ ∀ tree, (search s).1 = some tree → tree.Fits examples needed

/-- Stitching out of labelled pools establishes that the tree fits. -/
theorem inductive_fits {c : Stitcher Program} (hc : c.Labelled examples) :
    c.Inductive fun needed tree => tree.Fits examples needed where
  last he hsub := fits_of_label (hc.expressions _ he) hsub
  branch he hguard hlabel _ _ hother :=
    fits_ite (hlabel ▸ hc.predicates _ hguard) (hc.expressions _ he) hother

/-- **Every tree that is found fits the examples it was sought for.** -/
theorem solve_sound {c : Stitcher Program} (hc : c.Labelled examples) (depth : Nat)
    (needed : ExampleSet) :
    SoundFor examples needed (c.solve depth needed) :=
  solve_findsOnly (inductive_fits hc) depth needed

/-! ## A search reports nothing -/

/-- A search that only looks at the stop flag. -/
def Silent (search : State α → Option α × State α) : Prop :=
  ∀ s, (search s).2.journal.events = s.journal.events

theorem tryGuards_silent {rest : State α → Option α × State α} (h : Silent rest)
    (this : α) (guards : List α) : Silent (tryGuards rest this guards) := by
  induction guards with
  | nil => exact fun _ => rfl
  | cons guard guards ih =>
      intro st
      have hst := h st
      rw [tryGuards]
      split
      · rename_i heq
        rwa [heq] at hst
      · rename_i heq
        rw [heq] at hst
        rw [ih, hst]

theorem tryEntries_silent {solve : ExampleSet → State α → Option α × State α}
    (h : ∀ needed, Silent (solve needed)) (needed : ExampleSet) (entries : List (Entry α)) :
    Silent (c.tryEntries solve needed entries) := by
  induction entries with
  | nil => exact fun _ => rfl
  | cons e entries ih =>
      intro st
      rw [tryEntries]
      dsimp only
      split
      · rfl
      · split
        · rfl
        · split
          · rw [ih]; rfl
          · have hst := tryGuards_silent (h (needed.without e.label)) e.piece
              (c.guards e.label) { st with journal := st.journal.polled }
            split
            · rename_i heq
              rw [heq] at hst
              exact hst
            · rename_i heq
              rw [heq] at hst
              rw [ih, hst]
              rfl

theorem solve_silent (depth : Nat) (needed : ExampleSet) : Silent (c.solve depth needed) := by
  induction depth generalizing needed with
  | zero => exact fun _ => rfl
  | succ depth ih =>
      intro st
      rw [solve]
      split
      · rfl
      · have hst := tryEntries_silent (c := c) ih needed c.expressions st
        have hremember : ∀ (answer : Option α) (s : State α),
            (c.remember needed answer s).journal = s.journal := by
          intro answer s
          unfold remember
          split <;> rfl
        rw [hremember]
        exact hst

end Stitcher

end Sygus
