import Sygus.Proofs.Stitching

/-!
# What an undisturbed stitching answers

Without a flag the state that a search carries along does not matter. The answer for a set
of needed examples is a function of the pools, `answer`, which is the search with everything
about states left out. Recalling gives the same answers as searching, because all that is
ever remembered are answers (`solve_eq`).

Whether there is an answer is a question about labels only. A set is **solvable** if some
chain of branches uses it up. The search backtracks over all chains, so it finds a tree
for exactly the solvable sets.
-/

namespace Sygus.Stitcher

variable {α : Type} [Piece α]

/-- The search for a tree without a state: the first expression that will do, and for a branch
the first guard under which there is a tree for the rest. -/
def tree (c : Stitcher α) : Nat → ExampleSet → Option α
  | 0, _ => none
  | depth + 1, needed =>
    c.expressions.findSome? fun e =>
      let left := needed.without e.label
      if left.isEmpty then some e.piece
      else if left.length = needed.length then none
      else (c.guards e.label).findSome? fun guard =>
        (c.tree depth left).map (Piece.ite guard e.piece)

/-- The answer for a set of needed examples. -/
def answer (c : Stitcher α) (needed : ExampleSet) : Option α :=
  c.tree (needed.length + 1) needed

variable {c : Stitcher α}

/-- More depth than there are needed examples makes no difference. -/
theorem tree_eq_tree {depth depth' : Nat} {needed : ExampleSet} (h : needed.length < depth)
    (h' : needed.length < depth') : c.tree depth needed = c.tree depth' needed := by
  induction depth generalizing depth' needed with
  | zero => omega
  | succ depth ih =>
      obtain ⟨depth', rfl⟩ : ∃ m, depth' = m + 1 := ⟨depth' - 1, by omega⟩
      rw [tree, tree]
      congr 1
      funext e
      dsimp only
      split
      · rfl
      · split
        · rfl
        · rename_i hshorter
          have hlt := ExampleSet.length_without_lt hshorter
          have heq : c.tree depth (needed.without e.label)
              = c.tree depth' (needed.without e.label) :=
            ih (by omega) (by omega)
          rw [heq]

theorem tree_eq_answer {depth : Nat} {needed : ExampleSet} (h : needed.length < depth) :
    c.tree depth needed = c.answer needed :=
  tree_eq_tree h (Nat.lt_succ_self _)

/-! ## Searching with a state -/

/-- All that can be recalled are answers. -/
def State.Faithful (c : Stitcher α) (s : State α) : Prop :=
  ∀ needed found, (needed, found) ∈ s.answers → found = c.answer needed

/-- A search that gives this result in every faithful state, and leaves a faithful one. -/
def Gives (c : Stitcher α) (search : State α → Option α × State α) (result : Option α) : Prop :=
  ∀ s, s.Faithful c → (search s).1 = result ∧ (search s).2.Faithful c

theorem gives_tryGuards {rest : State α → Option α × State α} {other : Option α}
    (h : c.Gives rest other) (this : α) (guards : List α) :
    c.Gives (tryGuards rest this guards)
      (guards.findSome? fun guard => other.map (Piece.ite guard this)) := by
  induction guards with
  | nil => exact fun st hst => ⟨rfl, hst⟩
  | cons guard guards ih =>
      intro st hst
      obtain ⟨hother, hst'⟩ := h st hst
      rw [tryGuards, List.findSome?_cons]
      split
      · rename_i tree st' heq
        rw [heq] at hother hst'
        rw [← hother]
        exact ⟨rfl, hst'⟩
      · rename_i st' heq
        rw [heq] at hother hst'
        rw [← hother]
        have hrest := ih st' hst'
        rwa [← hother] at hrest

theorem gives_tryEntries (hc : c.stop = .never) {depth : Nat} {needed : ExampleSet}
    {solve : ExampleSet → State α → Option α × State α}
    (h : ∀ left : ExampleSet, left.length < needed.length →
      c.Gives (solve left) (c.tree depth left))
    (entries : List (Entry α)) :
    c.Gives (c.tryEntries solve needed entries)
      (entries.findSome? fun e =>
        let left := needed.without e.label
        if left.isEmpty then some e.piece
        else if left.length = needed.length then none
        else (c.guards e.label).findSome? fun guard =>
          (c.tree depth left).map (Piece.ite guard e.piece)) := by
  induction entries with
  | nil => exact fun st hst => ⟨rfl, hst⟩
  | cons e entries ih =>
      intro st hst
      have hcalm : c.stop.isRaised st.journal = false := by rw [hc]; rfl
      rw [tryEntries, List.findSome?_cons]
      simp only [hcalm, Bool.false_eq_true, if_false]
      by_cases hall : (needed.without e.label).isEmpty = true
      · simp only [hall, if_true]
        exact ⟨trivial, hst⟩
      · by_cases hnone : (needed.without e.label).length = needed.length
        · simp only [hall, hnone, Bool.false_eq_true, if_false, if_true]
          exact ih _ hst
        · simp only [hall, hnone, Bool.false_eq_true, if_false]
          -- less is left, so the guards are tried with the answer for that
          have hlt := ExampleSet.length_without_lt hnone
          obtain ⟨hfound, hst'⟩ := gives_tryGuards (h _ hlt) e.piece (c.guards e.label)
            { st with journal := st.journal.polled } hst
          split
          · rename_i tree st' heq
            rw [heq] at hfound hst'
            rw [← hfound]
            exact ⟨rfl, hst'⟩
          · rename_i st' heq
            rw [heq] at hfound hst'
            rw [← hfound]
            exact ih st' hst'

theorem remember_faithful {s : State α} (hs : s.Faithful c) (needed : ExampleSet) :
    (c.remember needed (c.answer needed) s).Faithful c := by
  unfold remember
  split
  · intro needed' found hmem
    rcases List.mem_cons.mp hmem with heq | hmem
    · obtain ⟨rfl, rfl⟩ := Prod.mk.injEq .. ▸ heq
      rfl
    · exact hs needed' found hmem
  · exact hs

/-- **Recalling changes no answer.** -/
theorem gives_solve (hc : c.stop = .never) {depth : Nat} {needed : ExampleSet}
    (h : needed.length < depth) : c.Gives (c.solve depth needed) (c.answer needed) := by
  induction depth generalizing needed with
  | zero => omega
  | succ depth ih =>
      intro st hst
      rw [solve]
      split
      · rename_i found hfound
        unfold State.recall at hfound
        rw [List.lookup_eq_some_iff] at hfound
        obtain ⟨l₁, l₂, hl, _⟩ := hfound
        refine ⟨hst needed found ?_, hst⟩
        rw [hl]
        exact List.mem_append_right _ List.mem_cons_self
      · -- the answers for smaller sets come from the searches below
        have hless : ∀ left : ExampleSet, left.length < needed.length →
            c.Gives (c.solve depth left) (c.tree depth left) := by
          intro left hlt
          rw [tree_eq_answer (by omega)]
          exact ih (by omega)
        obtain ⟨hanswer, hst'⟩ := gives_tryEntries hc hless c.expressions st hst
        have htree : (c.tryEntries (c.solve depth) needed c.expressions st).1
            = c.answer needed := by
          rw [hanswer, ← tree_eq_answer h]
          rfl
        refine ⟨htree, ?_⟩
        dsimp only
        rw [htree]
        exact remember_faithful hst' needed

/-- An undisturbed stitching gives the answer for the needed examples. -/
theorem stitch_eq (hc : c.stop = .never) (needed : ExampleSet) (j : Journal) :
    (c.stitch needed j).1 = c.answer needed :=
  (gives_solve hc (Nat.lt_succ_self needed.length) { journal := j }
    (fun _ _ hmem => by simp at hmem)).1

/-! ## Solvable sets -/

/-- A chain of branches uses up the needed examples. -/
inductive Solvable (c : Stitcher α) : ExampleSet → Prop where
  /-- One expression satisfies all that is needed. -/
  | last {e : Entry α} {needed : ExampleSet} :
      e ∈ c.expressions → needed ⊆ e.label → Solvable c needed
  /-- An expression satisfies a part, there is a guard for it, and the rest is solvable. -/
  | branch {e guard : Entry α} {needed : ExampleSet} :
      e ∈ c.expressions → guard ∈ c.predicates → guard.label = e.label →
      ¬ needed ⊆ e.label → (∃ i ∈ needed, i ∈ e.label) →
      Solvable c (needed.without e.label) → Solvable c needed

theorem solvable_of_tree {depth : Nat} {needed : ExampleSet}
    (h : (c.tree depth needed).isSome = true) : c.Solvable needed := by
  induction depth generalizing needed with
  | zero => simp [tree] at h
  | succ depth ih =>
      rw [tree, List.findSome?_isSome_iff] at h
      obtain ⟨e, he, hfound⟩ := h
      dsimp only at hfound
      split at hfound
      · rename_i hall
        exact .last he (ExampleSet.without_isEmpty_iff.mp hall)
      · rename_i hall
        split at hfound
        · simp at hfound
        · rename_i hnone
          rw [List.findSome?_isSome_iff] at hfound
          obtain ⟨guard, hguard, hrest⟩ := hfound
          obtain ⟨e', he', hlabel, _⟩ := mem_guards.mp hguard
          rw [Option.isSome_map] at hrest
          refine .branch he he' hlabel (fun hsub => hall (ExampleSet.without_isEmpty_iff.mpr hsub))
            ?_ (ih hrest)
          -- the entry has taken something away, so it meets what is needed
          rw [ExampleSet.length_without_eq_iff] at hnone
          push Not at hnone
          exact hnone

theorem Solvable.tree_isSome {needed : ExampleSet} (h : c.Solvable needed) {depth : Nat}
    (hdepth : needed.length < depth) : (c.tree depth needed).isSome = true := by
  induction h generalizing depth with
  | @last e needed he hsub =>
      obtain ⟨depth, rfl⟩ : ∃ m, depth = m + 1 := ⟨depth - 1, by omega⟩
      rw [tree, List.findSome?_isSome_iff]
      refine ⟨e, he, ?_⟩
      dsimp only
      rw [if_pos (ExampleSet.without_isEmpty_iff.mpr hsub)]
      rfl
  | @branch e guard needed he hguard hlabel hpart hmeets _ ih =>
      obtain ⟨depth, rfl⟩ : ∃ m, depth = m + 1 := ⟨depth - 1, by omega⟩
      have hlt := ExampleSet.length_without_lt_of_meets hmeets
      rw [tree, List.findSome?_isSome_iff]
      refine ⟨e, he, ?_⟩
      dsimp only
      rw [if_neg (fun hall => hpart (ExampleSet.without_isEmpty_iff.mp hall)), if_neg hlt.ne,
        List.findSome?_isSome_iff]
      refine ⟨guard.piece, mem_guards.mpr ⟨guard, hguard, hlabel, rfl⟩, ?_⟩
      rw [Option.isSome_map]
      exact ih (by omega)

/-- **There is an answer exactly for the solvable sets.** -/
theorem answer_isSome_iff {needed : ExampleSet} :
    (c.answer needed).isSome = true ↔ c.Solvable needed :=
  ⟨solvable_of_tree, fun h => h.tree_isSome (Nat.lt_succ_self _)⟩

omit [Piece α] in
/-- A chain can be chosen greedily if every expression has a guard. -/
theorem solvable_of_guards (hguards : ∀ e ∈ c.expressions, ∃ guard ∈ c.predicates,
    guard.label = e.label) {needed : ExampleSet} (hne : needed ≠ [])
    (hcovers : ∀ i ∈ needed, ∃ e ∈ c.expressions, i ∈ e.label) : c.Solvable needed := by
  induction hlen : needed.length using Nat.strong_induction_on generalizing needed with
  | _ n ih =>
      obtain ⟨i, hi⟩ := List.exists_mem_of_ne_nil needed hne
      obtain ⟨e, he, hie⟩ := hcovers i hi
      by_cases hall : needed ⊆ e.label
      · exact .last he hall
      · obtain ⟨guard, hguard, hlabel⟩ := hguards e he
        have hleft : needed.without e.label ≠ [] := fun hnil =>
          hall (ExampleSet.without_isEmpty_iff.mp (List.isEmpty_iff.mpr hnil))
        -- the example chosen is taken away, so less is left
        have hshorter : (needed.without e.label).length < n :=
          hlen ▸ ExampleSet.length_without_lt_of_meets ⟨i, hi, hie⟩
        refine .branch he hguard hlabel hall ⟨i, hi, hie⟩ (ih _ hshorter hleft ?_ rfl)
        intro k hk
        exact hcovers k (ExampleSet.mem_without.mp hk).1

end Sygus.Stitcher
