import Sygus.Proofs.Stitching

/-!
# Stitching goes by labels alone

What is put together never makes a difference to a stitching, only the labels do. So if all
pieces of two pools are translated into other pieces, and choices into choices, the same steps
are taken, the same is reported, and the tree that is found is the translation of the tree that
was found before. The lemmas below say this of every part of the search, from a state to the
translated state.

In particular it makes no difference whether the pools are of programs or of the terms that these
are: a tree of programs is a program, and its root is the tree of their roots (`stitch_root`).
-/

namespace Sygus.Stitcher

variable {α β : Type}

/-- The entry of a translated piece. -/
def translateEntry (f : α → β) (e : Entry α) : Entry β := ⟨f e.piece, e.label⟩

/-- The stitcher of translated pools. -/
def translate (f : α → β) (c : Stitcher α) : Stitcher β where
  expressions := c.expressions.map (translateEntry f)
  predicates := c.predicates.map (translateEntry f)
  recalls := c.recalls
  stop := c.stop

/-- The state with all trees translated that can be recalled. -/
def State.translate (f : α → β) (s : State α) : State β where
  journal := s.journal
  answers := s.answers.map fun answer => (answer.1, answer.2.map f)

/-- The outcome of a search, translated. -/
def translateOutcome (f : α → β) (outcome : Option α × State α) : Option β × State β :=
  (outcome.1.map f, outcome.2.translate f)

/-- The second search does to translations what the first one does. -/
def Translates (f : α → β) (search : State α → Option α × State α)
    (search' : State β → Option β × State β) : Prop :=
  ∀ s, search' (s.translate f) = translateOutcome f (search s)

variable {f : α → β} {c : Stitcher α}

theorem guards_translate (label : ExampleSet) :
    (c.translate f).guards label = (c.guards label).map f := by
  simp only [guards, translate, List.filter_map, List.map_map]
  rfl

theorem recall_translate (s : State α) (needed : ExampleSet) :
    (s.translate f).recall needed = (s.recall needed).map (Option.map f) := by
  unfold State.recall State.translate
  induction s.answers with
  | nil => rfl
  | cons answer answers ih =>
      rw [List.map_cons, List.lookup_cons, List.lookup_cons]
      cases needed == answer.1 with
      | true => rfl
      | false => exact ih

theorem remember_translate (needed : ExampleSet) (answer : Option α) (s : State α) :
    (c.translate f).remember needed (answer.map f) (s.translate f)
      = (c.remember needed answer s).translate f := by
  unfold remember
  rw [show (c.translate f).recalls = c.recalls from rfl]
  split <;> rfl

variable [Piece α] [Piece β] (hf : ∀ guard this other : α,
  f (Piece.ite guard this other) = Piece.ite (f guard) (f this) (f other))

include hf

theorem tryGuards_translates {rest : State α → Option α × State α}
    {rest' : State β → Option β × State β} (h : Translates f rest rest') (this : α)
    (guards : List α) :
    Translates f (tryGuards rest this guards) (tryGuards rest' (f this) (guards.map f)) := by
  induction guards with
  | nil => exact fun _ => rfl
  | cons guard guards ih =>
      intro s
      rw [List.map_cons, tryGuards, tryGuards, h s]
      obtain ⟨_ | other, s'⟩ := rest s
      · exact ih s'
      · simp only [translateOutcome, Option.map_some, hf]

theorem tryEntries_translates {solve : ExampleSet → State α → Option α × State α}
    {solve' : ExampleSet → State β → Option β × State β}
    (h : ∀ needed, Translates f (solve needed) (solve' needed)) (needed : ExampleSet)
    (entries : List (Entry α)) :
    Translates f (c.tryEntries solve needed entries)
      ((c.translate f).tryEntries solve' needed (entries.map (translateEntry f))) := by
  induction entries with
  | nil => exact fun _ => rfl
  | cons e entries ih =>
      intro s
      rw [List.map_cons, tryEntries, tryEntries, guards_translate]
      dsimp only [translateEntry]
      have hlook : (c.translate f).stop.isRaised (s.translate f).journal
          = c.stop.isRaised s.journal := rfl
      rw [hlook]
      split
      · rfl
      · split
        · rfl
        · split
          · exact ih { s with journal := s.journal.polled }
          · have hguards := tryGuards_translates hf (h (needed.without e.label)) e.piece
              (c.guards e.label) { s with journal := s.journal.polled }
            rw [show { s.translate f with journal := (s.translate f).journal.polled }
              = State.translate f { s with journal := s.journal.polled } from rfl, hguards]
            obtain ⟨_ | tree, s'⟩ := tryGuards (solve (needed.without e.label)) e.piece
              (c.guards e.label) { s with journal := s.journal.polled }
            · exact ih s'
            · rfl

/-- **A search in translated pools finds the translated tree.** -/
theorem solve_translates (depth : Nat) (needed : ExampleSet) :
    Translates f (c.solve depth needed) ((c.translate f).solve depth needed) := by
  induction depth generalizing needed with
  | zero => exact fun _ => rfl
  | succ depth ih =>
      intro s
      rw [solve, solve, recall_translate]
      cases s.recall needed with
      | some answer => rfl
      | none =>
          have hentries := tryEntries_translates (c := c) hf ih needed c.expressions s
          simp only [Option.map_none]
          rw [show (c.translate f).expressions = c.expressions.map (translateEntry f) from rfl,
            hentries, translateOutcome, remember_translate]
          rfl

omit hf in
/-- **Stitching programs is stitching their terms.** -/
theorem stitch_root (c : Stitcher Program) (needed : ExampleSet) (j : Journal) :
    (c.translate Program.root).stitch needed j
      = ((c.stitch needed j).1.map Program.root, (c.stitch needed j).2) := by
  have h := solve_translates (f := Program.root) (c := c) (fun _ _ _ => rfl) (needed.length + 1)
    needed { journal := j }
  unfold stitch
  rw [show ({ journal := j } : State Term) = State.translate Program.root { journal := j } from rfl,
    h]
  rfl

end Sygus.Stitcher
