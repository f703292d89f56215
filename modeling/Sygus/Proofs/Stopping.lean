import Sygus.Proofs.Growth
import Sygus.Proofs.Stitching

/-!
# What a raised flag does to a call

A call either does the same as if there were no flag, or it ends with the flag up and gives
nothing: an enumerator hands out no program, a pool does not grow, a stitching finds no tree.

For stitching this takes an argument. A search that is stopped has no tree to show for it, just
like a search that fails, and the one above it goes on with its next guard or its next expression.
But the flag stays up, so every further expression costs a look that ends the search. Further
guards ask for the same set again, and this gives nothing again: either it is recalled that there
was no tree, or the search looks at the flag.
-/

namespace Sygus

/-! ## Flags and journals -/

/-- A journal with nothing in it that is not in a later one. -/
structure Journal.Before (j j' : Journal) : Prop where
  polls : j.polls ≤ j'.polls
  events : j.events <+: j'.events

namespace Journal.Before

variable {j j' j'' : Journal}

theorem refl (j : Journal) : j.Before j := ⟨Nat.le_refl _, List.prefix_refl _⟩

theorem trans (h : j.Before j') (h' : j'.Before j'') : j.Before j'' :=
  ⟨Nat.le_trans h.polls h'.polls, h.events.trans h'.events⟩

theorem polled (j : Journal) : j.Before j.polled := ⟨Nat.le_succ _, List.prefix_refl _⟩

theorem report (j : Journal) (e : Event) : j.Before (j.report e) :=
  ⟨Nat.le_refl _, List.prefix_append _ _⟩

theorem reportAll (j : Journal) (events : List Event) : j.Before (j.reportAll events) :=
  ⟨Nat.le_refl _, List.prefix_append _ _⟩

/-- A flag that is up stays up. -/
theorem isRaised {stop : Stop} (h : j.Before j') (hraised : stop.isRaised j = true) :
    stop.isRaised j' = true := by
  cases stop with
  | never => cases hraised
  | atPoll n => exact decide_eq_true (Nat.le_trans (of_decide_eq_true hraised) h.polls)
  | atEvent n => exact decide_eq_true (Nat.le_trans (of_decide_eq_true hraised) h.events.length_le)

end Journal.Before

variable {stop : Stop} {j : Journal} {fuel : Nat}

theorem Stop.isRaised_polled (h : stop.isRaised j = true) : stop.isRaised j.polled = true :=
  (Journal.Before.polled j).isRaised h

/-- If the flag waits for reports, there have been enough of them. -/
def Stop.Heard (stop : Stop) (j : Journal) : Prop := ∀ n, stop = .atEvent n → n ≤ j.events.length

theorem Stop.heard_of_isRaised {j' : Journal} (h : stop.isRaised j' = true)
    (hevents : j'.events = j.events) : stop.Heard j := by
  intro n hstop
  subst hstop
  rw [← hevents]
  exact of_decide_eq_true h

/-! ## Enumerators -/

namespace Enumerator

variable {g : Grammar} {e : Enumerator} {pull : Pull}

theorem next_before (h : next g stop fuel e j = some pull) : j.Before pull.journal := by
  induction fuel generalizing e j with
  | zero => exact absurd h (by simp [next])
  | succ fuel ih =>
      rw [next] at h
      split at h
      · cases h
        exact .refl j
      · split at h
        · cases h
          exact .polled j
        · split at h
          · cases h
            exact .polled j
          · split at h
            · cases h
              exact .polled j
            · exact (Journal.Before.polled j).trans (ih h)

/-- A call under a raised flag hands out nothing. -/
theorem next_of_raised (hraised : stop.isRaised j = true) (h : next g stop fuel e j = some pull) :
    pull.result = .ok none := by
  cases fuel with
  | zero => exact absurd h (by simp [next])
  | succ fuel =>
      rw [next] at h
      split at h
      · cases h
        rfl
      · rw [if_pos hraised] at h
        cases h
        rfl

/-- But the call ends. -/
theorem exists_next_of_raised (hraised : stop.isRaised j = true) (g : Grammar) (e : Enumerator) :
    ∃ pull, next g stop 1 e j = some pull := by
  rw [next]
  split
  · exact ⟨_, rfl⟩
  · rw [if_pos hraised]
    exact ⟨_, rfl⟩

/-- **A call is undisturbed, or it ends with the flag up and hands out nothing.** -/
theorem next_never_or_stopped (h : next g stop fuel e j = some pull) :
    next g .never fuel e j = some pull
      ∨ (pull.result = .ok none ∧ stop.isRaised pull.journal = true) := by
  induction fuel generalizing e j with
  | zero => exact absurd h (by simp [next])
  | succ fuel ih =>
      by_cases hraised : stop.isRaised j = true
      · by_cases hdry : e.frontier.pop? = none
        · exact Or.inl (by simpa [next, hdry] using h)
        · exact Or.inr ⟨next_of_raised hraised h, (next_before h).isRaised hraised⟩
      · have hcalm : Stop.never.isRaised j = false := rfl
        rw [next] at h ⊢
        cases hp : e.frontier.pop? with
        | none => exact Or.inl (by simpa [hp] using h)
        | some r =>
            simp only [hp, hraised, hcalm, Bool.false_eq_true, if_false] at h ⊢
            split
            · rename_i hcomplete
              rw [dif_pos hcomplete] at h
              exact Or.inl h
            · rename_i hpartial
              rw [dif_neg hpartial] at h
              cases hexp : r.1.expand g with
              | error fault => exact Or.inl (by simpa [hexp] using h)
              | ok terms =>
                  simp only [hexp] at h ⊢
                  exact ih h

end Enumerator

/-! ## Pools -/

namespace Pool

variable {problem : Problem} {p : Pool} {g : Growth}

theorem grow_before (h : p.grow problem stop fuel j = some g) : j.Before g.journal := by
  induction fuel generalizing p j with
  | zero => exact absurd h (by simp [grow])
  | succ fuel ih =>
      rw [grow, Option.bind_eq_bind, Option.bind_eq_some_iff] at h
      obtain ⟨pull, hpull, h⟩ := h
      have hbefore := Enumerator.next_before hpull
      obtain ⟨result, rest, journal⟩ := pull
      rcases result with fault | _ | program
      · cases h
        exact hbefore
      · cases h
        exact hbefore
      · dsimp only at h hbefore
        split at h
        · cases h
          exact hbefore
        · split at h
          · exact hbefore.trans (ih h)
          · cases h
            exact hbefore.trans (.report _ _)

/-- An attempt that takes nothing in reports nothing. -/
theorem grow_events_of_ne (h : p.grow problem stop fuel j = some g) (hgrew : g.grew ≠ .ok true) :
    g.journal.events = j.events := by
  induction fuel generalizing p j with
  | zero => exact absurd h (by simp [grow])
  | succ fuel ih =>
      rw [grow, Option.bind_eq_bind, Option.bind_eq_some_iff] at h
      obtain ⟨pull, hpull, h⟩ := h
      have hevents := Enumerator.next_events hpull
      obtain ⟨result, rest, journal⟩ := pull
      rcases result with fault | _ | program
      · cases h
        exact hevents
      · cases h
        exact hevents
      · dsimp only at h hevents
        split at h
        · cases h
          exact hevents
        · split at h
          · rw [ih h, hevents]
          · cases h
            exact absurd rfl hgrew

/-- Under a raised flag no pool grows. -/
theorem grow_of_raised (hraised : stop.isRaised j = true)
    (h : p.grow problem stop fuel j = some g) : g.grew = .ok false := by
  cases fuel with
  | zero => exact absurd h (by simp [grow])
  | succ fuel =>
      rw [grow, Option.bind_eq_bind, Option.bind_eq_some_iff] at h
      obtain ⟨pull, hpull, h⟩ := h
      rw [Enumerator.next_of_raised hraised hpull] at h
      cases h
      rfl

/-- But the attempt ends. -/
theorem exists_grow_of_raised (hraised : stop.isRaised j = true) (p : Pool) :
    ∃ g, p.grow problem stop 2 j = some g ∧ g.grew = .ok false := by
  obtain ⟨pull, hpull⟩ := Enumerator.exists_next_of_raised hraised problem.grammar p.source
  have hgrow : ∃ g, p.grow problem stop 2 j = some g := by
    rw [grow, hpull, Option.bind_eq_bind, Option.bind_some]
    rw [Enumerator.next_of_raised hraised hpull]
    exact ⟨_, rfl⟩
  obtain ⟨g, hg⟩ := hgrow
  exact ⟨g, hg, grow_of_raised hraised hg⟩

/-- **An attempt is undisturbed, or it ends with the flag up and the pool has not grown.** -/
theorem grow_never_or_stopped (h : p.grow problem stop fuel j = some g) :
    p.grow problem .never fuel j = some g
      ∨ (g.grew = .ok false ∧ stop.isRaised g.journal = true) := by
  induction fuel generalizing p j with
  | zero => exact absurd h (by simp [grow])
  | succ fuel ih =>
      rw [grow, Option.bind_eq_bind, Option.bind_eq_some_iff] at h
      rw [grow, Option.bind_eq_bind]
      obtain ⟨pull, hpull, h⟩ := h
      rcases Enumerator.next_never_or_stopped hpull with hnever | ⟨hresult, hraised⟩
      · rw [hnever, Option.bind_some]
        obtain ⟨result, rest, journal⟩ := pull
        rcases result with fault | _ | program
        · exact Or.inl h
        · exact Or.inl h
        · dsimp only at h ⊢
          cases hlabel : p.role.label program problem.examples with
          | error fault => exact Or.inl (by simpa [hlabel] using h)
          | ok s =>
              rw [hlabel] at h
              dsimp only at h ⊢
              split
              · rename_i hspurned
                rw [if_pos hspurned] at h
                exact ih h
              · rename_i hnew
                rw [if_neg hnew] at h
                exact Or.inl h
      · rw [hresult] at h
        cases h
        exact Or.inr ⟨rfl, hraised⟩

end Pool

/-! ## Stitching -/

namespace Stitcher

variable {α : Type} {c : Stitcher α} {s : State α} {needed : ExampleSet}

/-- The stitcher that nobody stops. -/
def calm (c : Stitcher α) : Stitcher α := { c with stop := .never }

/-- The flag is up and there is no tree. -/
def Stopped (c : Stitcher α) (outcome : Option α × State α) : Prop :=
  outcome.1 = none ∧ c.stop.isRaised outcome.2.journal = true

/-- The flag is up, and no tree can be recalled for the set. -/
structure Spent (c : Stitcher α) (needed : ExampleSet) (s : State α) : Prop where
  raised : c.stop.isRaised s.journal = true
  unanswered : ∀ tree, s.recall needed ≠ some (some tree)

theorem remember_journal (needed : ExampleSet) (answer : Option α) (s : State α) :
    (c.remember needed answer s).journal = s.journal := by
  unfold remember
  split <;> rfl

theorem remember_answers (hc : c.recalls = false) (needed : ExampleSet) (answer : Option α)
    (s : State α) : (c.remember needed answer s).answers = s.answers := by
  simp [remember, hc]

/-- Whatever is recalled after a set has been answered with nothing, it is no tree for that set. -/
theorem recall_remember_none (h : ∀ tree, s.recall needed ≠ some (some tree)) (tree : α) :
    (c.remember needed none s).recall needed ≠ some (some tree) := by
  unfold remember
  split
  · simp [State.recall]
  · exact h tree

variable [Piece α]

/-- Under a raised flag no expression is tried. -/
theorem tryEntries_of_raised (hraised : c.stop.isRaised s.journal = true)
    (solve : ExampleSet → State α → Option α × State α) (needed : ExampleSet)
    (entries : List (Entry α)) :
    c.Stopped (c.tryEntries solve needed entries s)
      ∧ (c.tryEntries solve needed entries s).2.answers = s.answers := by
  cases entries with
  | nil => exact ⟨⟨rfl, hraised⟩, rfl⟩
  | cons e entries =>
      rw [tryEntries, if_pos hraised]
      exact ⟨⟨rfl, Stop.isRaised_polled hraised⟩, rfl⟩

/-- **A search for a set under a raised flag gives nothing,** unless a tree can be recalled, and
so will the next one. -/
theorem solve_of_spent (depth : Nat) (h : c.Spent needed s) :
    (c.solve depth needed s).1 = none ∧ c.Spent needed (c.solve depth needed s).2 := by
  cases depth with
  | zero => exact ⟨rfl, h⟩
  | succ depth =>
      rw [solve]
      split
      · rename_i answer hanswer
        cases answer with
        | none => exact ⟨rfl, h⟩
        | some tree => exact absurd hanswer (h.unanswered tree)
      · obtain ⟨⟨hnone, hraised⟩, hanswers⟩ :=
          tryEntries_of_raised h.raised (c.solve depth) needed c.expressions
        dsimp only
        rw [hnone]
        refine ⟨rfl, by rwa [remember_journal], recall_remember_none fun tree => ?_⟩
        unfold State.recall
        rw [hanswers]
        exact h.unanswered tree

/-- Guards are tried in vain if the rest of the tree is. -/
theorem tryGuards_of_spent {rest : State α → Option α × State α} {S : State α → Prop}
    (hrest : ∀ s, S s → (rest s).1 = none ∧ S (rest s).2) (this : α)
    (guards : List α) (hs : S s) :
    (tryGuards rest this guards s).1 = none ∧ S (tryGuards rest this guards s).2 := by
  induction guards generalizing s with
  | nil => exact ⟨rfl, hs⟩
  | cons guard guards ih =>
      obtain ⟨hnone, hs'⟩ := hrest s hs
      rw [tryGuards]
      split
      · rename_i heq
        rw [heq] at hnone
        cases hnone
      · rename_i heq
        rw [heq] at hs'
        exact ih hs'

/-! ### Nothing is noted down without recalling -/

/-- A search that leaves what can be recalled as it is. -/
def Forgets (search : State α → Option α × State α) : Prop :=
  ∀ s, (search s).2.answers = s.answers

theorem tryGuards_forgets {rest : State α → Option α × State α} (h : Forgets rest)
    (this : α) (guards : List α) : Forgets (tryGuards rest this guards) := by
  induction guards with
  | nil => exact fun _ => rfl
  | cons guard guards ih =>
      intro st
      have hst := h st
      rw [tryGuards]
      split
      · rename_i heq
        rwa [heq] at hst
      · rename_i heq
        rw [heq] at hst
        rw [ih, hst]

theorem tryEntries_forgets {solve : ExampleSet → State α → Option α × State α}
    (h : ∀ needed, Forgets (solve needed)) (needed : ExampleSet) (entries : List (Entry α)) :
    Forgets (c.tryEntries solve needed entries) := by
  induction entries with
  | nil => exact fun _ => rfl
  | cons e entries ih =>
      intro st
      rw [tryEntries]
      dsimp only
      split
      · rfl
      · split
        · rfl
        · split
          · rw [ih]
          · have hst := tryGuards_forgets (h (needed.without e.label)) e.piece
              (c.guards e.label) { st with journal := st.journal.polled }
            split
            · rename_i heq
              rw [heq] at hst
              exact hst
            · rename_i heq
              rw [heq] at hst
              rw [ih, hst]

theorem solve_forgets (hc : c.recalls = false) (depth : Nat) (needed : ExampleSet) :
    Forgets (c.solve depth needed) := by
  induction depth generalizing needed with
  | zero => exact fun _ => rfl
  | succ depth ih =>
      intro st
      rw [solve]
      split
      · rfl
      · rw [remember_answers hc]
        exact tryEntries_forgets ih needed c.expressions st

/-- **A set is not searched for in vain twice.** Where a search deep enough has found nothing, no
tree can be recalled for its set. -/
theorem unanswered_of_solve {depth : Nat} (h : (c.solve (depth + 1) needed s).1 = none)
    (tree : α) : (c.solve (depth + 1) needed s).2.recall needed ≠ some (some tree) := by
  cases hanswer : s.recall needed with
  | some answer =>
      simp only [solve, hanswer] at h ⊢
      rw [h]
      simp
  | none =>
      have hkept : c.recalls = false →
          (c.tryEntries (c.solve depth) needed c.expressions s).2.recall needed = none := by
        intro hc
        unfold State.recall
        rw [tryEntries_forgets (solve_forgets hc depth) needed c.expressions s]
        exact hanswer
      simp only [solve, hanswer] at h ⊢
      rw [h]
      cases hc : c.recalls with
      | true => simp [remember, hc, State.recall]
      | false =>
          have hanswers := hkept hc
          unfold State.recall at hanswers ⊢
          rw [remember_answers hc, hanswers]
          simp

/-! ### Searches under a flag -/

/-- A search does the same as another one that nobody stops, or it ends with the flag up and gives
nothing. -/
def Follows (c : Stitcher α) (search search' : State α → Option α × State α) : Prop :=
  ∀ s, search s = search' s ∨ c.Stopped (search s)

theorem tryGuards_follows {rest rest' : State α → Option α × State α} {S : State α → Prop}
    (h : c.Follows rest rest') (hstopped : ∀ s, c.Stopped (rest s) → S (rest s).2)
    (hrest : ∀ s, S s → (rest s).1 = none ∧ S (rest s).2)
    (hraised : ∀ s, S s → c.stop.isRaised s.journal = true) (this : α)
    (guards : List α) :
    c.Follows (tryGuards rest this guards) (tryGuards rest' this guards) := by
  induction guards with
  | nil => exact fun _ => Or.inl rfl
  | cons guard guards ih =>
      intro s
      rw [tryGuards, tryGuards]
      rcases h s with heq | hstop
      · rw [← heq]
        split
        · exact Or.inl rfl
        · exact ih _
      · -- the guards that are left ask for the same set, in vain
        have hs := hstopped s hstop
        right
        split
        · rename_i heq
          rw [heq] at hstop
          cases hstop.1
        · rename_i heq
          rw [heq] at hs
          obtain ⟨hnone, hs'⟩ := tryGuards_of_spent hrest this guards hs
          exact ⟨hnone, hraised _ hs'⟩

theorem tryEntries_follows {depth : Nat} (hdepth : needed.length ≤ depth)
    (h : ∀ left : ExampleSet, left.length < depth →
      c.Follows (c.solve depth left) (c.calm.solve depth left)) (entries : List (Entry α)) :
    c.Follows (c.tryEntries (c.solve depth) needed entries)
      (c.calm.tryEntries (c.calm.solve depth) needed entries) := by
  induction entries with
  | nil => exact fun _ => Or.inl rfl
  | cons e entries ih =>
      intro s
      by_cases hraised : c.stop.isRaised s.journal = true
      · exact Or.inr (tryEntries_of_raised hraised _ needed _).1
      · have hcalm : c.calm.stop.isRaised s.journal = false := rfl
        rw [tryEntries, tryEntries]
        simp only [hraised, hcalm, Bool.false_eq_true, if_false]
        split
        · exact Or.inl rfl
        · split
          · exact ih _
          · rename_i hnone
            -- less is left, so the search for it is deep enough
            have hlt := ExampleSet.length_without_lt hnone
            obtain ⟨depth, rfl⟩ : ∃ k, depth = k + 1 := ⟨depth - 1, by omega⟩
            have hguards := tryGuards_follows (S := c.Spent (needed.without e.label))
              (h _ (by omega)) (fun _ hstop => ⟨hstop.2, unanswered_of_solve hstop.1⟩)
              (fun _ hs => solve_of_spent _ hs) (fun _ hs => hs.raised) e.piece (c.guards e.label)
            rcases hguards { s with journal := s.journal.polled } with heq | hstop
            · have hsame : c.calm.guards e.label = c.guards e.label := rfl
              rw [hsame, ← heq]
              split
              · exact Or.inl rfl
              · exact ih _
            · right
              split
              · rename_i heq
                rw [heq] at hstop
                cases hstop.1
              · rename_i heq
                rw [heq] at hstop
                exact (tryEntries_of_raised hstop.2 _ needed entries).1

/-- **A search is undisturbed, or it ends with the flag up and finds nothing.** -/
theorem solve_follows {depth : Nat} (hdepth : needed.length < depth) :
    c.Follows (c.solve depth needed) (c.calm.solve depth needed) := by
  induction depth generalizing needed with
  | zero => omega
  | succ depth ih =>
      intro s
      rw [solve, solve]
      split
      · exact Or.inl rfl
      · have hentries : c.Follows (c.tryEntries (c.solve depth) needed c.expressions)
            (c.calm.tryEntries (c.calm.solve depth) needed c.expressions) :=
          tryEntries_follows (by omega) (fun _ hlt => ih hlt) c.expressions
        rcases hentries s with heq | hstop
        · have hsame : c.calm.expressions = c.expressions := rfl
          rw [hsame, ← heq]
          exact Or.inl rfl
        · exact Or.inr ⟨hstop.1, by rw [remember_journal]; exact hstop.2⟩

/-- **A stitching is undisturbed, or it ends with the flag up and finds nothing.** -/
theorem stitch_never_or_stopped (c : Stitcher α) (needed : ExampleSet) (j : Journal) :
    c.stitch needed j = c.calm.stitch needed j
      ∨ ((c.stitch needed j).1 = none ∧ c.stop.isRaised (c.stitch needed j).2 = true) := by
  rcases solve_follows (c := c) (Nat.lt_succ_self needed.length) { journal := j } with heq | hstop
  · left
    rw [stitch, stitch, ← heq]
  · exact Or.inr hstop

/-- A stitching under a raised flag finds nothing. -/
theorem stitch_of_raised (hraised : c.stop.isRaised j = true) (needed : ExampleSet) :
    (c.stitch needed j).1 = none ∧ c.stop.isRaised (c.stitch needed j).2 = true := by
  have hspent : c.Spent needed { journal := j } := ⟨hraised, by simp [State.recall]⟩
  obtain ⟨hnone, hspent'⟩ := solve_of_spent (needed.length + 1) hspent
  exact ⟨hnone, hspent'.raised⟩

end Stitcher

end Sygus
