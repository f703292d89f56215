import Sygus.Proofs.Stopping

/-!
# A call depends on nothing but its looks

A call that ends has looked at the flag a number of times, and nothing else that it does has to do
with the flag. So another flag makes no difference if it is up for the same looks, wherever it may be
up later. This is to flags what the use principle is to oracles.
-/

namespace Sygus

variable {stop stop' : Stop} {fuel : Nat} {j : Journal}

/-- For so many looks, the two flags are up or down together. -/
def Stop.Agrees (stop stop' : Stop) (looks : Nat) : Prop :=
  ∀ j : Journal, j.polls < looks → stop.isRaised j = stop'.isRaised j

theorem Stop.Agrees.mono {m n : Nat} (h : stop.Agrees stop' n) (hle : m ≤ n) :
    stop.Agrees stop' m := fun j hj => h j (Nat.lt_of_lt_of_le hj hle)

/-- A look that has been made comes to the same. -/
theorem Stop.Agrees.isRaised_eq {j' : Journal} (h : stop.Agrees stop' j'.polls)
    (hbefore : j.polled.Before j') : stop'.isRaised j = stop.isRaised j :=
  (h j hbefore.polls).symm

/-! ## Enumerators and pools -/

namespace Enumerator

variable {g : Grammar} {e : Enumerator} {pull : Pull}

/-- A call that takes a term looks at the flag. -/
theorem polled_before_of_next {r : Term × Frontier} (hp : e.frontier.pop? = some r)
    (h : next g stop fuel e j = some pull) : j.polled.Before pull.journal := by
  cases fuel with
  | zero => exact absurd h (by simp [next])
  | succ fuel =>
      rw [next] at h
      simp only [hp] at h
      split at h
      · cases h
        exact .refl _
      · split at h
        · cases h
          exact .refl _
        · split at h
          · cases h
            exact .refl _
          · exact next_before h

/-- **What a call hands out depends on its looks alone.** -/
theorem next_congr (h : next g stop fuel e j = some pull)
    (hagrees : stop.Agrees stop' pull.journal.polls) : next g stop' fuel e j = some pull := by
  induction fuel generalizing e j with
  | zero => exact absurd h (by simp [next])
  | succ fuel ih =>
      cases hp : e.frontier.pop? with
      | none => simpa only [next, hp] using h
      | some r =>
          have hlook := hagrees.isRaised_eq (polled_before_of_next hp h)
          rw [next] at h ⊢
          simp only [hp, hlook] at h ⊢
          split
          · rename_i hraised
            rwa [if_pos hraised] at h
          · rename_i hraised
            rw [if_neg hraised] at h
            split
            · rename_i hcomplete
              rwa [dif_pos hcomplete] at h
            · rename_i hpartial
              rw [dif_neg hpartial] at h
              cases hexp : r.1.expand g with
              | error fault => simpa only [hexp] using h
              | ok terms =>
                  simp only [hexp] at h ⊢
                  exact ih h

end Enumerator

/-- **Whether a pool grows depends on the looks alone.** -/
theorem Pool.grow_congr {problem : Problem} {p : Pool} {g : Growth}
    (h : p.grow problem stop fuel j = some g) (hagrees : stop.Agrees stop' g.journal.polls) :
    p.grow problem stop' fuel j = some g := by
  induction fuel generalizing p j with
  | zero => exact absurd h (by simp [grow])
  | succ fuel ih =>
      rw [grow, Option.bind_eq_bind, Option.bind_eq_some_iff] at h ⊢
      obtain ⟨⟨result, rest, journal⟩, hpull, h⟩ := h
      rcases result with fault | _ | program
      · cases h
        exact ⟨_, Enumerator.next_congr hpull hagrees, rfl⟩
      · cases h
        exact ⟨_, Enumerator.next_congr hpull hagrees, rfl⟩
      · dsimp only at h
        cases hlabel : p.role.label program problem.examples with
        | error fault =>
            rw [hlabel] at h
            cases h
            exact ⟨_, Enumerator.next_congr hpull hagrees, by dsimp only; rw [hlabel]⟩
        | ok s =>
            rw [hlabel] at h
            dsimp only at h
            split at h
            · rename_i hspurned
              have hle := (grow_before h).polls
              refine ⟨_, Enumerator.next_congr hpull (hagrees.mono hle), ?_⟩
              dsimp only
              rw [hlabel]
              exact (if_pos hspurned).trans (ih h)
            · rename_i hnew
              cases h
              refine ⟨_, Enumerator.next_congr hpull hagrees, ?_⟩
              dsimp only
              rw [hlabel]
              exact if_neg hnew

namespace Stitcher

variable {α : Type} [Piece α] {c : Stitcher α} {s s' : State α}

/-- The stitcher under another flag. -/
def under (c : Stitcher α) (stop : Stop) : Stitcher α := { c with stop }

/-- A search looks at its flag again and again, and another search under another flag does the same
if all these looks come to the same. -/
def Heeds (stop stop' : Stop) (search search' : State α → Option α × State α) : Prop :=
  ∀ s, s.journal.polls ≤ (search s).2.journal.polls
    ∧ (stop.Agrees stop' (search s).2.journal.polls → search' s = search s)

theorem tryGuards_heeds {rest rest' : State α → Option α × State α}
    (h : Heeds stop stop' rest rest') (this : α) (guards : List α) :
    Heeds stop stop' (tryGuards rest this guards) (tryGuards rest' this guards) := by
  induction guards with
  | nil => exact fun s => ⟨le_refl _, fun _ => rfl⟩
  | cons guard guards ih =>
      intro s
      obtain ⟨hle, hcongr⟩ := h s
      rw [tryGuards, tryGuards]
      generalize rest s = outcome at hle hcongr ⊢
      obtain ⟨found, s₁⟩ := outcome
      cases found with
      | some other =>
          refine ⟨hle, fun hagrees => ?_⟩
          rw [hcongr hagrees]
      | none =>
          obtain ⟨hle', hcongr'⟩ := ih s₁
          refine ⟨hle.trans hle', fun hagrees => ?_⟩
          rw [hcongr (hagrees.mono hle')]
          exact hcongr' hagrees

theorem tryEntries_heeds {solve solve' : ExampleSet → State α → Option α × State α}
    (h : ∀ needed, Heeds c.stop stop' (solve needed) (solve' needed)) (needed : ExampleSet)
    (entries : List (Entry α)) :
    Heeds c.stop stop' (c.tryEntries solve needed entries)
      ((c.under stop').tryEntries solve' needed entries) := by
  induction entries with
  | nil => exact fun s => ⟨le_refl _, fun _ => rfl⟩
  | cons e entries ih =>
      intro s
      have hlook : ∀ {n}, s.journal.polls + 1 ≤ n → c.stop.Agrees stop' n →
          (c.under stop').stop.isRaised s.journal = c.stop.isRaised s.journal :=
        fun hle hagrees => (hagrees s.journal hle).symm
      rw [tryEntries, tryEntries]
      dsimp only
      split
      · rename_i hraised
        refine ⟨Nat.le_succ _, fun hagrees => ?_⟩
        rw [if_pos ((hlook (le_refl _) hagrees).trans hraised)]
      · rename_i hraised
        have hdown : ∀ {n}, s.journal.polls + 1 ≤ n → c.stop.Agrees stop' n →
            ¬ (c.under stop').stop.isRaised s.journal = true := fun hle hagrees => by
          rwa [hlook hle hagrees]
        split
        · refine ⟨Nat.le_succ _, fun hagrees => ?_⟩
          rw [if_neg (hdown (le_refl _) hagrees)]
        · split
          · obtain ⟨hle, hcongr⟩ := ih { s with journal := s.journal.polled }
            refine ⟨(Nat.le_succ _).trans hle, fun hagrees => ?_⟩
            rw [if_neg (hdown hle hagrees)]
            exact hcongr hagrees
          · have hguards := tryGuards_heeds (h (needed.without e.label)) e.piece
              (c.guards e.label) { s with journal := s.journal.polled }
            obtain ⟨hle, hcongr⟩ := hguards
            have hsame : (c.under stop').guards e.label = c.guards e.label := rfl
            rw [hsame]
            generalize tryGuards (solve (needed.without e.label)) e.piece (c.guards e.label)
              { s with journal := s.journal.polled } = outcome at hle hcongr ⊢
            obtain ⟨found, s₁⟩ := outcome
            cases found with
            | some tree =>
                refine ⟨(Nat.le_succ _).trans hle, fun hagrees => ?_⟩
                rw [if_neg (hdown hle hagrees), hcongr hagrees]
            | none =>
                obtain ⟨hle', hcongr'⟩ := ih s₁
                refine ⟨((Nat.le_succ _).trans hle).trans hle', fun hagrees => ?_⟩
                rw [if_neg (hdown (hle.trans hle') hagrees), hcongr (hagrees.mono hle')]
                exact hcongr' hagrees

/-- **A search for a set depends on its looks alone.** -/
theorem solve_heeds (c : Stitcher α) (stop' : Stop) (depth : Nat) (needed : ExampleSet) :
    Heeds c.stop stop' (c.solve depth needed) ((c.under stop').solve depth needed) := by
  induction depth generalizing needed with
  | zero => exact fun s => ⟨le_refl _, fun _ => rfl⟩
  | succ depth ih =>
      intro s
      obtain ⟨hle, hcongr⟩ := tryEntries_heeds ih needed c.expressions s
      rw [solve, solve]
      split
      · exact ⟨le_refl _, fun _ => rfl⟩
      · rw [remember_journal]
        refine ⟨hle, fun hagrees => ?_⟩
        have hsame : (c.under stop').expressions = c.expressions := rfl
        rw [hsame, hcongr hagrees]
        rfl

end Stitcher

end Sygus
