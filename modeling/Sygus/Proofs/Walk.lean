import Mathlib.Logic.Relation
import Sygus.Enumerator

/-!
# What a call of an enumerator does

A call is a number of **turns**, each of which trades the first term of the frontier
for its expansion, and then an **ending**. Everything later modules say about
enumerators is said about a single turn and a single ending: `next_cases` takes a call
apart in this way, and `exists_next_of_turns` puts a call that is not stopped together.

The converse direction needs to know that the turns come to an end. `exists_next` asks
for accessibility under turns, which holds for quite different reasons with and without
a bound on depth.
-/

namespace Sygus

namespace Enumerator

open Relation (ReflTransGen)

variable {g : Grammar} {stop : Stop}

/-- A turn that does not end a call: a partial term makes way for its expansion. -/
inductive Turn (g : Grammar) : Enumerator → Enumerator → Prop where
  | expand {e : Enumerator} {t : Term} {frontier : Frontier} {terms : List Term} :
      e.frontier.pop? = some (t, frontier) → t.isComplete = false →
      t.expand g = .ok terms →
      Turn g e (({ e with frontier } : Enumerator).enqueue terms)

/-- The ways in which a call can end, with its answer and what it leaves behind. -/
inductive Ending (g : Grammar) (stop : Stop) (e : Enumerator) :
    Except Fault (Option Program) → Enumerator → Prop where
  /-- The frontier is empty. -/
  | dry : e.frontier.toList = [] → Ending g stop e (.ok none) e
  /-- The flag is up. The term that was taken out is lost. -/
  | stopped {t : Term} {frontier : Frontier} {j : Journal} :
      e.frontier.pop? = some (t, frontier) → stop.isRaised j = true →
      Ending g stop e (.ok none) { e with frontier }
  /-- A complete term is handed out. -/
  | handed {p : Program} {frontier : Frontier} :
      e.frontier.pop? = some (p.root, frontier) →
      Ending g stop e (.ok (some p)) { e with frontier }
  /-- A partial term cannot be expanded. -/
  | failed {t : Term} {frontier : Frontier} {fault : Fault} :
      e.frontier.pop? = some (t, frontier) → t.isComplete = false →
      t.expand g = .error fault →
      Ending g stop e (.error fault) { e with frontier }

/-- A call is a number of turns and an ending. -/
theorem next_cases {fuel : Nat} {e : Enumerator} {j : Journal} {pull : Pull}
    (h : next g stop fuel e j = some pull) :
    ∃ e', ReflTransGen (Turn g) e e' ∧ Ending g stop e' pull.result pull.rest := by
  induction fuel generalizing e j with
  | zero => exact absurd h (by simp [next])
  | succ fuel ih =>
      rw [next] at h
      cases hp : e.frontier.pop? with
      | none =>
          simp only [hp, Option.some.injEq] at h
          subst h
          exact ⟨e, .refl, .dry (Frontier.pop?_eq_none_iff.mp hp)⟩
      | some r =>
          obtain ⟨t, frontier⟩ := r
          simp only [hp] at h
          split at h
          · rename_i hraised
            cases h
            exact ⟨e, .refl, .stopped hp hraised⟩
          · split at h
            · rename_i hcomplete
              cases h
              exact ⟨e, .refl, .handed (p := ⟨t, hcomplete⟩) hp⟩
            · rename_i hpartial
              split at h
              · rename_i fault hexp
                cases h
                exact ⟨e, .refl, .failed hp (by simpa using hpartial) hexp⟩
              · rename_i terms hexp
                -- the rest of the call is one with less fuel, after this turn
                obtain ⟨e', hturns, hend⟩ := ih h
                exact ⟨e', .head (.expand hp (by simpa using hpartial) hexp) hturns, hend⟩

/-- A call that is not stopped goes on after a turn. -/
theorem Turn.next_eq {e e' : Enumerator} (h : Turn g e e') (fuel : Nat) (j : Journal) :
    next g .never (fuel + 1) e j = next g .never fuel e' j.polled := by
  cases h with
  | expand hp hpartial hexp => simp [next, hp, hpartial, hexp, Stop.isRaised]

/-- A call that is not stopped ends with its ending. -/
theorem Ending.exists_next_eq {e e' : Enumerator} {answer : Except Fault (Option Program)}
    (h : Ending g .never e answer e') (fuel : Nat) (j : Journal) :
    ∃ j', next g .never (fuel + 1) e j = some ⟨answer, e', j'⟩ := by
  cases h with
  | dry hdry => exact ⟨j, by simp [next, Frontier.pop?_eq_none_iff.mpr hdry]⟩
  | stopped _ hraised => cases hraised
  | @handed p _ hp => exact ⟨j.polled, by simp [next, hp, p.complete, Stop.isRaised]⟩
  | failed hp hpartial hexp =>
      exact ⟨j.polled, by simp [next, hp, hpartial, hexp, Stop.isRaised]⟩

/-- Turns and an ending make a call. -/
theorem exists_next_of_turns {e e' e'' : Enumerator} {answer : Except Fault (Option Program)}
    (h : ReflTransGen (Turn g) e e') (hend : Ending g .never e' answer e'') (j : Journal) :
    ∃ fuel j', next g .never fuel e j = some ⟨answer, e'', j'⟩ := by
  induction h using ReflTransGen.head_induction_on generalizing j with
  | refl => exact ⟨1, hend.exists_next_eq 0 j⟩
  | head hturn _ ih =>
      obtain ⟨fuel, j', hnext⟩ := ih j.polled
      exact ⟨fuel + 1, j', by rw [hturn.next_eq, hnext]⟩

/-- An enumerator makes a turn or ends. -/
theorem turn_or_ending (g : Grammar) (e : Enumerator) :
    (∃ e', Turn g e e') ∨ ∃ answer e', Ending g .never e answer e' := by
  cases hp : e.frontier.pop? with
  | none => exact Or.inr ⟨_, _, .dry (Frontier.pop?_eq_none_iff.mp hp)⟩
  | some r =>
      obtain ⟨t, frontier⟩ := r
      cases hcomplete : t.isComplete with
      | true => exact Or.inr ⟨_, _, .handed (p := ⟨t, hcomplete⟩) hp⟩
      | false =>
          cases hexp : t.expand g with
          | error fault => exact Or.inr ⟨_, _, .failed hp hcomplete hexp⟩
          | ok terms => exact Or.inl ⟨_, .expand hp hcomplete hexp⟩

/-- A call that is not stopped gives the same, whatever the journal. -/
theorem exists_next_of_next {fuel : Nat} {e : Enumerator} {j : Journal} {pull : Pull}
    (h : next g .never fuel e j = some pull) (j' : Journal) :
    ∃ j₁, next g .never fuel e j' = some ⟨pull.result, pull.rest, j₁⟩ := by
  induction fuel generalizing e j j' with
  | zero => exact absurd h (by simp [next])
  | succ fuel ih =>
      rcases turn_or_ending g e with ⟨e', hturn⟩ | ⟨answer, e', hend⟩
      · rw [hturn.next_eq] at h ⊢
        exact ih h j'.polled
      · obtain ⟨j₁, h₁⟩ := hend.exists_next_eq fuel j
        cases h.symm.trans h₁
        exact hend.exists_next_eq fuel j'

/-- In every state a call ends at once, or makes a turn and goes on with less fuel. -/
theorem next_step (g : Grammar) (stop : Stop) (e : Enumerator) (j : Journal) :
    (∃ pull, ∀ fuel, next g stop (fuel + 1) e j = some pull)
      ∨ ∃ e', Turn g e e' ∧ ∀ fuel, next g stop (fuel + 1) e j = next g stop fuel e' j.polled := by
  cases hp : e.frontier.pop? with
  | none => exact Or.inl ⟨⟨.ok none, e, j⟩, fun fuel => by simp [next, hp]⟩
  | some r =>
      obtain ⟨t, frontier⟩ := r
      by_cases hraised : stop.isRaised j = true
      · exact Or.inl ⟨⟨.ok none, { e with frontier }, j.polled⟩, fun fuel => by
          simp [next, hp, hraised]⟩
      · by_cases hcomplete : t.isComplete = true
        · exact Or.inl ⟨⟨.ok (some ⟨t, hcomplete⟩), { e with frontier }, j.polled⟩, fun fuel => by
            simp [next, hp, hraised, hcomplete]⟩
        · cases hexp : t.expand g with
          | error fault =>
              exact Or.inl ⟨⟨.error fault, { e with frontier }, j.polled⟩, fun fuel => by
                simp [next, hp, hraised, hcomplete, hexp]⟩
          | ok terms =>
              refine Or.inr ⟨_, .expand hp (by simpa using hcomplete) hexp, fun fuel => ?_⟩
              simp [next, hp, hraised, hcomplete, hexp]

/-- A call reports nothing. -/
theorem next_events {fuel : Nat} {e : Enumerator} {j : Journal} {pull : Pull}
    (h : next g stop fuel e j = some pull) : pull.journal.events = j.events := by
  induction fuel generalizing e j with
  | zero => exact absurd h (by simp [next])
  | succ fuel ih =>
      rw [next] at h
      cases hp : e.frontier.pop? with
      | none =>
          simp only [hp, Option.some.injEq] at h
          subst h
          rfl
      | some r =>
          simp only [hp] at h
          split at h
          · cases h; rfl
          · split at h
            · cases h; rfl
            · split at h
              · cases h; rfl
              · rw [ih h]; rfl

/-- More fuel changes nothing about a call that ends. -/
theorem next_mono {fuel fuel' : Nat} {e : Enumerator} {j : Journal} {pull : Pull}
    (h : next g stop fuel e j = some pull) (hle : fuel ≤ fuel') :
    next g stop fuel' e j = some pull := by
  induction fuel generalizing fuel' e j with
  | zero => exact absurd h (by simp [next])
  | succ fuel ih =>
      obtain ⟨fuel', rfl⟩ : ∃ m, fuel' = m + 1 := ⟨fuel' - 1, by omega⟩
      rw [next] at h ⊢
      cases hp : e.frontier.pop? with
      | none => simpa only [hp] using h
      | some r =>
          simp only [hp] at h ⊢
          split
          · rename_i hraised
            rwa [if_pos hraised] at h
          · rename_i hraised
            rw [if_neg hraised] at h
            split
            · rename_i hcomplete
              rwa [dif_pos hcomplete] at h
            · rename_i hpartial
              rw [dif_neg hpartial] at h
              cases hexp : r.1.expand g with
              | error fault => simpa only [hexp] using h
              | ok terms =>
                  simp only [hexp] at h ⊢
                  exact ih h (by omega)

/-- **A call ends if its turns do.** -/
theorem exists_next {e : Enumerator} (h : Acc (fun a b => Turn g b a) e) (j : Journal) :
    ∃ fuel pull, next g stop fuel e j = some pull := by
  induction h generalizing j with
  | intro e _ ih =>
      rcases next_step g stop e j with ⟨pull, hpull⟩ | ⟨e', hturn, hnext⟩
      · exact ⟨1, pull, hpull 0⟩
      · obtain ⟨fuel, pull, hpull⟩ := ih e' hturn j.polled
        exact ⟨fuel + 1, pull, (hnext fuel).trans hpull⟩

end Enumerator

end Sygus
