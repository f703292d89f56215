import Sygus.Proofs.Label
import Sygus.Proofs.Walk
import Sygus.DecisionTree.Pool

/-!
# What an attempt to grow a pool does

An attempt is a number of **stirs** and an **ending**. A stir is a turn of the source, or a
program that the source hands out and the pool has no use for; neither touches the
entries. `grow_cases` says so, and `exists_grow` gives the converse: an attempt ends if
stirring does.

A pool is **labelled** if every entry carries its program's label. That is an invariant
of growing, whatever enumerator the programs come from.
-/

namespace Sygus.Pool

open Relation (ReflTransGen)

variable {problem : Problem} {stop : Stop}

/-- The pool with another enumerator. -/
def withSource (p : Pool) (source : Enumerator) : Pool := { p with source }

@[simp] theorem withSource_role (p : Pool) (e : Enumerator) : (p.withSource e).role = p.role := rfl

@[simp] theorem withSource_source (p : Pool) (e : Enumerator) : (p.withSource e).source = e := rfl

@[simp] theorem withSource_entries (p : Pool) (e : Enumerator) :
    (p.withSource e).entries = p.entries := rfl

@[simp] theorem withSource_withSource (p : Pool) (e e' : Enumerator) :
    (p.withSource e).withSource e' = p.withSource e' := rfl

/-- The pool has no use for a program with this label. -/
def Spurns (p : Pool) (s : ExampleSet) : Prop := s = [] ∨ ∃ e ∈ p.entries, e.label = s

theorem spurns_iff {p : Pool} {s : ExampleSet} :
    (s.isEmpty || p.hasLabel s) = true ↔ p.Spurns s := by
  unfold Spurns hasLabel
  rw [Bool.or_eq_true, List.isEmpty_iff, List.any_eq_true]
  simp only [decide_eq_true_eq]

/-- What the pool has no use for it will never have any use for. -/
theorem Spurns.take {p : Pool} {s t : ExampleSet} (h : p.Spurns s) (program : Program) :
    (p.take program t).Spurns s := by
  rcases h with hnil | ⟨e, he, hes⟩
  · exact Or.inl hnil
  · exact Or.inr ⟨e, List.mem_append_left _ he, hes⟩

/-- What is taken in has a label that is not empty. -/
theorem nonempty_take {p : Pool} {s : ExampleSet} (h : ∀ e ∈ p.entries, e.label ≠ [])
    (hnew : ¬ p.Spurns s) (program : Program) : ∀ e ∈ (p.take program s).entries, e.label ≠ [] := by
  intro e he
  rcases List.mem_append.mp he with he | he
  · exact h e he
  · rw [List.mem_singleton.mp he]
    exact fun hnil => hnew (Or.inl hnil)

/-- A label that is not spurned is none of those there are. -/
theorem distinct_take {p : Pool} {s : ExampleSet} (h : (p.entries.map (·.label)).Nodup)
    (hnew : ¬ p.Spurns s) (program : Program) :
    ((p.take program s).entries.map (·.label)).Nodup := by
  show ((p.entries ++ [(⟨program, s⟩ : Entry Program)]).map fun e => e.label).Nodup
  rw [List.map_append, List.nodup_append]
  refine ⟨h, by simp, ?_⟩
  intro a ha b hb hab
  obtain ⟨e, he, hea⟩ := List.mem_map.mp ha
  have hbs : b = s := List.mem_singleton.mp hb
  exact hnew (Or.inr ⟨e, he, by rw [hea, hab, hbs]⟩)

/-- A step of growing that leaves the entries alone. -/
inductive Stir (problem : Problem) (p : Pool) : Pool → Prop where
  | turn {e : Enumerator} : Enumerator.Turn problem.grammar p.source e →
      Stir problem p (p.withSource e)
  | spurn {program : Program} {frontier : Frontier} {s : ExampleSet} :
      p.source.frontier.pop? = some (program.root, frontier) →
      p.role.label program problem.examples = .ok s → p.Spurns s →
      Stir problem p (p.withSource { p.source with frontier })

/-- The ways in which an attempt can end, with its answer and the pool it leaves behind. -/
inductive Ending (problem : Problem) (stop : Stop) (p : Pool) : Except Fault Bool → Pool → Prop where
  /-- The source is exhausted. -/
  | dry : p.source.frontier.toList = [] → Ending problem stop p (.ok false) p
  /-- The flag is up. -/
  | stopped {e : Enumerator} {j : Journal} : stop.isRaised j = true →
      Ending problem stop p (.ok false) (p.withSource e)
  /-- A program with a new label is taken in. -/
  | took {program : Program} {frontier : Frontier} {s : ExampleSet} :
      p.source.frontier.pop? = some (program.root, frontier) →
      p.role.label program problem.examples = .ok s → ¬ p.Spurns s →
      Ending problem stop p (.ok true) ((p.withSource { p.source with frontier }).take program s)
  /-- A partial term cannot be expanded. -/
  | unexpandable {t : Term} {frontier : Frontier} {fault : Fault} :
      p.source.frontier.pop? = some (t, frontier) → t.isComplete = false →
      t.expand problem.grammar = .error fault →
      Ending problem stop p (.error fault) (p.withSource { p.source with frontier })
  /-- A program cannot be evaluated. -/
  | unlabelled {program : Program} {frontier : Frontier} {fault : Fault} :
      p.source.frontier.pop? = some (program.root, frontier) →
      p.role.label program problem.examples = .error fault →
      Ending problem stop p (.error fault) (p.withSource { p.source with frontier })

theorem stirs_of_turns {p : Pool} {e : Enumerator}
    (h : ReflTransGen (Enumerator.Turn problem.grammar) p.source e) :
    ReflTransGen (Stir problem) p (p.withSource e) := by
  induction h with
  | refl => exact .refl
  | tail _ hturn ih =>
      have := ReflTransGen.tail ih (.turn (p := p.withSource _) hturn)
      simpa using this

/-- An attempt is a number of stirs and an ending. -/
theorem grow_cases {fuel : Nat} {p : Pool} {j : Journal} {g : Growth}
    (h : p.grow problem stop fuel j = some g) :
    ∃ p', ReflTransGen (Stir problem) p p' ∧ Ending problem stop p' g.grew g.pool := by
  induction fuel generalizing p j with
  | zero => exact absurd h (by simp [grow])
  | succ fuel ih =>
      rw [grow, Option.bind_eq_bind, Option.bind_eq_some_iff] at h
      obtain ⟨pull, hpull, h⟩ := h
      obtain ⟨e, hturns, hend⟩ := Enumerator.next_cases hpull
      have hstirs := stirs_of_turns hturns
      obtain ⟨result, rest, journal⟩ := pull
      cases hend with
      | dry hdry =>
          cases h
          exact ⟨_, hstirs, .dry hdry⟩
      | stopped _ hraised =>
          cases h
          exact ⟨p.withSource e, hstirs, .stopped (p := p.withSource e) hraised⟩
      | failed hp hpartial hexp =>
          cases h
          exact ⟨p.withSource e, hstirs, .unexpandable (p := p.withSource e) hp hpartial hexp⟩
      | @handed program frontier hp =>
          dsimp only at h
          split at h
          · rename_i fault hlabel
            cases h
            exact ⟨p.withSource e, hstirs, .unlabelled (p := p.withSource e) hp hlabel⟩
          · rename_i s hlabel
            split at h
            · rename_i hspurned
              -- a spurned program is one more stir, and the attempt goes on behind it
              obtain ⟨p', hstirs', hend'⟩ := ih h
              have hstir : Stir problem (p.withSource e) (p.withSource { e with frontier }) :=
                .spurn (p := p.withSource e) hp hlabel (spurns_iff.mp hspurned)
              exact ⟨p', (hstirs.tail hstir).trans hstirs', hend'⟩
            · rename_i hnew
              cases h
              exact ⟨p.withSource e, hstirs,
                .took (p := p.withSource e) hp hlabel (fun hs => hnew (spurns_iff.mpr hs))⟩

/-- More fuel changes nothing about an attempt that ends. -/
theorem grow_mono {fuel fuel' : Nat} {p : Pool} {j : Journal} {g : Growth}
    (h : p.grow problem stop fuel j = some g) (hle : fuel ≤ fuel') :
    p.grow problem stop fuel' j = some g := by
  induction fuel generalizing fuel' p j with
  | zero => exact absurd h (by simp [grow])
  | succ fuel ih =>
      obtain ⟨fuel', rfl⟩ : ∃ m, fuel' = m + 1 := ⟨fuel' - 1, by omega⟩
      rw [grow, Option.bind_eq_bind, Option.bind_eq_some_iff] at h ⊢
      obtain ⟨pull, hpull, h⟩ := h
      refine ⟨pull, Enumerator.next_mono hpull (by omega), ?_⟩
      obtain ⟨result, rest, journal⟩ := pull
      rcases result with fault | _ | program
      · exact h
      · exact h
      · dsimp only at h ⊢
        split
        · rename_i fault hlabel
          rwa [hlabel] at h
        · rename_i s hlabel
          rw [hlabel] at h
          dsimp only at h
          split
          · rename_i hspurned
            rw [if_pos hspurned] at h
            exact ih h (by omega)
          · rename_i hnew
            rwa [if_neg hnew] at h

/-- All that an attempt reports is the entry it takes in. -/
theorem grow_events {fuel : Nat} {p : Pool} {j : Journal} {g : Growth}
    (h : p.grow problem stop fuel j = some g) :
    g.journal.events = j.events
      ∨ ∃ program s, g.journal.events = j.events ++ [.pooled p.role program s] := by
  induction fuel generalizing p j with
  | zero => exact absurd h (by simp [grow])
  | succ fuel ih =>
      rw [grow, Option.bind_eq_bind, Option.bind_eq_some_iff] at h
      obtain ⟨pull, hpull, h⟩ := h
      have hevents := Enumerator.next_events hpull
      obtain ⟨result, rest, journal⟩ := pull
      rcases result with fault | _ | program
      · cases h
        exact Or.inl hevents
      · cases h
        exact Or.inl hevents
      · dsimp only at h hevents
        split at h
        · cases h
          exact Or.inl hevents
        · rename_i s _
          split at h
          · -- nothing is reported of a spurned program
            have := ih h
            rwa [hevents] at this
          · cases h
            exact Or.inr ⟨program, s, by simp [Journal.report, hevents]⟩

/-- A source under which stirring ends is exhausted after finitely many turns. -/
theorem acc_turn_of_acc_stir {p : Pool} (h : Acc (fun a b => Stir problem b a) p) :
    Acc (fun a b => Enumerator.Turn problem.grammar b a) p.source := by
  induction h with
  | intro p _ ih => exact ⟨_, fun e hturn => ih (p.withSource e) (.turn hturn)⟩

/-- **An attempt ends if stirring does.** -/
theorem exists_grow {p : Pool} (h : Acc (fun a b => Stir problem b a) p) (j : Journal) :
    ∃ fuel g, p.grow problem stop fuel j = some g := by
  -- a program that is spurned may lie many stirs ahead, so the induction is on stirs in a row
  have h' := h.transGen
  induction h' generalizing j with
  | intro p _ ih =>
      obtain ⟨fuel, pull, hpull⟩ :
          ∃ fuel pull, p.source.next problem.grammar stop fuel j = some pull :=
        Enumerator.exists_next (acc_turn_of_acc_stir h) j
      obtain ⟨e, hturns, hend⟩ := Enumerator.next_cases hpull
      have hstirs := stirs_of_turns hturns
      obtain ⟨result, rest, journal⟩ := pull
      rcases result with fault | _ | program
      · exact ⟨fuel + 1, ⟨.error fault, p.withSource rest, journal⟩, by
          rw [grow, hpull]; rfl⟩
      · exact ⟨fuel + 1, ⟨.ok false, p.withSource rest, journal⟩, by
          rw [grow, hpull]; rfl⟩
      · cases hlabel : p.role.label program problem.examples with
        | error fault =>
            exact ⟨fuel + 1, ⟨.error fault, p.withSource rest, journal⟩, by
              rw [grow, hpull]
              simp [hlabel, withSource]⟩
        | ok s =>
            by_cases hspurned : (s.isEmpty || p.hasLabel s) = true
            · have hstir : Stir problem (p.withSource e) (p.withSource rest) := by
                cases hend with
                | handed hp =>
                    exact .spurn (p := p.withSource e) hp hlabel (spurns_iff.mp hspurned)
              -- the turns of the call and then the spurning, at least one stir in all
              have hfar : Relation.TransGen (fun a b => Stir problem b a) (p.withSource rest) p :=
                Relation.transGen_swap.mp (Relation.TransGen.tail' hstirs hstir)
              obtain ⟨fuel', g, hg⟩ := ih _ hfar (h.inv_of_transGen hfar) journal
              refine ⟨max fuel fuel' + 1, g, ?_⟩
              rw [grow, Enumerator.next_mono hpull (Nat.le_max_left _ _)]
              dsimp only [Option.bind_eq_bind, Option.bind_some]
              rw [hlabel]
              exact (if_pos hspurned).trans (grow_mono hg (Nat.le_max_right _ _))
            · refine ⟨fuel + 1, ⟨.ok true, (p.withSource rest).take program s,
                journal.report (.pooled p.role program s)⟩, ?_⟩
              rw [grow, hpull]
              dsimp only [Option.bind_eq_bind, Option.bind_some]
              rw [hlabel]
              exact if_neg hspurned

/-! ## Labelled pools -/

theorem Stir.entries_eq {p p' : Pool} (h : Stir problem p p') : p'.entries = p.entries := by
  cases h <;> rfl

theorem Stir.role_eq {p p' : Pool} (h : Stir problem p p') : p'.role = p.role := by
  cases h <;> rfl

theorem stirs_entries_eq {p p' : Pool} (h : ReflTransGen (Stir problem) p p') :
    p'.entries = p.entries := by
  induction h with
  | refl => rfl
  | tail _ hstir ih => rw [hstir.entries_eq, ih]

theorem stirs_role_eq {p p' : Pool} (h : ReflTransGen (Stir problem) p p') : p'.role = p.role := by
  induction h with
  | refl => rfl
  | tail _ hstir ih => rw [hstir.role_eq, ih]

/-- Growing keeps the role. -/
theorem grow_role {fuel : Nat} {p : Pool} {j : Journal} {g : Growth}
    (h : p.grow problem stop fuel j = some g) : g.pool.role = p.role := by
  obtain ⟨p', hstirs, hend⟩ := grow_cases h
  rw [← stirs_role_eq hstirs]
  generalize g.grew = grew, g.pool = pool at hend
  cases hend <;> rfl

/-- Growing adds at most one entry, whose label is its program's own and new to the pool. -/
theorem grow_entries {fuel : Nat} {p : Pool} {j : Journal} {g : Growth}
    (h : p.grow problem stop fuel j = some g) :
    (g.grew ≠ .ok true ∧ g.pool.entries = p.entries)
      ∨ (g.grew = .ok true ∧ ∃ e : Entry Program, g.pool.entries = p.entries ++ [e]
          ∧ p.role.label e.piece problem.examples = .ok e.label ∧ ¬ p.Spurns e.label) := by
  obtain ⟨p', hstirs, hend⟩ := grow_cases h
  have hentries := stirs_entries_eq hstirs
  have hrole := stirs_role_eq hstirs
  generalize g.grew = grew, g.pool = pool at hend
  cases hend with
  | dry _ => exact Or.inl ⟨by simp, hentries⟩
  | stopped _ => exact Or.inl ⟨by simp, hentries⟩
  | unexpandable _ _ _ => exact Or.inl ⟨by simp, hentries⟩
  | unlabelled _ _ => exact Or.inl ⟨by simp, hentries⟩
  | @took program _ s _ hlabel hnew =>
      refine Or.inr ⟨rfl, ⟨program, s⟩, ?_, ?_, ?_⟩
      · simp [take, hentries]
      · rw [← hrole]; exact hlabel
      · unfold Spurns at hnew ⊢
        rwa [← hentries]

/-- Growing throws no entry away. -/
theorem entries_subset_grow {fuel : Nat} {p : Pool} {j : Journal} {g : Growth}
    (h : p.grow problem stop fuel j = some g) : p.entries ⊆ g.pool.entries := by
  rcases grow_entries h with ⟨_, heq⟩ | ⟨_, e, heq, _⟩
  · rw [heq]
    exact fun _ h => h
  · rw [heq]
    exact List.subset_append_left _ _

/-- Every entry carries the label of its program. -/
def Labelled (problem : Problem) (role : Role) (p : Pool) : Prop :=
  p.role = role ∧ ∀ e ∈ p.entries, role.label e.piece problem.examples = .ok e.label

/-- **Growing keeps a pool labelled.** -/
theorem Labelled.grow {role : Role} {fuel : Nat} {p : Pool} {j : Journal} {g : Growth}
    (hp : p.Labelled problem role) (h : p.grow problem stop fuel j = some g) :
    g.pool.Labelled problem role := by
  obtain ⟨hrole, hentries⟩ := hp
  refine ⟨(grow_role h).trans hrole, ?_⟩
  rcases grow_entries h with ⟨_, heq⟩ | ⟨_, e, heq, hlabel, _⟩
  · rwa [heq]
  · rw [heq]
    intro e' he'
    rcases List.mem_append.mp he' with he' | he'
    · exact hentries e' he'
    · rw [List.mem_singleton.mp he', ← hrole]
      exact hlabel

/-- The pools that growing builds: from no entries, by any number of attempts, whatever these
answer, and with any enumerator as the source at any time. -/
inductive Grown (problem : Problem) (role : Role) : Pool → Prop where
  | empty (source : Enumerator) : Grown problem role ⟨role, source, [], []⟩
  | grow {p : Pool} {stop : Stop} {fuel : Nat} {j : Journal} {g : Growth} :
      Grown problem role p → p.grow problem stop fuel j = some g → Grown problem role g.pool
  | withSource {p : Pool} (source : Enumerator) :
      Grown problem role p → Grown problem role (p.withSource source)

theorem Grown.fresh (problem : Problem) (role : Role) (bound : Option Nat) :
    Grown problem role (.fresh role bound) :=
  .empty _

/-- Whatever growing builds is labelled. -/
theorem Grown.labelled {role : Role} {p : Pool} (h : Grown problem role p) :
    p.Labelled problem role := by
  induction h with
  | empty source => exact ⟨rfl, by simp⟩
  | grow _ hgrow ih => exact ih.grow hgrow
  | withSource source _ ih => exact ih

/-! ## What is covered -/

/-- What the pool takes for covered are the examples in its labels. -/
structure Tallied (p : Pool) : Prop where
  ascending : p.covered.Pairwise (· < ·)
  mem_iff : ∀ i, i ∈ p.covered ↔ ∃ e ∈ p.entries, i ∈ e.label

theorem tallied_fresh (role : Role) (bound : Option Nat) : (fresh role bound).Tallied :=
  ⟨.nil, by simp [fresh]⟩

theorem Tallied.withSource {p : Pool} (h : p.Tallied) (source : Enumerator) :
    (p.withSource source).Tallied :=
  ⟨h.ascending, h.mem_iff⟩

/-- **A new entry adds its label to what is covered.** -/
theorem Tallied.take {p : Pool} (h : p.Tallied) (program : Program) (label : ExampleSet) :
    (p.take program label).Tallied := by
  refine ⟨ExampleSet.ascending_union h.ascending label, fun i => ?_⟩
  show i ∈ p.covered.union label ↔ ∃ e ∈ p.entries ++ [⟨program, label⟩], i ∈ e.label
  rw [ExampleSet.mem_union, h.mem_iff]
  simp only [List.mem_append, List.mem_singleton, or_and_right, exists_or, exists_eq_left]

/-- A pool covers the examples if each of them is in some label. -/
theorem Tallied.covers_iff {p : Pool} (h : p.Tallied) {count : Nat}
    (hlabels : ∀ e ∈ p.entries, ∀ i ∈ e.label, i < count) :
    p.covers count = true ↔ ∀ i < count, ∃ e ∈ p.entries, i ∈ e.label := by
  have hcovered : ∀ i ∈ p.covered, i < count := by
    intro i hi
    obtain ⟨e, he, hie⟩ := (h.mem_iff i).mp hi
    exact hlabels e he i hie
  unfold covers
  rw [decide_eq_true_eq, ExampleSet.length_eq_iff h.ascending hcovered]
  simp only [h.mem_iff]

end Sygus.Pool
