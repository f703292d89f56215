import Sygus.Proofs.Feasibility.Decision

/-!
# The built-in solver rules out nothing that is possible

Constraint-based search drops a term when its solver says that the term is infeasible, so this is
what a solver must never say wrongly. The built-in one has two reasons for it: the output is not in
the set of the sketch, which holds all that the sketch can compute, or the sketch never leaves the
remainder of the output, whatever remainders its variables leave. Both are right for every sketch
and every example (`builtIn_sound`).

If the input binds all variables and the sketch is thin, the set decides, and the solver does not
give up.
-/

namespace Sygus

namespace IntSketch

variable {k : Known} {f : Filling} {m : Nat}

/-! ## Remainders -/

theorem emod_mem_range (hm : m ≠ 0) (n : Int) : n % m ∈ (List.range m).map Int.ofNat := by
  have hnonneg := Int.emod_nonneg n (b := m) (by omega)
  have hlt := Int.emod_lt_of_pos n (b := m) (by omega)
  refine List.mem_map.mpr ⟨(n % m).toNat, List.mem_range.mpr (by omega), ?_⟩
  exact Int.toNat_of_nonneg hnonneg

/-- What is known leaves its own remainder, anything else any. -/
theorem emod_mem_known (hm : m ≠ 0) {n? : Option Int} {i : Int} (h : ∀ {n}, n? = some n → i = n) :
    i % m ∈ n?.elim ((List.range m).map Int.ofNat) fun n => [n % m] := by
  cases n? with
  | none => exact emod_mem_range hm i
  | some n =>
      rw [h rfl]
      exact List.mem_singleton.mpr rfl

/-- **The remainder that a sketch leaves is among those computed for it,** if those of the variables
are. -/
theorem emod_mem_remainders (hf : f.Respects k) (hm : m ≠ 0) {left : Variable → List Int}
    (hleft : ∀ v, f.var v % m ∈ left v) (s : IntSketch) :
    s.value f % m ∈ s.remainders m k left := by
  cases s with
  | unknown i => exact emod_mem_known hm hf.int
  | var v => exact hleft v
  | literal n => exact List.mem_singleton.mpr rfl
  | ite c t e =>
      have hc := c.allows_outcomes hf
      have ht := t.emod_mem_remainders hf hm hleft
      have he := e.emod_mem_remainders hf hm hleft
      rw [remainders, value]
      split
      · rw [List.mem_eraseDups, List.mem_append]
        split
        · exact Or.inl ht
        · exact Or.inr he
      · rename_i heq
        cases hb : c.value f with
        | true => exact ht
        | false => simp [hb, heq, Outcomes.allows] at hc
      · rename_i heq
        cases hb : c.value f with
        | true => simp [hb, heq, Outcomes.allows] at hc
        | false => exact he
  | add l r =>
      have hl := l.emod_mem_remainders hf hm hleft
      have hr := r.emod_mem_remainders hf hm hleft
      rw [remainders, value, List.mem_eraseDups, List.mem_flatMap, Int.add_emod]
      exact ⟨_, hl, List.mem_map.mpr ⟨_, hr, rfl⟩⟩
  | multiply l r =>
      have hl := l.emod_mem_remainders hf hm hleft
      have hr := r.emod_mem_remainders hf hm hleft
      rw [remainders, value, List.mem_eraseDups, List.mem_flatMap, Int.mul_emod]
      exact ⟨_, hl, List.mem_map.mpr ⟨_, hr, rfl⟩⟩

/-- A sketch can leave the remainders that it leaves. -/
theorem canLeave_value (hf : f.Respects k) (hm : m ≠ 0) (s : IntSketch) (vs : List Variable)
    {left : Variable → List Int} (hleft : ∀ v, f.var v % m ∈ left v) :
    s.canLeave (s.value f) m k vs left = true := by
  induction vs generalizing left with
  | nil => exact List.contains_iff_mem.mpr (s.emod_mem_remainders hf hm hleft)
  | cons v vs ih =>
      -- one of the remainders tried is that of the variable
      obtain ⟨r, hr, heq⟩ := List.mem_map.mp (emod_mem_range hm (f.var v))
      refine List.any_eq_true.mpr ⟨r, hr, ih ?_⟩
      intro w
      by_cases hw : w = v
      · rw [if_pos hw, hw, heq]
        exact List.mem_singleton.mpr rfl
      · rw [if_neg hw]
        exact hleft w

end IntSketch

/-! ## The solver -/

namespace Solver

variable {s : IntSketch} {e : Example}

/-- **The built-in solver is sound,** for every sketch and every example. -/
theorem builtIn_sound : Solver.Sound .builtIn := by
  intro s e hverdict hreaches
  obtain ⟨f, hf, hvalue⟩ := hreaches
  have hmem := s.mem_values hf
  rw [hvalue] at hmem
  unfold builtIn at hverdict
  dsimp only at hverdict
  rw [if_neg (by simp [Values.excludes_eq_false hmem])] at hverdict
  split at hverdict
  · cases hverdict
  · split at hverdict
    · rename_i hruled
      rw [Bool.and_eq_true, List.any_eq_true] at hruled
      obtain ⟨m, hm, hnever⟩ := hruled.2
      have hm0 : m ≠ 0 := by
        rintro rfl
        exact absurd hm (by decide)
      have hleft : ∀ v, f.var v % m ∈ IntSketch.varRemainders m (.ofInput e.input) v :=
        fun v => IntSketch.emod_mem_known hm0 hf.var
      have hleaves := s.canLeave_value hf hm0 (s.shared (.ofInput e.input)) hleft
      rw [hvalue] at hleaves
      simp [hleaves] at hnever
    · cases hverdict

section Settled

variable (hshared : s.shared (.ofInput e.input) = [])
include hshared

/-- If no variable is shared, the set of the sketch settles the matter. -/
theorem builtIn_of_shared :
    builtIn s e
      = if (s.values (.ofInput e.input)).excludes e.output.toInt then .unsat
        else if (s.values (.ofInput e.input)).contains e.output.toInt then .sat else .unknown := by
  unfold builtIn
  dsimp only
  rw [hshared, IntSketch.canBe]
  rfl

/-- If the set is tidy as well, it is known what is in it. -/
theorem builtIn_of_tidy (htidy : (s.values (.ofInput e.input)).Tidy) :
    builtIn s e ≠ .unknown
      ∧ (builtIn s e ≠ .unsat ↔ (s.values (.ofInput e.input)).Mem e.output.toInt) := by
  rw [builtIn_of_shared hshared, Values.excludes_eq htidy, ← Values.contains_iff htidy]
  cases (s.values (.ofInput e.input)).contains e.output.toInt <;> simp

end Settled

/-- If all variables are known, none is shared. -/
theorem shared_eq_nil {k : Known} (hk : k.Complete) (s : IntSketch) : s.shared k = [] := by
  unfold IntSketch.shared
  rw [List.filter_eq_nil_iff]
  intro v _
  have hv := hk v
  rw [Option.isSome_iff_ne_none] at hv
  simp [hv]

section Complete

variable (hk : (Known.ofInput e.input).Complete) (hs : s.isThin = true)
include hk hs

/-- Of thin sketches, those are kept whose set holds the output. -/
theorem builtIn_ne_unsat_iff :
    builtIn s e ≠ .unsat ↔ (s.values (.ofInput e.input)).Mem e.output.toInt :=
  (builtIn_of_tidy (shared_eq_nil hk s) (s.tidy_values hk hs)).2

/-- **On a thin sketch the built-in solver does not give up.** -/
theorem builtIn_ne_unknown : builtIn s e ≠ .unknown :=
  (builtIn_of_tidy (shared_eq_nil hk s) (s.tidy_values hk hs)).1

end Complete

end Solver

/-! ## Verdicts on terms -/

section Terms

variable {solver : Solver} {examples : List Example} {t : Term} {s : IntSketch} {n' : Numbering}

/-- On a term that has a sketch there is a verdict. -/
theorem IntSketched.isFeasibleBy_eq (h : IntSketched {} t s n') (solver : Solver)
    (examples : List Example) :
    t.isFeasibleBy solver examples = .ok (examples.all fun e => solver s e ≠ .unsat) := by
  unfold Term.isFeasibleBy
  rw [h.sketch_eq]
  rfl

/-- Where the solver never gives up, nothing is undecided. -/
theorem Term.undecidedBy_eq_nil
    (h : ∀ s, t.sketch = .ok s → ∀ e ∈ examples, solver s e ≠ .unknown) :
    t.undecidedBy solver examples = [] := by
  unfold Term.undecidedBy
  cases hs : t.sketch with
  | error fault => rfl
  | ok s =>
      refine List.filter_eq_nil_iff.mpr ?_
      intro e he
      have hmem := (List.takeWhile_sublist _).subset he
      simpa using h s hs e hmem

/-- **What a sound solver prunes is infeasible:** there is an example whose output the term's sketch
does not reach. -/
theorem Solver.Sound.exists_not_reaches (hsound : solver.Sound)
    (h : t.isFeasibleBy solver examples = .ok false) :
    ∃ s, t.sketch = .ok s ∧ ∃ e ∈ examples, ¬ s.Reaches e := by
  unfold Term.isFeasibleBy at h
  cases hs : t.sketch with
  | error fault =>
      rw [hs] at h
      cases h
  | ok s =>
      rw [hs] at h
      have hall : (examples.all fun e => solver s e ≠ .unsat) = false := Except.ok.inj h
      obtain ⟨e, he, hverdict⟩ := List.all_eq_false.mp hall
      exact ⟨s, rfl, e, he, hsound s e (by simpa using hverdict)⟩

end Terms

end Sygus
