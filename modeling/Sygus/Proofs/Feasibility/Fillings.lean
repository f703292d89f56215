import Sygus.Proofs.Feasibility.Members
import Sygus.Proofs.Feasibility.Soundness

/-!
# What fillings make of a sketch

The numbers that sketching gives to the unknowns of a child are those from one numbering up to the
next, so children have no unknown in common, and two fillings can be spliced together: the unknowns
of one child are filled as in the first, those of the next as in the second. Therefore what a sketch
computes under some filling is what its operator makes of anything that the operands compute, each
under some filling (`permits_two`).

The sets that are computed for sketches are built in the same way. So if the variables are known,
the set of a thin sketch holds nothing but what the sketch computes under some filling, whatever is
known of the unknowns, and the built-in solver tells the truth about it.
-/

namespace Sygus

variable {α β γ δ : Type}

/-! ## Unknowns of one part of a sketch -/

/-- No fewer unknowns of either kind have been met. -/
structure Numbering.Before (n n' : Numbering) : Prop where
  ints : n.ints ≤ n'.ints
  bools : n.bools ≤ n'.bools

theorem Numbering.Before.refl (n : Numbering) : n.Before n := ⟨Nat.le_refl _, Nat.le_refl _⟩

theorem Numbering.Before.trans {n n₁ n' : Numbering} (h : n.Before n₁) (h' : n₁.Before n') :
    n.Before n' :=
  ⟨h.ints.trans h'.ints, h.bools.trans h'.bools⟩

/-- The fillings differ in no variable, and in no unknown with a number from the first numbering up
to the second. -/
structure Filling.AgreeBetween (n n' : Numbering) (f f' : Filling) : Prop where
  var : f.var = f'.var
  int (i : Nat) : n.ints ≤ i → i < n'.ints → f.int i = f'.int i
  bool (i : Nat) : n.bools ≤ i → i < n'.bools → f.bool i = f'.bool i

theorem Filling.AgreeBetween.mono {n₀ n n' n₁ : Numbering} {f f' : Filling}
    (h : f.AgreeBetween n₀ n₁ f') (hlow : n₀.Before n) (hhigh : n'.Before n₁) :
    f.AgreeBetween n n' f' where
  var := h.var
  int i hi hi' := h.int i (hlow.ints.trans hi) (Nat.lt_of_lt_of_le hi' hhigh.ints)
  bool i hi hi' := h.bool i (hlow.bools.trans hi) (Nat.lt_of_lt_of_le hi' hhigh.bools)

/-- What is computed from a filling depends on the variables and on the unknowns with a number from
the first numbering up to the second, and on nothing else. -/
structure Numbering.Spans (n n' : Numbering) (x : Filling → α) : Prop where
  before : n.Before n'
  congr {f f' : Filling} : f.AgreeBetween n n' f' → x f = x f'

section Spans

variable {n n₁ n₂ n₃ : Numbering} {x : Filling → α} {y : Filling → β} {z : Filling → γ}

theorem Numbering.Spans.two (hx : n.Spans n₁ x) (hy : n₁.Spans n₂ y) (op : α → β → δ) :
    n.Spans n₂ fun f => op (x f) (y f) where
  before := hx.before.trans hy.before
  congr h := by
    rw [hx.congr (h.mono (.refl _) hy.before), hy.congr (h.mono hx.before (.refl _))]

theorem Numbering.Spans.three (hx : n.Spans n₁ x) (hy : n₁.Spans n₂ y) (hz : n₂.Spans n₃ z)
    (op : α → β → γ → δ) : n.Spans n₃ fun f => op (x f) (y f) (z f) :=
  hx.two (hy.two hz Prod.mk) fun a bc => op a bc.1 bc.2

end Spans

mutual

/-- A sketch has the unknowns that have been numbered for it. -/
theorem IntSketched.spans {n n' : Numbering} {t : Term} {s : IntSketch}
    (h : IntSketched n t s n') : n.Spans n' fun f => s.value f := by
  cases h with
  | hole =>
      exact ⟨⟨Nat.le_succ _, Nat.le_refl _⟩, fun h => h.int _ (Nat.le_refl _) (Nat.lt_succ_self _)⟩
  | ite _ hc ht he => exact hc.spans.three ht.spans he.spans fun b i j => if b then i else j
  | add _ hl hr => exact hl.spans.two hr.spans (· + ·)
  | multiply _ hl hr => exact hl.spans.two hr.spans (· * ·)
  | var _ => exact ⟨.refl _, fun h => congrFun h.var _⟩
  | literal _ => exact ⟨.refl _, fun _ => rfl⟩

theorem BoolSketched.spans {n n' : Numbering} {t : Term} {s : BoolSketch}
    (h : BoolSketched n t s n') : n.Spans n' fun f => s.value f := by
  cases h with
  | hole =>
      exact ⟨⟨Nat.le_refl _, Nat.le_succ _⟩, fun h => h.bool _ (Nat.le_refl _) (Nat.lt_succ_self _)⟩
  | lt _ hl hr => exact hl.spans.two hr.spans fun i j => decide (i < j)
  | eq _ hl hr => exact hl.spans.two hr.spans fun i j => decide (i = j)
  | and _ hl hr => exact hl.spans.two hr.spans (· && ·)
  | or _ hl hr => exact hl.spans.two hr.spans (· || ·)
  | not _ hb => exact ⟨hb.spans.before, fun h => congrArg (!·) (hb.spans.congr h)⟩

end

/-! ## Filling one part after the other -/

/-- Fills the unknowns met so far as the first filling does, later ones as the second. -/
def Filling.splice (f f' : Filling) (n : Numbering) : Filling where
  int i := if i < n.ints then f.int i else f'.int i
  bool i := if i < n.bools then f.bool i else f'.bool i
  var := f.var

/-- Some filling that agrees with what is known gives this result. -/
def Known.Permits (k : Known) (x : Filling → α) (a : α) : Prop :=
  ∃ f : Filling, f.Respects k ∧ x f = a

variable {k : Known}

theorem Filling.Respects.splice {f f' : Filling} (hf : f.Respects k) (hf' : f'.Respects k)
    (n : Numbering) : (f.splice f' n).Respects k where
  int {i m} hi := by
    show (if i < n.ints then f.int i else f'.int i) = m
    split
    · exact hf.int hi
    · exact hf'.int hi
  var hv := hf.var hv

/-- Fillings that agree with what is known have the same variables if these are known. -/
theorem Filling.Respects.var_unique {f f' : Filling} (hf : f.Respects k) (hf' : f'.Respects k)
    (hk : k.Complete) : f.var = f'.var := by
  funext v
  exact Option.some.inj ((hf.var_eq hk v).symm.trans (hf'.var_eq hk v))

section Permits

variable {n n₁ n₂ n₃ : Numbering} {x : Filling → α} {y : Filling → β} {z : Filling → γ}

/-- There is always a result. -/
theorem Known.exists_permits (k : Known) (x : Filling → α) : ∃ a, k.Permits x a := by
  obtain ⟨f, hf⟩ := k.exists_respects
  exact ⟨x f, f, hf, rfl⟩

theorem Known.permits_const {a b : α} : k.Permits (fun _ => a) b ↔ b = a := by
  refine ⟨?_, ?_⟩
  · rintro ⟨_, _, heq⟩
    exact heq.symm
  · rintro rfl
    obtain ⟨f, hf⟩ := k.exists_respects
    exact ⟨f, hf, rfl⟩

theorem Known.permits_one (op : α → δ) {d : δ} :
    k.Permits (fun f => op (x f)) d ↔ ∃ a, k.Permits x a ∧ d = op a := by
  refine ⟨?_, ?_⟩
  · rintro ⟨f, hf, rfl⟩
    exact ⟨_, ⟨f, hf, rfl⟩, rfl⟩
  · rintro ⟨_, ⟨f, hf, rfl⟩, rfl⟩
    exact ⟨f, hf, rfl⟩

/-- **What is chosen for one part never stands in the way of what is chosen for the next.** -/
theorem Known.permits_two (hk : k.Complete) (hx : n.Spans n₁ x) (hy : n₁.Spans n₂ y)
    (op : α → β → δ) {d : δ} :
    k.Permits (fun f => op (x f) (y f)) d ↔ ∃ a b, k.Permits x a ∧ k.Permits y b ∧ d = op a b := by
  refine ⟨?_, ?_⟩
  · rintro ⟨f, hf, rfl⟩
    exact ⟨_, _, ⟨f, hf, rfl⟩, ⟨f, hf, rfl⟩, rfl⟩
  · rintro ⟨_, _, ⟨f, hf, rfl⟩, ⟨f', hf', rfl⟩, rfl⟩
    have hleft : (f.splice f' n₁).AgreeBetween n n₁ f :=
      ⟨rfl, fun _ _ hi => if_pos hi, fun _ _ hi => if_pos hi⟩
    have hright : (f.splice f' n₁).AgreeBetween n₁ n₂ f' :=
      ⟨hf.var_unique hf' hk, fun _ hi _ => if_neg (Nat.not_lt.mpr hi),
        fun _ hi _ => if_neg (Nat.not_lt.mpr hi)⟩
    refine ⟨f.splice f' n₁, hf.splice hf' n₁, ?_⟩
    dsimp only
    rw [hx.congr hleft, hy.congr hright]

theorem Known.permits_three (hk : k.Complete) (hx : n.Spans n₁ x) (hy : n₁.Spans n₂ y)
    (hz : n₂.Spans n₃ z) (op : α → β → γ → δ) {d : δ} :
    k.Permits (fun f => op (x f) (y f) (z f)) d
      ↔ ∃ a b c, k.Permits x a ∧ k.Permits y b ∧ k.Permits z c ∧ d = op a b c := by
  have hpair := permits_two hk hx (hy.two hz Prod.mk) (d := d) fun a bc => op a bc.1 bc.2
  refine hpair.trans ⟨?_, ?_⟩
  · rintro ⟨a, _, ha, hbc, rfl⟩
    obtain ⟨b, c, hb, hc, rfl⟩ := (permits_two hk hy hz Prod.mk).mp hbc
    exact ⟨a, b, c, ha, hb, hc, rfl⟩
  · rintro ⟨a, b, c, ha, hb, hc, rfl⟩
    exact ⟨a, (b, c), ha, (permits_two hk hy hz Prod.mk).mpr ⟨b, c, hb, hc, rfl⟩, rfl⟩

/-- An unknown integer can be what is known of it, and anything if nothing is. -/
theorem Known.mem_ofKnown_int_iff (k : Known) (i : Nat) {m : Int} :
    (Values.ofKnown (k.int i)).Mem m ↔ k.Permits (fun f => f.int i) m := by
  obtain ⟨f, hf⟩ := k.exists_respects
  refine ⟨?_, ?_⟩
  · intro hm
    cases hi : k.int i with
    | some n =>
        rw [hi] at hm
        exact ⟨f, hf, (hf.int hi).trans (Values.mem_single_iff.mp hm).symm⟩
    | none =>
        refine ⟨{ f with int := fun j => if j = i then m else f.int j }, ⟨?_, hf.var⟩, if_pos rfl⟩
        intro j n hj
        show (if j = i then m else f.int j) = n
        rw [if_neg (by rintro rfl; cases hi.symm.trans hj)]
        exact hf.int hj
  · rintro ⟨f', hf', rfl⟩
    exact Values.mem_ofKnown hf'.int

/-- Nothing is ever known of an unknown truth value. -/
theorem Known.permits_bool (k : Known) (i : Nat) (b : Bool) : k.Permits (fun f => f.bool i) b := by
  obtain ⟨f, hf⟩ := k.exists_respects
  exact ⟨{ f with bool := fun _ => b }, ⟨hf.int, hf.var⟩, rfl⟩

/-- A variable that is known can be nothing else. -/
theorem Known.permits_var {v : Variable} {i m : Int} (hv : k.var v = some i) :
    k.Permits (fun f => f.var v) m ↔ m = i := by
  obtain ⟨f, hf⟩ := k.exists_respects
  refine ⟨?_, ?_⟩
  · rintro ⟨f', hf', rfl⟩
    exact hf'.var hv
  · rintro rfl
    exact ⟨f, hf, hf.var hv⟩

end Permits

/-! ## Sets hold what fillings give -/

namespace Outcomes

variable {o o' : Outcomes} {b : Bool}

theorem allows_and_iff (ho : ∃ i, o.allows i = true) (ho' : ∃ j, o'.allows j = true) :
    (o.and o').allows b = true ↔ ∃ i j, o.allows i = true ∧ o'.allows j = true ∧ b = (i && j) := by
  refine ⟨?_, ?_⟩
  · intro h
    cases b with
    | true =>
        obtain ⟨hi, hj⟩ := (Bool.and_eq_true _ _).mp h
        exact ⟨true, true, hi, hj, rfl⟩
    | false =>
        -- one of them fails, whatever the other one does
        obtain ⟨i, hi⟩ := ho
        obtain ⟨j, hj⟩ := ho'
        rcases (Bool.or_eq_true _ _).mp h with hfail | hfail
        · exact ⟨false, j, hfail, hj, rfl⟩
        · exact ⟨i, false, hi, hfail, (Bool.and_false i).symm⟩
  · rintro ⟨i, j, hi, hj, rfl⟩
    exact allows_and hi hj

theorem allows_or_iff (ho : ∃ i, o.allows i = true) (ho' : ∃ j, o'.allows j = true) :
    (o.or o').allows b = true ↔ ∃ i j, o.allows i = true ∧ o'.allows j = true ∧ b = (i || j) := by
  refine ⟨?_, ?_⟩
  · intro h
    cases b with
    | true =>
        obtain ⟨i, hi⟩ := ho
        obtain ⟨j, hj⟩ := ho'
        rcases (Bool.or_eq_true _ _).mp h with hhold | hhold
        · exact ⟨true, j, hhold, hj, rfl⟩
        · exact ⟨i, true, hi, hhold, (Bool.or_true i).symm⟩
    | false =>
        obtain ⟨hi, hj⟩ := (Bool.and_eq_true _ _).mp h
        exact ⟨false, false, hi, hj, rfl⟩
  · rintro ⟨i, j, hi, hj, rfl⟩
    exact allows_or hi hj

theorem allows_not_iff : o.not.allows b = true ↔ ∃ i, o.allows i = true ∧ b = !i := by
  refine ⟨?_, ?_⟩
  · intro h
    refine ⟨!b, ?_, (Bool.not_not b).symm⟩
    cases b <;> exact h
  · rintro ⟨i, hi, rfl⟩
    exact allows_not hi

end Outcomes

/-- A choice can compute what those branches can that its condition leaves open. -/
theorem IntSketch.mem_values_ite {k : Known} {c : BoolSketch} {t e : IntSketch} {n : Int}
    (hc : ∃ b, (c.outcomes k).allows b = true) (ht : (t.values k).Proper)
    (he : (e.values k).Proper) : ((IntSketch.ite c t e).values k).Proper
      ∧ (((IntSketch.ite c t e).values k).Mem n
        ↔ ∃ b i j, (c.outcomes k).allows b = true ∧ (t.values k).Mem i ∧ (e.values k).Mem j
            ∧ n = if b then i else j) := by
  obtain ⟨i₀, hi₀⟩ := ht.exists_mem
  obtain ⟨j₀, hj₀⟩ := he.exists_mem
  rw [IntSketch.values]
  split
  · rename_i heq
    refine ⟨Values.proper_join ht he, ?_⟩
    rw [Values.mem_join_iff]
    refine ⟨?_, ?_⟩
    · rintro (hn | hn)
      · exact ⟨true, n, j₀, by rw [heq]; rfl, hn, hj₀, rfl⟩
      · exact ⟨false, i₀, n, by rw [heq]; rfl, hi₀, hn, rfl⟩
    · rintro ⟨b, i, j, _, hi, hj, rfl⟩
      cases b with
      | true => exact Or.inl hi
      | false => exact Or.inr hj
  · rename_i heq
    refine ⟨ht, ⟨fun hn => ⟨true, n, j₀, by rw [heq]; rfl, hn, hj₀, rfl⟩, ?_⟩⟩
    rintro ⟨b, i, j, hb, hi, _, rfl⟩
    rw [heq] at hb
    cases b with
    | true => exact hi
    | false => exact absurd hb Bool.false_ne_true
  · rename_i canFail heq
    rw [heq] at hc ⊢
    refine ⟨he, ⟨fun hn => ⟨false, i₀, n, ?_, hi₀, hn, rfl⟩, ?_⟩⟩
    · -- the condition cannot hold, but it can do something
      obtain ⟨b, hb⟩ := hc
      cases b with
      | true => exact absurd hb Bool.false_ne_true
      | false => exact hb
    · rintro ⟨b, i, j, hb, _, hj, rfl⟩
      cases b with
      | true => exact absurd hb Bool.false_ne_true
      | false => exact hj

section Exact

variable (hk : k.Complete)
include hk

mutual

/-- **The set of a thin sketch holds what the sketch computes,** each member under some filling. -/
theorem IntSketched.mem_values_iff {n n' : Numbering} {t : Term} {s : IntSketch}
    (h : IntSketched n t s n') (hs : s.isThin = true) :
    (s.values k).Proper ∧ ∀ m, (s.values k).Mem m ↔ k.Permits (fun f => s.value f) m := by
  cases h with
  | hole => exact ⟨Values.proper_ofKnown _, fun m => k.mem_ofKnown_int_iff _⟩
  | ite _ hc ht he =>
      simp only [IntSketch.isThin, Bool.and_eq_true] at hs
      obtain ⟨htp, ht'⟩ := ht.mem_values_iff hs.1.2
      obtain ⟨hep, he'⟩ := he.mem_values_iff hs.2
      have hc' := hc.allows_outcomes_iff hs.1.1
      have hcp : ∃ b, (BoolSketch.outcomes k _).allows b = true :=
        (k.exists_permits _).imp fun b hb => (hc' b).mpr hb
      refine ⟨(IntSketch.mem_values_ite (n := 0) hcp htp hep).1, fun m => ?_⟩
      rw [(IntSketch.mem_values_ite hcp htp hep).2]
      simp only [hc', ht', he']
      exact (Known.permits_three hk hc.spans ht.spans he.spans fun b i j => if b then i else j).symm
  | add _ hl hr =>
      simp only [IntSketch.isThin, Bool.and_eq_true] at hs
      obtain ⟨hlp, hl'⟩ := hl.mem_values_iff hs.1.1
      obtain ⟨hrp, hr'⟩ := hr.mem_values_iff hs.1.2
      rw [IntSketch.values]
      refine ⟨Values.proper_add hlp hrp, fun m => ?_⟩
      rw [Values.mem_add_iff hlp.exists_mem hrp.exists_mem]
      simp only [hl', hr']
      exact (Known.permits_two hk hl.spans hr.spans (· + ·)).symm
  | multiply _ hl hr =>
      simp only [IntSketch.isThin, Bool.and_eq_true] at hs
      obtain ⟨hlp, hl'⟩ := hl.mem_values_iff hs.1
      obtain ⟨hrp, hr'⟩ := hr.mem_values_iff hs.2
      rw [IntSketch.values]
      refine ⟨Values.proper_multiply hlp hrp, fun m => ?_⟩
      rw [Values.mem_multiply_iff hlp.exists_mem hrp.exists_mem]
      simp only [hl', hr']
      exact (Known.permits_two hk hl.spans hr.spans (· * ·)).symm
  | @var _ _ _ v _ =>
      obtain ⟨i, hi⟩ := Option.isSome_iff_exists.mp (hk v)
      rw [IntSketch.values, hi]
      exact ⟨Values.proper_single _, fun m =>
        Values.mem_single_iff.trans (Known.permits_var hi).symm⟩
  | literal _ =>
      exact ⟨Values.proper_single _, fun m => Values.mem_single_iff.trans Known.permits_const.symm⟩

theorem BoolSketched.allows_outcomes_iff {n n' : Numbering} {t : Term} {s : BoolSketch}
    (h : BoolSketched n t s n') (hs : s.isThin = true) (b : Bool) :
    (s.outcomes k).allows b = true ↔ k.Permits (fun f => s.value f) b := by
  cases h with
  | hole => exact iff_of_true (Outcomes.allows_either b) (k.permits_bool _ b)
  | lt _ hl hr =>
      simp only [BoolSketch.isThin, Bool.and_eq_true] at hs
      obtain ⟨hlp, hl'⟩ := hl.mem_values_iff hs.1
      obtain ⟨hrp, hr'⟩ := hr.mem_values_iff hs.2
      rw [BoolSketch.outcomes, Outcomes.allows_lt_iff hlp hrp]
      simp only [hl', hr']
      exact (Known.permits_two hk hl.spans hr.spans fun i j => decide (i < j)).symm
  | eq _ hl hr =>
      simp only [BoolSketch.isThin, Bool.and_eq_true, Bool.or_eq_true] at hs
      have hltidy := IntSketch.tidy_values hk _ hs.1.1
      have hrtidy := IntSketch.tidy_values hk _ hs.1.2
      have hplain := hs.2.imp (IntSketch.plain_values hk) (IntSketch.plain_values hk)
      obtain ⟨hlp, hl'⟩ := hl.mem_values_iff hs.1.1
      obtain ⟨hrp, hr'⟩ := hr.mem_values_iff hs.1.2
      rw [BoolSketch.outcomes, Outcomes.allows_eq_iff hltidy hrtidy hplain hlp hrp]
      simp only [hl', hr']
      exact (Known.permits_two hk hl.spans hr.spans fun i j => decide (i = j)).symm
  | and _ hl hr =>
      simp only [BoolSketch.isThin, Bool.and_eq_true] at hs
      have hl' := hl.allows_outcomes_iff hs.1
      have hr' := hr.allows_outcomes_iff hs.2
      rw [BoolSketch.outcomes, Outcomes.allows_and_iff]
      · simp only [hl', hr']
        exact (Known.permits_two hk hl.spans hr.spans (· && ·)).symm
      · exact (k.exists_permits _).imp fun b hb => (hl' b).mpr hb
      · exact (k.exists_permits _).imp fun b hb => (hr' b).mpr hb
  | or _ hl hr =>
      simp only [BoolSketch.isThin, Bool.and_eq_true] at hs
      have hl' := hl.allows_outcomes_iff hs.1
      have hr' := hr.allows_outcomes_iff hs.2
      rw [BoolSketch.outcomes, Outcomes.allows_or_iff]
      · simp only [hl', hr']
        exact (Known.permits_two hk hl.spans hr.spans (· || ·)).symm
      · exact (k.exists_permits _).imp fun b hb => (hl' b).mpr hb
      · exact (k.exists_permits _).imp fun b hb => (hr' b).mpr hb
  | not _ hb =>
      have hb' := hb.allows_outcomes_iff hs
      rw [BoolSketch.outcomes, Outcomes.allows_not_iff]
      simp only [hb']
      exact (Known.permits_one (!·)).symm

end

end Exact

/-! ## The truth about sketches -/

/-- The solver has an answer about the sketch, and it is true. -/
def Solver.Decides (solver : Solver) (s : IntSketch) (e : Example) : Prop :=
  solver s e = .sat ∧ s.Reaches e ∨ solver s e = .unsat ∧ ¬ s.Reaches e

theorem Solver.Decides.ne_unknown {solver : Solver} {s : IntSketch} {e : Example}
    (h : solver.Decides s e) : solver s e ≠ .unknown := by
  rcases h with ⟨hsat, _⟩ | ⟨hunsat, _⟩
  · rw [hsat]
    exact fun heq => by cases heq
  · rw [hunsat]
    exact fun heq => by cases heq

/-- There is one true answer. -/
theorem Solver.Decides.eq {solver solver' : Solver} {s : IntSketch} {e : Example}
    (h : solver.Decides s e) (h' : solver'.Decides s e) : solver s e = solver' s e := by
  rcases h with ⟨hsat, hreaches⟩ | ⟨hunsat, hnot⟩
  · rcases h' with ⟨hsat', _⟩ | ⟨_, hnot'⟩
    · rw [hsat, hsat']
    · exact absurd hreaches hnot'
  · rcases h' with ⟨_, hreaches'⟩ | ⟨hunsat', _⟩
    · exact absurd hreaches' hnot
    · rw [hunsat, hunsat']

section Verdicts

variable {e : Example} (hk : (Known.ofInput e.input).Complete) {n n' : Numbering} {t : Term}
  {s : IntSketch} (h : IntSketched n t s n') (hs : s.isThin = true)
include hk h hs

/-- The built-in solver keeps a thin sketch if some filling reaches the output, and no other. -/
theorem IntSketched.builtIn_ne_unsat_iff_reaches : Solver.builtIn s e ≠ .unsat ↔ s.Reaches e := by
  rw [Solver.builtIn_ne_unsat_iff hk hs, (h.mem_values_iff hk hs).2]
  rfl

/-- **The built-in solver tells the truth about thin sketches.** -/
theorem IntSketched.builtIn_decides : Solver.Decides .builtIn s e := by
  have hiff := h.builtIn_ne_unsat_iff_reaches hk hs
  have hknown := Solver.builtIn_ne_unknown hk hs
  cases hverdict : Solver.builtIn s e with
  | sat => exact Or.inl ⟨hverdict, hiff.mp (by rw [hverdict]; exact fun heq => by cases heq)⟩
  | unsat => exact Or.inr ⟨hverdict, fun hreaches => hiff.mpr hreaches hverdict⟩
  | unknown => exact absurd hverdict hknown

end Verdicts

end Sygus
