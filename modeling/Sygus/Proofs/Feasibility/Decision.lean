import Sygus.Feasibility.Decision
import Sygus.Proofs.Feasibility.Sketching
import Sygus.Proofs.Feasibility.Values

/-!
# Feasibility misses no filling

The set computed for a sketch holds what the sketch computes under any filling that agrees with
what is known (`mem_values`). If all variables are known, the set of a thin sketch is tidy.

Closed sketches compute one value, and the set computed for them is that value alone. That
is why one plain operand is enough to keep sums within what `contains` decides.
-/

namespace Sygus

namespace Outcomes

/-- Whether a truth value is among the outcomes. -/
def allows (o : Outcomes) (b : Bool) : Bool := if b then o.canHold else o.canFail

theorem allows_either (b : Bool) : either.allows b = true := by
  cases b <;> rfl

theorem allows_and {o o' : Outcomes} {a b : Bool} (ha : o.allows a = true)
    (hb : o'.allows b = true) : (o.and o').allows (a && b) = true := by
  cases a <;> cases b <;> simp_all [allows, Outcomes.and]

theorem allows_or {o o' : Outcomes} {a b : Bool} (ha : o.allows a = true)
    (hb : o'.allows b = true) : (o.or o').allows (a || b) = true := by
  cases a <;> cases b <;> simp_all [allows, Outcomes.or]

theorem allows_not {o : Outcomes} {a : Bool} (ha : o.allows a = true) :
    o.not.allows (!a) = true := by
  cases a <;> exact ha

theorem lt_single (m n : Int) :
    Outcomes.lt (.single m) (.single n) = ⟨decide (m < n), !decide (m < n)⟩ := by
  by_cases h : m < n
  · simp [Outcomes.lt, Values.single, Values.finite?, h]
  · simp [Outcomes.lt, Values.single, Values.finite?, h, Int.not_lt.mp h]

theorem eq_single (m n : Int) :
    Outcomes.eq (.single m) (.single n) = ⟨decide (m = n), !decide (m = n)⟩ := by
  by_cases h : m = n
  · simp [Outcomes.eq, Values.single, Values.finite?, h]
  · simp [Outcomes.eq, Values.single, Values.finite?, h]

theorem allows_lt {a b : Values} {i j : Int} (hi : a.Mem i) (hj : b.Mem j) :
    (Outcomes.lt a b).allows (decide (i < j)) = true := by
  unfold Outcomes.lt
  split
  · rename_i is js his hjs
    rw [Values.mem_of_finite? his] at hi
    rw [Values.mem_of_finite? hjs] at hj
    unfold allows
    split
    · rename_i hlt
      exact List.any_eq_true.mpr ⟨i, hi, List.any_eq_true.mpr ⟨j, hj, hlt⟩⟩
    · rename_i hge
      refine List.any_eq_true.mpr ⟨i, hi, List.any_eq_true.mpr ⟨j, hj, ?_⟩⟩
      simpa using hge
  · exact allows_either _

theorem allows_eq {a b : Values} {i j : Int} (hi : a.Mem i) (hj : b.Mem j) :
    (Outcomes.eq a b).allows (decide (i = j)) = true := by
  unfold Outcomes.eq
  split
  · rename_i is js his hjs
    rw [Values.mem_of_finite? his] at hi
    rw [Values.mem_of_finite? hjs] at hj
    unfold allows
    split
    · rename_i heq
      refine List.any_eq_true.mpr ⟨i, hi, List.any_eq_true.mpr ⟨j, hj, ?_⟩⟩
      simpa using heq
    · rename_i hne
      refine List.any_eq_true.mpr ⟨i, hi, List.any_eq_true.mpr ⟨j, hj, ?_⟩⟩
      simpa using hne
  · rename_i is his _
    rw [Values.mem_of_finite? his] at hi
    unfold allows
    split
    · rename_i heq
      rw [decide_eq_true_eq] at heq
      subst heq
      exact List.any_eq_true.mpr ⟨i, hi, by rw [Values.excludes_eq_false hj]; rfl⟩
    · rfl
  · rename_i js _ hjs
    rw [Values.mem_of_finite? hjs] at hj
    unfold allows
    split
    · rename_i heq
      rw [decide_eq_true_eq] at heq
      subst heq
      exact List.any_eq_true.mpr ⟨i, hj, by rw [Values.excludes_eq_false hi]; rfl⟩
    · rfl
  · unfold allows
    split
    · rename_i heq
      rw [decide_eq_true_eq] at heq
      subst heq
      -- a common member makes a difference of zero
      have hminus : (Values.single (-1)).Mem (-1) := Values.mem_single_iff.mpr rfl
      have hzero := Values.mem_add hi (Values.mem_multiply hj hminus)
      rw [Int.mul_neg, Int.mul_one, Int.add_right_neg] at hzero
      show (!Values.excludes _ 0) = true
      rw [Values.excludes_eq_false hzero]
      rfl
    · rfl

end Outcomes

/-- All variables are known. -/
def Known.Complete (k : Known) : Prop := ∀ v, (k.var v).isSome = true

variable {k : Known} {f : Filling}

/-- Nothing that is known contradicts itself. -/
theorem Known.exists_respects (k : Known) : ∃ f : Filling, f.Respects k := by
  refine ⟨⟨fun i => (k.int i).getD 0, fun _ => false, fun v => (k.var v).getD 0⟩, ?_, ?_⟩
  · intro i n hi
    simp [hi]
  · intro v n hv
    simp [hv]

theorem Filling.Respects.var_eq (hf : f.Respects k) (hk : k.Complete) (v : Variable) :
    k.var v = some (f.var v) := by
  obtain ⟨n, hn⟩ := Option.isSome_iff_exists.mp (hk v)
  rw [hn, hf.var hn]

mutual

/-- **A closed sketch computes one value.** -/
theorem IntSketch.values_of_isClosed (hk : k.Complete) (hf : f.Respects k) :
    ∀ (s : IntSketch), s.isClosed = true → s.values k = .single (s.value f)
  | .unknown _, h => absurd h (by simp [IntSketch.isClosed])
  | .var v, _ => by
      rw [IntSketch.values, hf.var_eq hk]
      rfl
  | .literal _, _ => rfl
  | .ite c t e, h => by
      simp only [IntSketch.isClosed, Bool.and_eq_true] at h
      rw [IntSketch.values, c.outcomes_of_isClosed hk hf h.1.1,
        t.values_of_isClosed hk hf h.1.2, e.values_of_isClosed hk hf h.2, IntSketch.value]
      cases c.value f <;> rfl
  | .add l r, h => by
      simp only [IntSketch.isClosed, Bool.and_eq_true] at h
      rw [IntSketch.values, l.values_of_isClosed hk hf h.1, r.values_of_isClosed hk hf h.2]
      rfl
  | .multiply l r, h => by
      simp only [IntSketch.isClosed, Bool.and_eq_true] at h
      rw [IntSketch.values, l.values_of_isClosed hk hf h.1, r.values_of_isClosed hk hf h.2]
      rfl

theorem BoolSketch.outcomes_of_isClosed (hk : k.Complete) (hf : f.Respects k) :
    ∀ (s : BoolSketch), s.isClosed = true → s.outcomes k = ⟨s.value f, !s.value f⟩
  | .unknown _, h => absurd h (by simp [BoolSketch.isClosed])
  | .lt l r, h => by
      simp only [BoolSketch.isClosed, Bool.and_eq_true] at h
      rw [BoolSketch.outcomes, l.values_of_isClosed hk hf h.1, r.values_of_isClosed hk hf h.2,
        BoolSketch.value, Outcomes.lt_single]
  | .eq l r, h => by
      simp only [BoolSketch.isClosed, Bool.and_eq_true] at h
      rw [BoolSketch.outcomes, l.values_of_isClosed hk hf h.1, r.values_of_isClosed hk hf h.2,
        BoolSketch.value, Outcomes.eq_single]
  | .and l r, h => by
      simp only [BoolSketch.isClosed, Bool.and_eq_true] at h
      rw [BoolSketch.outcomes, l.outcomes_of_isClosed hk hf h.1, r.outcomes_of_isClosed hk hf h.2,
        BoolSketch.value]
      simp [Outcomes.and]
  | .or l r, h => by
      simp only [BoolSketch.isClosed, Bool.and_eq_true] at h
      rw [BoolSketch.outcomes, l.outcomes_of_isClosed hk hf h.1, r.outcomes_of_isClosed hk hf h.2,
        BoolSketch.value]
      simp [Outcomes.or]
  | .not b, h => by
      rw [BoolSketch.outcomes, b.outcomes_of_isClosed hk hf h, BoolSketch.value]
      simp [Outcomes.not]

end

theorem Values.plain_ofKnown (n? : Option Int) : (Values.ofKnown n?).Plain := by
  cases n? with
  | none => exact Or.inr rfl
  | some n => exact Or.inl ⟨n, rfl⟩

theorem Values.tidy_ofKnown (n? : Option Int) : (Values.ofKnown n?).Tidy := by
  cases n? with
  | none => exact Values.tidy_every
  | some n => exact Values.tidy_single n

theorem Values.mem_ofKnown {n? : Option Int} {m : Int} (h : ∀ {n}, n? = some n → m = n) :
    (Values.ofKnown n?).Mem m := by
  cases n? with
  | none => exact Values.mem_every m
  | some n => exact Values.mem_single_iff.mpr (h rfl)

/-- A plain sketch computes a plain set. -/
theorem IntSketch.plain_values (hk : k.Complete) {s : IntSketch} (h : s.isPlain = true) :
    (s.values k).Plain := by
  obtain ⟨f, hf⟩ := k.exists_respects
  cases s with
  | unknown i => exact Values.plain_ofKnown _
  | var v => exact Values.plain_ofKnown _
  | literal n => exact Or.inl ⟨n, rfl⟩
  | ite c t e => exact Or.inl ⟨_, values_of_isClosed hk hf _ h⟩
  | add l r => exact Or.inl ⟨_, values_of_isClosed hk hf _ h⟩
  | multiply l r => exact Or.inl ⟨_, values_of_isClosed hk hf _ h⟩

/-- A branch of a choice is in the set that its condition leaves. -/
theorem IntSketch.mem_values_branch {c : BoolSketch} {t e : IntSketch} {b : Bool} {n : Int}
    (hc : (c.outcomes k).allows b = true) (hn : (if b then t.values k else e.values k).Mem n) :
    ((IntSketch.ite c t e).values k).Mem n := by
  rw [IntSketch.values]
  unfold Outcomes.allows at hc
  split
  · refine Values.mem_join ?_
    cases b with
    | true => exact Or.inl hn
    | false => exact Or.inr hn
  · rename_i heq
    rw [heq] at hc
    cases b with
    | true => exact hn
    | false => exact absurd hc (by simp)
  · rename_i heq
    rw [heq] at hc
    cases b with
    | true => exact absurd hc (by simp)
    | false => exact hn

mutual

/-- **What a sketch computes is in its set,** whatever is known and however often a variable or an
unknown occurs. -/
theorem IntSketch.mem_values (hf : f.Respects k) : ∀ (s : IntSketch), (s.values k).Mem (s.value f)
  | .unknown i => by
      rw [IntSketch.values, IntSketch.value]
      exact Values.mem_ofKnown hf.int
  | .var v => by
      rw [IntSketch.values, IntSketch.value]
      exact Values.mem_ofKnown hf.var
  | .literal n => Values.mem_single_iff.mpr rfl
  | .ite c t e => by
      refine IntSketch.mem_values_branch (c.allows_outcomes hf) ?_
      rw [IntSketch.value]
      split
      · exact t.mem_values hf
      · exact e.mem_values hf
  | .add l r => Values.mem_add (l.mem_values hf) (r.mem_values hf)
  | .multiply l r => Values.mem_multiply (l.mem_values hf) (r.mem_values hf)

/-- The truth value that a sketch computes is among its outcomes. -/
theorem BoolSketch.allows_outcomes (hf : f.Respects k) :
    ∀ (s : BoolSketch), (s.outcomes k).allows (s.value f) = true
  | .unknown _ => Outcomes.allows_either _
  | .lt l r => Outcomes.allows_lt (l.mem_values hf) (r.mem_values hf)
  | .eq l r => Outcomes.allows_eq (l.mem_values hf) (r.mem_values hf)
  | .and l r => Outcomes.allows_and (l.allows_outcomes hf) (r.allows_outcomes hf)
  | .or l r => Outcomes.allows_or (l.allows_outcomes hf) (r.allows_outcomes hf)
  | .not b => Outcomes.allows_not (b.allows_outcomes hf)

end

/-- **The set of a thin sketch is tidy,** so that membership in it is decided. -/
theorem IntSketch.tidy_values (hk : k.Complete) :
    ∀ (s : IntSketch), s.isThin = true → (s.values k).Tidy
  | .unknown _, _ => Values.tidy_ofKnown _
  | .var _, _ => Values.tidy_ofKnown _
  | .literal n, _ => Values.tidy_single _
  | .ite c t e, h => by
      simp only [IntSketch.isThin, Bool.and_eq_true] at h
      have ht := t.tidy_values hk h.1.2
      have he := e.tidy_values hk h.2
      rw [IntSketch.values]
      split
      · exact Values.tidy_join ht he
      · exact ht
      · exact he
  | .add l r, h => by
      simp only [IntSketch.isThin, Bool.and_eq_true, Bool.or_eq_true] at h
      have hplain := h.2.imp (IntSketch.plain_values hk) (IntSketch.plain_values hk)
      exact Values.tidy_add (l.tidy_values hk h.1.1) (r.tidy_values hk h.1.2) hplain
  | .multiply l r, h => by
      simp only [IntSketch.isThin, Bool.and_eq_true] at h
      exact Values.tidy_multiply (l.tidy_values hk h.1) (r.tidy_values hk h.2)

end Sygus
