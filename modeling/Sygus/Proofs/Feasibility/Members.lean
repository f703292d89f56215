import Mathlib.Data.Int.GCD
import Mathlib.Tactic.Linarith
import Sygus.Proofs.Feasibility.Decision

/-!
# Sets of values hold nothing else

That the operations on sets lose no member is what pruning needs. Here is the other half: they
gain none, so each of them is exact.

Comparisons take for granted that a set which is not listed has members on either side of
any number. That is so if nothing in the set collapses: no progression stands still, nothing
is multiplied by zero alone. Such sets are **proper**, and all operations keep sets proper.
-/

namespace Sygus

namespace Values

variable {a b v : Values} {n : Int}

/-! ## No operation gains a member -/

theorem mem_progression_one (start n : Int) : (progression 1 start).Mem n := by
  refine ⟨n - start, ?_⟩
  rw [Int.natCast_one, Int.one_mul]
  omega

theorem mem_pairs_iff {is js : List Int} {f : Int → Int → Int} :
    n ∈ (is.flatMap fun i => js.map (f i)).eraseDups ↔ ∃ i j, i ∈ is ∧ j ∈ js ∧ n = f i j := by
  simp only [List.mem_eraseDups, List.mem_flatMap, List.mem_map]
  refine ⟨?_, ?_⟩
  · rintro ⟨i, hi, j, hj, rfl⟩
    exact ⟨i, j, hi, hj, rfl⟩
  · rintro ⟨i, j, hi, hj, rfl⟩
    exact ⟨i, hi, j, hj, rfl⟩

theorem mem_join_iff : (a.join b).Mem n ↔ a.Mem n ∨ b.Mem n := by
  refine ⟨?_, mem_join⟩
  intro h
  unfold join at h
  split at h
  · rw [mem_only_iff, List.mem_eraseDups, List.mem_append] at h
    exact h
  · exact Or.inl (mem_progression_one _ n)
  · exact Or.inr (mem_progression_one _ n)
  · exact h

/-- A multiple of the greatest common divisor is a sum of multiples. -/
theorem exists_combination (m n : Nat) (k : Int) :
    ∃ u v : Int, ((m.gcd n : Nat) : Int) * k = m * u + n * v := by
  refine ⟨m.gcdA n * k, m.gcdB n * k, ?_⟩
  rw [Nat.gcd_eq_gcd_ab, Int.add_mul, Int.mul_assoc, Int.mul_assoc]

theorem mem_add_iff (ha : ∃ i, a.Mem i) (hb : ∃ j, b.Mem j) :
    (a.add b).Mem n ↔ ∃ i j, a.Mem i ∧ b.Mem j ∧ n = i + j := by
  refine ⟨?_, ?_⟩
  · intro h
    unfold add at h
    split at h
    · exact mem_pairs_iff.mp h
    · obtain ⟨j, hj⟩ := hb
      exact ⟨n - j, j, mem_progression_one _ _, hj, by omega⟩
    · obtain ⟨i, hi⟩ := ha
      exact ⟨i, n - i, hi, mem_progression_one _ _, by omega⟩
    · rename_i i step start _
      obtain ⟨k, rfl⟩ := h
      exact ⟨i, start + step * k, List.mem_singleton.mpr rfl, ⟨k, rfl⟩, by omega⟩
    · rename_i step start j _
      obtain ⟨k, rfl⟩ := h
      exact ⟨start + step * k, j, ⟨k, rfl⟩, List.mem_singleton.mpr rfl, by omega⟩
    · rename_i m i n' j _ _
      obtain ⟨k, rfl⟩ := h
      obtain ⟨u, v, huv⟩ := exists_combination m n' k
      exact ⟨i + m * u, j + n' * v, ⟨u, rfl⟩, ⟨v, rfl⟩, by omega⟩
    · exact h
  · rintro ⟨i, j, hi, hj, rfl⟩
    exact mem_add hi hj

/-- If all multiples of the common factor are taken for members, the common factor is, up to its
sign, a member of the progression. -/
theorem exists_of_mem_multiplesOf {step : Nat} {start : Int} (h : (multiplesOf step start).Mem n) :
    ∃ i j, (progression step start).Mem i ∧ n = i * j := by
  unfold multiplesOf at h
  dsimp only at h
  split at h
  · rename_i hunit
    obtain ⟨k, rfl⟩ := h
    generalize hcommon : step.gcd start.natAbs = common at hunit ⊢
    have hstep : (step : Int) = common * (step / common : Nat) := by
      rw [← hcommon, ← Int.natCast_mul, Nat.mul_div_cancel' (Nat.gcd_dvd_left _ _)]
    have hstart : start = common * (start / common) := by
      rw [← hcommon]
      exact (Int.mul_ediv_cancel' (Int.ofNat_dvd_left.mpr (Nat.gcd_dvd_right _ _))).symm
    -- a member of what is left over, times the common factor, is a member
    have hscaled : ∀ {i : Int}, (progression (step / common) (start / common)).Mem i →
        (progression step start).Mem (common * i) := by
      rintro i ⟨l, rfl⟩
      refine ⟨l, ?_⟩
      rw [Int.mul_add, ← Int.mul_assoc, ← hstart, ← hstep]
    rw [Bool.or_eq_true, contains_progression_iff, contains_progression_iff] at hunit
    rcases hunit with hone | hminus
    · exact ⟨common * 1, k, hscaled hone, by rw [Int.mul_one, Int.zero_add]⟩
    · exact ⟨common * -1, -k, hscaled hminus, by rw [Int.zero_add]; ring⟩
  · obtain ⟨i, j, hi, _, rfl⟩ := h
    exact ⟨i, j, hi, rfl⟩

/-- A progression times a number holds nothing but its members times the number. -/
theorem exists_of_mem_scale {i start : Int} {step : Nat}
    (h : (if i = 0 then single 0 else progression (i.natAbs * step) (i * start)).Mem n) :
    ∃ j, (progression step start).Mem j ∧ n = i * j := by
  split at h
  · rename_i hi
    rw [mem_single_iff] at h
    exact ⟨start, ⟨0, by simp⟩, by rw [h, hi, Int.zero_mul]⟩
  · obtain ⟨k, rfl⟩ := h
    refine ⟨start + step * (i.sign * k), ⟨i.sign * k, rfl⟩, ?_⟩
    have hsign : ((i.natAbs : Nat) : Int) = i * i.sign := by rw [Int.mul_sign_self]
    rw [Int.natCast_mul, hsign]
    ring

theorem exists_of_mem_scale_product {i : Int} (hb : ∃ j, b.Mem j)
    (h : (if i = 0 then single 0 else product (only [i]) b).Mem n) : ∃ j, b.Mem j ∧ n = i * j := by
  split at h
  · rename_i hi
    rw [mem_single_iff] at h
    obtain ⟨j, hj⟩ := hb
    exact ⟨j, hj, by rw [h, hi, Int.zero_mul]⟩
  · obtain ⟨i', j, hi', hj, rfl⟩ := h
    exact ⟨j, hj, by rw [List.mem_singleton.mp hi']⟩

theorem mem_multiply_iff (ha : ∃ i, a.Mem i) (hb : ∃ j, b.Mem j) :
    (a.multiply b).Mem n ↔ ∃ i j, a.Mem i ∧ b.Mem j ∧ n = i * j := by
  refine ⟨?_, ?_⟩
  · intro h
    unfold multiply at h
    split at h
    · exact mem_pairs_iff.mp h
    · obtain ⟨j, hj, hn⟩ := exists_of_mem_scale h
      exact ⟨_, j, List.mem_singleton.mpr rfl, hj, hn⟩
    · rename_i step start i
      rw [Nat.mul_comm, Int.mul_comm start] at h
      obtain ⟨j, hj, hn⟩ := exists_of_mem_scale h
      exact ⟨j, i, hj, List.mem_singleton.mpr rfl, by rw [hn, Int.mul_comm]⟩
    · obtain ⟨j, hj, hn⟩ := exists_of_mem_scale_product hb h
      exact ⟨_, j, List.mem_singleton.mpr rfl, hj, hn⟩
    · rename_i i _ _
      split at h
      · rename_i hi
        rw [mem_single_iff] at h
        obtain ⟨j, hj⟩ := ha
        exact ⟨j, i, hj, List.mem_singleton.mpr rfl, by rw [h, hi, Int.mul_zero]⟩
      · exact h
    · obtain ⟨i, j, hi, hn⟩ := exists_of_mem_multiplesOf h
      exact ⟨i, j, hi, mem_progression_one _ j, hn⟩
    · obtain ⟨i, j, hi, hn⟩ := exists_of_mem_multiplesOf h
      exact ⟨j, i, mem_progression_one _ j, hi, by rw [hn, Int.mul_comm]⟩
    · exact h
  · rintro ⟨i, j, hi, hj, rfl⟩
    exact mem_multiply hi hj

/-! ## Sets that are not finite -/

/-- There are members on either side of any number. -/
def Unbounded (v : Values) : Prop := ∀ m, (∃ n, v.Mem n ∧ n < m) ∧ ∃ n, v.Mem n ∧ m < n

/-- No part of the set is empty, and no part collapses that is not listed. -/
def Proper : Values → Prop
  | only members => members = [0] ∨ ∃ n ∈ members, n ≠ 0
  | progression step _ => step ≠ 0
  | union a b => a.Proper ∧ b.Proper ∧ (a.finite? = none ∨ b.finite? = none)
  | sum a b => a.Proper ∧ b.Proper ∧ (a.finite? = none ∨ b.finite? = none)
  | product a b => a.Proper ∧ b.Proper ∧ (a.finite? = none ∨ b.finite? = none)
      ∧ a ≠ single 0 ∧ b ≠ single 0

theorem Proper.exists_mem (h : v.Proper) : ∃ n, v.Mem n := by
  induction v with
  | only members =>
      rcases h with rfl | ⟨n, hn, _⟩
      · exact ⟨0, List.mem_singleton.mpr rfl⟩
      · exact ⟨n, hn⟩
  | progression step start => exact ⟨start, 0, by simp⟩
  | union a b iha _ =>
      obtain ⟨n, hn⟩ := iha h.1
      exact ⟨n, Or.inl hn⟩
  | sum a b iha ihb =>
      obtain ⟨i, hi⟩ := iha h.1
      obtain ⟨j, hj⟩ := ihb h.2.1
      exact ⟨i + j, i, j, hi, hj, rfl⟩
  | product a b iha ihb =>
      obtain ⟨i, hi⟩ := iha h.1
      obtain ⟨j, hj⟩ := ihb h.2.1
      exact ⟨i * j, i, j, hi, hj, rfl⟩

theorem Unbounded.exists_ne (h : v.Unbounded) (m : Int) : ∃ n, v.Mem n ∧ n ≠ m := by
  obtain ⟨_, n, hn, hlt⟩ := h m
  exact ⟨n, hn, by omega⟩

theorem unbounded_progression {step : Nat} {start : Int} (h : step ≠ 0) :
    (progression step start).Unbounded := by
  intro m
  have hstep : (1 : Int) ≤ step := by omega
  have hgap : ∀ k : Int, 0 ≤ k → k ≤ step * k := by
    intro k hk
    have hmul := Int.mul_le_mul_of_nonneg_right hstep hk
    rwa [Int.one_mul] at hmul
  -- so many steps are enough to pass `m` from the start
  have hpass := hgap ((m - start).natAbs + 1) (by omega)
  refine ⟨⟨start + step * -((m - start).natAbs + 1), ⟨_, rfl⟩, ?_⟩,
    start + step * ((m - start).natAbs + 1), ⟨_, rfl⟩, ?_⟩
  · rw [Int.mul_neg]
    omega
  · omega

theorem Unbounded.sum (ha : a.Unbounded) (hb : ∃ j, b.Mem j) : (sum a b).Unbounded := by
  intro m
  obtain ⟨j, hj⟩ := hb
  obtain ⟨⟨i, hi, hbelow⟩, i', hi', habove⟩ := ha (m - j)
  exact ⟨⟨i + j, ⟨i, j, hi, hj, rfl⟩, by omega⟩, i' + j, ⟨i', j, hi', hj, rfl⟩, by omega⟩

/-- A factor other than zero stretches an unbounded set, and may turn it round. -/
theorem Unbounded.product (ha : a.Unbounded) (hb : ∃ j, b.Mem j ∧ j ≠ 0) :
    (product a b).Unbounded := by
  intro m
  obtain ⟨j, hj, hj0⟩ := hb
  obtain ⟨⟨i, hi, hbelow⟩, _⟩ := ha (-m.natAbs)
  obtain ⟨_, i', hi', habove⟩ := ha m.natAbs
  rcases Int.lt_or_lt_of_ne hj0 with hneg | hpos
  · have hup : i * j ≥ -i := by nlinarith
    have hdown : i' * j ≤ -i' := by nlinarith
    exact ⟨⟨i' * j, ⟨i', j, hi', hj, rfl⟩, by omega⟩, i * j, ⟨i, j, hi, hj, rfl⟩, by omega⟩
  · have hdown : i * j ≤ i := by nlinarith
    have hup : i' * j ≥ i' := by nlinarith
    exact ⟨⟨i * j, ⟨i, j, hi, hj, rfl⟩, by omega⟩, i' * j, ⟨i', j, hi', hj, rfl⟩, by omega⟩

/-- A set of members and one of the same members in another order are equally unbounded. -/
theorem Unbounded.congr (ha : a.Unbounded) (h : ∀ n, a.Mem n → b.Mem n) : b.Unbounded := by
  intro m
  obtain ⟨⟨i, hi, hbelow⟩, i', hi', habove⟩ := ha m
  exact ⟨⟨i, h i hi, hbelow⟩, i', h i' hi', habove⟩

theorem Proper.exists_ne_zero (h : v.Proper) (hv : v ≠ single 0)
    (hunbounded : v.finite? = none → v.Unbounded) : ∃ n, v.Mem n ∧ n ≠ 0 := by
  cases hfinite : v.finite? with
  | none => exact (hunbounded hfinite).exists_ne 0
  | some members =>
      cases v with
      | only members' => exact h.resolve_left fun heq => hv (by rw [heq]; rfl)
      | progression _ _ => simp [finite?] at hfinite
      | union _ _ => simp [finite?] at hfinite
      | sum _ _ => simp [finite?] at hfinite
      | product _ _ => simp [finite?] at hfinite

/-- **What is not listed is unbounded.** -/
theorem Proper.unbounded (h : v.Proper) (hv : v.finite? = none) : v.Unbounded := by
  induction v with
  | only members => simp [finite?] at hv
  | progression step start => exact unbounded_progression h
  | union a b iha ihb =>
      obtain ⟨ha, hb, hinfinite⟩ := h
      rcases hinfinite with hnone | hnone
      · exact (iha ha hnone).congr fun _ => Or.inl
      · exact (ihb hb hnone).congr fun _ => Or.inr
  | sum a b iha ihb =>
      obtain ⟨ha, hb, hinfinite⟩ := h
      rcases hinfinite with hnone | hnone
      · exact (iha ha hnone).sum hb.exists_mem
      · refine ((ihb hb hnone).sum ha.exists_mem).congr ?_
        rintro _ ⟨j, i, hj, hi, rfl⟩
        exact ⟨i, j, hi, hj, Int.add_comm j i⟩
  | product a b iha ihb =>
      obtain ⟨ha, hb, hinfinite, ha0, hb0⟩ := h
      rcases hinfinite with hnone | hnone
      · exact (iha ha hnone).product (hb.exists_ne_zero hb0 (ihb hb))
      · refine ((ihb hb hnone).product (ha.exists_ne_zero ha0 (iha ha))).congr ?_
        rintro _ ⟨j, i, hj, hi, rfl⟩
        exact ⟨i, j, hi, hj, Int.mul_comm j i⟩

/-! ## All operations keep sets proper -/

theorem proper_single (n : Int) : (single n).Proper := by
  by_cases hn : n = 0
  · exact Or.inl (by rw [hn])
  · exact Or.inr ⟨n, List.mem_singleton.mpr rfl, hn⟩

theorem proper_every : every.Proper := Nat.one_ne_zero

theorem proper_ofKnown (n? : Option Int) : (ofKnown n?).Proper := by
  cases n? with
  | none => exact proper_every
  | some n => exact proper_single n

/-- Without repetitions there is at most one zero. -/
theorem proper_eraseDups {members : List Int} (h : members ≠ []) :
    (only members.eraseDups).Proper := by
  by_cases hzero : ∀ n ∈ members, n = 0
  · cases members with
    | nil => exact absurd rfl h
    | cons m rest =>
        rw [List.forall_mem_cons] at hzero
        have hrest : rest.filter (fun n => !n == m) = [] := by
          rw [List.filter_eq_nil_iff]
          intro n hn
          simp [hzero.1, hzero.2 n hn]
        refine Or.inl ?_
        rw [List.eraseDups_cons, hrest, hzero.1]
        rfl
  · push Not at hzero
    obtain ⟨n, hn, hn0⟩ := hzero
    exact Or.inr ⟨n, List.mem_eraseDups.mpr hn, hn0⟩

theorem Proper.members_ne_nil {members : List Int} (h : (only members).Proper) : members ≠ [] := by
  obtain ⟨n, hn⟩ := h.exists_mem
  exact List.ne_nil_of_mem hn

theorem finite?_eq_none (h : ∀ members, v = only members → False) : v.finite? = none := by
  cases v with
  | only members => exact absurd rfl (h members)
  | progression _ _ => rfl
  | union _ _ => rfl
  | sum _ _ => rfl
  | product _ _ => rfl

/-- Of two sets that are not both listed, one is not finite. -/
theorem finite?_eq_none_or (h : ∀ is js, a = only is → b = only js → False) :
    a.finite? = none ∨ b.finite? = none := by
  by_cases ha : ∃ is, a = only is
  · obtain ⟨is, rfl⟩ := ha
    exact Or.inr (finite?_eq_none fun js hb => h is js rfl hb)
  · exact Or.inl (finite?_eq_none fun is heq => ha ⟨is, heq⟩)

theorem proper_join (ha : a.Proper) (hb : b.Proper) : (a.join b).Proper := by
  unfold join
  split
  · exact proper_eraseDups (List.append_ne_nil_of_left_ne_nil ha.members_ne_nil _)
  · exact proper_every
  · exact proper_every
  · rename_i hlisted
    exact ⟨ha, hb, finite?_eq_none_or hlisted⟩

theorem proper_add (ha : a.Proper) (hb : b.Proper) : (a.add b).Proper := by
  unfold add
  split
  · exact proper_eraseDups (pairs_ne_nil ha.members_ne_nil hb.members_ne_nil _)
  · exact proper_every
  · exact proper_every
  · exact hb
  · exact ha
  · exact fun hgcd => ha (Nat.gcd_eq_zero_iff.mp hgcd).1
  · rename_i hlisted _ _ _
    exact ⟨ha, hb, finite?_eq_none_or hlisted⟩

theorem proper_multiplesOf {step : Nat} (start : Int) (h : step ≠ 0) :
    (multiplesOf step start).Proper := by
  unfold multiplesOf
  dsimp only
  split
  · exact fun hgcd => h (Nat.gcd_eq_zero_iff.mp hgcd).1
  · exact ⟨h, proper_every, Or.inl rfl, by simp [single], by simp [every, single]⟩

theorem proper_multiply (ha : a.Proper) (hb : b.Proper) : (a.multiply b).Proper := by
  unfold multiply
  split
  · exact proper_eraseDups (pairs_ne_nil ha.members_ne_nil hb.members_ne_nil _)
  · split
    · exact proper_single 0
    · rename_i hi
      exact Nat.mul_ne_zero (Int.natAbs_ne_zero.mpr hi) hb
  · split
    · exact proper_single 0
    · rename_i hi
      exact Nat.mul_ne_zero ha (Int.natAbs_ne_zero.mpr hi)
  · rename_i i hlisted _
    split
    · exact proper_single 0
    · rename_i hi
      have hi0 : only [i] ≠ single 0 := fun heq => hi (by simpa [single] using heq)
      exact ⟨ha, hb, Or.inr (finite?_eq_none hlisted), hi0, fun heq => hlisted [0] heq⟩
  · rename_i i hlisted _
    split
    · exact proper_single 0
    · rename_i hi
      have hi0 : only [i] ≠ single 0 := fun heq => hi (by simpa [single] using heq)
      exact ⟨ha, hb, Or.inl (finite?_eq_none hlisted), fun heq => hlisted [0] heq, hi0⟩
  · exact proper_multiplesOf _ ha
  · exact proper_multiplesOf _ hb
  · -- a single zero has been dealt with, on either side
    rename_i hasingle hbsingle hlisted _ _ _ _
    exact ⟨ha, hb, finite?_eq_none_or hlisted, hasingle 0, hbsingle 0⟩

end Values

namespace Outcomes

open Values (Proper Tidy Plain mem_of_finite? contains_iff excludes_eq)

variable {a b : Values}

/-! ## Comparisons are exact -/

theorem allows_lt_iff (ha : a.Proper) (hb : b.Proper) {t : Bool} :
    (Outcomes.lt a b).allows t = true ↔ ∃ i j, a.Mem i ∧ b.Mem j ∧ t = decide (i < j) := by
  refine ⟨?_, ?_⟩
  · intro h
    unfold Outcomes.lt at h
    split at h
    · rename_i is js his hjs
      simp only [mem_of_finite? his, mem_of_finite? hjs]
      cases t with
      | true =>
          obtain ⟨i, hi, hany⟩ := List.any_eq_true.mp h
          obtain ⟨j, hj, hlt⟩ := List.any_eq_true.mp hany
          exact ⟨i, j, hi, hj, hlt.symm⟩
      | false =>
          obtain ⟨i, hi, hany⟩ := List.any_eq_true.mp h
          obtain ⟨j, hj, hle⟩ := List.any_eq_true.mp hany
          rw [decide_eq_true_eq] at hle
          exact ⟨i, j, hi, hj, (decide_eq_false (by omega)).symm⟩
    · -- one side is unbounded, and has members on either side of any of the other's
      rename_i hinfinite
      have hside : a.finite? = none ∨ b.finite? = none := by
        cases hfa : a.finite? with
        | none => exact Or.inl rfl
        | some is =>
            cases hfb : b.finite? with
            | none => exact Or.inr rfl
            | some js => exact absurd hfb (hinfinite is js hfa)
      rcases hside with hnone | hnone
      · obtain ⟨j, hj⟩ := hb.exists_mem
        obtain ⟨⟨i, hi, hbelow⟩, i', hi', habove⟩ := ha.unbounded hnone j
        cases t with
        | true => exact ⟨i, j, hi, hj, (decide_eq_true hbelow).symm⟩
        | false => exact ⟨i', j, hi', hj, (decide_eq_false (by omega)).symm⟩
      · obtain ⟨i, hi⟩ := ha.exists_mem
        obtain ⟨⟨j, hj, hbelow⟩, j', hj', habove⟩ := hb.unbounded hnone i
        cases t with
        | true => exact ⟨i, j', hi, hj', (decide_eq_true habove).symm⟩
        | false => exact ⟨i, j, hi, hj, (decide_eq_false (by omega)).symm⟩
  · rintro ⟨i, j, hi, hj, rfl⟩
    exact allows_lt hi hj

/-- Any two different numbers will do for an equation that fails. -/
theorem exists_ne (h : a.Unbounded ∧ (∃ j, b.Mem j) ∨ b.Unbounded ∧ ∃ i, a.Mem i) :
    ∃ i j, a.Mem i ∧ b.Mem j ∧ false = decide (i = j) := by
  rcases h with ⟨ha, j, hj⟩ | ⟨hb, i, hi⟩
  · obtain ⟨i, hi, hne⟩ := ha.exists_ne j
    exact ⟨i, j, hi, hj, (decide_eq_false hne).symm⟩
  · obtain ⟨j, hj, hne⟩ := hb.exists_ne i
    exact ⟨i, j, hi, hj, (decide_eq_false hne.symm).symm⟩

theorem allows_eq_iff (ha : a.Tidy) (hb : b.Tidy) (h : a.Plain ∨ b.Plain) (hap : a.Proper)
    (hbp : b.Proper) {t : Bool} :
    (Outcomes.eq a b).allows t = true ↔ ∃ i j, a.Mem i ∧ b.Mem j ∧ t = decide (i = j) := by
  refine ⟨?_, ?_⟩
  · intro hallows
    unfold Outcomes.eq at hallows
    split at hallows
    · rename_i is js his hjs
      simp only [mem_of_finite? his, mem_of_finite? hjs]
      cases t with
      | true =>
          obtain ⟨i, hi, hany⟩ := List.any_eq_true.mp hallows
          obtain ⟨j, hj, heq⟩ := List.any_eq_true.mp hany
          exact ⟨i, j, hi, hj, (decide_eq_true (beq_iff_eq.mp heq)).symm⟩
      | false =>
          obtain ⟨i, hi, hany⟩ := List.any_eq_true.mp hallows
          obtain ⟨j, hj, hne⟩ := List.any_eq_true.mp hany
          exact ⟨i, j, hi, hj, (decide_eq_false (bne_iff_ne.mp hne)).symm⟩
    · rename_i is his hnone
      cases t with
      | true =>
          obtain ⟨i, hi, hopen⟩ := List.any_eq_true.mp hallows
          rw [excludes_eq hb, Bool.not_not, contains_iff hb] at hopen
          exact ⟨i, i, (mem_of_finite? his).mpr hi, hopen, by simp⟩
      | false => exact exists_ne (Or.inr ⟨hbp.unbounded hnone, hap.exists_mem⟩)
    · rename_i js hnone hjs
      cases t with
      | true =>
          obtain ⟨j, hj, hopen⟩ := List.any_eq_true.mp hallows
          rw [excludes_eq ha, Bool.not_not, contains_iff ha] at hopen
          exact ⟨j, j, hopen, (mem_of_finite? hjs).mpr hj, by simp⟩
      | false => exact exists_ne (Or.inl ⟨hap.unbounded hnone, hbp.exists_mem⟩)
    · rename_i hanone hbnone
      cases t with
      | true =>
          -- the plain side is everything
          rcases h with hplain | hplain
          · obtain ⟨j, hj⟩ := hbp.exists_mem
            rw [hplain.eq_every hanone]
            exact ⟨j, j, Values.mem_every j, hj, by simp⟩
          · obtain ⟨i, hi⟩ := hap.exists_mem
            rw [hplain.eq_every hbnone]
            exact ⟨i, i, hi, Values.mem_every i, by simp⟩
      | false => exact exists_ne (Or.inl ⟨hap.unbounded hanone, hbp.exists_mem⟩)
  · rintro ⟨i, j, hi, hj, rfl⟩
    exact allows_eq hi hj

end Outcomes

end Sygus
