import Mathlib.Tactic.Ring
import Sygus.Feasibility.Values
import Sygus.Proofs.Feasibility.Divisors

/-!
# Membership in sets of values

`contains` decides membership in all sets but two kinds: a sum of two infinite sets, for
which it gives up after a window, and a product with the empty set, which it takes to hold
zero. Sets without such parts are **tidy**, and for them it is exact (`contains_iff`). What
`excludes` says is right for every set. An addition keeps sets tidy if one side is
**plain**, a single value or everything.

The operations on sets never lose a member. That is all that pruning needs of them, and it
holds with no assumption on the sets.
-/

namespace Sygus.Values

/-- A single value, or everything. -/
def Plain (v : Values) : Prop := (∃ n, v = single n) ∨ v = every

theorem mem_of_finite? {v : Values} {members : List Int} (h : v.finite? = some members) {n : Int} :
    v.Mem n ↔ n ∈ members := by
  cases v with
  | only _ =>
      cases h
      rfl
  | progression _ _ => simp [finite?] at h
  | union _ _ => simp [finite?] at h
  | sum _ _ => simp [finite?] at h
  | product _ _ => simp [finite?] at h

theorem mem_every (n : Int) : every.Mem n := ⟨n, by simp⟩

theorem mem_single_iff {m n : Int} : (single m).Mem n ↔ n = m := by
  show n ∈ [m] ↔ n = m
  exact List.mem_singleton

/-- What is plain and not listed is everything. -/
theorem Plain.eq_every {v : Values} (h : v.Plain) (hv : v.finite? = none) : v = every := by
  rcases h with ⟨n, rfl⟩ | rfl
  · simp [single, finite?] at hv
  · rfl

theorem Tidy.exists_mem {v : Values} (h : v.Tidy) : ∃ n, v.Mem n := by
  induction v with
  | only members => exact List.exists_mem_of_ne_nil members h
  | progression step start => exact ⟨start, 0, by simp⟩
  | union a b iha _ =>
      obtain ⟨n, hn⟩ := iha h.1
      exact ⟨n, Or.inl hn⟩
  | sum a b iha ihb =>
      obtain ⟨i, hi⟩ := iha h.2.1
      obtain ⟨j, hj⟩ := ihb h.2.2
      exact ⟨i + j, i, j, hi, hj, rfl⟩
  | product a b iha ihb =>
      obtain ⟨i, hi⟩ := iha h.1
      obtain ⟨j, hj⟩ := ihb h.2
      exact ⟨i * j, i, j, hi, hj, rfl⟩

theorem contains_progression_iff {step : Nat} {start n : Int} :
    (progression step start).contains n = true ↔ (progression step start).Mem n := by
  rw [contains, Mem, decide_eq_true_eq]
  refine ⟨?_, ?_⟩
  · intro hmod
    obtain ⟨k, hk⟩ := Int.dvd_of_emod_eq_zero hmod
    exact ⟨k, by omega⟩
  · intro hexists
    obtain ⟨k, rfl⟩ := hexists
    have hdiff : start + step * k - start = step * k := by omega
    rw [hdiff]
    exact Int.mul_emod_right _ _

/-- The test for one factor of a product, as `contains` makes it. -/
theorem factor_iff {i n : Int} {P : Int → Prop} {test : Int → Bool}
    (htest : ∀ j, test j = true ↔ P j) (hP : ∃ j, P j) :
    (if i = 0 then decide (n = 0) else decide (n % i = 0) && test (n / i)) = true
      ↔ ∃ j, P j ∧ n = i * j := by
  split
  · rename_i hi
    subst hi
    rw [decide_eq_true_eq]
    refine ⟨?_, ?_⟩
    · rintro rfl
      obtain ⟨j, hj⟩ := hP
      exact ⟨j, hj, by simp⟩
    · intro hexists
      obtain ⟨j, _, rfl⟩ := hexists
      simp
  · rename_i hi
    rw [Bool.and_eq_true, decide_eq_true_eq, htest]
    refine ⟨?_, ?_⟩
    · intro hboth
      obtain ⟨hmod, hj⟩ := hboth
      exact ⟨n / i, hj, (Int.mul_ediv_cancel' (Int.dvd_of_emod_eq_zero hmod)).symm⟩
    · intro hexists
      obtain ⟨j, hj, rfl⟩ := hexists
      exact ⟨Int.mul_emod_right i j, by rwa [Int.mul_ediv_cancel_left j hi]⟩

section Pairs

variable {a b : Values}

/-- A sum is split with the members of a finite side. -/
theorem contains_sum_iff (ha : ∀ n, a.contains n = true ↔ a.Mem n)
    (hb : ∀ n, b.contains n = true ↔ b.Mem n)
    (hfinite : a.finite?.isSome = true ∨ b.finite?.isSome = true) (n : Int) :
    (sum a b).contains n = true ↔ (sum a b).Mem n := by
  rw [contains, Mem]
  split
  · rename_i members hmembers
    simp only [List.any_eq_true, hb, mem_of_finite? hmembers]
    refine ⟨?_, ?_⟩
    · intro hexists
      obtain ⟨i, hi, hj⟩ := hexists
      exact ⟨i, n - i, hi, hj, by omega⟩
    · intro hexists
      obtain ⟨i, j, hi, hj, rfl⟩ := hexists
      have hdiff : i + j - i = j := by omega
      exact ⟨i, hi, by rwa [hdiff]⟩
  · rename_i members _ hmembers
    simp only [List.any_eq_true, ha, mem_of_finite? hmembers]
    refine ⟨?_, ?_⟩
    · intro hexists
      obtain ⟨j, hj, hi⟩ := hexists
      exact ⟨n - j, j, hi, hj, by omega⟩
    · intro hexists
      obtain ⟨i, j, hi, hj, rfl⟩ := hexists
      have hdiff : i + j - j = i := by omega
      exact ⟨j, hj, by rwa [hdiff]⟩
  · rename_i hanone hbnone
    rw [hanone, hbnone] at hfinite
    exact absurd hfinite (by simp)

/-- A product is split with the members of a finite side, or with the divisors of the number. -/
theorem contains_product_iff (ha : ∀ n, a.contains n = true ↔ a.Mem n)
    (hb : ∀ n, b.contains n = true ↔ b.Mem n) (hamem : ∃ n, a.Mem n) (hbmem : ∃ n, b.Mem n)
    (n : Int) : (product a b).contains n = true ↔ (product a b).Mem n := by
  rw [contains, Mem]
  split
  · rename_i members hmembers
    simp only [List.any_eq_true, factor_iff hb hbmem, mem_of_finite? hmembers]
    refine ⟨?_, ?_⟩
    · intro hexists
      obtain ⟨i, hi, j, hj, heq⟩ := hexists
      exact ⟨i, j, hi, hj, heq⟩
    · intro hexists
      obtain ⟨i, j, hi, hj, heq⟩ := hexists
      exact ⟨i, hi, j, hj, heq⟩
  · rename_i members _ hmembers
    simp only [List.any_eq_true, factor_iff ha hamem, mem_of_finite? hmembers]
    refine ⟨?_, ?_⟩
    · intro hexists
      obtain ⟨j, hj, i, hi, heq⟩ := hexists
      exact ⟨i, j, hi, hj, by rw [heq, Int.mul_comm]⟩
    · intro hexists
      obtain ⟨i, j, hi, hj, heq⟩ := hexists
      exact ⟨j, hj, i, hi, by rw [heq, Int.mul_comm]⟩
  · split
    · rename_i hn
      subst hn
      rw [Bool.or_eq_true, ha, hb]
      refine ⟨?_, ?_⟩
      · intro heither
        rcases heither with hi | hj
        · obtain ⟨j, hj⟩ := hbmem
          exact ⟨0, j, hi, hj, by simp⟩
        · obtain ⟨i, hi⟩ := hamem
          exact ⟨i, 0, hi, hj, by simp⟩
      · intro hexists
        obtain ⟨i, j, hi, hj, heq⟩ := hexists
        rcases Int.mul_eq_zero.mp heq.symm with rfl | rfl
        · exact Or.inl hi
        · exact Or.inr hj
    · rename_i hn
      simp only [Bool.or_eq_true, List.any_eq_true, Bool.and_eq_true, ha, hb,
        mem_integerDivisors_iff hn]
      refine ⟨?_, ?_⟩
      · intro heither
        rcases heither with ⟨i, hi, hai, hbi⟩ | ⟨i, hi, hai, hbi⟩
        · -- one, minus one and the number with either sign are divisors as well
          have hdvd : i ∣ n := by
            simp only [List.mem_cons, List.not_mem_nil, or_false] at hi
            rcases hi with rfl | rfl | rfl | rfl
            · exact Int.one_dvd n
            · exact Int.neg_dvd.mpr (Int.one_dvd n)
            · exact Int.dvd_refl _
            · exact Int.neg_dvd.mpr (Int.dvd_refl _)
          exact ⟨i, n / i, hai, hbi, (Int.mul_ediv_cancel' hdvd).symm⟩
        · exact ⟨i, n / i, hai, hbi, (Int.mul_ediv_cancel' hi).symm⟩
      · intro hexists
        obtain ⟨i, j, hi, hj, rfl⟩ := hexists
        have hi0 : i ≠ 0 := fun h0 => hn (by rw [h0, Int.zero_mul])
        exact Or.inr ⟨i, Int.dvd_mul_right i j, hi, by rwa [Int.mul_ediv_cancel_left j hi0]⟩

end Pairs

/-- **Membership in a tidy set is decided.** -/
theorem contains_iff {v : Values} (h : v.Tidy) (n : Int) : v.contains n = true ↔ v.Mem n := by
  induction v generalizing n with
  | only members => simp [contains, Mem]
  | progression step start => exact contains_progression_iff
  | union a b iha ihb =>
      obtain ⟨ha, hb⟩ := h
      rw [contains, Bool.or_eq_true, iha ha, ihb hb, Mem]
  | sum a b iha ihb =>
      obtain ⟨hfinite, ha, hb⟩ := h
      exact contains_sum_iff (iha ha) (ihb hb) hfinite n
  | product a b iha ihb =>
      obtain ⟨ha, hb⟩ := h
      exact contains_product_iff (iha ha) (ihb hb) ha.exists_mem hb.exists_mem n

/-- **What is excluded is no member.** -/
theorem not_mem_of_excludes {v : Values} {n : Int} (h : v.excludes n = true) : ¬ v.Mem n := by
  rw [excludes, Bool.and_eq_true, decide_eq_true_eq, Bool.not_eq_true'] at h
  obtain ⟨htidy, hmissing⟩ := h
  intro hn
  rw [(contains_iff htidy n).mpr hn] at hmissing
  cases hmissing

theorem excludes_eq_false {v : Values} {n : Int} (h : v.Mem n) : v.excludes n = false :=
  Bool.eq_false_iff.mpr fun hexcludes => not_mem_of_excludes hexcludes h

/-- What a tidy set does not contain is excluded. -/
theorem excludes_eq {v : Values} (h : v.Tidy) (n : Int) : v.excludes n = !v.contains n := by
  rw [excludes, decide_eq_true h, Bool.true_and]

/-! ## No operation loses a member -/

theorem mem_only_iff {members : List Int} {n : Int} : (only members).Mem n ↔ n ∈ members := Iff.rfl

theorem mem_join {a b : Values} {n : Int} (h : a.Mem n ∨ b.Mem n) : (a.join b).Mem n := by
  unfold join
  split
  · rw [mem_only_iff, List.mem_eraseDups, List.mem_append]
    exact h
  · exact mem_every n
  · exact mem_every n
  · exact h

theorem mem_add {a b : Values} {i j : Int} (hi : a.Mem i) (hj : b.Mem j) :
    (a.add b).Mem (i + j) := by
  unfold add
  split
  · rw [mem_only_iff, List.mem_eraseDups, List.mem_flatMap]
    exact ⟨i, hi, List.mem_map.mpr ⟨j, hj, rfl⟩⟩
  · exact mem_every _
  · exact mem_every _
  · obtain ⟨k, rfl⟩ := hj
    rw [List.mem_singleton.mp hi]
    exact ⟨k, by omega⟩
  · obtain ⟨k, rfl⟩ := hi
    rw [List.mem_singleton.mp hj]
    exact ⟨k, by omega⟩
  · rename_i m _ n _ _ _
    obtain ⟨k, rfl⟩ := hi
    obtain ⟨l, rfl⟩ := hj
    obtain ⟨u, hu⟩ : ((m.gcd n : Nat) : Int) ∣ m := Int.natCast_dvd_natCast.mpr (Nat.gcd_dvd_left m n)
    obtain ⟨v, hv⟩ : ((m.gcd n : Nat) : Int) ∣ n := Int.natCast_dvd_natCast.mpr (Nat.gcd_dvd_right m n)
    refine ⟨u * k + v * l, ?_⟩
    rw [Int.mul_add, ← Int.mul_assoc, ← Int.mul_assoc, ← hu, ← hv]
    omega
  · exact ⟨i, j, hi, hj, rfl⟩

theorem mem_multiplesOf {step : Nat} {start i : Int} (h : (progression step start).Mem i) (j : Int) :
    (multiplesOf step start).Mem (i * j) := by
  unfold multiplesOf
  dsimp only
  split
  · obtain ⟨k, rfl⟩ := h
    have hstep : ((step.gcd start.natAbs : Nat) : Int) ∣ step :=
      Int.natCast_dvd_natCast.mpr (Nat.gcd_dvd_left _ _)
    have hstart : ((step.gcd start.natAbs : Nat) : Int) ∣ start :=
      Int.ofNat_dvd_left.mpr (Nat.gcd_dvd_right _ _)
    -- the common factor divides every member
    obtain ⟨u, hu⟩ := Int.dvd_add hstart (Int.dvd_mul_of_dvd_left hstep (c := k))
    exact ⟨u * j, by rw [hu, Int.mul_assoc, Int.zero_add]⟩
  · exact ⟨i, j, h, mem_every j, rfl⟩

/-- A progression times a number. -/
theorem mem_scale {n j start : Int} {step : Nat} (h : (progression step start).Mem j) :
    (if n = 0 then single 0 else progression (n.natAbs * step) (n * start)).Mem (n * j) := by
  split
  · rename_i hn
    rw [mem_single_iff, hn, Int.zero_mul]
  · obtain ⟨k, rfl⟩ := h
    refine ⟨n.sign * k, ?_⟩
    have hsign : ((n.natAbs : Nat) : Int) * n.sign = n := by rw [Int.mul_comm, Int.sign_mul_natAbs]
    rw [Int.natCast_mul]
    calc n * (start + step * k)
        = n * start + (n.natAbs * n.sign) * (step * k) := by rw [hsign, Int.mul_add]
      _ = n * start + n.natAbs * step * (n.sign * k) := by ring

/-- A product with a number. -/
theorem mem_scale_product {n j : Int} {b : Values} (h : b.Mem j) :
    (if n = 0 then single 0 else product (only [n]) b).Mem (n * j) := by
  split
  · rename_i hn
    rw [mem_single_iff, hn, Int.zero_mul]
  · exact ⟨n, j, List.mem_singleton.mpr rfl, h, rfl⟩

theorem mem_multiply {a b : Values} {i j : Int} (hi : a.Mem i) (hj : b.Mem j) :
    (a.multiply b).Mem (i * j) := by
  unfold multiply
  split
  · rw [mem_only_iff, List.mem_eraseDups, List.mem_flatMap]
    exact ⟨i, hi, List.mem_map.mpr ⟨j, hj, rfl⟩⟩
  · rw [List.mem_singleton.mp hi]
    exact mem_scale hj
  · rw [List.mem_singleton.mp hj, Int.mul_comm i, Nat.mul_comm, Int.mul_comm _ (_ : Int)]
    exact mem_scale hi
  · rw [List.mem_singleton.mp hi]
    exact mem_scale_product hj
  · rw [List.mem_singleton.mp hj]
    split
    · rename_i hn
      rw [mem_single_iff, hn, Int.mul_zero]
    · exact ⟨i, _, hi, List.mem_singleton.mpr rfl, rfl⟩
  · exact mem_multiplesOf hi j
  · rw [Int.mul_comm]
    exact mem_multiplesOf hj i
  · exact ⟨i, j, hi, hj, rfl⟩

/-! ## Tidy results -/

theorem tidy_single (n : Int) : (single n).Tidy := List.cons_ne_nil n []

theorem tidy_every : every.Tidy := trivial

theorem eraseDups_ne_nil {members : List Int} (h : members ≠ []) : members.eraseDups ≠ [] := by
  obtain ⟨n, hn⟩ := List.exists_mem_of_ne_nil members h
  exact List.ne_nil_of_mem (List.mem_eraseDups.mpr hn)

theorem tidy_join {a b : Values} (ha : a.Tidy) (hb : b.Tidy) : (a.join b).Tidy := by
  unfold join
  split
  · refine eraseDups_ne_nil ?_
    exact List.append_ne_nil_of_left_ne_nil ha _
  · trivial
  · trivial
  · exact ⟨ha, hb⟩

theorem pairs_ne_nil {as bs : List Int} (ha : as ≠ []) (hb : bs ≠ []) (f : Int → Int → Int) :
    (as.flatMap fun i => bs.map (f i)) ≠ [] := by
  obtain ⟨i, hi⟩ := List.exists_mem_of_ne_nil as ha
  obtain ⟨j, hj⟩ := List.exists_mem_of_ne_nil bs hb
  exact List.ne_nil_of_mem (List.mem_flatMap.mpr ⟨i, hi, List.mem_map.mpr ⟨j, hj, rfl⟩⟩)

/-- Adding a plain set makes no sum of two infinite sets. -/
theorem tidy_add {a b : Values} (ha : a.Tidy) (hb : b.Tidy) (h : a.Plain ∨ b.Plain) :
    (a.add b).Tidy := by
  unfold add
  split
  · exact eraseDups_ne_nil (pairs_ne_nil ha hb _)
  · trivial
  · trivial
  · trivial
  · trivial
  · trivial
  · -- what is left are sums of two sets that are not everything
    rename_i haevery hbevery _ _ _ _
    refine ⟨?_, ha, hb⟩
    rcases h with (⟨n, rfl⟩ | rfl) | (⟨n, rfl⟩ | rfl)
    · exact Or.inl rfl
    · exact absurd rfl (haevery _)
    · exact Or.inr rfl
    · exact absurd rfl (hbevery _)

theorem tidy_multiplesOf (step : Nat) (start : Int) : (multiplesOf step start).Tidy := by
  unfold multiplesOf
  dsimp only
  split
  · trivial
  · exact ⟨trivial, trivial⟩

theorem tidy_multiply {a b : Values} (ha : a.Tidy) (hb : b.Tidy) : (a.multiply b).Tidy := by
  unfold multiply
  split
  · exact eraseDups_ne_nil (pairs_ne_nil ha hb _)
  · split
    · exact tidy_single 0
    · trivial
  · split
    · exact tidy_single 0
    · trivial
  · split
    · exact tidy_single 0
    · exact ⟨ha, hb⟩
  · split
    · exact tidy_single 0
    · exact ⟨ha, hb⟩
  · exact tidy_multiplesOf _ _
  · exact tidy_multiplesOf _ _
  · exact ⟨ha, hb⟩

end Sygus.Values
