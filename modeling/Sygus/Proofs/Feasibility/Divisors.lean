import Mathlib.Data.Nat.Prime.Basic
import Sygus.Feasibility.Divisors

/-!
# Trial division finds all divisors

A number without divisors from two up to `k - 1` has its least prime factor at `k` or
above, which is where the search for that factor goes on. Having found `p`, the search turns to
`n / p`, whose divisors are not below `p` either. A divisor of `n` is one of `n / p`, or
`p` times one.
-/

namespace Sygus

/-- No divisor but one lies below `k`. -/
def NoneBelow (n k : Nat) : Prop := ∀ d, 2 ≤ d → d ∣ n → k ≤ d

theorem NoneBelow.minFac_eq {n k : Nat} (h : NoneBelow n k) (hn : 2 ≤ n) (hlt : n < k * k) :
    n.minFac = n := by
  by_cases hp : n.Prime
  · exact hp.minFac_eq
  · have hle := Nat.minFac_sq_le_self (by omega) hp
    have hk := h n.minFac (Nat.minFac_prime (by omega)).two_le n.minFac_dvd
    have := Nat.mul_le_mul hk hk
    rw [Nat.pow_two] at hle
    omega

/-- **The search for the least factor finds it.** -/
theorem leastFactorFrom_eq {n fuel k : Nat} (hn : 2 ≤ n) (hk : 2 ≤ k) (h : NoneBelow n k)
    (hfuel : n < k + fuel) : leastFactorFrom n fuel k = n.minFac := by
  induction fuel generalizing k with
  | zero =>
      have hlt : n < k * k := Nat.lt_of_lt_of_le hfuel (Nat.le_mul_of_pos_left k (by omega))
      exact (h.minFac_eq hn hlt).symm
  | succ fuel ih =>
      rw [leastFactorFrom]
      split
      · rename_i hlt
        exact (h.minFac_eq hn hlt).symm
      · split
        · rename_i hmod
          have hle := Nat.minFac_le_of_dvd hk (Nat.dvd_of_mod_eq_zero hmod)
          have hge := h n.minFac (Nat.minFac_prime (by omega)).two_le n.minFac_dvd
          omega
        · rename_i hmod
          refine ih (by omega) ?_ (by omega)
          intro d hd hdvd
          have hle := h d hd hdvd
          have hne : d ≠ k := fun heq => hmod (Nat.mod_eq_zero_of_dvd (heq ▸ hdvd))
          omega

/-- The divisors of `p * m` are those of `m`, and `p` times those that `m` has no room for. -/
theorem dvd_prime_mul_iff {p m d : Nat} (hp : p.Prime) :
    d ∣ p * m ↔ d ∣ m ∨ ∃ e, (e ∣ m ∧ ¬ p * e ∣ m) ∧ p * e = d := by
  refine ⟨?_, ?_⟩
  · intro hd
    by_cases hpd : p ∣ d
    · obtain ⟨e, rfl⟩ := hpd
      have he : e ∣ m := Nat.dvd_of_mul_dvd_mul_left hp.pos hd
      by_cases hagain : p * e ∣ m
      · exact Or.inl hagain
      · exact Or.inr ⟨e, ⟨he, hagain⟩, rfl⟩
    · have hcoprime : d.Coprime p := ((Nat.Prime.coprime_iff_not_dvd hp).mpr hpd).symm
      exact Or.inl (hcoprime.dvd_of_dvd_mul_left hd)
  · intro heither
    rcases heither with hd | ⟨e, ⟨he, _⟩, rfl⟩
    · exact Dvd.dvd.mul_left hd p
    · exact Nat.mul_dvd_mul_left p he

/-- What is left without the least factor has no smaller one. -/
theorem noneBelow_div_minFac (n : Nat) : NoneBelow (n / n.minFac) n.minFac := by
  intro e he hdvd
  exact Nat.minFac_le_of_dvd he (hdvd.trans (Nat.div_dvd_of_dvd n.minFac_dvd))

/-- **All divisors are found,** and nothing else. -/
theorem mem_divisorsFrom_iff {fuel k n d : Nat} (hn : 0 < n) (hk : 2 ≤ k) (h : NoneBelow n k)
    (hfuel : n < 2 ^ fuel) : d ∈ divisorsFrom fuel k n ↔ d ∣ n := by
  induction fuel generalizing k n d with
  | zero =>
      rw [Nat.pow_zero] at hfuel
      omega
  | succ fuel ih =>
      rw [divisorsFrom]
      split
      · have hone : n = 1 := by omega
        rw [hone, List.mem_singleton, Nat.dvd_one]
      · have hn2 : 2 ≤ n := by omega
        have hprime := Nat.minFac_prime (show n ≠ 1 by omega)
        have hmul : n.minFac * (n / n.minFac) = n := Nat.mul_div_cancel' n.minFac_dvd
        have hpos : 0 < n / n.minFac := Nat.div_pos (Nat.minFac_le hn) hprime.pos
        -- a factor of at least two takes a binary digit
        have hsmall : n / n.minFac < 2 ^ fuel := by
          rw [Nat.div_lt_iff_lt_mul hprime.pos]
          have htwo := Nat.mul_le_mul_left (2 ^ fuel) hprime.two_le
          rw [Nat.pow_succ] at hfuel
          omega
        have hsmaller : ∀ {e}, e ∈ divisorsFrom fuel n.minFac (n / n.minFac) ↔ e ∣ n / n.minFac :=
          ih hpos hprime.two_le (noneBelow_div_minFac n) hsmall
        dsimp only
        rw [leastFactorFrom_eq hn2 hk h (show n < k + n by omega)]
        simp only [List.mem_append, List.mem_map, List.mem_filter, hsmaller, decide_eq_true_eq,
          ne_eq, ← Nat.dvd_iff_mod_eq_zero]
        rw [← dvd_prime_mul_iff hprime, hmul]

theorem mem_divisors_iff {n d : Nat} (hn : 0 < n) : d ∈ divisors n ↔ d ∣ n :=
  mem_divisorsFrom_iff hn (Nat.le_refl 2) (fun _ hd _ => hd) Nat.lt_log2_self

/-- The divisors of an integer come with both signs. -/
theorem mem_integerDivisors_iff {n i : Int} (hn : n ≠ 0) : i ∈ integerDivisors n ↔ i ∣ n := by
  have hpos : 0 < n.natAbs := Int.natAbs_pos.mpr hn
  unfold integerDivisors
  rw [List.mem_flatMap]
  refine ⟨?_, ?_⟩
  · intro hexists
    obtain ⟨d, hd, hi⟩ := hexists
    have hdvd := (mem_divisors_iff hpos).mp hd
    rcases List.mem_cons.mp hi with rfl | hi
    · exact Int.natAbs_dvd_natAbs.mp hdvd
    · rw [List.mem_singleton.mp hi]
      exact Int.natAbs_dvd_natAbs.mp (by simpa using hdvd)
  · intro hi
    refine ⟨i.natAbs, (mem_divisors_iff hpos).mpr (Int.natAbs_dvd_natAbs.mpr hi), ?_⟩
    rcases Int.natAbs_eq i with heq | heq
    · rw [List.mem_cons]
      exact Or.inl heq
    · rw [List.mem_cons, List.mem_singleton]
      exact Or.inr heq

end Sygus
