/-!
# Divisors

The divisors of a natural number, from its factorisation by trial division.
-/

namespace Sygus

/-- The least divisor of `n` from `k` on that shows before `k * k` passes `n`, else `n` itself.
If `n` has no divisor from two up to `k - 1`, this is its least prime factor. -/
def leastFactorFrom (n : Nat) : Nat → Nat → Nat
  | 0, _ => n
  | fuel + 1, k => if n < k * k then n else if n % k = 0 then k else leastFactorFrom n fuel (k + 1)

/-- The divisors of a number without factors below `k`, each once. Those that hold the least
factor `p` once more than `n / p` can spare come from `n / p` by multiplication. -/
def divisorsFrom : Nat → Nat → Nat → List Nat
  | 0, _, _ => [1]
  | fuel + 1, k, n =>
    if n ≤ 1 then [1]
    else
      let p := leastFactorFrom n n k
      let smaller := divisorsFrom fuel p (n / p)
      smaller ++ ((smaller.filter fun d => n / p % (p * d) ≠ 0).map (p * ·))

/-- The divisors of a positive number. It has no more prime factors than binary digits. -/
def divisors (n : Nat) : List Nat := divisorsFrom (n.log2 + 1) 2 n

/-- The integers that divide an integer other than zero. -/
def integerDivisors (n : Int) : List Int :=
  (divisors n.natAbs).flatMap fun d : Nat => [Int.ofNat d, -Int.ofNat d]

end Sygus
