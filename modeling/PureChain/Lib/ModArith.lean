import Mathlib.Data.List.Prime
import Mathlib.FieldTheory.Finite.Basic
import Mathlib.NumberTheory.LucasPrimality

/-!
# Arithmetic modulo a prime

Elliptic-curve code works modulo a fixed prime of 256 bits. Three facts about
such a modulus are used, and each is stated here for every modulus:

* `Nat.powMod`, exponentiation by squaring with the remainder taken at each
  step, computes `b ^ e % m` (`Nat.powMod_eq`), so that the kernel can evaluate
  powers with exponents of 256 bits;
* Lucas's test (`lucas_primality`), with the factors of `p - 1` given as a list
  and the powers computed by `Nat.powMod`, proves a number prime
  (`Nat.prime_of_lucas`): a chain of such steps is a Pratt certificate;
* modulo a prime `p ≡ 3 (mod 4)`, raising a square `y ^ 2` to `(p + 1) / 4`
  gives `y` or `-y` back (`ZMod.sq_pow_quarter`), which is how a compressed
  point recovers its `y`.
-/

namespace Nat

/-- `b ^ e % m` by repeated squaring, halving the exponent at most `fuel` times. -/
def powMod (m : ℕ) : ℕ → ℕ → ℕ → ℕ
  | 0, _, _ => 1 % m
  | fuel + 1, b, e =>
    if e = 0 then 1 % m
    else
      let r := powMod m fuel (b * b % m) (e / 2)
      if e % 2 = 0 then r else r * b % m

/-- Squaring the base halves the exponent. -/
theorem pow_half_mod (b e m : ℕ) : (b * b % m) ^ (e / 2) % m = (b ^ 2) ^ (e / 2) % m := by
  rw [← sq, ← Nat.pow_mod]

/-- **`powMod` computes the power**, given enough fuel for the bits of the
exponent. -/
theorem powMod_eq {m : ℕ} : ∀ {fuel b e : ℕ}, e < 2 ^ fuel → powMod m fuel b e = b ^ e % m
  | 0, b, e, he => by
    rw [pow_zero, Nat.lt_one_iff] at he
    rw [he, powMod, pow_zero]
  | fuel + 1, b, e, he => by
    have hhalf : e / 2 < 2 ^ fuel := by rw [pow_succ] at he; omega
    rw [powMod]
    split_ifs with h0 heven
    · rw [h0, pow_zero]
    · -- an even exponent is twice its half
      dsimp only
      rw [powMod_eq hhalf, pow_half_mod, ← pow_mul]
      congr 2
      omega
    · -- an odd one is one more than twice its half
      dsimp only
      rw [powMod_eq hhalf, pow_half_mod, ← pow_mul, Nat.mod_mul_mod, ← pow_succ]
      congr 2
      omega

/-- `m - a` squares to what `a` does, modulo `m`. -/
theorem sub_sq_mod_self {m a : ℕ} (ha : a ≤ m) : (m - a) ^ 2 % m = a ^ 2 % m := by
  rw [← ZMod.natCast_eq_natCast_iff', Nat.cast_pow, Nat.cast_pow, Nat.cast_sub ha,
    ZMod.natCast_self, zero_sub, neg_sq]

/-- A power modulo `p` is `1` exactly when it is `1` in `ZMod p`. -/
theorem natCast_pow_eq_one_iff {p : ℕ} (hp : 1 < p) (a e : ℕ) :
    (a : ZMod p) ^ e = 1 ↔ a ^ e % p = 1 := by
  rw [← Nat.cast_pow, ← Nat.cast_one, ZMod.natCast_eq_natCast_iff', Nat.mod_eq_of_lt hp]

/-- **Lucas's test with the factors of `p - 1` given**: `a` has order `p - 1`
modulo `p`, as no `(p - 1) / q` for a prime factor `q` is a multiple of its
order, so `p` is prime. -/
theorem prime_of_lucas {p : ℕ} (a fuel : ℕ) (fs : List ℕ) (hp : 1 < p) (hfuel : p < 2 ^ fuel)
    (hprod : fs.prod = p - 1) (hfs : ∀ q ∈ fs, q.Prime)
    (ha : powMod p fuel a (p - 1) = 1) (hq : ∀ q ∈ fs, powMod p fuel a ((p - 1) / q) ≠ 1) :
    p.Prime := by
  refine lucas_primality p a ?_ fun q hqp hdvd => ?_
  · rw [natCast_pow_eq_one_iff hp, ← @powMod_eq p fuel a (p - 1) (by omega)]
    exact ha
  · -- a prime factor of the product is one of the listed primes
    rw [← hprod] at hdvd
    obtain ⟨r, hr, hqr⟩ := (Nat.prime_iff.mp hqp).dvd_prod_iff.mp hdvd
    have hqr : q = r := (Nat.prime_dvd_prime_iff_eq hqp (hfs r hr)).mp hqr
    rw [hqr, Ne, natCast_pow_eq_one_iff hp,
      ← @powMod_eq p fuel a ((p - 1) / r) (lt_of_le_of_lt (Nat.div_le_self _ _) (by omega))]
    exact hq r hr

end Nat

namespace ZMod

variable {p : ℕ} [Fact p.Prime]

/-- **The square root modulo a prime `p ≡ 3 (mod 4)`**: `(y ^ 2) ^ ((p + 1) / 4)`
is `y` or `-y`, by Euler's criterion on `y`. -/
theorem sq_pow_quarter (hp : p % 4 = 3) (y : ZMod p) :
    (y ^ 2) ^ ((p + 1) / 4) = y ∨ (y ^ 2) ^ ((p + 1) / 4) = -y := by
  by_cases hy : y = 0
  · left
    rw [hy, zero_pow two_ne_zero, zero_pow (by omega)]
  · -- `y ^ ((p - 1) / 2)` squares to `y ^ (p - 1) = 1`, so it is `1` or `-1`
    have hhalf : (y ^ ((p - 1) / 2)) * (y ^ ((p - 1) / 2)) = 1 := by
      rw [← pow_add, show (p - 1) / 2 + (p - 1) / 2 = p - 1 by omega,
        ZMod.pow_card_sub_one_eq_one hy]
    have hroot : (y ^ 2) ^ ((p + 1) / 4) = y * y ^ ((p - 1) / 2) := by
      rw [← pow_mul, ← pow_succ']
      congr 1
      omega
    rw [hroot]
    rcases mul_self_eq_one_iff.mp hhalf with h | h
    · exact Or.inl (by rw [h, mul_one])
    · exact Or.inr (by rw [h, mul_neg_one])

end ZMod
