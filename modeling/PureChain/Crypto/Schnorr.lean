import Mathlib.Tactic.NormNum.Prime
import PureChain.Lib.Except
import PureChain.Lib.ModArith
import PureChain.Lib.Rlp

/-!
# Compressed points of `versaHash`

`schnorr.go` writes a public key of secp256k1 in the compressed form of SEC 1
(section 2.3.3): one byte `2` or `3` for the parity of `y`, and the 32 bytes of
`x`. `Unmarshal` reads it back by computing `y` from the curve equation
`y² = x³ + 7` modulo the field prime `P`: it takes `(x³ + 7)^((P + 1) / 4)`,
checks that this squares back, and replaces it by `P - y` when the parity is the
other one.

Two facts make this a round trip (`PureChain.versaHash.Unmarshal_Marshal`):
`P` is prime, which a Pratt certificate of seven Lucas steps establishes in the
kernel (`PureChain.versaHash.CurveP_prime`), and `P ≡ 3 (mod 4)`, so that the
power is a square root of a square (`ZMod.sq_pow_quarter`). What `Unmarshal`
accepts, on the other hand, lies on the curve with the parity of its prefix
whatever `P` is (`PureChain.versaHash.Unmarshal_sound`).

`x` and `y` are `*big.Int`s of the code; every caller passes coordinates, which
are not negative, and they are natural numbers here. The curve is always
`btcec.S256()`, whose parameters are constants here.
-/

namespace PureChain

namespace versaHash

open Rlp

/-! ### The field prime -/

/-- `Curve.P`, the prime of the field of secp256k1, `2^256 - 2^32 - 977`. -/
def CurveP : ℕ := 0xFFFFFFFFFFFFFFFFFFFFFFFFFFFFFFFFFFFFFFFFFFFFFFFFFFFFFFFEFFFFFC2F

/-- `Curve.Params().BitSize`. -/
def CurveBitSize : ℕ := 256

/-- `byteLen`: the bytes of a coordinate, `(BitSize + 7) >> 3`. -/
def byteLen : ℕ := (CurveBitSize + 7) >>> 3

-- A Pratt certificate for `P`, from the bottom up: each step is Lucas's test
-- with a primitive root and the factors of `p - 1`; small factors are checked
-- by trial division. `decide` evaluates the modular powers by `Nat.powMod`,
-- whose recursion on the exponent's bits goes deeper than the default limit.
set_option maxRecDepth 8000 in
theorem prime_173378833005251801 : Nat.Prime 173378833005251801 :=
  Nat.prime_of_lucas 6 64 [2, 2, 2, 5, 5, 2621, 24809, 13331831] (by norm_num) (by norm_num)
    (by norm_num) (by norm_num) (by decide) (by decide)

set_option maxRecDepth 8000 in
theorem prime_22149492674086928081353 : Nat.Prime 22149492674086928081353 :=
  Nat.prime_of_lucas 5 80 [2, 2, 2, 3, 5323, 173378833005251801] (by norm_num) (by norm_num)
    (by norm_num) (by
      simp only [List.forall_mem_cons]
      exact ⟨Nat.prime_two, Nat.prime_two, Nat.prime_two, Nat.prime_three, by norm_num,
        prime_173378833005251801, by simp⟩) (by decide) (by decide)

set_option maxRecDepth 8000 in
theorem prime_132896956044521568488119 : Nat.Prime 132896956044521568488119 :=
  Nat.prime_of_lucas 6 80 [2, 3, 22149492674086928081353] (by norm_num) (by norm_num)
    (by norm_num) (by
      simp only [List.forall_mem_cons]
      exact ⟨Nat.prime_two, Nat.prime_three, prime_22149492674086928081353, by simp⟩)
    (by decide) (by decide)

set_option maxRecDepth 8000 in
theorem prime_255515944373312847190720520512484175977 :
    Nat.Prime 255515944373312847190720520512484175977 :=
  Nat.prime_of_lucas 3 128
    [2, 2, 2, 7, 7, 11, 1627, 2657, 4423, 41201, 96557, 7240687, 107590001] (by norm_num)
    (by norm_num) (by norm_num) (by norm_num) (by decide) (by decide)

set_option maxRecDepth 8000 in
theorem prime_205115282021455665897114700593932402728804164701536103180137503955397371 :
    Nat.Prime 205115282021455665897114700593932402728804164701536103180137503955397371 :=
  Nat.prime_of_lucas 10 240
    [2, 3, 5, 29, 29, 31, 7723, 132896956044521568488119,
      255515944373312847190720520512484175977] (by norm_num) (by norm_num) (by norm_num)
    (by
      simp only [List.forall_mem_cons]
      exact ⟨Nat.prime_two, Nat.prime_three, Nat.prime_five, by norm_num, by norm_num, by norm_num,
        by norm_num, prime_132896956044521568488119, prime_255515944373312847190720520512484175977,
        by simp⟩)
    (by decide) (by decide)

set_option maxRecDepth 8000 in
/-- **The field prime of secp256k1 is prime.** -/
theorem CurveP_prime : CurveP.Prime :=
  Nat.prime_of_lucas 3 256
    [2, 3, 7, 13441, 205115282021455665897114700593932402728804164701536103180137503955397371]
    (by norm_num [CurveP]) (by norm_num [CurveP]) (by norm_num [CurveP])
    (by
      simp only [List.forall_mem_cons]
      exact ⟨Nat.prime_two, Nat.prime_three, by norm_num, by norm_num,
        prime_205115282021455665897114700593932402728804164701536103180137503955397371, by simp⟩)
    (by decide) (by decide)

instance : Fact CurveP.Prime := ⟨CurveP_prime⟩

theorem CurveP_mod_four : CurveP % 4 = 3 := by decide

theorem CurveP_lt : CurveP < 256 ^ byteLen := by decide

/-! ### `Marshal` and `Unmarshal` -/

/-- `Marshal`: the byte `2` plus the parity of `y`, then `x.Bytes()` copied to
the end of `byteLen` zero bytes. When `x.Bytes()` is longer than the buffer the
copy starts at a negative offset: a panic. -/
def Marshal (x y : ℕ) : Except String (List UInt8) :=
  let ret := (2 : UInt8) :: List.replicate byteLen 0
  let xBytes := beBytes x
  if 1 + byteLen < xBytes.length then throw "slice bounds out of range"
  else
    let ret := ret.take (1 + byteLen - xBytes.length) ++ xBytes
    -- ret[0] += byte(y.Bit(0))
    pure (ret.modifyHead (· + UInt8.ofNat (y % 2)))

/-- `Unmarshal`: a prefix byte `2` or `3` and `byteLen` bytes of `x`; `y` is
`(x³ + 7)^((P + 1) / 4)` when that squares back to `x³ + 7`, replaced by `P - y`
when its parity is not the prefix's. The code's `(nil, nil)` is `none`;
`data[0]` of an empty slice panics. -/
def Unmarshal (data : List UInt8) : Except String (Option (ℕ × ℕ)) :=
  match data with
  | [] => throw "index out of range"
  | data0 :: _ =>
    if data0 &&& ~~~1 ≠ 2 then pure none
    else if data.length ≠ 1 + byteLen then pure none
    else
      let x0 := beValue ((data.drop 1).take byteLen)
      let ySq := (x0 ^ 3 % CurveP + 7) % CurveP
      let P1 := CurveP + 1
      let d := P1 % 4
      let P1 := (P1 - d) / 4
      let y0 := ySq ^ P1 % CurveP
      if y0 ^ 2 % CurveP ≠ ySq then pure none
      else
        let y0 := if y0 % 2 ≠ (data0 &&& 1).toNat then CurveP - y0 else y0
        pure (some (x0, y0))

/-- What `Marshal` writes for an `x` of at most `byteLen` bytes. -/
theorem Marshal_eq {x : ℕ} (y : ℕ) (hx : (beBytes x).length ≤ byteLen) :
    Marshal x y =
      .ok ((2 + UInt8.ofNat (y % 2)) ::
        (List.replicate (byteLen - (beBytes x).length) 0 ++ beBytes x)) := by
  have htake : ((2 : UInt8) :: List.replicate byteLen 0).take (1 + byteLen - (beBytes x).length) =
      2 :: List.replicate (byteLen - (beBytes x).length) 0 := by
    rw [show 1 + byteLen - (beBytes x).length = (byteLen - (beBytes x).length) + 1 by omega,
      List.take_succ_cons, List.take_replicate, Nat.min_eq_left (Nat.sub_le _ _)]
  simp only [Marshal, if_neg (show ¬(1 + byteLen < (beBytes x).length) by omega), htake,
    List.cons_append, List.modifyHead_cons]
  rfl

/-- The prefix `Marshal` writes passes the check of `Unmarshal` and carries the
parity of `y`. -/
theorem prefix_checks (y : ℕ) :
    (2 + UInt8.ofNat (y % 2)) &&& ~~~1 = 2 ∧ ((2 + UInt8.ofNat (y % 2)) &&& 1).toNat = y % 2 := by
  rcases Nat.mod_two_eq_zero_or_one y with h | h <;> rw [h] <;> decide

/-- The exponent `Unmarshal` computes is `(P + 1) / 4`. -/
theorem quarter_eq : (CurveP + 1 - (CurveP + 1) % 4) / 4 = (CurveP + 1) / 4 := by decide

theorem natCast_inj_of_lt {a b : ℕ} (ha : a < CurveP) (hb : b < CurveP) :
    (a : ZMod CurveP) = b ↔ a = b := by
  rw [ZMod.natCast_eq_natCast_iff', Nat.mod_eq_of_lt ha, Nat.mod_eq_of_lt hb]

/-- **The square root `Unmarshal` takes** of the square of a coordinate is the
coordinate or its negation `P - y`. -/
theorem sqrt_sq {y : ℕ} (hy : y < CurveP) :
    (y ^ 2 % CurveP) ^ ((CurveP + 1) / 4) % CurveP = y ∨
      (y ≠ 0 ∧ (y ^ 2 % CurveP) ^ ((CurveP + 1) / 4) % CurveP = CurveP - y) := by
  have hroot := ZMod.sq_pow_quarter CurveP_mod_four (y : ZMod CurveP)
  -- the exponent stays a name: a literal power of 254 bits is never to be evaluated
  generalize (CurveP + 1) / 4 = k at hroot ⊢
  have hlt : (y ^ 2 % CurveP) ^ k % CurveP < CurveP := Nat.mod_lt _ (Nat.Prime.pos CurveP_prime)
  have hcast : (((y ^ 2 % CurveP) ^ k % CurveP : ℕ) : ZMod CurveP) = ((y : ZMod CurveP) ^ 2) ^ k := by
    rw [ZMod.natCast_mod, Nat.cast_pow, ZMod.natCast_mod, Nat.cast_pow]
  rcases hroot with h | h
  · exact Or.inl ((natCast_inj_of_lt hlt hy).mp (hcast.trans h))
  · by_cases hy0 : y = 0
    · -- the root of zero is zero, as `-0 = 0`
      refine Or.inl ((natCast_inj_of_lt hlt hy).mp ?_)
      rw [hcast, h, hy0, Nat.cast_zero, neg_zero]
    · refine Or.inr ⟨hy0, (natCast_inj_of_lt hlt (by omega)).mp ?_⟩
      rw [hcast, h, Nat.cast_sub hy.le, ZMod.natCast_self, zero_sub]

theorem CurveP_odd : CurveP % 2 = 1 := by decide

/-- The right side of the curve equation as `Unmarshal` reduces it. -/
theorem curve_mod (x : ℕ) : (x ^ 3 % CurveP + 7) % CurveP = (x ^ 3 + 7) % CurveP := by
  rw [Nat.add_mod, Nat.mod_mod, ← Nat.add_mod]

/-- **`Unmarshal` inverts `Marshal`** on every point of the curve with
coordinates below `P`. -/
theorem Unmarshal_Marshal_eq {x y : ℕ} (hx : x < CurveP) (hy : y < CurveP)
    (hcurve : y ^ 2 % CurveP = (x ^ 3 + 7) % CurveP) :
    (Marshal x y >>= Unmarshal) = .ok (some (x, y)) := by
  have hlen : (beBytes x).length ≤ byteLen := length_beBytes_le (lt_trans hx CurveP_lt)
  obtain ⟨hhead, hbit⟩ := prefix_checks y
  rw [Marshal_eq y hlen, Except.bind_ok]
  -- the bytes after the prefix are `x`, and `(x³ + 7) mod P` is `y² mod P`
  have hx0 : beValue (((List.replicate (byteLen - (beBytes x).length) 0 ++ beBytes x)).take
      byteLen) = x := by
    rw [List.take_of_length_le (by simp; omega), beValue_replicate_append, beValue_beBytes]
  have hsq : (x ^ 3 % CurveP + 7) % CurveP = y ^ 2 % CurveP := by rw [curve_mod, hcurve]
  simp only [Unmarshal, hhead, ne_eq, not_true_eq_false, if_false, List.length_cons,
    List.length_append, List.length_replicate, List.drop_one, List.tail_cons, hx0, hsq,
    quarter_eq, hbit]
  rw [if_neg (by omega)]
  rcases sqrt_sq hy with h | ⟨hy0, h⟩
  · -- the root is `y` itself, with the parity of the prefix
    rw [h, if_neg (not_not.mpr rfl), if_neg (not_not.mpr rfl)]
    rfl
  · -- the root is `P - y`, of the other parity, and the code flips it back
    have hflip : (CurveP - y) % 2 ≠ y % 2 := by have := CurveP_odd; omega
    rw [h, Nat.sub_sq_mod_self hy.le, if_neg (not_not.mpr rfl), if_pos hflip,
      Nat.sub_sub_self hy.le]
    rfl

theorem and_one_le (b : UInt8) : (b &&& 1).toNat ≤ 1 := by
  rw [UInt8.toNat_and, UInt8.toNat_one, Nat.and_one_is_mod]
  omega

/-- **What `Unmarshal` accepts lies on the curve**, with the parity of its
prefix byte, whether or not `P` is prime. -/
theorem Unmarshal_sound {data : List UInt8} {x y : ℕ}
    (h : Unmarshal data = .ok (some (x, y))) :
    data.length = 1 + byteLen ∧ y ^ 2 % CurveP = (x ^ 3 + 7) % CurveP ∧
      y % 2 = (data.headD 0 &&& 1).toNat := by
  cases data with
  | nil => cases h
  | cons data0 rest =>
    simp only [Unmarshal, List.drop_one, List.tail_cons] at h
    -- the decoded `x`, the square it gives and the root taken, as names
    generalize beValue ((rest).take byteLen) = x0 at h
    generalize hsq : (x0 ^ 3 % CurveP + 7) % CurveP = ySq at h
    generalize hr : ySq ^ ((CurveP + 1 - (CurveP + 1) % 4) / 4) % CurveP = r at h
    have hrlt : r < CurveP := hr ▸ Nat.mod_lt _ (Nat.Prime.pos CurveP_prime)
    have hb := and_one_le data0
    rw [curve_mod] at hsq
    split_ifs at h with hpre hlen hroot hpar <;>
      simp only [Except.pure_eq_ok, reduceCtorEq, Option.some.injEq, Prod.mk.injEq] at h
    all_goals obtain ⟨rfl, rfl⟩ := h
    · -- flipped to `P - r`, which has the other parity and the same square
      have := CurveP_odd
      refine ⟨not_not.mp hlen, ?_, ?_⟩
      · rw [Nat.sub_sq_mod_self hrlt.le, hsq]
        exact not_not.mp hroot
      · simp only [List.headD_cons]
        omega
    · exact ⟨not_not.mp hlen, hsq ▸ not_not.mp hroot, not_not.mp hpar⟩

theorem Unmarshal_Marshal :
    (∀ x y : ℕ, x < CurveP → y < CurveP → y ^ 2 % CurveP = (x ^ 3 + 7) % CurveP →
      (Marshal x y >>= Unmarshal) = .ok (some (x, y))) ∧
    ∀ (data : List UInt8) (x y : ℕ), Unmarshal data = .ok (some (x, y)) →
      data.length = 1 + byteLen ∧ y ^ 2 % CurveP = (x ^ 3 + 7) % CurveP ∧
        y % 2 = (data.headD 0 &&& 1).toNat :=
  ⟨fun _ _ hx hy hcurve => Unmarshal_Marshal_eq hx hy hcurve, fun _ _ _ h => Unmarshal_sound h⟩

/-- The generator of secp256k1 goes through the encoding and back. -/
theorem Unmarshal_Marshal_generator :
    (Marshal 0x79BE667EF9DCBBAC55A06295CE870B07029BFCDB2DCE28D959F2815B16F81798
        0x483ADA7726A3C4655DA4FBFC0E1108A8FD17B448A68554199C47D08FFB10D4B8 >>= Unmarshal) =
      .ok (some (0x79BE667EF9DCBBAC55A06295CE870B07029BFCDB2DCE28D959F2815B16F81798,
        0x483ADA7726A3C4655DA4FBFC0E1108A8FD17B448A68554199C47D08FFB10D4B8)) :=
  Unmarshal_Marshal.1 _ _ (by decide) (by decide) (by decide)

end versaHash

end PureChain
