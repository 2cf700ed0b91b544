import Mathlib.Data.List.GetD
import Mathlib.Data.Nat.Log
import Mathlib.Data.Nat.Size
import Mathlib.Tactic.Ring
import PureChain.Lib.Rlp

/-!
# Package `vm`: the MODEXP precompile

`bigModExp` computes `base ^ exp % mod` on numbers of any length. Its input is
three 32-byte lengths and then the three numbers, big-endian, each as long as
its length says; whatever the input does not hold reads as zeros. The price
is that of EIP-198 (or of EIP-2565 when `eip2565` is set): a complexity of the
longer of the base and the modulus, times the *adjusted exponent length*, the
bit length of the exponent's first 32 bytes, plus eight per byte of exponent
beyond them.

The code works on `big.Int`s, reads the exponent's head only when the input
reaches it, and caps the price at `2^64 - 1`. The price it returns is that of
the EIPs computed without bound and then capped (`RequiredGas_eq`); the only
bound it rests on is that of a Go slice's length, which keeps the offset of the
exponent's head, when the input reaches it, inside a `uint64`. Below `2^32` for
the three lengths, `Run` returns `modLen` bytes holding the power
(`Run_spec`).

The specification follows the code: the zero-padded input (`paddedBytes`),
the three numbers it holds and the two prices, in `ℤ` as the EIPs write them.
`getData` reads the zero-padded input wherever its end does not wrap
(`getData_eq`), and that is most of the proof.
-/

namespace PureChain

namespace common

/-- `common.RightPadBytes`: `slice` with zeros after it up to length `l`. -/
def RightPadBytes (slice : List UInt8) (l : ℕ) : List UInt8 :=
  if l ≤ slice.length then slice else slice ++ List.replicate (l - slice.length) 0

/-- `common.LeftPadBytes`: `slice` with zeros before it up to length `l`. -/
def LeftPadBytes (slice : List UInt8) (l : ℕ) : List UInt8 :=
  if l ≤ slice.length then slice else List.replicate (l - slice.length) 0 ++ slice

end common

namespace vm

/-- `getData`: `size` bytes of `data` from `start`, zero-padded past its end.
The length of a Go slice fits its `uint64` exactly; the end wraps as a
`uint64` does, and a slice whose end falls before its start, where the source
panics, is empty. -/
def getData (data : List UInt8) (start size : UInt64) : List UInt8 :=
  let length := data.length
  let start := if start.toNat > length then length else start.toNat
  let end_ := (start + size.toNat) % 2 ^ 64
  let end_ := if end_ > length then length else end_
  common.RightPadBytes ((data.take end_).drop start) size.toNat

/-- `modexpMultComplexity`, the complexity of EIP-198, on the non-negative
numbers it is called with. -/
def modexpMultComplexity (x : ℕ) : ℕ :=
  if x ≤ 64 then x * x
  else if x ≤ 1024 then x * x / 4 + (96 * x - 3072)
  else x * x / 16 + (480 * x - 199680)

/-- `bigModExp`: the MODEXP precompile, with the pricing of EIP-2565 or not. -/
structure bigModExp where
  eip2565 : Bool
  deriving DecidableEq, Repr

/-- `bigModExp.RequiredGas`. The `big.Int`s are non-negative here and are `ℕ`;
`BitLen` is `Nat.size`. -/
def bigModExp.RequiredGas (c : bigModExp) (input : List UInt8) : UInt64 :=
  let baseLen := Rlp.beValue (getData input 0 32)
  let expLen := Rlp.beValue (getData input 32 32)
  let modLen := Rlp.beValue (getData input 64 32)
  let input := if input.length > 96 then input.drop 96 else []
  -- the head 32 bytes of the exponent, when the input reaches it
  let expHead :=
    if input.length ≤ baseLen then 0
    else if expLen > 32 then Rlp.beValue (getData input (UInt64.ofNat baseLen) 32)
    else Rlp.beValue (getData input (UInt64.ofNat baseLen) (UInt64.ofNat expLen))
  let msb := if 0 < Nat.size expHead then Nat.size expHead - 1 else 0
  let adjExpLen := (if expLen > 32 then 8 * (expLen - 32) else 0) + msb
  let gas := max modLen baseLen
  if c.eip2565 then
    let gas := (gas + 7) / 8
    let gas := gas * gas * max adjExpLen 1 / 3
    if Nat.size gas > 64 then 0xFFFFFFFFFFFFFFFF
    -- the minimum price of EIP-2565
    else if UInt64.ofNat gas < 200 then 200
    else UInt64.ofNat gas
  else
    let gas := modexpMultComplexity gas * max adjExpLen 1 / 20
    if Nat.size gas > 64 then 0xFFFFFFFFFFFFFFFF else UInt64.ofNat gas

/-- `bigModExp.Run`; its error is always `nil`. `base.Exp(base, exp, mod)` is
`base ^ exp % mod` for a modulus that is not zero. -/
def bigModExp.Run (_ : bigModExp) (input : List UInt8) : List UInt8 :=
  let baseLen := UInt64.ofNat (Rlp.beValue (getData input 0 32))
  let expLen := UInt64.ofNat (Rlp.beValue (getData input 32 32))
  let modLen := UInt64.ofNat (Rlp.beValue (getData input 64 32))
  let input := if input.length > 96 then input.drop 96 else []
  if baseLen = 0 ∧ modLen = 0 then []
  else
    let base := Rlp.beValue (getData input 0 baseLen)
    let exp := Rlp.beValue (getData input baseLen expLen)
    let mod := Rlp.beValue (getData input (baseLen + expLen) modLen)
    if Nat.size mod = 0 then common.LeftPadBytes [] modLen.toNat
    else common.LeftPadBytes (Rlp.beBytes (base ^ exp % mod)) modLen.toNat

/-! ### What the EIPs specify -/

/-- The input as MODEXP reads it, zero-padded without end: `width` bytes from
`off`. -/
def paddedBytes (input : List UInt8) (off width : ℕ) : List UInt8 :=
  (List.range width).map fun i => input.getD (off + i) 0

namespace eip198

/-- The length of the base: the first word of the input. -/
def baseLen (input : List UInt8) : ℕ := Rlp.beValue (paddedBytes input 0 32)

/-- The length of the exponent: the second word. -/
def expLen (input : List UInt8) : ℕ := Rlp.beValue (paddedBytes input 32 32)

/-- The length of the modulus: the third word. -/
def modLen (input : List UInt8) : ℕ := Rlp.beValue (paddedBytes input 64 32)

/-- The base, the exponent and the modulus, one after the other past the
three words. -/
def base (input : List UInt8) : ℕ := Rlp.beValue (paddedBytes input 96 (baseLen input))

def exp (input : List UInt8) : ℕ := Rlp.beValue (paddedBytes input (96 + baseLen input) (expLen input))

def mod (input : List UInt8) : ℕ :=
  Rlp.beValue (paddedBytes input (96 + baseLen input + expLen input) (modLen input))

/-- The first 32 bytes of the exponent, or all of it when it is shorter. -/
def expHead (input : List UInt8) : ℕ :=
  Rlp.beValue (paddedBytes input (96 + baseLen input) (min (expLen input) 32))

/-- The adjusted exponent length: the index of the highest bit of the
exponent's head (zero when there is none), and eight for each byte of the
exponent past its 32nd. -/
def adjExpLen (input : List UInt8) : ℕ :=
  (if 32 < expLen input then 8 * (expLen input - 32) else 0) + Nat.log 2 (expHead input)

/-- `mult_complexity` of EIP-198. -/
def multComplexity (x : ℤ) : ℤ :=
  if x ≤ 64 then x ^ 2
  else if x ≤ 1024 then x ^ 2 / 4 + 96 * x - 3072
  else x ^ 2 / 16 + 480 * x - 199680

/-- The price of EIP-198. -/
def price (input : List UInt8) : ℤ :=
  multComplexity (max (modLen input) (baseLen input)) * max (adjExpLen input) 1 / 20

/-- The price of EIP-2565: the complexity is the square of the number of 8-byte
words, rounded up, the divisor is three, and no call costs less than 200. -/
def price2565 (input : List UInt8) : ℤ :=
  max 200 (((max (modLen input) (baseLen input) + 7) / 8) ^ 2 * max (adjExpLen input) 1 / 3)

/-- What MODEXP returns: `base ^ exp % mod`, and zero for a zero modulus. -/
def result (input : List UInt8) : ℕ := if mod input = 0 then 0 else base input ^ exp input % mod input

end eip198

/-! ### Reading the zero-padded input -/

@[simp] theorem length_paddedBytes (data : List UInt8) (off width : ℕ) :
    (paddedBytes data off width).length = width := by
  simp [paddedBytes]

/-- The window is the rest of the input from `off`, with zeros after it. -/
theorem paddedBytes_eq_take (data : List UInt8) (off width : ℕ) :
    paddedBytes data off width = (data.drop off ++ List.replicate width 0).take width := by
  apply List.ext_getElem (by simp)
  intro i h₁ _
  have hi : i < width := by simpa using h₁
  rw [List.getElem_take]
  simp only [paddedBytes, List.getElem_map, List.getElem_range]
  by_cases hin : off + i < data.length
  · rw [List.getElem_append_left (by simp only [List.length_drop]; omega), List.getElem_drop,
      List.getD_eq_getElem _ _ hin]
  · rw [List.getElem_append_right (by simp only [List.length_drop]; omega), List.getElem_replicate,
      List.getD_eq_default _ _ (by omega)]

theorem paddedBytes_drop (data : List UInt8) (k off width : ℕ) :
    paddedBytes (data.drop k) off width = paddedBytes data (k + off) width := by
  simp [paddedBytes_eq_take, List.drop_drop]

/-- Past the end of the input the window holds zeros. -/
theorem beValue_paddedBytes_of_le {data : List UInt8} {off : ℕ} (h : data.length ≤ off) (width : ℕ) :
    Rlp.beValue (paddedBytes data off width) = 0 := by
  rw [paddedBytes_eq_take, List.drop_eq_nil_of_le h, List.nil_append, List.take_replicate,
    ← List.append_nil (List.replicate _ 0), Rlp.beValue_replicate_append]
  rfl

theorem beValue_paddedBytes_lt (data : List UInt8) (off width : ℕ) :
    Rlp.beValue (paddedBytes data off width) < 256 ^ width := by
  simpa using Rlp.beValue_lt (paddedBytes data off width)

theorem RightPadBytes_take (l : List UInt8) (w : ℕ) :
    common.RightPadBytes (l.take w) w = (l ++ List.replicate w 0).take w := by
  unfold common.RightPadBytes
  split
  case isTrue h =>
    rw [List.take_append_of_le_length (by simp at h; omega)]
  case isFalse h =>
    have hl : l.length < w := by simp at h; omega
    rw [List.take_of_length_le (by omega), List.take_append, List.take_of_length_le (by omega),
      List.take_replicate, Nat.min_eq_left (by omega)]

/-- **`getData` reads the zero-padded input**, wherever the end of what it
reads does not wrap. -/
theorem getData_eq (data : List UInt8) (start size : UInt64) (h : start.toNat + size.toNat < 2 ^ 64) :
    getData data start size = paddedBytes data start.toNat size.toNat := by
  rw [paddedBytes_eq_take, ← RightPadBytes_take]
  simp only [getData]
  congr 1
  -- the slice the source takes is the window from `start`, cut at the end of `data`
  split
  case isTrue hs =>
    rw [Nat.mod_eq_of_lt (by omega), List.drop_eq_nil_of_le (by simp), List.drop_eq_nil_of_le (by omega),
      List.take_nil]
  case isFalse hs =>
    rw [Nat.mod_eq_of_lt h, List.drop_take]
    split
    · rw [List.take_of_length_le (by simp only [List.length_drop]; omega),
        List.take_of_length_le (by simp only [List.length_drop]; omega)]
    · rw [Nat.add_sub_cancel_left]

/-- What follows the three words, as the code cuts it off. -/
theorem drop_96 (input : List UInt8) : (if input.length > 96 then input.drop 96 else []) = input.drop 96 := by
  split
  · rfl
  · rw [List.drop_eq_nil_of_le (by omega)]

theorem getData_words (input : List UInt8) :
    Rlp.beValue (getData input 0 32) = eip198.baseLen input ∧
      Rlp.beValue (getData input 32 32) = eip198.expLen input ∧
        Rlp.beValue (getData input 64 32) = eip198.modLen input := by
  refine ⟨?_, ?_, ?_⟩ <;> rw [getData_eq _ _ _ (by decide)] <;> rfl

/-- The code reads the exponent's head where the specification does, or knows
it is zero when the input ends before it. -/
theorem expHead_read (input : List UInt8) (hlen : input.length < 2 ^ 63) :
    (if (input.drop 96).length ≤ eip198.baseLen input then 0
      else if eip198.expLen input > 32 then
        Rlp.beValue (getData (input.drop 96) (UInt64.ofNat (eip198.baseLen input)) 32)
      else Rlp.beValue (getData (input.drop 96) (UInt64.ofNat (eip198.baseLen input))
        (UInt64.ofNat (eip198.expLen input)))) = eip198.expHead input := by
  unfold eip198.expHead
  split
  case isTrue h =>
    rw [beValue_paddedBytes_of_le (by simp only [List.length_drop] at h; omega)]
  case isFalse h =>
    -- the exponent starts inside the input, so its offset fits a `uint64`
    have hB : (UInt64.ofNat (eip198.baseLen input)).toNat = eip198.baseLen input :=
      UInt64.toNat_ofNat_of_lt' (by simp only [List.length_drop] at h; simp only [UInt64.size]; omega)
    split
    case isTrue hE =>
      rw [getData_eq (input.drop 96) (UInt64.ofNat (eip198.baseLen input)) 32
          (by simp only [hB, UInt64.reduceToNat]; simp only [List.length_drop] at h; omega), hB, paddedBytes_drop,
        Nat.min_eq_right (by omega)]
      rfl
    case isFalse hE =>
      have hE' : (UInt64.ofNat (eip198.expLen input)).toNat = eip198.expLen input :=
        UInt64.toNat_ofNat_of_lt' (by simp only [UInt64.size]; omega)
      rw [getData_eq (input.drop 96) (UInt64.ofNat (eip198.baseLen input)) (UInt64.ofNat (eip198.expLen input))
          (by rw [hB, hE']; simp only [List.length_drop] at h; omega), hB, hE', paddedBytes_drop,
        Nat.min_eq_left (by omega)]

/-- The index of the highest bit, as the code takes it from the bit length. -/
theorem msb_eq_log (n : ℕ) : (if 0 < Nat.size n then Nat.size n - 1 else 0) = Nat.log 2 n := by
  split
  case isTrue h =>
    symm
    apply Nat.log_eq_of_pow_le_of_lt_pow
    · exact Nat.lt_size.mp (by omega)
    · rw [Nat.sub_add_cancel h]
      exact Nat.lt_size_self n
  case isFalse h =>
    rw [Nat.size_eq_zero.mp (show Nat.size n = 0 by omega), Nat.log_zero_right]

/-- The cap at `2^64 - 1`. -/
theorem toNat_cap (g : ℕ) :
    (((if Nat.size g > 64 then 0xFFFFFFFFFFFFFFFF else UInt64.ofNat g : UInt64).toNat : ℤ)) =
      min (2 ^ 64 - 1) (g : ℤ) := by
  split
  case isTrue h =>
    have hg : 2 ^ 64 ≤ g := Nat.lt_size.mp h
    rw [min_eq_left (by omega)]
    rfl
  case isFalse h =>
    have hg : g < 2 ^ 64 := Nat.size_le.mp (by omega)
    rw [UInt64.toNat_ofNat_of_lt' hg, min_eq_right (by omega)]

/-- The cap at `2^64 - 1` and the floor of EIP-2565 at 200. -/
theorem toNat_cap_200 (g : ℕ) :
    (((if Nat.size g > 64 then 0xFFFFFFFFFFFFFFFF else if UInt64.ofNat g < 200 then 200 else UInt64.ofNat g :
      UInt64).toNat : ℤ)) = min (2 ^ 64 - 1) (max 200 (g : ℤ)) := by
  split
  case isTrue h =>
    have hg : 2 ^ 64 ≤ g := Nat.lt_size.mp h
    rw [min_eq_left (by omega)]
    rfl
  case isFalse h =>
    have hg : g < 2 ^ 64 := Nat.size_le.mp (by omega)
    have hlt : UInt64.ofNat g < 200 ↔ g < 200 := by
      rw [UInt64.lt_iff_toNat_lt, UInt64.toNat_ofNat_of_lt' hg]
      rfl
    split
    case isTrue h200 =>
      rw [max_eq_left (by have := hlt.mp h200; omega), min_eq_right (by omega)]
      rfl
    case isFalse h200 =>
      rw [UInt64.toNat_ofNat_of_lt' hg, max_eq_right (by have := mt hlt.mpr h200; omega), min_eq_right (by omega)]

/-- `modexpMultComplexity` is `mult_complexity`: each subtraction is made where
it cannot go below zero. -/
theorem modexpMultComplexity_eq (x : ℕ) : (modexpMultComplexity x : ℤ) = eip198.multComplexity x := by
  have h64 : (x : ℤ) ≤ 64 ↔ x ≤ 64 := by norm_cast
  have h1024 : (x : ℤ) ≤ 1024 ↔ x ≤ 1024 := by norm_cast
  unfold modexpMultComplexity eip198.multComplexity
  simp only [h64, h1024]
  split_ifs with hs hm
  · push_cast
    ring
  · rw [Nat.cast_add, Nat.cast_sub (by omega), pow_two]
    push_cast
    ring
  · rw [Nat.cast_add, Nat.cast_sub (by omega), pow_two]
    push_cast
    ring

/-- **`RequiredGas` is the price of the EIPs, capped at `2^64 - 1`**, for every
input a Go slice can hold. -/
theorem RequiredGas_eq (c : bigModExp) (input : List UInt8) (hlen : input.length < 2 ^ 63) :
    ((c.RequiredGas input).toNat : ℤ) =
      min (2 ^ 64 - 1) (if c.eip2565 then eip198.price2565 input else eip198.price input) := by
  obtain ⟨hB, hE, hM⟩ := getData_words input
  have hadj : (if eip198.expLen input > 32 then 8 * (eip198.expLen input - 32) else 0) +
      Nat.log 2 (eip198.expHead input) = eip198.adjExpLen input := rfl
  have hmax : ((max (eip198.modLen input) (eip198.baseLen input) : ℕ) : ℤ) =
      max (eip198.modLen input : ℤ) (eip198.baseLen input) := by omega
  simp only [bigModExp.RequiredGas, hB, hE, hM, drop_96, expHead_read input hlen, msb_eq_log, hadj]
  cases c.eip2565
  case false =>
    rw [if_neg Bool.false_ne_true, toNat_cap, if_neg Bool.false_ne_true, eip198.price, Int.natCast_ediv,
      Nat.cast_mul, modexpMultComplexity_eq, hmax]
    rfl
  case true =>
    rw [if_pos rfl, toNat_cap_200, if_pos rfl, eip198.price2565, pow_two]
    push_cast
    rfl

/-! ### The output of `Run` -/

/-- A number below `256 ^ k`, in its bytes padded on the left to `k` of them. -/
theorem LeftPadBytes_beBytes {r k : ℕ} (h : r < 256 ^ k) :
    (common.LeftPadBytes (Rlp.beBytes r) k).length = k ∧
      Rlp.beValue (common.LeftPadBytes (Rlp.beBytes r) k) = r := by
  have hlen := Rlp.length_beBytes_le h
  unfold common.LeftPadBytes
  split
  case isTrue h' => exact ⟨by omega, Rlp.beValue_beBytes r⟩
  case isFalse h' =>
    refine ⟨?_, by rw [Rlp.beValue_replicate_append, Rlp.beValue_beBytes]⟩
    rw [List.length_append, List.length_replicate]
    omega

/-- The power fits the modulus's length. -/
theorem result_lt (input : List UInt8) : eip198.result input < 256 ^ eip198.modLen input := by
  unfold eip198.result
  split
  · exact Nat.pow_pos (by norm_num)
  · exact (Nat.mod_lt _ (by omega)).trans (beValue_paddedBytes_lt _ _ _)

/-- With the three lengths below `2^32`, `Run` reads the three numbers where
the specification does, and returns the power padded to the modulus's length. -/
theorem Run_eq (c : bigModExp) (input : List UInt8) (hb : eip198.baseLen input < 2 ^ 32)
    (he : eip198.expLen input < 2 ^ 32) (hm : eip198.modLen input < 2 ^ 32) :
    c.Run input = common.LeftPadBytes (Rlp.beBytes (eip198.result input)) (eip198.modLen input) := by
  obtain ⟨hB, hE, hM⟩ := getData_words input
  have hB' : (UInt64.ofNat (eip198.baseLen input)).toNat = eip198.baseLen input :=
    UInt64.toNat_ofNat_of_lt' (by simp only [UInt64.size]; omega)
  have hE' : (UInt64.ofNat (eip198.expLen input)).toNat = eip198.expLen input :=
    UInt64.toNat_ofNat_of_lt' (by simp only [UInt64.size]; omega)
  have hM' : (UInt64.ofNat (eip198.modLen input)).toNat = eip198.modLen input :=
    UInt64.toNat_ofNat_of_lt' (by simp only [UInt64.size]; omega)
  have hBE : (UInt64.ofNat (eip198.baseLen input) + UInt64.ofNat (eip198.expLen input)).toNat =
      eip198.baseLen input + eip198.expLen input := by
    rw [UInt64.toNat_add, hB', hE', Nat.mod_eq_of_lt (by omega)]
  -- the three numbers, where the specification reads them
  have hbase : Rlp.beValue (getData (input.drop 96) 0 (UInt64.ofNat (eip198.baseLen input))) =
      eip198.base input := by
    rw [getData_eq (input.drop 96) 0 _ (by rw [hB']; simp only [UInt64.reduceToNat]; omega), hB',
      paddedBytes_drop]
    rfl
  have hexp : Rlp.beValue (getData (input.drop 96) (UInt64.ofNat (eip198.baseLen input))
      (UInt64.ofNat (eip198.expLen input))) = eip198.exp input := by
    rw [getData_eq (input.drop 96) _ _ (by rw [hB', hE']; omega), hB', hE', paddedBytes_drop]
    rfl
  have hmod : Rlp.beValue (getData (input.drop 96) (UInt64.ofNat (eip198.baseLen input) +
      UInt64.ofNat (eip198.expLen input)) (UInt64.ofNat (eip198.modLen input))) = eip198.mod input := by
    rw [getData_eq (input.drop 96) _ _ (by rw [hBE, hM']; omega), hBE, hM', paddedBytes_drop, ← Nat.add_assoc]
    rfl
  have hzero : UInt64.ofNat (eip198.baseLen input) = 0 ∧ UInt64.ofNat (eip198.modLen input) = 0 →
      eip198.modLen input = 0 := by
    rintro ⟨-, h0⟩
    rw [← hM', h0]
    rfl
  simp only [bigModExp.Run, hB, hE, hM, drop_96, hbase, hexp, hmod, hM']
  split
  case isTrue h =>
    -- neither a base nor a modulus: the modulus reads as zero, and so does the output
    have hmod0 : eip198.mod input = 0 := by
      rw [eip198.mod, hzero h]
      rfl
    rw [eip198.result, if_pos hmod0, hzero h, Rlp.beBytes_zero]
    rfl
  case isFalse h =>
    unfold eip198.result
    split
    case isTrue h0 =>
      rw [if_pos (Nat.size_eq_zero.mp h0), Rlp.beBytes_zero]
    case isFalse h0 =>
      rw [if_neg (mt Nat.size_eq_zero.mpr h0)]

/-- **`Run` returns `modLen` bytes holding `base ^ exp % mod`**, zero for a zero
modulus, when the three lengths are below `2^32`. -/
theorem Run_spec (c : bigModExp) (input : List UInt8) (hb : eip198.baseLen input < 2 ^ 32)
    (he : eip198.expLen input < 2 ^ 32) (hm : eip198.modLen input < 2 ^ 32) :
    (c.Run input).length = eip198.modLen input ∧ Rlp.beValue (c.Run input) = eip198.result input := by
  rw [Run_eq c input hb he hm]
  exact LeftPadBytes_beBytes (result_lt input)

/-- A zero modulus gives `modLen` zero bytes. -/
theorem Run_of_mod_eq_zero (c : bigModExp) {input : List UInt8} (hb : eip198.baseLen input < 2 ^ 32)
    (he : eip198.expLen input < 2 ^ 32) (hm : eip198.modLen input < 2 ^ 32) (h0 : eip198.mod input = 0) :
    c.Run input = List.replicate (eip198.modLen input) 0 := by
  rw [Run_eq c input hb he hm, eip198.result, if_pos h0, Rlp.beBytes_zero, common.LeftPadBytes]
  split
  case isTrue h => rw [show eip198.modLen input = 0 by simpa using h, List.replicate_zero]
  case isFalse h => rw [List.append_nil, List.length_nil, Nat.sub_zero]

/-- MODEXP: the price is that of the EIPs, capped, for every input a Go slice
can hold; and below `2^32` for the three lengths, the output is `modLen`
bytes holding the power, all zero for a zero modulus. -/
theorem modexp_gas_and_output (c : bigModExp) :
    (∀ input : List UInt8, input.length < 2 ^ 63 →
      ((c.RequiredGas input).toNat : ℤ) =
        min (2 ^ 64 - 1) (if c.eip2565 then eip198.price2565 input else eip198.price input)) ∧
    ∀ input : List UInt8, eip198.baseLen input < 2 ^ 32 → eip198.expLen input < 2 ^ 32 →
      eip198.modLen input < 2 ^ 32 →
        (c.Run input).length = eip198.modLen input ∧ Rlp.beValue (c.Run input) = eip198.result input ∧
          (eip198.mod input = 0 → c.Run input = List.replicate (eip198.modLen input) 0) :=
  ⟨RequiredGas_eq c, fun input hb he hm =>
    ⟨(Run_spec c input hb he hm).1, (Run_spec c input hb he hm).2, Run_of_mod_eq_zero c hb he hm⟩⟩

theorem modexp_gas_and_output_three_five_seven :
    let input : List UInt8 := List.replicate 31 0 ++ [1] ++ List.replicate 31 0 ++ [1] ++
      List.replicate 31 0 ++ [1] ++ [3, 5, 7]
    input.length < 2 ^ 63 ∧
      ((bigModExp.RequiredGas ⟨true⟩ input).toNat : ℤ) =
        min (2 ^ 64 - 1) (if (⟨true⟩ : bigModExp).eip2565 then eip198.price2565 input else eip198.price input) ∧
      eip198.baseLen input < 2 ^ 32 ∧ eip198.expLen input < 2 ^ 32 ∧ eip198.modLen input < 2 ^ 32 ∧
      (bigModExp.Run ⟨true⟩ input).length = eip198.modLen input ∧
        Rlp.beValue (bigModExp.Run ⟨true⟩ input) = eip198.result input ∧
          (eip198.mod input = 0 → bigModExp.Run ⟨true⟩ input = List.replicate (eip198.modLen input) 0) :=
  ⟨by decide, (modexp_gas_and_output ⟨true⟩).1 _ (by decide), by decide, by decide, by decide,
    (modexp_gas_and_output ⟨true⟩).2 _ (by decide) (by decide) (by decide)⟩

end vm

end PureChain
