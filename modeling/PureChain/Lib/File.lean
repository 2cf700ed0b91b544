import Mathlib

/-!
# Files and fixed-width words, as Go's standard library reads and writes them

A file is the list of its bytes. `os.File.ReadAt` fills a buffer from an offset
and reports an error when the file ends first, after copying what there was;
`os.File.Truncate` cuts a file, or pads it with zero bytes, to the size asked
for. The words of `encoding/binary` are written highest byte first, and read
back by or-ing the bytes shifted into place.

Reading a word back is the one argument here: the or of a byte shifted past
the bytes below it is their sum (`or_mul_two_pow_eq_add`), after which the
round trips are arithmetic.
-/

namespace binary.BigEndian

/-- `binary.BigEndian.PutUint16`. -/
def PutUint16 (v : UInt16) : List UInt8 := [(v >>> 8).toUInt8, v.toUInt8]

/-- `binary.BigEndian.PutUint32`. -/
def PutUint32 (v : UInt32) : List UInt8 :=
  [(v >>> 24).toUInt8, (v >>> 16).toUInt8, (v >>> 8).toUInt8, v.toUInt8]

/-- `binary.BigEndian.Uint16`, of the first two bytes of `b`. -/
def Uint16 (b : List UInt8) : UInt16 :=
  (b.getD 1 0).toUInt16 ||| (b.getD 0 0).toUInt16 <<< 8

/-- `binary.BigEndian.Uint32`, of the first four bytes of `b`. -/
def Uint32 (b : List UInt8) : UInt32 :=
  (b.getD 3 0).toUInt32 ||| (b.getD 2 0).toUInt32 <<< 8 ||| (b.getD 1 0).toUInt32 <<< 16 |||
    (b.getD 0 0).toUInt32 <<< 24

@[simp] theorem length_PutUint16 (v : UInt16) : (PutUint16 v).length = 2 := rfl

@[simp] theorem length_PutUint32 (v : UInt32) : (PutUint32 v).length = 4 := rfl

/-- The or of a number and a multiple of a power of two above it is their sum. -/
theorem or_mul_two_pow_eq_add {a b k : ℕ} (ha : a < 2 ^ k) : a ||| b * 2 ^ k = b * 2 ^ k + a := by
  rw [Nat.or_comm, ← Nat.shiftLeft_eq]
  exact (Nat.shiftLeft_add_eq_or_of_lt ha b).symm

/-- A byte shifted left by at most `w - 8` bits stays below `2 ^ w`. -/
theorem shiftLeft_mod_eq_mul {x : UInt8} {k w : ℕ} (hk : k + 8 ≤ w) :
    x.toNat <<< k % 2 ^ w = x.toNat * 2 ^ k := by
  rw [Nat.shiftLeft_eq]
  apply Nat.mod_eq_of_lt
  calc x.toNat * 2 ^ k < 2 ^ 8 * 2 ^ k := Nat.mul_lt_mul_of_pos_right x.toNat_lt (Nat.two_pow_pos k)
    _ = 2 ^ (k + 8) := by rw [Nat.pow_add, Nat.mul_comm]
    _ ≤ 2 ^ w := Nat.pow_le_pow_right (by decide) hk

theorem toNat_Uint16 (b : List UInt8) :
    (Uint16 b).toNat = (b.getD 0 0).toNat * 2 ^ 8 + (b.getD 1 0).toNat := by
  simp only [Uint16, UInt16.toNat_or, UInt16.toNat_shiftLeft, UInt8.toNat_toUInt16,
    UInt16.reduceToNat, Nat.reduceMod]
  rw [shiftLeft_mod_eq_mul (show 8 + 8 ≤ 16 by decide)]
  exact or_mul_two_pow_eq_add (b.getD 1 0).toNat_lt

theorem toNat_Uint32 (b : List UInt8) :
    (Uint32 b).toNat = (b.getD 0 0).toNat * 2 ^ 24 + (b.getD 1 0).toNat * 2 ^ 16 +
      (b.getD 2 0).toNat * 2 ^ 8 + (b.getD 3 0).toNat := by
  have h2 := (b.getD 2 0).toNat_lt
  have h3 := (b.getD 3 0).toNat_lt
  have h1 := (b.getD 1 0).toNat_lt
  simp only [Uint32, UInt32.toNat_or, UInt32.toNat_shiftLeft, UInt8.toNat_toUInt32,
    UInt32.reduceToNat, Nat.reduceMod]
  rw [shiftLeft_mod_eq_mul (show 8 + 8 ≤ 32 by decide), shiftLeft_mod_eq_mul (show 16 + 8 ≤ 32 by decide),
    shiftLeft_mod_eq_mul (show 24 + 8 ≤ 32 by decide)]
  -- the bytes are or-ed in from the lowest, each above all the ones before it
  rw [or_mul_two_pow_eq_add h3, or_mul_two_pow_eq_add (show _ < 2 ^ 16 by omega),
    or_mul_two_pow_eq_add (show _ < 2 ^ 24 by omega)]
  omega

@[simp] theorem Uint16_PutUint16 (v : UInt16) : Uint16 (PutUint16 v) = v := by
  apply UInt16.toNat_inj.mp
  have hv := v.toNat_lt
  simp only [toNat_Uint16, PutUint16, List.getD_cons_zero, List.getD_cons_succ,
    UInt16.toNat_toUInt8, UInt16.toNat_shiftRight, UInt16.reduceToNat, Nat.reduceMod,
    Nat.shiftRight_eq_div_pow]
  omega

@[simp] theorem Uint32_PutUint32 (v : UInt32) : Uint32 (PutUint32 v) = v := by
  apply UInt32.toNat_inj.mp
  have hv := v.toNat_lt
  simp only [toNat_Uint32, PutUint32, List.getD_cons_zero, List.getD_cons_succ,
    UInt32.toNat_toUInt8, UInt32.toNat_shiftRight, UInt32.reduceToNat, Nat.reduceMod,
    Nat.shiftRight_eq_div_pow]
  omega

end binary.BigEndian

namespace os

/-- `os.File.ReadAt` of `buf.length` bytes at `off` from a file holding `file`:
the buffer afterwards, and whether the read filled it (Go returns an error
otherwise, `io.EOF` at the end of the file, after copying what there was). A
negative offset reads nothing. -/
def ReadAt (file buf : List UInt8) (off : ℤ) : List UInt8 × Bool :=
  if off < 0 then (buf, false)
  else
    let got := (file.drop off.toNat).take buf.length
    (got ++ buf.drop got.length, got.length == buf.length)

/-- `os.File.Truncate`: the file cut, or padded with zero bytes, to `size`
bytes; a negative size is an error. -/
def Truncate (file : List UInt8) (size : ℤ) : Option (List UInt8) :=
  if size < 0 then none
  else some (file.take size.toNat ++ List.replicate (size.toNat - file.length) 0)

variable {file buf : List UInt8}

/-- A read that the file is long enough for fills the buffer with the file's
bytes at the offset. -/
theorem ReadAt_of_le {off : ℕ} (h : off + buf.length ≤ file.length) :
    ReadAt file buf off = ((file.drop off).take buf.length, true) := by
  have hlen : ((file.drop off).take buf.length).length = buf.length := by
    simp only [List.length_take, List.length_drop]
    omega
  simp only [ReadAt, Int.natCast_nonneg, Int.not_lt.mpr, if_false, Int.toNat_natCast, hlen,
    List.drop_length, List.append_nil, beq_self_eq_true]

/-- What is written after the end of a read does not change it. -/
theorem ReadAt_append_of_le {more : List UInt8} {off : ℕ} (h : off + buf.length ≤ file.length) :
    ReadAt (file ++ more) buf off = ReadAt file buf off := by
  rw [ReadAt_of_le h, ReadAt_of_le (by rw [List.length_append]; omega),
    List.drop_append_of_le_length (by omega), List.take_append_of_le_length (by rw [List.length_drop]; omega)]

/-- A read of some bytes that runs past the end of the file is an error (a read
of none never is). -/
theorem ReadAt_short {off : ℤ} (hb : buf ≠ []) (h : file.length < off.toNat + buf.length) :
    (ReadAt file buf off).2 = false := by
  unfold ReadAt
  split
  · rfl
  · have := List.length_pos_of_ne_nil hb
    simp only [beq_eq_false_iff_ne, ne_eq, List.length_take, List.length_drop]
    omega

/-- A read of some bytes from an empty file fails and leaves the buffer as it was. -/
theorem ReadAt_nil {off : ℤ} (hb : buf ≠ []) : ReadAt [] buf off = (buf, false) := by
  unfold ReadAt
  split
  · rfl
  · have := List.length_pos_of_ne_nil hb
    simp only [List.drop_nil, List.take_nil, List.length_nil, List.drop_zero, List.nil_append,
      Prod.mk.injEq, true_and, beq_eq_false_iff_ne]
    omega

/-- The bytes of a file that a truncation to `size` keeps. -/
theorem Truncate_natCast (size : ℕ) :
    Truncate file size = some (file.take size ++ List.replicate (size - file.length) 0) := by
  simp only [Truncate, Int.natCast_nonneg, Int.not_lt.mpr, if_false, Int.toNat_natCast]

theorem Truncate_of_le {size : ℕ} (h : size ≤ file.length) : Truncate file size = some (file.take size) := by
  rw [Truncate_natCast, Nat.sub_eq_zero_of_le h, List.replicate_zero, List.append_nil]

theorem length_of_Truncate {size : ℤ} {f : List UInt8} (h : Truncate file size = some f) :
    0 ≤ size ∧ f.length = size.toNat := by
  unfold Truncate at h
  split at h
  · exact absurd h (Option.some_ne_none _).symm
  · cases h
    simp only [List.length_append, List.length_take, List.length_replicate]
    omega

/-- A truncation keeps the bytes before the new size. -/
theorem take_of_Truncate {size : ℤ} {f : List UInt8} (h : Truncate file size = some f) {k : ℕ}
    (hk : k ≤ size.toNat) (hf : k ≤ file.length) : f.take k = file.take k := by
  unfold Truncate at h
  split at h
  · exact absurd h (Option.some_ne_none _).symm
  · cases h
    rw [List.take_append_of_le_length (by simp only [List.length_take]; omega), List.take_take,
      Nat.min_eq_left hk]

end os
