import Mathlib.Data.Nat.Size
import Mathlib.Tactic.Ring
import PureChain.Rlp.Typed

/-!
# Package `rlp`: integers

An unsigned integer is the string of its minimal big-endian bytes – none for
zero, so `0x80` – and a string of one byte below `0x80` is that byte alone:
`Rlp.Item.nat`. The package writes one in three places, each its own way:

* `encbuf.encodeUint`, for a `uint64`: the byte itself below `128`, else a
  header and `putint`;
* `writeBigInt`, for a `*big.Int`: `encodeUint` up to 64 bits, and above that a
  string of `⌈bitlen/8⌉` zero bytes that the machine words of `big.Int.Bits` are
  written into, the least significant byte last;
* `AppendUint64`, which spells out the header and bytes for each byte length.

It reads one back in three places too: `Stream.uint` (which is `Stream.Uint`),
`decodeBigInt`, and `SplitUint64` on a byte slice.

Each writer writes `Item.nat`'s encoding (`encodeUint_eq`, `writeBigInt_eq`,
`AppendUint64_eq`). `SplitUint64` reads it back with whatever follows
(`SplitUint64_encode`), and what it accepts is such an encoding
(`encode_of_SplitUint64`), as `Rlp.Typed` shows of the stream decoders. So no
decoder accepts a string with a leading zero byte, or a single byte below `0x80`
behind a header (`not_nat_encode_leading_zero`, `not_nat_encode_wrapped`).
-/

namespace PureChain

namespace rlp

open Rlp

/-! ### The writers -/

/-- `encodeUint`: zero as the empty string, a number below `128` as its byte,
anything else behind a one-byte header. -/
def encbuf.encodeUint (w : encbuf) (i : UInt64) : encbuf :=
  if i = 0 then { w with str := w.str ++ [0x80] }
  else if i < 128 then { w with str := w.str ++ [i.toUInt8] }
  else
    let s := putint i.toNat
    { w with str := w.str ++ ((0x80 + UInt8.ofNat s.length) :: s) }

/-- `AppendUint64`: the header and the bytes, spelled out for each length. -/
def AppendUint64 (b : List UInt8) (i : UInt64) : List UInt8 :=
  if i = 0 then b ++ [0x80]
  else if i < 128 then b ++ [i.toUInt8]
  else if i < (1 : UInt64) <<< 8 then b ++ [(0x81 : UInt8), i.toUInt8]
  else if i < (1 : UInt64) <<< 16 then b ++ [(0x82 : UInt8), (i >>> 8).toUInt8, i.toUInt8]
  else if i < (1 : UInt64) <<< 24 then
    b ++ [(0x83 : UInt8), (i >>> 16).toUInt8, (i >>> 8).toUInt8, i.toUInt8]
  else if i < (1 : UInt64) <<< 32 then
    b ++ [(0x84 : UInt8), (i >>> 24).toUInt8, (i >>> 16).toUInt8, (i >>> 8).toUInt8, i.toUInt8]
  else if i < (1 : UInt64) <<< 40 then
    b ++ [(0x85 : UInt8), (i >>> 32).toUInt8, (i >>> 24).toUInt8, (i >>> 16).toUInt8, (i >>> 8).toUInt8,
      i.toUInt8]
  else if i < (1 : UInt64) <<< 48 then
    b ++ [(0x86 : UInt8), (i >>> 40).toUInt8, (i >>> 32).toUInt8, (i >>> 24).toUInt8, (i >>> 16).toUInt8,
      (i >>> 8).toUInt8, i.toUInt8]
  else if i < (1 : UInt64) <<< 56 then
    b ++ [(0x87 : UInt8), (i >>> 48).toUInt8, (i >>> 40).toUInt8, (i >>> 32).toUInt8, (i >>> 24).toUInt8,
      (i >>> 16).toUInt8, (i >>> 8).toUInt8, i.toUInt8]
  else
    b ++ [(0x88 : UInt8), (i >>> 56).toUInt8, (i >>> 48).toUInt8, (i >>> 40).toUInt8, (i >>> 32).toUInt8,
      (i >>> 24).toUInt8, (i >>> 16).toUInt8, (i >>> 8).toUInt8, i.toUInt8]

/-- `big.Int.Bits`: the machine words of a number, the least significant first,
none for zero. -/
def Bits (n : ℕ) : List UInt64 := if n = 0 then [] else UInt64.ofNat n :: Bits (n / 2 ^ 64)
decreasing_by omega

/-- `wordBytes`: the bytes of a `big.Word`, on a 64-bit machine. -/
def wordBytes : ℕ := 8

/-- The inner loop of `writeBigInt`: the bytes of the word `d`, the low one
first, into `buf[index-1]`, `buf[index-2]`, …, for as many of the `j` steps left
as `index` allows. -/
def putWord (buf : List UInt8) (index : ℕ) (d : UInt64) : ℕ → List UInt8 × ℕ
  | 0 => (buf, index)
  | j + 1 =>
    if index > 0 then putWord (buf.set (index - 1) d.toUInt8) (index - 1) (d >>> 8) j
    else (buf, index)

/-- The outer loop of `writeBigInt`: one word after the other. -/
def putWords (buf : List UInt8) (index : ℕ) : List UInt64 → List UInt8 × ℕ
  | [] => (buf, index)
  | d :: ds =>
    let (buf, index) := putWord buf index d wordBytes
    putWords buf index ds

/-- `writeBigInt`: `encodeUint` up to 64 bits; above, a string header, as many
zero bytes as the number takes, and the words of `Bits` written into them from
the end. -/
def writeBigInt (i : ℤ) (w : encbuf) : Except RlpError encbuf :=
  if i < 0 then throw .errNegativeBigInt
  else
    let bitlen := Nat.size i.toNat
    if bitlen ≤ 64 then pure (w.encodeUint (UInt64.ofNat i.toNat))
    else
      -- `((bitlen + 7) & -8) >> 3`: `& -8` clears the low three bits
      let length := ((bitlen + 7) - (bitlen + 7) % 8) >>> 3
      let w := w.encodeStringHeader length
      let (buf, _) := putWords (List.replicate length 0) length (Bits i.toNat)
      pure { w with str := w.str ++ buf }

/-! ### The reader of a byte slice -/

/-- `SplitUint64`: a string of at most eight bytes without a leading zero. -/
def SplitUint64 (b : List UInt8) : Except RlpError (UInt64 × List UInt8) :=
  match SplitString b with
  | .error err => throw err
  | .ok (content, rest) =>
    if content.length = 0 then pure (0, rest)
    else if content.length = 1 then
      if content.headD 0 = 0 then throw .ErrCanonInt
      else pure ((content.headD 0).toUInt64, rest)
    else if content.length > 8 then throw .errUintOverflow
    else
      match readSize content content.length with
      | .error _ => throw .ErrCanonInt
      | .ok x => pure (UInt64.ofNat x, rest)

/-! ### What the writers write -/

section Writers

@[simp] theorem encode_nat_zero : (Item.nat 0).encode = [0x80] := by
  simp [Item.nat, encodeString, header]

/-- A number below `128` is its own byte. -/
theorem encode_nat_of_lt_128 {n : ℕ} (h0 : 0 < n) (h : n < 128) : (Item.nat n).encode = [UInt8.ofNat n] := by
  have hb : ¬ 128 ≤ n % 256 := by omega
  simp [Item.nat, beBytes_of_lt_256 h0 (by omega), encodeString, hb]

/-- Bytes without a leading zero that stand for a number of `128` or more, at
most 55 of them, are its minimal bytes behind a one-byte header. -/
theorem encode_nat_of_beValue {n : ℕ} {bs : List UInt8} (hv : beValue bs = n) (hh : bs.headD 0 ≠ 0)
    (h128 : 128 ≤ n) (h55 : bs.length ≤ 55) :
    (Item.nat n).encode = UInt8.ofNat (0x80 + bs.length) :: bs := by
  have hbs : beBytes n = bs := hv ▸ beBytes_beValue hh
  have hnot : ∀ b, beBytes n = [b] → 0x80 ≤ b.toNat := by
    intro b hb
    rw [toNat_of_beBytes_eq hb]
    exact h128
  rw [Item.nat, encode_str, encodeString_of_not_byte hnot, hbs, header_of_le h55, List.singleton_append]

/-- **`encodeUint` writes the encoding of the number.** -/
theorem encodeUint_eq (w : encbuf) (i : UInt64) :
    w.encodeUint i = { w with str := w.str ++ (Item.nat i.toNat).encode } := by
  have hi := UInt64.toNat_lt i
  unfold encbuf.encodeUint
  split_ifs with h0 h128
  · rw [h0, UInt64.toNat_zero, encode_nat_zero]
  · -- a byte standing for itself
    have hpos : 0 < i.toNat := Nat.pos_of_ne_zero fun h => h0 (UInt64.toNat_inj.mp h)
    rw [UInt64.lt_iff_toNat_lt] at h128
    rw [encode_nat_of_lt_128 hpos (by simpa using h128)]
    simp [UInt64.toUInt8, UInt8.ofNat]
  · -- `putint` writes the minimal bytes, at most eight of them
    rw [UInt64.lt_iff_toNat_lt] at h128
    have hge : 128 ≤ i.toNat := by simpa using h128
    have hput := putint_eq_beBytes (i := i.toNat) (by omega)
    have h8 : (beBytes i.toNat).length ≤ 8 := length_beBytes_le (by simpa using hi)
    rw [encode_nat_of_beValue (beValue_beBytes _) (headD_beBytes_ne_zero (by omega)) hge (by omega),
      hput]
    simp only [encbuf.mk.injEq, List.append_cancel_left_eq, List.cons.injEq, and_true]
    apply UInt8.toNat_inj.mp
    simp only [UInt8.toNat_add, UInt8.toNat_ofNat', UInt8.reduceToNat]
    omega

/-- Bytes standing for a number of `128` or more behind their length tag are
the number's encoding. -/
theorem append_tag_eq_encode {b bs : List UInt8} {tag : UInt8} {n : ℕ} (hv : beValue bs = n)
    (hh : bs.headD 0 ≠ 0) (h128 : 128 ≤ n) (h8 : bs.length ≤ 8) (htag : tag = UInt8.ofNat (0x80 + bs.length)) :
    b ++ tag :: bs = b ++ (Item.nat n).encode := by
  rw [encode_nat_of_beValue hv hh h128 (by omega), htag]

theorem lt_one_shiftLeft_iff (i k : UInt64) (hk : k < 64) : i < (1 : UInt64) <<< k ↔ i.toNat < 2 ^ k.toNat := by
  rw [UInt64.lt_iff_toNat_lt] at hk ⊢
  have hk' : k.toNat < 64 := by simpa using hk
  have hpow : 2 ^ k.toNat < 2 ^ 64 := Nat.pow_lt_pow_right (by decide) hk'
  rw [UInt64.toNat_shiftLeft, UInt64.toNat_one, Nat.shiftLeft_eq, Nat.one_mul, Nat.mod_eq_of_lt hk',
    Nat.mod_eq_of_lt hpow]

/-- **`AppendUint64` writes the encoding of the number.** -/
theorem AppendUint64_eq (b : List UInt8) (i : UInt64) :
    AppendUint64 b i = b ++ (Item.nat i.toNat).encode := by
  have hi := UInt64.toNat_lt i
  unfold AppendUint64
  simp (disch := decide) only [lt_one_shiftLeft_iff, UInt64.reduceToNat, Nat.reducePow]
  simp only [UInt64.lt_iff_toNat_lt, ← UInt64.toNat_inj, UInt64.reduceToNat]
  split_ifs with h0 h1 h2 h3 h4 h5 h6 h7 h8
  · rw [h0, encode_nat_zero]
  · rw [encode_nat_of_lt_128 (by omega) h1]
    simp [UInt64.toUInt8, UInt8.ofNat]
  all_goals
    refine append_tag_eq_encode ?_ ?_ (by omega) (by simp) rfl
    · simp [beValue, UInt64.toNat_shiftRight, UInt64.toNat_toUInt8, Nat.shiftRight_eq_div_pow]
      omega
    · simp [← UInt8.toNat_inj, UInt64.toNat_shiftRight, UInt64.toNat_toUInt8, Nat.shiftRight_eq_div_pow]
      omega

end Writers

/-! ### `writeBigInt` above 64 bits -/

section BigInt

/-- A leading byte counts `256` to the power of the bytes after it. -/
theorem beValue_cons (b : UInt8) (bs : List UInt8) :
    beValue (b :: bs) = b.toNat * 256 ^ bs.length + beValue bs := by
  induction bs using List.reverseRecOn with
  | nil => simp [beValue]
  | append_singleton init c ih =>
    rw [← List.cons_append, beValue_append_singleton, ih, beValue_append_singleton, List.length_append,
      List.length_singleton, pow_succ]
    ring

/-- The minimal bytes of a positive number stand for at least `256` to the
power of all but the first. -/
theorem pow_le_of_beBytes {n : ℕ} (h : 0 < n) : 256 ^ ((beBytes n).length - 1) ≤ n := by
  obtain ⟨b, bs, hb⟩ := List.exists_cons_of_length_pos (length_beBytes_pos h)
  have hb0 : b ≠ 0 := by simpa [hb] using headD_beBytes_ne_zero h
  have hpos : 1 ≤ b.toNat := Nat.pos_of_ne_zero fun h0 => hb0 (UInt8.toNat_inj.mp h0)
  have hv := beValue_beBytes n
  rw [hb, beValue_cons] at hv
  rw [hb, List.length_cons, Nat.add_sub_cancel]
  calc 256 ^ bs.length ≤ b.toNat * 256 ^ bs.length := Nat.le_mul_of_pos_left _ hpos
    _ ≤ n := by omega

/-- **A number takes `⌈bitlen/8⌉` bytes.** -/
theorem length_beBytes_eq_size (n : ℕ) : (beBytes n).length = (Nat.size n + 7) / 8 := by
  rcases Nat.eq_zero_or_pos n with rfl | h
  · simp
  have h256 : ∀ k, (256 : ℕ) ^ k = 2 ^ (8 * k) := fun k => by rw [pow_mul]; rfl
  -- the bytes bound the number from both sides, and so does the bit length
  have hlt : n < 2 ^ (8 * (beBytes n).length) := by
    have := beValue_lt (beBytes n)
    rwa [beValue_beBytes, h256] at this
  have hge : 2 ^ (8 * ((beBytes n).length - 1)) ≤ n := h256 _ ▸ pow_le_of_beBytes h
  have hsize_le : Nat.size n ≤ 8 * (beBytes n).length := Nat.size_le.mpr hlt
  have hsize_gt : 8 * ((beBytes n).length - 1) < Nat.size n := Nat.lt_size.mpr hge
  have hpos := length_beBytes_pos h
  omega

/-- `(x & -8) >> 3` is `x / 8`. -/
theorem clear_low_bits_shift (x : ℕ) : (x - x % 8) >>> 3 = x / 8 := by
  rw [Nat.shiftRight_eq_div_pow]
  omega

theorem encodeStringHeader_eq (w : encbuf) (size : ℕ) :
    w.encodeStringHeader size = { w with str := w.str ++ header 0x80 size } := by
  unfold encbuf.encodeStringHeader
  rw [← puthead_eq_header 0x80 size, puthead]
  split_ifs <;> rfl

/-- The byte `j` steps into `buf` from the end. -/
theorem drop_set_self {l : List UInt8} {i : ℕ} (a : UInt8) (h : i < l.length) :
    (l.set i a).drop i = a :: l.drop (i + 1) := by
  rw [List.drop_eq_getElem_cons (by simpa using h)]
  simp only [List.getElem_set_self, List.cons.injEq, true_and]
  apply List.ext_getElem (by simp)
  intro k h1 h2
  simp only [List.getElem_drop, List.getElem_set]
  rw [if_neg (by omega)]

/-- **The inner loop** writes the low `min j index` bytes of the word in front
of what is already written at `index`, and moves `index` back over them. -/
theorem putWord_spec (j : ℕ) : ∀ (buf : List UInt8) (index : ℕ) (d : UInt64), index ≤ buf.length →
    (putWord buf index d j).1.length = buf.length ∧ (putWord buf index d j).2 = index - min j index ∧
      beValue ((putWord buf index d j).1.drop (putWord buf index d j).2) =
        d.toNat % 256 ^ min j index * 256 ^ (buf.length - index) + beValue (buf.drop index) := by
  induction j with
  | zero => intro buf index d _; simp [putWord, Nat.mod_one]
  | succ j ih =>
    intro buf index d hidx
    rcases Nat.eq_zero_or_pos index with rfl | hpos
    · simp [putWord, Nat.mod_one]
    -- one byte written at `index - 1`, then the rest of the word from there
    have hset : (buf.set (index - 1) d.toUInt8).drop (index - 1) = d.toUInt8 :: buf.drop index := by
      rw [drop_set_self _ (by omega), Nat.sub_add_cancel hpos]
    obtain ⟨hlen, hidx', hval⟩ := ih (buf.set (index - 1) d.toUInt8) (index - 1) (d >>> 8)
      (by simp; omega)
    simp only [putWord, if_pos hpos]
    rw [List.length_set] at hlen hval
    refine ⟨hlen, by omega, ?_⟩
    have hm : min (j + 1) index = min j (index - 1) + 1 := by omega
    have hexp : buf.length - (index - 1) = buf.length - index + 1 := by omega
    -- the word's low `m + 1` bytes: its low byte, and the low `m` of the rest
    have hmod : ∀ x m : ℕ, x % 256 ^ (m + 1) = x % 256 + 256 * (x / 256 % 256 ^ m) := fun x m => by
      rw [pow_succ, Nat.mul_comm, Nat.mod_mul]
    rw [hval, hset, beValue_cons, List.length_drop, UInt64.toNat_shiftRight, UInt64.toNat_toUInt8,
      Nat.shiftRight_eq_div_pow, hm, hexp, hmod]
    simp only [UInt64.reduceToNat, Nat.reduceMod, Nat.reducePow]
    ring

theorem Bits_zero : Bits 0 = [] := by
  rw [Bits, if_pos rfl]

theorem Bits_pos {n : ℕ} (h : 0 < n) : Bits n = UInt64.ofNat n :: Bits (n / 2 ^ 64) := by
  rw [Bits, if_neg (by omega)]

/-- The words of `Bits` hold the number. -/
theorem lt_pow_length_Bits (n : ℕ) : n < 2 ^ (64 * (Bits n).length) := by
  induction n using Nat.strong_induction_on with
  | _ n ih =>
    rcases Nat.eq_zero_or_pos n with rfl | h
    · simp [Bits_zero]
    · have := ih (n / 2 ^ 64) (Nat.div_lt_self h (by decide))
      rw [Bits_pos h, List.length_cons, Nat.mul_add, Nat.mul_one, pow_add]
      have h64 : 0 < 2 ^ 64 := by decide
      calc n < 2 ^ 64 * (n / 2 ^ 64 + 1) := Nat.lt_mul_div_succ n h64
        _ ≤ 2 ^ 64 * 2 ^ (64 * (Bits (n / 2 ^ 64)).length) := Nat.mul_le_mul_left _ this
        _ = 2 ^ (64 * (Bits (n / 2 ^ 64)).length) * 2 ^ 64 := Nat.mul_comm _ _

theorem putWords_cons (buf : List UInt8) (index : ℕ) (d : UInt64) (ds : List UInt64) :
    putWords buf index (d :: ds) =
      putWords (putWord buf index d wordBytes).1 (putWord buf index d wordBytes).2 ds := by
  simp only [putWords]

/-- **The outer loop** writes the low `min (8 · words) index` bytes of the
number in front of `index`, and moves `index` back over them: induction on the
number along the recursion of `Bits`, one word per step. -/
theorem putWords_Bits (n : ℕ) : ∀ (buf : List UInt8) (index : ℕ), index ≤ buf.length →
    (putWords buf index (Bits n)).1.length = buf.length ∧
      (putWords buf index (Bits n)).2 = index - min (8 * (Bits n).length) index ∧
      beValue ((putWords buf index (Bits n)).1.drop (putWords buf index (Bits n)).2) =
        n % 256 ^ min (8 * (Bits n).length) index * 256 ^ (buf.length - index) +
          beValue (buf.drop index) := by
  induction n using Nat.strong_induction_on with
  | _ n ih =>
    intro buf index hidx
    rcases Nat.eq_zero_or_pos n with rfl | h
    · simp [Bits_zero, putWords, Nat.mod_one]
    -- the low word first, then the rest of the number from where it stopped
    obtain ⟨hlen₁, hidx₁, hval₁⟩ := putWord_spec wordBytes buf index (UInt64.ofNat n) hidx
    obtain ⟨hlen₂, hidx₂, hval₂⟩ := ih (n / 2 ^ 64) (Nat.div_lt_self h (by decide))
      (putWord buf index (UInt64.ofNat n) wordBytes).1 (putWord buf index (UInt64.ofNat n) wordBytes).2
      (by rw [hlen₁, hidx₁]; omega)
    rw [Bits_pos h, putWords_cons]
    refine ⟨by rw [hlen₂, hlen₁], by rw [hidx₂, hidx₁, List.length_cons, wordBytes]; omega, ?_⟩
    rw [hval₂, hval₁, hlen₁, hidx₁, wordBytes, UInt64.toNat_ofNat']
    -- the bytes taken from each word add up to those of the number
    set c₁ := min 8 index
    set c₂ := min (8 * (Bits (n / 2 ^ 64)).length) (index - c₁)
    have hc : min (8 * (Bits (n / 2 ^ 64)).length + 8) index = c₁ + c₂ := by omega
    have hexp : buf.length - (index - c₁) = buf.length - index + c₁ := by omega
    have hsplit : n % 256 ^ (c₁ + c₂) = n % 2 ^ 64 % 256 ^ c₁ + 256 ^ c₁ * (n / 2 ^ 64 % 256 ^ c₂) := by
      by_cases hc₂ : c₂ = 0
      · -- the number ran out of room in the first word
        have hdvd : 256 ^ c₁ ∣ 2 ^ 64 :=
          ⟨256 ^ (8 - c₁), by rw [← pow_add, show c₁ + (8 - c₁) = 8 by omega]; rfl⟩
        rw [hc₂, Nat.add_zero, Nat.mod_mod_of_dvd _ hdvd, pow_zero, Nat.mod_one, Nat.mul_zero,
          Nat.add_zero]
      · -- the whole first word, then the next ones
        have hc₁ : c₁ = 8 := by omega
        rw [hc₁, pow_add, Nat.mod_mul, show (256 : ℕ) ^ 8 = 2 ^ 64 from rfl, Nat.mod_mod]
    rw [List.length_cons, Nat.mul_add, Nat.mul_one, hc, hexp, hsplit, pow_add]
    ring

/-- The bytes `writeBigInt` leaves are the minimal bytes of the number. -/
theorem putWords_Bits_eq_beBytes (n : ℕ) :
    (putWords (List.replicate (beBytes n).length 0) (beBytes n).length (Bits n)).1 = beBytes n := by
  set L := (beBytes n).length
  obtain ⟨hlen, hidx, hval⟩ := putWords_Bits n (List.replicate L 0) L (by simp)
  -- there are words enough for every byte, so the loop ends at the front
  have hwords : L ≤ 8 * (Bits n).length := by
    apply length_beBytes_le
    have := lt_pow_length_Bits n
    rwa [show 64 * (Bits n).length = 8 * (8 * (Bits n).length) by ring, pow_mul] at this
  have hlt : n < 256 ^ L := by
    have := beValue_lt (beBytes n)
    rwa [beValue_beBytes] at this
  have hdrop : (List.replicate L (0 : UInt8)).drop L = [] := List.drop_eq_nil_of_le (by simp)
  have hnil : beValue [] = 0 := rfl
  rw [List.length_replicate] at hlen
  rw [hidx, show L - min (8 * (Bits n).length) L = 0 by omega, List.drop_zero, hdrop, hnil,
    List.length_replicate, Nat.sub_self, pow_zero, Nat.mul_one, Nat.add_zero,
    show min (8 * (Bits n).length) L = L by omega, Nat.mod_eq_of_lt hlt] at hval
  have hpad := replicate_append_beBytes_beValue (putWords (List.replicate L 0) L (Bits n)).1
  rw [show beValue (putWords (List.replicate L 0) L (Bits n)).1 = n from hval, hlen, Nat.sub_self,
    List.replicate_zero, List.nil_append] at hpad
  exact hpad.symm

/-- **`writeBigInt` writes the encoding of the number**, of any size. -/
theorem writeBigInt_eq (n : ℕ) (w : encbuf) :
    writeBigInt n w = .ok { w with str := w.str ++ (Item.nat n).encode } := by
  unfold writeBigInt
  rw [if_neg (Int.not_lt.mpr (Int.natCast_nonneg n))]
  simp only [Int.toNat_natCast]
  split_ifs with hsize
  · -- at most 64 bits: `encodeUint`
    rw [encodeUint_eq, UInt64.toNat_ofNat_of_lt' (Nat.size_le.mp hsize)]
    rfl
  · -- a header for `⌈bitlen/8⌉` bytes, and the words written into them
    have hL : ((Nat.size n + 7) - (Nat.size n + 7) % 8) >>> 3 = (beBytes n).length := by
      rw [clear_low_bits_shift, length_beBytes_eq_size]
    have hbig : 9 ≤ (beBytes n).length := by
      rw [length_beBytes_eq_size]
      omega
    have hnot : ∀ b, beBytes n = [b] → 0x80 ≤ b.toNat := by
      intro b hb
      rw [hb] at hbig
      simp at hbig
    simp only [hL, putWords_Bits_eq_beBytes, encodeStringHeader_eq, Item.nat, encode_str,
      encodeString_of_not_byte hnot, List.append_assoc]
    rfl

end BigInt

/-! ### What `SplitUint64` reads -/

section Split

/-- What `SplitString` accepts is a string's encoding. -/
theorem encodeString_of_SplitString {b content rest : List UInt8}
    (h : SplitString b = .ok (content, rest)) : b = Rlp.encodeString content ++ rest := by
  obtain ⟨⟨k, c, r⟩, hs, h⟩ := Except.bind_eq_ok.mp h
  simp only [Except.ite_throw_eq_ok, Except.pure_eq_ok, Prod.mk.injEq] at h
  obtain ⟨hk, rfl, rfl⟩ := h
  rcases Split_eq_ok hs with ⟨hl, -⟩ | ⟨-, hb⟩
  · exact absurd hl hk
  · exact hb

/-- A number of two bytes or more is at least `256`, and the other way round. -/
theorem two_le_length_beBytes {n : ℕ} (h : 256 ≤ n) : 2 ≤ (beBytes n).length := by
  have hlt : n < 256 ^ (beBytes n).length := by
    have := beValue_lt (beBytes n)
    rwa [beValue_beBytes] at this
  by_contra hle
  have hpow : 256 ^ (beBytes n).length ≤ 256 ^ 1 := Nat.pow_le_pow_right (by decide) (by omega)
  omega

/-- **`SplitUint64` reads back the encoding of a `uint64`**, and leaves what
follows. -/
theorem SplitUint64_encode (i : UInt64) (rest : List UInt8) :
    SplitUint64 ((Item.nat i.toNat).encode ++ rest) = .ok (i, rest) := by
  have hi := UInt64.toNat_lt i
  have h8 : (beBytes i.toNat).length ≤ 8 := length_beBytes_le (by simpa using hi)
  rw [Item.nat, encode_str]
  unfold SplitUint64
  rw [SplitString_encodeString _ _ (by omega)]
  dsimp only
  rcases Nat.eq_zero_or_pos i.toNat with h0 | hpos
  · -- zero: the empty string
    obtain rfl : i = 0 := UInt64.toNat_inj.mp h0
    simp
  rcases Nat.lt_or_ge i.toNat 256 with hsmall | hbig
  · -- one byte, not zero
    have hb := beBytes_of_lt_256 hpos hsmall
    have hne : UInt8.ofNat i.toNat ≠ 0 := by
      intro h
      have := congrArg UInt8.toNat h
      simp at this
      omega
    simp only [hb, List.length_singleton, List.headD_cons, hne, if_false, if_true, Nat.one_ne_zero,
      Except.pure_eq_ok, Prod.mk.injEq, and_true]
    apply UInt64.toNat_inj.mp
    simp
    omega
  · -- two to eight bytes: a size that `readSize` accepts
    have h2 := two_le_length_beBytes hbig
    have hread : readSize (beBytes i.toNat) (beBytes i.toNat).length = .ok i.toNat := by
      simpa using readSize_beBytes (by omega : 56 ≤ i.toNat) []
    rw [if_neg (by omega), if_neg (by omega), if_neg (by omega), hread]
    simp

/-- **What `SplitUint64` accepts is the encoding of the number it returns**,
and what follows. -/
theorem encode_of_SplitUint64 {b rest : List UInt8} {x : UInt64} (h : SplitUint64 b = .ok (x, rest)) :
    b = (Item.nat x.toNat).encode ++ rest := by
  unfold SplitUint64 at h
  split at h
  · exact absurd h Except.throw_ne_ok
  rename_i content rest' hs
  rw [encodeString_of_SplitString hs, Item.nat, encode_str]
  -- the guards that throw close themselves
  split_ifs at h with h0 h1 hz h8
  · -- the empty string is zero
    obtain ⟨rfl, rfl⟩ := Prod.mk.inj (Except.pure_eq_ok.mp h)
    rw [List.length_eq_zero_iff.mp h0]
    simp
  · -- one byte other than zero
    obtain ⟨rfl, rfl⟩ := Prod.mk.inj (Except.pure_eq_ok.mp h)
    obtain ⟨c, rfl⟩ := List.length_eq_one_iff.mp h1
    have hc : beBytes c.toNat = [c] := by
      simpa [beValue] using @beBytes_beValue [c] (by simpa using hz)
    rw [List.headD_cons, UInt8.toNat_toUInt64, hc]
  · -- two to eight bytes without a leading zero
    split at h
    · exact absurd h Except.throw_ne_ok
    rename_i s hread
    obtain ⟨rfl, rfl⟩ := Prod.mk.inj (Except.pure_eq_ok.mp h)
    obtain ⟨-, hs, -, hhead⟩ := readSize_eq_ok.mp hread
    rw [List.take_length] at hs
    have hlt : s < 2 ^ 64 := by
      have := beValue_lt content
      have hpow : 256 ^ content.length ≤ 256 ^ 8 := Nat.pow_le_pow_right (by decide) (by omega)
      rw [hs]
      exact Nat.lt_of_lt_of_le this (hpow.trans (by decide))
    rw [UInt64.toNat_ofNat_of_lt' hlt, hs, beBytes_beValue hhead]

end Split

/-! ### The stream readers on a byte slice -/

section Streams

variable {enc rest : List UInt8}

/-- The stream over a slice that starts with an encoding has room for it. -/
theorem Reset_Fits_append (hlen : (enc ++ rest).length < 2 ^ 64) :
    (Stream.Reset (enc ++ rest) (UInt64.ofNat (enc ++ rest).length)).Fits enc.length :=
  (Reset_Fits _ hlen).mono (by simp)

/-- `Stream.Uint` reads a `uint64` back from the front of a slice. -/
theorem decodeUint_Reset (i : UInt64) (hlen : ((Item.nat i.toNat).encode ++ rest).length < 2 ^ 64) :
    ∃ s', decodeUint (Stream.Reset ((Item.nat i.toNat).encode ++ rest)
      (UInt64.ofNat ((Item.nat i.toNat).encode ++ rest).length)) = .ok (i, s') ∧ s'.r = rest := by
  obtain ⟨s', hd, hm, -⟩ := decodeUint_encode rfl rfl (Reset_Fits_append hlen)
  exact ⟨s', hd, by rw [hm.r]; simp [Stream.Reset]⟩

/-- `decodeBigInt` reads a number of any size back from the front of a slice. -/
theorem decodeBigInt_Reset (n : ℕ) (hlen : ((Item.nat n).encode ++ rest).length < 2 ^ 64) :
    ∃ s', decodeBigInt (Stream.Reset ((Item.nat n).encode ++ rest)
      (UInt64.ofNat ((Item.nat n).encode ++ rest).length)) = .ok (some (n : ℤ), s') ∧ s'.r = rest := by
  have hn : (beBytes n).length < 2 ^ 64 := by
    have := length_le_encodeString (beBytes n)
    rw [Item.nat, encode_str, List.length_append] at hlen
    omega
  obtain ⟨s', hd, hm, -⟩ := decodeBigInt_encode rfl hn rfl (Reset_Fits_append hlen)
  exact ⟨s', hd, by rw [hm.r]; simp [Stream.Reset]⟩

end Streams

/-! ### Non-canonical integers -/

section Canonical

/-- Each of the three integer readers returns an error on `b`: `SplitUint64`,
and `Stream.Uint` (which is `decodeUint`) and `decodeBigInt` on a stream over
`b`. -/
def IntRejected (b : List UInt8) : Prop :=
  (∀ x, SplitUint64 b ≠ .ok x) ∧
    (∀ x, decodeUint (Stream.Reset b (UInt64.ofNat b.length)) ≠ .ok x) ∧
    (∀ x, decodeBigInt (Stream.Reset b (UInt64.ofNat b.length)) ≠ .ok x)

/-- Bytes that start with no number's encoding are rejected by every reader,
since each accepts only such an encoding. -/
theorem IntRejected_of_not_encode {b : List UInt8} (h : ∀ n rest, b ≠ (Item.nat n).encode ++ rest) :
    IntRejected b := by
  refine ⟨fun ⟨x, rest⟩ hs => h _ _ (encode_of_SplitUint64 hs), fun ⟨v, s'⟩ hd => ?_,
    fun ⟨v, s'⟩ hd => ?_⟩
  · exact h _ _ (encode_of_decodeUint (s := Stream.Reset b _) rfl hd).1
  · obtain ⟨n, -, hr, -⟩ := encode_of_decodeBigInt (s := Stream.Reset b _) rfl hd
    exact h _ _ hr

/-- A string whose first byte is zero is no number's encoding. -/
theorem not_nat_encode_leading_zero {c rest rest' : List UInt8} {n : ℕ} (hc : c ≠ [])
    (hz : c.headD 0 = 0) (hlen : (Rlp.encodeString c ++ rest).length < 2 ^ 64) :
    Rlp.encodeString c ++ rest ≠ (Item.nat n).encode ++ rest' := by
  intro h
  rw [Item.nat, encode_str] at h
  have hlen' : (beBytes n).length < 2 ^ 64 := by
    have := congrArg List.length h
    have := length_le_encodeString (beBytes n)
    simp only [List.length_append] at *
    omega
  have hlenc : c.length < 2 ^ 64 := by
    have := length_le_encodeString c
    simp only [List.length_append] at hlen
    omega
  obtain ⟨rfl, -⟩ := encodeString_append_inj hlenc hlen' h
  rcases Nat.eq_zero_or_pos n with rfl | hpos
  · exact hc beBytes_zero
  · exact headD_beBytes_ne_zero hpos hz

/-- A single byte below `0x80` behind a header is no number's encoding. -/
theorem not_nat_encode_wrapped {y : UInt8} {rest rest' : List UInt8} {n : ℕ} (hy : y.toNat < 0x80)
    (hlen : (0x81 :: y :: rest).length < 2 ^ 64) :
    0x81 :: y :: rest ≠ (Item.nat n).encode ++ rest' := by
  intro h
  rw [Item.nat, encode_str] at h
  rcases encodeString_cases (beBytes n) with ⟨z, -, hz, he⟩ | he
  · -- a byte that stands for itself is not `0x81`
    rw [he] at h
    have := congrArg UInt8.toNat (List.cons_eq_cons.mp h).1
    simp at this
    omega
  · -- a header: of one byte, which would have stood for itself
    have hlen' : (beBytes n).length < 2 ^ 64 := by
      have := congrArg List.length h
      rw [he] at this
      simp only [List.length_append, List.length_cons] at this hlen
      omega
    have hwrap : 0x81 :: y :: rest = header 0x80 1 ++ [y] ++ rest := by
      simp [header]
    rw [hwrap, he, List.append_assoc, List.append_assoc] at h
    obtain ⟨h1, h⟩ := header_append_inj (by decide) hlen' h
    obtain ⟨z, hz⟩ := List.length_eq_one_iff.mp h1.symm
    rw [hz, List.singleton_append, List.singleton_append] at h
    obtain ⟨rfl, -⟩ := List.cons_eq_cons.mp h
    have := not_byte_of_encodeString_eq he y hz
    omega

end Canonical

/-- **RLP integers are written one way, read back, and only canonically.**
`encodeUint`, `AppendUint64` and `writeBigInt` all write the string of the
number's minimal big-endian bytes (`0x80` for zero); `SplitUint64`,
`Stream.Uint` and `decodeBigInt` read the number back from those bytes followed
by anything, leaving what follows; and all three reject a string whose first
byte is zero (the single byte `0x00` among them) and a single byte below `0x80`
behind a header. The bound `2^64` is that of a Go slice's length. -/
theorem encodeUint_decode_canonical :
    (∀ (w : encbuf) (i : UInt64), w.encodeUint i = { w with str := w.str ++ (Item.nat i.toNat).encode }) ∧
    (∀ (b : List UInt8) (i : UInt64), AppendUint64 b i = b ++ (Item.nat i.toNat).encode) ∧
    (∀ (w : encbuf) (n : ℕ), writeBigInt n w = .ok { w with str := w.str ++ (Item.nat n).encode }) ∧
    (Item.nat 0).encode = [0x80] ∧
    (∀ (i : UInt64) (rest : List UInt8),
      SplitUint64 ((Item.nat i.toNat).encode ++ rest) = .ok (i, rest)) ∧
    (∀ (i : UInt64) (rest : List UInt8), ((Item.nat i.toNat).encode ++ rest).length < 2 ^ 64 →
      ∃ s', decodeUint (Stream.Reset ((Item.nat i.toNat).encode ++ rest)
        (UInt64.ofNat ((Item.nat i.toNat).encode ++ rest).length)) = .ok (i, s') ∧ s'.r = rest) ∧
    (∀ (n : ℕ) (rest : List UInt8), ((Item.nat n).encode ++ rest).length < 2 ^ 64 →
      ∃ s', decodeBigInt (Stream.Reset ((Item.nat n).encode ++ rest)
        (UInt64.ofNat ((Item.nat n).encode ++ rest).length)) = .ok (some (n : ℤ), s') ∧ s'.r = rest) ∧
    (∀ c rest : List UInt8, c ≠ [] → c.headD 0 = 0 → (Rlp.encodeString c ++ rest).length < 2 ^ 64 →
      IntRejected (Rlp.encodeString c ++ rest)) ∧
    (∀ (y : UInt8) (rest : List UInt8), y.toNat < 0x80 → (0x81 :: y :: rest).length < 2 ^ 64 →
      IntRejected (0x81 :: y :: rest)) := by
  refine ⟨encodeUint_eq, AppendUint64_eq, fun w n => writeBigInt_eq n w, encode_nat_zero, SplitUint64_encode,
    fun i rest => decodeUint_Reset i, fun n rest => decodeBigInt_Reset n, ?_, ?_⟩
  · intro c rest hc hz hlen
    exact IntRejected_of_not_encode fun n rest' => not_nat_encode_leading_zero hc hz hlen
  · intro y rest hy hlen
    exact IntRejected_of_not_encode fun n rest' => not_nat_encode_wrapped hy hlen

/-- `0x81 0x05` is rejected, `5` wrapped in a header. -/
theorem encodeUint_decode_canonical_wrapped : (5 : UInt8).toNat < 0x80 ∧ IntRejected [0x81, 5] :=
  ⟨by decide, encodeUint_decode_canonical.2.2.2.2.2.2.2.2 5 [] (by decide) (by decide)⟩

end rlp

end PureChain
