import Mathlib
import PureChain.Rlp.Stream

/-!
# Package `rlp`: decoding into Go values

`Decode` into a Go value runs the decoder `makeDecoder` builds for the value's
type: `uint` for an unsigned integer, `decodeBigInt` for a `*big.Int`,
`decodeByteArray` for a `[n]byte`, `Bytes` for a `[]byte`, `makeNilPtrDecoder`
for a pointer field tagged `rlp:"nil"`, `decodeListSlice` for any other slice,
and the struct decoder, which reads the fields in order inside a list. Each is
here with the writer `makeWriter` builds for the same type, as a `Codec`: the
item the writer writes for a value, or its error, and the decoder.

A codec meets `Codec.Spec` when its decoder reads back what its writer wrote and
consumes exactly the encoding (`complete`), and what it accepts is the encoding
of the value it returns (`sound`). The decoders of basic types meet it one by
one; the slice and struct decoders meet it whenever their element and field
codecs do. So does a struct of such fields, a transaction for one: it is read
back from its encoding, and read only from the encoding of the value returned
(`Codec.DecodeBytes_encode`, `Codec.encode_of_DecodeBytes`).

A decoder may read back another value than the one written: a nil `*big.Int` is
written as zero and read as a pointer to zero. `read` says which.
-/

namespace PureChain

namespace rlp

open Rlp

/-! ### The decoders of basic types -/

/-- `uint`: an unsigned integer of at most `maxbits` bits, as a string without
leading zero. -/
def Stream.uint (s : Stream) (maxbits : ℕ) : Except RlpError (UInt64 × Stream) := do
  let ((kind, size), s) ← s.Kind
  match kind with
  | .Byte =>
    if s.byteval = 0 then throw .ErrCanonInt
    else pure (s.byteval.toUInt64, { s with kind := none })
  | .String =>
    if size > UInt64.ofNat (maxbits / 8) then throw .errUintOverflow
    else
      match s.readUint size.toNat with
      -- a leading zero makes a non-canonical integer here, not a size
      | .error .ErrCanonSize => throw .ErrCanonInt
      | .error err => throw err
      | .ok (v, s) => if size > 0 ∧ v < 128 then throw .ErrCanonSize else pure (v, s)
  | .List => throw .ErrExpectedString

/-- `decodeUint` into a `uint64`. -/
def decodeUint (s : Stream) : Except RlpError (UInt64 × Stream) := s.uint 64

/-- `decodeBigInt`: a `*big.Int` from a string without leading zero; the value
is the pointer it sets. -/
def decodeBigInt (s : Stream) : Except RlpError (Option ℤ × Stream) := do
  let ((kind, size), s) ← s.Kind
  let (buffer, s) ← (match kind with
    | .List => throw .ErrExpectedString
    | .Byte => pure ([s.byteval], { s with kind := none })
    | .String =>
      if size = 0 then pure ([], { s with kind := none })
      else if size ≤ 32 then do
        let (buffer, s) ← s.readFull size
        -- a single byte below `0x80` is its own encoding
        if size = 1 ∧ buffer.headD 0 < 128 then throw .ErrCanonSize else pure (buffer, s)
      else s.readFull size : Except RlpError (List UInt8 × Stream))
  if buffer ≠ [] ∧ buffer.headD 0 = 0 then throw .ErrCanonInt
  else pure (some (beValue buffer : ℤ), s)

/-- `decodeByteArray` into a `[n]byte`: a string of exactly `n` bytes. -/
def decodeByteArray (n : ℕ) (s : Stream) : Except RlpError (List UInt8 × Stream) := do
  let ((kind, size), s) ← s.Kind
  match kind with
  | .Byte =>
    if n = 0 then throw .errInputStringTooLong
    else if n > 1 then throw .errInputStringTooShort
    else pure ([s.byteval], { s with kind := none })
  | .String =>
    if UInt64.ofNat n < size then throw .errInputStringTooLong
    else if UInt64.ofNat n > size then throw .errInputStringTooShort
    else
      let (slice, s) ← s.readFull size
      if size = 1 ∧ slice.headD 0 < 128 then throw .ErrCanonSize else pure (slice, s)
  | .List => throw .ErrExpectedString

/-- `makeNilPtrDecoder`: an empty value of kind `nilKind` is a nil pointer, and
nothing is read for it; any other value is decoded by `dec`. -/
def makeNilPtrDecoder {α : Type} (nilKind : Kind) (dec : Stream → Except RlpError (α × Stream))
    (s : Stream) : Except RlpError (Option α × Stream) :=
  match s.Kind with
  | .error err => throw err
  | .ok ((kind, size), s) =>
    if kind ≠ .Byte ∧ size = 0 then
      if kind ≠ nilKind then throw .errWrongKindOfEmptyValue
      else pure (none, { s with kind := none })
    else do
      let (v, s) ← dec s
      pure (some v, s)

/-! ### Codecs -/

/-- The writer and the decoder `makeWriter` and `makeDecoder` build for a Go
type: the item written for a value, or the writer's error; the decoder; and the
value the decoder gives back for one written (`read`). -/
structure Codec (α : Type) where
  write : α → Except RlpError Item
  decode : Stream → Except RlpError (α × Stream)
  read : α → α

/-- The fields of a struct, in order, with their values as nested pairs. -/
structure Fields (α : Type) where
  write : α → Except RlpError (List Item)
  decode : Stream → Except RlpError (α × Stream)
  read : α → α

variable {α β γ : Type}

/-- `uint64`: `writeUint` and `decodeUint`. -/
def Codec.uint64 : Codec UInt64 where
  write v := pure (.nat v.toNat)
  decode := decodeUint
  read := id

/-- `*big.Int`: `writeBigIntPtr`, which writes nil as zero and refuses a
negative number, and `decodeBigInt`. -/
def Codec.bigInt : Codec (Option ℤ) where
  write
    | none => pure (.nat 0)
    | some v => if v < 0 then throw .errNegativeBigInt else pure (.nat v.toNat)
  decode := decodeBigInt
  read v := some (v.getD 0)

/-- `[n]byte`: `writeByteArray` and `decodeByteArray`. -/
def Codec.byteArray (n : ℕ) : Codec (Vector UInt8 n) where
  write v := pure (.str v.toList)
  decode s := do
    let (b, s) ← decodeByteArray n s
    pure (Vector.ofFn fun i => b.getD i 0, s)
  read := id

/-- `[]byte`: `writeBytes` and `decodeByteSlice`, which is `Bytes`. -/
def Codec.bytes : Codec (List UInt8) where
  write b := pure (.str b)
  decode s := s.Bytes
  read := id

/-- The empty value of a kind: the empty string, or the empty list. -/
def emptyValue (nilKind : Kind) : Item := if nilKind = .String then .str [] else .list []

/-- A pointer tagged `rlp:"nil"`: nil is written as the empty value of
`nilKind`, and read by `makeNilPtrDecoder`. -/
def Codec.nilPtr (nilKind : Kind) (c : Codec α) : Codec (Option α) where
  write
    | none => pure (emptyValue nilKind)
    | some v => c.write v
  decode := makeNilPtrDecoder nilKind c.decode
  read := Option.map c.read

/-- A slice of another type than bytes: its elements in a list, read by
`decodeListSlice`. -/
def Codec.slice (c : Codec α) : Codec (List α) where
  write vs := Item.list <$> vs.mapM c.write
  decode := decodeListSlice c.decode (2 ^ 64)
  read := List.map c.read

/-- A struct with no fields left. -/
def Fields.nil : Fields Unit where
  write _ := pure []
  decode s := pure ((), s)
  read := id

/-- The struct decoder's error for a field: `EOL`, the list ending before the
field, is too few elements. -/
def fieldError : RlpError → RlpError
  | .EOL => .errTooFewElements
  | err => err

/-- One more field before the others. -/
def Fields.cons (c : Codec β) (f : Fields γ) : Fields (β × γ) where
  write v := do
    let t ← c.write v.1
    let ts ← f.write v.2
    pure (t :: ts)
  decode s := do
    let (v, s) ← (c.decode s).mapError fieldError
    let (vs, s) ← f.decode s
    pure ((v, vs), s)
  read v := (c.read v.1, f.read v.2)

/-- A struct: `makeStructWriter` writes its fields in a list, and the decoder of
`makeStructDecoder` reads them inside one. The struct is built from the values
of its fields by `mk`, and `get` takes them apart. -/
def Codec.struct (f : Fields α) (mk : α → β) (get : β → α) : Codec β where
  write v := Item.list <$> f.write (get v)
  decode s := do
    let (_, s) ← s.List
    let (v, s) ← f.decode s
    let s ← s.ListEnd
    pure (mk v, s)
  read v := mk (f.read (get v))

/-- The codec of a type whose values are those of another, through `mk` and
`get`. -/
def Codec.map (c : Codec α) (mk : α → β) (get : β → α) : Codec β where
  write v := c.write (get v)
  decode s := do
    let (v, s) ← c.decode s
    pure (mk v, s)
  read v := mk (c.read (get v))

/-- `DecodeBytes` into a value of the codec's type: one value, and no bytes after
it. -/
def Codec.DecodeBytes (c : Codec α) (b : List UInt8) : Except RlpError α := do
  let s := Stream.Reset b (UInt64.ofNat b.length)
  let (val, s) ← c.decode s
  if s.r.length > 0 then throw .ErrMoreThanOneValue else pure val

/-- `EncodeToBytes` of a value of the codec's type. -/
def Codec.EncodeToBytes (c : Codec α) (v : α) : Except RlpError (List UInt8) :=
  rlp.EncodeToBytes <$> c.write v

/-! ### What a codec guarantees -/

/-- The decoder reads back what the writer wrote, from a stream with no kind
cached, consuming exactly the encoding (`complete`); what it accepts is an
encoding the writer writes for the value returned (`sound`); at the end of a
list it reports `EOL`, as `Kind` does (`eol`); and after `Kind` it decodes as it
would have before (`cached`). -/
structure Codec.Spec (c : Codec α) : Prop where
  complete : ∀ v t, c.write v = .ok t → t.encode.length < 2 ^ 64 →
    ∀ (s : Stream) rest, s.r = t.encode ++ rest → s.Fits t.encode.length → s.kind = none →
      ∃ s', c.decode s = .ok (c.read v, s') ∧ s.Moved s' t.encode.length ∧ s'.kind = none
  sound : ∀ (s : Stream) v s', s.kind = none → s.r.length < 2 ^ 64 → c.decode s = .ok (v, s') →
    ∃ t, c.write v = .ok t ∧ s.r = t.encode ++ s'.r ∧ s.Moved s' t.encode.length ∧
      s'.kind = none
  eol : ∀ s : Stream, s.kind = none → s.stack.head? = some 0 → c.decode s = .error .EOL
  cached : ∀ (s s₁ : Stream) x, s.kind = none → s.Kind = .ok (x, s₁) → c.decode s₁ = c.decode s

/-- `Codec.Spec` for the fields of a struct, read one after the other. -/
structure Fields.Spec (f : Fields α) : Prop where
  complete : ∀ v ts, f.write v = .ok ts → (Item.encodeAll ts).length < 2 ^ 64 →
    ∀ (s : Stream) rest, s.r = Item.encodeAll ts ++ rest → s.Fits (Item.encodeAll ts).length →
      s.kind = none →
      ∃ s', f.decode s = .ok (f.read v, s') ∧ s.Moved s' (Item.encodeAll ts).length ∧
        s'.kind = none
  sound : ∀ (s : Stream) v s', s.kind = none → s.r.length < 2 ^ 64 → f.decode s = .ok (v, s') →
    ∃ ts, f.write v = .ok ts ∧ s.r = Item.encodeAll ts ++ s'.r ∧
      s.Moved s' (Item.encodeAll ts).length ∧ s'.kind = none

/-! ### Unsigned integers -/

section Uint

variable {s s' : Stream} {v : UInt64}

/-- **`decodeUint` reads back a written `uint64`**, and consumes its encoding. -/
theorem decodeUint_encode {rest} (hk : s.kind = none)
    (hr : s.r = (Item.nat v.toNat).encode ++ rest) (hf : s.Fits (Item.nat v.toNat).encode.length) :
    ∃ s', decodeUint s = .ok (v, s') ∧ s.Moved s' (Item.nat v.toNat).encode.length ∧
      s'.kind = none := by
  have h8 : (beBytes v.toNat).length ≤ 8 :=
    length_beBytes_le (Nat.lt_of_lt_of_eq v.toNat_lt (by decide))
  rw [Item.nat, encode_str] at hr hf ⊢
  rcases encodeString_cases (beBytes v.toNat) with ⟨y, hy, hy80, he⟩ | he
  · -- from `1` to `0x7F`: the byte is its own encoding
    rw [he] at hr hf ⊢
    have hyv := toNat_of_beBytes_eq hy
    have hy0 : y ≠ 0 := by
      rintro rfl
      rw [← hyv, UInt8.toNat_zero, beBytes_zero] at hy
      exact List.cons_ne_nil _ _ hy.symm
    have hd : decodeUint s =
        .ok (v, { s.skip 1 with byteval := y, kind := none, size := 0, kinderr := none }) := by
      simp only [decodeUint, Stream.uint, Stream.Kind_byte_item hk hy80 hr hf, Except.bind_ok,
        if_neg hy0, Except.pure_eq_ok, Prod.mk.injEq, and_true]
      exact UInt64.toNat_inj.mp (by rw [UInt8.toNat_toUInt64, hyv])
    exact ⟨_, hd, ⟨rfl, rfl, rfl, rfl⟩, rfl⟩
  · -- zero, or from `0x80` on: a string header, then the bytes
    have hbig := eq_zero_or_le_of_encodeString he
    rw [he, List.length_append] at hf ⊢
    rw [he, List.append_assoc] at hr
    obtain ⟨s₁, hK, hm, -⟩ :=
      Stream.Kind_string_item hk (by omega) (not_byte_of_encodeString_eq he) hr hf
    have hr₁ : s₁.r = beBytes v.toNat ++ rest := by rw [hm.r, hr, List.drop_left]
    have hsz := UInt64.toNat_ofNat_of_lt' (n := (beBytes v.toNat).length)
      (Nat.lt_of_le_of_lt h8 (by decide))
    have hfit : ¬ UInt64.ofNat (beBytes v.toNat).length > UInt64.ofNat (64 / 8) := by
      rw [gt_iff_lt, UInt64.lt_iff_toNat_lt, hsz, show (UInt64.ofNat (64 / 8)).toNat = 8 from rfl]
      omega
    rcases hbig with h0 | h80
    · -- zero: the empty string, and nothing read after the header
      have hv : v = 0 := UInt64.toNat_inj.mp h0
      subst hv
      have hd : decodeUint s = .ok (0, { s₁ with kind := none }) := by
        simp [decodeUint, Stream.uint, hK, Stream.readUint]
        rfl
      exact ⟨_, hd, by simpa using hm.trans (Stream.moved_rearm s₁), rfl⟩
    · -- from `0x80` on: the bytes, without leading zero
      have hread := Stream.readUint_beBytes (by omega) v.toNat_lt hr₁ (hm.fits hf)
      have hd : decodeUint s = .ok (v, s₁.skip (beBytes v.toNat).length) := by
        simp only [decodeUint, Stream.uint, hK, Except.bind_ok, if_neg hfit, hsz, hread,
          UInt64.ofNat_toNat]
        rw [if_neg]
        · rfl
        · rintro ⟨-, hlt⟩
          rw [UInt64.lt_iff_toNat_lt] at hlt
          simp only [UInt64.reduceToNat] at hlt
          omega
      exact ⟨_, hd, hm.trans (Stream.moved_skip _ _), rfl⟩

/-- **What `decodeUint` accepts is the encoding of the number it returns**: a
byte other than zero below `0x80`, or the minimal bytes of a number of `0x80`
and more behind a string header, or the empty string for zero. -/
theorem encode_of_decodeUint (hk : s.kind = none) (h : decodeUint s = .ok (v, s')) :
    s.r = (Item.nat v.toNat).encode ++ s'.r ∧ s.Moved s' (Item.nat v.toNat).encode.length ∧
      s'.kind = none := by
  obtain ⟨⟨⟨kind, size⟩, s₁⟩, hK, h⟩ := Except.bind_eq_ok.mp h
  rw [Item.nat, encode_str]
  cases kind with
  | Byte =>
    -- a byte other than zero, its own encoding
    simp only [Except.ite_throw_eq_ok, Except.pure_eq_ok, Prod.mk.injEq] at h
    obtain ⟨hb0, rfl, rfl⟩ := h
    obtain ⟨hlt, hr, hm, -⟩ := Stream.byte_of_Kind hk hK
    have hpos : 0 < s₁.byteval.toNat := Nat.pos_of_ne_zero fun h0 => hb0 (UInt8.toNat_inj.mp h0)
    have he : encodeString (beBytes s₁.byteval.toUInt64.toNat) = [s₁.byteval] := by
      rw [UInt8.toNat_toUInt64, beBytes_of_lt_256 hpos (by omega), UInt8.ofNat_toNat]
      simp [encodeString, hlt]
    rw [he]
    exact ⟨hr, ⟨hm.r, hm.stack, hm.remaining, hm.limited⟩, rfl⟩
  | String =>
    simp only [Except.ite_throw_eq_ok] at h
    obtain ⟨hfit, h⟩ := h
    have h8 : size.toNat ≤ 8 := by
      rw [gt_iff_lt, UInt64.lt_iff_toNat_lt, show (UInt64.ofNat (64 / 8)).toNat = 8 from rfl] at hfit
      omega
    split at h
    · exact absurd h Except.throw_ne_ok
    · exact absurd h Except.throw_ne_ok
    · rename_i w s₂ hread
      simp only [Except.ite_throw_eq_ok, Except.pure_eq_ok, Prod.mk.injEq] at h
      obtain ⟨hcanon, rfl, rfl⟩ := h
      rcases Nat.eq_zero_or_pos size.toNat with h0 | h0
      · -- the empty string: zero, and nothing read after the header
        rw [h0] at hread
        simp only [Stream.readUint, Except.pure_eq_ok, Prod.mk.injEq] at hread
        obtain ⟨rfl, rfl⟩ := hread
        obtain ⟨hr, hm, -⟩ := Stream.header_of_Kind hk hK (.inl ⟨rfl, rfl⟩)
        rw [h0] at hr hm
        have he : encodeString (beBytes (0 : UInt64).toNat) = header 0x80 0 := by
          simp [encodeString]
        rw [he]
        exact ⟨hr, hm.trans (Stream.moved_rearm s₁), rfl⟩
      · -- the minimal bytes of a number of `0x80` and more
        obtain ⟨bs, hr₂, hlen, hval, hcanon₂, rfl⟩ := Stream.readUint_eq_ok h0 h8 hread
        have h80 : 0x80 ≤ w.toNat := by
          by_contra hlt
          exact hcanon ⟨UInt64.lt_iff_toNat_lt.mpr (by simpa using h0),
            UInt64.lt_iff_toNat_lt.mpr (by simpa using (by omega : w.toNat < 128))⟩
        have hnot : ∀ y, bs = [y] → 0x80 ≤ y.toNat := by
          intro y hy
          simp only [hy, beValue, List.foldl_cons, List.foldl_nil] at hval
          omega
        have hhead : bs.headD 0 ≠ 0 := by
          rcases Nat.lt_or_ge size.toNat 2 with h1 | h2
          · obtain ⟨y, rfl⟩ := List.length_eq_one_iff.mp (by omega : bs.length = 1)
            have := hnot y rfl
            intro hy0
            simp only [List.headD_cons] at hy0
            simp [hy0] at this
          · exact hcanon₂ h2
        rw [hval, beBytes_beValue hhead]
        obtain ⟨hr, hm⟩ := Stream.encodeString_of_content hk hK hlen hr₂
          (by rw [hlen]; exact Stream.moved_skip _ _) hnot
        exact ⟨hr, hm, rfl⟩
  | List => exact absurd h Except.throw_ne_ok

/-- **`uint64` meets the codec's guarantees.** -/
theorem Codec.uint64_spec : Codec.uint64.Spec where
  complete v t hw _ s rest hr hf hk := by
    obtain rfl : Item.nat v.toNat = t := Except.pure_eq_ok.mp hw
    exact decodeUint_encode hk hr hf
  sound s v s' hk _ h := by
    obtain ⟨hr, hm, hk'⟩ := encode_of_decodeUint hk h
    exact ⟨_, rfl, hr, hm, hk'⟩
  eol s hk h0 := by simp [Codec.uint64, decodeUint, Stream.uint, Stream.Kind_EOL hk h0]
  cached s s₁ x hk h := by
    simp only [Codec.uint64, decodeUint, Stream.uint, Stream.Kind_of_Kind hk h, h]

end Uint

/-! ### Big integers -/

section BigInt

variable {s s' : Stream}

/-- What `writeBigIntPtr` writes: the minimal bytes of a number that is not
negative, and nil as zero. -/
theorem Codec.bigInt_write_eq_ok {v : Option ℤ} {t : Item} (h : Codec.bigInt.write v = .ok t) :
    0 ≤ v.getD 0 ∧ t = .nat (v.getD 0).toNat := by
  cases v with
  | none => exact ⟨Int.le_refl 0, (Except.pure_eq_ok.mp h).symm⟩
  | some z =>
    simp only [Codec.bigInt, Except.ite_throw_eq_ok, Except.pure_eq_ok] at h
    exact ⟨by simpa using h.1, h.2.symm⟩

/-- **`decodeBigInt` reads back a written number**, and consumes its encoding. -/
theorem decodeBigInt_encode {n : ℕ} {rest} (hk : s.kind = none) (hn : (beBytes n).length < 2 ^ 64)
    (hr : s.r = (Item.nat n).encode ++ rest) (hf : s.Fits (Item.nat n).encode.length) :
    ∃ s', decodeBigInt s = .ok (some (n : ℤ), s') ∧ s.Moved s' (Item.nat n).encode.length ∧
      s'.kind = none := by
  rw [Item.nat, encode_str] at hr hf ⊢
  rcases encodeString_cases (beBytes n) with ⟨y, hy, hy80, he⟩ | he
  · -- from `1` to `0x7F`: the byte is its own encoding
    rw [he] at hr hf ⊢
    have hyn := toNat_of_beBytes_eq hy
    have hy0 : y ≠ 0 := by
      rintro rfl
      rw [← hyn, UInt8.toNat_zero, beBytes_zero] at hy
      exact List.cons_ne_nil _ _ hy.symm
    have hd : decodeBigInt s =
        .ok (some (n : ℤ), { s.skip 1 with byteval := y, kind := none, size := 0, kinderr := none }) := by
      simp [decodeBigInt, Stream.Kind_byte_item hk hy80 hr hf, hy0, beValue, hyn]
    exact ⟨_, hd, ⟨rfl, rfl, rfl, rfl⟩, rfl⟩
  · -- zero, or from `0x80` on: a string header, then the bytes
    rw [he, List.length_append] at hf ⊢
    rw [he, List.append_assoc] at hr
    obtain ⟨s₁, hK, hm, -, -, -, hfull, hc⟩ :=
      Stream.Kind_string_item hk hn (not_byte_of_encodeString_eq he) hr hf
    rcases Nat.eq_zero_or_pos n with rfl | h0
    · -- zero: the empty string, and nothing read after the header
      have hd : decodeBigInt s = .ok (some 0, { s₁ with kind := none }) := by
        simp [decodeBigInt, hK, beValue]
      exact ⟨_, hd, by simpa using hm.trans (Stream.moved_rearm s₁), rfl⟩
    · -- the bytes in full, without leading zero
      have hsz : UInt64.ofNat (beBytes n).length ≠ 0 := by
        intro h
        have := congrArg UInt64.toNat h
        rw [UInt64.toNat_ofNat_of_lt' hn] at this
        exact Nat.ne_of_gt (length_beBytes_pos h0) this
      have hlead : ¬ (beBytes n ≠ [] ∧ (beBytes n).headD 0 = 0) :=
        fun h => headD_beBytes_ne_zero h0 h.2
      have hd : decodeBigInt s = .ok (some (n : ℤ), s₁.skip (beBytes n).length) := by
        simp only [decodeBigInt, hK, Except.bind_ok, if_neg hsz]
        split_ifs
        · simp only [hfull, Except.bind_ok, if_neg hc, pure_bind, if_neg hlead, beValue_beBytes]
          rfl
        · simp only [hfull, Except.bind_ok, if_neg hlead, beValue_beBytes]
          rfl
      exact ⟨_, hd, hm.trans (Stream.moved_skip _ _), rfl⟩

/-- **What `decodeBigInt` accepts is the encoding of the number it returns**, a
pointer to it. -/
theorem encode_of_decodeBigInt {v : Option ℤ} (hk : s.kind = none)
    (h : decodeBigInt s = .ok (v, s')) :
    ∃ n : ℕ, v = some (n : ℤ) ∧ s.r = (Item.nat n).encode ++ s'.r ∧
      s.Moved s' (Item.nat n).encode.length ∧ s'.kind = none := by
  obtain ⟨⟨⟨kind, size⟩, s₁⟩, hK, h⟩ := Except.bind_eq_ok.mp h
  obtain ⟨⟨buffer, s₂⟩, hbuf, h⟩ := Except.bind_eq_ok.mp h
  simp only [Except.ite_throw_eq_ok, Except.pure_eq_ok, Prod.mk.injEq] at h
  obtain ⟨hlead, rfl, rfl⟩ := h
  refine ⟨beValue buffer, rfl, ?_⟩
  -- the buffer is minimal, so it is the minimal bytes of its value
  have hbe : beBytes (beValue buffer) = buffer := by
    rcases buffer with _ | ⟨b, bs⟩
    · simp [beValue]
    · exact beBytes_beValue fun h0 => hlead ⟨List.cons_ne_nil b bs, h0⟩
  rw [Item.nat, encode_str, hbe]
  cases kind with
  | List => exact absurd hbuf Except.throw_ne_ok
  | Byte =>
    -- a byte below `0x80`, its own encoding
    simp only [Except.pure_eq_ok, Prod.mk.injEq] at hbuf
    obtain ⟨rfl, rfl⟩ := hbuf
    obtain ⟨hlt, hr, hm, -⟩ := Stream.byte_of_Kind hk hK
    have he : encodeString [s₁.byteval] = [s₁.byteval] := by simp [encodeString, hlt]
    rw [he]
    exact ⟨hr, ⟨hm.r, hm.stack, hm.remaining, hm.limited⟩, rfl⟩
  | String =>
    split_ifs at hbuf with h0 h32
    · -- the empty string: nothing read after the header
      simp only [Except.pure_eq_ok, Prod.mk.injEq] at hbuf
      obtain ⟨rfl, rfl⟩ := hbuf
      obtain ⟨hr, hm, -⟩ := Stream.header_of_Kind hk hK (.inl ⟨rfl, rfl⟩)
      rw [h0] at hr hm
      have he : encodeString [] = header 0x80 0 := by simp [encodeString]
      rw [he]
      exact ⟨hr, hm.trans (Stream.moved_rearm s₁), rfl⟩
    · -- up to 32 bytes, not a single one below `0x80`
      obtain ⟨⟨b, s₃⟩, hfull, hbuf⟩ := Except.bind_eq_ok.mp hbuf
      simp only [Except.ite_throw_eq_ok, Except.pure_eq_ok, Prod.mk.injEq] at hbuf
      obtain ⟨hc, rfl, rfl⟩ := hbuf
      obtain ⟨hr, hm, hk', -⟩ := Stream.encodeString_of_readFull hk hK hfull hc
      exact ⟨hr, hm, hk'⟩
    · -- more than 32 bytes
      have hc : ¬ (size = 1 ∧ buffer.headD 0 < 128) := fun h => h32 (by rw [h.1]; decide)
      obtain ⟨hr, hm, hk', -⟩ := Stream.encodeString_of_readFull hk hK hbuf hc
      exact ⟨hr, hm, hk'⟩

/-- **`*big.Int` meets the codec's guarantees.** -/
theorem Codec.bigInt_spec : Codec.bigInt.Spec where
  complete v t hw h64 s rest hr hf hk := by
    obtain ⟨hv, rfl⟩ := Codec.bigInt_write_eq_ok hw
    obtain ⟨s', hd, hm, hk'⟩ := decodeBigInt_encode hk (length_bytes_lt h64) hr hf
    rw [Int.toNat_of_nonneg hv] at hd
    exact ⟨s', hd, hm, hk'⟩
  sound s v s' hk _ h := by
    obtain ⟨n, rfl, hr, hm, hk'⟩ := encode_of_decodeBigInt hk h
    exact ⟨_, by simp [Codec.bigInt], hr, hm, hk'⟩
  eol s hk h0 := by simp [Codec.bigInt, decodeBigInt, Stream.Kind_EOL hk h0]
  cached s s₁ x hk h := by
    simp only [Codec.bigInt, decodeBigInt, Stream.Kind_of_Kind hk h, h]

end BigInt

/-! ### Byte arrays and byte slices -/

section Bytes

variable {s s' : Stream}

/-- The array of `n` bytes read from a list of `n` bytes holds that list. -/
theorem toList_ofFn_getD {n : ℕ} {b : List UInt8} (h : b.length = n) :
    (Vector.ofFn fun i : Fin n => b.getD i 0).toList = b := by
  subst h
  apply List.ext_getElem (by simp)
  intro i h₁ h₂
  simp [List.getD_eq_getElem?_getD]

theorem ofFn_getD_toList {n : ℕ} (v : Vector UInt8 n) :
    Vector.ofFn (fun i : Fin n => v.toList.getD i 0) = v :=
  Vector.toList_inj.mp (toList_ofFn_getD v.length_toList)

/-- **`decodeByteArray` reads back a written array** of `n` bytes. -/
theorem decodeByteArray_encode {c rest} (hk : s.kind = none) (hn : c.length < 2 ^ 64)
    (hr : s.r = encodeString c ++ rest) (hf : s.Fits (encodeString c).length) :
    ∃ s', decodeByteArray c.length s = .ok (c, s') ∧ s.Moved s' (encodeString c).length ∧
      s'.kind = none := by
  rcases encodeString_cases c with ⟨y, rfl, hy80, he⟩ | he
  · -- a byte below `0x80`: an array of one byte
    rw [he] at hr hf ⊢
    have hd : decodeByteArray [y].length s =
        .ok ([y], { s.skip 1 with byteval := y, kind := none, size := 0, kinderr := none }) := by
      simp [decodeByteArray, Stream.Kind_byte_item hk hy80 hr hf]
    exact ⟨_, hd, ⟨rfl, rfl, rfl, rfl⟩, rfl⟩
  · -- a string header of the array's length, then the bytes
    rw [he, List.length_append] at hf ⊢
    rw [he, List.append_assoc] at hr
    obtain ⟨s₁, hK, hm, -, -, -, hfull, hc⟩ :=
      Stream.Kind_string_item hk hn (not_byte_of_encodeString_eq he) hr hf
    have hd : decodeByteArray c.length s = .ok (c, s₁.skip c.length) := by
      simp only [decodeByteArray, hK, Except.bind_ok, UInt64.lt_irrefl, gt_iff_lt, if_false,
        hfull, if_neg hc]
      rfl
    exact ⟨_, hd, hm.trans (Stream.moved_skip _ _), rfl⟩

/-- **What `decodeByteArray` accepts is the encoding of `n` bytes**, those it
returns. -/
theorem encode_of_decodeByteArray {n : ℕ} {c} (hn : n < 2 ^ 64) (hk : s.kind = none)
    (h : decodeByteArray n s = .ok (c, s')) :
    c.length = n ∧ s.r = encodeString c ++ s'.r ∧ s.Moved s' (encodeString c).length ∧
      s'.kind = none := by
  obtain ⟨⟨⟨kind, size⟩, s₁⟩, hK, h⟩ := Except.bind_eq_ok.mp h
  cases kind with
  | Byte =>
    -- an array of one byte, below `0x80`
    simp only [Except.ite_throw_eq_ok, Except.pure_eq_ok, Prod.mk.injEq] at h
    obtain ⟨hn0, hn1, rfl, rfl⟩ := h
    obtain ⟨hlt, hr, hm, -⟩ := Stream.byte_of_Kind hk hK
    have he : encodeString [s₁.byteval] = [s₁.byteval] := by simp [encodeString, hlt]
    rw [he]
    exact ⟨by simp only [List.length_singleton]; omega, hr,
      ⟨hm.r, hm.stack, hm.remaining, hm.limited⟩, rfl⟩
  | String =>
    -- a string of the array's length, neither longer nor shorter
    simp only [Except.ite_throw_eq_ok] at h
    obtain ⟨hlong, hshort, h⟩ := h
    obtain ⟨⟨b, s₂⟩, hfull, h⟩ := Except.bind_eq_ok.mp h
    simp only [Except.ite_throw_eq_ok, Except.pure_eq_ok, Prod.mk.injEq] at h
    obtain ⟨hc, rfl, rfl⟩ := h
    obtain ⟨hr, hm, hk', hlen⟩ := Stream.encodeString_of_readFull hk hK hfull hc
    have hsz : size.toNat = n := by
      rw [gt_iff_lt, UInt64.lt_iff_toNat_lt, UInt64.toNat_ofNat_of_lt' hn] at hshort
      rw [UInt64.lt_iff_toNat_lt, UInt64.toNat_ofNat_of_lt' hn] at hlong
      omega
    exact ⟨hlen.trans hsz, hr, hm, hk'⟩
  | List => exact absurd h Except.throw_ne_ok

/-- **`[n]byte` meets the codec's guarantees**, for any length a Go array has. -/
theorem Codec.byteArray_spec {n : ℕ} (hn : n < 2 ^ 64) : (Codec.byteArray n).Spec where
  complete v t hw h64 s rest hr hf hk := by
    obtain rfl : Item.str v.toList = t := Except.pure_eq_ok.mp hw
    have hlen := length_bytes_lt h64
    rw [encode_str] at hr hf ⊢
    obtain ⟨s', hd, hm, hk'⟩ := decodeByteArray_encode hk hlen hr hf
    rw [v.length_toList] at hd
    refine ⟨s', ?_, hm, hk'⟩
    simp only [Codec.byteArray, hd, Except.bind_ok, ofFn_getD_toList]
    rfl
  sound s v s' hk _ h := by
    obtain ⟨⟨b, s₁⟩, hd, h⟩ := Except.bind_eq_ok.mp h
    simp only [Except.pure_eq_ok, Prod.mk.injEq] at h
    obtain ⟨rfl, rfl⟩ := h
    obtain ⟨hlen, hr, hm, hk'⟩ := encode_of_decodeByteArray hn hk hd
    refine ⟨.str b, ?_, by rwa [encode_str], by rwa [encode_str], hk'⟩
    simp only [Codec.byteArray, toList_ofFn_getD hlen]
    rfl
  eol s hk h0 := by simp [Codec.byteArray, decodeByteArray, Stream.Kind_EOL hk h0]
  cached s s₁ x hk h := by
    simp only [Codec.byteArray, decodeByteArray, Stream.Kind_of_Kind hk h, h]

/-- **`[]byte` meets the codec's guarantees.** -/
theorem Codec.bytes_spec : Codec.bytes.Spec where
  complete v t hw h64 s rest hr hf hk := by
    obtain rfl : Item.str v = t := Except.pure_eq_ok.mp hw
    have hlen := length_bytes_lt h64
    rw [encode_str] at hr hf ⊢
    obtain ⟨k, sz, s₁, s', -, hK, hB, hm, hk'⟩ := Stream.Bytes_encodeString hk hlen hr hf
    refine ⟨s', ?_, hm, hk'⟩
    show s.Bytes = _
    rw [← Stream.Bytes_after_Kind hk hK]
    exact hB
  sound s v s' hk _ h := by
    change s.Bytes = _ at h
    obtain ⟨⟨⟨k, sz⟩, s₁⟩, hK, h'⟩ := Except.bind_eq_ok.mp h
    have hkl : k ≠ .List := by
      rintro rfl
      exact absurd h' Except.throw_ne_ok
    rw [← Stream.Bytes_after_Kind hk hK] at h
    obtain ⟨hr, hm, hk'⟩ := Stream.encodeString_of_Bytes hk hK hkl h
    exact ⟨.str v, rfl, by rwa [encode_str], by rwa [encode_str], hk'⟩
  eol s hk h0 := by simp [Codec.bytes, Stream.Bytes, Stream.Kind_EOL hk h0]
  cached s s₁ x hk h := Stream.Bytes_after_Kind hk h

end Bytes

/-! ### Nil pointers -/

section NilPtr

variable {s : Stream} {nilKind : rlp.Kind} {c : Codec α}

/-- `Kind` of an item the encoder wrote that is not empty: a byte, or a size
other than zero. -/
theorem Stream.Kind_nonempty {t : Item} {rest} (hs : s.kind = none)
    (h64 : t.encode.length < 2 ^ 64) (ht : t ≠ .str [] ∧ t ≠ .list [])
    (hr : s.r = t.encode ++ rest) (hf : s.Fits t.encode.length) :
    ∃ k sz s₁, s.Kind = .ok ((k, sz), s₁) ∧ ¬ (k ≠ .Byte ∧ sz = 0) := by
  cases t with
  | str c =>
    have hc := length_bytes_lt h64
    rw [encode_str] at hr hf
    rcases encodeString_cases c with ⟨y, rfl, hy80, he⟩ | he
    · -- a byte below `0x80`
      rw [he] at hr hf
      exact ⟨_, _, _, Stream.Kind_byte_item hs hy80 hr hf, fun h => h.1 rfl⟩
    · -- a string header of a length other than zero
      rw [he, List.length_append] at hf
      rw [he, List.append_assoc] at hr
      obtain ⟨s₁, hK, -⟩ := Stream.Kind_string_item hs hc (not_byte_of_encodeString_eq he) hr hf
      refine ⟨_, _, _, hK, fun h => ht.1 ?_⟩
      have := congrArg UInt64.toNat h.2
      rw [UInt64.toNat_ofNat_of_lt' hc, UInt64.toNat_zero] at this
      rw [List.eq_nil_of_length_eq_zero this]
  | list ts =>
    -- a list header of a payload other than empty
    have hn := length_payload_lt h64
    obtain ⟨s₁, hK, -⟩ := Stream.Kind_list_item hs hn hr hf
    refine ⟨_, _, _, hK, fun h => ht.2 ?_⟩
    have := congrArg UInt64.toNat h.2
    rw [UInt64.toNat_ofNat_of_lt' hn, UInt64.toNat_zero] at this
    have := length_le_length_encodeAll ts
    rw [List.eq_nil_of_length_eq_zero (by omega : ts.length = 0)]

/-- `Kind` of the empty value of a string or list kind, written by the encoder. -/
theorem Stream.Kind_emptyValue {rest} (hs : s.kind = none) (hkb : nilKind ≠ .Byte)
    (hr : s.r = (emptyValue nilKind).encode ++ rest) (hf : s.Fits (emptyValue nilKind).encode.length) :
    ∃ s₁, s.Kind = .ok ((nilKind, 0), s₁) ∧ s.Moved s₁ (emptyValue nilKind).encode.length := by
  cases nilKind with
  | Byte => exact absurd rfl hkb
  | String =>
    have he : (emptyValue .String).encode = header 0x80 0 ++ [] := rfl
    rw [he] at hr hf ⊢
    obtain ⟨s₁, hK, hm, -⟩ := Stream.Kind_header (n := 0) (.inl ⟨rfl, rfl⟩) (by decide) hs hr hf
    exact ⟨s₁, hK, hm⟩
  | List =>
    have he : (emptyValue .List).encode = header 0xC0 0 ++ [] := by
      simp [emptyValue, encode_list]
    rw [he] at hr hf ⊢
    obtain ⟨s₁, hK, hm, -⟩ := Stream.Kind_header (n := 0) (.inr ⟨rfl, rfl⟩) (by decide) hs hr hf
    exact ⟨s₁, hK, hm⟩

/-- **A pointer tagged `rlp:"nil"` meets the codec's guarantees**, when its
empty value is a string or a list and the element's writer writes no empty value. -/
theorem Codec.nilPtr_spec (hc : c.Spec) (hkb : nilKind ≠ .Byte)
    (hne : ∀ v t, c.write v = .ok t → t ≠ .str [] ∧ t ≠ .list []) :
    (Codec.nilPtr nilKind c).Spec where
  complete v t hw h64 s rest hr hf hk := by
    cases v with
    | none =>
      -- the empty value, and nothing read after its header
      obtain rfl : emptyValue nilKind = t := Except.pure_eq_ok.mp hw
      obtain ⟨s₁, hK, hm⟩ := Stream.Kind_emptyValue hk hkb hr hf
      refine ⟨{ s₁ with kind := none }, ?_, by simpa using hm.trans (Stream.moved_rearm s₁), rfl⟩
      simp [Codec.nilPtr, makeNilPtrDecoder, hK, hkb]
    | some v =>
      -- a value the element's decoder reads, after `Kind` found it not empty
      obtain ⟨k, sz, s₁, hK, hnot⟩ := Stream.Kind_nonempty hk h64 (hne v t hw) hr hf
      obtain ⟨s', hd, hm, hk'⟩ := hc.complete v t hw h64 s rest hr hf hk
      refine ⟨s', ?_, hm, hk'⟩
      simp only [Codec.nilPtr, makeNilPtrDecoder, hK, if_neg hnot, hc.cached s s₁ _ hk hK, hd,
        Except.bind_ok]
      rfl
  sound s v s' hk h64 h := by
    cases hK : s.Kind with
    | error e => simp [Codec.nilPtr, makeNilPtrDecoder, hK] at h
    | ok p =>
      obtain ⟨⟨k, sz⟩, s₁⟩ := p
      simp only [Codec.nilPtr, makeNilPtrDecoder, hK] at h
      by_cases hempty : k ≠ .Byte ∧ sz = 0
      · rw [if_pos hempty] at h
        by_cases hkind : k = nilKind
        · -- a nil pointer: the empty value of `nilKind`, its header alone
          subst hkind
          rw [if_neg (not_not_intro rfl)] at h
          simp only [Except.pure_eq_ok, Prod.mk.injEq] at h
          obtain ⟨rfl, rfl⟩ := h
          obtain ⟨hkb', rfl⟩ := hempty
          have hshort : (k = .String ∧ (if k = .String then 0x80 else 0xC0) = 0x80) ∨
              (k = .List ∧ (if k = .String then 0x80 else 0xC0) = 0xC0) := by
            cases k <;> simp_all
          obtain ⟨hr, hm, -⟩ := Stream.header_of_Kind hk hK hshort
          have he : (emptyValue k).encode = header (if k = .String then 0x80 else 0xC0) 0 := by
            cases k <;> simp [emptyValue, encode_list, encodeString]
          refine ⟨emptyValue k, rfl, ?_, ?_, rfl⟩
          · rw [he]
            exact hr
          · rw [he]
            exact hm.trans (Stream.moved_rearm s₁)
        · rw [if_pos hkind] at h
          exact absurd h Except.throw_ne_ok
      · -- a value the element's decoder read from where `Kind` left it
        rw [if_neg hempty] at h
        obtain ⟨⟨w, s₂⟩, hd, h⟩ := Except.bind_eq_ok.mp h
        simp only [Except.pure_eq_ok, Prod.mk.injEq] at h
        obtain ⟨rfl, rfl⟩ := h
        rw [hc.cached s s₁ _ hk hK] at hd
        exact hc.sound s w s₂ hk h64 hd
  eol s hk h0 := by simp [Codec.nilPtr, makeNilPtrDecoder, Stream.Kind_EOL hk h0]
  cached s s₁ x hk h := by
    simp only [Codec.nilPtr, makeNilPtrDecoder, Stream.Kind_of_Kind hk h, h]

end NilPtr

/-! ### Slices, structs and conversions -/

section Compose

variable {c : Codec α} {f : Fields γ}

/-- **A slice meets the codec's guarantees** when its element codec does. -/
theorem Codec.slice_spec (hc : c.Spec) : c.slice.Spec where
  complete vs t hw h64 s rest hr hf hk := by
    obtain ⟨ts, hts, rfl⟩ := Except.map_eq_ok.mp hw
    have hn := length_payload_lt h64
    obtain ⟨s₁, hK, hm₁, hr₁, hf₁⟩ := Stream.Kind_list_item hk hn hr hf
    -- each element is shorter than the list, so its decoder reads it back
    have hws := List.forall₂_iff_zip.mp (Except.mapM_eq_ok.mp hts)
    have hread : List.Forall₂ (fun w t => ∀ (s : Stream) rest, s.r = t.encode ++ rest →
        s.Fits t.encode.length → s.kind = none → ∃ s', c.decode s = .ok (w, s') ∧
          s.Moved s' t.encode.length ∧ s'.kind = none) (vs.map c.read) ts := by
      rw [List.forall₂_map_left_iff]
      refine List.forall₂_iff_zip.mpr ⟨hws.1, fun {v t} hvt => ?_⟩
      have ht := length_encode_le_of_mem (List.of_mem_zip hvt).2
      exact hc.complete v t (hws.2 hvt) (by omega)
    obtain ⟨s', hd, hm, hk'⟩ := decodeListSlice_complete (fun s hk h0 => hc.eol s hk h0) hread
      (2 ^ 64) (by have := length_le_length_encodeAll ts; omega) hn
      (Stream.List_of_Kind hK) hr₁ hf₁
    refine ⟨s', hd, ?_, hk'⟩
    rw [encode_list, List.length_append]
    exact hm₁.trans hm
  sound s vs s' hk h64 h := by
    -- `List` entered the list, whose header `Kind` read
    obtain ⟨⟨sz, s₂⟩, hL, -⟩ := Except.bind_eq_ok.mp h
    obtain ⟨s₁, hK, rfl⟩ := Stream.List_eq_ok hL
    obtain ⟨hr, hm₁, -⟩ := Stream.header_of_Kind hk hK (.inr ⟨rfl, rfl⟩)
    have h64₁ : s₁.r.length < 2 ^ 64 := by
      rw [hr, List.length_append] at h64
      omega
    obtain ⟨ts, hts, hr₁, hsz, hm, hk'⟩ :=
      decodeListSlice_sound (P := fun v t => c.write v = .ok t) hc.sound hL h64₁ h
    refine ⟨.list ts, ?_, ?_, ?_, hk'⟩
    · show Item.list <$> vs.mapM c.write = _
      rw [Except.mapM_eq_ok.mpr hts]
      rfl
    · rw [hr, hsz, hr₁, encode_list, List.append_assoc]
    · rw [hsz] at hm₁
      rw [encode_list, List.length_append]
      exact hm₁.trans hm
  eol s hk h0 := by
    simp [Codec.slice, decodeListSlice, Stream.List, Stream.Kind_EOL hk h0]
  cached s s₁ x hk h := by
    simp only [Codec.slice, decodeListSlice, Stream.List_after_Kind hk h]

/-- No fields: nothing written, nothing read. -/
theorem Fields.nil_spec : Fields.nil.Spec where
  complete v ts hw _ s rest _ _ hk := by
    obtain rfl : [] = ts := Except.pure_eq_ok.mp hw
    exact ⟨s, rfl, Stream.moved_zero s, hk⟩
  sound s v s' hk _ h := by
    simp only [Fields.nil, Except.pure_eq_ok, Prod.mk.injEq] at h
    obtain ⟨-, rfl⟩ := h
    exact ⟨[], rfl, rfl, Stream.moved_zero s, hk⟩

/-- **One more field** meets the guarantees when it and the fields after it do. -/
theorem Fields.cons_spec (hc : c.Spec) (hf : f.Spec) : (Fields.cons c f).Spec where
  complete v ts hw h64 s rest hr hfit hk := by
    obtain ⟨t, ht, hw⟩ := Except.bind_eq_ok.mp hw
    obtain ⟨ts', hts, hw⟩ := Except.bind_eq_ok.mp hw
    obtain rfl : t :: ts' = ts := Except.pure_eq_ok.mp hw
    rw [encodeAll_cons, List.length_append] at h64 hfit ⊢
    rw [encodeAll_cons, List.append_assoc] at hr
    -- the field, then the others from where it ends
    obtain ⟨s₁, hd₁, hm₁, hk₁⟩ :=
      hc.complete v.1 t ht (by omega) s _ hr (hfit.mono (Nat.le_add_right _ _)) hk
    have hr₁ : s₁.r = Item.encodeAll ts' ++ rest := by rw [hm₁.r, hr, List.drop_left]
    obtain ⟨s₂, hd₂, hm₂, hk₂⟩ := hf.complete v.2 ts' hts (by omega) s₁ rest hr₁ (hm₁.fits hfit) hk₁
    refine ⟨s₂, ?_, hm₁.trans hm₂, hk₂⟩
    simp [Fields.cons, hd₁, hd₂]
  sound s v s' hk h64 h := by
    obtain ⟨⟨v₁, s₁⟩, hd₁, h⟩ := Except.bind_eq_ok.mp h
    obtain ⟨⟨v₂, s₂⟩, hd₂, h⟩ := Except.bind_eq_ok.mp h
    simp only [Except.pure_eq_ok, Prod.mk.injEq] at h
    obtain ⟨rfl, rfl⟩ := h
    rw [Except.mapError_eq_ok] at hd₁
    obtain ⟨t, ht, hr₁, hm₁, hk₁⟩ := hc.sound s v₁ s₁ hk h64 hd₁
    have h64₁ : s₁.r.length < 2 ^ 64 := by
      rw [hr₁, List.length_append] at h64
      omega
    obtain ⟨ts, hts, hr₂, hm₂, hk₂⟩ := hf.sound s₁ v₂ s₂ hk₁ h64₁ hd₂
    refine ⟨t :: ts, by simp [Fields.cons, ht, hts], ?_, ?_, hk₂⟩
    · rw [encodeAll_cons, List.append_assoc, hr₁, hr₂]
    · rw [encodeAll_cons, List.length_append]
      exact hm₁.trans hm₂

/-- **A struct meets the codec's guarantees** when its fields do, and taking a
struct apart gives back the fields it was built from. -/
theorem Codec.struct_spec {mk : γ → β} {get : β → γ} (hf : f.Spec)
    (hget : ∀ v, get (mk v) = v) : (Codec.struct f mk get).Spec where
  complete v t hw h64 s rest hr hfit hk := by
    obtain ⟨ts, hts, rfl⟩ := Except.map_eq_ok.mp hw
    have hn := length_payload_lt h64
    obtain ⟨s₁, hK, hm₁, hr₁, hf₁⟩ := Stream.Kind_list_item hk hn hr hfit
    -- the fields inside the list, which then ends
    obtain ⟨s₂, hd, hm₂, -⟩ := hf.complete _ ts hts hn (s₁.enter _) rest hr₁ (hf₁.enter hn) rfl
    obtain ⟨s₃, hE, hm₃, hk₃⟩ := Stream.ListEnd_of_Moved hm₂
    refine ⟨s₃, ?_, ?_, hk₃⟩
    · simp [Codec.struct, Stream.List_of_Kind hK, hd, hE]
    · rw [encode_list, List.length_append]
      exact hm₁.trans hm₃
  sound s v s' hk h64 h := by
    obtain ⟨⟨sz, s₂⟩, hL, h⟩ := Except.bind_eq_ok.mp h
    obtain ⟨⟨w, s₃⟩, hd, h⟩ := Except.bind_eq_ok.mp h
    obtain ⟨s₄, hE, h⟩ := Except.bind_eq_ok.mp h
    simp only [Except.pure_eq_ok, Prod.mk.injEq] at h
    obtain ⟨rfl, rfl⟩ := h
    obtain ⟨s₁, hK, rfl⟩ := Stream.List_eq_ok hL
    obtain ⟨hr, hm₁, -⟩ := Stream.header_of_Kind hk hK (.inr ⟨rfl, rfl⟩)
    have h64₁ : s₁.r.length < 2 ^ 64 := by
      rw [hr, List.length_append] at h64
      omega
    -- the fields read inside the list, which `ListEnd` found used up
    obtain ⟨ts, hts, hr₃, hm₃, -⟩ := hf.sound (s₁.enter sz) w s₃ rfl h64₁ hd
    obtain ⟨hsz, hm₄, hk₄⟩ := Stream.Moved_of_ListEnd hm₃ hE
    have hlt : (Item.encodeAll ts).length < 2 ^ 64 := by
      have := congrArg List.length hr₃
      rw [List.length_append] at this
      change s₁.r.length = _ at this
      omega
    have hsz' : sz.toNat = (Item.encodeAll ts).length := by
      rw [hsz, UInt64.toNat_ofNat_of_lt' hlt]
    refine ⟨.list ts, by simp [Codec.struct, hget, hts], ?_, ?_, hk₄⟩
    · change s₁.r = _ at hr₃
      rw [hm₄.r, hr, hr₃, List.drop_left, hsz', encode_list, List.append_assoc]
    · rw [hsz'] at hm₁
      rw [encode_list, List.length_append]
      exact hm₁.trans hm₄
  eol s hk h0 := by simp [Codec.struct, Stream.List, Stream.Kind_EOL hk h0]
  cached s s₁ x hk h := by simp only [Codec.struct, Stream.List_after_Kind hk h]

/-- A struct is written as a list. -/
theorem Codec.struct_write_eq_ok {mk : γ → β} {get : β → γ} {v : β} {t : Item}
    (h : (Codec.struct f mk get).write v = .ok t) : ∃ ts, f.write (get v) = .ok ts ∧ t = .list ts := by
  obtain ⟨ts, hts, rfl⟩ := Except.map_eq_ok.mp h
  exact ⟨ts, hts, rfl⟩

/-- **A conversion meets the codec's guarantees** when the codec converted does,
and the conversion back gives what was converted. -/
theorem Codec.map_spec {c : Codec α} {mk : α → β} {get : β → α} (hc : c.Spec)
    (hget : ∀ v, get (mk v) = v) : (c.map mk get).Spec where
  complete v t hw h64 s rest hr hf hk := by
    obtain ⟨s', hd, hm, hk'⟩ := hc.complete (get v) t hw h64 s rest hr hf hk
    exact ⟨s', by simp [Codec.map, hd], hm, hk'⟩
  sound s v s' hk h64 h := by
    obtain ⟨⟨w, s₁⟩, hd, h⟩ := Except.bind_eq_ok.mp h
    simp only [Except.pure_eq_ok, Prod.mk.injEq] at h
    obtain ⟨rfl, rfl⟩ := h
    obtain ⟨t, ht, hr, hm, hk'⟩ := hc.sound s w s₁ hk h64 hd
    exact ⟨t, by simp [Codec.map, hget, ht], hr, hm, hk'⟩
  eol s hk h0 := by simp [Codec.map, hc.eol s hk h0]
  cached s s₁ x hk h := by simp only [Codec.map, hc.cached s s₁ x hk h]

end Compose

/-! ### Whole inputs -/

section DecodeBytes

variable {c : Codec α}

/-- **`DecodeBytes` reads back what `EncodeToBytes` wrote**, the value `read`
gives. -/
theorem Codec.DecodeBytes_encode (hc : c.Spec) {v : α} {t : Item} (hw : c.write v = .ok t)
    (h64 : t.encode.length < 2 ^ 64) : c.DecodeBytes t.encode = .ok (c.read v) := by
  obtain ⟨s', hd, hm, -⟩ := hc.complete v t hw h64 _ [] (by simp [Stream.Reset])
    (Reset_Fits _ h64) rfl
  have hr : s'.r = [] := by simp [hm.r, Stream.Reset]
  simp [Codec.DecodeBytes, hd, hr]

/-- **What `DecodeBytes` accepts is what `EncodeToBytes` writes** for the value
returned. -/
theorem Codec.encode_of_DecodeBytes (hc : c.Spec) {b : List UInt8} {v : α}
    (h : b.length < 2 ^ 64) (hd : c.DecodeBytes b = .ok v) :
    ∃ t, c.write v = .ok t ∧ b = t.encode := by
  obtain ⟨⟨v', s'⟩, hdec, hend⟩ := Except.bind_eq_ok.mp hd
  simp only [Except.ite_throw_eq_ok, Except.pure_eq_ok] at hend
  obtain ⟨hr, rfl⟩ := hend
  have hr' : s'.r = [] := List.eq_nil_of_length_eq_zero (by omega)
  obtain ⟨t, ht, hb, -⟩ := hc.sound _ _ s' rfl h hdec
  exact ⟨t, ht, by simpa [hr', Stream.Reset] using hb⟩

/-- **What the decoder gives back is written as the value was.** -/
theorem Codec.Spec.write_read (hc : c.Spec) {v : α} {t : Item} (hw : c.write v = .ok t)
    (h64 : t.encode.length < 2 ^ 64) : c.write (c.read v) = .ok t := by
  obtain ⟨t', ht', he⟩ := Codec.encode_of_DecodeBytes hc h64 (Codec.DecodeBytes_encode hc hw h64)
  have h64' : t'.encode.length < 2 ^ 64 := by rwa [← he]
  rw [Item.encode_injective h64 h64' he]
  exact ht'

/-- `ListSize`: the length of a list's encoding, from the size of its content. -/
def ListSize (contentSize : UInt64) : UInt64 := UInt64.ofNat (headsize contentSize.toNat) + contentSize

theorem toNat_ListSize {n : ℕ} (h : (header 0xC0 n).length + n < 2 ^ 64) :
    (ListSize (UInt64.ofNat n)).toNat = (header 0xC0 n).length + n := by
  have hn : n < 2 ^ 64 := by omega
  have hh : headsize n = (header 0xC0 n).length := by
    rw [← length_puthead (UInt8.ofNat 0xC0) (UInt8.ofNat (0xC0 + 55)) n, puthead_eq_header]
  have hh64 : headsize n < 2 ^ 64 := by omega
  rw [ListSize, UInt64.toNat_add, UInt64.toNat_ofNat_of_lt' hn, UInt64.toNat_ofNat_of_lt' hh64, hh,
    Nat.mod_eq_of_lt h]

end DecodeBytes

end rlp

end PureChain
