import PureChain.Rlp.Typed
import PureChain.Core.Types.Transaction

/-!
# Package `types`: the encodings of a transaction

A `types.Transaction` holds its inner data – a `LegacyTx` or an EIP-2930
`AccessListTx` – and caches its size. It has two encodings. Inside an enclosing
RLP list, as in a block body, `EncodeRLP` writes a legacy transaction as the
list of its fields and a typed one as a string: the type byte followed by the
list of its fields (`encodeTyped`). On its own, `MarshalBinary` writes the list
of a legacy transaction's fields, and a typed transaction's type byte and list.
`DecodeRLP` tells them apart by the kind of the value ahead, `UnmarshalBinary`
by whether the first byte is above `0x7f`; `decodeTyped` reads the type byte.

The inner data are read through the codecs of `PureChain.Rlp.Typed`: a nil
`*big.Int` is written as zero and read back as a pointer to zero, which is what
`TxData.copy` does to it. Every field value, the type and the hash come back
from either encoding (`DecodeRLP_EncodeRLP`, `UnmarshalBinary_MarshalBinary`),
and what `UnmarshalBinary` accepts is re-encoded as it was
(`MarshalBinary_UnmarshalBinary`).

The size a decoder caches is the length of the bytes it read, except on one
path: `DecodeRLP` of a typed transaction caches the length of the string's
content, not of the string it read, header included
(`DecodeRLP_typed_size_short`).

The hash and sender caches and the time a transaction was first seen are left
out: a decoder makes a new transaction, whose hash is computed when asked.
-/

namespace PureChain

namespace types

open rlp Rlp

/-- `LegacyTxType`. -/
def LegacyTxType : UInt8 := 0

/-- `AccessListTxType`. -/
def AccessListTxType : UInt8 := 1

/-- `types.LegacyTx`; a nil `*big.Int` is `none`. -/
structure LegacyTx where
  Nonce : UInt64
  GasPrice : Option ℤ
  Gas : UInt64
  /-- `nil` for a contract creation. -/
  To : Option Address
  Value : Option ℤ
  Data : List UInt8
  V : Option ℤ
  R : Option ℤ
  S : Option ℤ
  deriving DecidableEq

/-- `types.AccessListTx`. -/
structure AccessListTx where
  ChainID : Option ℤ
  Nonce : UInt64
  GasPrice : Option ℤ
  Gas : UInt64
  /-- `nil` for a contract creation. -/
  To : Option Address
  Value : Option ℤ
  Data : List UInt8
  AccessList : List AccessTuple
  V : Option ℤ
  R : Option ℤ
  S : Option ℤ
  deriving DecidableEq

/-- `TxData`: the inner data of a transaction of either type. -/
inductive TxData where
  | legacy (tx : LegacyTx)
  | accessList (tx : AccessListTx)
  deriving DecidableEq

/-- `txType()`. -/
def TxData.txType : TxData → UInt8
  | .legacy _ => LegacyTxType
  | .accessList _ => AccessListTxType

/-- `new(big.Int).Set(x)` where `x` is not nil: a copy, zero for nil. -/
def copyBig (x : Option ℤ) : Option ℤ := some (x.getD 0)

/-- `copy()`: every `*big.Int` initialized, zero where it was nil. -/
def TxData.copy : TxData → TxData
  | .legacy tx =>
    .legacy
      { tx with
        GasPrice := copyBig tx.GasPrice
        Value := copyBig tx.Value
        V := copyBig tx.V
        R := copyBig tx.R
        S := copyBig tx.S }
  | .accessList tx =>
    .accessList
      { tx with
        ChainID := copyBig tx.ChainID
        GasPrice := copyBig tx.GasPrice
        Value := copyBig tx.Value
        V := copyBig tx.V
        R := copyBig tx.R
        S := copyBig tx.S }

/-- `types.Transaction`: the inner data, and the size once cached. -/
structure Transaction where
  inner : TxData
  size : Option ℕ
  deriving DecidableEq

/-- `NewTx`: a copy of the inner data, and no size cached. -/
def NewTx (inner : TxData) : Transaction := { inner := inner.copy, size := none }

/-- `tx.Type()`. -/
def Transaction.Type (tx : Transaction) : UInt8 := tx.inner.txType

/-! ### The codecs of the inner data -/

/-- `common.Address`, a `[20]byte`. -/
def addressCodec : Codec Address := (Codec.byteArray 20).map Address.mk Address.bytes

/-- `common.Hash`, a `[32]byte`. -/
def hashCodec : Codec Hash := (Codec.byteArray 32).map Hash.mk Hash.bytes

/-- `AccessTuple`: the address and the storage keys. -/
def AccessTuple.codec : Codec AccessTuple :=
  Codec.struct (.cons addressCodec (.cons hashCodec.slice .nil))
    (fun ⟨a, ks, _⟩ => ⟨a, ks⟩) (fun t => (t.Address, t.StorageKeys, ()))

/-- `LegacyTx`: its fields in order, `To` tagged `rlp:"nil"`. -/
def LegacyTx.codec : Codec LegacyTx :=
  Codec.struct
    (.cons .uint64 (.cons .bigInt (.cons .uint64 (.cons (.nilPtr .String addressCodec)
      (.cons .bigInt (.cons .bytes (.cons .bigInt (.cons .bigInt (.cons .bigInt .nil)))))))))
    (fun ⟨n, gp, g, dst, v, d, sv, sr, ss, _⟩ => ⟨n, gp, g, dst, v, d, sv, sr, ss⟩)
    (fun tx => (tx.Nonce, tx.GasPrice, tx.Gas, tx.To, tx.Value, tx.Data, tx.V, tx.R, tx.S, ()))

/-- `AccessListTx`: its fields in order, `To` tagged `rlp:"nil"`. -/
def AccessListTx.codec : Codec AccessListTx :=
  Codec.struct
    (.cons .bigInt (.cons .uint64 (.cons .bigInt (.cons .uint64
      (.cons (.nilPtr .String addressCodec) (.cons .bigInt (.cons .bytes
        (.cons AccessTuple.codec.slice (.cons .bigInt (.cons .bigInt (.cons .bigInt .nil)))))))))))
    (fun ⟨c, n, gp, g, dst, v, d, al, sv, sr, ss, _⟩ => ⟨c, n, gp, g, dst, v, d, al, sv, sr, ss⟩)
    (fun tx => (tx.ChainID, tx.Nonce, tx.GasPrice, tx.Gas, tx.To, tx.Value, tx.Data,
      tx.AccessList, tx.V, tx.R, tx.S, ()))

/-- `rlp.Encode` of the inner data: the list of its fields. -/
def TxData.write : TxData → Except RlpError Item
  | .legacy tx => LegacyTx.codec.write tx
  | .accessList tx => AccessListTx.codec.write tx

/-! ### The transaction's functions -/

/-- The errors of decoding a transaction: the RLP decoder's, and the envelope's. -/
inductive TxError where
  | rlp (err : RlpError)
  | errEmptyTypedTx
  | ErrTxTypeNotSupported
  deriving DecidableEq

/-- Go's conversion `int(u)` of a `uint64`, in two's complement. -/
def intOfUint64 (u : UInt64) : ℤ := (u.toNat : ℤ).bmod (2 ^ 64)

/-- `setDecoded` on a new transaction: the inner data, and the size when it is
positive. -/
def setDecoded (inner : TxData) (size : ℤ) : Transaction :=
  { inner, size := if size > 0 then some size.toNat else none }

/-- `encodeTyped`: the type byte, then the encoding of the inner data. -/
def Transaction.encodeTyped (tx : Transaction) : Except RlpError (List UInt8) := do
  let t ← tx.inner.write
  pure (tx.Type :: EncodeToBytes t)

/-- `EncodeRLP`: the value written for the transaction in an enclosing
encoding; a typed transaction is a string. -/
def Transaction.EncodeRLP (tx : Transaction) : Except RlpError Item :=
  if tx.Type = LegacyTxType then tx.inner.write
  else do
    let b ← tx.encodeTyped
    pure (.str b)

/-- `MarshalBinary`: the canonical encoding; on an error the bytes written so
far are dropped. -/
def Transaction.MarshalBinary (tx : Transaction) : Except RlpError (List UInt8) :=
  if tx.Type = LegacyTxType then EncodeToBytes <$> tx.inner.write
  else tx.encodeTyped

/-- `decodeTyped`: the type byte, then one access-list transaction. -/
def decodeTyped (b : List UInt8) : Except TxError TxData :=
  match b with
  | [] => throw .errEmptyTypedTx
  | t :: rest =>
    if t = AccessListTxType then
      (TxData.accessList <$> AccessListTx.codec.DecodeBytes rest).mapError .rlp
    else throw .ErrTxTypeNotSupported

/-- `DecodeRLP` into a new transaction: a list is a legacy transaction, and its
size is the list's; a string holds a typed transaction, and its size is the
string's content. -/
def Transaction.DecodeRLP (s : Stream) : Except TxError (Transaction × Stream) := do
  let ((kind, size), s) ← s.Kind.mapError .rlp
  match kind with
  | .List =>
    let (inner, s) ← (LegacyTx.codec.decode s).mapError .rlp
    pure (setDecoded (.legacy inner) (intOfUint64 (ListSize size)), s)
  | .String =>
    let (b, s) ← s.Bytes.mapError .rlp
    let inner ← decodeTyped b
    pure (setDecoded inner b.length, s)
  | .Byte => throw (.rlp .ErrExpectedList)

/-- `UnmarshalBinary` into a new transaction: a first byte above `0x7f` starts a
legacy transaction, anything else a typed one. -/
def Transaction.UnmarshalBinary (b : List UInt8) : Except TxError Transaction :=
  if b.length > 0 ∧ b.headD 0 > 0x7f then do
    let data ← (LegacyTx.codec.DecodeBytes b).mapError .rlp
    pure (setDecoded (.legacy data) b.length)
  else do
    let inner ← decodeTyped b
    pure (setDecoded inner b.length)

section Hashing

variable (keccak256 : List UInt8 → Hash)

/-- `Hash`: the Keccak hash of the encoding, the type byte before it for a typed
transaction; `rlp.Encode` writes nothing when it fails. -/
def Transaction.Hash (tx : Transaction) : Hash :=
  let enc := match tx.inner.write with
    | .ok t => t.encode
    | .error _ => []
  if tx.Type = LegacyTxType then keccak256 enc else keccak256 (tx.Type :: enc)

end Hashing

/-- `Size`: the cached size, or else the length of the encoding of the inner
data, without a type byte; nothing is counted when the encoder fails. -/
def Transaction.Size (tx : Transaction) : ℕ :=
  match tx.size with
  | some size => size
  | none =>
    match tx.inner.write with
    | .ok t => t.encode.length
    | .error _ => 0

/-! ### The codecs meet their guarantees -/

section Specs

theorem addressCodec_spec : addressCodec.Spec :=
  Codec.map_spec (Codec.byteArray_spec (by decide)) fun _ => rfl

theorem hashCodec_spec : hashCodec.Spec :=
  Codec.map_spec (Codec.byteArray_spec (by decide)) fun _ => rfl

/-- An address is written as twenty bytes, never as an empty value. -/
theorem addressCodec_write_ne {a : Address} {t : Item} (h : addressCodec.write a = .ok t) :
    t ≠ .str [] ∧ t ≠ .list [] := by
  obtain rfl : Item.str a.bytes.toList = t := Except.pure_eq_ok.mp h
  refine ⟨fun he => ?_, fun he => Item.noConfusion he⟩
  have := congrArg List.length (Item.str.inj he)
  simp at this

theorem AccessTuple.codec_spec : AccessTuple.codec.Spec :=
  Codec.struct_spec
    (Fields.cons_spec addressCodec_spec (Fields.cons_spec (Codec.slice_spec hashCodec_spec)
      Fields.nil_spec))
    fun _ => rfl

theorem LegacyTx.codec_spec : LegacyTx.codec.Spec :=
  Codec.struct_spec
    (Fields.cons_spec Codec.uint64_spec (Fields.cons_spec Codec.bigInt_spec
      (Fields.cons_spec Codec.uint64_spec
        (Fields.cons_spec (Codec.nilPtr_spec addressCodec_spec (by decide)
          fun _ _ => addressCodec_write_ne)
          (Fields.cons_spec Codec.bigInt_spec (Fields.cons_spec Codec.bytes_spec
            (Fields.cons_spec Codec.bigInt_spec (Fields.cons_spec Codec.bigInt_spec
              (Fields.cons_spec Codec.bigInt_spec Fields.nil_spec)))))))))
    fun _ => rfl

theorem AccessListTx.codec_spec : AccessListTx.codec.Spec :=
  Codec.struct_spec
    (Fields.cons_spec Codec.bigInt_spec (Fields.cons_spec Codec.uint64_spec
      (Fields.cons_spec Codec.bigInt_spec (Fields.cons_spec Codec.uint64_spec
        (Fields.cons_spec (Codec.nilPtr_spec addressCodec_spec (by decide)
          fun _ _ => addressCodec_write_ne)
          (Fields.cons_spec Codec.bigInt_spec (Fields.cons_spec Codec.bytes_spec
            (Fields.cons_spec (Codec.slice_spec AccessTuple.codec_spec)
              (Fields.cons_spec Codec.bigInt_spec (Fields.cons_spec Codec.bigInt_spec
                (Fields.cons_spec Codec.bigInt_spec Fields.nil_spec)))))))))))
    fun _ => rfl

/-- An access tuple is read back as it was. -/
theorem AccessTuple.codec_read : AccessTuple.codec.read = id := by
  funext ⟨⟨a⟩, ks⟩
  simp [AccessTuple.codec, Codec.struct, Fields.cons, Fields.nil, addressCodec, hashCodec,
    Codec.map, Codec.byteArray, Codec.slice]

/-- **What the decoders read back is the copy** `copy()` makes: a nil big
integer is zero, and nothing else changes. -/
theorem LegacyTx.codec_read (tx : LegacyTx) :
    TxData.legacy (LegacyTx.codec.read tx) = (TxData.legacy tx).copy := by
  obtain ⟨n, gp, g, dst, v, d, sv, sr, ss⟩ := tx
  cases dst <;> simp [LegacyTx.codec, Codec.struct, Fields.cons, Fields.nil, Codec.nilPtr,
    addressCodec, Codec.map, Codec.byteArray, Codec.bigInt, Codec.uint64, Codec.bytes,
    TxData.copy, copyBig]

theorem AccessListTx.codec_read (tx : AccessListTx) :
    TxData.accessList (AccessListTx.codec.read tx) = (TxData.accessList tx).copy := by
  obtain ⟨c, n, gp, g, dst, v, d, al, sv, sr, ss⟩ := tx
  cases dst <;> simp [AccessListTx.codec, Codec.struct, Fields.cons, Fields.nil, Codec.nilPtr,
    addressCodec, Codec.map, Codec.byteArray, Codec.bigInt, Codec.uint64, Codec.bytes,
    Codec.slice, AccessTuple.codec_read, TxData.copy, copyBig]

/-- The copy is written as the original. -/
theorem TxData.write_copy {inner : TxData} {t : Item} (hw : inner.write = .ok t)
    (h64 : t.encode.length < 2 ^ 64) : inner.copy.write = .ok t := by
  cases inner with
  | legacy tx =>
    rw [← LegacyTx.codec_read]
    exact Codec.Spec.write_read LegacyTx.codec_spec hw h64
  | accessList tx =>
    rw [← AccessListTx.codec_read]
    exact Codec.Spec.write_read AccessListTx.codec_spec hw h64

@[simp] theorem TxData.txType_copy (inner : TxData) : inner.copy.txType = inner.txType := by
  cases inner <;> rfl

end Specs

/-! ### Round trips -/

section RoundTrip

variable {b : List UInt8}

theorem intOfUint64_of_lt {u : UInt64} (h : u.toNat < 2 ^ 63) : intOfUint64 u = u.toNat := by
  unfold intOfUint64 Int.bmod
  rw [Int.emod_eq_of_lt (by omega) (by omega), if_pos (by omega)]

/-- **`decodeTyped` reads back an access-list transaction** after its type byte. -/
theorem decodeTyped_encode {a : AccessListTx} {t : Item} (hw : AccessListTx.codec.write a = .ok t)
    (h64 : t.encode.length < 2 ^ 64) :
    decodeTyped (AccessListTxType :: t.encode) = .ok (TxData.accessList a).copy := by
  rw [← AccessListTx.codec_read]
  simp [decodeTyped, Codec.DecodeBytes_encode AccessListTx.codec_spec hw h64]

/-- **What `decodeTyped` accepts** is the type byte and the encoding of an
access-list transaction. -/
theorem decodeTyped_eq_ok {inner : TxData} (h : decodeTyped b = .ok inner) (h64 : b.length < 2 ^ 64) :
    ∃ a t, inner = .accessList a ∧ AccessListTx.codec.write a = .ok t ∧
      b = AccessListTxType :: t.encode := by
  match b, h with
  | x :: rest, h =>
    simp only [decodeTyped] at h
    split_ifs at h with hx
    · obtain ⟨a, hd, rfl⟩ := Except.map_eq_ok.mp (Except.mapError_eq_ok.mp h)
      obtain ⟨t, hw, rfl⟩ :=
        Codec.encode_of_DecodeBytes AccessListTx.codec_spec (by simp at h64; omega) hd
      exact ⟨a, t, rfl, hw, by rw [hx]⟩

/-- **`UnmarshalBinary` reads back what `MarshalBinary` wrote**, as `copy()` has
it, and caches the length of the bytes it read. -/
theorem UnmarshalBinary_MarshalBinary {tx : Transaction} (h : tx.MarshalBinary = .ok b)
    (h64 : b.length < 2 ^ 64) :
    Transaction.UnmarshalBinary b = .ok (setDecoded tx.inner.copy b.length) := by
  obtain ⟨inner, size⟩ := tx
  cases inner with
  | legacy l =>
    -- the list of the fields, whose first byte is above `0x7f`
    simp only [Transaction.MarshalBinary, Transaction.Type, TxData.txType, if_true] at h
    obtain ⟨t, hw, rfl⟩ := Except.map_eq_ok.mp h
    rw [EncodeToBytes_eq_encode] at h64 ⊢
    obtain ⟨ts, -, rfl⟩ := Codec.struct_write_eq_ok hw
    obtain ⟨x, rest, he, hx⟩ := encode_list_eq_cons (length_payload_lt h64)
    have hd := Codec.DecodeBytes_encode LegacyTx.codec_spec hw h64
    have hfirst : (Item.list ts).encode.length > 0 ∧ (Item.list ts).encode.headD 0 > 0x7f := by
      rw [he]
      refine ⟨by simp, ?_⟩
      rw [List.headD_cons, gt_iff_lt, UInt8.lt_iff_toNat_lt]
      simp only [UInt8.reduceToNat]
      omega
    rw [Transaction.UnmarshalBinary, if_pos hfirst, hd, ← LegacyTx.codec_read]
    rfl
  | accessList a =>
    -- the type byte, `1`, then the list of the fields
    have hty : (Transaction.mk (.accessList a) size).Type = AccessListTxType := rfl
    simp only [Transaction.MarshalBinary, Transaction.encodeTyped, hty,
      show ¬ AccessListTxType = LegacyTxType by decide, if_false] at h
    obtain ⟨t, hw, h⟩ := Except.bind_eq_ok.mp h
    obtain rfl := Except.pure_eq_ok.mp h
    rw [EncodeToBytes_eq_encode] at h64 ⊢
    have hfirst : ¬ ((AccessListTxType :: t.encode).length > 0 ∧
        (AccessListTxType :: t.encode).headD 0 > 0x7f) :=
      fun h => absurd h.2 (by rw [List.headD_cons]; decide)
    rw [Transaction.UnmarshalBinary, if_neg hfirst,
      decodeTyped_encode hw (by simp at h64; omega)]
    rfl

/-- **What `UnmarshalBinary` accepts, `MarshalBinary` writes again.** -/
theorem MarshalBinary_UnmarshalBinary {tx : Transaction} (h : Transaction.UnmarshalBinary b = .ok tx)
    (h64 : b.length < 2 ^ 64) : tx.MarshalBinary = .ok b := by
  unfold Transaction.UnmarshalBinary at h
  split_ifs at h with hfirst
  · -- a legacy transaction: the canonical list of its fields
    obtain ⟨data, hd, h⟩ := Except.bind_eq_ok.mp h
    obtain rfl := Except.pure_eq_ok.mp h
    obtain ⟨t, hw, rfl⟩ :=
      Codec.encode_of_DecodeBytes LegacyTx.codec_spec h64 (Except.mapError_eq_ok.mp hd)
    simp [Transaction.MarshalBinary, setDecoded, Transaction.Type, TxData.txType, TxData.write, hw,
      EncodeToBytes_eq_encode]
  · -- a typed transaction: the type byte, then the canonical list of its fields
    obtain ⟨inner, hd, h⟩ := Except.bind_eq_ok.mp h
    obtain rfl := Except.pure_eq_ok.mp h
    obtain ⟨a, t, rfl, hw, rfl⟩ := decodeTyped_eq_ok hd h64
    simp [Transaction.MarshalBinary, setDecoded, Transaction.Type, TxData.txType, TxData.write,
      Transaction.encodeTyped, hw, EncodeToBytes_eq_encode,
      show ¬ AccessListTxType = LegacyTxType by decide]

/-- **`DecodeRLP` reads back a legacy transaction `EncodeRLP` wrote**, and caches
the length of the list it read. -/
theorem DecodeRLP_EncodeRLP_legacy {l : LegacyTx} {size : Option ℕ} {t : Item} {s : Stream} {rest}
    (h : (Transaction.mk (.legacy l) size).EncodeRLP = .ok t) (h63 : t.encode.length < 2 ^ 63)
    (hr : s.r = t.encode ++ rest) (hf : s.Fits t.encode.length) (hk : s.kind = none) :
    ∃ s', Transaction.DecodeRLP s = .ok (setDecoded (TxData.legacy l).copy t.encode.length, s') ∧
      s.Moved s' t.encode.length := by
  have hw : LegacyTx.codec.write l = .ok t := h
  have h64 : t.encode.length < 2 ^ 64 := by omega
  obtain ⟨ts, -, rfl⟩ := Codec.struct_write_eq_ok hw
  have hn := length_payload_lt h64
  -- `Kind` reads the list's header, and the struct decoder the rest
  obtain ⟨s₁, hK, -⟩ := Stream.Kind_list_item hk hn hr hf
  obtain ⟨s', hd, hm, -⟩ := Codec.Spec.complete LegacyTx.codec_spec l _ hw h64 s rest hr hf hk
  rw [← Codec.Spec.cached LegacyTx.codec_spec s s₁ _ hk hK] at hd
  -- the size cached is the list's, header included
  have hlen : (Item.list ts).encode.length = (header 0xC0 (Item.encodeAll ts).length).length +
      (Item.encodeAll ts).length := by
    rw [encode_list, List.length_append]
  have hsize : intOfUint64 (ListSize (UInt64.ofNat (Item.encodeAll ts).length)) =
      (Item.list ts).encode.length := by
    rw [hlen, intOfUint64_of_lt (by rw [toNat_ListSize (by omega)]; omega),
      toNat_ListSize (by omega)]
  refine ⟨s', ?_, hm⟩
  simp only [Transaction.DecodeRLP, hK, Except.mapError_ok, Except.bind_ok, hd, hsize,
    ← LegacyTx.codec_read]
  rfl

/-- **`DecodeRLP` reads back a typed transaction `EncodeRLP` wrote**, and caches
the length of the string's content. -/
theorem DecodeRLP_EncodeRLP_typed {a : AccessListTx} {size : Option ℕ} {b : List UInt8} {s : Stream}
    {rest} (h : (Transaction.mk (.accessList a) size).EncodeRLP = .ok (.str b))
    (h64 : (Item.str b).encode.length < 2 ^ 64) (hr : s.r = (Item.str b).encode ++ rest)
    (hf : s.Fits (Item.str b).encode.length) (hk : s.kind = none) :
    ∃ s', Transaction.DecodeRLP s = .ok (setDecoded (TxData.accessList a).copy b.length, s') ∧
      s.Moved s' (Item.str b).encode.length := by
  -- the string holds the type byte and the list of the fields
  have hty : (Transaction.mk (.accessList a) size).Type = AccessListTxType := rfl
  simp only [Transaction.EncodeRLP, Transaction.encodeTyped, hty,
    show ¬ AccessListTxType = LegacyTxType by decide, if_false] at h
  obtain ⟨b', hb, h⟩ := Except.bind_eq_ok.mp h
  obtain ⟨t, hw, hb⟩ := Except.bind_eq_ok.mp hb
  obtain rfl := Except.pure_eq_ok.mp hb
  obtain rfl : AccessListTxType :: EncodeToBytes t = b := Item.str.inj (Except.pure_eq_ok.mp h)
  rw [EncodeToBytes_eq_encode] at h64 hr hf ⊢
  have hc := length_bytes_lt h64
  -- two bytes at least: a string header, then the content
  have hnot : ∀ y, AccessListTxType :: t.encode = [y] → 0x80 ≤ y.toNat := by
    intro y hy
    exact absurd (List.cons.inj hy).2 (encode_ne_nil t)
  have he := encodeString_of_not_byte hnot
  rw [encode_str, he, List.append_assoc] at hr
  rw [encode_str, he, List.length_append] at hf ⊢
  obtain ⟨s₁, hK, hm, hk₁, he₁, hsz, hfull, hcanon⟩ := Stream.Kind_string_item hk hc hnot hr hf
  have hB := Stream.Bytes_string hk₁ he₁ (by rwa [hsz]) (by rwa [hsz])
  refine ⟨_, ?_, hm.trans (Stream.moved_skip _ _)⟩
  simp only [Transaction.DecodeRLP, hK, Except.mapError_ok, Except.bind_ok, hB,
    decodeTyped_encode hw (by simp at hc; omega)]
  rfl

/-- The copy has the hash of the original. -/
theorem Hash_setDecoded_copy (keccak256 : List UInt8 → Hash) (tx : Transaction) {t : Item}
    (hw : tx.inner.write = .ok t) (h64 : t.encode.length < 2 ^ 64) (n : ℤ) :
    (setDecoded tx.inner.copy n).Hash keccak256 = tx.Hash keccak256 := by
  simp [Transaction.Hash, setDecoded, Transaction.Type, TxData.write_copy hw h64, hw]

end RoundTrip

/-! ### The size `DecodeRLP` caches for a typed transaction -/

/-- **`DecodeRLP` of a typed transaction caches too short a size.** It reads a
typed transaction `EncodeRLP` wrote back with its type, its fields (nil big
integers as zero) and its hash, but the size it caches is the length of the
string's content: shorter than the bytes read, by the string's header, and one
more than the `Size` the same data have when it is not cached. -/
theorem DecodeRLP_typed_size_short (keccak256 : List UInt8 → Hash) (tx : Transaction)
    {b : List UInt8} {s : Stream} {rest} (htype : tx.Type = AccessListTxType)
    (h : tx.EncodeRLP = .ok (.str b))
    (h64 : (Item.str b).encode.length < 2 ^ 64) (hr : s.r = (Item.str b).encode ++ rest)
    (hf : s.Fits (Item.str b).encode.length) (hk : s.kind = none) :
    ∃ tx' s', Transaction.DecodeRLP s = .ok (tx', s') ∧ s.Moved s' (Item.str b).encode.length ∧
      tx'.inner = tx.inner.copy ∧ tx'.Type = tx.Type ∧ tx'.Hash keccak256 = tx.Hash keccak256 ∧
      tx'.Size = b.length ∧ tx'.Size < (Item.str b).encode.length ∧
      (NewTx tx'.inner).Size + 1 = tx'.Size := by
  -- a typed transaction is an access-list transaction
  obtain ⟨inner, size⟩ := tx
  obtain ⟨a, rfl⟩ : ∃ a, inner = .accessList a := by
    cases inner with
    | legacy l => exact absurd htype (show ¬ LegacyTxType = AccessListTxType by decide)
    | accessList a => exact ⟨a, rfl⟩
  obtain ⟨s', hd, hm⟩ := DecodeRLP_EncodeRLP_typed h h64 hr hf hk
  -- what `EncodeRLP` wrote: the type byte and the list of the fields
  have hty : (Transaction.mk (.accessList a) size).Type = AccessListTxType := rfl
  have h' := h
  simp only [Transaction.EncodeRLP, Transaction.encodeTyped, hty,
    show ¬ AccessListTxType = LegacyTxType by decide, if_false] at h'
  obtain ⟨b', hb, h'⟩ := Except.bind_eq_ok.mp h'
  obtain ⟨t, hw, hb⟩ := Except.bind_eq_ok.mp hb
  obtain rfl := Except.pure_eq_ok.mp hb
  obtain rfl : AccessListTxType :: EncodeToBytes t = b := Item.str.inj (Except.pure_eq_ok.mp h')
  have ht64 : t.encode.length < 2 ^ 64 := by
    have h1 := length_bytes_lt h64
    rw [EncodeToBytes_eq_encode, List.length_cons] at h1
    omega
  have hpos : ((AccessListTxType :: EncodeToBytes t).length : ℤ) > 0 := by simp
  refine ⟨_, s', hd, hm, rfl, rfl, Hash_setDecoded_copy keccak256 ⟨.accessList a, size⟩ hw ht64 _,
    ?_, ?_, ?_⟩
  · simp only [Transaction.Size, setDecoded, if_pos hpos, Int.toNat_natCast]
  · -- the string's header is a byte at least
    have he : encodeString (AccessListTxType :: EncodeToBytes t) =
        header 0x80 (AccessListTxType :: EncodeToBytes t).length ++
          (AccessListTxType :: EncodeToBytes t) := encodeString_of_not_byte (by
      intro y hy
      rw [EncodeToBytes_eq_encode] at hy
      exact absurd (List.cons.inj hy).2 (encode_ne_nil t))
    have hh := List.length_pos_of_ne_nil
      (header_ne_nil 0x80 (AccessListTxType :: EncodeToBytes t).length)
    simp only [Transaction.Size, setDecoded, if_pos hpos, Int.toNat_natCast, encode_str, he,
      List.length_append]
    omega
  · -- without the cache, the size is that of the list, without the type byte
    have hw' := TxData.write_copy (@TxData.write_copy (.accessList a) _ hw ht64) ht64
    simp only [NewTx, Transaction.Size, setDecoded, hw']
    rw [if_pos hpos]
    simp only [Int.toNat_natCast, EncodeToBytes_eq_encode, List.length_cons]

/-- An access-list transaction with every field empty. `EncodeRLP` writes it as
a string of thirteen bytes, fourteen with the header; `DecodeRLP` reads the
fourteen and caches a size of thirteen, where the `Size` of the same data is
twelve. -/
theorem DecodeRLP_typed_size_short_empty :
    ∃ tx' s', Transaction.DecodeRLP (Stream.Reset
        [0x8D, 0x01, 0xCB, 0x80, 0x80, 0x80, 0x80, 0x80, 0x80, 0x80, 0xC0, 0x80, 0x80, 0x80] 14) =
        .ok (tx', s') ∧ s'.r = [] ∧ tx'.Size = 13 ∧ (NewTx tx'.inner).Size = 12 := by
  obtain ⟨tx', s', hd, hm, -, -, -, hsize, -, hnew⟩ := DecodeRLP_typed_size_short (fun _ => Hash.zero)
    ⟨.accessList ⟨none, 0, none, 0, none, none, [], [], none, none, none⟩, none⟩
    (b := [0x01, 0xCB, 0x80, 0x80, 0x80, 0x80, 0x80, 0x80, 0x80, 0xC0, 0x80, 0x80, 0x80])
    (s := Stream.Reset
        [0x8D, 0x01, 0xCB, 0x80, 0x80, 0x80, 0x80, 0x80, 0x80, 0x80, 0xC0, 0x80, 0x80, 0x80] 14)
    rfl
    (by simp [Transaction.EncodeRLP, Transaction.encodeTyped, TxData.write, AccessListTx.codec,
      Codec.struct, Fields.cons, Fields.nil, Codec.bigInt, Codec.uint64, Codec.nilPtr, Codec.bytes,
      Codec.slice, Transaction.Type, TxData.txType, emptyValue, Item.nat, EncodeToBytes_eq_encode,
      encodeString, header, AccessListTxType, LegacyTxType])
    (by decide) (by rfl) (Reset_Fits _ (by decide)) rfl
  have h13 : tx'.Size = 13 := hsize
  refine ⟨tx', s', hd, ?_, h13, by omega⟩
  rw [hm.r]
  rfl

end types

end PureChain
