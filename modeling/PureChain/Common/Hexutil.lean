import PureChain.Common.Types
import PureChain.Lib.Except
import Mathlib.Data.Nat.Digits.Defs

/-!
# Package `hexutil`: numbers and byte strings as JSON hex strings

The JSON-RPC interface writes every hash, byte string and quantity as a string
`0x…` of hex digits. `hexutil` holds the encoders and decoders, and the fixed-size
types of the chain (`common.Hash`, `common.Address`, `types.Bloom`,
`types.BlockNonce`) decode through `UnmarshalFixedText`.

* A byte string is `0x` followed by two lower-case digits per byte
  (`Bytes.MarshalText`); the decoders take upper-case digits as well.
* A quantity (`Big`, `Uint64`) is `0x` followed by its digits without leading
  zeros, `0x0` for zero; its decoder refuses a leading zero, an empty number and
  more than 64 (resp. 16) digits.

The model sees a JSON value after the standard library has parsed it: a string's
contents, a number or `null` (`JsonValue`). A decoder for a JSON string fails with
`json.UnmarshalTypeError` on anything else (`JsonError.nonString`) and otherwise
wraps the error of the text decoder with the type it decodes (`JsonError.hex`).

The digits of a byte string round-trip (`decodeHexPairs_encodeHex`), which is
what every fixed-size decoder of this package rests on.
-/

namespace PureChain

/-- A JSON value as a decoder receives it: a string's contents, a number, or
`null`. -/
inductive JsonValue where
  | str (s : List Char)
  | num (n : ℕ)
  | null
  deriving DecidableEq, Repr

namespace hexutil

/-- The errors of the decoders, `decError`s of the package and the two that are
not. -/
inductive HexError where
  | ErrSyntax
  | ErrMissingPrefix
  | ErrOddLength
  | ErrEmptyNumber
  | ErrLeadingZero
  | ErrUint64Range
  | ErrBig256Range
  /-- `hex string has length %d, want %d for %s`. -/
  | lengthMismatch (actual want : ℕ) (typname : String)
  /-- `make([]byte, n)` for an `n` past a Go `int`: a panic in the code. -/
  | lenOutOfRange
  deriving DecidableEq, Repr

/-- The messages, up to the values they print. -/
def HexError.text : HexError → String
  | .ErrSyntax => "invalid hex string"
  | .ErrMissingPrefix => "hex string without 0x prefix"
  | .ErrOddLength => "hex string of odd length"
  | .ErrEmptyNumber => "hex string \"0x\""
  | .ErrLeadingZero => "hex number with leading zero digits"
  | .ErrUint64Range => "hex number > 64 bits"
  | .ErrBig256Range => "hex number > 256 bits"
  | .lengthMismatch _ _ _ => "hex string has length"
  | .lenOutOfRange => "makeslice: len out of range"

end hexutil

/-- The errors of decoding JSON into Go values. -/
inductive JsonError where
  /-- `json: cannot unmarshal non-string into Go value of type %s`. -/
  | nonString (typ : String)
  /-- An error of a text decoder, with the type it decodes (`wrapTypeError`). -/
  | hex (err : hexutil.HexError) (typ : String)
  /-- gencodec's `missing required field '%s' for %s`. -/
  | missingField (field typ : String)
  deriving DecidableEq, Repr

namespace hexutil

/-! ### Encoding -/

/-- `hex.Encode`: two lower-case digits per byte, the high nibble first. -/
def encodeHex (bs : List UInt8) : List Char :=
  bs.flatMap fun b => [Nat.digitChar (b.toNat / 16), Nat.digitChar (b.toNat % 16)]

/-- `Bytes.MarshalText`: `0x` and the digits; the empty slice is `0x`. -/
def Bytes.MarshalText (bs : List UInt8) : List Char := '0' :: 'x' :: encodeHex bs

/-- `EncodeBig`: `0x` and the digits of the number, `0x0` for zero (the number
whose bit length is zero). -/
def EncodeBig (bigint : ℕ) : List Char :=
  if bigint = 0 then ['0', 'x', '0'] else '0' :: 'x' :: Nat.toDigits 16 bigint

/-- `Uint64.MarshalText`: `0x` and `strconv.AppendUint(…, 16)`. -/
def Uint64.MarshalText (b : UInt64) : List Char := '0' :: 'x' :: Nat.toDigits 16 b.toNat

/-! ### Decoding -/

/-- `decodeNibble`: the value of a hex digit of either case; `badNibble` is
`none`. -/
def decodeNibble (c : Char) : Option ℕ :=
  if '0' ≤ c ∧ c ≤ '9' then some (c.toNat - '0'.toNat)
  else if 'A' ≤ c ∧ c ≤ 'F' then some (c.toNat - 'A'.toNat + 10)
  else if 'a' ≤ c ∧ c ≤ 'f' then some (c.toNat - 'a'.toNat + 10)
  else none

/-- The bytes `hex.Decode` writes for a list of nibbles, two at a time. -/
def decodeHexPairs : List ℕ → List UInt8
  | hi :: lo :: rest => UInt8.ofNat (hi * 16 + lo) :: decodeHexPairs rest
  | _ => []

/-- `bytesHave0xPrefix`. -/
def bytesHave0xPrefix : List Char → Bool
  | '0' :: c :: _ => c == 'x' || c == 'X'
  | _ => false

/-- `checkText`: the digits after the prefix, of even length; the empty string
is allowed. -/
def checkText (input : List Char) (wantPrefix : Bool) : Except HexError (List Char) := do
  if input.length = 0 then return []
  else
    let input ← if bytesHave0xPrefix input then pure (input.drop 2)
      else if wantPrefix then throw .ErrMissingPrefix else pure input
    if input.length % 2 ≠ 0 then throw .ErrOddLength else pure input

/-- `checkNumberText`: the digits after the prefix, at least one and without a
leading zero; the empty string is allowed. -/
def checkNumberText (input : List Char) : Except HexError (List Char) :=
  if input.length = 0 then pure []
  else if !bytesHave0xPrefix input then throw .ErrMissingPrefix
  else
    let input := input.drop 2
    if input.length = 0 then throw .ErrEmptyNumber
    else if input.length > 1 ∧ input.head? = some '0' then throw .ErrLeadingZero
    else pure input

/-- `UnmarshalFixedText`: exactly `n` bytes' worth of digits, checked before
`hex.Decode` fills the array. -/
def UnmarshalFixedText (typname : String) (input : List Char) (n : ℕ) :
    Except HexError (Vector UInt8 n) := do
  let raw ← checkText input true
  if raw.length / 2 ≠ n then throw (.lengthMismatch raw.length (n * 2) typname)
  else match raw.mapM decodeNibble with
    | none => throw .ErrSyntax
    | some nibbles => pure (Vector.ofFn fun i => (decodeHexPairs nibbles).getD i.val 0)

/-- `Bytes.UnmarshalText`: `make([]byte, len(raw)/2)` filled by `hex.Decode`. -/
def Bytes.UnmarshalText (input : List Char) :
    Except HexError { bs : List UInt8 // bs.length < 2 ^ 63 } := do
  let raw ← checkText input true
  if hlen : raw.length / 2 < 2 ^ 63 then
    match raw.mapM decodeNibble with
    | none => throw .ErrSyntax
    | some nibbles =>
      pure ⟨List.ofFn (n := raw.length / 2) fun i => (decodeHexPairs nibbles).getD i.val 0,
        by rw [List.length_ofFn]; exact hlen⟩
  else throw .lenOutOfRange

/-- `Big.UnmarshalText`: at most 64 digits. The code assembles the number a
machine word at a time; its value is that of the digits. -/
def Big.UnmarshalText (input : List Char) : Except HexError ℕ := do
  let raw ← checkNumberText input
  if raw.length > 64 then throw .ErrBig256Range
  else match raw.mapM decodeNibble with
    | none => throw .ErrSyntax
    | some nibbles => pure (nibbles.foldl (fun acc d => acc * 16 + d) 0)

/-- `Uint64.UnmarshalText`: at most 16 digits. -/
def Uint64.UnmarshalText (input : List Char) : Except HexError UInt64 := do
  let raw ← checkNumberText input
  if raw.length > 16 then throw .ErrUint64Range
  else match raw.mapM decodeNibble with
    | none => throw .ErrSyntax
    | some nibbles => pure (nibbles.foldl (fun acc d => acc * 16 + UInt64.ofNat d) 0)

/-! ### The JSON decoders -/

/-- A decoder of a JSON string, from the decoder of its text: anything but a
string is `errNonString`, an error of the text is wrapped with the type. -/
def unmarshalString {α : Type} (typ : String) (text : List Char → Except HexError α) :
    JsonValue → Except JsonError α
  | .str s => (text s).mapError fun e => .hex e typ
  | _ => throw (.nonString typ)

/-- `UnmarshalFixedJSON`. -/
def UnmarshalFixedJSON (typ : String) (n : ℕ) : JsonValue → Except JsonError (Vector UInt8 n) :=
  unmarshalString typ fun s => UnmarshalFixedText typ s n

/-- `Bytes.UnmarshalJSON`. -/
def Bytes.UnmarshalJSON : JsonValue → Except JsonError { bs : List UInt8 // bs.length < 2 ^ 63 } :=
  unmarshalString "hexutil.Bytes" Bytes.UnmarshalText

/-- `Big.UnmarshalJSON`. -/
def Big.UnmarshalJSON : JsonValue → Except JsonError ℕ :=
  unmarshalString "*hexutil.Big" Big.UnmarshalText

/-- `Uint64.UnmarshalJSON`. -/
def Uint64.UnmarshalJSON : JsonValue → Except JsonError UInt64 :=
  unmarshalString "hexutil.Uint64" Uint64.UnmarshalText

/-- A number is never a hex string: the `uint64` JSON numbers of a writer that
forgot `hexutil.Uint64` are refused. -/
theorem Uint64.UnmarshalJSON_num (n : ℕ) :
    Uint64.UnmarshalJSON (.num n) = throw (.nonString "hexutil.Uint64") := rfl

/-! ### Round trip of the digits -/

/-- Each of the sixteen lower-case digits reads back as its value. -/
theorem decodeNibble_digitChar : ∀ d < 16, decodeNibble (Nat.digitChar d) = some d := by
  decide

/-- The digits of a byte string are hex digits, two per byte, and read back as
the byte string. -/
theorem decodeHexPairs_encodeHex (bs : List UInt8) :
    (encodeHex bs).mapM decodeNibble = some ((bs.map fun b => [b.toNat / 16, b.toNat % 16]).flatten) ∧
      decodeHexPairs ((bs.map fun b => [b.toNat / 16, b.toNat % 16]).flatten) = bs := by
  induction bs with
  | nil => exact ⟨rfl, rfl⟩
  | cons b bs ih =>
    obtain ⟨ihm, ihd⟩ := ih
    have hb : b.toNat < 256 := b.toNat_lt
    have hhi := decodeNibble_digitChar (b.toNat / 16) (by omega)
    have hlo := decodeNibble_digitChar (b.toNat % 16) (by omega)
    constructor
    · simp only [encodeHex] at ihm ⊢
      simp [List.flatMap_cons, List.mapM_cons, hhi, hlo, ihm]
    · simp only [List.map_cons, List.flatten_cons, List.cons_append, List.nil_append,
        decodeHexPairs, ihd, List.cons.injEq, and_true]
      -- a byte is its high nibble times sixteen plus its low nibble
      have : b.toNat / 16 * 16 + b.toNat % 16 = b.toNat := by omega
      rw [this, UInt8.ofNat_toNat]

@[simp] theorem length_encodeHex (bs : List UInt8) : (encodeHex bs).length = 2 * bs.length := by
  induction bs with
  | nil => rfl
  | cons b bs ih =>
    simp only [encodeHex] at ih ⊢
    simp [List.flatMap_cons, ih]
    omega

end hexutil

end PureChain
