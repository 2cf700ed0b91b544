import PureChain.Core.Types.Header
import PureChain.Common.Hexutil

/-!
# The JSON decoder of headers

`Header.UnmarshalJSON` is generated by gencodec from the struct tags of
`types.Header`. It lets `encoding/json` fill a struct of pointers, one per field,
and then demands every field tagged `gencodec:"required"`, in the order of the
struct; the three optional ones (`mixHash`, `nonce`, `extra_nonce`) keep the zero
value when absent.

`encoding/json` matches an object's keys against the tags: a key equal to a tag
selects its field, and otherwise the first field whose tag equals the key up to
case (`fieldOf`). A key that matches no tag is skipped. So a key is read only if
it is a tag spelled with other capitals; `TeamAddress` is not `team_address`, nor
`extraNonce` `extra_nonce`.

The one fact this file proves about the decoder is a frame rule with its run
rule: a key that does not select `team_address` leaves that field as it was
(`storeKey_TeamAddress`, `jsonUnmarshal_TeamAddress`), and the decoder fails
when no key selected it (`UnmarshalJSON_TeamAddress`).

The model folds the case of ASCII letters only; the standard library also maps
the Kelvin sign and the long s onto `k` and `s`. It reports the first value that
fails to decode at once, where the standard library keeps a type error of a text
decoder until the end of the object: the two agree on whether decoding fails.
-/

namespace PureChain

open hexutil

/-! ### The codecs of the fixed-size fields -/

/-- `Hash.MarshalText`. -/
def Hash.MarshalText (h : Hash) : List Char := Bytes.MarshalText h.bytes.toList

/-- `Hash.UnmarshalJSON`. -/
def Hash.UnmarshalJSON (v : JsonValue) : Except JsonError Hash :=
  Hash.mk <$> UnmarshalFixedJSON "common.Hash" 32 v

/-- `Address.checksumHex`: the lower-case digits, with each letter turned to
upper case where the matching nibble of the Keccak-256 of the digits is above 7. -/
def Address.checksumHex (keccak256 : List UInt8 → Hash) (a : Address) : List Char :=
  let digits := encodeHex a.bytes.toList
  let hash := keccak256 (digits.map fun c => UInt8.ofNat c.toNat)
  '0' :: 'x' :: digits.mapIdx fun i c =>
    let hashByte := hash.bytes.toList.getD (i / 2) 0
    let hashByte := if i % 2 = 0 then hashByte >>> 4 else hashByte &&& 0xf
    if c > '9' ∧ hashByte > 7 then Char.ofNat (c.toNat - 32) else c

/-- `Address.MarshalText`, which is `Base58()`: with `AddressType = 1`, which
both settings of the address-type flag select, the checksummed hex. -/
def Address.MarshalText (keccak256 : List UInt8 → Hash) (a : Address) : List Char :=
  Address.checksumHex keccak256 a

/-- `Address.UnmarshalJSON`. -/
def Address.UnmarshalJSON (v : JsonValue) : Except JsonError Address :=
  Address.mk <$> UnmarshalFixedJSON "common.Address" 20 v

/-- `Bloom.MarshalText`. -/
def Bloom.MarshalText (b : Bloom) : List Char := Bytes.MarshalText b.toList

/-- `Bloom.UnmarshalText`, as `encoding/json` calls it on a string. -/
def Bloom.UnmarshalJSON : JsonValue → Except JsonError Bloom :=
  unmarshalString "types.Bloom" fun s => UnmarshalFixedText "Bloom" s 256

/-- `BlockNonce.MarshalText`. -/
def BlockNonce.MarshalText (n : BlockNonce) : List Char := Bytes.MarshalText n.toList

/-- `BlockNonce.UnmarshalText`, as `encoding/json` calls it on a string. -/
def BlockNonce.UnmarshalJSON : JsonValue → Except JsonError BlockNonce :=
  unmarshalString "types.BlockNonce" fun s => UnmarshalFixedText "BlockNonce" s 8

/-! ### Keys and fields -/

/-- The fields of the decoding struct, in the order of `types.Header`. -/
inductive HeaderField where
  | ParentHash | UncleHash | Coinbase | Root | TxHash | ReceiptHash | Bloom | Difficulty
  | Number | GasLimit | GasUsed | Time | Extra | MixDigest | Provider | TeamAddress
  | ValidatorRate | TeamRate | Nonce | ExtraNonce
  deriving DecidableEq, Repr

namespace HeaderField

/-- The JSON tag of each field. -/
def tag : HeaderField → String
  | .ParentHash => "parentHash"
  | .UncleHash => "sha3Uncles"
  | .Coinbase => "miner"
  | .Root => "stateRoot"
  | .TxHash => "transactionsRoot"
  | .ReceiptHash => "receiptsRoot"
  | .Bloom => "logsBloom"
  | .Difficulty => "difficulty"
  | .Number => "number"
  | .GasLimit => "gasLimit"
  | .GasUsed => "gasUsed"
  | .Time => "timestamp"
  | .Extra => "extraData"
  | .MixDigest => "mixHash"
  | .Provider => "provider"
  | .TeamAddress => "team_address"
  | .ValidatorRate => "validator_rate"
  | .TeamRate => "team_rate"
  | .Nonce => "nonce"
  | .ExtraNonce => "extra_nonce"

/-- The fields in struct order, the order `encoding/json` searches them in. -/
def all : List HeaderField :=
  [.ParentHash, .UncleHash, .Coinbase, .Root, .TxHash, .ReceiptHash, .Bloom, .Difficulty,
    .Number, .GasLimit, .GasUsed, .Time, .Extra, .MixDigest, .Provider, .TeamAddress,
    .ValidatorRate, .TeamRate, .Nonce, .ExtraNonce]

end HeaderField

/-- Equality up to the case of ASCII letters. -/
def foldEq (s t : String) : Bool := s.toList.map Char.toLower == t.toList.map Char.toLower

/-- The field a key selects: the one with that tag, else the first whose tag is
the key up to case. -/
def fieldOf (key : String) : Option HeaderField :=
  (HeaderField.all.find? fun f => f.tag == key).or
    (HeaderField.all.find? fun f => foldEq f.tag key)

/-! ### Filling the decoding struct -/

/-- The struct of pointers gencodec decodes into; `none` is a nil pointer. -/
structure DecHeader where
  ParentHash : Option Hash := none
  UncleHash : Option Hash := none
  Coinbase : Option Address := none
  Root : Option Hash := none
  TxHash : Option Hash := none
  ReceiptHash : Option Hash := none
  Bloom : Option Bloom := none
  Difficulty : Option ℕ := none
  Number : Option ℕ := none
  GasLimit : Option UInt64 := none
  GasUsed : Option UInt64 := none
  Time : Option UInt64 := none
  Extra : Option { bs : List UInt8 // bs.length < 2 ^ 63 } := none
  MixDigest : Option Hash := none
  Provider : Option Address := none
  TeamAddress : Option Address := none
  ValidatorRate : Option UInt64 := none
  TeamRate : Option UInt64 := none
  Nonce : Option BlockNonce := none
  ExtraNonce : Option BlockNonce := none

/-- Decoding into a pointer: `null` sets it to nil, anything else is decoded. -/
def decodeAs {α : Type} (dec : JsonValue → Except JsonError α) : JsonValue → Except JsonError (Option α)
  | .null => pure none
  | v => some <$> dec v

namespace DecHeader

/-- Decoding a value into one field. -/
def store (dec : DecHeader) : HeaderField → JsonValue → Except JsonError DecHeader
  | .ParentHash, v => return { dec with ParentHash := ← decodeAs Hash.UnmarshalJSON v }
  | .UncleHash, v => return { dec with UncleHash := ← decodeAs Hash.UnmarshalJSON v }
  | .Coinbase, v => return { dec with Coinbase := ← decodeAs Address.UnmarshalJSON v }
  | .Root, v => return { dec with Root := ← decodeAs Hash.UnmarshalJSON v }
  | .TxHash, v => return { dec with TxHash := ← decodeAs Hash.UnmarshalJSON v }
  | .ReceiptHash, v => return { dec with ReceiptHash := ← decodeAs Hash.UnmarshalJSON v }
  | .Bloom, v => return { dec with Bloom := ← decodeAs Bloom.UnmarshalJSON v }
  | .Difficulty, v => return { dec with Difficulty := ← decodeAs Big.UnmarshalJSON v }
  | .Number, v => return { dec with Number := ← decodeAs Big.UnmarshalJSON v }
  | .GasLimit, v => return { dec with GasLimit := ← decodeAs Uint64.UnmarshalJSON v }
  | .GasUsed, v => return { dec with GasUsed := ← decodeAs Uint64.UnmarshalJSON v }
  | .Time, v => return { dec with Time := ← decodeAs Uint64.UnmarshalJSON v }
  | .Extra, v => return { dec with Extra := ← decodeAs Bytes.UnmarshalJSON v }
  | .MixDigest, v => return { dec with MixDigest := ← decodeAs Hash.UnmarshalJSON v }
  | .Provider, v => return { dec with Provider := ← decodeAs Address.UnmarshalJSON v }
  | .TeamAddress, v => return { dec with TeamAddress := ← decodeAs Address.UnmarshalJSON v }
  | .ValidatorRate, v => return { dec with ValidatorRate := ← decodeAs Uint64.UnmarshalJSON v }
  | .TeamRate, v => return { dec with TeamRate := ← decodeAs Uint64.UnmarshalJSON v }
  | .Nonce, v => return { dec with Nonce := ← decodeAs BlockNonce.UnmarshalJSON v }
  | .ExtraNonce, v => return { dec with ExtraNonce := ← decodeAs BlockNonce.UnmarshalJSON v }

/-- One key and value of the object: stored in the field the key selects, or
skipped. -/
def storeKey (dec : DecHeader) (kv : String × JsonValue) : Except JsonError DecHeader :=
  match fieldOf kv.1 with
  | none => pure dec
  | some f => dec.store f kv.2

end DecHeader

/-- `json.Unmarshal(input, &dec)`: the keys in the order of the object. -/
def jsonUnmarshal (obj : List (String × JsonValue)) : Except JsonError DecHeader :=
  obj.foldlM DecHeader.storeKey {}

/-- A required field: its value, or gencodec's error naming its tag. -/
def requireField {α : Type} (name : String) : Option α → Except JsonError α
  | some x => pure x
  | none => throw (.missingField name "Header")

/-- The second half of `Header.UnmarshalJSON`: the required fields in struct
order, into a zero header. -/
def DecHeader.toHeader (dec : DecHeader) : Except JsonError Header := do
  let ParentHash ← requireField "parentHash" dec.ParentHash
  let UncleHash ← requireField "sha3Uncles" dec.UncleHash
  let Coinbase ← requireField "miner" dec.Coinbase
  let Root ← requireField "stateRoot" dec.Root
  let TxHash ← requireField "transactionsRoot" dec.TxHash
  let ReceiptHash ← requireField "receiptsRoot" dec.ReceiptHash
  let Bloom ← requireField "logsBloom" dec.Bloom
  let Difficulty ← requireField "difficulty" dec.Difficulty
  let Number ← requireField "number" dec.Number
  let GasLimit ← requireField "gasLimit" dec.GasLimit
  let GasUsed ← requireField "gasUsed" dec.GasUsed
  let Time ← requireField "timestamp" dec.Time
  let Extra ← requireField "extraData" dec.Extra
  let Provider ← requireField "provider" dec.Provider
  let TeamAddress ← requireField "team_address" dec.TeamAddress
  let ValidatorRate ← requireField "validator_rate" dec.ValidatorRate
  let TeamRate ← requireField "team_rate" dec.TeamRate
  pure
    { ParentHash, UncleHash, Coinbase, Root, TxHash, ReceiptHash, Bloom, Difficulty, Number,
      GasLimit, GasUsed, Time, Extra := Extra.val,
      MixDigest := dec.MixDigest.getD Header.zero.MixDigest, Provider, TeamAddress,
      ValidatorRate, TeamRate, Nonce := dec.Nonce.getD Header.zero.Nonce,
      ExtraNonce := dec.ExtraNonce.getD Header.zero.ExtraNonce, extra_len_lt := Extra.property }

/-- `Header.UnmarshalJSON`, on the object `json.Unmarshal` parsed. -/
def Header.UnmarshalJSON (obj : List (String × JsonValue)) : Except JsonError Header := do
  let dec ← jsonUnmarshal obj
  dec.toHeader

/-! ### The `team_address` field -/

section TeamAddress

variable {dec dec' : DecHeader}

@[simp] theorem requireField_eq_ok {α : Type} {name : String} {o : Option α} {x : α} :
    requireField name o = .ok x ↔ o = some x := by
  cases o <;> simp [requireField]

/-- Storing into any other field leaves `team_address` as it was. -/
theorem store_TeamAddress {f : HeaderField} {v : JsonValue} (hf : f ≠ .TeamAddress)
    (h : dec.store f v = .ok dec') : dec'.TeamAddress = dec.TeamAddress := by
  -- every case decodes the value and writes one field: read the write back
  cases f
  case TeamAddress => exact absurd rfl hf
  all_goals
    obtain ⟨x, -, hx⟩ := Except.bind_eq_ok.mp h
    rw [← Except.pure_eq_ok.mp hx]

/-- A key that does not select `team_address` leaves it as it was. -/
theorem storeKey_TeamAddress {kv : String × JsonValue} (hk : fieldOf kv.1 ≠ some .TeamAddress)
    (h : dec.storeKey kv = .ok dec') : dec'.TeamAddress = dec.TeamAddress := by
  unfold DecHeader.storeKey at h
  split at h
  · exact congrArg DecHeader.TeamAddress (Except.pure_eq_ok.mp h).symm
  · rename_i f hf
    exact store_TeamAddress (fun he => hk (he ▸ hf)) h

/-- **No key for `team_address`, no `team_address`**: an object none of whose keys
selects the field leaves it nil, over the whole object. -/
theorem jsonUnmarshal_TeamAddress :
    ∀ {obj : List (String × JsonValue)} {dec dec' : DecHeader},
      (∀ kv ∈ obj, fieldOf kv.1 ≠ some .TeamAddress) →
        obj.foldlM DecHeader.storeKey dec = .ok dec' → dec'.TeamAddress = dec.TeamAddress
  | [], _, _, _, h => by
    rw [List.foldlM_nil, Except.pure_eq_ok] at h
    rw [h]
  | kv :: obj, dec, dec', hkeys, h => by
    rw [List.foldlM_cons] at h
    obtain ⟨mid, hmid, hrest⟩ := Except.bind_eq_ok.mp h
    -- the first key leaves the field, and so do the rest
    rw [jsonUnmarshal_TeamAddress (fun kv' hkv' => hkeys kv' (List.mem_cons_of_mem _ hkv')) hrest,
      storeKey_TeamAddress (hkeys kv List.mem_cons_self) hmid]

/-- The required `team_address` is read from a key that selects it, or decoding
fails. -/
theorem UnmarshalJSON_TeamAddress {obj : List (String × JsonValue)} {h : Header}
    (hok : Header.UnmarshalJSON obj = .ok h) : ∃ kv ∈ obj, fieldOf kv.1 = some .TeamAddress := by
  by_contra hsome
  have hnone : ∀ kv ∈ obj, fieldOf kv.1 ≠ some .TeamAddress := fun kv hkv he => hsome ⟨kv, hkv, he⟩
  obtain ⟨dec, hdec, hhdr⟩ := Except.bind_eq_ok.mp hok
  have hnil : dec.TeamAddress = none := jsonUnmarshal_TeamAddress hnone hdec
  simp [DecHeader.toHeader, hnil, Except.bind_eq_ok] at hhdr

end TeamAddress

end PureChain
