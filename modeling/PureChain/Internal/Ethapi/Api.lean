import PureChain.Core.Types.HeaderJson

/-!
# The RPC encoding of headers

`RPCMarshalHeader` is the map the JSON-RPC server answers with for a header
(`eth_getBlockByNumber` and `eth_getBlockByHash` start from it), and
`encoding/json` writes the map's entries with their keys sorted. The client
(`ethclient.HeaderByNumber`, `HeaderByHash`, `getBlock`) reads the answer back
with `Header.UnmarshalJSON`.

The map is written by hand, and four of its keys are not the decoder's tags:
`TeamAddress`, `teamRate`, `validatorRate` and `extraNonce` against
`team_address`, `team_rate`, `validator_rate` and `extra_nonce`. Matching up to
case does not remove an underscore, so no key selects the required
`team_address`, and the client refuses every header the server writes, whatever
the order of the entries (`UnmarshalJSON_RPCMarshalHeader_fails`). The two rates
are written besides as JSON numbers, which a `hexutil.Uint64` refuses
(`hexutil.Uint64.UnmarshalJSON_num`).
-/

namespace PureChain

namespace ethapi

open hexutil

/-- `RPCMarshalHeader`: the entries of the map, each value as `encoding/json`
writes it. -/
def RPCMarshalHeader (keccak256 : List UInt8 → Hash) (head : Header) : List (String × JsonValue) :=
  [("number", .str (EncodeBig head.Number)),
    ("hash", .str (Hash.MarshalText (head.Hash keccak256))),
    ("parentHash", .str (Hash.MarshalText head.ParentHash)),
    ("nonce", .str (BlockNonce.MarshalText head.Nonce)),
    ("extraNonce", .str (BlockNonce.MarshalText head.ExtraNonce)),
    ("mixHash", .str (Hash.MarshalText head.MixDigest)),
    ("sha3Uncles", .str (Hash.MarshalText head.UncleHash)),
    ("logsBloom", .str (Bloom.MarshalText head.Bloom)),
    ("stateRoot", .str (Hash.MarshalText head.Root)),
    ("miner", .str (Address.MarshalText keccak256 head.Coinbase)),
    ("difficulty", .str (EncodeBig head.Difficulty)),
    ("extraData", .str (Bytes.MarshalText head.Extra)),
    ("size", .str (Uint64.MarshalText (UInt64.ofNat head.Size))),
    ("gasLimit", .str (Uint64.MarshalText head.GasLimit)),
    ("gasUsed", .str (Uint64.MarshalText head.GasUsed)),
    ("timestamp", .str (Uint64.MarshalText head.Time)),
    ("transactionsRoot", .str (Hash.MarshalText head.TxHash)),
    ("receiptsRoot", .str (Hash.MarshalText head.ReceiptHash)),
    ("provider", .str (Address.MarshalText keccak256 head.Provider)),
    ("TeamAddress", .str (Address.MarshalText keccak256 head.TeamAddress)),
    ("teamRate", .num head.TeamRate.toNat),
    ("validatorRate", .num head.ValidatorRate.toNat)]

/-- No key the server writes selects `team_address`. -/
theorem fieldOf_RPCMarshalHeader_ne (keccak256 : List UInt8 → Hash) (head : Header) :
    ∀ kv ∈ RPCMarshalHeader keccak256 head, fieldOf kv.1 ≠ some .TeamAddress := by
  intro kv hkv
  -- the keys do not depend on the header: check the twenty-two of them
  have hkeys : (RPCMarshalHeader keccak256 head).map Prod.fst =
      ["number", "hash", "parentHash", "nonce", "extraNonce", "mixHash", "sha3Uncles",
        "logsBloom", "stateRoot", "miner", "difficulty", "extraData", "size", "gasLimit",
        "gasUsed", "timestamp", "transactionsRoot", "receiptsRoot", "provider", "TeamAddress",
        "teamRate", "validatorRate"] := rfl
  have hsel : ∀ k ∈ ["number", "hash", "parentHash", "nonce", "extraNonce", "mixHash",
      "sha3Uncles", "logsBloom", "stateRoot", "miner", "difficulty", "extraData", "size",
      "gasLimit", "gasUsed", "timestamp", "transactionsRoot", "receiptsRoot", "provider",
      "TeamAddress", "teamRate", "validatorRate"], fieldOf k ≠ some .TeamAddress := by
    decide
  exact hsel kv.1 (hkeys ▸ List.mem_map_of_mem hkv)

/-- **The client refuses every header the server writes.** For any Keccak-256 and
any header, the entries of `RPCMarshalHeader`, in any order – the sorted order
`encoding/json` writes them in among others – fail to decode. -/
theorem UnmarshalJSON_RPCMarshalHeader_fails (keccak256 : List UInt8 → Hash) (head : Header)
    (obj : List (String × JsonValue)) (hobj : obj.Perm (RPCMarshalHeader keccak256 head)) :
    ∃ err, Header.UnmarshalJSON obj = .error err := by
  cases hdec : Header.UnmarshalJSON obj with
  | error err => exact ⟨err, rfl⟩
  | ok h =>
    -- a successful decoding read `team_address` from some key, which the server never writes
    obtain ⟨kv, hkv, hsel⟩ := UnmarshalJSON_TeamAddress hdec
    exact absurd hsel (fieldOf_RPCMarshalHeader_ne keccak256 head kv (hobj.mem_iff.mp hkv))

/-- The zero header, its entries in the server's order. -/
theorem UnmarshalJSON_RPCMarshalHeader_fails_zero :
    (RPCMarshalHeader (fun _ => Hash.zero) Header.zero).Perm
        (RPCMarshalHeader (fun _ => Hash.zero) Header.zero) ∧
      ∃ err, Header.UnmarshalJSON (RPCMarshalHeader (fun _ => Hash.zero) Header.zero) = .error err :=
  ⟨List.Perm.refl _, UnmarshalJSON_RPCMarshalHeader_fails (fun _ => Hash.zero) Header.zero _
    (List.Perm.refl _)⟩

end ethapi

end PureChain
