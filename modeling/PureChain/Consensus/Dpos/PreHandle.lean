import PureChain.Consensus.Dpos.SealHash
import PureChain.Consensus.Dpos.Verify

/-!
# The engine's own state: `PreHandle` and the chain id

The Dpos engine recovers the sealer of every header it checks with
`ecrecover(header, p.signatures, p.chainConfig.ChainID)`, in `verifySeal` and in
`Snapshot.apply` alike: the chain id is part of the bytes a validator signs
(`PureChain.Dpos.sigHeaderItem`). `chainConfig` is the configuration the engine
was built with, the pointer the blockchain holds too.

`PreHandle`, run before the transactions of every block the node processes or
mines, overwrites that chain id with 100222 as soon as the block is above
100000, and replaces the engine's transaction signer. From then on the engine
checks every header, older ones included, against other bytes than those its
sealer signed (`PreHandle_changes_signed_bytes`): whether a header verifies, and
whether a snapshot can be rebuilt from an older checkpoint, depends on whether
the node has processed a block above 100000 since it started.
-/

namespace PureChain

namespace Dpos

/-- `Dpos.PreHandle`. Above block 100000 the chain id of the shared configuration
becomes 100222 and the signer an EIP-155 one for it; from the Berlin fork on the
signer is an EIP-2930 one for the configuration's chain id. It never fails. -/
def PreHandle (p : Dpos) (header : Header) : Dpos :=
  let p := if header.Number > 100000 then
      { p with
        chainConfig := { p.chainConfig with ChainID := 100222 }
        signer := NewEIP155Signer 100222 }
    else p
  if p.chainConfig.IsBerlin header.Number then
    { p with signer := NewEIP2930Signer p.chainConfig.ChainID }
  else p

/-- The sealer recovery the engine hands to `verifySeal` and `Snapshot.apply`:
`ecrecover` under the chain id of its configuration. -/
def recoverSealer (p : Dpos) (keccak256 : List UInt8 → PureChain.Hash)
    (Ecrecover : PureChain.Hash → List UInt8 → Except Error (List UInt8)) (header : Header) :
    Except Error Address :=
  ecrecover keccak256 Ecrecover header p.chainConfig.ChainID

section PreHandle

variable {p : Dpos} {header : Header}

theorem PreHandle_chainID_of_gt (hn : 100000 < header.Number) :
    (p.PreHandle header).chainConfig.ChainID = 100222 := by
  unfold PreHandle
  simp only [gt_iff_lt, hn, if_true]
  split_ifs <;> rfl

/-- Up to block 100000 the chain id is left alone. -/
theorem PreHandle_chainID_of_le (hn : header.Number ≤ 100000) :
    (p.PreHandle header).chainConfig.ChainID = p.chainConfig.ChainID := by
  unfold PreHandle
  simp only [gt_iff_lt, not_lt.mpr hn, if_false]
  split_ifs <;> rfl

theorem PreHandle_signer_of_gt (hn : 100000 < header.Number)
    (hb : p.chainConfig.BerlinBlock = some 4) :
    (p.PreHandle header).signer = NewEIP2930Signer 100222 := by
  unfold PreHandle
  simp only [gt_iff_lt, hn, if_true, ChainConfig.IsBerlin, hb, isForked_some]
  rw [if_pos (by simp; omega)]

/-- `PreHandle` changes the chain id and the signer, and no fork block. -/
theorem PreHandle_RedCoastBlock :
    (p.PreHandle header).chainConfig.RedCoastBlock = p.chainConfig.RedCoastBlock := by
  dsimp only [PreHandle]
  split_ifs <;> rfl

end PreHandle

/-- **`PreHandle` changes what the engine checks old headers against.** Once the
engine on the shipped main-network configuration has handled a block above
100000, its chain id is 100222 and its signer an EIP-2930 one for it; for every
header, whatever its height, the bytes the engine recovers the sealer from are
no longer the bytes signed under the chain id 7233 the header was sealed with. -/
theorem PreHandle_changes_signed_bytes (keccak256 : List UInt8 → PureChain.Hash)
    (Ecrecover : PureChain.Hash → List UInt8 → Except Error (List UInt8)) (v : Address)
    {header h : Header} (hn : 100000 < header.Number) (he : 65 ≤ h.Extra.length)
    (hd : h.Difficulty < 2 ^ 256) (hnum : h.Number < 2 ^ 256) :
    (shippedEngine v).chainConfig.ChainID = 7233 ∧
      ((shippedEngine v).PreHandle header).chainConfig.ChainID = 100222 ∧
      ((shippedEngine v).PreHandle header).signer = NewEIP2930Signer 100222 ∧
      ((shippedEngine v).PreHandle header).recoverSealer keccak256 Ecrecover h =
        ecrecover keccak256 Ecrecover h 100222 ∧
      encodeSigHeader h ((shippedEngine v).PreHandle header).chainConfig.ChainID ≠
        encodeSigHeader h (shippedEngine v).chainConfig.ChainID := by
  have hid := PreHandle_chainID_of_gt (p := shippedEngine v) hn
  refine ⟨rfl, hid, PreHandle_signer_of_gt hn rfl, by rw [recoverSealer, hid], ?_⟩
  rw [hid, show (shippedEngine v).chainConfig.ChainID = 7233 from rfl]
  -- the two signed lists differ in their first item, the chain id
  intro heq
  have hc := chainId_eq_of_encodeSigHeader_eq he (length_sigHeaderItem_lt (by decide) hd hnum)
    (length_sigHeaderItem_lt (by decide) hd hnum) heq
  exact absurd hc (by decide)

/-- Block 100001 handled, and a header with a bare 65-byte seal checked after it. -/
theorem PreHandle_changes_signed_bytes_zero :
    let header : Header := { Header.zero with Number := 100001 }
    let h : Header := { Header.zero with Extra := List.replicate 65 0, extra_len_lt := by simp }
    (100000 < header.Number ∧ 65 ≤ h.Extra.length ∧ h.Difficulty < 2 ^ 256 ∧
      h.Number < 2 ^ 256) ∧
    (shippedEngine Address.zero).chainConfig.ChainID = 7233 ∧
      ((shippedEngine Address.zero).PreHandle header).chainConfig.ChainID = 100222 ∧
      ((shippedEngine Address.zero).PreHandle header).signer = NewEIP2930Signer 100222 ∧
      ((shippedEngine Address.zero).PreHandle header).recoverSealer (fun _ => Hash.zero)
          (fun _ _ => .ok []) h =
        ecrecover (fun _ => Hash.zero) (fun _ _ => .ok []) h 100222 ∧
      encodeSigHeader h ((shippedEngine Address.zero).PreHandle header).chainConfig.ChainID ≠
        encodeSigHeader h (shippedEngine Address.zero).chainConfig.ChainID :=
  ⟨⟨by decide, by decide, by decide, by decide⟩,
    PreHandle_changes_signed_bytes (fun _ => Hash.zero) (fun _ _ => .ok []) Address.zero
      (by decide) (by decide) (by decide) (by decide)⟩

end Dpos

end PureChain
