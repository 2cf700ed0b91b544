import PureChain.Core.StateProcessor

/-!
# Checking a processed block: `ValidateState` and `DeriveFields`

After `Process` has run a block, `BlockValidator.ValidateState` compares what it
computed with what the header claims: the gas used, the log bloom of the
receipts, the root of the receipt trie and the root of the state trie. All four
numbers of the header are chosen by the block's producer; the check is that they
agree with the receipts and the state the verifier computed, *whatever those
are*. Nothing in it compares the receipts with the block's transactions.

That comparison comes later, when the stored receipts are read back:
`Receipts.DeriveFields` fills in the fields a receipt does not store from the
block's transactions, position by position, and fails when the two lists differ
in length (`DeriveFields_eq_ok`).

The bloom and the receipt trie's root are the functions `CreateBloom` and
`DeriveSha` of the receipts (hashing, not modelled). The three comparisons after
the gas check run in goroutines and the first failure to arrive is returned;
which one arrives first is up to the scheduler, and the model returns them in
the order of the code. Whether the block passes does not depend on it
(`ValidateState_eq_ok`).
-/

namespace PureChain

/-- The errors of `ValidateState`, with the values their messages print, and the
one of `DeriveFields`. -/
inductive ValidateError where
  /-- `invalid gas used (remote: %d local: %d)`. -/
  | invalidGasUsed (remote mine : UInt64)
  /-- `invalid bloom (remote: %x  local: %x)`. -/
  | invalidBloom (remote mine : Bloom)
  /-- `invalid receipt root hash (remote: %x local: %x)`. -/
  | invalidReceiptRoot (remote mine : Hash)
  /-- `invalid merkle root (remote: %x local: %x)`. -/
  | invalidMerkleRoot (remote mine : Hash)
  /-- `transaction and receipt count mismatch`. -/
  | countMismatch
  deriving DecidableEq

/-- The messages, up to the values they print. -/
def ValidateError.text : ValidateError → String
  | .invalidGasUsed _ _ => "invalid gas used"
  | .invalidBloom _ _ => "invalid bloom"
  | .invalidReceiptRoot _ _ => "invalid receipt root hash"
  | .invalidMerkleRoot _ _ => "invalid merkle root"
  | .countMismatch => "transaction and receipt count mismatch"

variable {σ ε : Type} (b : Backend σ ε) (CreateBloom : List Receipt → Bloom)
  (DeriveSha : List Receipt → Hash)

/-- `BlockValidator.ValidateState`: the header's gas used, bloom, receipt root and
state root against the receipts and the state the verifier computed. The state
root is `IntermediateRoot(IsEIP158)`: `Finalise` and then the root. -/
def ValidateState (config : ChainConfig) (block : Block) (statedb : σ) (receipts : List Receipt)
    (usedGas : UInt64) : Except ValidateError Unit := do
  let header := block.Header
  if block.Header.GasUsed ≠ usedGas then throw (.invalidGasUsed block.Header.GasUsed usedGas)
  let rbloom := CreateBloom receipts
  if rbloom ≠ header.Bloom then throw (.invalidBloom header.Bloom rbloom)
  let receiptSha := DeriveSha receipts
  if receiptSha ≠ header.ReceiptHash then throw (.invalidReceiptRoot header.ReceiptHash receiptSha)
  let root := b.StateRoot (b.Finalise (config.IsEIP158 header.Number) statedb)
  if header.Root ≠ root then throw (.invalidMerkleRoot header.Root root)
  pure ()

/-- **What `ValidateState` checks**: the four numbers of the header are those of
the receipts and the state, and nothing else. -/
theorem ValidateState_eq_ok {config : ChainConfig} {block : Block} {statedb : σ}
    {receipts : List Receipt} {usedGas : UInt64} :
    ValidateState b CreateBloom DeriveSha config block statedb receipts usedGas = .ok () ↔
      block.Header.GasUsed = usedGas ∧ CreateBloom receipts = block.Header.Bloom ∧
        DeriveSha receipts = block.Header.ReceiptHash ∧
        block.Header.Root = b.StateRoot (b.Finalise (config.IsEIP158 block.Header.Number) statedb) := by
  unfold ValidateState
  -- one guard after the other, each an `if … then throw`
  by_cases h1 : block.Header.GasUsed = usedGas <;>
    by_cases h2 : CreateBloom receipts = block.Header.Bloom <;>
    by_cases h3 : DeriveSha receipts = block.Header.ReceiptHash <;>
    by_cases h4 : block.Header.Root =
      b.StateRoot (b.Finalise (config.IsEIP158 block.Header.Number) statedb) <;>
    simp [h1, h2, h3, h4]

/-- The receipt `DeriveFields` writes at one position: the transaction's type and
hash, the created contract's address for a creation – from the sender, or the
zero address when it cannot be recovered, since the error is dropped – and the
gas used, the difference of the cumulative gas with the receipt before. -/
def deriveReceipt (signer : Signer) (prev : Option Receipt) (tx : Transaction) (r : Receipt) :
    Receipt :=
  { r with
    TxType := tx.TxType
    TxHash := b.TxHash tx
    ContractAddress :=
      if tx.To = none then
        b.CreateAddress ((Sender b.SignerSender signer tx).toOption.getD Address.zero) tx.Nonce
      else r.ContractAddress
    GasUsed := match prev with
      | none => r.CumulativeGasUsed
      | some p => r.CumulativeGasUsed - p.CumulativeGasUsed }

/-- The loop of `DeriveFields` over the positions, with the receipt before. -/
def deriveAll (signer : Signer) : Option Receipt → List Transaction → List Receipt → List Receipt
  | prev, tx :: txs, r :: rs => deriveReceipt b signer prev tx r :: deriveAll signer (some r) txs rs
  | _, _, _ => []

/-- `Receipts.DeriveFields`: with as many receipts as transactions, the receipts
completed from them; otherwise an error. -/
def DeriveFields (config : ChainConfig) (number : ℕ) (txs : List Transaction)
    (receipts : List Receipt) : Except ValidateError (List Receipt) :=
  let signer := MakeSigner config number
  if txs.length ≠ receipts.length then throw .countMismatch
  else pure (deriveAll b signer none txs receipts)

section Derive

variable {b} {signer : Signer}

theorem length_deriveAll :
    ∀ (prev : Option Receipt) (txs : List Transaction) (rs : List Receipt),
      (deriveAll b signer prev txs rs).length = min txs.length rs.length
  | _, [], _ => by simp [deriveAll]
  | _, _ :: _, [] => by simp [deriveAll]
  | _, tx :: txs, r :: rs => by
    simp only [deriveAll, List.length_cons, length_deriveAll _ txs rs]
    omega

/-- Position `i` of the derived receipts carries the hash of transaction `i`. -/
theorem deriveAll_txHash :
    ∀ (prev : Option Receipt) (txs : List Transaction) (rs : List Receipt) (i : ℕ)
      (hi : i < (deriveAll b signer prev txs rs).length) (htx : i < txs.length),
      (deriveAll b signer prev txs rs)[i].TxHash = b.TxHash txs[i]
  | _, [], _, _, hi, _ => by simp [deriveAll] at hi
  | _, _ :: _, [], _, hi, _ => by simp [deriveAll] at hi
  | _, tx :: txs, r :: rs, 0, _, _ => rfl
  | _, tx :: txs, r :: rs, i + 1, hi, htx => by
    simp only [deriveAll, List.getElem_cons_succ]
    exact deriveAll_txHash _ txs rs i _ (by simpa using htx)

/-- **`DeriveFields` succeeds exactly on one receipt per transaction**, and then
the receipt at each position carries the hash of the transaction there. -/
theorem DeriveFields_eq_ok {config : ChainConfig} {number : ℕ} {txs : List Transaction}
    {receipts rs : List Receipt} :
    DeriveFields b config number txs receipts = .ok rs ↔
      txs.length = receipts.length ∧ rs = deriveAll b (MakeSigner config number) none txs receipts := by
  unfold DeriveFields
  by_cases h : txs.length = receipts.length
  · simp only [h, ne_eq, not_true_eq_false, if_false, Except.pure_eq_ok, true_and]
    exact eq_comm
  · simp [h]

theorem DeriveFields_txHash {config : ChainConfig} {number : ℕ} {txs : List Transaction}
    {receipts rs : List Receipt} (h : DeriveFields b config number txs receipts = .ok rs) :
    rs.length = txs.length ∧
      ∀ (i : ℕ) (hi : i < rs.length) (htx : i < txs.length), rs[i].TxHash = b.TxHash txs[i] := by
  obtain ⟨hl, rfl⟩ := DeriveFields_eq_ok.1 h
  refine ⟨by rw [length_deriveAll, hl, min_self], fun i hi htx => ?_⟩
  exact deriveAll_txHash none txs receipts i hi htx

end Derive

end PureChain
