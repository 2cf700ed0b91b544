import PureChain.Core.Types.Header
import PureChain.Core.Types.TransactionSigning

/-!
# Transactions, messages and receipts

`types.Transaction` with the fields of its inner data the modelled code reads,
`types.Message` – the transaction as the EVM executes it, with the sender
recovered – and `types.Receipt` with its consensus fields.

The sender of a transaction is recovered from its signature by the block's
signer. The recovery is elliptic-curve arithmetic that is not code of this
repository: it is the parameter `SignerSender` (`signer.Sender(tx)`), which fails
with one of the signer's errors or returns an address. `types.Sender` adds a
cache in the transaction keyed by the signer, which gives back what the signer
computed before, so it is left out.

`AsMessage` returns *both* a message and an error, as the Go function does: on a
failed recovery the message's sender is the zero address and the error says why.
Whether a caller looks at the error is the caller's affair (see
`PureChain.Core.StateProcessor`).
-/

namespace PureChain

/-- The errors of the signers' `Sender`. -/
inductive SignerError where
  | ErrInvalidChainId
  | ErrTxTypeNotSupported
  | ErrInvalidSig
  deriving DecidableEq, Repr

/-- `types.AccessTuple`: an address and storage keys an access list declares. -/
structure AccessTuple where
  Address : Address
  StorageKeys : List Hash
  deriving DecidableEq

/-- `types.Transaction`: the fields of its data, the signature values included. -/
structure Transaction where
  /-- `tx.Type()`: legacy, access-list. -/
  TxType : UInt8
  Nonce : UInt64
  GasPrice : ℕ
  Gas : UInt64
  /-- `nil` for a contract creation. -/
  To : Option Address
  Value : ℕ
  Data : List UInt8
  AccessList : List AccessTuple
  V : ℕ
  R : ℕ
  S : ℕ
  deriving DecidableEq

/-- `tx.Cost()`: the gas price times the gas, and the value. -/
def Transaction.Cost (tx : Transaction) : ℕ := tx.GasPrice * tx.Gas.toNat + tx.Value

/-- `types.Message`: a transaction with its sender, as the EVM executes it. -/
structure Message where
  To : Option Address
  From : Address
  Nonce : UInt64
  Value : ℕ
  Gas : UInt64
  GasPrice : ℕ
  Data : List UInt8
  AccessList : List AccessTuple
  CheckNonce : Bool
  deriving DecidableEq

section Sender

variable (SignerSender : Signer → Transaction → Except SignerError Address)

/-- `types.Sender`, past its cache: the signer's recovery. -/
def Sender (signer : Signer) (tx : Transaction) : Except SignerError Address :=
  SignerSender signer tx

/-- `Transaction.AsMessage`: the message, whose sender is `common.Address{}` when
the recovery fails, and the recovery's error. -/
def Transaction.AsMessage (tx : Transaction) (s : Signer) : Message × Option SignerError :=
  let msg : Message :=
    { Nonce := tx.Nonce, Gas := tx.Gas, GasPrice := tx.GasPrice, To := tx.To, Value := tx.Value,
      Data := tx.Data, AccessList := tx.AccessList, CheckNonce := true, From := Address.zero }
  match Sender SignerSender s tx with
  | .ok addr => ({ msg with From := addr }, none)
  | .error err => (msg, some err)

variable {SignerSender} {tx : Transaction} {s : Signer}

/-- The message's sender is the recovered one, and there is no error. -/
theorem AsMessage_of_ok {addr : Address} (h : Sender SignerSender s tx = .ok addr) :
    (tx.AsMessage SignerSender s).1.From = addr ∧ (tx.AsMessage SignerSender s).2 = none := by
  simp [Transaction.AsMessage, h]

/-- **A failed recovery leaves the zero address as the sender**, and the error
beside it. -/
theorem AsMessage_of_error {err : SignerError} (h : Sender SignerSender s tx = .error err) :
    (tx.AsMessage SignerSender s).1.From = Address.zero ∧
      (tx.AsMessage SignerSender s).2 = some err := by
  simp [Transaction.AsMessage, h]

/-- Apart from its sender, the message copies the transaction. -/
theorem AsMessage_fields :
    (tx.AsMessage SignerSender s).1 =
      { Nonce := tx.Nonce, Gas := tx.Gas, GasPrice := tx.GasPrice, To := tx.To, Value := tx.Value,
        Data := tx.Data, AccessList := tx.AccessList, CheckNonce := true,
        From := (tx.AsMessage SignerSender s).1.From } := by
  unfold Transaction.AsMessage
  split <;> rfl

end Sender

/-- `types.Log`, its consensus fields. -/
structure Log where
  Address : Address
  Topics : List Hash
  Data : List UInt8
  deriving DecidableEq

/-- `types.ReceiptStatusFailed`. -/
def ReceiptStatusFailed : UInt64 := 0

/-- `types.ReceiptStatusSuccessful`. -/
def ReceiptStatusSuccessful : UInt64 := 1

/-- `types.Receipt`: its consensus fields and the fields `applyTransaction` sets.
The bloom is the function `CreateBloom` of the logs, and the block's hash, number
and the transaction's index are filled in after the block is stored; they are
left out. -/
structure Receipt where
  TxType : UInt8
  PostState : List UInt8
  Status : UInt64
  CumulativeGasUsed : UInt64
  Logs : List Log
  TxHash : Hash
  ContractAddress : Address
  GasUsed : UInt64
  deriving DecidableEq

/-- `types.Block`: a header, its transactions and its uncles. -/
structure Block where
  Header : Header
  Transactions : List Transaction
  Uncles : List PureChain.Header

end PureChain
