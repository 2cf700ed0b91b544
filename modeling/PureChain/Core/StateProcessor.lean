import PureChain.Core.Types.Transaction
import PureChain.Consensus.Engine
import PureChain.Lib.Except

/-!
# Block processing: `StateProcessor.Process`

`Process` replays the transactions of a block on the state of its parent. When
the engine is a `consensus.PoSA` (the Dpos engine), it first lets the engine
`PreHandle` the block, and then, for every transaction in order,

* asks the engine whether it is a **system transaction**; one that is, is set
  aside in `systemTxs` and not executed here;
* lets the engine validate any other (`ValidateTx`);
* turns it into a message with the block's signer (`AsMessage`) and executes it
  (`applyTransaction`), collecting the transaction and its receipt.

Last, the engine's `Finalize` gets the executed transactions, the receipts and
the system transactions, and returns the receipts of the block.

Three things of the code are kept as they are, since results turn on them.

* The error `AsMessage` returns is dropped: Go's `msg, err := tx.AsMessage(signer)`
  is followed by `receipt, err := applyTransaction(…)`, which overwrites `err`
  before it is read. A transaction whose sender cannot be recovered is executed
  with the zero address as its sender (`processTx_common`).
* A system transaction gets no receipt in the loop (`processTxs_counts`).
* The chain configuration is one object shared by the processor and the engine:
  a `PreHandle` that changes the engine's may change the processor's, and the
  block's signer is chosen after it.

The EVM, the state trie and the hashing are not modelled: they are the record
`Backend`, over an abstract state `σ` and Go's `error` type `ε`.
-/

namespace PureChain

/-- `vm.BlockContext`: what the EVM reads of the block. -/
structure BlockContext where
  Coinbase : Address
  BlockNumber : ℕ
  Time : UInt64
  Difficulty : ℕ
  GasLimit : UInt64

/-- `NewEVMBlockContext`: the block's fields, and as coinbase the `author` given
or, when there is none, the engine's `Author` of the header. -/
def NewEVMBlockContext (header : Header) (Author : Header → Address) (author : Option Address) :
    BlockContext where
  Coinbase := match author with
    | some a => a
    | none => Author header
  BlockNumber := header.Number
  Time := header.Time
  Difficulty := header.Difficulty
  GasLimit := header.GasLimit

/-- `core.ExecutionResult`, with the logs the execution left in the state under
the transaction's hash (`statedb.GetLogs(tx.Hash())`). -/
structure ExecutionResult where
  UsedGas : UInt64
  /-- `result.Failed()`: the execution reverted; the transaction still counts. -/
  Failed : Bool
  Logs : List Log

/-- What block processing calls that is not modelled: transaction hashing,
signature recovery, contract addresses, and the EVM and the state trie over the
state `σ`. Errors are Go `error` values, of type `ε`. -/
structure Backend (σ ε : Type) where
  /-- `tx.Hash()`. -/
  TxHash : Transaction → Hash
  /-- `signer.Sender(tx)`. -/
  SignerSender : Signer → Transaction → Except SignerError Address
  /-- `crypto.CreateAddress(sender, nonce)`. -/
  CreateAddress : Address → UInt64 → Address
  /-- The checks `StateTransition.preCheck` makes before it takes gas from the
  pool: the sender's nonce, and that the sender can pay for the gas. -/
  PreCheck : Message → σ → Except ε Unit
  /-- `core.ErrGasLimitReached`. -/
  ErrGasLimitReached : ε
  /-- The rest of `TransitionDb` once the gas is bought: charge the sender, check
  the intrinsic gas and the transfer, run the EVM, refund and pay the fee. -/
  Transition : BlockContext → Message → σ → Except ε (ExecutionResult × σ)
  /-- `statedb.Finalise(deleteEmptyObjects)`. -/
  Finalise : Bool → σ → σ
  /-- The root of the state trie; `IntermediateRoot` is `Finalise` and then this. -/
  StateRoot : σ → Hash

/-- `GasPool.SubGas`: the pool less the amount, when it holds that much; `none` is
`ErrGasLimitReached`. The pool is a `uint64` that `AddGas` never lets overflow, so
a natural number here. -/
def SubGas (gp amount : ℕ) : Option ℕ :=
  if gp < amount then none else some (gp - amount)

/-- `consensus.PoSA`: the hooks of the Dpos engine, over its own state `E`.
`PreHandle` returns the engine and the chain configuration it shares with the
processor. -/
structure PoSA (E σ ε : Type) where
  PreHandle : E → ChainConfig → ChainHeaderReader → Header → σ → Except ε (E × ChainConfig)
  IsSystemTransaction : E → Transaction → Header → Except ε Bool
  ValidateTx : E → Transaction → Header → σ → Except ε Unit

/-- `consensus.Engine`, the members block processing calls. `Finalize` returns
the state, the transactions and the receipts it leaves. -/
structure Engine (E σ ε : Type) where
  Author : E → Header → Address
  Finalize : E → ChainConfig → ChainHeaderReader → Header → σ → List Transaction →
    List Header → List Receipt → List Transaction → UInt64 → Bool →
    Except ε (σ × List Transaction × List Receipt)
  /-- The engine's hooks, when it is a `consensus.PoSA`. -/
  PoSA : Option (PoSA E σ ε)

/-- The errors of `Process`: the engine's, or a transaction's, wrapped as
`could not apply tx %d [%v]: %w`. -/
inductive ProcessError (ε : Type) where
  | engine (err : ε)
  | couldNotApply (i : ℕ) (hash : Hash) (err : ε)

/-- What the execution of a block's transactions carries from one to the next:
the state, the gas pool and the gas used. -/
structure ExecState (σ : Type) where
  statedb : σ
  gp : ℕ
  usedGas : UInt64

variable {σ ε E : Type} (b : Backend σ ε)

/-- `ApplyMessage(evm, msg, gp)`: `StateTransition.TransitionDb` with its use of
the gas pool written out. The message's gas is taken from the pool before it
runs, and what it did not use goes back (`refundGas`); an error makes the block
invalid. -/
def ApplyMessage (blockContext : BlockContext) (msg : Message) (gp : ℕ) (statedb : σ) :
    Except ε (ExecutionResult × ℕ × σ) := do
  b.PreCheck msg statedb
  let some gp := SubGas gp msg.Gas.toNat | throw b.ErrGasLimitReached
  let (result, statedb) ← b.Transition blockContext msg statedb
  pure (result, gp + (msg.Gas.toNat - result.UsedGas.toNat), statedb)

/-- `applyTransaction`: execute the message, settle the state – a root in the
receipt before Byzantium, none after – and write the receipt. -/
def applyTransaction (msg : Message) (config : ChainConfig) (blockContext : BlockContext)
    (header : Header) (tx : Transaction) (st : ExecState σ) : Except ε (Receipt × ExecState σ) := do
  let (result, gp, statedb) ← ApplyMessage b blockContext msg st.gp st.statedb
  let (root, statedb) :=
    if config.IsByzantium header.Number then ([], b.Finalise true statedb)
    else
      let statedb := b.Finalise (config.IsEIP158 header.Number) statedb
      ((b.StateRoot statedb).bytes.toList, statedb)
  let usedGas := st.usedGas + result.UsedGas
  let receipt : Receipt :=
    { TxType := tx.TxType, PostState := root, CumulativeGasUsed := usedGas,
      Status := if result.Failed then ReceiptStatusFailed else ReceiptStatusSuccessful,
      TxHash := b.TxHash tx, GasUsed := result.UsedGas,
      ContractAddress := if msg.To = none then b.CreateAddress msg.From tx.Nonce else Address.zero,
      Logs := result.Logs }
  pure (receipt, { statedb, gp, usedGas })

/-- `ApplyTransaction`, the miner's: the message with the block's signer, whose
error is returned, executed under the given author. -/
def ApplyTransaction (config : ChainConfig) (author : Address) (header : Header)
    (tx : Transaction) (st : ExecState σ) : Except (SignerError ⊕ ε) (Receipt × ExecState σ) :=
  match tx.AsMessage b.SignerSender (MakeSigner config header.Number) with
  | (_, some err) => throw (.inl err)
  | (msg, none) =>
    (applyTransaction b msg config (NewEVMBlockContext header (fun _ => author) (some author))
      header tx st).mapError .inr

/-- What the loop of `Process` has collected. -/
structure ProcessAcc (σ : Type) extends ExecState σ where
  commonTxs : List Transaction
  systemTxs : List Transaction
  receipts : List Receipt

variable (eng : Engine E σ ε) (p : E) (config : ChainConfig) (header : Header)
  (blockContext : BlockContext) (signer : Signer)

/-- The body of the loop for a transaction that is executed: the message, whose
recovery error nothing reads, applied and its receipt kept. -/
def applyCommon (i : ℕ) (tx : Transaction) (acc : ProcessAcc σ) :
    Except (ProcessError ε) (ProcessAcc σ) := do
  let msg := (tx.AsMessage b.SignerSender signer).1
  let (receipt, st) ← (applyTransaction b msg config blockContext header tx acc.toExecState).mapError
    (.couldNotApply i (b.TxHash tx))
  pure { acc with
    toExecState := st
    commonTxs := acc.commonTxs ++ [tx]
    receipts := acc.receipts ++ [receipt] }

/-- The body of the loop of `Process` for transaction `i`. -/
def processTx (i : ℕ) (tx : Transaction) (acc : ProcessAcc σ) :
    Except (ProcessError ε) (ProcessAcc σ) :=
  match eng.PoSA with
  | none => applyCommon b config header blockContext signer i tx acc
  | some posa => do
    let isSystemTx ← (posa.IsSystemTransaction p tx header).mapError .engine
    if isSystemTx then pure { acc with systemTxs := acc.systemTxs ++ [tx] }
    else do
      (posa.ValidateTx p tx header acc.statedb).mapError .engine
      applyCommon b config header blockContext signer i tx acc

/-- The loop `for i, tx := range block.Transactions()`, from index `i`. -/
def processTxs : List Transaction → ℕ → ProcessAcc σ → Except (ProcessError ε) (ProcessAcc σ)
  | [], _, acc => pure acc
  | tx :: txs, i, acc => do
    let acc ← processTx b eng p config header blockContext signer i tx acc
    processTxs txs (i + 1) acc

/-- What the loop of `Process` starts from: the parent's state, the block's whole
gas limit in the pool, nothing used or collected. -/
def ProcessAcc.init (header : Header) (statedb : σ) : ProcessAcc σ :=
  { statedb, gp := header.GasLimit.toNat, usedGas := 0, commonTxs := [], systemTxs := [],
    receipts := [] }

/-- `StateProcessor.Process`: the receipts, the logs, the gas used and the state. -/
def Process (chain : ChainHeaderReader) (block : Block) (statedb : σ) (IsSkipProvider : Bool) :
    Except (ProcessError ε) (List Receipt × List Log × UInt64 × σ) := do
  let header := block.Header
  let blockContext := NewEVMBlockContext header (eng.Author p) none
  let (p, config) ← match eng.PoSA with
    | some posa => (posa.PreHandle p config chain header statedb).mapError .engine
    | none => pure (p, config)
  let signer := MakeSigner config header.Number
  let acc ← processTxs b eng p config header blockContext signer block.Transactions 0
    (ProcessAcc.init header statedb)
  let (statedb, _, receipts) ← (eng.Finalize p config chain header acc.statedb acc.commonTxs
    block.Uncles acc.receipts acc.systemTxs acc.usedGas IsSkipProvider).mapError .engine
  pure (receipts, receipts.flatMap (·.Logs), acc.usedGas, statedb)

/-! ### The gas pool -/

section GasPool

variable {b} {blockContext : BlockContext} {msg : Message} {gp gp' gp₂ : ℕ} {statedb statedb' : σ}
  {result : ExecutionResult}

theorem SubGas_eq_some {amount : ℕ} : SubGas gp amount = some gp' ↔ amount ≤ gp ∧ gp' = gp - amount := by
  unfold SubGas
  split_ifs with h
  · simp only [false_iff, not_and]
    omega
  · simp only [Option.some.injEq]
    omega

/-- **What a message that runs does to the pool**: the checks passed, the pool
held the message's gas, and it is left less the gas the message used. -/
theorem ApplyMessage_eq_ok :
    ApplyMessage b blockContext msg gp statedb = .ok (result, gp', statedb') ↔
      b.PreCheck msg statedb = .ok () ∧ msg.Gas.toNat ≤ gp ∧
        b.Transition blockContext msg statedb = .ok (result, statedb') ∧
        gp' = gp - msg.Gas.toNat + (msg.Gas.toNat - result.UsedGas.toNat) := by
  unfold ApplyMessage
  -- one case per way the three steps can end
  rcases b.PreCheck msg statedb with err | ⟨⟩
  · simp
  rcases hsub : SubGas gp msg.Gas.toNat with _ | gp₀
  · have hlt : gp < msg.Gas.toNat := by
      unfold SubGas at hsub
      split_ifs at hsub with h
      exact h
    simp
    omega
  obtain ⟨hle, rfl⟩ := SubGas_eq_some.1 hsub
  rcases b.Transition blockContext msg statedb with err | ⟨r, s⟩
  · simp
  · simp only [Except.bind_ok, Except.pure_eq_ok, Prod.mk.injEq, Except.ok.injEq, true_and, hle]
    constructor
    · rintro ⟨rfl, rfl, rfl⟩
      exact ⟨⟨rfl, rfl⟩, rfl⟩
    · rintro ⟨⟨rfl, rfl⟩, rfl⟩
      exact ⟨rfl, rfl, rfl⟩

/-- **More gas in the pool changes nothing but the pool**: a message that runs
from a pool runs from any larger one, to the same result and state. -/
theorem ApplyMessage_of_le (h : ApplyMessage b blockContext msg gp statedb = .ok (result, gp', statedb'))
    (hle : gp ≤ gp₂) :
    ApplyMessage b blockContext msg gp₂ statedb = .ok (result, gp' + (gp₂ - gp), statedb') := by
  obtain ⟨hpre, hgas, htr, rfl⟩ := ApplyMessage_eq_ok.1 h
  exact ApplyMessage_eq_ok.2 ⟨hpre, by omega, htr, by omega⟩

/-- The same for a whole transaction: from a larger pool, the same receipt and the
same state, and the pool larger by as much. -/
theorem applyTransaction_of_le {config : ChainConfig} {header : Header} {tx : Transaction}
    {st st' : ExecState σ} {receipt : Receipt}
    (h : applyTransaction b msg config blockContext header tx st = .ok (receipt, st'))
    (hle : st.gp ≤ gp₂) :
    applyTransaction b msg config blockContext header tx { st with gp := gp₂ } =
      .ok (receipt, { st' with gp := st'.gp + (gp₂ - st.gp) }) := by
  unfold applyTransaction at h ⊢
  obtain ⟨⟨result, gp, statedb⟩, happ, hrest⟩ := Except.bind_eq_ok.mp h
  rw [ApplyMessage_of_le happ hle, Except.bind_ok]
  cases Except.pure_eq_ok.mp hrest
  rfl

end GasPool

/-! ### What one transaction does -/

section Step

variable {b eng p config header blockContext signer} {i : ℕ} {tx : Transaction}
  {acc acc' : ProcessAcc σ}

/-- **What the loop does with one transaction.** It is set aside as a system
transaction, receipt-less; or it is executed: the engine, if it has hooks,
classed it as none and validated it, and the message – with the recovered
sender, or the zero address when the recovery fails – was applied. -/
theorem processTx_cases (h : processTx b eng p config header blockContext signer i tx acc = .ok acc') :
    (∃ posa, eng.PoSA = some posa ∧ posa.IsSystemTransaction p tx header = .ok true ∧
      acc' = { acc with systemTxs := acc.systemTxs ++ [tx] }) ∨
    ((∀ posa, eng.PoSA = some posa → posa.IsSystemTransaction p tx header = .ok false ∧
        posa.ValidateTx p tx header acc.statedb = .ok ()) ∧
      ∃ receipt st, applyTransaction b (tx.AsMessage b.SignerSender signer).1 config blockContext
          header tx acc.toExecState = .ok (receipt, st) ∧
        acc' = { acc with
          toExecState := st
          commonTxs := acc.commonTxs ++ [tx]
          receipts := acc.receipts ++ [receipt] }) := by
  -- the common branch, once the hooks have let the transaction through
  have hcommon : applyCommon b config header blockContext signer i tx acc = .ok acc' →
      ∃ receipt st, applyTransaction b (tx.AsMessage b.SignerSender signer).1 config blockContext
          header tx acc.toExecState = .ok (receipt, st) ∧
        acc' = { acc with
          toExecState := st
          commonTxs := acc.commonTxs ++ [tx]
          receipts := acc.receipts ++ [receipt] } := by
    intro h
    obtain ⟨⟨receipt, st⟩, happly, hacc⟩ := Except.bind_eq_ok.mp h
    exact ⟨receipt, st, Except.mapError_eq_ok.mp happly, (Except.pure_eq_ok.mp hacc).symm⟩
  unfold processTx at h
  split at h
  · rename_i hnone
    exact .inr ⟨fun posa h' => (by rw [hnone] at h'; cases h'), hcommon h⟩
  · rename_i posa hsome
    obtain ⟨isSys, hsys, h⟩ := Except.bind_eq_ok.mp h
    rw [Except.mapError_eq_ok] at hsys
    cases isSys with
    | true => exact .inl ⟨posa, hsome, hsys, (Except.pure_eq_ok.mp h).symm⟩
    | false =>
      obtain ⟨u, hval, h⟩ := Except.bind_eq_ok.mp h
      rw [Except.mapError_eq_ok] at hval
      refine .inr ⟨fun posa' h' => ?_, hcommon h⟩
      rw [hsome, Option.some.injEq] at h'
      subst h'
      exact ⟨hsys, hval⟩

/-- **A transaction the hooks let through is executed, whatever its signature.**
The message is built with the block's signer; when the sender cannot be
recovered, it is the zero address that the EVM runs the transaction as. -/
theorem processTx_common {receipt : Receipt} {st : ExecState σ}
    (hhooks : ∀ posa, eng.PoSA = some posa → posa.IsSystemTransaction p tx header = .ok false ∧
      posa.ValidateTx p tx header acc.statedb = .ok ())
    (happly : applyTransaction b (tx.AsMessage b.SignerSender signer).1 config blockContext header tx
      acc.toExecState = .ok (receipt, st)) :
    processTx b eng p config header blockContext signer i tx acc =
      .ok { acc with
        toExecState := st
        commonTxs := acc.commonTxs ++ [tx]
        receipts := acc.receipts ++ [receipt] } := by
  have hcommon : applyCommon b config header blockContext signer i tx acc =
      .ok { acc with
        toExecState := st
        commonTxs := acc.commonTxs ++ [tx]
        receipts := acc.receipts ++ [receipt] } := by
    simp only [applyCommon, happly, Except.mapError_ok, Except.bind_ok]
    rfl
  unfold processTx
  split
  · exact hcommon
  · rename_i posa hsome
    obtain ⟨hsys, hval⟩ := hhooks posa hsome
    simp only [hsys, hval, Except.mapError_ok, Except.bind_ok, Bool.false_eq_true, if_false]
    exact hcommon

/-- A transaction the engine classes as a system transaction is set aside. -/
theorem processTx_system {posa : PoSA E σ ε} (hsome : eng.PoSA = some posa)
    (hsys : posa.IsSystemTransaction p tx header = .ok true) :
    processTx b eng p config header blockContext signer i tx acc =
      .ok { acc with systemTxs := acc.systemTxs ++ [tx] } := by
  unfold processTx
  rw [hsome]
  simp only [hsys, Except.mapError_ok, Except.bind_ok, if_true]
  rfl

end Step

/-! ### What the loop does with the whole block -/

section Run

variable {b eng p config header blockContext signer}

/-- **Every transaction lands in exactly one of the two lists**, and only the
executed ones get a receipt: after the loop, the executed and the set-aside
transactions together are as many as the block's, and there are as many
receipts as executed transactions. -/
theorem processTxs_counts :
    ∀ (txs : List Transaction) (i : ℕ) (acc acc' : ProcessAcc σ),
      processTxs b eng p config header blockContext signer txs i acc = .ok acc' →
      acc'.commonTxs.length + acc'.systemTxs.length =
          acc.commonTxs.length + acc.systemTxs.length + txs.length ∧
        acc'.receipts.length + acc.commonTxs.length = acc.receipts.length + acc'.commonTxs.length
  | [], _, acc, acc', h => by
    cases (Except.pure_eq_ok.mp h)
    simp
  | tx :: txs, i, acc, acc', h => by
    obtain ⟨mid, hstep, hrest⟩ := Except.bind_eq_ok.mp h
    have ih := processTxs_counts txs (i + 1) mid acc' hrest
    -- the step adds one transaction to one list, and a receipt with an executed one
    rcases processTx_cases hstep with ⟨-, -, -, rfl⟩ | ⟨-, receipt, st, -, rfl⟩
    · simp only [List.length_append, List.length_cons, List.length_nil] at ih ⊢
      omega
    · simp only [List.length_append, List.length_cons, List.length_nil] at ih ⊢
      omega

/-- **Only what the engine classes as a system transaction is set aside**: a
transaction the loop adds to `systemTxs` is one of the block's, and the engine's
hook said yes to it. -/
theorem processTxs_systemTxs :
    ∀ (txs : List Transaction) (i : ℕ) (acc acc' : ProcessAcc σ),
      processTxs b eng p config header blockContext signer txs i acc = .ok acc' →
      ∀ tx ∈ acc'.systemTxs, tx ∈ acc.systemTxs ∨ (tx ∈ txs ∧
        ∃ posa, eng.PoSA = some posa ∧ posa.IsSystemTransaction p tx header = .ok true)
  | [], _, acc, acc', h => by
    cases Except.pure_eq_ok.mp h
    exact fun tx htx => .inl htx
  | tx :: txs, i, acc, acc', h => by
    obtain ⟨mid, hstep, hrest⟩ := Except.bind_eq_ok.mp h
    intro tx' htx'
    -- where `tx'` came from: before the step, the step itself, or the rest of the run
    rcases processTxs_systemTxs txs (i + 1) mid acc' hrest tx' htx' with hmid | ⟨hin, hsys⟩
    · rcases processTx_cases hstep with ⟨posa, hsome, hsys, rfl⟩ | ⟨-, receipt, st, -, rfl⟩
      · rcases List.mem_append.mp hmid with hold | hnew
        · exact .inl hold
        · rw [List.mem_singleton.mp hnew]
          exact .inr ⟨List.mem_cons_self, posa, hsome, hsys⟩
      · exact .inl hmid
    · exact .inr ⟨List.mem_cons_of_mem tx hin, hsys⟩

end Run

/-! ### The whole of `Process` -/

section Whole

variable {b eng p config} {chain : ChainHeaderReader} {block : Block} {statedb : σ}
  {IsSkipProvider : Bool}

/-- **`Process` is `PreHandle`, the loop and `Finalize`**: with the engine and the
configuration `PreHandle` leaves, the loop runs over the block from its start,
and `Finalize` gets what it collected. -/
theorem Process_eq_of_PreHandle {posa : PoSA E σ ε} {p' : E} {config' : ChainConfig}
    (hsome : eng.PoSA = some posa)
    (hpre : posa.PreHandle p config chain block.Header statedb = .ok (p', config')) :
    Process b eng p config chain block statedb IsSkipProvider =
      (do
        let acc ← processTxs b eng p' config' block.Header
          (NewEVMBlockContext block.Header (eng.Author p) none) (MakeSigner config' block.Header.Number)
          block.Transactions 0 (ProcessAcc.init block.Header statedb)
        let (statedb, _, receipts) ← (eng.Finalize p' config' chain block.Header acc.statedb
          acc.commonTxs block.Uncles acc.receipts acc.systemTxs acc.usedGas IsSkipProvider).mapError
          .engine
        pure (receipts, receipts.flatMap (·.Logs), acc.usedGas, statedb)) := by
  unfold Process
  rw [hsome]
  simp only [hpre, Except.mapError_ok, Except.bind_ok]

/-- What a successful `Process` of a PoSA engine consists of: a successful loop and
a successful `Finalize` on what it collected. -/
theorem Process_eq_ok_of_PreHandle {posa : PoSA E σ ε} {p' : E} {config' : ChainConfig}
    {receipts : List Receipt} {logs : List Log} {usedGas : UInt64} {statedb' : σ}
    (hsome : eng.PoSA = some posa)
    (hpre : posa.PreHandle p config chain block.Header statedb = .ok (p', config'))
    (h : Process b eng p config chain block statedb IsSkipProvider =
      .ok (receipts, logs, usedGas, statedb')) :
    ∃ acc, processTxs b eng p' config' block.Header
        (NewEVMBlockContext block.Header (eng.Author p) none) (MakeSigner config' block.Header.Number)
        block.Transactions 0 (ProcessAcc.init block.Header statedb) = .ok acc ∧
      (∃ txs', eng.Finalize p' config' chain block.Header acc.statedb acc.commonTxs block.Uncles
        acc.receipts acc.systemTxs acc.usedGas IsSkipProvider = .ok (statedb', txs', receipts)) ∧
      usedGas = acc.usedGas := by
  rw [Process_eq_of_PreHandle hsome hpre] at h
  obtain ⟨acc, hrun, h⟩ := Except.bind_eq_ok.mp h
  obtain ⟨⟨s, txs', rs⟩, hfin, h⟩ := Except.bind_eq_ok.mp h
  rw [Except.mapError_eq_ok] at hfin
  simp only [Except.pure_eq_ok, Prod.mk.injEq] at h
  obtain ⟨rfl, -, rfl, rfl⟩ := h
  exact ⟨acc, hrun, ⟨txs', hfin⟩, rfl⟩

end Whole

end PureChain
