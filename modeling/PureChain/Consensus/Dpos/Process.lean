import PureChain.Consensus.Dpos.PoSA
import PureChain.Core.BlockValidator
import PureChain.Miner.Worker

/-!
# Blocks of the Dpos engine: what `Process` accepts

`Process` with the Dpos engine, `PreHandle` included, and what it lets through.

* **A transaction is executed whether or not its sender can be recovered.** A
  contract creation is no system transaction (`IsSystemTransaction` looks at no
  sender for it), `ValidateTx` looks at no sender up to `RedCoastBlock`, and the
  recovery error `AsMessage` returns is dropped: the creation runs as the zero
  address (`Process_executes_unrecovered_creation`). The zero address is where
  `trySendBlockReward` puts the block's fees.
* **The verifier sets aside what the miner committed.** A zero-price call from the
  coinbase to a system contract is committed by the miner like any other
  transaction, with a receipt; the verifier classes it as a system transaction
  and neither executes it nor gives it a receipt
  (`processTxs_sets_aside_committed`).
* **Up to `RedCoastBlock`, a system transaction gets no receipt.** `Process` and
  `ValidateState` both accept a block whose system transaction has none, and the
  stored receipts can then not be matched with the transactions
  (`Process_accepts_receiptless_block`). In general the block's receipts are one
  per executed transaction (`Process_receipts_of_not_isRedCoast`); from
  `RedCoastBlock` on the system transactions get theirs in `Finalize`
  (`Process_receipts_of_isRedCoast`).

The processor's configuration is the engine's (`p.chainConfig`): the two share
one pointer.
-/

namespace PureChain

namespace Dpos

variable {σ ε : Type} {b : Backend σ ε} {keccak256 : List UInt8 → PureChain.Hash}
  {c : Contracts σ ε} {ofError : Error → ε} {ofSigner : SignerError → ε} {p : Dpos}

/-- A backend over a one-point state whose EVM accepts every message, uses no gas
and changes nothing, and whose signature recovery answers `sender`. -/
def acceptingBackend (sender : Except SignerError Address) : Backend Unit Unit where
  TxHash _ := Hash.zero
  SignerSender _ _ := sender
  CreateAddress _ _ := Address.zero
  PreCheck _ _ := .ok ()
  ErrGasLimitReached := ()
  Transition _ _ s := .ok (⟨0, false, []⟩, s)
  Finalise _ s := s
  StateRoot _ := Hash.zero

/-- System contracts with no passed proposal, an empty blacklist, and the rest of
`Finalize` doing nothing. -/
def idleContracts : Contracts Unit Unit where
  getBlacklist _ _ := .ok fun _ => none
  getPassedProposalCount _ _ := .ok 0
  getPassedProposalByIndex _ _ _ := .error ()
  replayProposal _ _ _ _ _ := .error ()
  finishProposalById _ s _ := .ok s
  finalizeBefore _ _ s := .ok s
  finalizeAfter _ _ _ s := .ok s

/-! ### The engine's hooks in `Process` -/

section Engine

variable {chain : ChainHeaderReader} {block : Block} {statedb : σ} {IsSkipProvider : Bool}

/-- `Process` with the Dpos engine: `PreHandle`, then the loop with the engine and
the configuration it leaves, then `Finalize`. -/
theorem Process_engine :
    Process b (engine keccak256 c ofError ofSigner b) p p.chainConfig chain block statedb
        IsSkipProvider =
      (do
        let acc ← processTxs b (engine keccak256 c ofError ofSigner b) (p.PreHandle block.Header)
          (p.PreHandle block.Header).chainConfig block.Header
          (NewEVMBlockContext block.Header (fun header => header.Coinbase) none)
          (MakeSigner (p.PreHandle block.Header).chainConfig block.Header.Number)
          block.Transactions 0 (ProcessAcc.init block.Header statedb)
        let (statedb, _, receipts) ← (Finalize c ofError (p.PreHandle block.Header).chainConfig chain
          block.Header acc.statedb acc.commonTxs acc.receipts acc.systemTxs IsSkipProvider).mapError
          .engine
        pure (receipts, receipts.flatMap (·.Logs), acc.usedGas, statedb)) :=
  Process_eq_of_PreHandle rfl rfl

theorem engine_Author (header : Header) :
    (engine keccak256 c ofError ofSigner b).Author p header = header.Coinbase := rfl

variable {tx : Transaction} {header : Header}

/-- A contract creation passes the engine's hooks up to `RedCoastBlock`. -/
theorem hooksPass_of_creation (hto : tx.To = none)
    (hval : p.chainConfig.RedCoastBlock.any (· < header.Number) = false) :
    HooksPass (engine keccak256 c ofError ofSigner b) p header tx := by
  rintro posa hsome
  cases Option.some.inj hsome
  refine ⟨?_, fun s => ValidateTx_of_not_after hval⟩
  simp only [IsSystemTransaction_of_creation hto, Except.mapError_ok]

/-- The engine's hook classes a system transaction as one. -/
theorem engine_isSystemTransaction (hsys : IsSystemTransaction b.SignerSender keccak256 p tx header = .ok true) :
    ∃ posa, (engine keccak256 c ofError ofSigner b).PoSA = some posa ∧
      posa.IsSystemTransaction p tx header = .ok true :=
  ⟨_, rfl, by simp only [hsys, Except.mapError_ok]⟩

end Engine

/-! ### A transaction whose sender cannot be recovered -/

section Unrecovered

variable {chain : ChainHeaderReader} {header : Header} {uncles : List Header} {statedb : σ}
  {IsSkipProvider : Bool} {tx : Transaction} {err : SignerError} {receipt : Receipt}
  {st : ExecState σ} {statedb' : σ} {txs' : List Transaction} {receipts' : List Receipt}

/-- **A contract creation with no recoverable sender is executed as the zero
address.** Up to `RedCoastBlock`, when the EVM accepts the message `AsMessage`
builds – whose sender, the recovery having failed, is the zero address – and
`Finalize` accepts the result, `Process` accepts the block, and what `Finalize`
was handed is the state that message left. -/
theorem Process_executes_unrecovered_creation (hto : tx.To = none)
    (hsig : Sender b.SignerSender (MakeSigner (p.PreHandle header).chainConfig header.Number) tx =
      .error err)
    (hval : p.chainConfig.RedCoastBlock.any (· < header.Number) = false)
    (happly : applyTransaction b
      (tx.AsMessage b.SignerSender (MakeSigner (p.PreHandle header).chainConfig header.Number)).1
      (p.PreHandle header).chainConfig (NewEVMBlockContext header (fun header => header.Coinbase) none)
      header tx (ProcessAcc.init header statedb).toExecState = .ok (receipt, st))
    (hfin : Finalize c ofError (p.PreHandle header).chainConfig chain header st.statedb [tx] [receipt] []
      IsSkipProvider = .ok (statedb', txs', receipts')) :
    (tx.AsMessage b.SignerSender (MakeSigner (p.PreHandle header).chainConfig header.Number)).1.From =
        Address.zero ∧
      Process b (engine keccak256 c ofError ofSigner b) p p.chainConfig chain ⟨header, [tx], uncles⟩
          statedb IsSkipProvider =
        .ok (receipts', receipts'.flatMap (·.Logs), st.usedGas, statedb') := by
  refine ⟨(AsMessage_of_error hsig).1, ?_⟩
  -- the hooks let the creation through, so the loop executes it
  have hval' : (p.PreHandle header).chainConfig.RedCoastBlock.any (· < header.Number) = false := by
    rw [PreHandle_RedCoastBlock]
    exact hval
  have hhooks : HooksPass (engine keccak256 c ofError ofSigner b) (p.PreHandle header) header tx :=
    hooksPass_of_creation hto hval'
  have hstep := processTx_common (i := 0)
    (fun posa hsome => ⟨(hhooks posa hsome).1, (hhooks posa hsome).2 _⟩) happly
  rw [Process_engine]
  simp only [processTxs, hstep, Except.bind_ok, pure_bind]
  simp only [ProcessAcc.init, List.nil_append, hfin, Except.mapError_ok, Except.bind_ok]
  rfl

/-- The creation of a transaction signed with nothing, on the main network's
engine: the sender cannot be recovered, the EVM runs it as the zero address, and
the block is accepted. -/
theorem Process_executes_unrecovered_creation_mainnet :
    let b := acceptingBackend (.error .ErrInvalidSig)
    let header : Header := { Header.zero with Number := 5 }
    let tx : Transaction :=
      { TxType := 0, Nonce := 0, GasPrice := 0, Gas := 0, To := none, Value := 0, Data := [],
        AccessList := [], V := 0, R := 0, S := 0 }
    let receipt : Receipt :=
      { TxType := 0, PostState := [], Status := ReceiptStatusSuccessful, CumulativeGasUsed := 0,
        Logs := [], TxHash := Hash.zero, ContractAddress := Address.zero, GasUsed := 0 }
    let p := shippedEngine Address.zero
    let chain := ChainHeaderReader.ofHeaders MainnetChainConfig (fun _ => Hash.zero) (fun _ => header) 5
    (tx.To = none ∧
      Sender b.SignerSender (MakeSigner (p.PreHandle header).chainConfig header.Number) tx =
        .error .ErrInvalidSig ∧
      p.chainConfig.RedCoastBlock.any (· < header.Number) = false ∧
      applyTransaction b
          (tx.AsMessage b.SignerSender (MakeSigner (p.PreHandle header).chainConfig header.Number)).1
          (p.PreHandle header).chainConfig (NewEVMBlockContext header (fun header => header.Coinbase) none)
          header tx (ProcessAcc.init header ()).toExecState =
        .ok (receipt, ⟨(), 0, 0⟩) ∧
      Finalize idleContracts (fun _ => ()) (p.PreHandle header).chainConfig chain header () [tx]
          [receipt] [] false = .ok ((), [tx], [receipt])) ∧
    (tx.AsMessage b.SignerSender (MakeSigner (p.PreHandle header).chainConfig header.Number)).1.From =
        Address.zero ∧
      Process b (engine (fun _ => Hash.zero) idleContracts (fun _ => ()) (fun _ => ()) b) p
          p.chainConfig chain ⟨header, [tx], []⟩ () false =
        .ok ([receipt], [], 0, ()) := by
  intro b header tx receipt p chain
  have h : tx.To = none ∧
      Sender b.SignerSender (MakeSigner (p.PreHandle header).chainConfig header.Number) tx =
        .error .ErrInvalidSig ∧
      p.chainConfig.RedCoastBlock.any (· < header.Number) = false ∧
      applyTransaction b
          (tx.AsMessage b.SignerSender (MakeSigner (p.PreHandle header).chainConfig header.Number)).1
          (p.PreHandle header).chainConfig (NewEVMBlockContext header (fun header => header.Coinbase) none)
          header tx (ProcessAcc.init header ()).toExecState =
        .ok (receipt, ⟨(), 0, 0⟩) ∧
      Finalize idleContracts (fun _ => ()) (p.PreHandle header).chainConfig chain header () [tx]
          [receipt] [] false = .ok ((), [tx], [receipt]) :=
    ⟨rfl, rfl, rfl, rfl, rfl⟩
  exact ⟨h, Process_executes_unrecovered_creation h.1 h.2.1 h.2.2.1 h.2.2.2.1 h.2.2.2.2⟩

end Unrecovered

/-! ### The miner's block and the verifier's loop -/

section Miner

variable {header : Header} {statedb : σ} {tx : Transaction} {receipt : Receipt} {st : ExecState σ}

/-- **The verifier sets aside a transaction the miner committed.** A zero-price
call from the coinbase to a system contract, with no challenge method, is to the
miner a transaction like any other: committed, with a receipt. The verifier's
loop over the same block classes it as a system transaction: it is not
executed, it gets no receipt, and the state is left as it was. -/
theorem processTxs_sets_aside_committed
    (hsys : IsSystemTransaction b.SignerSender keccak256 (p.PreHandle header) tx header = .ok true)
    (hsender : (tx.AsMessage b.SignerSender
      (MakeSigner (p.PreHandle header).chainConfig header.Number)).2 = none)
    (happly : applyTransaction b
      (tx.AsMessage b.SignerSender (MakeSigner (p.PreHandle header).chainConfig header.Number)).1
      (p.PreHandle header).chainConfig
      (NewEVMBlockContext header (fun _ => header.Coinbase) (some header.Coinbase)) header tx
      (Work.init header statedb).toExecState = .ok (receipt, st)) :
    commitSequence b (p.PreHandle header).chainConfig header header.Coinbase [tx]
        (Work.init header statedb) = .ok { toExecState := st, txs := [tx], receipts := [receipt] } ∧
      processTxs b (engine keccak256 c ofError ofSigner b) (p.PreHandle header)
          (p.PreHandle header).chainConfig header
          (NewEVMBlockContext header (fun header => header.Coinbase) none)
          (MakeSigner (p.PreHandle header).chainConfig header.Number) [tx] 0
          (ProcessAcc.init header statedb) =
        .ok { ProcessAcc.init header statedb with systemTxs := [tx] } := by
  constructor
  · -- the miner: one commit, then nothing
    simp only [commitSequence, commitTransaction_of_apply hsender happly, Except.bind_ok]
    rfl
  · -- the verifier: the hook says system transaction, and the loop sets it aside
    obtain ⟨posa, hsome, hposa⟩ : ∃ posa, (engine keccak256 c ofError ofSigner b).PoSA = some posa ∧
        posa.IsSystemTransaction (p.PreHandle header) tx header = .ok true :=
      engine_isSystemTransaction hsys
    simp only [processTxs, processTx_system hsome hposa, Except.bind_ok]
    rfl

/-- A zero-price call from the coinbase to the validator factory, on the main
network's engine at block 5: committed by the miner, set aside by the verifier. -/
theorem processTxs_sets_aside_committed_mainnet :
    let b := acceptingBackend (.ok Address.zero)
    let header : Header := { Header.zero with Number := 5 }
    let tx : Transaction :=
      { TxType := 0, Nonce := 0, GasPrice := 0, Gas := 0, To := some ValidatorFactoryContractAddr,
        Value := 0, Data := [], AccessList := [], V := 0, R := 0, S := 0 }
    let receipt : Receipt :=
      { TxType := 0, PostState := [], Status := ReceiptStatusSuccessful, CumulativeGasUsed := 0,
        Logs := [], TxHash := Hash.zero, ContractAddress := Address.zero, GasUsed := 0 }
    let p := shippedEngine Address.zero
    (IsSystemTransaction b.SignerSender (fun _ => Hash.zero) (p.PreHandle header) tx header = .ok true ∧
      (tx.AsMessage b.SignerSender (MakeSigner (p.PreHandle header).chainConfig header.Number)).2 =
        none ∧
      applyTransaction b
          (tx.AsMessage b.SignerSender (MakeSigner (p.PreHandle header).chainConfig header.Number)).1
          (p.PreHandle header).chainConfig
          (NewEVMBlockContext header (fun _ => header.Coinbase) (some header.Coinbase)) header tx
          (Work.init header ()).toExecState = .ok (receipt, ⟨(), 0, 0⟩)) ∧
    commitSequence b (p.PreHandle header).chainConfig header header.Coinbase [tx] (Work.init header ()) =
        .ok { toExecState := ⟨(), 0, 0⟩, txs := [tx], receipts := [receipt] } ∧
      processTxs b (engine (fun _ => Hash.zero) idleContracts (fun _ => ()) (fun _ => ()) b)
          (p.PreHandle header) (p.PreHandle header).chainConfig header
          (NewEVMBlockContext header (fun header => header.Coinbase) none)
          (MakeSigner (p.PreHandle header).chainConfig header.Number) [tx] 0
          (ProcessAcc.init header ()) =
        .ok { ProcessAcc.init header () with systemTxs := [tx] } := by
  intro b header tx receipt p
  have h : IsSystemTransaction b.SignerSender (fun _ => Hash.zero) (p.PreHandle header) tx header =
        .ok true ∧
      (tx.AsMessage b.SignerSender (MakeSigner (p.PreHandle header).chainConfig header.Number)).2 =
        none ∧
      applyTransaction b
          (tx.AsMessage b.SignerSender (MakeSigner (p.PreHandle header).chainConfig header.Number)).1
          (p.PreHandle header).chainConfig
          (NewEVMBlockContext header (fun _ => header.Coinbase) (some header.Coinbase)) header tx
          (Work.init header ()).toExecState = .ok (receipt, ⟨(), 0, 0⟩) :=
    ⟨by decide, rfl, rfl⟩
  exact ⟨h, processTxs_sets_aside_committed h.1 h.2.1 h.2.2⟩

end Miner

/-! ### The receipts of a block -/

section Receipts

variable {chain : ChainHeaderReader} {block : Block} {statedb statedb' : σ} {IsSkipProvider : Bool}
  {receipts : List Receipt} {logs : List Log} {usedGas : UInt64}

theorem isRedCoast_PreHandle (header : Header) (n : ℕ) :
    (p.PreHandle header).chainConfig.IsRedCoast n = p.chainConfig.IsRedCoast n := by
  simp only [ChainConfig.IsRedCoast, PreHandle_RedCoastBlock]

/-- **Up to `RedCoastBlock`, the receipts are those of the executed
transactions**: a block `Process` accepts has one receipt fewer than
transactions for every transaction the engine classed as a system transaction. -/
theorem Process_receipts_of_not_isRedCoast (hred : p.chainConfig.IsRedCoast block.Header.Number = false)
    (h : Process b (engine keccak256 c ofError ofSigner b) p p.chainConfig chain block statedb
      IsSkipProvider = .ok (receipts, logs, usedGas, statedb')) :
    ∃ systemTxs : List Transaction, receipts.length + systemTxs.length = block.Transactions.length ∧
      ∀ tx ∈ systemTxs, tx ∈ block.Transactions ∧
        IsSystemTransaction b.SignerSender keccak256 (p.PreHandle block.Header) tx block.Header =
          .ok true := by
  obtain ⟨acc, hrun, ⟨txs', hfin⟩, -⟩ := Process_eq_ok_of_PreHandle rfl rfl h
  -- `Finalize` hands the loop's receipts back unchanged
  have hred' := (isRedCoast_PreHandle block.Header block.Header.Number).trans hred
  change Finalize c ofError _ chain block.Header acc.statedb acc.commonTxs acc.receipts acc.systemTxs
    IsSkipProvider = .ok (statedb', txs', receipts) at hfin
  rw [Finalize_of_not_isRedCoast hred'] at hfin
  obtain ⟨s₁, -, hfin⟩ := Except.bind_eq_ok.mp hfin
  obtain ⟨s₂, -, hfin⟩ := Except.bind_eq_ok.mp hfin
  have hpure := Except.pure_eq_ok.mp hfin
  simp only [Prod.mk.injEq] at hpure
  obtain ⟨-, -, rfl⟩ := hpure
  obtain ⟨hcount, hreceipts⟩ := processTxs_counts _ _ _ _ hrun
  refine ⟨acc.systemTxs, ?_, fun tx htx => ?_⟩
  · simp only [ProcessAcc.init, List.length_nil, zero_add] at hcount hreceipts
    omega
  · rcases processTxs_systemTxs _ _ _ _ hrun tx htx with hnil | ⟨hin, posa, hsome, hsys⟩
    · simp [ProcessAcc.init] at hnil
    · cases Option.some.inj hsome
      exact ⟨hin, Except.mapError_eq_ok.mp hsys⟩

/-- **From `RedCoastBlock` on, every transaction has its receipt**: a block
`Process` accepts has one receipt per executed transaction and one per system
transaction – as long as fewer than `2^32` of them are set aside, since they are
counted as a `uint32`. -/
theorem Process_receipts_of_isRedCoast (hred : p.chainConfig.IsRedCoast block.Header.Number = true)
    (h : Process b (engine keccak256 c ofError ofSigner b) p p.chainConfig chain block statedb
      IsSkipProvider = .ok (receipts, logs, usedGas, statedb')) :
    ∃ commonTxs systemTxs : List Transaction,
      commonTxs.length + systemTxs.length = block.Transactions.length ∧
        receipts.length = commonTxs.length + systemTxs.length % 2 ^ 32 := by
  obtain ⟨acc, hrun, ⟨txs', hfin⟩, -⟩ := Process_eq_ok_of_PreHandle rfl rfl h
  have hred' := (isRedCoast_PreHandle block.Header block.Header.Number).trans hred
  obtain ⟨-, hlen⟩ := Finalize_receipts_of_isRedCoast hred' hfin
  obtain ⟨hcount, hreceipts⟩ := processTxs_counts _ _ _ _ hrun
  refine ⟨acc.commonTxs, acc.systemTxs, ?_, ?_⟩
  · simpa [ProcessAcc.init] using hcount
  · simp only [ProcessAcc.init, List.length_nil, zero_add, add_zero] at hcount hreceipts
    omega

variable {CreateBloom : List Receipt → Bloom} {DeriveSha : List Receipt → PureChain.Hash}
  {header : Header} {uncles : List Header} {tx : Transaction} {s₁ s₂ : σ}

/-- **A block whose system transaction has no receipt is accepted.** Up to
`RedCoastBlock`, a block of one system transaction, whose header claims no gas
used and the bloom and receipt root of no receipts, passes `Process` – which
returns no receipt – and `ValidateState`; the receipts stored for it then do not
match its transactions, and `DeriveFields` fails on them. -/
theorem Process_accepts_receiptless_block
    (hred : p.chainConfig.IsRedCoast header.Number = false)
    (hsys : IsSystemTransaction b.SignerSender keccak256 (p.PreHandle header) tx header = .ok true)
    (hbefore : c.finalizeBefore chain header statedb = .ok s₁)
    (hafter : c.finalizeAfter chain header IsSkipProvider s₁ = .ok s₂)
    (hgas : header.GasUsed = 0) (hbloom : CreateBloom [] = header.Bloom)
    (hsha : DeriveSha [] = header.ReceiptHash)
    (hroot : header.Root =
      b.StateRoot (b.Finalise ((p.PreHandle header).chainConfig.IsEIP158 header.Number) s₂)) :
    Process b (engine keccak256 c ofError ofSigner b) p p.chainConfig chain ⟨header, [tx], uncles⟩
        statedb IsSkipProvider = .ok ([], [], 0, s₂) ∧
      ValidateState b CreateBloom DeriveSha (p.PreHandle header).chainConfig ⟨header, [tx], uncles⟩
        s₂ [] 0 = .ok () ∧
      DeriveFields b (p.PreHandle header).chainConfig header.Number [tx] [] = .error .countMismatch := by
  refine ⟨?_, (ValidateState_eq_ok b CreateBloom DeriveSha).mpr ⟨hgas, hbloom, hsha, hroot⟩, rfl⟩
  -- the loop sets the transaction aside, and `Finalize` adds no receipt
  obtain ⟨posa, hsome, hposa⟩ : ∃ posa, (engine keccak256 c ofError ofSigner b).PoSA = some posa ∧
      posa.IsSystemTransaction (p.PreHandle header) tx header = .ok true :=
    engine_isSystemTransaction hsys
  have hred' := (isRedCoast_PreHandle header header.Number).trans hred
  rw [Process_engine]
  simp only [processTxs, processTx_system hsome hposa, Except.bind_ok, pure_bind]
  simp only [ProcessAcc.init, Finalize_of_not_isRedCoast hred', hbefore, hafter, Except.bind_ok]
  rfl

/-- A block of one zero-price call from the coinbase to the validator factory,
on the main network's engine at block 5, with a header claiming no receipt:
accepted by `Process` and `ValidateState`, and its receipts do not derive. -/
theorem Process_accepts_receiptless_block_mainnet :
    let b := acceptingBackend (.ok Address.zero)
    let header : Header := { Header.zero with Number := 5 }
    let tx : Transaction :=
      { TxType := 0, Nonce := 0, GasPrice := 0, Gas := 0, To := some ValidatorFactoryContractAddr,
        Value := 0, Data := [], AccessList := [], V := 0, R := 0, S := 0 }
    let p := shippedEngine Address.zero
    let chain := ChainHeaderReader.ofHeaders MainnetChainConfig (fun _ => Hash.zero) (fun _ => header) 5
    let CreateBloom : List Receipt → Bloom := fun _ => Vector.replicate 256 0
    let DeriveSha : List Receipt → PureChain.Hash := fun _ => Hash.zero
    (p.chainConfig.IsRedCoast header.Number = false ∧
      IsSystemTransaction b.SignerSender (fun _ => Hash.zero) (p.PreHandle header) tx header = .ok true ∧
      idleContracts.finalizeBefore chain header () = .ok () ∧
      idleContracts.finalizeAfter chain header false () = .ok () ∧
      header.GasUsed = 0 ∧ CreateBloom [] = header.Bloom ∧ DeriveSha [] = header.ReceiptHash ∧
      header.Root = b.StateRoot (b.Finalise ((p.PreHandle header).chainConfig.IsEIP158 header.Number) ())) ∧
    Process b (engine (fun _ => Hash.zero) idleContracts (fun _ => ()) (fun _ => ()) b) p p.chainConfig
        chain ⟨header, [tx], []⟩ () false = .ok ([], [], 0, ()) ∧
      ValidateState b CreateBloom DeriveSha (p.PreHandle header).chainConfig ⟨header, [tx], []⟩ () [] 0 =
        .ok () ∧
      DeriveFields b (p.PreHandle header).chainConfig header.Number [tx] [] = .error .countMismatch := by
  intro b header tx p chain CreateBloom DeriveSha
  have h : p.chainConfig.IsRedCoast header.Number = false ∧
      IsSystemTransaction b.SignerSender (fun _ => Hash.zero) (p.PreHandle header) tx header = .ok true ∧
      idleContracts.finalizeBefore chain header () = .ok () ∧
      idleContracts.finalizeAfter chain header false () = .ok () ∧
      header.GasUsed = 0 ∧ CreateBloom [] = header.Bloom ∧ DeriveSha [] = header.ReceiptHash ∧
      header.Root = b.StateRoot (b.Finalise ((p.PreHandle header).chainConfig.IsEIP158 header.Number) ()) :=
    ⟨rfl, by decide, rfl, rfl, rfl, rfl, rfl, rfl⟩
  exact ⟨h, Process_accepts_receiptless_block h.1 h.2.1 h.2.2.1 h.2.2.2.1 h.2.2.2.2.1 h.2.2.2.2.2.1
    h.2.2.2.2.2.2.1 h.2.2.2.2.2.2.2⟩

end Receipts

end Dpos

end PureChain
