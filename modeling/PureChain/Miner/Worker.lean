import PureChain.Core.StateProcessor

/-!
# The miner's side: `worker.commitTransaction`

The miner builds a block by applying transactions one after another, each with
`core.ApplyTransaction` under the header's coinbase as author, from a gas pool of
the block's gas limit less `params.SystemTxsGas`. A transaction that fails is
reverted and skipped; one that succeeds is appended with its receipt. Unlike
`Process`, the miner neither asks the engine whether a transaction is a system
transaction nor lets the engine validate it, and it gives up on a transaction
whose sender cannot be recovered.

The verifier replays the miner's block with `Process`. The two runs are related
by `Replays`: the same state, gas used, transactions and receipts, and at least
as much gas left in the verifier's pool. One commit of the miner is one step of
the verifier's loop that keeps the relation (`processTx_of_commitTransaction`),
as long as the engine's hooks let the transaction through, and so the verifier
replays a whole run of commits from the start of the block
(`processTxs_of_commitSequence`). Where the hooks do not let a transaction
through, the two part; see `PureChain.Consensus.Dpos.Process`.

The rest of `commitTransactions` (the price-ordered pool, the interrupts, the
timer) only decides *which* transactions are committed; it is left out.
-/

namespace PureChain

/-- The transaction part of the miner's `environment`: the execution state
(`state`, `gasPool`, `header.GasUsed`) and what was committed so far. -/
structure Work (σ : Type) extends ExecState σ where
  txs : List Transaction
  receipts : List Receipt

variable {σ ε E : Type} (b : Backend σ ε) (config : ChainConfig) (header : Header)
  (coinbase : Address)

/-- The gas pool `commitTransactions` starts from: `AddGas(GasLimit)` and then
`SubGas(params.SystemTxsGas)`, whose error is not checked, so that a gas limit
below it is left whole. -/
def minerGasPool : ℕ :=
  (SubGas header.GasLimit.toNat SystemTxsGas.toNat).getD header.GasLimit.toNat

/-- The work `commitNewWork` starts a block with. -/
def Work.init (statedb : σ) : Work σ :=
  { statedb, gp := minerGasPool header, usedGas := 0, txs := [], receipts := [] }

/-- `worker.commitTransaction`: the transaction applied under the coinbase as
author. On an error the state goes back to its snapshot and the error is
returned; the work the caller goes on with is the one it had. -/
def commitTransaction (tx : Transaction) (w : Work σ) : Except (SignerError ⊕ ε) (Work σ) :=
  match ApplyTransaction b config coinbase header tx w.toExecState with
  | .ok (receipt, st) =>
    .ok { w with
      toExecState := st
      txs := w.txs ++ [tx]
      receipts := w.receipts ++ [receipt] }
  | .error err => .error err

/-- Transactions committed one after another by the loop of
`commitTransactions`, each successfully. -/
def commitSequence : List Transaction → Work σ → Except (SignerError ⊕ ε) (Work σ)
  | [], w => pure w
  | tx :: txs, w => do
    let w ← commitTransaction b config header coinbase tx w
    commitSequence txs w

theorem minerGasPool_le : minerGasPool header ≤ header.GasLimit.toNat := by
  unfold minerGasPool
  rcases h : SubGas header.GasLimit.toNat SystemTxsGas.toNat with _ | gp
  · exact le_refl _
  · rw [SubGas_eq_some] at h
    simp only [Option.getD_some]
    omega

/-- **The verifier's loop is abreast of the miner**: the same state, the same gas
used, the same transactions and receipts, nothing set aside, and at least as much
gas in its pool as the miner has. -/
structure Replays (w : Work σ) (acc : ProcessAcc σ) : Prop where
  statedb : acc.statedb = w.statedb
  gp : w.gp ≤ acc.gp
  usedGas : acc.usedGas = w.usedGas
  commonTxs : acc.commonTxs = w.txs
  systemTxs : acc.systemTxs = []
  receipts : acc.receipts = w.receipts

/-- The two start abreast: the verifier starts from the whole gas limit. -/
theorem replays_init (statedb : σ) :
    Replays (Work.init header statedb) (ProcessAcc.init header statedb) :=
  ⟨rfl, minerGasPool_le header, rfl, rfl, rfl, rfl⟩

section Replay

variable {b config header coinbase} {eng : Engine E σ ε} {p : E}

/-- A transaction the miner commits has its sender recovered, and the message with
that sender executed under the coinbase. -/
theorem commitTransaction_eq_ok {tx : Transaction} {w w' : Work σ}
    (h : commitTransaction b config header coinbase tx w = .ok w') :
    (tx.AsMessage b.SignerSender (MakeSigner config header.Number)).2 = none ∧
      ∃ receipt st, applyTransaction b (tx.AsMessage b.SignerSender (MakeSigner config header.Number)).1
          config (NewEVMBlockContext header (fun _ => coinbase) (some coinbase)) header tx
          w.toExecState = .ok (receipt, st) ∧
        w' = { w with
          toExecState := st
          txs := w.txs ++ [tx]
          receipts := w.receipts ++ [receipt] } := by
  unfold commitTransaction ApplyTransaction at h
  -- the miner's `ApplyTransaction` stops at a recovery error
  rcases hmsg : tx.AsMessage b.SignerSender (MakeSigner config header.Number) with ⟨msg, _ | err⟩
  · rw [hmsg] at h
    split at h
    · rename_i receipt st happly
      refine ⟨rfl, receipt, st, Except.mapError_eq_ok.mp happly, ?_⟩
      cases h
      rfl
    · cases h
  · rw [hmsg] at h
    split at h
    · rename_i happly
      cases happly
    · cases h

/-- A transaction whose sender is recovered and whose message runs is committed. -/
theorem commitTransaction_of_apply {tx : Transaction} {w : Work σ} {receipt : Receipt}
    {st : ExecState σ}
    (hsender : (tx.AsMessage b.SignerSender (MakeSigner config header.Number)).2 = none)
    (happly : applyTransaction b (tx.AsMessage b.SignerSender (MakeSigner config header.Number)).1
      config (NewEVMBlockContext header (fun _ => coinbase) (some coinbase)) header tx
      w.toExecState = .ok (receipt, st)) :
    commitTransaction b config header coinbase tx w =
      .ok { w with
        toExecState := st
        txs := w.txs ++ [tx]
        receipts := w.receipts ++ [receipt] } := by
  unfold commitTransaction ApplyTransaction
  rcases hmsg : tx.AsMessage b.SignerSender (MakeSigner config header.Number) with ⟨msg, _ | err⟩
  · rw [hmsg] at happly
    simp only [happly, Except.mapError_ok]
  · rw [hmsg] at hsender
    cases hsender

/-- **The miner keeps one receipt per transaction**: a run of commits appends the
transactions, in order, and as many receipts. -/
theorem commitSequence_append :
    ∀ {txs : List Transaction} {w w' : Work σ},
      commitSequence b config header coinbase txs w = .ok w' →
      w'.txs = w.txs ++ txs ∧ w'.receipts.length = w.receipts.length + txs.length
  | [], w, w', h => by
    cases Except.pure_eq_ok.mp h
    simp
  | tx :: txs, w, w', h => by
    obtain ⟨mid, hcommit, hrest⟩ := Except.bind_eq_ok.mp h
    obtain ⟨-, receipt, st, -, rfl⟩ := commitTransaction_eq_ok hcommit
    obtain ⟨htxs, hlen⟩ := commitSequence_append hrest
    refine ⟨by simp [htxs], ?_⟩
    simp only [hlen, List.length_append, List.length_cons, List.length_nil]
    omega

/-- The verifier's block context is the miner's when the engine names the
miner's coinbase as the block's author. -/
theorem NewEVMBlockContext_author (h : eng.Author p header = coinbase) :
    NewEVMBlockContext header (eng.Author p) none =
      NewEVMBlockContext header (fun _ => coinbase) (some coinbase) := by
  simp only [NewEVMBlockContext, h]

/-- The hooks of the engine let `tx` through: no system transaction, and valid in
every state. -/
def HooksPass (eng : Engine E σ ε) (p : E) (header : Header) (tx : Transaction) : Prop :=
  ∀ posa, eng.PoSA = some posa →
    posa.IsSystemTransaction p tx header = .ok false ∧ ∀ s, posa.ValidateTx p tx header s = .ok ()

/-- **One commit of the miner is one step of the verifier's loop.** With the
engine naming the coinbase as the author and letting the transaction through, the
verifier executes it with the same message, and stays abreast of the miner. -/
theorem processTx_of_commitTransaction {tx : Transaction} {w w' : Work σ} {acc : ProcessAcc σ}
    {i : ℕ} (hauthor : eng.Author p header = coinbase) (hhooks : HooksPass eng p header tx)
    (hc : commitTransaction b config header coinbase tx w = .ok w') (hr : Replays w acc) :
    ∃ acc', processTx b eng p config header (NewEVMBlockContext header (eng.Author p) none)
        (MakeSigner config header.Number) i tx acc = .ok acc' ∧ Replays w' acc' := by
  obtain ⟨-, receipt, st, happly, rfl⟩ := commitTransaction_eq_ok hc
  -- the verifier's execution state is the miner's with a fuller pool
  have hst : acc.toExecState = { w.toExecState with gp := acc.gp } := by
    show acc.toExecState = ⟨w.statedb, acc.gp, w.usedGas⟩
    rw [← hr.statedb, ← hr.usedGas]
  have happly' := applyTransaction_of_le happly hr.gp
  rw [← hst, ← NewEVMBlockContext_author hauthor] at happly'
  refine ⟨_, processTx_common (fun posa hsome => ?_) happly', ?_⟩
  · exact ⟨(hhooks posa hsome).1, (hhooks posa hsome).2 _⟩
  · exact ⟨rfl, by simp only; omega, rfl, by simp [hr.commonTxs], hr.systemTxs,
      by simp [hr.receipts]⟩

/-- **The verifier replays a run of commits**, step for step: from any state
abreast of the miner, the loop of `Process` over the committed transactions
executes every one of them and ends abreast of the miner again. -/
theorem processTxs_of_commitSequence (hauthor : eng.Author p header = coinbase) :
    ∀ (txs : List Transaction) (i : ℕ) (w w' : Work σ) (acc : ProcessAcc σ),
      (∀ tx ∈ txs, HooksPass eng p header tx) →
      commitSequence b config header coinbase txs w = .ok w' → Replays w acc →
      ∃ acc', processTxs b eng p config header (NewEVMBlockContext header (eng.Author p) none)
          (MakeSigner config header.Number) txs i acc = .ok acc' ∧ Replays w' acc'
  | [], _, w, w', acc, _, h, hr => by
    cases Except.pure_eq_ok.mp h
    exact ⟨acc, rfl, hr⟩
  | tx :: txs, i, w, w', acc, hhooks, h, hr => by
    obtain ⟨mid, hcommit, hrest⟩ := Except.bind_eq_ok.mp h
    -- the first commit is a step of the loop, and the rest is a run from there
    obtain ⟨accMid, hstep, hrMid⟩ := processTx_of_commitTransaction (i := i) hauthor
      (hhooks tx List.mem_cons_self) hcommit hr
    obtain ⟨acc', hrun, hr'⟩ := processTxs_of_commitSequence hauthor txs (i + 1) mid w' accMid
      (fun tx' htx' => hhooks tx' (List.mem_cons_of_mem tx htx')) hrest hrMid
    refine ⟨acc', ?_, hr'⟩
    rw [processTxs, hstep, Except.bind_ok, hrun]

/-- **A block the miner built is replayed by the verifier up to `Finalize`**: when
the engine names the header's coinbase as the author and its hooks let every
committed transaction through, the loop of `Process` over them, from the state the
miner started from, executes every one, with the miner's receipts, to the miner's
state and gas used. -/
theorem process_loop_of_commitSequence (statedb : σ) {txs : List Transaction} {w' : Work σ}
    (hauthor : eng.Author p header = header.Coinbase) (hhooks : ∀ tx ∈ txs, HooksPass eng p header tx)
    (h : commitSequence b config header header.Coinbase txs (Work.init header statedb) = .ok w') :
    ∃ acc', processTxs b eng p config header (NewEVMBlockContext header (eng.Author p) none)
        (MakeSigner config header.Number) txs 0 (ProcessAcc.init header statedb) = .ok acc' ∧
      acc'.statedb = w'.statedb ∧ acc'.usedGas = w'.usedGas ∧ acc'.commonTxs = txs ∧
      acc'.systemTxs = [] ∧ acc'.receipts = w'.receipts := by
  obtain ⟨acc', hrun, hr⟩ :=
    processTxs_of_commitSequence hauthor txs 0 _ w' _ hhooks h (replays_init header statedb)
  refine ⟨acc', hrun, hr.statedb, hr.usedGas, ?_, hr.systemTxs, hr.receipts⟩
  rw [hr.commonTxs, (commitSequence_append h).1]
  rfl

end Replay

end PureChain
