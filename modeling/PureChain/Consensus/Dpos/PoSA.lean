import PureChain.Core.StateProcessor
import PureChain.Consensus.Dpos.PreHandle

/-!
# The Dpos engine in block processing

The hooks `consensus.PoSA` the Dpos engine gives `Process`, and its `Finalize` as
far as block processing depends on it.

* `IsSystemTransaction`: a call – never a contract creation, whose sender is not
  looked at – sent by the block's coinbase, at gas price zero, to one of the two
  system contracts, with none of three challenge methods as its data's prefix. A
  call whose sender cannot be recovered is an error.
* `ValidateTx`: from the block after `RedCoastBlock` on, the sender is recovered
  and the sender and recipient are checked against the blacklist the
  address-list contract keeps. Before that block it checks nothing.
* `Finalize`: from `RedCoastBlock` on, one system transaction per passed
  governance proposal, each replayed, with its receipt appended to the block's.
  Before that block the system transactions are dropped.

`Process` sets the system transactions aside without a receipt, so what becomes
of them is `Finalize`'s affair: before `RedCoastBlock` they get none
(`Finalize_of_not_isRedCoast`), from it on they get one each, as many as there
are proposals (`Finalize_receipts_of_isRedCoast`).

Everything else `Finalize` does – system contracts set up at block one,
punishments, the block reward, the epoch's validators, the provider and rate
checks – is the pair of parameters `finalizeBefore` and `finalizeAfter`; the
contract calls are parameters too (`Contracts`).
-/

namespace PureChain

namespace Dpos

/-- `systemcontract.ValidatorFactoryContractAddr`. -/
def ValidatorFactoryContractAddr : Address := Address.ofNat 0xc002

/-- `systemcontract.ProviderFactoryContractAddr`. -/
def ProviderFactoryContractAddr : Address := Address.ofNat 0xc003

/-- `isToSystemContract`: the table `systemContracts`, whose other entries are
commented out. -/
def isToSystemContract (toAddr : Address) : Bool :=
  decide (toAddr = ValidatorFactoryContractAddr) || decide (toAddr = ProviderFactoryContractAddr)

/-- `hex.EncodeToString`: two lower-case hex digits per byte. -/
def hexEncode (bs : List UInt8) : List Char :=
  bs.flatMap fun b => [Nat.digitChar (b.toNat / 16), Nat.digitChar (b.toNat % 16)]

/-- `crypto.Keccak256Hash([]byte(sig)).String()[2:10]`: the method id of a
signature, in hex. -/
def methodHex (keccak256 : List UInt8 → PureChain.Hash) (sig : String) : List Char :=
  (hexEncode (keccak256 sig.toUTF8.toList).bytes.toList).take 8

section Methods

variable (keccak256 : List UInt8 → PureChain.Hash)

def challengeProviderMethod : List Char :=
  methodHex keccak256 "challengeProvider(address,uint256,string)"

def challengeFinishMethod : List Char :=
  methodHex keccak256 "challengeFinish(address,uint256,uint256,uint256,uint8)"

def challengeRevertMethod : List Char :=
  methodHex keccak256 "validatorNotSubmitResult(address)"

end Methods

/-- `strings.HasPrefix(hex.EncodeToString(data), method)`. -/
def hasMethodPrefix (data : List UInt8) (method : List Char) : Bool :=
  method.isPrefixOf (hexEncode data)

/-- `blacklistDirection`: which way an address of the blacklist is blocked. -/
inductive blacklistDirection where
  | DirectionFrom
  | DirectionTo
  | DirectionBoth
  deriving DecidableEq, Repr

/-- `Proposal`, a passed governance proposal. -/
structure Proposal where
  Id : ℕ
  Action : ℕ
  From : Address
  To : Address
  Value : ℕ
  Data : List UInt8

/-- The calls of the engine into its system contracts, and the parts of
`Finalize` not modelled, over the state `σ`. -/
structure Contracts (σ ε : Type) where
  /-- `getBlacklist`: the address-list contract's blacklist, read in a state. -/
  getBlacklist : Header → σ → Except ε (Address → Option blacklistDirection)
  getPassedProposalCount : Header → σ → Except ε UInt32
  getPassedProposalByIndex : Header → σ → UInt32 → Except ε Proposal
  /-- `replayProposal(chain, header, state, prop, totalTxIndex, tx)`. -/
  replayProposal : Header → σ → Proposal → ℕ → Transaction → Except ε (Receipt × σ)
  finishProposalById : Header → σ → ℕ → Except ε σ
  /-- What `Finalize` does before the proposals: the system contracts at block
  one, the punishments, the block reward, the epoch's validator list. -/
  finalizeBefore : ChainHeaderReader → Header → σ → Except ε σ
  /-- What it does after them: the team address, provider and rates checks
  (skipped when `isSkip`), and the state root written to the header. -/
  finalizeAfter : ChainHeaderReader → Header → Bool → σ → Except ε σ

variable {σ ε : Type} (SignerSender : Signer → Transaction → Except SignerError Address)
  (keccak256 : List UInt8 → PureChain.Hash) (c : Contracts σ ε) (ofError : Error → ε)
  (ofSigner : SignerError → ε)

/-- `Dpos.IsSystemTransaction`, with the engine's own signer. -/
def IsSystemTransaction (p : Dpos) (tx : Transaction) (header : Header) : Except Error Bool :=
  match tx.To with
  | none => pure false
  | some toAddr =>
    match Sender SignerSender p.signer tx with
    | .error _ => throw .unauthorizedTransaction
    | .ok sender =>
      pure (decide (sender = header.Coinbase) && isToSystemContract toAddr && decide (tx.GasPrice = 0) &&
        !hasMethodPrefix tx.Data (challengeProviderMethod keccak256) &&
        !hasMethodPrefix tx.Data (challengeFinishMethod keccak256) &&
        !hasMethodPrefix tx.Data (challengeRevertMethod keccak256))

/-- `Dpos.ValidateTx`: nothing up to `RedCoastBlock`; after it, the sender is
recovered and neither it nor the recipient may be blocked in its direction. -/
def ValidateTx (p : Dpos) (tx : Transaction) (header : Header) (parentState : σ) : Except ε Unit :=
  if p.chainConfig.RedCoastBlock.any (· < header.Number) then do
    let fromAddr ← (Sender SignerSender p.signer tx).mapError ofSigner
    let m ← c.getBlacklist header parentState
    if (m fromAddr).any (· ≠ .DirectionTo) then throw (ofError .addressDenied)
    else match tx.To with
      | some toAddr =>
        if (m toAddr).any (· ≠ .DirectionFrom) then throw (ofError .addressDenied) else pure ()
      | none => pure ()
  else pure ()

/-- The loop of `Finalize` that replays the passed proposals, the `i`-th on the
`i`-th system transaction, appending each transaction and its receipt to the
block's and collecting the proposals' ids. -/
def replayProposals (header : Header) :
    UInt32 → List Transaction → σ × List Transaction × List Receipt × List ℕ →
      Except ε (σ × List Transaction × List Receipt × List ℕ)
  | _, [], acc => pure acc
  | i, tx :: rest, (state, txs, receipts, pIds) => do
    let prop ← c.getPassedProposalByIndex header state i
    let (receipt, state) ← c.replayProposal header state prop txs.length tx
    replayProposals header (i + 1) rest (state, txs ++ [tx], receipts ++ [receipt], pIds ++ [prop.Id])

/-- The loop that finishes the proposals, in the order they were replayed. -/
def finishProposals (header : Header) : List ℕ → σ → Except ε σ
  | [], state => pure state
  | id :: ids, state => do
    let state ← c.finishProposalById header state id
    finishProposals header ids state

/-- The governance part of `Finalize`: as many system transactions as passed
proposals – counted as a `uint32` – replayed and then finished. -/
def handleProposals (header : Header) (state : σ) (txs : List Transaction) (receipts : List Receipt)
    (systemTxs : List Transaction) : Except ε (σ × List Transaction × List Receipt) := do
  let proposalCount ← c.getPassedProposalCount header state
  if proposalCount ≠ UInt32.ofNat systemTxs.length then throw (ofError .errInvalidSysGovCount)
  else do
    -- `for i := uint32(0); i < proposalCount; i++ { tx := (*systemTxs)[int(i)] … }`
    let (state, txs, receipts, pIds) ←
      replayProposals c header 0 (systemTxs.take proposalCount.toNat) (state, txs, receipts, [])
    let state ← finishProposals c header pIds state
    pure (state, txs, receipts)

/-- `Dpos.Finalize`. The fork test is `chain.Config().IsRedCoast`, the
configuration the processor and the engine share. -/
def Finalize (config : ChainConfig) (chain : ChainHeaderReader) (header : Header) (state : σ)
    (txs : List Transaction) (receipts : List Receipt) (systemTxs : List Transaction)
    (isSkip : Bool) : Except ε (σ × List Transaction × List Receipt) := do
  let state ← c.finalizeBefore chain header state
  let (state, txs, receipts) ←
    if config.IsRedCoast header.Number then
      handleProposals c ofError header state txs receipts systemTxs
    else pure (state, txs, receipts)
  let state ← c.finalizeAfter chain header isSkip state
  pure (state, txs, receipts)

/-- The Dpos engine as `Process` sees it. `Author` is the header's coinbase.
`PreHandle` changes the configuration the engine shares with the processor, so
the processor goes on with the engine's. -/
def engine (b : Backend σ ε) : Engine Dpos σ ε where
  Author _ header := header.Coinbase
  Finalize _ config chain header state txs _ receipts systemTxs _ isSkip :=
    Finalize c ofError config chain header state txs receipts systemTxs isSkip
  PoSA := some
    { PreHandle := fun p _ _ header _ => pure (p.PreHandle header, (p.PreHandle header).chainConfig)
      IsSystemTransaction := fun p tx header =>
        (IsSystemTransaction b.SignerSender keccak256 p tx header).mapError ofError
      ValidateTx := ValidateTx b.SignerSender c ofError ofSigner }

/-! ### What the hooks decide -/

section Hooks

variable {SignerSender keccak256} {p : Dpos} {tx : Transaction} {header : Header}

/-- A contract creation is never a system transaction; its sender is not looked
at. -/
theorem IsSystemTransaction_of_creation (h : tx.To = none) :
    IsSystemTransaction SignerSender keccak256 p tx header = .ok false := by
  simp only [IsSystemTransaction, h]
  rfl

/-- **The system transactions**: calls from the coinbase at price zero to a
system contract, with no challenge method. -/
theorem IsSystemTransaction_eq_ok_true :
    IsSystemTransaction SignerSender keccak256 p tx header = .ok true ↔
      ∃ toAddr, tx.To = some toAddr ∧ Sender SignerSender p.signer tx = .ok header.Coinbase ∧
        isToSystemContract toAddr = true ∧ tx.GasPrice = 0 ∧
        hasMethodPrefix tx.Data (challengeProviderMethod keccak256) = false ∧
        hasMethodPrefix tx.Data (challengeFinishMethod keccak256) = false ∧
        hasMethodPrefix tx.Data (challengeRevertMethod keccak256) = false := by
  unfold IsSystemTransaction
  rcases hto : tx.To with _ | toAddr
  · simp [pure, Except.pure]
  rcases hs : Sender SignerSender p.signer tx with err | sender
  · simp [throw, throwThe, MonadExceptOf.throw]
  · simp only [Except.pure_eq_ok, Bool.and_eq_true, decide_eq_true_eq, Bool.not_eq_true',
      Option.some.injEq, Except.ok.injEq, exists_eq_left']
    tauto

variable {c ofError ofSigner} {s : σ}

/-- **Up to `RedCoastBlock`, `ValidateTx` checks nothing**: no sender is recovered
and no blacklist read. -/
theorem ValidateTx_of_not_after (h : p.chainConfig.RedCoastBlock.any (· < header.Number) = false) :
    ValidateTx SignerSender c ofError ofSigner p tx header s = .ok () := by
  simp only [ValidateTx, h]
  rfl

end Hooks

/-! ### What `Finalize` does with the system transactions -/

section Finalize

variable {c ofError} {header : Header}

/-- The replay loop appends one transaction and one receipt per system
transaction it is given. -/
theorem replayProposals_length :
    ∀ (i : UInt32) (systemTxs : List Transaction) (state state' : σ)
      (txs txs' : List Transaction) (receipts receipts' : List Receipt) (pIds pIds' : List ℕ),
      replayProposals c header i systemTxs (state, txs, receipts, pIds) =
          .ok (state', txs', receipts', pIds') →
        txs' = txs ++ systemTxs ∧ receipts'.length = receipts.length + systemTxs.length
  | _, [], _, _, _, _, _, _, _, _, h => by
    cases Except.pure_eq_ok.mp h
    simp
  | i, tx :: rest, state, state', txs, txs', receipts, receipts', pIds, pIds', h => by
    obtain ⟨prop, -, h⟩ := Except.bind_eq_ok.mp h
    obtain ⟨⟨receipt, stateMid⟩, -, h⟩ := Except.bind_eq_ok.mp h
    obtain ⟨htxs, hlen⟩ := replayProposals_length (i + 1) rest _ _ _ _ _ _ _ _ h
    refine ⟨by simp [htxs], ?_⟩
    simp only [hlen, List.length_append, List.length_cons, List.length_nil]
    omega

variable {config : ChainConfig} {chain : ChainHeaderReader} {state state' : σ}
  {txs txs' : List Transaction} {receipts receipts' : List Receipt} {systemTxs : List Transaction}
  {isSkip : Bool}

/-- **Before `RedCoastBlock` the system transactions are dropped**: `Finalize`
leaves the transactions and the receipts as it got them. -/
theorem Finalize_of_not_isRedCoast (hred : config.IsRedCoast header.Number = false) :
    Finalize c ofError config chain header state txs receipts systemTxs isSkip =
      (do
        let state ← c.finalizeBefore chain header state
        let state ← c.finalizeAfter chain header isSkip state
        pure (state, txs, receipts)) := by
  simp only [Finalize, hred, Bool.false_eq_true, if_false]
  rfl

/-- **From `RedCoastBlock` on, each system transaction gets its receipt**: when
`Finalize` succeeds, it has appended all the system transactions – as many as
their count as a `uint32` – and a receipt for each. -/
theorem Finalize_receipts_of_isRedCoast (hred : config.IsRedCoast header.Number = true)
    (h : Finalize c ofError config chain header state txs receipts systemTxs isSkip =
      .ok (state', txs', receipts')) :
    txs' = txs ++ systemTxs.take (systemTxs.length % 2 ^ 32) ∧
      receipts'.length = receipts.length + systemTxs.length % 2 ^ 32 := by
  simp only [Finalize, hred, if_true] at h
  obtain ⟨stateBefore, -, h⟩ := Except.bind_eq_ok.mp h
  obtain ⟨⟨stateGov, txsGov, receiptsGov⟩, hgov, h⟩ := Except.bind_eq_ok.mp h
  obtain ⟨stateAfter, -, h⟩ := Except.bind_eq_ok.mp h
  cases Except.pure_eq_ok.mp h
  -- the count check passed, so the loop ran over the first `count` of them
  obtain ⟨count, -, hgov⟩ := Except.bind_eq_ok.mp hgov
  rw [Except.ite_throw_eq_ok] at hgov
  obtain ⟨hcount, hgov⟩ := hgov
  have hc : count.toNat = systemTxs.length % 2 ^ 32 := by
    rw [not_not.mp hcount, UInt32.toNat_ofNat']
  obtain ⟨⟨stateRep, txsRep, receiptsRep, pIds⟩, hrep, hgov⟩ := Except.bind_eq_ok.mp hgov
  obtain ⟨stateFin, -, hgov⟩ := Except.bind_eq_ok.mp hgov
  cases Except.pure_eq_ok.mp hgov
  obtain ⟨htxs, hlen⟩ := replayProposals_length _ _ _ _ _ _ _ _ _ _ hrep
  have htake : (systemTxs.take (systemTxs.length % 2 ^ 32)).length = systemTxs.length % 2 ^ 32 := by
    rw [List.length_take]
    exact min_eq_left (Nat.mod_le _ _)
  rw [hc] at htxs hlen
  exact ⟨htxs, by rw [hlen, htake]⟩

end Finalize

end Dpos

end PureChain
