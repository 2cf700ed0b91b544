import PureChain.Core.State.StateDB
import PureChain.Consensus.Engine
import PureChain.Lib.Ledger

/-!
# The delayed block reward of the Dpos engine

A Dpos block is not paid when it is sealed. `trySendBlockReward`, run by
`Finalize` from block 4 on, pays the reward of older blocks out of nothing:

* the reward of the block one day back (14400 blocks) is paid half at once, into
  the balance *and* the lock balance of its provider, team and validator – the
  **first-day payment**, locked;
* the reward of each block 2, 3, …, 101 days back is paid a two-hundredth more,
  into the balance, while the lock balance is lowered by as much, never below
  zero – the **daily payments**, which unlock.

Each payment splits its amount in three by the rates the paid block recorded:
`TeamRate` and `ValidatorRate` twenty-thousandths of the reward to the team and
to the validator, the rest to the provider; nothing at all is paid when the rest
is not positive. Last, the fees collected in `SystemAddress` move to the zero
address.

The reward of a block is `getBlockReward`: a fixed amount in the first year of
blocks, half of it in the next two, then halved once more every three years.

The model is in two layers. The first is the code: `trySendBlockReward` with its
loop `distributeDaily`, state passing over `StateDB`. The second is the list of
payments the function makes (`rewardPayments`), each tagged with the block it
pays for; `trySendBlockReward_eq` shows the code makes exactly these payments, in
this order, and then moves the fees. What the payments owe to which block is
studied on the list, in `PureChain.Consensus.Dpos.RewardSchedule`.
-/

namespace PureChain

/-- `common.BigOneDayUint`: a day of blocks. -/
def BigOneDayUint : UInt64 := 14400

@[simp] theorem BigOneDayUint_toNat : BigOneDayUint.toNat = 14400 := rfl

namespace Dpos

/-- `doubleAllPercent`: the rates are in twenty-thousandths. -/
def doubleAllPercent : ℤ := 20000

/-- `distributeRound`: the number of daily payments. -/
def distributeRound : ℕ := 100

/-- `doubleDistributeRound`: a daily payment is a two-hundredth of the reward. -/
def doubleDistributeRound : ℤ := 200

/-- `blockDistributeRewrad`: the reward of a block of the first year, in units
of `1e8` wei. -/
def blockDistributeRewrad : ℤ := 61969993482

/-- `yearBlockCount`: a year of blocks. -/
def yearBlockCount : UInt64 := 365 * 24 * 60 * 10

/-- `getBlockReward`. The halvings after the third year are counted on `int64`
values, as the source converts them. -/
def getBlockReward (blockNumber : UInt64) : ℤ :=
  let yearBlockNumber := yearBlockCount
  let blockReward := blockDistributeRewrad * 100000000
  if blockNumber ≤ yearBlockNumber then blockReward
  else if blockNumber ≤ yearBlockNumber * 3 then blockReward / 2
  else
    let halvingTimes : Int64 :=
      (blockNumber.toInt64 - yearBlockNumber.toInt64 * 3 - 1) / (yearBlockNumber * 3).toInt64 + 1
    -- `for i := 0; i < int(halvingTimes); i++`: no round for a negative count
    (fun r : ℤ => r / 2)^[halvingTimes.toInt.toNat] (blockReward / 2)

/-! ### The code -/

/-- The first-day payment to one account: `AddBalance` and `AddLockBalance` of
the same amount. -/
def payLocked (state : StateDB) (addr : Address) (amount : ℤ) : StateDB :=
  (state.AddBalance addr amount).AddLockBalance addr amount

/-- A daily payment to one account: `AddBalance`, then `SubLockBalance` when the
lock balance is larger than the amount and `SetLockBalance` to zero otherwise. -/
def payUnlocking (state : StateDB) (addr : Address) (amount : ℤ) : StateDB :=
  let state := state.AddBalance addr amount
  if state.GetLockBalance addr > amount then state.SubLockBalance addr amount
  else state.SetLockBalance addr 0

section Pay

variable (state : StateDB) (addr : Address) (amount : ℤ)

@[simp] theorem payLocked_Balance :
    (payLocked state addr amount).Balance = Ledger.credit state.Balance addr amount := rfl

@[simp] theorem payLocked_LockBalance :
    (payLocked state addr amount).LockBalance = Ledger.credit state.LockBalance addr amount := rfl

@[simp] theorem payUnlocking_Balance :
    (payUnlocking state addr amount).Balance = Ledger.credit state.Balance addr amount := by
  dsimp only [payUnlocking]
  split_ifs <;> rfl

/-- The two branches of a daily payment are a clamped debit of the lock balance. -/
@[simp] theorem payUnlocking_LockBalance :
    (payUnlocking state addr amount).LockBalance =
      Ledger.debitClamped state.LockBalance addr amount := by
  have hget : (state.AddBalance addr amount).GetLockBalance addr = state.LockBalance addr := rfl
  dsimp only [payUnlocking, Ledger.debitClamped]
  rw [hget]
  by_cases h : amount < state.LockBalance addr
  · rw [if_pos h, if_pos h]
    rfl
  · rw [if_neg h, if_neg h]
    rfl

end Pay

/-- The three parts of one payment of a block's reward: the provider's
`lastReward`, the `teamPartReward` and the `validatorPartReward`. -/
structure Shares where
  provider : ℤ
  team : ℤ
  validator : ℤ

/-- The parts of the first-day payment: half the reward, of which the rates'
twenty-thousandths of the whole reward go to the team and to the validator. -/
def firstShares (reward : ℤ) (yestHeader : Header) : Shares :=
  let teamPartReward := reward * yestHeader.TeamRate.toNat / doubleAllPercent
  let validatorPartReward := reward * yestHeader.ValidatorRate.toNat / doubleAllPercent
  ⟨reward / 2 - teamPartReward - validatorPartReward, teamPartReward, validatorPartReward⟩

/-- The parts of a daily payment: a two-hundredth of the reward, of which a
hundredth of the first day's team and validator parts go to them. -/
def dailyShares (reward : ℤ) (lastHeader : Header) : Shares :=
  let teamPartReward :=
    reward * lastHeader.TeamRate.toNat / doubleAllPercent / (distributeRound : ℤ)
  let validatorPartReward :=
    reward * lastHeader.ValidatorRate.toNat / doubleAllPercent / (distributeRound : ℤ)
  ⟨reward / doubleDistributeRound - teamPartReward - validatorPartReward, teamPartReward,
    validatorPartReward⟩

/-- The body both payments of `trySendBlockReward` repeat: nothing unless the
provider's part is positive; then the provider (unless it is the zero address),
the team and the validator are paid their parts, each through `send`. -/
def payShares (send : StateDB → Address → ℤ → StateDB) (provider team coinbase : Address)
    (sh : Shares) (state : StateDB) : StateDB :=
  if sh.provider > 0 then
    let state := if provider ≠ Address.zero then send state provider sh.provider else state
    let state := send state team sh.team
    send state coinbase sh.validator
  else state

/-- The daily loop `for i := 0; i < distributeRound; i++`, with `k` rounds left
from round `i`. Round `i` pays block `number - 14400·(i+2)` its daily part; the
loop stops when that number wraps around or reaches zero. The team part goes to
`TeamAddress`, the loop's argument. -/
def distributeDaily (chain : ChainHeaderReader) (number : UInt64) (TeamAddress : Address) :
    ℕ → ℕ → StateDB → StateDB
  | 0, _, state => state
  | k + 1, i, state =>
    let lastNumber := number - BigOneDayUint * UInt64.ofNat (i + 2)
    if lastNumber > number ∨ lastNumber = 0 then state
    else
      let state := match chain.GetHeaderByNumber lastNumber with
        | some lastHeader =>
          payShares payUnlocking lastHeader.Provider TeamAddress lastHeader.Coinbase
            (dailyShares (getBlockReward lastNumber) lastHeader) state
        -- `log.Error("unexpect error block header not found.")`
        | none => state
      distributeDaily chain number TeamAddress k (i + 1) state

/-- `Dpos.trySendBlockReward`. The fees are read before the payments and moved to
the zero address after them. The Go function returns an error that is always
`nil`. -/
def trySendBlockReward (chain : ChainHeaderReader) (header : Header) (state : StateDB) :
    StateDB :=
  let fee := state.GetBalance SystemAddress
  let state :=
    if header.number > BigOneDayUint then
      let yestBlockNumber := header.number - BigOneDayUint
      let reward := getBlockReward yestBlockNumber
      match chain.GetHeaderByNumber yestBlockNumber with
      | some yestHeader =>
        -- the team of the block a day back: the daily loop pays this one too
        let TeamAddress := yestHeader.TeamAddress
        let state := payShares payLocked yestHeader.Provider TeamAddress yestHeader.Coinbase
          (firstShares reward yestHeader) state
        distributeDaily chain header.number TeamAddress distributeRound 0 state
      | none => state
    else state
  (state.AddBalance Address.zero fee).SetBalance SystemAddress 0

/-! ### The payments the code makes -/

/-- One credit `trySendBlockReward` makes: `amount` to `payee`, on account of the
reward of block `block`; first-day credits are `locked`, daily ones unlock. -/
structure Payment where
  block : UInt64
  payee : Address
  amount : ℤ
  locked : Bool
  deriving DecidableEq

/-- A payment written into the state. -/
def Payment.apply (state : StateDB) (p : Payment) : StateDB :=
  if p.locked then payLocked state p.payee p.amount else payUnlocking state p.payee p.amount

/-- Every payment credits its amount to the balance of its payee. -/
@[simp] theorem Payment.apply_Balance (state : StateDB) (p : Payment) :
    (Payment.apply state p).Balance = Ledger.credit state.Balance p.payee p.amount := by
  unfold Payment.apply
  split_ifs <;> simp

/-- Payments written into the state one after another. -/
def applyPayments (state : StateDB) (ps : List Payment) : StateDB :=
  ps.foldl Payment.apply state

/-- The payments of one `payShares` on account of `block`. -/
def sharePayments (block : UInt64) (locked : Bool) (provider team coinbase : Address)
    (sh : Shares) : List Payment :=
  if sh.provider > 0 then
    (if provider ≠ Address.zero then [⟨block, provider, sh.provider, locked⟩] else []) ++
      [⟨block, team, sh.team, locked⟩, ⟨block, coinbase, sh.validator, locked⟩]
  else []

/-- The payments of daily round `i` at block `number`. -/
def dailyGroup (chain : ChainHeaderReader) (number : UInt64) (TeamAddress : Address) (i : ℕ) :
    List Payment :=
  let lastNumber := number - BigOneDayUint * UInt64.ofNat (i + 2)
  match chain.GetHeaderByNumber lastNumber with
  | some lastHeader =>
    sharePayments lastNumber false lastHeader.Provider TeamAddress lastHeader.Coinbase
      (dailyShares (getBlockReward lastNumber) lastHeader)
  | none => []

/-- The daily rounds that run at block `number`: those whose block lies above
zero. -/
def dailyRounds (number : UInt64) : List ℕ :=
  (List.range distributeRound).filter fun i => BigOneDayUint.toNat * (i + 2) < number.toNat

/-- Every payment `trySendBlockReward` makes at a block of number `number`, in
order. -/
def rewardPayments (chain : ChainHeaderReader) (number : UInt64) : List Payment :=
  if number > BigOneDayUint then
    let yestBlockNumber := number - BigOneDayUint
    match chain.GetHeaderByNumber yestBlockNumber with
    | some yestHeader =>
      sharePayments yestBlockNumber true yestHeader.Provider yestHeader.TeamAddress
          yestHeader.Coinbase (firstShares (getBlockReward yestBlockNumber) yestHeader) ++
        (dailyRounds number).flatMap (dailyGroup chain number yestHeader.TeamAddress)
    | none => []
  else []

section Refinement

variable {chain : ChainHeaderReader} {number : UInt64} {TeamAddress : Address}

@[simp] theorem applyPayments_nil (state : StateDB) : applyPayments state [] = state := rfl

@[simp] theorem applyPayments_append (state : StateDB) (ps qs : List Payment) :
    applyPayments state (ps ++ qs) = applyPayments (applyPayments state ps) qs :=
  List.foldl_append

/-- `payShares` makes the payments `sharePayments` lists, when `send` is the
write of a payment on account of `block`. -/
theorem payShares_eq (send : StateDB → Address → ℤ → StateDB) (block : UInt64) (locked : Bool)
    (hsend : ∀ state addr amount, send state addr amount = Payment.apply state ⟨block, addr, amount, locked⟩)
    (provider team coinbase : Address) (sh : Shares) (state : StateDB) :
    payShares send provider team coinbase sh state =
      applyPayments state (sharePayments block locked provider team coinbase sh) := by
  unfold payShares sharePayments
  split_ifs <;> simp [applyPayments, hsend]

/-- The day a daily round reaches back, as a number. -/
theorem toNat_sub_days (n : UInt64) {i : ℕ} (hi : i < distributeRound) :
    (n - BigOneDayUint * UInt64.ofNat (i + 2)).toNat =
      (2 ^ 64 - 14400 * (i + 2) + n.toNat) % 2 ^ 64 := by
  have hd : distributeRound = 100 := rfl
  rw [UInt64.toNat_sub, UInt64.toNat_mul, UInt64.toNat_ofNat', BigOneDayUint_toNat,
    Nat.mod_eq_of_lt (show i + 2 < 2 ^ 64 by omega),
    Nat.mod_eq_of_lt (show 14400 * (i + 2) < 2 ^ 64 by omega)]

/-- The loop stops at round `i` exactly when the block `14400·(i+2)` back is not
above zero. -/
theorem dailyBreak_iff (n : UInt64) {i : ℕ} (hi : i < distributeRound) :
    (n - BigOneDayUint * UInt64.ofNat (i + 2) > n ∨
        n - BigOneDayUint * UInt64.ofNat (i + 2) = 0) ↔
      n.toNat ≤ BigOneDayUint.toNat * (i + 2) := by
  have h := toNat_sub_days n hi
  have hn := n.toNat_lt
  have hd : distributeRound = 100 := rfl
  rw [gt_iff_lt, UInt64.lt_iff_toNat_lt, ← UInt64.toNat_inj, h, UInt64.toNat_zero,
    BigOneDayUint_toNat]
  omega

/-- Round `i` of the loop makes the payments of `dailyGroup`. -/
theorem payDaily_eq (i : ℕ) (state : StateDB) :
    (match chain.GetHeaderByNumber (number - BigOneDayUint * UInt64.ofNat (i + 2)) with
      | some lastHeader =>
        payShares payUnlocking lastHeader.Provider TeamAddress lastHeader.Coinbase
          (dailyShares (getBlockReward (number - BigOneDayUint * UInt64.ofNat (i + 2)))
            lastHeader) state
      | none => state) = applyPayments state (dailyGroup chain number TeamAddress i) := by
  dsimp only [dailyGroup]
  cases chain.GetHeaderByNumber (number - BigOneDayUint * UInt64.ofNat (i + 2)) with
  | none => rfl
  | some lastHeader => exact payShares_eq _ _ false (fun _ _ _ => rfl) _ _ _ _ _

/-- **The daily loop makes the payments of the rounds it reaches.** From round
`i` with `k` rounds left, it pays the rounds of `i, …, i+k-1` whose block is
above zero: once a round's block is not, no later round's is. -/
theorem distributeDaily_eq (k i : ℕ) (hk : i + k ≤ distributeRound) (state : StateDB) :
    distributeDaily chain number TeamAddress k i state =
      applyPayments state (((List.range' i k).filter fun j =>
          BigOneDayUint.toNat * (j + 2) < number.toNat).flatMap
        (dailyGroup chain number TeamAddress)) := by
  induction k generalizing i state with
  | zero => rfl
  | succ k ih =>
    rw [distributeDaily, List.range'_succ, List.filter_cons]
    by_cases hb : number.toNat ≤ BigOneDayUint.toNat * (i + 2)
    · -- the loop breaks, and every later round reaches further back
      have hrest : ((List.range' (i + 1) k).filter fun j =>
          BigOneDayUint.toNat * (j + 2) < number.toNat) = [] := by
        rw [List.filter_eq_nil_iff]
        intro j hj
        rw [List.mem_range'_1] at hj
        rw [BigOneDayUint_toNat] at hb ⊢
        simp only [decide_eq_true_eq, not_lt]
        omega
      rw [if_pos ((dailyBreak_iff number (by omega)).mpr hb), hrest]
      simp only [decide_eq_true_eq, not_lt.mpr hb, if_false, List.flatMap_nil, applyPayments_nil]
    · rw [if_neg (fun h => hb ((dailyBreak_iff number (by omega)).mp h)), payDaily_eq,
        ih (i + 1) (by omega)]
      simp only [decide_eq_true_eq, not_le.mp hb, if_true, List.flatMap_cons, applyPayments_append]

/-- **Refinement.** `trySendBlockReward` makes the payments `rewardPayments`
lists, in that order, and then moves the fees it read at the start. -/
theorem trySendBlockReward_eq (header : Header) (state : StateDB) :
    trySendBlockReward chain header state =
      ((applyPayments state (rewardPayments chain header.number)).AddBalance Address.zero
        (state.GetBalance SystemAddress)).SetBalance SystemAddress 0 := by
  unfold trySendBlockReward rewardPayments
  dsimp only
  split_ifs with hn
  · cases chain.GetHeaderByNumber (header.number - BigOneDayUint) with
    | none => rfl
    | some yestHeader =>
      dsimp only
      rw [payShares_eq payLocked (header.number - BigOneDayUint) true (fun _ _ _ => rfl),
        distributeDaily_eq _ _ (by rfl),
        applyPayments_append]
      rfl
  · rfl

end Refinement

end Dpos

end PureChain
