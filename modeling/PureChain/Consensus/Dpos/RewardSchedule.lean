import Mathlib.Algebra.BigOperators.Group.Finset.Piecewise
import Mathlib.Algebra.Order.BigOperators.Group.Finset
import Mathlib.Algebra.Order.Floor.Div
import Mathlib.Logic.Relation
import PureChain.Consensus.Dpos.Reward

/-!
# What the delayed reward pays, and to whom

`PureChain.Consensus.Dpos.Reward` reduces `trySendBlockReward` to the list of
payments it makes, each tagged with the block it pays for. This file reads the
list.

**The halvings.** The reward of a block is the first year's `R` halved once
in the second and third years and once more for each three years started after
that (`halvings`), up to block `2^63 + 3Y`. There the code's `int64(blockNumber)`
turns negative, the halving loop stops running, and every later block earns
`R / 2` again (`getBlockReward_int64_wrap`).

**The schedule.** The reward of a block `B` is owed half one day after `B` and a
two-hundredth on each of the hundred days after that (`dueAt`); a set of
blocks, each handled once, is owed at most the reward in all
(`sum_dueAt_le`). What any block's `trySendBlockReward` pays on account of `B`
stays within what the schedule owes at that block (`paidFor_rewardPayments_le`),
so **a chain never pays a block more than its reward**
(`sum_paidFor_rewardPayments_le`). Every single payment is non-negative
(`amount_nonneg_of_mem_rewardPayments`), and the lock balances, which only this
function writes, stay non-negative along every run (`lockBalance_nonneg_of_run`).

**The recipients.** The first-day payment of `B` goes to the provider, the team
and the validator `B` recorded. The daily payments do not: the loop is handed
the team address of the block one day back from the *paying* block, and pays
every earlier block's team part to it (`mem_rewardPayments_daily`). When the
team address changes – it is read from a contract by the producer – the team
`B` recorded is paid nothing of `B`'s daily parts
(`rewardPayments_daily_team_of_day_before`).
-/

namespace PureChain

namespace Dpos

/-! ### The reward of a block -/

/-- Halving, however often, keeps a non-negative amount between zero and itself. -/
theorem halve_iterate_mem {r : ℤ} (hr : 0 ≤ r) (k : ℕ) :
    0 ≤ (fun r : ℤ => r / 2)^[k] r ∧ (fun r : ℤ => r / 2)^[k] r ≤ r := by
  induction k with
  | zero => exact ⟨hr, le_rfl⟩
  | succ k ih =>
    rw [Function.iterate_succ_apply']
    omega

theorem getBlockReward_mem (blockNumber : UInt64) :
    0 ≤ getBlockReward blockNumber ∧
      getBlockReward blockNumber ≤ blockDistributeRewrad * 100000000 := by
  have hb : (0 : ℤ) ≤ blockDistributeRewrad * 100000000 := by decide
  dsimp only [getBlockReward]
  split_ifs
  · exact ⟨hb, le_rfl⟩
  · omega
  · have h := halve_iterate_mem (show 0 ≤ blockDistributeRewrad * 100000000 / 2 by omega)
    refine ⟨(h _).1, le_trans (h _).2 ?_⟩
    omega

theorem getBlockReward_nonneg (blockNumber : UInt64) : 0 ≤ getBlockReward blockNumber :=
  (getBlockReward_mem blockNumber).1

/-- Halving `k` times is dividing by `2 ^ k`. -/
theorem halve_iterate_eq (r : ℤ) (k : ℕ) : (fun r : ℤ => r / 2)^[k] r = r / 2 ^ k := by
  induction k with
  | zero => simp
  | succ k ih =>
    rw [Function.iterate_succ_apply', ih, Int.ediv_ediv_of_nonneg (Int.pow_nonneg (by decide)), pow_succ]

/-- The halvings the schedule prescribes at height `b`: none in the first year
of `5256000` blocks, one up to the third, and after that one more for each
started span of three years. -/
def halvings (b : ℕ) : ℕ :=
  if b ≤ 5256000 then 0
  else if b ≤ 3 * 5256000 then 1
  else 1 + (b - 3 * 5256000) ⌈/⌉ (3 * 5256000)

theorem halvings_mono {b₁ b₂ : ℕ} (h : b₁ ≤ b₂) : halvings b₁ ≤ halvings b₂ := by
  unfold halvings
  simp only [Nat.ceilDiv_eq_add_pred_div]
  split_ifs <;> omega

/-- The code's `int64` numerator of the halving count, `int64(blockNumber) -
3Y - 1`, is the true one wrapped into the signed range. -/
theorem toInt_halvingNumerator (b : UInt64) :
    (b.toInt64 - yearBlockCount.toInt64 * 3 - 1).toInt = ((b.toNat : ℤ) - 15768001).bmod (2 ^ 64) := by
  have hb : b.toInt64.toInt = (b.toNat : ℤ).bmod (2 ^ 64) := by
    rw [← Int64.toInt_toBitVec, UInt64.toBitVec_toInt64, BitVec.toInt_eq_toNat_bmod,
      UInt64.toNat_toBitVec]
  have hY : (yearBlockCount.toInt64 * 3).toInt = 15768000 := by decide
  have h1 : (1 : Int64).toInt = 1 := by decide
  rw [Int64.toInt_sub, Int64.toInt_sub, hb, hY, h1, Int.bmod_sub_bmod, Int.sub_sub,
    Int.bmod_sub_bmod]
  rfl

/-- Dividing by a higher power of two gives less. -/
theorem ediv_two_pow_le {r : ℤ} (hr : 0 ≤ r) {k₁ k₂ : ℕ} (h : k₁ ≤ k₂) :
    r / 2 ^ k₂ ≤ r / 2 ^ k₁ := by
  obtain ⟨d, rfl⟩ := Nat.exists_eq_add_of_le h
  rw [← halve_iterate_eq, ← halve_iterate_eq, Nat.add_comm, Function.iterate_add_apply]
  exact (halve_iterate_mem (halve_iterate_mem hr k₁).1 d).2

/-- The halving count of `getBlockReward`, `(int64(blockNumber) - 3Y - 1) /
int64(3Y) + 1` on `int64`, read as an integer. -/
theorem toInt_halvingTimes (b : UInt64) :
    ((b.toInt64 - yearBlockCount.toInt64 * 3 - 1) / (yearBlockCount * 3).toInt64 + 1).toInt =
      ((((b.toNat : ℤ) - 15768001).bmod (2 ^ 64)).tdiv 15768000 + 1).bmod (2 ^ 64) := by
  have hY : (yearBlockCount * 3).toInt64.toInt = 15768000 := by decide
  have h1 : (1 : Int64).toInt = 1 := by decide
  rw [Int64.toInt_add, Int64.toInt_div, toInt_halvingNumerator, hY, h1, Int.bmod_add_bmod]

/-- Below `2^63 + 3Y + 1` the count does not wrap: it is `⌈(b - 3Y)/3Y⌉`. -/
theorem toInt_halvingTimes_of_lt {b : UInt64} (h₁ : 15768000 < b.toNat)
    (h₂ : b.toNat < 2 ^ 63 + 15768001) :
    ((b.toInt64 - yearBlockCount.toInt64 * 3 - 1) / (yearBlockCount * 3).toInt64 + 1).toInt =
      ((b.toNat : ℤ) - 15768001) / 15768000 + 1 := by
  have hnum : ((b.toNat : ℤ) - 15768001).bmod (2 ^ 64) = (b.toNat : ℤ) - 15768001 :=
    Int.bmod_eq_of_le (by omega) (by omega)
  rw [toInt_halvingTimes, hnum, Int.tdiv_eq_ediv_of_nonneg (by omega)]
  exact Int.bmod_eq_of_le (by omega) (by omega)

/-- From `2^63 + 3Y + 1` on, `int64(blockNumber)` is negative, and so is the
count: the loop does not run. -/
theorem toInt_halvingTimes_nonpos {b : UInt64} (h : 2 ^ 63 + 15768001 ≤ b.toNat) :
    ((b.toInt64 - yearBlockCount.toInt64 * 3 - 1) / (yearBlockCount * 3).toInt64 + 1).toInt ≤ 0 := by
  have hb : b.toNat < 2 ^ 64 := b.toNat_lt
  rw [toInt_halvingTimes]
  -- the numerator wraps once, to `b - 3Y - 1 - 2^64`, below `-3Y`
  generalize hx : (b.toNat : ℤ) - 15768001 = x
  have hnum : x.bmod (2 ^ 64) = x - 2 ^ 64 := by
    rw [Int.bmod_def]
    split_ifs <;> omega
  rw [hnum]
  generalize hy : x - 2 ^ 64 = y
  -- truncating division of a negative numerator: the floor, plus one unless exact
  have hq : -2 ^ 63 ≤ y.tdiv 15768000 ∧ y.tdiv 15768000 ≤ -1 := by
    have hs : (15768000 : ℤ).sign = 1 := rfl
    rw [Int.tdiv_eq_ediv, hs]
    split_ifs <;> omega
  rw [Int.bmod_eq_of_le (by omega) (by omega)]
  omega

/-- Below `2^63 + 3Y + 1` the reward is the first year's reward halved as often
as the schedule says. -/
theorem getBlockReward_eq_halvings {b : UInt64} (h : b.toNat < 2 ^ 63 + 15768001) :
    getBlockReward b = blockDistributeRewrad * 100000000 / 2 ^ halvings b.toNat := by
  have hY : yearBlockCount.toNat = 5256000 := by decide
  have hY3 : (yearBlockCount * 3).toNat = 15768000 := by decide
  unfold getBlockReward halvings
  dsimp only
  simp only [UInt64.le_iff_toNat_le, hY, hY3]
  split_ifs with h₁ h₂
  · rw [pow_zero, Int.ediv_one]
  · rw [pow_one]
  · -- the loop halves `R / 2` once per count, which does not wrap here
    rw [halve_iterate_eq, toInt_halvingTimes_of_lt (by omega) h,
      Int.ediv_ediv_of_nonneg (by decide), ← pow_succ', Nat.ceilDiv_eq_add_pred_div]
    congr 2
    omega

/-- From `2^63 + 3Y + 1` on, the loop does not run: the reward is that of the
second year again. -/
theorem getBlockReward_of_wrap {b : UInt64} (h : 2 ^ 63 + 15768001 ≤ b.toNat) :
    getBlockReward b = blockDistributeRewrad * 100000000 / 2 := by
  have hY : yearBlockCount.toNat = 5256000 := by decide
  have hY3 : (yearBlockCount * 3).toNat = 15768000 := by decide
  unfold getBlockReward
  dsimp only
  simp only [UInt64.le_iff_toNat_le, hY, hY3]
  rw [if_neg (by omega), if_neg (by omega), Int.toNat_of_nonpos (toInt_halvingTimes_nonpos h)]
  rfl

/-- Up to `2^63 + 3Y` a later block earns no more. -/
theorem getBlockReward_antitone {b₁ b₂ : UInt64} (h : b₁ ≤ b₂)
    (h₂ : b₂.toNat < 2 ^ 63 + 15768001) : getBlockReward b₂ ≤ getBlockReward b₁ := by
  have h₁ : b₁.toNat ≤ b₂.toNat := UInt64.le_iff_toNat_le.mp h
  rw [getBlockReward_eq_halvings h₂, getBlockReward_eq_halvings (by omega)]
  exact ediv_two_pow_le (by decide) (halvings_mono h₁)

/-- **The halving schedule, and where `int64` breaks it.** Up to block
`2^63 + 3Y` the reward is `⌊R / 2^h(b)⌋` for the schedule's `h`, and never rises;
from `2^63 + 3Y + 1` on, `int64(blockNumber)` is negative, the halving loop does
not run, and every block earns `R / 2` again, where the block before earned
nothing. -/
theorem getBlockReward_int64_wrap :
    (∀ b : UInt64, b.toNat < 2 ^ 63 + 15768001 →
      getBlockReward b = (blockDistributeRewrad * 10 ^ 8).fdiv (2 ^ halvings b.toNat)) ∧
    (∀ b₁ b₂ : UInt64, b₁ ≤ b₂ → b₂.toNat < 2 ^ 63 + 15768001 →
      getBlockReward b₂ ≤ getBlockReward b₁) ∧
    (∀ b : UInt64, 2 ^ 63 + 15768001 ≤ b.toNat →
      getBlockReward b = (blockDistributeRewrad * 10 ^ 8).fdiv 2) ∧
    getBlockReward 9223372036870543808 = 0 ∧ 0 < getBlockReward 9223372036870543809 := by
  have hR : (0 : ℤ) ≤ blockDistributeRewrad * 100000000 := by decide
  have hfdiv : ∀ k : ℕ, (blockDistributeRewrad * 10 ^ 8).fdiv (2 ^ k) =
      blockDistributeRewrad * 100000000 / 2 ^ k := fun k =>
    Int.fdiv_eq_ediv_of_nonneg _ (Int.pow_nonneg (by decide))
  -- the last block before the wrap is past 63 halvings, which leave nothing of `R`
  have hlast : getBlockReward 9223372036870543808 = 0 := by
    have hn : (9223372036870543808 : UInt64).toNat = 9223372036870543808 := rfl
    have h63 : 63 ≤ halvings 9223372036870543808 := by decide
    have hle := ediv_two_pow_le hR h63
    have hzero : blockDistributeRewrad * 100000000 / 2 ^ 63 = 0 := by decide
    rw [getBlockReward_eq_halvings (by omega), hn]
    have hpow : (0 : ℤ) ≤ 2 ^ halvings 9223372036870543808 := Int.pow_nonneg (by decide)
    have := Int.ediv_nonneg hR hpow
    omega
  have hnext : getBlockReward 9223372036870543809 = blockDistributeRewrad * 100000000 / 2 :=
    getBlockReward_of_wrap (by decide)
  refine ⟨fun b hb => ?_, fun b₁ b₂ h h₂ => getBlockReward_antitone h h₂, fun b hb => ?_, hlast,
    by rw [hnext]; decide⟩
  · rw [getBlockReward_eq_halvings hb, hfdiv]
  · rw [getBlockReward_of_wrap hb, ← pow_one (2 : ℤ), hfdiv]

/-- The first block of the third year is halved twice; it earns no more than the
first of the second; and the last `uint64` block earns half the first year's
reward. -/
theorem getBlockReward_int64_wrap_last :
    getBlockReward 15768001 = (blockDistributeRewrad * 10 ^ 8).fdiv (2 ^ halvings 15768001) ∧
      getBlockReward 15768001 ≤ getBlockReward 5256001 ∧
      getBlockReward 18446744073709551615 = (blockDistributeRewrad * 10 ^ 8).fdiv 2 :=
  ⟨getBlockReward_int64_wrap.1 15768001 (by decide),
    getBlockReward_int64_wrap.2.1 5256001 15768001 (by decide) (by decide),
    getBlockReward_int64_wrap.2.2.1 18446744073709551615 (by decide)⟩

/-! ### The parts of a payment -/

/-- The parts of a payment of `base`: team and validator parts non-negative, the
three parts adding up to `base`. -/
structure Shares.Within (sh : Shares) (base : ℤ) : Prop where
  team_nonneg : 0 ≤ sh.team
  validator_nonneg : 0 ≤ sh.validator
  sum_eq : sh.provider + sh.team + sh.validator = base

theorem firstShares_within {reward : ℤ} (hr : 0 ≤ reward) (h : Header) :
    (firstShares reward h).Within (reward / 2) where
  team_nonneg := Int.ediv_nonneg (Int.mul_nonneg hr (Int.natCast_nonneg _)) (by decide)
  validator_nonneg := Int.ediv_nonneg (Int.mul_nonneg hr (Int.natCast_nonneg _)) (by decide)
  sum_eq := by simp only [firstShares]; omega

theorem dailyShares_within {reward : ℤ} (hr : 0 ≤ reward) (h : Header) :
    (dailyShares reward h).Within (reward / doubleDistributeRound) where
  team_nonneg := Int.ediv_nonneg
    (Int.ediv_nonneg (Int.mul_nonneg hr (Int.natCast_nonneg _)) (by decide)) (by decide)
  validator_nonneg := Int.ediv_nonneg
    (Int.ediv_nonneg (Int.mul_nonneg hr (Int.natCast_nonneg _)) (by decide)) (by decide)
  sum_eq := by simp only [dailyShares]; omega

/-! ### What a list of payments credits -/

/-- What the payments credit on account of block `B`. -/
def paidFor (ps : List Payment) (B : UInt64) : ℤ :=
  Ledger.creditedTo (ps.map fun p => (p.block, p.amount)) B

/-- What the payments credit to `addr`. -/
def paidTo (ps : List Payment) (addr : Address) : ℤ :=
  Ledger.creditedTo (ps.map fun p => (p.payee, p.amount)) addr

section Paid

variable {ps qs : List Payment} {B blk : UInt64}

@[simp] theorem paidFor_nil : paidFor [] B = 0 := rfl

@[simp] theorem paidFor_append : paidFor (ps ++ qs) B = paidFor ps B + paidFor qs B := by
  simp [paidFor]

theorem paidFor_flatMap {ι : Type} (l : List ι) (f : ι → List Payment) :
    paidFor (l.flatMap f) B = (l.map fun i => paidFor (f i) B).sum := by
  induction l with
  | nil => rfl
  | cons i l ih => rw [List.flatMap_cons, paidFor_append, ih, List.map_cons, List.sum_cons]

/-- Payments all on account of one block credit it their total, and no other. -/
theorem paidFor_of_block (h : ∀ p ∈ ps, p.block = blk) :
    paidFor ps B = if blk = B then (ps.map Payment.amount).sum else 0 := by
  induction ps with
  | nil => simp
  | cons p ps ih =>
    have hp := h p List.mem_cons_self
    rw [paidFor, List.map_cons, Ledger.creditedTo_cons, ← paidFor,
      ih fun q hq => h q (List.mem_cons_of_mem p hq), hp]
    split_ifs <;> simp

theorem paidFor_nonneg (h : ∀ p ∈ ps, 0 ≤ p.amount) : 0 ≤ paidFor ps B := by
  apply Ledger.creditedTo_nonneg
  simpa using h

end Paid

/-! ### The payments of one share-out -/

section SharePayments

variable {block : UInt64} {locked : Bool} {provider team coinbase : Address} {sh : Shares}
  {base : ℤ}

theorem block_of_mem_sharePayments {p : Payment}
    (hp : p ∈ sharePayments block locked provider team coinbase sh) :
    p.block = block ∧ p.locked = locked := by
  unfold sharePayments at hp
  split_ifs at hp <;> simp at hp <;> rcases hp with rfl | rfl | rfl <;> simp

theorem amount_nonneg_of_mem_sharePayments (hsh : sh.Within base) {p : Payment}
    (hp : p ∈ sharePayments block locked provider team coinbase sh) : 0 ≤ p.amount := by
  unfold sharePayments at hp
  have := hsh.team_nonneg
  have := hsh.validator_nonneg
  split_ifs at hp with hpos <;> simp at hp <;> rcases hp with rfl | rfl | rfl <;> simp <;> omega

/-- One share-out pays at most the amount it shares. -/
theorem sum_sharePayments_le (hsh : sh.Within base) (hbase : 0 ≤ base) :
    ((sharePayments block locked provider team coinbase sh).map Payment.amount).sum ≤ base := by
  have := hsh.team_nonneg
  have := hsh.validator_nonneg
  have := hsh.sum_eq
  unfold sharePayments
  split_ifs <;> simp <;> omega

/-- What one share-out pays on account of a block: at most its amount, and only
to its own block. -/
theorem paidFor_sharePayments_le (hsh : sh.Within base) (hbase : 0 ≤ base) (B : UInt64) :
    paidFor (sharePayments block locked provider team coinbase sh) B ≤
      if block = B then base else 0 := by
  rw [paidFor_of_block fun p hp => (block_of_mem_sharePayments hp).1]
  split_ifs
  · exact sum_sharePayments_le hsh hbase
  · exact le_rfl

end SharePayments

/-! ### The payments of a block -/

section Payments

variable {chain : ChainHeaderReader} {N : UInt64}

theorem mem_dailyRounds {i : ℕ} :
    i ∈ dailyRounds N ↔ i < distributeRound ∧ 14400 * (i + 2) < N.toNat := by
  rw [dailyRounds, List.mem_filter, List.mem_range, decide_eq_true_iff, BigOneDayUint_toNat]

/-- The block a daily round pays for, as a number. -/
theorem toNat_lastNumber {i : ℕ} (hi : i ∈ dailyRounds N) :
    (N - BigOneDayUint * UInt64.ofNat (i + 2)).toNat = N.toNat - 14400 * (i + 2) := by
  obtain ⟨hi, hN⟩ := mem_dailyRounds.1 hi
  have := N.toNat_lt
  rw [toNat_sub_days N hi]
  omega

theorem toNat_yestBlockNumber (hN : N > BigOneDayUint) :
    (N - BigOneDayUint).toNat = N.toNat - 14400 := by
  rw [UInt64.toNat_sub_of_le _ _ (UInt64.le_of_lt hN), BigOneDayUint_toNat]

theorem block_of_mem_dailyGroup {T : Address} {i : ℕ} {p : Payment}
    (hp : p ∈ dailyGroup chain N T i) :
    p.block = N - BigOneDayUint * UInt64.ofNat (i + 2) ∧ p.locked = false := by
  dsimp only [dailyGroup] at hp
  split at hp
  · exact block_of_mem_sharePayments hp
  · simp at hp

theorem amount_nonneg_of_mem_dailyGroup {T : Address} {i : ℕ} {p : Payment}
    (hp : p ∈ dailyGroup chain N T i) : 0 ≤ p.amount := by
  dsimp only [dailyGroup] at hp
  split at hp
  · exact amount_nonneg_of_mem_sharePayments (dailyShares_within (getBlockReward_nonneg _) _) hp
  · simp at hp

theorem paidFor_dailyGroup_nonneg {T : Address} (i : ℕ) (B : UInt64) :
    0 ≤ paidFor (dailyGroup chain N T i) B :=
  paidFor_nonneg fun _ hp => amount_nonneg_of_mem_dailyGroup hp

/-- **Every payment is non-negative.** -/
theorem amount_nonneg_of_mem_rewardPayments {p : Payment} (hp : p ∈ rewardPayments chain N) :
    0 ≤ p.amount := by
  dsimp only [rewardPayments] at hp
  split_ifs at hp
  · split at hp
    · rcases List.mem_append.mp hp with hp | hp
      · exact amount_nonneg_of_mem_sharePayments
          (firstShares_within (getBlockReward_nonneg _) _) hp
      · obtain ⟨i, -, hp⟩ := List.mem_flatMap.mp hp
        exact amount_nonneg_of_mem_dailyGroup hp
    · simp at hp
  · simp at hp

/-- What daily round `i` pays on account of `B`: at most a two-hundredth of
`B`'s reward, and nothing unless `i` reaches back to `B`. -/
theorem paidFor_dailyGroup_le {T : Address} {i : ℕ} (hi : i ∈ dailyRounds N) (B : UInt64) :
    paidFor (dailyGroup chain N T i) B ≤
      if N.toNat = B.toNat + 14400 * (i + 2) then getBlockReward B / doubleDistributeRound
      else 0 := by
  have hlast := toNat_lastNumber hi
  have hN := (mem_dailyRounds.1 hi).2
  dsimp only [dailyGroup]
  split
  · refine (paidFor_sharePayments_le (dailyShares_within (getBlockReward_nonneg _) _)
      (Int.ediv_nonneg (getBlockReward_nonneg _) (by decide)) B).trans ?_
    -- the round's block is `B` exactly when `N` lies `i+2` days after `B`
    by_cases hB : N - BigOneDayUint * UInt64.ofNat (i + 2) = B
    · rw [if_pos hB, if_pos (by rw [← hB, hlast]; omega), hB]
    · rw [if_neg hB]
      exact ite_nonneg (Int.ediv_nonneg (getBlockReward_nonneg B) (by decide)) le_rfl
  · rw [paidFor_nil]
    exact ite_nonneg (Int.ediv_nonneg (getBlockReward_nonneg B) (by decide)) le_rfl

end Payments

/-! ### The schedule -/

/-- **What block `n` owes on account of block `B`**: half of `B`'s reward one
day after `B`, a two-hundredth of it on each of the hundred days after that. -/
def dueAt (B : UInt64) (n : ℕ) : ℤ :=
  (if n = B.toNat + 14400 then getBlockReward B / 2 else 0) +
    (if ∃ i < distributeRound, n = B.toNat + 14400 * (i + 2) then
      getBlockReward B / doubleDistributeRound
    else 0)

theorem dueAt_nonneg (B : UInt64) (n : ℕ) : 0 ≤ dueAt B n := by
  have := getBlockReward_nonneg B
  unfold dueAt doubleDistributeRound
  split_ifs <;> omega

/-- **The schedule never owes more than the reward.** Whatever set of blocks
pays `B`, each block once, it is owed at most `B`'s reward in all. -/
theorem sum_dueAt_le (B : UInt64) (S : Finset ℕ) : ∑ n ∈ S, dueAt B n ≤ getBlockReward B := by
  have hr := getBlockReward_nonneg B
  unfold dueAt
  rw [Finset.sum_add_distrib]
  -- one day after `B` is one block
  have hfirst : ∑ n ∈ S, (if n = B.toNat + 14400 then getBlockReward B / 2 else 0) ≤
      getBlockReward B / 2 := by
    rw [Finset.sum_ite_eq']
    split_ifs <;> omega
  -- the hundred days after that are a hundred blocks
  have hcard : (S.filter fun n => ∃ i < distributeRound, n = B.toNat + 14400 * (i + 2)).card ≤
      100 := by
    calc _ ≤ ((Finset.range distributeRound).image fun i => B.toNat + 14400 * (i + 2)).card := by
          apply Finset.card_le_card
          intro n hn
          obtain ⟨-, i, hi, rfl⟩ := Finset.mem_filter.mp hn
          exact Finset.mem_image_of_mem _ (Finset.mem_range.mpr hi)
      _ ≤ (Finset.range distributeRound).card := Finset.card_image_le
      _ = 100 := Finset.card_range _
  have hdaily : ∑ n ∈ S, (if ∃ i < distributeRound, n = B.toNat + 14400 * (i + 2) then
      getBlockReward B / doubleDistributeRound else 0) ≤
      100 * (getBlockReward B / doubleDistributeRound) := by
    rw [Finset.sum_ite, Finset.sum_const_zero, add_zero, Finset.sum_const, Int.nsmul_eq_mul]
    exact Int.mul_le_mul_of_nonneg_right (by exact_mod_cast hcard)
      (Int.ediv_nonneg hr (by decide))
  rw [show doubleDistributeRound = 200 from rfl] at hdaily ⊢
  omega

/-- **What a block pays on account of `B` stays within the schedule.** The
first-day payment at `N` is for the block a day back, round `i` for the block
`i+2` days back; these blocks are all different, so at most one of them is
`B`. -/
theorem paidFor_rewardPayments_le (chain : ChainHeaderReader) (N B : UInt64) :
    paidFor (rewardPayments chain N) B ≤ dueAt B N.toNat := by
  have hr := getBlockReward_nonneg B
  dsimp only [rewardPayments]
  split_ifs with hN
  · split
    · rename_i yestHeader _
      rw [paidFor_append, paidFor_flatMap]
      have hyest := toNat_yestBlockNumber hN
      have hN' : 14400 < N.toNat := by
        have := UInt64.lt_iff_toNat_lt.mp hN
        rwa [BigOneDayUint_toNat] at this
      -- the first-day payment is for `B` exactly when `N` is a day after `B`
      have hfirst : paidFor (sharePayments (N - BigOneDayUint) true yestHeader.Provider
          yestHeader.TeamAddress yestHeader.Coinbase
          (firstShares (getBlockReward (N - BigOneDayUint)) yestHeader)) B ≤
          if N.toNat = B.toNat + 14400 then getBlockReward B / 2 else 0 := by
        refine (paidFor_sharePayments_le (firstShares_within (getBlockReward_nonneg _) _)
          (Int.ediv_nonneg (getBlockReward_nonneg _) (by decide)) B).trans ?_
        by_cases hB : N - BigOneDayUint = B
        · rw [if_pos hB, if_pos (by rw [← hB, hyest]; omega), hB]
        · rw [if_neg hB]
          split_ifs <;> omega
      -- of the daily rounds, at most the one `i+2` days after `B` pays for it
      have hdaily : ((dailyRounds N).map fun i =>
          paidFor (dailyGroup chain N yestHeader.TeamAddress i) B).sum ≤
          if ∃ i < distributeRound, N.toNat = B.toNat + 14400 * (i + 2) then
            getBlockReward B / doubleDistributeRound else 0 := by
        apply Ledger.sum_le_of_pairwise_ne_zero ((List.nodup_range).filter _)
        · intro i _
          exact paidFor_dailyGroup_nonneg i B
        · intro i hi
          refine (paidFor_dailyGroup_le hi B).trans ?_
          by_cases h1 : N.toNat = B.toNat + 14400 * (i + 2)
          · rw [if_pos h1, if_pos ⟨i, (mem_dailyRounds.1 hi).1, h1⟩]
          · rw [if_neg h1]
            exact ite_nonneg (Int.ediv_nonneg hr (by decide)) le_rfl
        · intro i hi j hj hpi hpj
          have h1 := @paidFor_dailyGroup_le chain N yestHeader.TeamAddress i hi B
          have h2 := @paidFor_dailyGroup_le chain N yestHeader.TeamAddress j hj B
          have n1 := @paidFor_dailyGroup_nonneg chain N yestHeader.TeamAddress i B
          have n2 := @paidFor_dailyGroup_nonneg chain N yestHeader.TeamAddress j B
          split_ifs at h1 h2 <;> omega
        · exact ite_nonneg (Int.ediv_nonneg hr (by decide)) le_rfl
      -- and a day after `B` is no round's `i+2` days
      unfold dueAt
      have hsplit : ¬ (N.toNat = B.toNat + 14400 ∧
          ∃ i < distributeRound, N.toNat = B.toNat + 14400 * (i + 2)) := by
        rintro ⟨h1, i, -, h2⟩
        omega
      split_ifs at hfirst hdaily ⊢ <;> omega
    · rw [paidFor_nil]
      exact dueAt_nonneg B _
  · rw [paidFor_nil]
    exact dueAt_nonneg B _

/-- **No block is paid more than its reward.** Over any set of block numbers – a
chain handles each number once – `trySendBlockReward` pays on account of `B` at
most `getBlockReward B`. -/
theorem sum_paidFor_rewardPayments_le (chain : ChainHeaderReader) (B : UInt64)
    (Ns : Finset UInt64) :
    ∑ N ∈ Ns, paidFor (rewardPayments chain N) B ≤ getBlockReward B :=
  calc ∑ N ∈ Ns, paidFor (rewardPayments chain N) B
      ≤ ∑ N ∈ Ns, dueAt B N.toNat := Finset.sum_le_sum fun N _ => paidFor_rewardPayments_le chain N B
    _ = ∑ n ∈ Ns.image UInt64.toNat, dueAt B n :=
        (Finset.sum_image fun _ _ _ _ h => UInt64.toNat_inj.mp h).symm
    _ ≤ getBlockReward B := sum_dueAt_le B _

/-! ### Balances and lock balances -/

section Balances

variable {state : StateDB} {ps : List Payment}

theorem Balance_applyPayments (state : StateDB) (ps : List Payment) :
    (applyPayments state ps).Balance =
      Ledger.creditAll state.Balance (ps.map fun p => (p.payee, p.amount)) := by
  induction ps generalizing state with
  | nil => rfl
  | cons p ps ih =>
    rw [List.map_cons, Ledger.creditAll_cons, ← Payment.apply_Balance]
    exact ih _

/-- **What `trySendBlockReward` credits.** Every account gains what the payments
credit to it; the zero address gains the fees besides, and the system address
is emptied. -/
theorem Balance_trySendBlockReward (chain : ChainHeaderReader) (header : Header)
    (state : StateDB) (addr : Address) :
    (trySendBlockReward chain header state).Balance addr =
      if addr = SystemAddress then 0
      else state.Balance addr + paidTo (rewardPayments chain header.number) addr +
        if addr = Address.zero then state.Balance SystemAddress else 0 := by
  rw [trySendBlockReward_eq, StateDB.SetBalance_Balance, Function.update_apply,
    StateDB.AddBalance_Balance, Ledger.credit_apply, Balance_applyPayments, Ledger.foldl_credit]
  rfl

/-- Payments of non-negative amounts leave the lock balances non-negative: a
locked payment adds to them, a daily one takes off at most all. -/
theorem lockBalance_nonneg_applyPayments (hs : 0 ≤ state.LockBalance)
    (hps : ∀ p ∈ ps, 0 ≤ p.amount) : 0 ≤ (applyPayments state ps).LockBalance := by
  induction ps generalizing state with
  | nil => exact hs
  | cons p ps ih =>
    apply ih _ fun q hq => hps q (List.mem_cons_of_mem p hq)
    unfold Payment.apply
    split_ifs
    · rw [payLocked_LockBalance]
      exact Ledger.credit_nonneg hs (hps p List.mem_cons_self)
    · rw [payUnlocking_LockBalance]
      exact Ledger.debitClamped_nonneg hs

theorem trySendBlockReward_lockBalance_nonneg (chain : ChainHeaderReader) (header : Header)
    (hs : 0 ≤ state.LockBalance) : 0 ≤ (trySendBlockReward chain header state).LockBalance := by
  rw [trySendBlockReward_eq, StateDB.SetBalance_LockBalance, StateDB.AddBalance_LockBalance]
  exact lockBalance_nonneg_applyPayments hs fun _ hp => amount_nonneg_of_mem_rewardPayments hp

end Balances

/-- A change of the state as far as lock balances go: the delayed reward of a
block, or any other change, which writes no lock balance – in the source only
`trySendBlockReward` writes one, the transactions and the other system calls of
`Finalize` never do. -/
inductive LockStep : StateDB → StateDB → Prop
  | reward (chain : ChainHeaderReader) (header : Header) (state : StateDB) :
      LockStep state (trySendBlockReward chain header state)
  | other {state state' : StateDB} (h : state'.LockBalance = state.LockBalance) :
      LockStep state state'

/-- **No lock balance ever goes negative**, along any run from a state whose
lock balances are non-negative (a fresh account has none). -/
theorem lockBalance_nonneg_of_run {state state' : StateDB}
    (h : Relation.ReflTransGen LockStep state state') (hs : 0 ≤ state.LockBalance) :
    0 ≤ state'.LockBalance := by
  -- the run is read from its end: one more step keeps the invariant
  induction h with
  | refl => exact hs
  | tail _ hstep ih =>
    cases hstep with
    | reward chain header => exact trySendBlockReward_lockBalance_nonneg chain header ih
    | other h => rwa [h]

/-! ### Who is paid -/

section Recipients

variable {chain : ChainHeaderReader} {N : UInt64} {i : ℕ} {yestHeader : Header}

theorem block_ne_of_mem_sharePayments_first (hi : i ∈ dailyRounds N) {p : Payment}
    (hp : p ∈ sharePayments (N - BigOneDayUint) true yestHeader.Provider yestHeader.TeamAddress
      yestHeader.Coinbase (firstShares (getBlockReward (N - BigOneDayUint)) yestHeader)) :
    p.block ≠ N - BigOneDayUint * UInt64.ofNat (i + 2) := by
  have hN := (mem_dailyRounds.1 hi).2
  have hyest := toNat_yestBlockNumber (N := N)
    (UInt64.lt_iff_toNat_lt.mpr (by rw [BigOneDayUint_toNat]; omega))
  rw [(block_of_mem_sharePayments hp).1]
  intro h
  have := congrArg UInt64.toNat h
  rw [hyest, toNat_lastNumber hi] at this
  omega

/-- Two daily rounds of one block pay for different blocks. -/
theorem lastNumber_inj {j : ℕ} (hi : i ∈ dailyRounds N) (hj : j ∈ dailyRounds N)
    (h : N - BigOneDayUint * UInt64.ofNat (j + 2) = N - BigOneDayUint * UInt64.ofNat (i + 2)) :
    j = i := by
  have := congrArg UInt64.toNat h
  have hN := (mem_dailyRounds.1 hi).2
  have hN' := (mem_dailyRounds.1 hj).2
  rw [toNat_lastNumber hi, toNat_lastNumber hj] at this
  omega

/-- **What round `i` pays, it pays for its own block only.** Of everything
`trySendBlockReward` pays at `N`, the payments on account of the block `i+2`
days back are those of round `i` – whose team part goes to the team of the
block one day back. -/
theorem mem_rewardPayments_daily (hi : i ∈ dailyRounds N)
    (hy : chain.GetHeaderByNumber (N - BigOneDayUint) = some yestHeader) (p : Payment) :
    p ∈ rewardPayments chain N ∧ p.block = N - BigOneDayUint * UInt64.ofNat (i + 2) ↔
      p ∈ dailyGroup chain N yestHeader.TeamAddress i := by
  have hN : N > BigOneDayUint := by
    have := (mem_dailyRounds.1 hi).2
    rw [gt_iff_lt, UInt64.lt_iff_toNat_lt, BigOneDayUint_toNat]
    omega
  dsimp only [rewardPayments]
  rw [if_pos hN, hy, List.mem_append, List.mem_flatMap]
  constructor
  · rintro ⟨hp | ⟨j, hj, hp⟩, hb⟩
    · exact absurd hb (block_ne_of_mem_sharePayments_first hi hp)
    · -- the payment's round is `i`, its block being round `i`'s
      rwa [← lastNumber_inj hi hj ((block_of_mem_dailyGroup hp).1.symm.trans hb)]
  · intro hp
    exact ⟨Or.inr ⟨i, hi, hp⟩, (block_of_mem_dailyGroup hp).1⟩

end Recipients

/-- **The daily payments pay the team part to the wrong team.** At block `N`,
round `i` pays block `B`, `i+2` days back. The team part of `B`'s reward goes
to the team address of the block one day before `N`; when that differs from the
team `B` recorded – and `B`'s team is neither its provider nor its validator –
nothing `N` pays on account of `B` goes to `B`'s own team. -/
theorem rewardPayments_daily_team_of_day_before (chain : ChainHeaderReader) {N B : UInt64}
    {i : ℕ} (hi : i ∈ dailyRounds N) (hB : N - BigOneDayUint * UInt64.ofNat (i + 2) = B)
    {yestHeader lastHeader : Header}
    (hy : chain.GetHeaderByNumber (N - BigOneDayUint) = some yestHeader)
    (hl : chain.GetHeaderByNumber B = some lastHeader)
    (hpos : 0 < (dailyShares (getBlockReward B) lastHeader).provider)
    (hteam : lastHeader.TeamAddress ≠ yestHeader.TeamAddress)
    (hprov : lastHeader.TeamAddress ≠ lastHeader.Provider)
    (hcoin : lastHeader.TeamAddress ≠ lastHeader.Coinbase) :
    (⟨B, yestHeader.TeamAddress, (dailyShares (getBlockReward B) lastHeader).team, false⟩ :
        Payment) ∈ rewardPayments chain N ∧
      ∀ p ∈ rewardPayments chain N, p.block = B → p.payee ≠ lastHeader.TeamAddress := by
  have hgroup : dailyGroup chain N yestHeader.TeamAddress i =
      sharePayments B false lastHeader.Provider yestHeader.TeamAddress lastHeader.Coinbase
        (dailyShares (getBlockReward B) lastHeader) := by
    dsimp only [dailyGroup]
    rw [hB, hl]
  subst hB
  refine ⟨((mem_rewardPayments_daily hi hy _).mpr ?_).1, fun p hp hb => ?_⟩
  · rw [hgroup, sharePayments, if_pos hpos]
    simp
  · have hp' := (mem_rewardPayments_daily hi hy p).mp ⟨hp, hb⟩
    rw [hgroup, sharePayments, if_pos hpos] at hp'
    -- the three payees are `B`'s provider, the day-before team and `B`'s validator
    simp only [List.mem_append, List.mem_cons, List.mem_ite_nil_right, List.not_mem_nil,
      or_false] at hp'
    rcases hp' with ⟨-, rfl⟩ | rfl | rfl
    · exact Ne.symm hprov
    · exact Ne.symm hteam
    · exact Ne.symm hcoin

/-- A chain on which the team address changes after block 1: every block gives
its team and its validator a tenth of its reward and has no provider; block 1
names one team, every later block another. -/
def teamChangeHeader (n : ℕ) : Header :=
  { Header.zero with
    Number := n
    Coinbase := ⟨Vector.replicate 20 3⟩
    TeamAddress := if n = 1 then ⟨Vector.replicate 20 1⟩ else ⟨Vector.replicate 20 2⟩
    TeamRate := 2000
    ValidatorRate := 2000 }

/-- At block 28801, round 0 pays block 1: its team part goes to the team of
block 14401, and block 1's own team is paid nothing. -/
theorem rewardPayments_daily_team_changed :
    let chain := ChainHeaderReader.ofHeaders MainnetChainConfig (fun _ => Hash.zero)
      teamChangeHeader 28800
    (0 ∈ dailyRounds 28801 ∧ 28801 - BigOneDayUint * UInt64.ofNat (0 + 2) = 1 ∧
      chain.GetHeaderByNumber (28801 - BigOneDayUint) = some (teamChangeHeader 14401) ∧
      chain.GetHeaderByNumber 1 = some (teamChangeHeader 1) ∧
      0 < (dailyShares (getBlockReward 1) (teamChangeHeader 1)).provider ∧
      (teamChangeHeader 1).TeamAddress ≠ (teamChangeHeader 14401).TeamAddress ∧
      (teamChangeHeader 1).TeamAddress ≠ (teamChangeHeader 1).Provider ∧
      (teamChangeHeader 1).TeamAddress ≠ (teamChangeHeader 1).Coinbase) ∧
    (⟨1, (teamChangeHeader 14401).TeamAddress,
        (dailyShares (getBlockReward 1) (teamChangeHeader 1)).team, false⟩ : Payment) ∈
        rewardPayments chain 28801 ∧
      ∀ p ∈ rewardPayments chain 28801, p.block = 1 →
        p.payee ≠ (teamChangeHeader 1).TeamAddress := by
  intro chain
  have hi : 0 ∈ dailyRounds 28801 := by decide
  have hB : (28801 : UInt64) - BigOneDayUint * UInt64.ofNat (0 + 2) = 1 := by decide
  have hy : chain.GetHeaderByNumber (28801 - BigOneDayUint) = some (teamChangeHeader 14401) := rfl
  have hl : chain.GetHeaderByNumber 1 = some (teamChangeHeader 1) := rfl
  have hpos : 0 < (dailyShares (getBlockReward 1) (teamChangeHeader 1)).provider := by decide
  have hteam : (teamChangeHeader 1).TeamAddress ≠ (teamChangeHeader 14401).TeamAddress := by
    decide
  have hprov : (teamChangeHeader 1).TeamAddress ≠ (teamChangeHeader 1).Provider := by decide
  have hcoin : (teamChangeHeader 1).TeamAddress ≠ (teamChangeHeader 1).Coinbase := by decide
  exact ⟨⟨hi, hB, hy, hl, hpos, hteam, hprov, hcoin⟩,
    rewardPayments_daily_team_of_day_before chain hi hB hy hl hpos hteam hprov hcoin⟩

end Dpos

end PureChain
