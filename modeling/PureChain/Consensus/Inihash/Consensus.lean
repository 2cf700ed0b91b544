import PureChain.Consensus.Engine
import PureChain.Lib.Except

/-!
# The Inihash proof-of-work engine: verifying a header

`Inihash` is the chain's proof-of-work engine. A header is sealed when
`VersaHash(SealHash(header), Nonce, ExtraNonce)`, read as a big-endian number,
is at most `2^256 / Difficulty`; `SealHash` is the Keccak-256 of the RLP of a
hand-written list of seventeen header fields. `verifyHeader` checks a header
against its parent: the size of the extra-data, the time, the difficulty the
parent prescribes (`calcDifficulty`), the gas limits, the block number, the seal
and the fork hash.

The header's hash commits to twenty fields. Seventeen are in the seal hash and
`Nonce` and `ExtraNonce` go into `VersaHash`; the twentieth, `MixDigest`, is in
neither, and no check reads it: the mix-digest comparison of go-ethereum's
ethash left with hashimoto. One proof of work therefore seals as many headers as
there are mix digests, each with a hash of its own
(`verifyHeader_ignores_mixDigest`).

The difficulty a parent prescribes is
`max(MinimumDifficulty, D + ⌊D/12288⌋ · max(6 - ⌊Δt/5⌋, -599))`, whatever the
code's comments, which still describe the `1 - Δt/10` and `-99` of Homestead,
say; it never rises with the block time, and every header `verifyHeader`
accepts carries at least fifty million (`calcDifficulty_homestead`).

`VersaHash` (SHA-256 and a Schnorr signature, package `crypto/versaHash`) and
Keccak-256 are parameters. The delay of fake engines is left out, and so is the
shared verifier of `ModeShared` engines: it runs in `ModeNormal`, which is what
`verifySeal` does without it.
-/

namespace PureChain

namespace Inihash

/-- `inihash.Mode`: how much proof-of-work checking an engine does. -/
inductive Mode where
  | ModeNormal
  | ModeShared
  | ModeTest
  | ModeFake
  | ModeFullFake
  deriving DecidableEq, Repr

/-- The errors of header verification. -/
inductive Error where
  /-- `extra-data too long: %d > %d`. -/
  | extraDataTooLong (actual max : ℕ)
  /-- `consensus.ErrFutureBlock`. -/
  | errFutureBlock
  | errOlderBlockTime
  /-- `invalid difficulty: have %v, want %v`. -/
  | invalidDifficulty (actual want : ℤ)
  /-- `invalid gasLimit: have %v, max %v`. -/
  | gasLimitTooHigh (actual bound : UInt64)
  /-- `invalid gasUsed: have %d, gasLimit %d`. -/
  | gasUsedTooHigh (actual limit : UInt64)
  /-- `invalid gas limit: have %d, want %d += %d`. -/
  | gasLimitOutOfBounds (actual parent bound : UInt64)
  /-- `consensus.ErrInvalidNumber`. -/
  | errInvalidNumber
  | errInvalidDifficulty
  | errInvalidPoW
  /-- `homestead gas reprice fork: have 0x%x, want 0x%x`. -/
  | forkHashMismatch (actual want : Hash)
  /-- `consensus.ErrUnknownAncestor`. -/
  | errUnknownAncestor
  deriving DecidableEq, Repr

/-- `allowedFutureBlockTimeSeconds`. -/
def allowedFutureBlockTimeSeconds : Int64 := 140

end Inihash

/-- `inihash.Inihash`, the fields verification reads: the mode of its
configuration and the block number at which a fake engine fails. -/
structure Inihash where
  PowMode : Inihash.Mode
  fakeFail : UInt64

namespace Inihash

open Rlp Header

/-- The list `SealHash` hands to `rlp.Encode`: every field of the header but
`MixDigest`, `Nonce` and `ExtraNonce`. -/
def sealHashItem (header : Header) : Item :=
  .list [hashItem header.ParentHash, hashItem header.UncleHash, addressItem header.Coinbase,
    hashItem header.Root, hashItem header.TxHash, hashItem header.ReceiptHash,
    .str header.Bloom.toList, .nat header.Difficulty, .nat header.Number,
    u64Item header.GasLimit, u64Item header.GasUsed, u64Item header.Time, .str header.Extra,
    addressItem header.Provider, addressItem header.TeamAddress, u64Item header.ValidatorRate,
    u64Item header.TeamRate]

/-- `calcDifficulty`, the Homestead rule: the parent's difficulty moved by
`parent_diff / 12288` for each five seconds the block time falls short of
thirty, by at most 599 steps down, and never below `MinimumDifficulty`. The
code's `big.Int` division is Euclidean, as `/` on `ℤ` is. -/
def calcDifficulty (time : UInt64) (parent : Header) : ℤ :=
  let x : ℤ := ((time.toNat : ℤ) - parent.Time.toNat) / 5
  let x := 6 - x
  let x := if x < -599 then -599 else x
  let y := (parent.Difficulty : ℤ) / DifficultyBoundDivisor
  let x := parent.Difficulty + y * x
  if x < MinimumDifficulty then MinimumDifficulty else x

section Verify

variable (keccak256 : List UInt8 → PureChain.Hash)
  (VersaHash : List UInt8 → List UInt8 → List UInt8 → List UInt8)

/-- `Inihash.SealHash`. -/
def SealHash (header : Header) : PureChain.Hash := keccak256 (sealHashItem header).encode

/-- The proof-of-work check of `verifySeal`: a positive difficulty, and the
`VersaHash` digest at most `2^256 / Difficulty`. -/
def verifyPoW (header : Header) : Except Error Unit := do
  if header.Difficulty = 0 then throw .errInvalidDifficulty
  let result := VersaHash (SealHash keccak256 header).bytes.toList header.Nonce.toList
    header.ExtraNonce.toList
  let target := 2 ^ 256 / header.Difficulty
  if beValue result > target then throw .errInvalidPoW

/-- `Inihash.verifySeal`: a fake engine accepts every header but the one at
`fakeFail`. -/
def verifySeal (inihash : Inihash) (header : Header) : Except Error Unit :=
  if inihash.PowMode = .ModeFake ∨ inihash.PowMode = .ModeFullFake then
    if inihash.fakeFail = header.number then throw .errInvalidPoW else pure ()
  else verifyPoW keccak256 VersaHash header

/-- `Inihash.verifyHeader`, at the clock `unixNow`; `checkSeal` is the code's
`seal` flag. `CalcDifficulty` passes the chain configuration on to
`calcDifficulty`, which does not read it. -/
def verifyHeader (chain : ChainHeaderReader) (inihash : Inihash) (header parent : Header)
    (uncle checkSeal : Bool) (unixNow : Int64) : Except Error Unit := do
  if UInt64.ofNat header.Extra.length > MaximumExtraDataSize then
    throw (.extraDataTooLong header.Extra.length MaximumExtraDataSize.toNat)
  if !uncle then
    if header.Time > (unixNow + allowedFutureBlockTimeSeconds).toUInt64 then
      throw .errFutureBlock
  if header.Time ≤ parent.Time then throw .errOlderBlockTime
  let expected := calcDifficulty header.Time parent
  if expected ≠ header.Difficulty then throw (.invalidDifficulty header.Difficulty expected)
  let capacity : UInt64 := 0x7fffffffffffffff
  if header.GasLimit > capacity then throw (.gasLimitTooHigh header.GasLimit capacity)
  if header.GasUsed > header.GasLimit then throw (.gasUsedTooHigh header.GasUsed header.GasLimit)
  -- `int64` arithmetic, as the code converts both limits
  let diff := parent.GasLimit.toInt64 - header.GasLimit.toInt64
  let diff := if diff < 0 then diff * -1 else diff
  let limit := parent.GasLimit / GasLimitBoundDivisor
  if diff.toUInt64 ≥ limit ∨ header.GasLimit < MinGasLimit then
    throw (.gasLimitOutOfBounds header.GasLimit parent.GasLimit limit)
  if (header.Number : ℤ) - parent.Number ≠ 1 then throw .errInvalidNumber
  if checkSeal then verifySeal keccak256 VersaHash inihash header
  match VerifyForkHashes keccak256 chain.Config header uncle with
  | .error (actual, want) => throw (.forkHashMismatch actual want)
  | .ok () => pure ()

/-- `Inihash.VerifyHeader`: a known header passes, an unknown parent fails, and
anything else is `verifyHeader` against the parent. -/
def VerifyHeader (chain : ChainHeaderReader) (inihash : Inihash) (header : Header)
    (checkSeal : Bool) (unixNow : Int64) : Except Error Unit :=
  if inihash.PowMode = .ModeFullFake then pure ()
  else if (chain.GetHeader (header.Hash keccak256) header.number).isSome then pure ()
  else match chain.GetHeader header.ParentHash (header.number - 1) with
    | none => throw .errUnknownAncestor
    | some parent =>
      verifyHeader keccak256 VersaHash chain inihash header parent false checkSeal unixNow

end Verify

/-! ### What verification reads -/

section Spec

variable {keccak256 : List UInt8 → PureChain.Hash}
  {VersaHash : List UInt8 → List UInt8 → List UInt8 → List UInt8}
  {chain : ChainHeaderReader} {inihash : Inihash} {header parent : Header}

/-- The difficulty a parent prescribes is never below `MinimumDifficulty`, so a
header that passes the difficulty check passes the positivity check of the
seal. -/
theorem minimumDifficulty_le_calcDifficulty (time : UInt64) (parent : Header) :
    MinimumDifficulty ≤ calcDifficulty time parent := by
  unfold calcDifficulty
  dsimp only
  split_ifs <;> omega

/-- **The proof of work**: on a positive difficulty, the digest of the seal
hash and the two nonces is at most `2^256 / Difficulty`. -/
theorem verifyPoW_eq_ok (hd : header.Difficulty ≠ 0) :
    verifyPoW keccak256 VersaHash header = .ok () ↔
      beValue (VersaHash (SealHash keccak256 header).bytes.toList header.Nonce.toList
        header.ExtraNonce.toList) ≤ 2 ^ 256 / header.Difficulty := by
  simp [verifyPoW, hd, Except.ite_throw_eq_ok]

/-- **`verifyHeader` reads back**: a short extra-data, a time not in the future
(for a block) and after the parent's, the difficulty the parent prescribes, the
gas limit and its bound, the next number, the seal when asked for, and the
fork hash. -/
theorem verifyHeader_eq_ok {uncle checkSeal : Bool} {unixNow : Int64} :
    verifyHeader keccak256 VersaHash chain inihash header parent uncle checkSeal unixNow = .ok () ↔
      UInt64.ofNat header.Extra.length ≤ MaximumExtraDataSize ∧
      (uncle = false → header.Time ≤ (unixNow + allowedFutureBlockTimeSeconds).toUInt64) ∧
      parent.Time < header.Time ∧ calcDifficulty header.Time parent = header.Difficulty ∧
      header.GasLimit ≤ 0x7fffffffffffffff ∧ header.GasUsed ≤ header.GasLimit ∧
      (let diff := parent.GasLimit.toInt64 - header.GasLimit.toInt64
       let diff := if diff < 0 then diff * -1 else diff
       diff.toUInt64 < parent.GasLimit / GasLimitBoundDivisor ∧ MinGasLimit ≤ header.GasLimit) ∧
      (header.Number : ℤ) - parent.Number = 1 ∧
      (checkSeal = true → verifySeal keccak256 VersaHash inihash header = .ok ()) ∧
      VerifyForkHashes keccak256 chain.Config header uncle = .ok () := by
  rcases hf : VerifyForkHashes keccak256 chain.Config header uncle with ⟨actual, want⟩ | ⟨⟩ <;>
  cases uncle <;> cases checkSeal <;>
  simp [verifyHeader, hf, Except.ite_throw_eq_ok, Except.bind_eq_ok]

end Spec

/-! ### The difficulty rule -/

section Difficulty

variable {time : UInt64} {parent : Header}

/-- Both clamps of `calcDifficulty` are a `max`. -/
theorem ite_lt_eq_max (a b : ℤ) : (if a < b then b else a) = max a b := by
  split_ifs with h
  · exact (Int.max_eq_right (Int.le_of_lt h)).symm
  · exact (Int.max_eq_left (Int.not_lt.mp h)).symm

/-- `calcDifficulty` in closed form: the parent's difficulty moved by
`parent_diff / 12288` times the clamped multiplier, then clamped below. -/
theorem calcDifficulty_eq_max (time : UInt64) (parent : Header) :
    calcDifficulty time parent = max MinimumDifficulty ((parent.Difficulty : ℤ) +
      (parent.Difficulty : ℤ) / 12288 *
        max (6 - ((time.toNat : ℤ) - parent.Time.toNat) / 5) (-599)) := by
  unfold calcDifficulty
  dsimp only
  rw [ite_lt_eq_max, ite_lt_eq_max, Int.max_comm]
  rfl

/-- A later block time never raises the difficulty: the multiplier falls with
the time, and the step `parent_diff / 12288` it multiplies is not negative. -/
theorem calcDifficulty_antitone {t₁ t₂ : UInt64} (h : t₁ ≤ t₂) (parent : Header) :
    calcDifficulty t₂ parent ≤ calcDifficulty t₁ parent := by
  rw [calcDifficulty_eq_max, calcDifficulty_eq_max]
  have ht : t₁.toNat ≤ t₂.toNat := UInt64.le_iff_toNat_le.mp h
  have hm : max (6 - ((t₂.toNat : ℤ) - parent.Time.toNat) / 5) (-599) ≤
      max (6 - ((t₁.toNat : ℤ) - parent.Time.toNat) / 5) (-599) := by omega
  have hstep := Int.mul_le_mul_of_nonneg_left hm
    (show 0 ≤ (parent.Difficulty : ℤ) / 12288 by omega)
  omega

/-- Unclamped, after the parent's time: the multiplier is between `-599` and
`6`, and it raises the difficulty exactly when it and the step are positive. -/
theorem calcDifficulty_of_unclamped (ht : parent.Time < time)
    (hc : MinimumDifficulty ≤ (parent.Difficulty : ℤ) + (parent.Difficulty : ℤ) / 12288 *
      max (6 - ((time.toNat : ℤ) - parent.Time.toNat) / 5) (-599)) :
    (parent.Difficulty : ℤ) - 599 * ((parent.Difficulty : ℤ) / 12288) ≤
        calcDifficulty time parent ∧
      calcDifficulty time parent ≤ (parent.Difficulty : ℤ) + 6 * ((parent.Difficulty : ℤ) / 12288) ∧
      ((parent.Difficulty : ℤ) < calcDifficulty time parent ↔
        (time.toNat : ℤ) - parent.Time.toNat < 30 ∧ 12288 ≤ parent.Difficulty) := by
  rw [calcDifficulty_eq_max, Int.max_eq_right hc]
  have hdt : parent.Time.toNat < time.toNat := UInt64.lt_iff_toNat_lt.mp ht
  generalize hm : max (6 - ((time.toNat : ℤ) - parent.Time.toNat) / 5) (-599) = m
  generalize hy : (parent.Difficulty : ℤ) / 12288 = y
  have hy0 : 0 ≤ y := by omega
  have hm0 : -599 ≤ m ∧ m ≤ 6 := by omega
  refine ⟨?_, ?_, ?_⟩
  · have := Int.mul_le_mul_of_nonneg_left hm0.1 hy0
    omega
  · have := Int.mul_le_mul_of_nonneg_left hm0.2 hy0
    omega
  constructor
  · intro hlt
    -- a positive product of a step that is not negative has both factors positive
    have hm1 : 0 < m := by
      by_contra hneg
      have := Int.mul_nonpos_of_nonneg_of_nonpos hy0 (by omega : m ≤ 0)
      omega
    have hy1 : 0 < y := by
      by_contra hzero
      have hy' : y = 0 := by omega
      rw [hy', Int.zero_mul] at hlt
      omega
    omega
  · rintro ⟨h30, hD⟩
    have := Int.mul_pos (show 0 < y by omega) (show 0 < m by omega)
    omega

/-- A header `verifyHeader` accepts carries at least `MinimumDifficulty`: it
must carry the difficulty its parent prescribes. -/
theorem minimumDifficulty_le_difficulty {keccak256 : List UInt8 → PureChain.Hash}
    {VersaHash : List UInt8 → List UInt8 → List UInt8 → List UInt8} {chain : ChainHeaderReader}
    {inihash : Inihash} {header : Header} {uncle checkSeal : Bool} {unixNow : Int64}
    (h : verifyHeader keccak256 VersaHash chain inihash header parent uncle checkSeal unixNow =
      .ok ()) :
    MinimumDifficulty ≤ header.Difficulty := by
  obtain ⟨-, -, -, hd, -⟩ := verifyHeader_eq_ok.1 h
  rw [← hd]
  exact minimumDifficulty_le_calcDifficulty header.Time parent

end Difficulty

/-- **The difficulty rule.** `calcDifficulty` is
`max(MinimumDifficulty, D + ⌊D/12288⌋ · max(6 - ⌊(t - parent.Time)/5⌋, -599))`;
every header `verifyHeader` accepts has a difficulty of at least fifty million,
so the division of the seal check is by a positive number; a later time never
gives a higher difficulty; and unclamped, after the parent, the difficulty is
within `-599` and `6` steps of the parent's and above it exactly when the block
came within thirty seconds and the step `⌊D/12288⌋` is positive. -/
theorem calcDifficulty_homestead (parent : Header) :
    (∀ time : UInt64, calcDifficulty time parent = max MinimumDifficulty
      ((parent.Difficulty : ℤ) + (parent.Difficulty : ℤ).fdiv 12288 *
        max (6 - ((time.toNat : ℤ) - parent.Time.toNat).fdiv 5) (-599))) ∧
    (∀ (keccak256 : List UInt8 → PureChain.Hash)
      (VersaHash : List UInt8 → List UInt8 → List UInt8 → List UInt8) chain inihash header
      uncle checkSeal unixNow,
      verifyHeader keccak256 VersaHash chain inihash header parent uncle checkSeal unixNow =
        .ok () → 50000000 ≤ header.Difficulty ∧ 0 < header.Difficulty) ∧
    (∀ t₁ t₂ : UInt64, t₁ ≤ t₂ → calcDifficulty t₂ parent ≤ calcDifficulty t₁ parent) ∧
    (∀ time : UInt64, parent.Time < time →
      MinimumDifficulty ≤ (parent.Difficulty : ℤ) + (parent.Difficulty : ℤ).fdiv 12288 *
        max (6 - ((time.toNat : ℤ) - parent.Time.toNat).fdiv 5) (-599) →
      (parent.Difficulty : ℤ) - 599 * (parent.Difficulty : ℤ).fdiv 12288 ≤
          calcDifficulty time parent ∧
        calcDifficulty time parent ≤
          (parent.Difficulty : ℤ) + 6 * (parent.Difficulty : ℤ).fdiv 12288 ∧
        ((parent.Difficulty : ℤ) < calcDifficulty time parent ↔
          (time.toNat : ℤ) - parent.Time.toNat < 30 ∧ 12288 ≤ parent.Difficulty)) := by
  -- both divisors are positive, so the floors are the code's Euclidean quotients
  have h12288 : ∀ a : ℤ, a.fdiv 12288 = a / 12288 := fun a => Int.fdiv_eq_ediv_of_nonneg a (by decide)
  have h5 : ∀ a : ℤ, a.fdiv 5 = a / 5 := fun a => Int.fdiv_eq_ediv_of_nonneg a (by decide)
  simp only [h12288, h5]
  refine ⟨fun time => calcDifficulty_eq_max time parent, ?_,
    fun t₁ t₂ h => calcDifficulty_antitone h parent, fun time ht hc => calcDifficulty_of_unclamped ht hc⟩
  intro keccak256 VersaHash chain inihash header uncle checkSeal unixNow h
  have hmin := minimumDifficulty_le_difficulty h
  unfold MinimumDifficulty at hmin
  omega

/-- A block ten seconds after a parent of difficulty `10^8` on the main network:
`verifyHeader` accepts it at `10^8 + 4 · 8138`, above the parent's. -/
theorem calcDifficulty_homestead_ten :
    let parent : Header := { Header.zero with Difficulty := 100000000, GasLimit := 8000000 }
    let header : Header := { parent with Number := 1, Time := 10, Difficulty := 100032552 }
    verifyHeader (fun _ => Hash.zero) (fun _ _ _ => [])
        (ChainHeaderReader.ofHeaders MainnetChainConfig (fun _ => Hash.zero)
          (fun _ => Header.zero) 0) ⟨.ModeNormal, 0⟩ header parent false false 0 = .ok () ∧
      (50000000 ≤ header.Difficulty ∧ 0 < header.Difficulty) ∧
      MinimumDifficulty ≤ (parent.Difficulty : ℤ) + (parent.Difficulty : ℤ).fdiv 12288 *
        max (6 - ((10 : UInt64).toNat - (parent.Time.toNat : ℤ)).fdiv 5) (-599) ∧
      (parent.Difficulty : ℤ) < calcDifficulty 10 parent := by
  intro parent header
  have hlaw := calcDifficulty_homestead parent
  have hcfg : MainnetChainConfig.EIP150Hash = Hash.zero := rfl
  have hv : verifyHeader (fun _ => Hash.zero) (fun _ _ _ => [])
      (ChainHeaderReader.ofHeaders MainnetChainConfig (fun _ => Hash.zero)
        (fun _ => Header.zero) 0) ⟨.ModeNormal, 0⟩ header parent false false 0 = .ok () := by
    refine verifyHeader_eq_ok.2 ⟨by decide, fun _ => by decide, by decide, by decide, by decide,
      by decide, by decide, by decide, fun h => absurd h Bool.false_ne_true,
      verifyForkHashes_of_eip150Hash_zero _ hcfg _ _⟩
  have hc : MinimumDifficulty ≤ (parent.Difficulty : ℤ) + (parent.Difficulty : ℤ).fdiv 12288 *
      max (6 - ((10 : UInt64).toNat - (parent.Time.toNat : ℤ)).fdiv 5) (-599) := by decide
  exact ⟨hv, hlaw.2.1 _ _ _ _ _ _ _ _ hv, hc,
    ((hlaw.2.2.2 10 (by decide) hc).2.2).mpr ⟨by decide, by decide⟩⟩

/-- **One proof of work seals headers with different hashes.** On a chain
configuration that pins no EIP-150 hash, as none of the shipped ones does,
changing the mix digest of a header keeps the bytes of its seal hash and its
two nonces, hence the proof of work, and `verifyHeader` decides the new header
exactly as the old one against any parent; yet the bytes the header is hashed
over commit to the mix digest. -/
theorem verifyHeader_ignores_mixDigest (keccak256 : List UInt8 → PureChain.Hash)
    (VersaHash : List UInt8 → List UInt8 → List UInt8 → List UInt8) {chain : ChainHeaderReader}
    (hcfg : chain.Config.EIP150Hash = Hash.zero) (inihash : Inihash) (header parent : Header)
    (uncle checkSeal : Bool) (unixNow : Int64) (mixDigest : PureChain.Hash) :
    let h' : Header := { header with MixDigest := mixDigest }
    (sealHashItem h').encode = (sealHashItem header).encode ∧ h'.Nonce = header.Nonce ∧
      h'.ExtraNonce = header.ExtraNonce ∧
      verifyHeader keccak256 VersaHash chain inihash h' parent uncle checkSeal unixNow =
        verifyHeader keccak256 VersaHash chain inihash header parent uncle checkSeal unixNow ∧
      (h'.rlpItem.encode.length < 2 ^ 64 → header.rlpItem.encode.length < 2 ^ 64 →
        h'.rlpItem.encode = header.rlpItem.encode → mixDigest = header.MixDigest) := by
  intro h'
  -- with no pinned hash the one check that reads the header's hash passes both
  have hfork : ∀ h, VerifyForkHashes keccak256 chain.Config h uncle = .ok () := fun h =>
    verifyForkHashes_of_eip150Hash_zero keccak256 hcfg h uncle
  refine ⟨rfl, rfl, rfl, ?_, fun hb' hb he => congrArg Header.MixDigest
    (rlp_encode_injective hb' hb he)⟩
  -- every other check reads fields `h'` shares with `header`
  unfold verifyHeader
  rw [hfork h', hfork header]
  rfl

/-- The shipped main-network configuration, a zero header and a parent equal to
it: a header that differs only in its mix digest is verified alike. -/
theorem verifyHeader_ignores_mixDigest_mainnet :
    (ChainHeaderReader.ofHeaders MainnetChainConfig (fun _ => Hash.zero) (fun _ => Header.zero)
      0).Config.EIP150Hash = Hash.zero ∧
      let h' : Header := { Header.zero with MixDigest := ⟨Vector.replicate 32 1⟩ }
      (sealHashItem h').encode = (sealHashItem Header.zero).encode ∧
        h'.Nonce = Header.zero.Nonce ∧ h'.ExtraNonce = Header.zero.ExtraNonce ∧
        verifyHeader (fun _ => Hash.zero) (fun _ _ _ => [])
            (ChainHeaderReader.ofHeaders MainnetChainConfig (fun _ => Hash.zero)
              (fun _ => Header.zero) 0) ⟨.ModeNormal, 0⟩ h' Header.zero false true 0 =
          verifyHeader (fun _ => Hash.zero) (fun _ _ _ => [])
            (ChainHeaderReader.ofHeaders MainnetChainConfig (fun _ => Hash.zero)
              (fun _ => Header.zero) 0) ⟨.ModeNormal, 0⟩ Header.zero Header.zero false true 0 ∧
        (h'.rlpItem.encode.length < 2 ^ 64 → Header.zero.rlpItem.encode.length < 2 ^ 64 →
          h'.rlpItem.encode = Header.zero.rlpItem.encode →
          (⟨Vector.replicate 32 1⟩ : PureChain.Hash) = Header.zero.MixDigest) :=
  ⟨rfl, verifyHeader_ignores_mixDigest (fun _ => Hash.zero) (fun _ _ _ => []) rfl ⟨.ModeNormal, 0⟩
    Header.zero Header.zero false true 0 ⟨Vector.replicate 32 1⟩⟩

end Inihash

end PureChain
