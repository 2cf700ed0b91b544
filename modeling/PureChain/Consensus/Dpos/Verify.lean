import Mathlib
import PureChain.Consensus.Engine
import PureChain.Consensus.Dpos.Window
import PureChain.Core.Types.TransactionSigning

/-!
# Header verification of the Dpos engine

`Dpos.verifyHeader` checks a header on its own (time, extra-data layout, mix
digest, uncles, the fork hash), `verifyCascadingFields` checks it against its
parent and the snapshot of the parent (the block time, the gas limit), and
`verifySeal` checks its sealer: a validator of the snapshot, not among its recent
sealers, with the difficulty of its turn.

The snapshot comes from `Dpos.snapshot`, which walks back from the parent through
the explicit `parents` and then the header database until it reaches a snapshot
it knows, and replays the headers it passed with `Snapshot.apply`. The engine
keeps snapshots in an in-memory cache and on disk every 1024 blocks; both hold
snapshots this same walk built, and the model walks without them, down to the
genesis block.

What the engine takes from outside is a parameter: the clock `now`, the
signature recovery `recover` (`ecrecover` with its cache), the hash function
`keccak256`, and the permutation `math/rand` makes for the back-off of an
out-of-turn validator, `shuffle seed n`, which the code computes by
`rand.New(rand.NewSource(seed)).Shuffle(n, …)` on `0, …, n-1`.
-/

namespace PureChain

/-- The engine `dpos.Dpos`, with the fields the modelled methods read. The
chain configuration is the pointer the engine shares with the blockchain. -/
structure Dpos where
  chainConfig : ChainConfig
  config : Dpos.DposConfig
  /-- The transaction signer, `NewEIP155Signer(chainConfig.ChainID)` at first. -/
  signer : Signer
  /-- The validator the node seals as. -/
  val : Address
  /-- Skip the difficulty check of `verifySeal`; set by tests only. -/
  fakeDiff : Bool

namespace Dpos

/-- `uncleHash`: `types.CalcUncleHash(nil)`, the hash of the empty RLP list. -/
def uncleHash (keccak256 : List UInt8 → PureChain.Hash) : PureChain.Hash :=
  keccak256 (Rlp.Item.list []).encode

/-- `diffInTurn`: the difficulty of a block sealed by the validator whose turn it is. -/
def diffInTurn : ℕ := 2

/-- `diffNoTurn`: the difficulty of a block sealed out of turn. -/
def diffNoTurn : ℕ := 1

/-- `wiggleTime`, in seconds. -/
def wiggleTime : UInt64 := 1

/-- `initialBackOffTime`, in seconds. -/
def initialBackOffTime : UInt64 := 1

/-! ### Reading the snapshot -/

/-- The loop `for seen, recent := range snap.Recents { if recent == v { if
guard(seen) { … } } }` that `verifySeal`, `Seal` and `SignRecently` each run with
a guard of their own: some entry records `v` at a block the guard holds of. -/
def RecentBlock (recents : Recents) (v : Address) (guard : UInt64 → Bool) : Prop :=
  ∃ seen ∈ recents.keys, recents.lookup seen = some v ∧ guard seen = true

instance (recents : Recents) (v : Address) (guard : UInt64 → Bool) :
    Decidable (RecentBlock recents v guard) := by
  unfold RecentBlock
  infer_instance

/-- `Snapshot.indexOfVal`: the position of `v` among the sorted validators; the
code's `-1` is `none`. -/
def Snapshot.indexOfVal (s : Snapshot) (v : Address) : Option (Fin s.validators.length) :=
  s.validators.finIdxOf? v

/-- `Snapshot.supposeValidator`: the validator whose turn block `Number + 1` is;
with no validator, a panic. -/
def Snapshot.supposeValidator (s : Snapshot) : Except Error Address :=
  match s.validators[((s.Number + 1) % UInt64.ofNat s.validators.length).toNat]? with
  | some w => pure w
  | none => throw .panic

/-- `CalcDifficulty`: the difficulty a block sealed by `signer` must carry. -/
def CalcDifficulty (snap : Snapshot) (signer : Address) : Except Error ℕ := do
  if ← snap.inturn signer then pure diffInTurn else pure diffNoTurn

/-- `backOffTime`: how long after the period an out-of-turn validator waits,
`initialBackOffTime` plus its place in a permutation of the validators seeded by
the snapshot's number. -/
def backOffTime (shuffle : UInt64 → (n : ℕ) → Equiv.Perm (Fin n)) (snap : Snapshot)
    (val : Address) : Except Error UInt64 := do
  if ← snap.inturn val then pure 0
  else
    match snap.indexOfVal val with
    | none => pure 0
    | some idx =>
      pure (initialBackOffTime + UInt64.ofNat (shuffle snap.Number _ idx).val * wiggleTime)

/-! ### The snapshot of a block -/

section Snapshot

variable (p : Dpos) (recover : Header → Except Error Address)
  (keccak256 : List UInt8 → PureChain.Hash) (chain : ChainHeaderReader)

/-- The genesis branch of the walk: the snapshot of block zero, and the headers
gathered so far, to be replayed on it. -/
def genesisAt (checkpoint : Header) (headers : List Header) :
    Except Error (Snapshot × List Header) :=
  (fun snap => (snap, headers)) <$> genesisSnapshot keccak256 checkpoint

/-- The walk of `Dpos.snapshot` through the header database, from height `n`
down to block zero, gathering the headers it passes oldest first. Below a height
`n + 1` the walk reads its header under the hash it is looking for; at block zero
it snapshots the genesis header. A database without block zero has no header at
height zero under any hash (`ChainHeaderReader.getHeader_zero`), where the code's
walk ends with `ErrUnknownAncestor` too. -/
def walkChain : ℕ → PureChain.Hash → List Header → Except Error (Snapshot × List Header)
  | 0, _, headers =>
    match chain.GetHeaderByNumber 0 with
    | some checkpoint => genesisAt keccak256 checkpoint headers
    | none => throw .errUnknownAncestor
  | n + 1, hash, headers =>
    match chain.GetHeader hash (UInt64.ofNat (n + 1)) with
    | some header => walkChain n header.ParentHash (header :: headers)
    | none => throw .errUnknownAncestor

/-- The walk of `Dpos.snapshot` through the explicit parents, newest first: each
must be the header looked for, and when they run out the walk goes on in the
database. -/
def walkParents : UInt64 → PureChain.Hash → List Header → List Header →
    Except Error (Snapshot × List Header)
  | number, hash, [], headers => walkChain keccak256 chain number.toNat hash headers
  | number, hash, parent :: rest, headers =>
    match if number = 0 then chain.GetHeaderByNumber 0 else none with
    | some checkpoint => genesisAt keccak256 checkpoint headers
    | none =>
      if parent.Hash keccak256 ≠ hash ∨ parent.number ≠ number then throw .errUnknownAncestor
      else walkParents (number - 1) parent.ParentHash rest (parent :: headers)

/-- `Dpos.snapshot`: the snapshot at block `number` with hash `hash`. -/
def snapshot (number : UInt64) (hash : PureChain.Hash) (parents : List Header) :
    Except Error Snapshot := do
  let (snap, headers) ← walkParents keccak256 chain number hash parents.reverse []
  snap.apply p.config recover keccak256 headers

end Snapshot

/-! ### Verification -/

section Verify

variable (p : Dpos) (recover : Header → Except Error Address)
  (keccak256 : List UInt8 → PureChain.Hash) (shuffle : UInt64 → (n : ℕ) → Equiv.Perm (Fin n))
  (chain : ChainHeaderReader)

/-- `Dpos.verifySeal`: the sealer of `header` is its coinbase, a validator of the
parent's snapshot that has not sealed a block the current one keeps in the
window, and the difficulty is that of its turn. -/
def verifySeal (header : Header) (parents : List Header) : Except Error Unit := do
  let number := header.number
  if number = 0 then throw .errUnknownBlock
  let snap ← p.snapshot recover keccak256 chain (number - 1) header.ParentHash parents
  let signer ← recover header
  if signer ≠ header.Coinbase then throw .errCoinBaseMisMatch
  if signer ∉ snap.Validators then throw .errUnauthorizedValidator
  -- only fail if the current block doesn't shift it out
  if RecentBlock snap.Recents signer
      (fun seen => decide (number - limitOf snap.Validators < seen)) then
    throw .errRecentlySigned
  if !p.fakeDiff then
    let inturn ← snap.inturn signer
    if inturn ∧ header.Difficulty ≠ diffInTurn then throw .errWrongDifficulty
    if !inturn ∧ header.Difficulty ≠ diffNoTurn then throw .errWrongDifficulty

/-- `Dpos.blockTimeVerifyForRamanujanFork`: from the Ramanujan fork on, a block
comes a period and the sealer's back-off after its parent. -/
def blockTimeVerifyForRamanujanFork (snap : Snapshot) (header parent : Header) :
    Except Error Unit := do
  if p.chainConfig.IsRamanujan header.Number then
    let backOff ← backOffTime shuffle snap header.Coinbase
    if header.Time < parent.Time + p.config.Period + backOff then throw .errFutureBlock

/-- `Dpos.verifyCascadingFields`: the checks of a header against its parent. -/
def verifyCascadingFields (header : Header) (parents : List Header) : Except Error Unit := do
  let number := header.number
  if number = 0 then return ()
  let parent? := if parents = [] then chain.GetHeader header.ParentHash (number - 1)
    else parents.getLast?
  let some parent := parent? | throw .errUnknownAncestor
  if parent.number ≠ number - 1 ∨ parent.Hash keccak256 ≠ header.ParentHash then
    throw .errUnknownAncestor
  let snap ← p.snapshot recover keccak256 chain (number - 1) header.ParentHash parents
  p.blockTimeVerifyForRamanujanFork shuffle snap header parent
  let capacity : UInt64 := 0x7fffffffffffffff
  if header.GasLimit > capacity then throw (.gasLimitTooHigh header.GasLimit capacity)
  if header.GasUsed > header.GasLimit then throw (.gasUsedTooHigh header.GasUsed header.GasLimit)
  -- `int64` arithmetic, as the code converts both limits
  let diff := parent.GasLimit.toInt64 - header.GasLimit.toInt64
  let diff := if diff < 0 then diff * -1 else diff
  let limit := parent.GasLimit / GasLimitBoundDivisor
  if diff.toUInt64 ≥ limit ∨ header.GasLimit < MinGasLimit then
    throw (.gasLimitOutOfBounds header.GasLimit parent.GasLimit limit)
  p.verifySeal recover keccak256 chain header parents

/-- `Dpos.verifyHeader`. A `nil` number or difficulty, which the code rejects,
cannot be built here: both are numbers. -/
def verifyHeader (now : UInt64) (header : Header) (parents : List Header) :
    Except Error Unit := do
  let number := header.number
  if header.Time > now then throw .errFutureBlock
  if header.Extra.length < extraVanity then throw .errMissingVanity
  if header.Extra.length < extraVanity + extraSeal then throw .errMissingSignature
  let isEpoch := decide (number % p.config.Epoch = 0)
  let signersBytes := header.Extra.length - extraVanity - extraSeal
  if !isEpoch ∧ signersBytes ≠ 0 then throw .errExtraValidators
  if isEpoch ∧ signersBytes % 20 ≠ 0 then throw .errInvalidSpanValidators
  if header.MixDigest ≠ PureChain.Hash.zero then throw .errInvalidMixDigest
  if header.UncleHash ≠ uncleHash keccak256 then throw .errInvalidUncleHash
  match VerifyForkHashes keccak256 chain.Config header false with
  | .error (actual, want) => throw (.forkHashMismatch actual want)
  | .ok () => p.verifyCascadingFields recover keccak256 shuffle chain header parents

end Verify

/-! ### What each check reads -/

section Spec

variable {p : Dpos} {recover : Header → Except Error Address}
  {keccak256 : List UInt8 → PureChain.Hash} {shuffle : UInt64 → (n : ℕ) → Equiv.Perm (Fin n)}
  {chain : ChainHeaderReader}

/-- With no validator, `inturn` reads past the end of the empty list. -/
theorem inturn_of_validators_empty {s : Snapshot} (h : s.Validators = ∅) (v : Address) :
    s.inturn v = .error .panic := by
  simp [Snapshot.inturn, Snapshot.validators, h]

/-- With one validator, it is always its turn. -/
theorem inturn_of_validators_singleton {s : Snapshot} {v : Address} (h : s.Validators = {v})
    (w : Address) : s.inturn w = .ok (v == w) := by
  simp [Snapshot.inturn, Snapshot.validators, h]

theorem backOffTime_of_inturn {s : Snapshot} {v : Address} (h : s.inturn v = .ok true) :
    backOffTime shuffle s v = .ok 0 := by
  simp [backOffTime, h]

/-- An out-of-turn validator backs off at most one second per validator. -/
theorem backOffTime_le_length (shuffle : UInt64 → (n : ℕ) → Equiv.Perm (Fin n)) {s : Snapshot}
    {v : Address} {b : Bool} (hturn : s.inturn v = .ok b) (hlen : s.validators.length < 2 ^ 63) :
    ∃ d, backOffTime shuffle s v = .ok d ∧ d.toNat ≤ s.validators.length := by
  cases b with
  | true => exact ⟨0, by simp [backOffTime, hturn], by simp⟩
  | false =>
    cases hidx : s.indexOfVal v with
    | none => exact ⟨0, by simp [backOffTime, hturn, hidx], by simp⟩
    | some idx =>
      refine ⟨initialBackOffTime + UInt64.ofNat (shuffle s.Number _ idx).val * wiggleTime,
        by simp [backOffTime, hturn, hidx], ?_⟩
      have hlt := (shuffle s.Number s.validators.length idx).isLt
      simp only [initialBackOffTime, wiggleTime, UInt64.mul_one, UInt64.toNat_add,
        UInt64.toNat_ofNat', UInt64.reduceToNat]
      omega

/-- **`verifySeal` once the snapshot and the sealer are known**: the sealer is
the coinbase, a validator, not barred by the recents loop of `verifySeal`, and
the difficulty is that of its turn. -/
theorem verifySeal_eq_ok {header : Header} {parents : List Header} {snap : Snapshot}
    {signer : Address} (hnum : header.number ≠ 0)
    (hsnap : p.snapshot recover keccak256 chain (header.number - 1) header.ParentHash parents =
      .ok snap)
    (hrec : recover header = .ok signer) :
    p.verifySeal recover keccak256 chain header parents = .ok () ↔
      signer = header.Coinbase ∧ signer ∈ snap.Validators ∧
        ¬RecentBlock snap.Recents signer
          (fun seen => decide (header.number - limitOf snap.Validators < seen)) ∧
        (p.fakeDiff = false → ∃ inturn, snap.inturn signer = .ok inturn ∧
          header.Difficulty = if inturn then diffInTurn else diffNoTurn) := by
  simp only [verifySeal, hnum, hsnap, hrec, if_false, Except.bind_ok]
  by_cases hc : signer = header.Coinbase
  swap
  · simp [hc]
  subst hc
  by_cases hv : header.Coinbase ∈ snap.Validators
  swap
  · simp [hv]
  by_cases hr : RecentBlock snap.Recents header.Coinbase
      (fun seen => decide (header.number - limitOf snap.Validators < seen))
  · simp [hv, hr]
  simp only [hv, hr, not_true_eq_false, not_false_eq_true, if_false, true_and, ne_eq]
  cases hf : p.fakeDiff
  · -- the difficulty check, on the turn `inturn` computes
    cases hi : snap.inturn header.Coinbase with
    | error e => simp
    | ok b => cases b <;> simp
  · simp

/-- **`verifyHeader` reads back**: the header is not from the future, its
extra-data holds a vanity and a seal, and, at an epoch block, a whole number of
addresses between them (none elsewhere), its mix digest is zero, it has no uncle,
it passes the fork-hash check, and the cascading checks. -/
theorem verifyHeader_eq_ok {now : UInt64} {header : Header} {parents : List Header} :
    p.verifyHeader recover keccak256 shuffle chain now header parents = .ok () ↔
      header.Time ≤ now ∧ extraVanity + extraSeal ≤ header.Extra.length ∧
      (if header.number % p.config.Epoch = 0 then
        (header.Extra.length - extraVanity - extraSeal) % 20 = 0
      else header.Extra.length - extraVanity - extraSeal = 0) ∧
      header.MixDigest = PureChain.Hash.zero ∧ header.UncleHash = uncleHash keccak256 ∧
      VerifyForkHashes keccak256 chain.Config header false = .ok () ∧
      p.verifyCascadingFields recover keccak256 shuffle chain header parents = .ok () := by
  simp only [verifyHeader, Except.throw_bind, Except.ite_throw_eq_ok, gt_iff_lt, not_lt, ne_eq,
    not_not]
  rcases hf : VerifyForkHashes keccak256 chain.Config header false with ⟨actual, want⟩ | ⟨⟩
  · simp
  · -- the vanity check is implied by the signature check
    have hv : extraVanity + extraSeal ≤ header.Extra.length → extraVanity ≤ header.Extra.length :=
      fun h => le_trans (Nat.le_add_right _ _) h
    by_cases he : header.number % p.config.Epoch = 0 <;> simp [he] <;> tauto

/-- `verifyCascadingFields` once the parent and its snapshot are found: the block
time, the gas limit and its bound, and the seal. -/
theorem verifyCascadingFields_eq_ok {header parent : Header} {parents : List Header}
    {snap : Snapshot} (hnum : header.number ≠ 0)
    (hparent : (if parents = [] then chain.GetHeader header.ParentHash (header.number - 1)
      else parents.getLast?) = some parent)
    (hnumber : parent.number = header.number - 1) (hhash : parent.Hash keccak256 = header.ParentHash)
    (hsnap : p.snapshot recover keccak256 chain (header.number - 1) header.ParentHash parents =
      .ok snap) :
    p.verifyCascadingFields recover keccak256 shuffle chain header parents = .ok () ↔
      p.blockTimeVerifyForRamanujanFork shuffle snap header parent = .ok () ∧
      header.GasLimit ≤ 0x7fffffffffffffff ∧ header.GasUsed ≤ header.GasLimit ∧
      (let diff := parent.GasLimit.toInt64 - header.GasLimit.toInt64
       let diff := if diff < 0 then diff * -1 else diff
       diff.toUInt64 < parent.GasLimit / GasLimitBoundDivisor ∧ MinGasLimit ≤ header.GasLimit) ∧
      p.verifySeal recover keccak256 chain header parents = .ok () := by
  simp only [verifyCascadingFields, hnum, if_false, hparent, hnumber, hhash, hsnap, ne_eq,
    not_true_eq_false, or_self, Except.bind_ok, Except.throw_bind, Except.ite_throw_eq_ok,
    Except.bind_eq_ok, gt_iff_lt, UInt64.not_lt, UInt64.not_le, ge_iff_le, not_or]
  -- the check of the block time returns `()`, the only value of `Unit`
  exact Unique.exists_iff

end Spec

/-! ### The walk over a header database -/

section Walk

variable {p : Dpos} {recover : Header → Except Error Address}
  {keccak256 : List UInt8 → PureChain.Hash} {config : ChainConfig} {hdr : ℕ → Header} {N : ℕ}

/-- Down a chain of headers the database holds, the walk gathers every header
above genesis. -/
theorem walkChain_ofHeaders (hchain : IsHeaderChain keccak256 hdr) (hN : N < 2 ^ 64) :
    ∀ {n : ℕ}, n ≤ N → ∀ acc : List Header,
      walkChain keccak256 (ChainHeaderReader.ofHeaders config keccak256 hdr N) n
          ((hdr n).Hash keccak256) acc =
        genesisAt keccak256 (hdr 0) ((List.range' 1 n).map hdr ++ acc)
  | 0, _, acc => by simp [walkChain, ChainHeaderReader.ofHeaders_getHeaderByNumber_zero]
  | n + 1, hn, acc => by
    rw [walkChain, ChainHeaderReader.ofHeaders_getHeader hn hN]
    dsimp only
    rw [hchain.parent n, walkChain_ofHeaders hchain hN (by omega), List.range'_concat,
      List.map_append, List.append_assoc, Nat.one_mul, Nat.add_comm 1 n]
    rfl

/-- Consecutive headers of a chain pass the sanity check of `Snapshot.apply`. -/
theorem checkHeaders_range' (hchain : IsHeaderChain keccak256 hdr) :
    ∀ n a : ℕ, checkHeaders keccak256 ((List.range' a n).map hdr) = .ok ()
  | 0, _ => rfl
  | 1, _ => rfl
  | n + 2, a => by
    rw [List.range'_succ, List.map_cons, List.range'_succ, List.map_cons, checkHeaders_cons_cons]
    refine ⟨hchain.number_succ a, hchain.parent a, ?_⟩
    have := checkHeaders_range' hchain (n + 1) (a + 1)
    rwa [List.range'_succ, List.map_cons] at this

/-- **The snapshot of a block of the database**: the genesis snapshot with every
header above it replayed. -/
theorem snapshot_ofHeaders (hchain : IsHeaderChain keccak256 hdr) (hN : N < 2 ^ 64) {n : ℕ}
    (hn : n ≤ N) :
    p.snapshot recover keccak256 (ChainHeaderReader.ofHeaders config keccak256 hdr N)
        (UInt64.ofNat n) ((hdr n).Hash keccak256) [] =
      genesisSnapshot keccak256 (hdr 0) >>= fun s =>
        s.apply p.config recover keccak256 ((List.range' 1 n).map hdr) := by
  have hnat : (UInt64.ofNat n).toNat = n := by
    rw [UInt64.toNat_ofNat', Nat.mod_eq_of_lt (by omega)]
  simp only [snapshot, List.reverse_nil, walkParents, hnat, walkChain_ofHeaders hchain hN hn,
    List.append_nil, genesisAt]
  cases genesisSnapshot keccak256 (hdr 0) <;> rfl

variable {shuffle : UInt64 → (n : ℕ) → Equiv.Perm (Fin n)} {now : UInt64}

/-- **What `verifyHeader` checks of the next header of a chain in the
database**, once the parent's snapshot and the sealer are known: the header's
own fields, the block time, the gas limit against the parent's, and the seal. -/
theorem verifyHeader_next_eq_ok (hchain : IsHeaderChain keccak256 hdr) {j : ℕ}
    (hj : j + 1 < 2 ^ 64) {snap : Snapshot} {signer : Address}
    (hsnap : p.snapshot recover keccak256 (ChainHeaderReader.ofHeaders config keccak256 hdr j)
      (UInt64.ofNat j) ((hdr j).Hash keccak256) [] = .ok snap)
    (hrec : recover (hdr (j + 1)) = .ok signer) :
    p.verifyHeader recover keccak256 shuffle (ChainHeaderReader.ofHeaders config keccak256 hdr j)
        now (hdr (j + 1)) [] = .ok () ↔
      (hdr (j + 1)).Time ≤ now ∧ extraVanity + extraSeal ≤ (hdr (j + 1)).Extra.length ∧
      (if (hdr (j + 1)).number % p.config.Epoch = 0 then
        ((hdr (j + 1)).Extra.length - extraVanity - extraSeal) % 20 = 0
      else (hdr (j + 1)).Extra.length - extraVanity - extraSeal = 0) ∧
      (hdr (j + 1)).MixDigest = PureChain.Hash.zero ∧ (hdr (j + 1)).UncleHash = uncleHash keccak256 ∧
      VerifyForkHashes keccak256 config (hdr (j + 1)) false = .ok () ∧
      p.blockTimeVerifyForRamanujanFork shuffle snap (hdr (j + 1)) (hdr j) = .ok () ∧
      (hdr (j + 1)).GasLimit ≤ 0x7fffffffffffffff ∧ (hdr (j + 1)).GasUsed ≤ (hdr (j + 1)).GasLimit ∧
      (let diff := (hdr j).GasLimit.toInt64 - (hdr (j + 1)).GasLimit.toInt64
       let diff := if diff < 0 then diff * -1 else diff
       diff.toUInt64 < (hdr j).GasLimit / GasLimitBoundDivisor ∧
         MinGasLimit ≤ (hdr (j + 1)).GasLimit) ∧
      signer = (hdr (j + 1)).Coinbase ∧ signer ∈ snap.Validators ∧
      ¬RecentBlock snap.Recents signer
        (fun seen => decide ((hdr (j + 1)).number - limitOf snap.Validators < seen)) ∧
      (p.fakeDiff = false → ∃ inturn, snap.inturn signer = .ok inturn ∧
        (hdr (j + 1)).Difficulty = if inturn then diffInTurn else diffNoTurn) := by
  have hnat : (UInt64.ofNat (j + 1)).toNat = j + 1 := by
    rw [UInt64.toNat_ofNat', Nat.mod_eq_of_lt hj]
  have hnum : (hdr (j + 1)).number - 1 = UInt64.ofNat j := by
    rw [Header.number, hchain.number, UInt64.ofNat_add]
    simp
  have hnum0 : (hdr (j + 1)).number ≠ 0 := by
    rw [Ne, ← UInt64.toNat_inj, Header.number, hchain.number, hnat]
    simp
  -- the parent is looked up, and its snapshot built, at height `j`
  have hsnap' : p.snapshot recover keccak256 (ChainHeaderReader.ofHeaders config keccak256 hdr j)
      ((hdr (j + 1)).number - 1) (hdr (j + 1)).ParentHash [] = .ok snap := by
    rw [hnum, hchain.parent]
    exact hsnap
  have hlookup : (if ([] : List Header) = [] then
      (ChainHeaderReader.ofHeaders config keccak256 hdr j).GetHeader (hdr (j + 1)).ParentHash
        ((hdr (j + 1)).number - 1) else none) = some (hdr j) := by
    rw [if_pos rfl, hnum, hchain.parent]
    exact ChainHeaderReader.ofHeaders_getHeader le_rfl (by omega)
  have hparent : (hdr j).number = (hdr (j + 1)).number - 1 := by
    rw [hnum, Header.number, hchain.number]
  rw [verifyHeader_eq_ok, verifyCascadingFields_eq_ok hnum0 hlookup hparent (hchain.parent j).symm
    hsnap', verifySeal_eq_ok hnum0 hsnap' hrec]
  simp only [and_assoc]
  rfl

end Walk

/-! ### What keeps the validator set from emptying -/

section Nonempty

variable {config : DposConfig} {recover : Header → Except Error Address}
  {keccak256 : List UInt8 → PureChain.Hash}

/-- An epoch header that lists at least one address: what `Snapshot.apply` needs
of it to keep a validator. `verifyHeader` asks only for a whole number of
addresses. -/
def ListsValidator (config : DposConfig) (header : Header) : Prop :=
  0 < header.number ∧ header.number % config.Epoch = 0 →
    extraVanity + extraSeal + 20 ≤ header.Extra.length

theorem applyHeader_validators_nonempty {snap snap' : Snapshot} {header : Header}
    (h : applyHeader config recover snap header = .ok snap') (hne : snap.Validators.Nonempty)
    (hlist : ListsValidator config header) : snap'.Validators.Nonempty := by
  obtain ⟨v, -, -, -, hsnap'⟩ := (applyHeader_eq_ok config recover).mp h
  split_ifs at hsnap' with hep
  · obtain ⟨vals, hvals, rfl⟩ := hsnap'
    have hlen := checkpointValidators_length hvals
    have hpos : 0 < vals.length := by
      have := hlist hep
      simp only [extraVanity, extraSeal] at hlen this ⊢
      omega
    obtain ⟨w, hw⟩ := List.exists_mem_of_length_pos hpos
    exact ⟨w, List.mem_toFinset.mpr hw⟩
  · rw [hsnap']
    exact hne

theorem foldlM_validators_nonempty :
    ∀ {hs : List Header} {t t' : Snapshot}, hs.foldlM (applyHeader config recover) t = .ok t' →
      t.Validators.Nonempty → (∀ header ∈ hs, ListsValidator config header) →
      t'.Validators.Nonempty
  | [], _, _, ht, hne, _ => by rw [← Except.pure_eq_ok.mp ht]; exact hne
  | header :: hs, t, t', ht, hne, hl => by
    rw [List.foldlM_cons, Except.bind_eq_ok] at ht
    obtain ⟨u, hu, ht'⟩ := ht
    exact foldlM_validators_nonempty ht' (applyHeader_validators_nonempty hu hne (hl header (by simp)))
      fun header hh => hl header (by simp [hh])

/-- **A replay keeps a validator** when each epoch header it replays lists one. -/
theorem apply_validators_nonempty {s s' : Snapshot} {headers : List Header}
    (h : s.apply config recover keccak256 headers = .ok s') (hne : s.Validators.Nonempty)
    (hlist : ∀ header ∈ headers, ListsValidator config header) : s'.Validators.Nonempty := by
  cases headers with
  | nil => rw [← Except.pure_eq_ok.mp h]; exact hne
  | cons first rest =>
    obtain ⟨-, -, -, snap, hsnap, rfl⟩ := (apply_cons_eq_ok config recover keccak256).mp h
    exact (foldlM_validators_nonempty hsnap hne hlist :)

end Nonempty

/-! ### An epoch header that empties the validator set -/

section Lapse

variable (keccak256 : List UInt8 → PureChain.Hash) (v : Address)

/-- The extra-data of a header that lists no validator: a zero vanity and a zero
seal, nothing between them. -/
def bareExtra : List UInt8 := List.replicate (extraVanity + extraSeal) 0

/-- A chain sealed by `v` alone, a block every three seconds, from a genesis
header that lists `v`; no later header lists a validator, the epoch header
included. -/
def lapseHeader : ℕ → Header
  | 0 =>
    { ParentHash := default, UncleHash := uncleHash keccak256, Coinbase := v, Root := default,
      TxHash := default, ReceiptHash := default, Bloom := Vector.replicate 256 0,
      Difficulty := diffInTurn, Number := 0, GasLimit := 8000000, GasUsed := 0, Time := 0,
      Extra := soloExtra v, MixDigest := PureChain.Hash.zero, Provider := default,
      TeamAddress := default, ValidatorRate := 0, TeamRate := 0,
      Nonce := Vector.replicate 8 0, ExtraNonce := Vector.replicate 8 0,
      extra_len_lt := by simp [soloExtra] }
  | j + 1 =>
    { lapseHeader j with
      Number := j + 1, ParentHash := (lapseHeader j).Hash keccak256,
      Time := (lapseHeader j).Time + 3, Extra := bareExtra,
      extra_len_lt := by simp [bareExtra, extraVanity, extraSeal] }

/-- An engine on the shipped main-network configuration, with a period of three
seconds and the default epoch, sealing as `v`. -/
def shippedEngine : Dpos where
  chainConfig := MainnetChainConfig
  config := { Period := 3, Epoch := defaultEpochLength, epoch_pos := by decide }
  signer := NewEIP155Signer MainnetChainConfig.ChainID
  val := v
  fakeDiff := false

/-- The snapshot of the lapse chain at height `j ≤ 100`: `v` has sealed block
`j`, and the epoch header, block 100, has emptied the validator set. -/
def lapseSnap (j : ℕ) : Snapshot where
  Number := UInt64.ofNat j
  Hash := (lapseHeader keccak256 v j).Hash keccak256
  Validators := if j < 100 then {v} else ∅
  Recents := if j = 0 then ∅ else Finmap.singleton (UInt64.ofNat j) v
  RecentForkHashes := ∅

/-- The snapshot being built while `Snapshot.apply` replays the lapse chain:
number and hash are those of genesis until the replay ends. -/
def lapseFold (j : ℕ) : Snapshot :=
  { lapseSnap keccak256 v j with Number := 0, Hash := (lapseHeader keccak256 v 0).Hash keccak256 }

variable {keccak256 v}

theorem lapseHeader_chain : IsHeaderChain keccak256 (lapseHeader keccak256 v) where
  number j := by cases j <;> rfl
  parent _ := rfl

/-- What the checks read of the lapse chain, the same at every height. -/
theorem lapseHeader_fields (j : ℕ) :
    (lapseHeader keccak256 v j).Coinbase = v ∧
      (lapseHeader keccak256 v j).UncleHash = uncleHash keccak256 ∧
      (lapseHeader keccak256 v j).MixDigest = PureChain.Hash.zero ∧
      (lapseHeader keccak256 v j).GasLimit = 8000000 ∧ (lapseHeader keccak256 v j).GasUsed = 0 ∧
      (lapseHeader keccak256 v j).Difficulty = diffInTurn := by
  induction j with
  | zero => exact ⟨rfl, rfl, rfl, rfl, rfl, rfl⟩
  | succ j ih => exact ih

theorem lapseHeader_time (j : ℕ) : (lapseHeader keccak256 v j).Time = UInt64.ofNat (3 * j) := by
  induction j with
  | zero => rfl
  | succ j ih =>
    show (lapseHeader keccak256 v j).Time + 3 = _
    rw [ih, Nat.mul_succ, UInt64.ofNat_add]
    rfl

/-- Below block 100, the one epoch block of the lapse chain, no number is a
multiple of the epoch. -/
theorem lapse_epoch_iff {n : ℕ} (hn : n ≤ 100) :
    (0 < UInt64.ofNat n ∧ UInt64.ofNat n % defaultEpochLength = 0) ↔ n = 100 := by
  have hnat : (UInt64.ofNat n).toNat = n := by
    rw [UInt64.toNat_ofNat', Nat.mod_eq_of_lt (by omega)]
  rw [UInt64.lt_iff_toNat_lt, ← UInt64.toNat_inj, UInt64.toNat_mod, hnat]
  simp only [defaultEpochLength, UInt64.reduceToNat]
  omega

/-- One header of the lapse chain: `v` is recorded at its number, and the epoch
header installs the empty validator set it lists. -/
theorem applyHeader_lapse {j : ℕ} (hj : j + 1 ≤ 100) :
    applyHeader (shippedEngine v).config (fun _ => .ok v) (lapseFold keccak256 v j)
      (lapseHeader keccak256 v (j + 1)) = .ok (lapseFold keccak256 v (j + 1)) := by
  have hval : (lapseFold keccak256 v j).Validators = {v} := if_pos (by omega)
  have hnum : (lapseHeader keccak256 v (j + 1)).number = UInt64.ofNat (j + 1) := rfl
  have hlim : limitOf ({v} : Finset Address) = 1 := by rw [limitOf, Finset.card_singleton]; rfl
  have hcard : UInt64.ofNat ({v} : Finset Address).card = 1 := by
    rw [Finset.card_singleton]; rfl
  have hforget : forgetOldest (lapseFold keccak256 v j).Recents (UInt64.ofNat (j + 1)) 1 = ∅ :=
    forgetOldest_solo _ v (by omega) (by unfold lapseFold lapseSnap; split_ifs <;> simp)
  have hforks :
      forgetOldest (lapseFold keccak256 v j).RecentForkHashes (UInt64.ofNat (j + 1)) 1 = ∅ :=
    forgetOldest_solo _ "" (by omega) (Or.inl rfl)
  refine (applyHeader_eq_ok _ _).mpr ⟨v, rfl, hval ▸ Finset.mem_singleton_self v, ?_, ?_⟩
  · rw [hval, hnum, hlim, hforget]
    rintro ⟨seen, hseen, -⟩
    exact Finmap.notMem_empty (Finmap.mem_keys.mp hseen)
  rw [hval, hnum, hlim, hforget, hcard, hforks, insert_empty_eq_singleton]
  split_ifs with hep
  · -- the epoch header lists no validator
    have h100 : j + 1 = 100 := (lapse_epoch_iff hj).mp hep
    refine ⟨[], ?_, ?_⟩
    · rw [show (lapseHeader keccak256 v (j + 1)).Extra = bareExtra from rfl]
      rfl
    · simp only [lapseFold, lapseSnap, h100, List.toFinset_nil, Finset.card_empty,
        Finset.card_singleton]
      rfl
  · have hlt : j + 1 < 100 := by
      rcases Nat.lt_or_ge (j + 1) 100 with h | h
      · exact h
      · exact absurd ((lapse_epoch_iff hj).mpr (by omega)) hep
    simp only [lapseFold, lapseSnap, hlt, if_true, Nat.add_one_ne_zero, if_false]

/-- The replay of the lapse chain, header after header. -/
theorem foldlM_lapse : ∀ n a : ℕ, a + n ≤ 100 →
    ((List.range' (a + 1) n).map (lapseHeader keccak256 v)).foldlM
        (applyHeader (shippedEngine v).config (fun _ => .ok v)) (lapseFold keccak256 v a) =
      .ok (lapseFold keccak256 v (a + n))
  | 0, _, _ => rfl
  | n + 1, a, h => by
    rw [List.range'_succ, List.map_cons, List.foldlM_cons, applyHeader_lapse (by omega),
      Except.bind_ok, foldlM_lapse n (a + 1) (by omega), show a + 1 + n = a + (n + 1) by omega]

/-- **The snapshot the engine computes at each height of the lapse chain**, from
a database holding the chain up to any height `N ≤ 100`. -/
theorem snapshot_lapse {j N : ℕ} (hj : j ≤ N) (hN : N ≤ 100) :
    (shippedEngine v).snapshot (fun _ => .ok v) keccak256
        (ChainHeaderReader.ofHeaders MainnetChainConfig keccak256 (lapseHeader keccak256 v) N)
        (UInt64.ofNat j) ((lapseHeader keccak256 v j).Hash keccak256) [] =
      .ok (lapseSnap keccak256 v j) := by
  rw [snapshot_ofHeaders lapseHeader_chain (by omega) hj, genesisSnapshot_of_soloExtra rfl,
    Except.bind_ok]
  cases j with
  | zero => rfl
  | succ j =>
    have hfold := @foldlM_lapse keccak256 v (j + 1) 0 (by omega)
    simp only [Nat.zero_add] at hfold
    refine (apply_eq_ok_of_ne_nil _ _ keccak256 (by simp)
      (checkHeaders_range' lapseHeader_chain (j + 1) 1) rfl rfl hfold).trans ?_
    simp only [lapseFold, lapseSnap, List.getLast_map, List.getLast_range', List.length_map,
      List.length_range', UInt64.zero_add, Nat.add_sub_cancel_left]

/-- **Every header of the lapse chain passes `verifyHeader`**, checked against a
database holding the chain below it, at a clock past its time. -/
theorem verifyHeader_lapse (shuffle : UInt64 → (n : ℕ) → Equiv.Perm (Fin n)) {j : ℕ}
    (hj : j + 1 ≤ 100) :
    (shippedEngine v).verifyHeader (fun _ => .ok v) keccak256 shuffle
        (ChainHeaderReader.ofHeaders MainnetChainConfig keccak256 (lapseHeader keccak256 v) j) 300
        (lapseHeader keccak256 v (j + 1)) [] = .ok () := by
  obtain ⟨hcoin, huncle, hmix, hgas, hused, hdiff⟩ := @lapseHeader_fields keccak256 v (j + 1)
  have hextra : (lapseHeader keccak256 v (j + 1)).Extra = bareExtra := rfl
  -- the parent's snapshot: `v` alone, having sealed the parent
  have hval : (lapseSnap keccak256 v j).Validators = {v} := if_pos (by omega)
  have hturn : (lapseSnap keccak256 v j).inturn v = .ok true := by
    rw [inturn_of_validators_singleton hval]
    simp
  rw [verifyHeader_next_eq_ok lapseHeader_chain (by omega) (snapshot_lapse le_rfl (by omega)) rfl]
  refine ⟨?_, by simp [hextra, bareExtra], by simp [hextra, bareExtra, extraVanity, extraSeal],
    hmix, huncle, verifyForkHashes_of_eip150Hash_zero _ rfl _ _, ?_, by rw [hgas]; decide,
    by rw [hgas, hused]; decide, by rw [hgas, (@lapseHeader_fields keccak256 v j).2.2.2.1]; decide,
    hcoin.symm, by rw [hval]; exact Finset.mem_singleton_self v, ?_,
    fun _ => ⟨true, hturn, hdiff⟩⟩
  · rw [lapseHeader_time, UInt64.le_iff_toNat_le, UInt64.toNat_ofNat', Nat.mod_eq_of_lt (by omega)]
    simp only [UInt64.reduceToNat]
    omega
  · -- a block three seconds after its parent, with no back-off for the in-turn sealer
    simp only [blockTimeVerifyForRamanujanFork, hcoin, backOffTime_of_inturn hturn]
    simp [shippedEngine, MainnetChainConfig, shippedChainConfig, ChainConfig.IsRamanujan,
      show (lapseHeader keccak256 v (j + 1)).Time = (lapseHeader keccak256 v j).Time + 3 from rfl]
  -- the parent's sealer is recorded at `j`, which the guard `j < seen` does not bar
  rintro ⟨seen, hseen, hlook, hguard⟩
  have hlim : limitOf (lapseSnap keccak256 v j).Validators = 1 := by
    rw [hval, limitOf, Finset.card_singleton]; rfl
  have hnum : (lapseHeader keccak256 v (j + 1)).number - 1 = UInt64.ofNat j := by
    rw [show (lapseHeader keccak256 v (j + 1)).number = UInt64.ofNat (j + 1) from rfl,
      UInt64.ofNat_add]
    simp
  rw [hlim, hnum] at hguard
  rw [show (lapseSnap keccak256 v j).Recents =
    if j = 0 then ∅ else Finmap.singleton (UInt64.ofNat j) v from rfl] at hseen
  split_ifs at hseen with h0
  · exact Finmap.notMem_empty (Finmap.mem_keys.mp hseen)
  · rw [Finmap.keys_singleton, Finset.mem_singleton] at hseen
    subst hseen
    simp at hguard

/-- **An epoch header that lists no validator passes `verifyHeader`, and the
snapshot it leads to has no validator.** From a genesis header listing `v`, the
lapse chain's headers 1 to 100 each pass verification against the database
below them; block 100 is an epoch block, and its extra-data holds no address, a
whole number of them. The snapshot the engine then builds at block 100 has an
empty validator set, on which `inturn` (and with it `CalcDifficulty` and
`backOffTime`) takes a remainder by zero. -/
theorem verifyHeader_admits_empty_validator_set (keccak256 : List UInt8 → PureChain.Hash)
    (v : Address) (shuffle : UInt64 → (n : ℕ) → Equiv.Perm (Fin n)) :
    (fun s => s.Validators) <$> genesisSnapshot keccak256 (lapseHeader keccak256 v 0) =
        .ok {v} ∧
      (∀ j < 100, (shippedEngine v).verifyHeader (fun _ => .ok v) keccak256 shuffle
        (ChainHeaderReader.ofHeaders MainnetChainConfig keccak256 (lapseHeader keccak256 v) j) 300
        (lapseHeader keccak256 v (j + 1)) [] = .ok ()) ∧
      ∃ snap, (shippedEngine v).snapshot (fun _ => .ok v) keccak256
          (ChainHeaderReader.ofHeaders MainnetChainConfig keccak256 (lapseHeader keccak256 v) 100)
          100 ((lapseHeader keccak256 v 100).Hash keccak256) [] = .ok snap ∧
        snap.Validators = ∅ ∧ ∀ w, snap.inturn w = .error .panic := by
  refine ⟨by rw [genesisSnapshot_of_soloExtra rfl]; rfl, fun j hj => verifyHeader_lapse shuffle hj,
    lapseSnap keccak256 v 100, snapshot_lapse le_rfl le_rfl, rfl, inturn_of_validators_empty rfl⟩

end Lapse

end Dpos

end PureChain
