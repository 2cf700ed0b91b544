import PureChain.Consensus.Dpos.Verify

/-!
# Sealing, and the three readings of the recently-signed rule

A validator that sealed one of the last `limit = len(Validators)/2 + 1` blocks
may not seal the next one. Three places of the engine read that rule off the
snapshot of the parent, each with a loop of its own over `Recents`:

* `Snapshot.apply`, replaying a header at `n`, first forgets `Recents[n-limit]`
  when `n >= limit`, and then rejects any validator still recorded;
* `Dpos.verifySeal` rejects a validator recorded at some `seen > n-limit`;
* `Dpos.Seal` and `Dpos.SignRecently` make the local validator wait when it is
  recorded at some `seen` with `n < limit || seen > n-limit`.

All arithmetic is `uint64`. On every snapshot reachable from genesis the keys of
`Recents` lie in `[n-limit, n-1]` (`PureChain.Dpos.Reachable.inv`), and there
`Seal`'s guard agrees with `apply` at every height
(`sealGuard_agrees_with_apply`), while `verifySeal`'s guard agrees with it only
from `n >= limit` on (`verifySealGuard_agrees_with_apply`). Below that,
`n - limit` wraps to a number above every key and `verifySeal` bars no one
(`verifySealGuard_silent`), whereas `apply` still bars every validator recorded:
`verifySeal` accepts a header that the replay of the same header rejects
(`verifySeal_accepts_recent_sealer`).

`Seal` is modelled up to its decision: the signature, the delay and the result
channel are outside the model.
-/

namespace PureChain

namespace Dpos

/-- What `Dpos.Seal` does with a block, short of an error. -/
inductive SealOutcome where
  /-- A period of zero and no transaction: sealing paused. -/
  | paused
  /-- `Signed recently, must wait for others`. -/
  | wait
  /-- The validator goes on to sign the block. -/
  | sign
  deriving DecidableEq, Repr

section Seal

variable (p : Dpos) (recover : Header → Except Error Address)
  (keccak256 : List UInt8 → PureChain.Hash) (chain : ChainHeaderReader)

/-- `Dpos.Seal`, up to its decision, for a block with `header` and `txCount`
transactions. -/
def Seal (header : Header) (txCount : ℕ) : Except Error SealOutcome := do
  let number := header.number
  if number = 0 then throw .errUnknownBlock
  if p.config.Period = 0 ∧ txCount = 0 then return .paused
  let snap ← p.snapshot recover keccak256 chain (number - 1) header.ParentHash []
  if p.val ∉ snap.Validators then throw .errUnauthorizedValidator
  -- only wait if the current block doesn't shift it out
  if RecentBlock snap.Recents p.val
      (fun seen => decide (number < limitOf snap.Validators ∨
        number - limitOf snap.Validators < seen)) then
    return .wait
  return .sign

/-- `Dpos.SignRecently`: whether the local validator must wait to seal the child
of `parent`. The code asks for the snapshot at the parent's height under the
grandparent's hash, `p.snapshot(chain, parent.Number.Uint64(), parent.ParentHash,
nil)`; on an error it returns `true` along with it. -/
def SignRecently (parent : Header) : Except Error Bool := do
  let snap ← p.snapshot recover keccak256 chain parent.number parent.ParentHash []
  if p.val ∉ snap.Validators then throw .errUnauthorizedValidator
  let number := parent.number + 1
  pure (decide (RecentBlock snap.Recents p.val
    (fun seen => decide (number < limitOf snap.Validators ∨
      number - limitOf snap.Validators < seen))))

end Seal

/-- **`Seal` once the snapshot is known**: it waits exactly when its guard finds
the local validator among the recent sealers. -/
theorem Seal_eq_ok {p : Dpos} {recover : Header → Except Error Address}
    {keccak256 : List UInt8 → PureChain.Hash} {chain : ChainHeaderReader} {header : Header}
    {txCount : ℕ} {snap : Snapshot} (hnum : header.number ≠ 0)
    (hpause : ¬(p.config.Period = 0 ∧ txCount = 0))
    (hsnap : p.snapshot recover keccak256 chain (header.number - 1) header.ParentHash [] = .ok snap)
    (hval : p.val ∈ snap.Validators) :
    p.Seal recover keccak256 chain header txCount =
      .ok (if RecentBlock snap.Recents p.val (fun seen => decide (header.number < limitOf snap.Validators ∨
          header.number - limitOf snap.Validators < seen)) then .wait else .sign) := by
  simp only [Seal, hnum, hpause, hsnap, hval, if_false, Except.bind_ok, not_true_eq_false]
  split_ifs <;> rfl

/-! ### The replay's reading -/

/-- The one error of reading an epoch header's list is a panic. -/
theorem checkpointValidators_error {extra : List UInt8} {e : Error}
    (h : checkpointValidators extra = .error e) : e = .panic := by
  unfold checkpointValidators at h
  split_ifs at h
  · exact (Except.throw_eq_error.mp h).symm
  · exact absurd h Except.pure_ne_error

/-- **When the replay rejects a sealer as recent**: exactly when it is still
recorded once `Recents[n - limit]` is forgotten. -/
theorem applyHeader_eq_errRecentlySigned {config : DposConfig}
    {recover : Header → Except Error Address} {snap : Snapshot} {header : Header} {v : Address}
    (hrec : recover header = .ok v) (hv : v ∈ snap.Validators) :
    applyHeader config recover snap header = .error .errRecentlySigned ↔
      RecentlySigned (forgetOldest snap.Recents header.number (limitOf snap.Validators)) v := by
  simp only [applyHeader, hrec, hv, Except.bind_ok, not_true_eq_false, if_false]
  by_cases hr : RecentlySigned (forgetOldest snap.Recents header.number (limitOf snap.Validators)) v
  · simp [hr]
  · simp only [hr, if_false, iff_false]
    split_ifs
    · rw [Except.bind_eq_error]
      rintro (he | ⟨_, -, he⟩)
      · exact absurd (checkpointValidators_error he) (by decide)
      · exact Except.pure_ne_error he
    · exact Except.pure_ne_error

/-! ### One rule, three guards -/

section Guards

theorem lookup_forgetOldest {β : Type} {m : Finmap fun _ : UInt64 => β} {number limit seen : UInt64} :
    (forgetOldest m number limit).lookup seen =
      if limit ≤ number ∧ seen = number - limit then none else m.lookup seen := by
  unfold forgetOldest
  by_cases hl : limit ≤ number
  · by_cases hs : seen = number - limit
    · rw [hs]
      simp [hl, Finmap.lookup_erase]
    · simp [hl, hs, Finmap.lookup_erase_ne hs]
  · simp [hl]

/-- A loop whose guard holds of exactly the keys `forgetOldest` keeps finds what
the replay finds. -/
theorem recentBlock_iff_recentlySigned {R : Recents} {v : Address} {guard : UInt64 → Bool}
    {number limit : UInt64}
    (h : ∀ seen ∈ R, guard seen = true ↔ ¬(limit ≤ number ∧ seen = number - limit)) :
    RecentBlock R v guard ↔ RecentlySigned (forgetOldest R number limit) v := by
  rw [recentlySigned_iff]
  constructor
  · rintro ⟨seen, hseen, hlook, hg⟩
    refine ⟨seen, ?_⟩
    rw [lookup_forgetOldest, if_neg ((h seen (Finmap.mem_keys.mp hseen)).mp hg)]
    exact hlook
  · rintro ⟨seen, hlook⟩
    rw [lookup_forgetOldest] at hlook
    split_ifs at hlook with hc
    have hmem : seen ∈ R := Finmap.mem_of_lookup_eq_some hlook
    exact ⟨seen, Finmap.mem_keys.mpr hmem, hlook, (h seen hmem).mpr hc⟩

variable {V : Finset Address} {R : Recents} {m : ℕ} {n seen : UInt64}

/-- In the window, `Seal`'s guard holds of a key exactly when the replay keeps it. -/
theorem sealGuard_iff (hw : Window V R m) (hc : V.card < 2 ^ 63) (hn : n.toNat = m + 1)
    (hseen : seen ∈ R) :
    decide (n < limitOf V ∨ n - limitOf V < seen) = true ↔
      ¬(limitOf V ≤ n ∧ seen = n - limitOf V) := by
  have hl := limitOf_toNat hc
  obtain ⟨hle, hge⟩ := hw seen hseen
  by_cases hL : limitOf V ≤ n
  · have hsub := UInt64.toNat_sub_of_le _ _ hL
    rw [UInt64.le_iff_toNat_le] at hL
    simp only [decide_eq_true_eq, UInt64.lt_iff_toNat_lt, hsub, ← UInt64.toNat_inj,
      UInt64.le_iff_toNat_le]
    omega
  · have hlt : n < limitOf V := by
      rw [UInt64.lt_iff_toNat_lt]
      rw [UInt64.le_iff_toNat_le] at hL
      omega
    simp [hlt, hL]

/-- In the window, from `n >= limit` on, `verifySeal`'s guard holds of a key
exactly when the replay keeps it. -/
theorem verifySealGuard_iff (hw : Window V R m) (hc : V.card < 2 ^ 63) (hn : n.toNat = m + 1)
    (hL : limitOf V ≤ n) (hseen : seen ∈ R) :
    decide (n - limitOf V < seen) = true ↔ ¬(limitOf V ≤ n ∧ seen = n - limitOf V) := by
  have hl := limitOf_toNat hc
  obtain ⟨hle, hge⟩ := hw seen hseen
  have hsub := UInt64.toNat_sub_of_le _ _ hL
  rw [UInt64.le_iff_toNat_le] at hL
  simp only [decide_eq_true_eq, UInt64.lt_iff_toNat_lt, hsub, ← UInt64.toNat_inj,
    UInt64.le_iff_toNat_le]
  omega

/-- Below `n = limit`, `n - limit` wraps above every key of the window, and
`verifySeal`'s guard holds of none. -/
theorem verifySealGuard_false (hw : Window V R m) (hc : V.card < 2 ^ 63) (hn : n.toNat = m + 1)
    (hL : n < limitOf V) (hseen : seen ∈ R) : decide (n - limitOf V < seen) = false := by
  have hl := limitOf_toNat hc
  obtain ⟨hle, -⟩ := hw seen hseen
  rw [UInt64.lt_iff_toNat_lt] at hL
  simp only [decide_eq_false_iff_not, UInt64.lt_iff_toNat_lt, UInt64.toNat_sub]
  omega

end Guards

/-! ### The guards on every reachable snapshot -/

section Reachable

variable {config : DposConfig} {keccak256 : List UInt8 → PureChain.Hash} {k : ℕ} {s : Snapshot}

theorem toNat_number_succ (h : Reachable config keccak256 k s) (hk : k + 1 < 2 ^ 64) :
    (s.Number + 1).toNat = k + 1 := by
  rw [UInt64.toNat_add, (h.inv (by omega)).number, UInt64.toNat_one, Nat.mod_eq_of_lt hk]

/-- **`Seal` reads the rule as the replay does**, at every height below the wrap
of the block number. -/
theorem sealGuard_agrees_with_apply (h : Reachable config keccak256 k s) (hk : k + 1 < 2 ^ 64)
    (v : Address) :
    RecentBlock s.Recents v (fun seen => decide (s.Number + 1 < limitOf s.Validators ∨
        s.Number + 1 - limitOf s.Validators < seen)) ↔
      RecentlySigned s.nextRecents v := by
  have hinv := h.inv (by omega)
  exact recentBlock_iff_recentlySigned fun _ hseen =>
    sealGuard_iff hinv.window hinv.card_lt (toNat_number_succ h hk) hseen

/-- **`verifySeal` reads the rule as the replay does once `n >= limit`.** -/
theorem verifySealGuard_agrees_with_apply (h : Reachable config keccak256 k s)
    (hk : k + 1 < 2 ^ 64) (hL : limitOf s.Validators ≤ s.Number + 1) (v : Address) :
    RecentBlock s.Recents v (fun seen => decide (s.Number + 1 - limitOf s.Validators < seen)) ↔
      RecentlySigned s.nextRecents v := by
  have hinv := h.inv (by omega)
  exact recentBlock_iff_recentlySigned fun _ hseen =>
    verifySealGuard_iff hinv.window hinv.card_lt (toNat_number_succ h hk) hL hseen

/-- **Below `n = limit`, `verifySeal` bars no one**, whatever `Recents` holds. -/
theorem verifySealGuard_silent (h : Reachable config keccak256 k s) (hk : k + 1 < 2 ^ 64)
    (hL : s.Number + 1 < limitOf s.Validators) (v : Address) :
    ¬RecentBlock s.Recents v (fun seen => decide (s.Number + 1 - limitOf s.Validators < seen)) := by
  have hinv := h.inv (by omega)
  rintro ⟨seen, hseen, -, hg⟩
  dsimp only at hg
  rw [verifySealGuard_false hinv.window hinv.card_lt (toNat_number_succ h hk) hL
    (Finmap.mem_keys.mp hseen)] at hg
  exact Bool.false_ne_true hg

end Reachable

/-! ### Four validators, one sealer twice -/

section Repeat

/-- The address whose last byte is `k`, all others zero. -/
def quartetAddr (k : UInt8) : Address := ⟨(Vector.replicate 19 0).push k⟩

/-- Four validators, listed in the order `Snapshot.validators` sorts them. -/
def quartet : List Address := [quartetAddr 1, quartetAddr 2, quartetAddr 3, quartetAddr 4]

theorem quartet_nodup : quartet.Nodup := by decide

theorem quartet_sort : quartet.toFinset.sort (· ≤ ·) = quartet :=
  (List.toFinset_sort (· ≤ ·) quartet_nodup).mpr (by decide)

variable (keccak256 : List UInt8 → PureChain.Hash)

/-- A chain over `quartet` in which the first validator seals every block, seven
seconds apart, from a genesis header that lists the four. -/
def repeatHeader : ℕ → Header
  | 0 =>
    { ParentHash := default, UncleHash := uncleHash keccak256, Coinbase := quartetAddr 1,
      Root := default, TxHash := default, ReceiptHash := default, Bloom := Vector.replicate 256 0,
      Difficulty := diffNoTurn, Number := 0, GasLimit := 8000000, GasUsed := 0, Time := 0,
      Extra := checkpointExtra quartet, MixDigest := PureChain.Hash.zero, Provider := default,
      TeamAddress := default, ValidatorRate := 0, TeamRate := 0,
      Nonce := Vector.replicate 8 0, ExtraNonce := Vector.replicate 8 0,
      extra_len_lt := by rw [length_checkpointExtra]; simp [quartet, extraVanity, extraSeal] }
  | j + 1 =>
    { repeatHeader j with
      Number := j + 1, ParentHash := (repeatHeader j).Hash keccak256,
      Time := (repeatHeader j).Time + 7, Extra := bareExtra,
      extra_len_lt := by simp [bareExtra, extraVanity, extraSeal] }

/-- The snapshot of the repeat chain at block 1: the first validator has sealed it. -/
def repeatSnap : Snapshot where
  Number := 1
  Hash := (repeatHeader keccak256 1).Hash keccak256
  Validators := quartet.toFinset
  Recents := Finmap.singleton 1 (quartetAddr 1)
  RecentForkHashes := ∅

variable {keccak256}

theorem repeatHeader_chain : IsHeaderChain keccak256 (repeatHeader keccak256) where
  number j := by cases j <;> rfl
  parent _ := rfl

/-- What the checks read of the repeat chain, the same at every height. -/
theorem repeatHeader_fields (j : ℕ) :
    (repeatHeader keccak256 j).Coinbase = quartetAddr 1 ∧
      (repeatHeader keccak256 j).UncleHash = uncleHash keccak256 ∧
      (repeatHeader keccak256 j).MixDigest = PureChain.Hash.zero ∧
      (repeatHeader keccak256 j).GasLimit = 8000000 ∧ (repeatHeader keccak256 j).GasUsed = 0 ∧
      (repeatHeader keccak256 j).Difficulty = diffNoTurn := by
  induction j with
  | zero => exact ⟨rfl, rfl, rfl, rfl, rfl, rfl⟩
  | succ j ih => exact ih

theorem validators_quartet {s : Snapshot} (h : s.Validators = quartet.toFinset) :
    s.validators = quartet := by
  rw [Snapshot.validators, h, quartet_sort]

/-- Blocks 1 and 2 are the turns of the second and third validators. -/
theorem inturn_quartet {s : Snapshot} (h : s.Validators = quartet.toFinset)
    (hn : s.Number = 0 ∨ s.Number = 1) : s.inturn (quartetAddr 1) = .ok false := by
  rcases hn with hn | hn <;>
  · simp only [Snapshot.inturn, validators_quartet h, hn]
    decide

/-- The genesis snapshot of the repeat chain. -/
def repeatGenesis (keccak256 : List UInt8 → PureChain.Hash) : Snapshot :=
  newSnapshot 0 ((repeatHeader keccak256 0).Hash keccak256) quartet

theorem applyHeader_repeat (recover : Header → Except Error Address)
    (hrec : recover (repeatHeader keccak256 1) = .ok (quartetAddr 1)) :
    applyHeader (shippedEngine (quartetAddr 1)).config recover (repeatGenesis keccak256)
      (repeatHeader keccak256 1) =
      .ok { repeatGenesis keccak256 with Recents := Finmap.singleton 1 (quartetAddr 1) } := by
  refine (applyHeader_eq_ok _ _).mpr
    ⟨quartetAddr 1, hrec, List.mem_toFinset.mpr List.mem_cons_self, ?_, ?_⟩
  · rw [show (repeatGenesis keccak256).Recents = ∅ from rfl, forgetOldest_empty]
    rintro ⟨seen, hseen, -⟩
    exact Finmap.notMem_empty (Finmap.mem_keys.mp hseen)
  · rw [show (repeatHeader keccak256 1).number = 1 from rfl, if_neg (by decide),
      show (repeatGenesis keccak256).Recents = ∅ from rfl,
      show (repeatGenesis keccak256).RecentForkHashes = ∅ from rfl, forgetOldest_empty,
      forgetOldest_empty, insert_empty_eq_singleton]
    rfl

theorem limitOf_quartet : limitOf quartet.toFinset = 3 := by
  rw [limitOf, List.toFinset_card_of_nodup quartet_nodup]
  rfl

theorem repeatHeader_time (j : ℕ) : (repeatHeader keccak256 j).Time = UInt64.ofNat (7 * j) := by
  induction j with
  | zero => rfl
  | succ j ih =>
    show (repeatHeader keccak256 j).Time + 7 = _
    rw [ih, Nat.mul_succ, UInt64.ofNat_add]
    rfl

variable {N : ℕ}

theorem reachable_repeat_zero :
    Reachable (shippedEngine (quartetAddr 1)).config keccak256 0 (repeatGenesis keccak256) :=
  .genesis (genesisSnapshot_checkpointExtra keccak256 rfl)

/-- The replay of block 1 records its sealer, the first validator. -/
theorem apply_repeat_one :
    (repeatGenesis keccak256).apply (shippedEngine (quartetAddr 1)).config
      (fun _ => .ok (quartetAddr 1)) keccak256 [repeatHeader keccak256 1] =
      .ok (repeatSnap keccak256) := by
  have hfold : [repeatHeader keccak256 1].foldlM
      (applyHeader (shippedEngine (quartetAddr 1)).config (fun _ => .ok (quartetAddr 1)))
      (repeatGenesis keccak256) =
      .ok { repeatGenesis keccak256 with Recents := Finmap.singleton 1 (quartetAddr 1) } := by
    rw [List.foldlM_cons, applyHeader_repeat _ rfl, Except.bind_ok]
    rfl
  exact (apply_eq_ok_of_ne_nil _ _ keccak256 (by simp)
    (checkHeaders_range' repeatHeader_chain 1 1) rfl rfl hfold).trans rfl

theorem reachable_repeat_one :
    Reachable (shippedEngine (quartetAddr 1)).config keccak256 1 (repeatSnap keccak256) :=
  .apply _ _ reachable_repeat_zero apply_repeat_one

variable {N : ℕ}

theorem snapshot_repeat_zero (hN : N < 2 ^ 64) :
    (shippedEngine (quartetAddr 1)).snapshot (fun _ => .ok (quartetAddr 1)) keccak256
        (ChainHeaderReader.ofHeaders MainnetChainConfig keccak256 (repeatHeader keccak256) N)
        (UInt64.ofNat 0) ((repeatHeader keccak256 0).Hash keccak256) [] =
      .ok (repeatGenesis keccak256) := by
  rw [snapshot_ofHeaders repeatHeader_chain hN (Nat.zero_le N),
    genesisSnapshot_checkpointExtra keccak256 rfl, Except.bind_ok]
  rfl

theorem snapshot_repeat_one (hN : N < 2 ^ 64) (h1 : 1 ≤ N) :
    (shippedEngine (quartetAddr 1)).snapshot (fun _ => .ok (quartetAddr 1)) keccak256
        (ChainHeaderReader.ofHeaders MainnetChainConfig keccak256 (repeatHeader keccak256) N)
        (UInt64.ofNat 1) ((repeatHeader keccak256 1).Hash keccak256) [] =
      .ok (repeatSnap keccak256) := by
  rw [snapshot_ofHeaders repeatHeader_chain hN h1, genesisSnapshot_checkpointExtra keccak256 rfl,
    Except.bind_ok]
  exact apply_repeat_one

/-- The replay of block 2 on a snapshot of block 1 rejects its sealer: the
first validator sealed block 1, and at `2 < limit = 3` nothing is forgotten. -/
theorem applyHeader_repeat_two {s : Snapshot} (hval : s.Validators = quartet.toFinset)
    (hrecents : s.Recents = Finmap.singleton 1 (quartetAddr 1)) :
    applyHeader (shippedEngine (quartetAddr 1)).config (fun _ => .ok (quartetAddr 1)) s
      (repeatHeader keccak256 2) = .error .errRecentlySigned := by
  refine (applyHeader_eq_errRecentlySigned rfl
    (hval ▸ List.mem_toFinset.mpr List.mem_cons_self)).mpr ?_
  rw [show (repeatHeader keccak256 2).number = 2 from rfl, hval, hrecents, limitOf_quartet,
    forgetOldest, if_neg (by decide)]
  exact ⟨1, by simp, by simp⟩

/-- The snapshot the engine computes at block 2 fails: the replay rejects block 2. -/
theorem snapshot_repeat_two (hN : N < 2 ^ 64) (h2 : 2 ≤ N) :
    (shippedEngine (quartetAddr 1)).snapshot (fun _ => .ok (quartetAddr 1)) keccak256
        (ChainHeaderReader.ofHeaders MainnetChainConfig keccak256 (repeatHeader keccak256) N)
        (UInt64.ofNat 2) ((repeatHeader keccak256 2).Hash keccak256) [] =
      .error .errRecentlySigned := by
  rw [snapshot_ofHeaders repeatHeader_chain hN h2, genesisSnapshot_checkpointExtra keccak256 rfl,
    Except.bind_ok]
  change (repeatGenesis keccak256).apply _ _ _ [repeatHeader keccak256 1, repeatHeader keccak256 2]
    = _
  refine apply_cons_eq_error _ _ keccak256 (checkHeaders_range' repeatHeader_chain 2 1) rfl rfl ?_
  rw [List.foldlM_cons, applyHeader_repeat _ rfl, Except.bind_ok, List.foldlM_cons,
    applyHeader_repeat_two rfl rfl]
  rfl

/-- Below `limit`, the guard of `verifySeal` lets the first validator seal
blocks 1 and 2, whatever it has sealed (`verifySealGuard_silent`). -/
theorem verifySealGuard_repeat {j : ℕ} (hj : j ≤ 1) {s : Snapshot}
    (hreach : Reachable (shippedEngine (quartetAddr 1)).config keccak256 j s)
    (hval : s.Validators = quartet.toFinset) (hnum : s.Number = UInt64.ofNat j) :
    ¬RecentBlock s.Recents (quartetAddr 1)
      (fun seen => decide ((repeatHeader keccak256 (j + 1)).number - limitOf s.Validators < seen)) := by
  have hnumber : (repeatHeader keccak256 (j + 1)).number = s.Number + 1 := by
    rw [hnum, show (repeatHeader keccak256 (j + 1)).number = UInt64.ofNat (j + 1) from rfl,
      UInt64.ofNat_add]
    rfl
  have hL : s.Number + 1 < limitOf s.Validators := by
    rw [hval, limitOf_quartet, hnum]
    rcases (show j = 0 ∨ j = 1 by omega) with rfl | rfl <;> decide
  rw [hnumber]
  exact verifySealGuard_silent hreach (by omega) hL _

/-- Blocks 1 and 2 of the repeat chain pass `verifyHeader`, from the snapshot of
their parent, at a clock of 14 seconds. The guard of `verifySeal` is silent
below `limit` (`verifySealGuard_silent`). -/
theorem verifyHeader_repeat (shuffle : UInt64 → (n : ℕ) → Equiv.Perm (Fin n)) {j : ℕ}
    (hj : j ≤ 1) {s : Snapshot}
    (hsnap : (shippedEngine (quartetAddr 1)).snapshot (fun _ => .ok (quartetAddr 1)) keccak256
      (ChainHeaderReader.ofHeaders MainnetChainConfig keccak256 (repeatHeader keccak256) j)
      (UInt64.ofNat j) ((repeatHeader keccak256 j).Hash keccak256) [] = .ok s)
    (hreach : Reachable (shippedEngine (quartetAddr 1)).config keccak256 j s)
    (hval : s.Validators = quartet.toFinset) (hnum : s.Number = UInt64.ofNat j) :
    (shippedEngine (quartetAddr 1)).verifyHeader (fun _ => .ok (quartetAddr 1)) keccak256 shuffle
      (ChainHeaderReader.ofHeaders MainnetChainConfig keccak256 (repeatHeader keccak256) j) 14
      (repeatHeader keccak256 (j + 1)) [] = .ok () := by
  obtain ⟨hcoin, huncle, hmix, hgas, hused, hdiff⟩ := @repeatHeader_fields keccak256 (j + 1)
  have hextra : (repeatHeader keccak256 (j + 1)).Extra = bareExtra := rfl
  have hturn : s.inturn (quartetAddr 1) = .ok false := by
    refine inturn_quartet hval ?_
    rcases (show j = 0 ∨ j = 1 by omega) with rfl | rfl
    · exact .inl hnum
    · exact .inr hnum
  rw [verifyHeader_next_eq_ok repeatHeader_chain (by omega) hsnap rfl]
  refine ⟨?_, by simp [hextra, bareExtra], by simp [hextra, bareExtra, extraVanity, extraSeal],
    hmix, huncle, verifyForkHashes_of_eip150Hash_zero _ rfl _ _, ?_, by rw [hgas]; decide,
    by rw [hgas, hused]; decide, by rw [hgas, (@repeatHeader_fields keccak256 j).2.2.2.1]; decide,
    hcoin.symm, by rw [hval]; exact List.mem_toFinset.mpr List.mem_cons_self, ?_,
    fun _ => ⟨false, hturn, hdiff⟩⟩
  · rw [repeatHeader_time, UInt64.le_iff_toNat_le, UInt64.toNat_ofNat', Nat.mod_eq_of_lt (by omega)]
    simp only [UInt64.reduceToNat]
    omega
  · obtain ⟨d, hd, hdle⟩ :=
      backOffTime_le_length shuffle hturn (by rw [validators_quartet hval]; decide)
    rw [validators_quartet hval] at hdle
    simp only [blockTimeVerifyForRamanujanFork, hcoin, hd]
    have hram : (shippedEngine (quartetAddr 1)).chainConfig.IsRamanujan
        (repeatHeader keccak256 (j + 1)).Number = true := by
      simp [shippedEngine, MainnetChainConfig, shippedChainConfig, ChainConfig.IsRamanujan]
    simp only [hram, if_true, Except.bind_ok]
    -- seven seconds after the parent: a period of three and a back-off of at most four
    have hlen : d.toNat ≤ 4 := hdle
    rw [if_neg]
    · rfl
    rw [show (shippedEngine (quartetAddr 1)).config.Period = 3 from rfl, repeatHeader_time,
      repeatHeader_time, UInt64.lt_iff_toNat_lt, UInt64.toNat_add, UInt64.toNat_add]
    rcases (show j = 0 ∨ j = 1 by omega) with rfl | rfl <;>
    · simp only [UInt64.toNat_ofNat', UInt64.reduceToNat, Nat.reducePow, Nat.reduceMul,
        Nat.reduceAdd, Nat.reduceMod]
      omega
  · exact verifySealGuard_repeat hj hreach hval hnum

/-- With block 1 in the database, the first validator waits to seal block 2. -/
theorem Seal_repeat_two :
    (shippedEngine (quartetAddr 1)).Seal (fun _ => .ok (quartetAddr 1)) keccak256
      (ChainHeaderReader.ofHeaders MainnetChainConfig keccak256 (repeatHeader keccak256) 1)
      (repeatHeader keccak256 2) 1 = .ok .wait := by
  have hnum : (repeatHeader keccak256 2).number = 2 := rfl
  have hsnap : (shippedEngine (quartetAddr 1)).snapshot (fun _ => .ok (quartetAddr 1)) keccak256
      (ChainHeaderReader.ofHeaders MainnetChainConfig keccak256 (repeatHeader keccak256) 1)
      ((repeatHeader keccak256 2).number - 1) (repeatHeader keccak256 2).ParentHash [] =
      .ok (repeatSnap keccak256) := by
    rw [hnum, show (2 : UInt64) - 1 = UInt64.ofNat 1 from rfl,
      show (repeatHeader keccak256 2).ParentHash = (repeatHeader keccak256 1).Hash keccak256 from rfl]
    exact snapshot_repeat_one (by omega) le_rfl
  have hval : (shippedEngine (quartetAddr 1)).val ∈ (repeatSnap keccak256).Validators :=
    List.mem_toFinset.mpr List.mem_cons_self
  rw [Seal_eq_ok (by rw [hnum]; decide) (by decide) hsnap hval, if_pos]
  refine ⟨1, by simp [repeatSnap], Finmap.lookup_singleton_eq, ?_⟩
  rw [hnum, show (repeatSnap keccak256).Validators = quartet.toFinset from rfl, limitOf_quartet]
  decide

/-- Block 2 passes `verifySeal` against the snapshot of block 1. -/
theorem verifySeal_repeat_two :
    (shippedEngine (quartetAddr 1)).verifySeal (fun _ => .ok (quartetAddr 1)) keccak256
      (ChainHeaderReader.ofHeaders MainnetChainConfig keccak256 (repeatHeader keccak256) 1)
      (repeatHeader keccak256 2) [] = .ok () := by
  have hnum : (repeatHeader keccak256 2).number = 2 := rfl
  have hsnap : (shippedEngine (quartetAddr 1)).snapshot (fun _ => .ok (quartetAddr 1)) keccak256
      (ChainHeaderReader.ofHeaders MainnetChainConfig keccak256 (repeatHeader keccak256) 1)
      ((repeatHeader keccak256 2).number - 1) (repeatHeader keccak256 2).ParentHash [] =
      .ok (repeatSnap keccak256) := by
    rw [hnum, show (2 : UInt64) - 1 = UInt64.ofNat 1 from rfl,
      show (repeatHeader keccak256 2).ParentHash = (repeatHeader keccak256 1).Hash keccak256 from rfl]
    exact snapshot_repeat_one (by omega) le_rfl
  refine (verifySeal_eq_ok (by rw [hnum]; decide) hsnap rfl).mpr
    ⟨rfl, List.mem_toFinset.mpr List.mem_cons_self,
      verifySealGuard_repeat le_rfl reachable_repeat_one rfl rfl,
      fun _ => ⟨false, inturn_quartet rfl (.inr rfl), rfl⟩⟩

/-- **`verifySeal` accepts a sealer that the replay rejects.** On the shipped
main-network engine with four validators, so `limit = 3`, the first validator
seals blocks 1 and 2, both out of turn. The snapshot of block 1 is reachable
from genesis and records the first validator as the sealer of block 1. At block
`2 < limit` the guard of `verifySeal` wraps and bars no one: headers 1 and 2
pass `verifyHeader`, and block 2 passes `verifySeal`. The replay of block 2
rejects the same sealer, and `Seal` makes it wait; the snapshot of block 2,
against which every child of block 2 is verified, cannot be built. -/
theorem verifySeal_accepts_recent_sealer (keccak256 : List UInt8 → PureChain.Hash)
    (shuffle : UInt64 → (n : ℕ) → Equiv.Perm (Fin n)) :
    Reachable (shippedEngine (quartetAddr 1)).config keccak256 1 (repeatSnap keccak256) ∧
      quartetAddr 1 ∈ (repeatSnap keccak256).Validators ∧
      (∀ j ≤ 1, (shippedEngine (quartetAddr 1)).verifyHeader (fun _ => .ok (quartetAddr 1))
        keccak256 shuffle
        (ChainHeaderReader.ofHeaders MainnetChainConfig keccak256 (repeatHeader keccak256) j) 14
        (repeatHeader keccak256 (j + 1)) [] = .ok ()) ∧
      (shippedEngine (quartetAddr 1)).verifySeal (fun _ => .ok (quartetAddr 1)) keccak256
        (ChainHeaderReader.ofHeaders MainnetChainConfig keccak256 (repeatHeader keccak256) 1)
        (repeatHeader keccak256 2) [] = .ok () ∧
      (repeatSnap keccak256).apply (shippedEngine (quartetAddr 1)).config
        (fun _ => .ok (quartetAddr 1)) keccak256 [repeatHeader keccak256 2] =
        .error .errRecentlySigned ∧
      (shippedEngine (quartetAddr 1)).Seal (fun _ => .ok (quartetAddr 1)) keccak256
        (ChainHeaderReader.ofHeaders MainnetChainConfig keccak256 (repeatHeader keccak256) 1)
        (repeatHeader keccak256 2) 1 = .ok .wait ∧
      (shippedEngine (quartetAddr 1)).snapshot (fun _ => .ok (quartetAddr 1)) keccak256
        (ChainHeaderReader.ofHeaders MainnetChainConfig keccak256 (repeatHeader keccak256) 2)
        2 ((repeatHeader keccak256 2).Hash keccak256) [] = .error .errRecentlySigned := by
  have hverify : ∀ j ≤ 1, (shippedEngine (quartetAddr 1)).verifyHeader
      (fun _ => .ok (quartetAddr 1)) keccak256 shuffle
      (ChainHeaderReader.ofHeaders MainnetChainConfig keccak256 (repeatHeader keccak256) j) 14
      (repeatHeader keccak256 (j + 1)) [] = .ok () := by
    intro j hj
    rcases (show j = 0 ∨ j = 1 by omega) with rfl | rfl
    · exact verifyHeader_repeat shuffle hj (snapshot_repeat_zero (by omega)) reachable_repeat_zero
        rfl rfl
    · exact verifyHeader_repeat shuffle hj (snapshot_repeat_one (by omega) le_rfl)
        reachable_repeat_one rfl rfl
  refine ⟨reachable_repeat_one, List.mem_toFinset.mpr List.mem_cons_self, hverify,
    verifySeal_repeat_two, ?_, Seal_repeat_two, snapshot_repeat_two (by omega) le_rfl⟩
  refine apply_cons_eq_error _ _ keccak256 rfl rfl rfl ?_
  rw [List.foldlM_cons, applyHeader_repeat_two rfl rfl]
  rfl

end Repeat

end Dpos

end PureChain
