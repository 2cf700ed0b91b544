import Mathlib.Data.List.Sort
import PureChain.Consensus.Dpos.Verify

/-!
# The extra-data of a Dpos header

Four functions of the engine read or write the extra-data of a header, each
with its own offsets:

* `Dpos.Prepare` writes it: the caller's bytes cut or padded to a 28-byte
  vanity, the 4-byte hash of the next fork, at an epoch block the 20 bytes of
  each validator `getTopValidators` returns, sorted, and a zero 65-byte seal
  (`PureChain.Dpos.prepareExtra`);
* `Dpos.verifyHeader` checks its length: a vanity and a seal, and between them
  nothing off an epoch and a whole number of addresses at one;
* `Snapshot.apply` parses the addresses of an epoch header
  (`PureChain.Dpos.checkpointValidators`);
* `Dpos.Finalize` compares them, byte for byte, with the validators the
  validator contract returns (`PureChain.Dpos.checkEpochValidators`).

All four agree on one layout, `pre ++ validatorBytes vals ++ seal` with a
32-byte `pre` (`PureChain.Dpos.prepareExtra_layout`), and each of them is read
back from that layout. The sort `Prepare` makes is the identity on a list that
is already strictly ascending, as `getTopValidators` returns it; only then does
the parsed list come back as the validator list of the snapshot.
-/

namespace PureChain

namespace Dpos

/-- `nextForkHashSize`: the bytes at the end of the vanity that hold the hash of
the next fork. -/
def nextForkHashSize : ℕ := 4

/-- `sort.Sort(validatorsAscending(vs))`: the validators in the order of
`bytes.Compare`. `sort.Sort` is not stable, but two addresses that compare equal
are the same bytes, so every sort of `vs` is this list. -/
def validatorsAscending (vs : List Address) : List Address := vs.mergeSort fun a b => a ≤ b

/-- The extra-data `Dpos.Prepare` leaves in the header of block `number`, from
the extra-data `extra` it was given, the hash `nextForkHash` that
`forkid.NextForkHash` computes and, at an epoch block, the validators
`getTopValidators` returns. -/
def prepareExtra (config : DposConfig) (number : UInt64) (extra : List UInt8)
    (nextForkHash : Vector UInt8 4) (newValidators : List Address) : List UInt8 :=
  let extra := if extra.length < extraVanity - nextForkHashSize then
      extra ++ List.replicate (extraVanity - nextForkHashSize - extra.length) 0
    else extra
  let extra := extra.take (extraVanity - nextForkHashSize) ++ nextForkHash.toList
  let extra := if number % config.Epoch = 0 then
      extra ++ validatorBytes (validatorsAscending newValidators)
    else extra
  -- add extra seal space
  extra ++ List.replicate extraSeal 0

/-- The epoch check of `Dpos.Finalize`: at an epoch block the bytes
`Extra[extraVanity : len(Extra)-extraSeal]` are those of the validators
`doSomethingAtEpoch` returns, copied one after the other at `20 i`. The slice
panics when its end falls below its start, that is on fewer than
`extraVanity + extraSeal` bytes. -/
def checkEpochValidators (config : DposConfig) (header : Header)
    (newValidators : List Address) : Except Error Unit :=
  if header.number % config.Epoch = 0 then
    let extraSuffix := header.Extra.length - extraSeal
    if header.Extra.length < extraVanity + extraSeal then throw .panic
    else if (header.Extra.take extraSuffix).drop extraVanity ≠ validatorBytes newValidators then
      throw .errMismatchingEpochValidators
    else pure ()
  else pure ()

/-! ### The layout `Prepare` writes -/

theorem length_validatorsAscending (vs : List Address) :
    (validatorsAscending vs).length = vs.length :=
  List.length_mergeSort vs

/-- A strictly ascending list is its own sort. -/
theorem validatorsAscending_of_sortedLT {vs : List Address} (hvs : vs.SortedLT) :
    validatorsAscending vs = vs :=
  List.mergeSort_eq_self _ (hvs.pairwise.imp le_of_lt)

/-- **The layout of the extra-data `Prepare` writes**: 32 bytes of vanity and
fork hash, the sorted validators at an epoch block and none elsewhere, and 65
zero bytes. -/
theorem prepareExtra_layout (config : DposConfig) (number : UInt64) (extra : List UInt8)
    (nextForkHash : Vector UInt8 4) (vs : List Address) :
    ∃ pre, pre.length = extraVanity ∧
      prepareExtra config number extra nextForkHash vs =
        pre ++ validatorBytes (if number % config.Epoch = 0 then validatorsAscending vs else []) ++
          List.replicate extraSeal 0 := by
  let padded := if extra.length < extraVanity - nextForkHashSize then
      extra ++ List.replicate (extraVanity - nextForkHashSize - extra.length) 0
    else extra
  -- the padding makes the vanity long enough for the cut to keep 28 bytes
  have hpadded : extraVanity - nextForkHashSize ≤ padded.length := by
    simp only [padded]
    split_ifs with h
    · rw [List.length_append, List.length_replicate]
      omega
    · omega
  refine ⟨padded.take (extraVanity - nextForkHashSize) ++ nextForkHash.toList, ?_, ?_⟩
  · rw [List.length_append, List.length_take, Vector.length_toList, Nat.min_eq_left hpadded]
    rfl
  · by_cases hepoch : number % config.Epoch = 0
    · simp only [prepareExtra, hepoch, if_true, padded]
    · simp only [prepareExtra, hepoch, if_false, padded, validatorBytes, List.flatMap_nil,
        List.append_nil]

theorem length_prepareExtra (config : DposConfig) (number : UInt64) (extra : List UInt8)
    (nextForkHash : Vector UInt8 4) (vs : List Address) :
    (prepareExtra config number extra nextForkHash vs).length =
      extraVanity + (if number % config.Epoch = 0 then vs.length * 20 else 0) + extraSeal := by
  obtain ⟨pre, hpre, heq⟩ := prepareExtra_layout config number extra nextForkHash vs
  rw [heq, List.length_append, List.length_append, hpre, length_validatorBytes,
    List.length_replicate]
  split_ifs
  · rw [length_validatorsAscending]
  · rfl

/-! ### What the other three read of it -/

/-- `Snapshot.apply` parses the sorted validators back out of an epoch header
`Prepare` wrote. -/
theorem checkpointValidators_prepareExtra {config : DposConfig} {number : UInt64}
    (hepoch : number % config.Epoch = 0) (extra : List UInt8) (nextForkHash : Vector UInt8 4)
    (vs : List Address) :
    checkpointValidators (prepareExtra config number extra nextForkHash vs) =
      .ok (validatorsAscending vs) := by
  obtain ⟨pre, hpre, heq⟩ := prepareExtra_layout config number extra nextForkHash vs
  rw [heq, if_pos hepoch]
  exact checkpointValidators_append_validatorBytes hpre List.length_replicate _

/-- The bytes `Finalize` compares, `Extra[extraVanity : len(Extra)-extraSeal]`,
are the validator bytes `Prepare` wrote. -/
theorem slice_prepareExtra (config : DposConfig) (number : UInt64) (extra : List UInt8)
    (nextForkHash : Vector UInt8 4) (vs : List Address) :
    ((prepareExtra config number extra nextForkHash vs).take
        ((prepareExtra config number extra nextForkHash vs).length - extraSeal)).drop extraVanity =
      validatorBytes (if number % config.Epoch = 0 then validatorsAscending vs else []) := by
  obtain ⟨pre, hpre, heq⟩ := prepareExtra_layout config number extra nextForkHash vs
  rw [heq]
  generalize validatorBytes (if number % config.Epoch = 0 then validatorsAscending vs else []) = vb
  have hlen : (pre ++ vb ++ List.replicate extraSeal 0).length - extraSeal = (pre ++ vb).length := by
    rw [List.length_append, List.length_replicate, Nat.add_sub_cancel]
  rw [hlen, List.take_left, List.drop_left' hpre]

/-- `Finalize` accepts the epoch header `Prepare` wrote for the same list of
validators, once that list is sorted. -/
theorem checkEpochValidators_prepareExtra {config : DposConfig} {header : Header}
    {extra : List UInt8} {nextForkHash : Vector UInt8 4} {vs : List Address}
    (hextra : header.Extra = prepareExtra config header.number extra nextForkHash vs)
    (hsorted : validatorsAscending vs = vs) :
    checkEpochValidators config header vs = .ok () := by
  by_cases hepoch : header.number % config.Epoch = 0
  · -- an epoch header is long enough for the slice, and the slice is the list
    have hroom : ¬header.Extra.length < extraVanity + extraSeal := by
      rw [hextra, length_prepareExtra, if_pos hepoch]
      omega
    have hslice := slice_prepareExtra config header.number extra nextForkHash vs
    rw [← hextra, if_pos hepoch, hsorted] at hslice
    simp only [checkEpochValidators, hepoch, hroom, hslice, if_true, if_false, ne_eq,
      not_true_eq_false]
    rfl
  · simp only [checkEpochValidators, hepoch, if_false]
    rfl

section Verify

variable {p : Dpos} {recover : Header → Except Error Address}
  {keccak256 : List UInt8 → PureChain.Hash} {shuffle : UInt64 → (n : ℕ) → Equiv.Perm (Fin n)}
  {chain : ChainHeaderReader} {now : UInt64} {header : Header} {parents : List Header}

/-- **`verifyHeader` finds nothing wrong with the extra-data `Prepare` wrote**:
on such a header its checks are those of everything else. -/
theorem verifyHeader_prepareExtra {extra : List UInt8} {nextForkHash : Vector UInt8 4}
    {vs : List Address} (hextra : header.Extra = prepareExtra p.config header.number extra nextForkHash vs) :
    p.verifyHeader recover keccak256 shuffle chain now header parents = .ok () ↔
      header.Time ≤ now ∧ header.MixDigest = PureChain.Hash.zero ∧
      header.UncleHash = uncleHash keccak256 ∧
      VerifyForkHashes keccak256 chain.Config header false = .ok () ∧
      p.verifyCascadingFields recover keccak256 shuffle chain header parents = .ok () := by
  have hlen := length_prepareExtra p.config header.number extra nextForkHash vs
  rw [← hextra] at hlen
  -- the two checks of the extra-data hold of its length
  have hroom : extraVanity + extraSeal ≤ header.Extra.length := by
    rw [hlen]
    omega
  have hspan : if header.number % p.config.Epoch = 0 then
      (header.Extra.length - extraVanity - extraSeal) % 20 = 0
    else header.Extra.length - extraVanity - extraSeal = 0 := by
    rw [hlen]
    split_ifs <;> omega
  rw [verifyHeader_eq_ok]
  constructor
  · rintro ⟨htime, -, -, hmix, huncle, hfork, hcascade⟩
    exact ⟨htime, hmix, huncle, hfork, hcascade⟩
  · rintro ⟨htime, hmix, huncle, hfork, hcascade⟩
    exact ⟨htime, hroom, hspan, hmix, huncle, hfork, hcascade⟩

/-- Off an epoch, `verifyHeader` takes only an extra-data of vanity and seal. -/
theorem length_of_verifyHeader (hepoch : header.number % p.config.Epoch ≠ 0)
    (h : p.verifyHeader recover keccak256 shuffle chain now header parents = .ok ()) :
    header.Extra.length = extraVanity + extraSeal := by
  obtain ⟨-, hroom, hspan, -⟩ := verifyHeader_eq_ok.mp h
  rw [if_neg hepoch] at hspan
  omega

end Verify

/-- An epoch header that `Prepare` wrote for a strictly ascending list installs
that list as the validators of the snapshot, in the same order. -/
theorem applyHeader_prepareExtra {config : DposConfig} {recover : Header → Except Error Address}
    {snap snap' : Snapshot} {header : Header} {extra : List UInt8}
    {nextForkHash : Vector UInt8 4} {vs : List Address} (hvs : vs.SortedLT)
    (hextra : header.Extra = prepareExtra config header.number extra nextForkHash vs)
    (hepoch : 0 < header.number ∧ header.number % config.Epoch = 0)
    (h : applyHeader config recover snap header = .ok snap') :
    snap'.Validators = vs.toFinset ∧ snap'.validators = vs := by
  obtain ⟨v, -, -, -, hnext⟩ := (applyHeader_eq_ok config recover).mp h
  rw [if_pos hepoch] at hnext
  obtain ⟨vals, hvals, rfl⟩ := hnext
  rw [hextra, checkpointValidators_prepareExtra hepoch.2, validatorsAscending_of_sortedLT hvs]
    at hvals
  cases hvals
  exact ⟨rfl, (List.toFinset_sort _ hvs.nodup).mpr (hvs.pairwise.imp le_of_lt)⟩

/-! ### The writer and the three readers agree -/

theorem prepareExtra_agrees {vs : List Address} (hvs : vs.SortedLT) (extra : List UInt8)
    (nextForkHash : Vector UInt8 4) :
    (∀ (config : DposConfig) (number : UInt64), number % config.Epoch = 0 →
      (prepareExtra config number extra nextForkHash vs).length =
          extraVanity + vs.length * 20 + extraSeal ∧
        checkpointValidators (prepareExtra config number extra nextForkHash vs) = .ok vs) ∧
    (∀ (config : DposConfig) (number : UInt64), number % config.Epoch ≠ 0 →
      (prepareExtra config number extra nextForkHash vs).length = extraVanity + extraSeal) ∧
    (∀ (p : Dpos) (recover : Header → Except Error Address)
      (keccak256 : List UInt8 → PureChain.Hash) (shuffle : UInt64 → (n : ℕ) → Equiv.Perm (Fin n))
      (chain : ChainHeaderReader) (now : UInt64) (header : Header) (parents : List Header),
      header.Extra = prepareExtra p.config header.number extra nextForkHash vs →
      (p.verifyHeader recover keccak256 shuffle chain now header parents = .ok () ↔
        header.Time ≤ now ∧ header.MixDigest = PureChain.Hash.zero ∧
        header.UncleHash = uncleHash keccak256 ∧
        VerifyForkHashes keccak256 chain.Config header false = .ok () ∧
        p.verifyCascadingFields recover keccak256 shuffle chain header parents = .ok ())) ∧
    (∀ (p : Dpos) (recover : Header → Except Error Address)
      (keccak256 : List UInt8 → PureChain.Hash) (shuffle : UInt64 → (n : ℕ) → Equiv.Perm (Fin n))
      (chain : ChainHeaderReader) (now : UInt64) (header : Header) (parents : List Header),
      header.number % p.config.Epoch ≠ 0 →
      p.verifyHeader recover keccak256 shuffle chain now header parents = .ok () →
      header.Extra.length = extraVanity + extraSeal) ∧
    (∀ (config : DposConfig) (recover : Header → Except Error Address) (snap snap' : Snapshot)
      (header : Header),
      header.Extra = prepareExtra config header.number extra nextForkHash vs →
      0 < header.number ∧ header.number % config.Epoch = 0 →
      applyHeader config recover snap header = .ok snap' →
      snap'.Validators = vs.toFinset ∧ snap'.validators = vs) ∧
    (∀ (config : DposConfig) (header : Header),
      header.Extra = prepareExtra config header.number extra nextForkHash vs →
      checkEpochValidators config header vs = .ok ()) := by
  have hsorted := validatorsAscending_of_sortedLT hvs
  refine ⟨fun config number hepoch => ⟨?_, ?_⟩, fun config number hepoch => ?_,
    fun _ _ _ _ _ _ _ _ hextra => verifyHeader_prepareExtra hextra,
    fun _ _ _ _ _ _ _ _ hepoch h => length_of_verifyHeader hepoch h,
    fun _ _ _ _ _ hextra hepoch h => applyHeader_prepareExtra hvs hextra hepoch h,
    fun _ _ hextra => checkEpochValidators_prepareExtra hextra hsorted⟩
  · rw [length_prepareExtra, if_pos hepoch]
  · rw [checkpointValidators_prepareExtra hepoch, hsorted]
  · rw [length_prepareExtra, if_neg hepoch, Nat.add_zero]

theorem prepareExtra_agrees_pair :
    List.SortedLT [Address.ofNat 1, Address.ofNat 2] ∧
      checkpointValidators (prepareExtra ⟨3, 100, by decide⟩ 200 [] (Vector.replicate 4 0)
        [Address.ofNat 1, Address.ofNat 2]) = .ok [Address.ofNat 1, Address.ofNat 2] := by
  have hvs : List.SortedLT [Address.ofNat 1, Address.ofNat 2] :=
    List.sortedLT_iff_pairwise.mpr (by decide)
  exact ⟨hvs, ((prepareExtra_agrees hvs [] (Vector.replicate 4 0)).1 ⟨3, 100, by decide⟩ 200
    (by decide)).2⟩

end Dpos

end PureChain
