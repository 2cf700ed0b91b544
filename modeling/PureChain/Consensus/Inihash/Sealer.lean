import PureChain.Consensus.Inihash.Consensus
import PureChain.Crypto.VersaHash

/-!
# The Inihash miner, and what it and the verifier accept

`Inihash.mine` searches for a nonce. From a seed it computes
`VersaHash(SealHash(header), nonce, ExtraNonce)` over the eight big-endian bytes
of the nonce, and stops at the first nonce whose digest, read as a big-endian
number, is at most `2^256 / Difficulty`; the header sealed with that nonce is the
block it reports. `verifySeal` makes the same comparison on the header's own
nonce, and the nonce is not part of the seal hash, so what the miner finds the
verifier accepts (`verifySeal_of_mine`).

Both compare `new(big.Int).SetBytes(result)` with the target, whatever `result`
is. When the key `VersaHash` derives is outside the range of secp256k1, `Sign`
fails, `VersaHash` returns the empty slice, and its value zero meets every
target: the nonce is mined and verified without any digest
(`verifySeal_accepts_failed_signature`).

A remote miner fetches the seal hash of the current block and submits two
nonces for it; `remoteSealer.submitWork` seals the pending block filed under
that hash with them and checks it with `verifySeal`, so on an engine that checks
proofs of work the miner, the remote sealer and the verifier agree
(`seal_agree`). A sealer started with `noverify` skips the check and takes any
nonces (`submitWork_noverify_accepts`); a valid solution is still refused when no
result channel is assigned, when the block is seven or more behind the current
one, or when the miner does not read it at once.

The abort channel, the hash-rate meter and the threads are left out: the search
is given `fuel` attempts, after which it has found nothing. A difficulty of zero
makes the code's division panic; the lemmas assume a positive one, as every
difficulty `calcDifficulty` prescribes is.
-/

namespace PureChain

namespace Inihash

open Rlp

section Mine

variable (keccak256 : List UInt8 → PureChain.Hash)
  (VersaHash : List UInt8 → List UInt8 → List UInt8 → List UInt8)

/-- `Inihash.mine`, for `fuel` attempts from `nonce`: the header sealed with the
first nonce whose digest meets the target. `nonce++` wraps, as on a `uint64`. -/
def mine (header : Header) : ℕ → UInt64 → Option Header
  | 0, _ => none
  | fuel + 1, nonce =>
    let hash := (SealHash keccak256 header).bytes.toList
    let target := 2 ^ 256 / header.Difficulty
    let result := VersaHash hash (encodeNonce nonce).toList header.ExtraNonce.toList
    if beValue result ≤ target then some { header with Nonce := encodeNonce nonce }
    else mine header fuel (nonce + 1)

end Mine

section Agree

variable {keccak256 : List UInt8 → PureChain.Hash}
  {VersaHash : List UInt8 → List UInt8 → List UInt8 → List UInt8}
  {inihash : Inihash} {header sealed : Header}

/-- The seal hash does not read the nonce. -/
@[simp] theorem SealHash_withNonce (nonce : BlockNonce) :
    SealHash keccak256 { header with Nonce := nonce } = SealHash keccak256 header := rfl

/-- **What the miner reports**: a header that differs from its own in the nonce
only, at a nonce whose digest meets the target. -/
theorem mine_eq_some : ∀ {fuel : ℕ} {seed : UInt64},
    mine keccak256 VersaHash header fuel seed = some sealed →
      ∃ nonce : UInt64, sealed = { header with Nonce := encodeNonce nonce } ∧
        beValue (VersaHash (SealHash keccak256 header).bytes.toList (encodeNonce nonce).toList
          header.ExtraNonce.toList) ≤ 2 ^ 256 / header.Difficulty
  | 0, _, h => by cases h
  | fuel + 1, seed, h => by
    dsimp only [mine] at h
    -- either this nonce is found, or the search goes on from the next one
    split at h
    · rename_i hfound
      cases h
      exact ⟨seed, rfl, hfound⟩
    · exact mine_eq_some h

/-- A nonce whose digest meets the target ends the search at once. -/
theorem mine_of_meets {fuel : ℕ} {seed : UInt64}
    (hfound : beValue (VersaHash (SealHash keccak256 header).bytes.toList (encodeNonce seed).toList
      header.ExtraNonce.toList) ≤ 2 ^ 256 / header.Difficulty) :
    mine keccak256 VersaHash header (fuel + 1) seed = some { header with Nonce := encodeNonce seed } :=
  if_pos hfound

/-- Outside the fake modes `verifySeal` is the proof-of-work comparison. -/
theorem verifySeal_eq_ok (hmode : ¬(inihash.PowMode = .ModeFake ∨ inihash.PowMode = .ModeFullFake))
    (hd : header.Difficulty ≠ 0) :
    verifySeal keccak256 VersaHash inihash header = .ok () ↔
      beValue (VersaHash (SealHash keccak256 header).bytes.toList header.Nonce.toList
        header.ExtraNonce.toList) ≤ 2 ^ 256 / header.Difficulty := by
  unfold verifySeal
  rw [if_neg hmode]
  exact verifyPoW_eq_ok hd

/-- **The verifier accepts what the miner finds**, in every mode that checks the
proof of work. -/
theorem verifySeal_of_mine (hmode : ¬(inihash.PowMode = .ModeFake ∨ inihash.PowMode = .ModeFullFake))
    (hd : header.Difficulty ≠ 0) {fuel : ℕ} {seed : UInt64}
    (h : mine keccak256 VersaHash header fuel seed = some sealed) :
    verifySeal keccak256 VersaHash inihash sealed = .ok () := by
  obtain ⟨nonce, rfl, hfound⟩ := mine_eq_some h
  have hd' : ({ header with Nonce := encodeNonce nonce } : Header).Difficulty ≠ 0 := hd
  exact (verifySeal_eq_ok hmode hd').mpr hfound

end Agree

/-- **A failed signature meets every target.** For any SHA-256, signature,
Keccak-256, header of positive difficulty and seed whose derived key is zero or
at least the order of secp256k1, `VersaHash` gives the empty slice rather than a
digest; the miner reports the header sealed with the seed at its first attempt,
and the verifier accepts it. -/
theorem verifySeal_accepts_failed_signature (keccak256 : List UInt8 → PureChain.Hash)
    (sha256 : List UInt8 → Vector UInt8 32) (schnorr : ℕ → Vector UInt8 32 → Vector UInt8 64)
    (inihash : Inihash)
    (hmode : ¬(inihash.PowMode = .ModeFake ∨ inihash.PowMode = .ModeFullFake))
    (header : Header) (hd : header.Difficulty ≠ 0) (seed : UInt64) (fuel : ℕ)
    (hkey : let key := (versaHash.versaKey sha256 (SealHash keccak256 header).bytes.toList
        (encodeNonce seed).toList header.ExtraNonce.toList)
      key = 0 ∨ versaHash.CurveN ≤ key) :
    let sealed : Header := { header with Nonce := encodeNonce seed }
    versaHash.VersaHash sha256 schnorr (SealHash keccak256 sealed).bytes.toList sealed.Nonce.toList
        sealed.ExtraNonce.toList = [] ∧
      mine keccak256 (versaHash.VersaHash sha256 schnorr) header (fuel + 1) seed = some sealed ∧
      verifySeal keccak256 (versaHash.VersaHash sha256 schnorr) inihash sealed = .ok () := by
  intro sealed
  -- the empty slice is the value zero, at most any target
  have hempty : versaHash.VersaHash sha256 schnorr (SealHash keccak256 header).bytes.toList
      (encodeNonce seed).toList header.ExtraNonce.toList = [] :=
    versaHash.VersaHash_of_key_out_of_range hkey
  have hfound : beValue (versaHash.VersaHash sha256 schnorr (SealHash keccak256 header).bytes.toList
      (encodeNonce seed).toList header.ExtraNonce.toList) ≤ 2 ^ 256 / header.Difficulty := by
    rw [hempty, versaHash.beValue_nil]
    exact Nat.zero_le _
  have hmine : mine keccak256 (versaHash.VersaHash sha256 schnorr) header (fuel + 1) seed =
      some sealed := mine_of_meets hfound
  exact ⟨hempty, hmine, verifySeal_of_mine hmode hd hmine⟩

/-- The witness: a SHA-256 that maps everything to zero bytes derives the key
zero, on a header of difficulty one. -/
theorem verifySeal_accepts_failed_signature_zero :
    let header : Header := { Header.zero with Difficulty := 1 }
    let sealed : Header := { header with Nonce := encodeNonce 0 }
    ¬((⟨.ModeNormal, 0⟩ : Inihash).PowMode = .ModeFake ∨
        (⟨.ModeNormal, 0⟩ : Inihash).PowMode = .ModeFullFake) ∧
      header.Difficulty ≠ 0 ∧
      (versaHash.versaKey (fun _ => Vector.replicate 32 0)
          (SealHash (fun _ => Hash.zero) header).bytes.toList (encodeNonce 0).toList
          header.ExtraNonce.toList = 0 ∨
        versaHash.CurveN ≤ versaHash.versaKey (fun _ => Vector.replicate 32 0)
          (SealHash (fun _ => Hash.zero) header).bytes.toList (encodeNonce 0).toList
          header.ExtraNonce.toList) ∧
      versaHash.VersaHash (fun _ => Vector.replicate 32 0) (fun _ _ => Vector.replicate 64 0)
          (SealHash (fun _ => Hash.zero) sealed).bytes.toList sealed.Nonce.toList
          sealed.ExtraNonce.toList = [] ∧
        mine (fun _ => Hash.zero)
            (versaHash.VersaHash (fun _ => Vector.replicate 32 0) (fun _ _ => Vector.replicate 64 0))
            header 1 0 = some sealed ∧
        verifySeal (fun _ => Hash.zero)
            (versaHash.VersaHash (fun _ => Vector.replicate 32 0) (fun _ _ => Vector.replicate 64 0))
            ⟨.ModeNormal, 0⟩ sealed = .ok () := by
  intro header sealed
  have h : ¬((⟨.ModeNormal, 0⟩ : Inihash).PowMode = .ModeFake ∨
        (⟨.ModeNormal, 0⟩ : Inihash).PowMode = .ModeFullFake) ∧ header.Difficulty ≠ 0 ∧
      (versaHash.versaKey (fun _ => Vector.replicate 32 0)
          (SealHash (fun _ => Hash.zero) header).bytes.toList (encodeNonce 0).toList
          header.ExtraNonce.toList = 0 ∨
        versaHash.CurveN ≤ versaHash.versaKey (fun _ => Vector.replicate 32 0)
          (SealHash (fun _ => Hash.zero) header).bytes.toList (encodeNonce 0).toList
          header.ExtraNonce.toList) :=
    ⟨by decide, by decide, Or.inl (by decide)⟩
  exact ⟨h.1, h.2.1, h.2.2, verifySeal_accepts_failed_signature (fun _ => Hash.zero)
    (fun _ => Vector.replicate 32 0) (fun _ _ => Vector.replicate 64 0) ⟨.ModeNormal, 0⟩ h.1
    header h.2.1 0 0 h.2.2⟩

/-! ### The remote sealer -/

/-- `staleThreshold`: how many blocks behind the current one a solution is still
taken. -/
def staleThreshold : UInt64 := 7

/-- `remoteSealer`, the fields its bookkeeping and `submitWork` read: the pending
blocks by seal hash, the current block, the engine, `noverify`, and `results`,
whether a result channel is assigned. A block is its header here: `submitWork`
reads nothing else of it, and `WithSeal` replaces only the header. -/
structure remoteSealer where
  works : PureChain.Hash → Option Header
  currentBlock : Option Header
  inihash : Inihash
  noverify : Bool
  results : Bool

section Remote

variable (keccak256 : List UInt8 → PureChain.Hash)
  (VersaHash : List UInt8 → List UInt8 → List UInt8 → List UInt8)

/-- `remoteSealer.makeWork`, its bookkeeping: the block becomes the current one
and is filed under its seal hash. The four strings of the work package are left
out. -/
def makeWork (s : remoteSealer) (block : Header) : remoteSealer :=
  let hash := SealHash keccak256 block
  { s with
    currentBlock := some block
    works := fun h => if h = hash then some block else s.works h }

/-- `remoteSealer.submitWork`: the solution it sends to `results`, or `none`
where the code returns `false`. `ready` is whether the miner takes the solution
at once: the send is a `select` with a `default` that gives up. -/
def submitWork (s : remoteSealer) (nonce extraNonce : BlockNonce) (sealhash : PureChain.Hash)
    (ready : Bool) : Option Header :=
  match s.currentBlock, s.works sealhash with
  | none, _ => none
  | some _, none => none
  | some current, some block =>
    let header := { block with Nonce := nonce, ExtraNonce := extraNonce }
    if s.noverify = false ∧ verifySeal keccak256 VersaHash s.inihash header ≠ .ok () then none
    else if s.results = false then none
    -- the solution is the block with the new header; its number is the block's
    else if header.number + staleThreshold > current.number then
      if ready then some header else none
    else none

end Remote

section RemoteSpec

variable {keccak256 : List UInt8 → PureChain.Hash}
  {VersaHash : List UInt8 → List UInt8 → List UInt8 → List UInt8}
  {inihash : Inihash} {s : remoteSealer} {header : Header}

/-- The block `makeWork` was handed is pending under its seal hash. -/
theorem makeWork_works_self (s : remoteSealer) (block : Header) :
    (makeWork keccak256 s block).works (SealHash keccak256 block) = some block := by
  simp [makeWork]

/-- **What an accepted submission is**: a pending block under the submitted seal
hash, sealed with the two nonces, whose proof of work checks unless `noverify`,
sent to an assigned channel, not stale against the current block, and taken. -/
theorem submitWork_eq_some {nonce extraNonce : BlockNonce} {sealhash : PureChain.Hash}
    {ready : Bool} {solution : Header} :
    submitWork keccak256 VersaHash s nonce extraNonce sealhash ready = some solution ↔
      ∃ current block, s.currentBlock = some current ∧ s.works sealhash = some block ∧
        solution = { block with Nonce := nonce, ExtraNonce := extraNonce } ∧
        (s.noverify = true ∨ verifySeal keccak256 VersaHash s.inihash solution = .ok ()) ∧
        s.results = true ∧ current.number < solution.number + staleThreshold ∧ ready = true := by
  constructor
  · intro h
    unfold submitWork at h
    -- no current block, or no pending block: the code returns at once
    split at h
    · cases h
    · cases h
    rename_i current block hc hw
    dsimp only at h
    split_ifs at h with hv hr hst hready
    cases h
    refine ⟨current, block, hc, hw, rfl, ?_, Bool.not_eq_false _ ▸ hr, hst, hready⟩
    cases hn : s.noverify
    · exact .inr (Decidable.of_not_not fun hne => hv ⟨hn, hne⟩)
    · exact .inl rfl
  · rintro ⟨current, block, hc, hw, rfl, hv, hr, hst, rfl⟩
    have hchk : ¬(s.noverify = false ∧ verifySeal keccak256 VersaHash s.inihash
        { block with Nonce := nonce, ExtraNonce := extraNonce } ≠ .ok ()) := by
      rintro ⟨hn, hne⟩
      rcases hv with h | h
      · rw [hn] at h
        cases h
      · exact hne h
    unfold submitWork
    rw [hc, hw]
    dsimp only
    rw [if_neg hchk, if_neg (by rw [hr]; decide), if_pos hst, if_pos rfl]

end RemoteSpec

/-- **The miner, the remote sealer and the verifier agree**, on an engine that
checks proofs of work and a remote sealer that verifies: the seal hash ignores
the two nonces and the mix digest; the miner's test on a nonce is the verifier's
verdict on the header it emits; and a pending block, submitted with any two
nonces to a sealer with a result channel, not stale and read at once, is
accepted exactly when the verifier accepts it with those nonces. -/
theorem seal_agree (keccak256 : List UInt8 → PureChain.Hash)
    (VersaHash : List UInt8 → List UInt8 → List UInt8 → List UInt8) (inihash : Inihash)
    (hmode : ¬(inihash.PowMode = .ModeFake ∨ inihash.PowMode = .ModeFullFake))
    (h : Header) (hd : 0 < h.Difficulty) :
    (∀ n x md, SealHash keccak256 { h with Nonce := n, ExtraNonce := x, MixDigest := md } =
      SealHash keccak256 h) ∧
    (∀ (nonce : UInt64) (fuel : ℕ),
      (beValue (VersaHash (SealHash keccak256 h).bytes.toList (encodeNonce nonce).toList
          h.ExtraNonce.toList) ≤ 2 ^ 256 / h.Difficulty ↔
        verifySeal keccak256 VersaHash inihash { h with Nonce := encodeNonce nonce } = .ok ()) ∧
      (beValue (VersaHash (SealHash keccak256 h).bytes.toList (encodeNonce nonce).toList
          h.ExtraNonce.toList) ≤ 2 ^ 256 / h.Difficulty →
        mine keccak256 VersaHash h (fuel + 1) nonce = some { h with Nonce := encodeNonce nonce })) ∧
    (∀ (s : remoteSealer) (current : Header) (n x : BlockNonce),
      s.inihash = inihash → s.noverify = false → s.results = true →
      s.currentBlock = some current → current.number < h.number + staleThreshold →
      s.works (SealHash keccak256 h) = some h →
      ((submitWork keccak256 VersaHash s n x (SealHash keccak256 h) true).isSome ↔
        verifySeal keccak256 VersaHash inihash { h with Nonce := n, ExtraNonce := x } = .ok ())) := by
  have hd' : h.Difficulty ≠ 0 := Nat.pos_iff_ne_zero.mp hd
  refine ⟨fun _ _ _ => rfl, fun nonce fuel => ⟨?_, mine_of_meets⟩, ?_⟩
  · -- the emitted header differs from `h` in the nonce, which the seal hash ignores
    have hds : ({ h with Nonce := encodeNonce nonce } : Header).Difficulty ≠ 0 := hd'
    exact (verifySeal_eq_ok hmode hds).symm
  intro s current n x hi hn hr hc hst hw
  subst hi
  rw [Option.isSome_iff_exists]
  constructor
  · rintro ⟨solution, hs⟩
    obtain ⟨-, block, -, hw', rfl, hv, -⟩ := submitWork_eq_some.1 hs
    rw [hw] at hw'
    cases hw'
    rw [hn] at hv
    exact hv.resolve_left Bool.false_ne_true
  · intro hv
    exact ⟨_, submitWork_eq_some.2 ⟨current, h, hc, hw, rfl, .inr hv, hr, hst, rfl⟩⟩

/-- A header of difficulty one whose digest is the empty slice, pending at a
verifying sealer: the miner's test holds, and the sealer takes the submission. -/
theorem seal_agree_empty_digest :
    let h : Header := { Header.zero with Difficulty := 1 }
    let s : remoteSealer := makeWork (fun _ => Hash.zero) ⟨fun _ => none, none, ⟨.ModeNormal, 0⟩,
      false, true⟩ h
    ¬((⟨.ModeNormal, 0⟩ : Inihash).PowMode = .ModeFake ∨
        (⟨.ModeNormal, 0⟩ : Inihash).PowMode = .ModeFullFake) ∧ 0 < h.Difficulty ∧
      verifySeal (fun _ => Hash.zero) (fun _ _ _ => []) ⟨.ModeNormal, 0⟩
        { h with Nonce := encodeNonce 0 } = .ok () ∧
      (submitWork (fun _ => Hash.zero) (fun _ _ _ => []) s (encodeNonce 5) (encodeNonce 9)
        (SealHash (fun _ => Hash.zero) h) true).isSome = true := by
  intro h s
  have hmode : ¬((⟨.ModeNormal, 0⟩ : Inihash).PowMode = .ModeFake ∨
      (⟨.ModeNormal, 0⟩ : Inihash).PowMode = .ModeFullFake) := by decide
  have hd : 0 < h.Difficulty := by decide
  have hagree := seal_agree (fun _ => Hash.zero) (fun _ _ _ => []) ⟨.ModeNormal, 0⟩ hmode h hd
  have hv : verifySeal (fun _ => Hash.zero) (fun _ _ _ => []) ⟨.ModeNormal, 0⟩
      { h with Nonce := encodeNonce 5, ExtraNonce := encodeNonce 9 } = .ok () := by decide
  exact ⟨hmode, hd, ((hagree.2.1 0 0).1).mp (by decide),
    (hagree.2.2 s h _ _ rfl rfl rfl rfl (by decide) (makeWork_works_self _ h)).mpr hv⟩

/-- **A sealer with `noverify` takes what the verifier rejects**: a digest of
all ones misses the target of difficulty two, yet the pending block is accepted. -/
theorem submitWork_noverify_accepts :
    let h : Header := { Header.zero with Difficulty := 2 }
    let s : remoteSealer := makeWork (fun _ => Hash.zero) ⟨fun _ => none, none, ⟨.ModeNormal, 0⟩,
      true, true⟩ h
    (submitWork (fun _ => Hash.zero) (fun _ _ _ => List.replicate 32 255) s (encodeNonce 0)
        (encodeNonce 0) (SealHash (fun _ => Hash.zero) h) true).isSome = true ∧
      verifySeal (fun _ => Hash.zero) (fun _ _ _ => List.replicate 32 255) ⟨.ModeNormal, 0⟩
        { h with Nonce := encodeNonce 0, ExtraNonce := encodeNonce 0 } ≠ .ok () := by
  decide

end Inihash

end PureChain
