import Mathlib.Data.List.Infix
import PureChain.Lib.Merkle
import PureChain.Lib.Rlp
import PureChain.Common.Hexutil

/-!
# Proof of retrievability: checking a storage challenge

A validator challenges a storage provider and checks the provider's answer in
`verifyTask` (`miner/por_worker.go`). The answer holds, for challenge indices
`seed + i`, a path of hex strings: rows `[l, r]` of a Merkle authentication path
and a last row holding the root. `verifyTree` walks a path: it hashes each row,
`keccak256(hex(l) ‖ hex(r))`, and requires the digest of a row to occur in the
next one. `verifyLeaf` recomputes the leaf of the challenge by iterated
Keccak-256 from the seed and compares it with the first row. The roots of all
paths are then combined by `BuildTreeFromRetrievalAddresses`, which builds a
Merkle tree level by level, pairing the last node of an odd level with itself.

What the model establishes:

* on a non-empty list of roots the tree builder stops and returns a tree whose
  root is the Merkle root of the decoded roots (`Merkle.root`), every inner
  node the hash of its children (`BuildTreeFromRetrievalAddresses_root`); on the
  empty list its loop never ends, and `verifyTask` hands it the empty list
  whenever no path is present, so it never returns then
  (`PureChain.miner.BuildTreeFromRetrievalAddresses_nil_loops`);
* `verifyTree` links rows by `strings.Contains`, not by equality, and a path
  whose only row is its root passes with no hashing at all
  (`PureChain.miner.verifyTree_accepts_unlinked`);
* `verifyTree` reads the first entry of the last row without checking it
  exists, `verifyLeaf` reads the second entry of the first row the same way, and
  `verifyLeaf`'s loop `for i := uint64(0); i <= index; i++` never ends when
  `index` is the largest `uint64` (`PureChain.miner.verifyLeaf_not_total`).

`json.Unmarshal` is the standard library's: the checks see what it decoded a path
into, a `[][]string`, or `none` when it failed (the parameter `unmarshal` of
`verifyTask`). Keccak-256 is a parameter. `rand.Intn(100) < 10` is a parameter
`sample` of `verifyTask`, any sequence of coin flips. Loops that may run
forever take a `fuel` argument and give `none` when it runs out. The timing and
logging are left out.
-/

namespace PureChain

/-! ### Hex strings, substrings and little-endian words -/

namespace hex

/-- The errors of `hex.DecodeString`. -/
inductive Error where
  | InvalidByteError (c : Char)
  | ErrLength
  deriving DecidableEq, Repr

/-- `hex.DecodeString`: the bytes of the pairs of hex digits before the first
error, with the error (`none` for `nil`). A lone last digit is `ErrLength`. -/
def DecodeString : List Char → List UInt8 × Option Error
  | [] => ([], none)
  | [p] => ([], some (if (hexutil.decodeNibble p).isSome then .ErrLength else .InvalidByteError p))
  | p :: q :: rest =>
    match hexutil.decodeNibble p, hexutil.decodeNibble q with
    | some a, some b =>
      let r := DecodeString rest
      (UInt8.ofNat (a * 16 + b) :: r.1, r.2)
    | none, _ => ([], some (.InvalidByteError p))
    | some _, none => ([], some (.InvalidByteError q))

/-- `hex.EncodeToString`: two lower-case digits per byte. -/
def EncodeToString (src : List UInt8) : List Char := hexutil.encodeHex src

/-- **Encoded bytes decode back, without error.** -/
theorem DecodeString_EncodeToString (src : List UInt8) :
    DecodeString (EncodeToString src) = (src, none) := by
  induction src with
  | nil => rfl
  | cons b src ih =>
    have hb : b.toNat < 256 := b.toNat_lt
    have hhi := hexutil.decodeNibble_digitChar (b.toNat / 16) (by omega)
    have hlo := hexutil.decodeNibble_digitChar (b.toNat % 16) (by omega)
    -- a byte is its high nibble times sixteen plus its low nibble
    have hbyte : UInt8.ofNat (b.toNat / 16 * 16 + b.toNat % 16) = b := by
      rw [show b.toNat / 16 * 16 + b.toNat % 16 = b.toNat by omega, UInt8.ofNat_toNat]
    simp only [EncodeToString, hexutil.encodeHex, List.flatMap_cons, List.cons_append,
      List.nil_append] at ih ⊢
    rw [DecodeString, hhi, hlo]
    simp only [ih, hbyte]

end hex

namespace strings

/-- `strings.Contains`: `substr` occurs in `s`. -/
def Contains (s substr : List Char) : Bool := decide (substr <:+: s)

theorem Contains_nil (s : List Char) : Contains s [] = true := by
  simp [Contains]

theorem Contains_append (pre substr post : List Char) :
    Contains (pre ++ (substr ++ post)) substr = true := by
  simp only [Contains, decide_eq_true_eq, ← List.append_assoc]
  exact List.infix_append pre substr post

end strings

namespace binary

/-- `binary.LittleEndian.PutUint64`: the eight bytes of `v`, the lowest first. -/
def PutUint64 (v : UInt64) : List UInt8 :=
  (List.range 8).map fun i => UInt8.ofNat (v.toNat >>> (8 * i))

end binary

namespace miner

open Rlp

section Por

variable (keccak256 : List UInt8 → PureChain.Hash)

/-- `legacySum`: the Keccak-256 digest of `data`. -/
def legacySum (data : List UInt8) : List UInt8 := (keccak256 data).bytes.toList

/-- `ParentHash`: the digest of the left node's data followed by the right's. -/
def ParentHash (leftNode rightNode : List UInt8) : List UInt8 :=
  legacySum keccak256 (leftNode ++ rightNode)

/-! ### `verifyTree` -/

/-- The loop of `verifyTree` over the rows from `idx` on, of a path of `len`
rows, `hexString` the digest of the row before. The last row passes when its
first entry contains that digest; any other row must be a pair of hex strings
one of which contains it (not checked on the first row). -/
def verifyRows (len : ℕ) :
    ℕ → List Char → List (List (List Char)) → Except String (Bool × List Char)
  | _, _, [] => pure (false, [])
  | idx, hexString, oneData :: rest =>
    if idx = len - 1 then
      -- `oneData[0]` of the last row
      match oneData with
      | [] => throw "index out of range"
      | d0 :: _ => if strings.Contains d0 hexString then pure (true, d0) else pure (false, [])
    else
      match oneData with
      | [l, r] =>
        if idx != 0 && !strings.Contains l hexString && !strings.Contains r hexString then
          pure (false, [])
        else
          match hex.DecodeString l, hex.DecodeString r with
          | (lb, none), (rb, none) =>
            verifyRows len (idx + 1) (hex.EncodeToString (ParentHash keccak256 lb rb)) rest
          | _, _ => pure (false, [])
      | _ => pure (false, [])

/-- `verifyTree`, on what `json.Unmarshal` decoded the path into, `none` when it
failed; a panic is an error. -/
def verifyTree (retData : Option (List (List (List Char)))) : Except String (Bool × List Char) :=
  match retData with
  | none => pure (false, [])
  | some retData => verifyRows keccak256 retData.length 0 [] retData

/-! ### `verifyLeaf` -/

/-- `oneLoopCount`: the hashes of one round of `verifyLeaf`. -/
def oneLoopCount : ℕ := 5

/-- One round of `verifyLeaf`'s loop. -/
def leafRound (middle : List UInt8) : List UInt8 := (legacySum keccak256)^[oneLoopCount] middle

/-- The loop `for i := uint64(0); i <= index; i++` of `verifyLeaf`, for at most
`fuel` rounds: `none` when they run out. -/
def leafRounds (index : UInt64) : ℕ → UInt64 → List UInt8 → Option (List UInt8)
  | 0, _, _ => none
  | fuel + 1, i, middle =>
    if i ≤ index then leafRounds index fuel (i + 1) (leafRound keccak256 middle) else some middle

/-- `verifyLeaf`: the leaf of `index`, iterated hashes of the seed, against the
first row: its first entry for an even index, its second for an odd one. `none`
when the loop has not ended within `fuel` rounds. -/
def verifyLeaf (fuel : ℕ) (seed index : UInt64) (retData : Option (List (List (List Char)))) :
    Option (Except String Bool) :=
  match retData with
  | none => some (pure false)
  | some retData =>
    (leafRounds keccak256 index fuel 0 (legacySum keccak256 (binary.PutUint64 seed))).map
      fun middle =>
        let middleHex := hex.EncodeToString middle
        match retData with
        | [] => throw "index out of range"
        | row :: _ =>
          if index % 2 = 0 then
            match row with
            | [] => throw "index out of range"
            | d0 :: _ => pure (middleHex == d0)
          else
            match row with
            | _ :: d1 :: _ => pure (middleHex == d1)
            | _ => throw "index out of range"

/-! ### `BuildTreeFromRetrievalAddresses` -/

/-- `TreeNode`: the code makes leaves, both sons `nil`, and inner nodes, both
sons set. -/
inductive TreeNode where
  | leaf (Data : List UInt8)
  | node (PtrLeftSon PtrRightSon : TreeNode) (Data : List UInt8)

/-- `*node.Data`. -/
def TreeNode.Data : TreeNode → List UInt8
  | .leaf d => d
  | .node _ _ d => d

/-- The first loop: the data paired into parents of two new leaves, the last
datum of an odd count with itself. -/
def initLevel : List (List UInt8) → List TreeNode
  | [] => []
  | [a] => [.node (.leaf a) (.leaf a) (ParentHash keccak256 a a)]
  | a :: b :: rest => .node (.leaf a) (.leaf b) (ParentHash keccak256 a b) :: initLevel rest

/-- The inner loop of the `for` loop: the nodes of a level paired into parents,
the last node of an odd level with itself. -/
def nextLevel : List TreeNode → List TreeNode
  | [] => []
  | [t] => [.node t t (ParentHash keccak256 t.Data t.Data)]
  | t :: u :: rest => .node t u (ParentHash keccak256 t.Data u.Data) :: nextLevel rest

/-- The `for` loop, which returns only on a level of one node; at most `fuel`
rounds. -/
def buildLoop : ℕ → List TreeNode → Option TreeNode
  | 0, _ => none
  | fuel + 1, listTemp =>
    match listTemp with
    | [t] => some t
    | _ => buildLoop fuel (nextLevel keccak256 listTemp)

/-- `BuildTreeFromRetrievalAddresses`: the roots decoded (the decoding errors
ignored), one root returned as a leaf, otherwise the loops. Its error is always
`nil` and left out; `none` when the loop has not returned within `fuel` rounds. -/
def BuildTreeFromRetrievalAddresses (fuel : ℕ) (seeds : List (List Char)) : Option TreeNode :=
  let retrievalDatas := seeds.map fun oneRoot => (hex.DecodeString oneRoot).1
  match retrievalDatas with
  | [d] => some (.leaf d)
  | _ => buildLoop keccak256 fuel (initLevel keccak256 retrievalDatas)

/-- Every inner node holds the hash of its sons' data. -/
def TreeNode.WellFormed : TreeNode → Prop
  | .leaf _ => True
  | .node l r d => d = ParentHash keccak256 l.Data r.Data ∧ l.WellFormed ∧ r.WellFormed

/-! ### `verifyTask` -/

/-- `challengeResult`, the commit server's answer: `Paths` is a Go map from
challenge index to path, its keys distinct. -/
structure challengeResult where
  TaskId : Int64
  Success : Bool
  Paths : List (UInt64 × List Char)
  ChallengeCount : Int64
  paths_nodup : (Paths.map Prod.fst).Nodup

/-- `getMaxVerifyLeafCount`. -/
def getMaxVerifyLeafCount (count : ℕ) : ℕ := 1 + count / 1000

variable (unmarshal : List Char → Option (List (List (List Char)))) (sample : UInt64 → Bool)
  (fuel : ℕ) (seed index : UInt64) (result : challengeResult)

/-- The loop of `verifyTask` over the indices `i`, collecting the roots of the
paths present; a leaf is checked when `sample i` and fewer than
`maxVerifyLeafCount` were. `none` when a loop ran out of fuel, `.error` a
panic, `.ok none` a failed check, and `.ok (some roots)` the roots. -/
def verifyPaths (maxVerifyLeafCount : ℕ) :
    List UInt64 → ℕ → List (List Char) → Option (Except String (Option (List (List Char))))
  | [], _, roots => some (pure (some roots))
  | i :: is, verifyLeafCount, roots =>
    match result.Paths.lookup (seed + i) with
    | none => verifyPaths maxVerifyLeafCount is verifyLeafCount roots
    | some path =>
      match verifyTree keccak256 (unmarshal path) with
      | .error e => some (.error e)
      | .ok (false, _) => some (pure none)
      | .ok (true, rootHash) =>
        if sample i && verifyLeafCount < maxVerifyLeafCount then
          match verifyLeaf keccak256 fuel (seed + i) index (unmarshal path) with
          | none => none
          | some (.error e) => some (.error e)
          | some (.ok false) => some (pure none)
          | some (.ok true) =>
            verifyPaths maxVerifyLeafCount is (verifyLeafCount + 1) (roots ++ [rootHash])
        else verifyPaths maxVerifyLeafCount is verifyLeafCount (roots ++ [rootHash])

/-- `verifyTask`: the paths of the indices `seed + i` for `i < uint64(ChallengeCount)`
checked, and the Merkle root of their roots as a number; `.ok none` is the
code's `nil`. -/
def verifyTask : Option (Except String (Option ℕ)) :=
  let count := result.ChallengeCount.toUInt64.toNat
  match verifyPaths keccak256 unmarshal sample fuel seed index result
      (getMaxVerifyLeafCount result.Paths.length) ((List.range count).map UInt64.ofNat) 0 [] with
  | none => none
  | some (.error e) => some (.error e)
  | some (.ok none) => some (pure none)
  | some (.ok (some roots)) =>
    (BuildTreeFromRetrievalAddresses keccak256 fuel roots).map fun node => pure (some (beValue node.Data))

/-! ### The tree the builder returns -/

variable {keccak256}

theorem map_Data_initLevel :
    ∀ ds, (initLevel keccak256 ds).map TreeNode.Data = Merkle.pairUp (ParentHash keccak256) ds
  | [] => rfl
  | [_] => rfl
  | a :: b :: rest => by
    rw [initLevel, List.map_cons, map_Data_initLevel rest, Merkle.pairUp_cons_cons]
    rfl

theorem map_Data_nextLevel : ∀ ts, (nextLevel keccak256 ts).map TreeNode.Data =
    Merkle.pairUp (ParentHash keccak256) (ts.map TreeNode.Data)
  | [] => rfl
  | [_] => rfl
  | t :: u :: rest => by
    rw [nextLevel, List.map_cons, map_Data_nextLevel rest, List.map_cons, List.map_cons,
      Merkle.pairUp_cons_cons]
    rfl

theorem length_nextLevel (ts : List TreeNode) :
    (nextLevel keccak256 ts).length = (ts.length + 1) / 2 := by
  rw [← List.length_map (f := TreeNode.Data), map_Data_nextLevel, Merkle.length_pairUp,
    List.length_map]

theorem wellFormed_initLevel :
    ∀ ds, ∀ t ∈ initLevel keccak256 ds, t.WellFormed keccak256
  | [] => by simp [initLevel]
  | [a] => by simp [initLevel, TreeNode.WellFormed, TreeNode.Data]
  | a :: b :: rest => by
    intro t ht
    rw [initLevel, List.mem_cons] at ht
    rcases ht with rfl | ht
    · simp [TreeNode.WellFormed, TreeNode.Data]
    · exact wellFormed_initLevel rest t ht

theorem wellFormed_nextLevel :
    ∀ {ts : List TreeNode}, (∀ t ∈ ts, t.WellFormed keccak256) →
      ∀ t ∈ nextLevel keccak256 ts, t.WellFormed keccak256
  | [], _ => by simp [nextLevel]
  | [u], hwf => by
    have hu := hwf u (List.mem_singleton_self u)
    simp [nextLevel, TreeNode.WellFormed, TreeNode.Data, hu]
  | u :: v :: rest, hwf => by
    intro t ht
    rw [nextLevel, List.mem_cons] at ht
    rcases ht with rfl | ht
    · exact ⟨rfl, hwf u (by simp), hwf v (by simp)⟩
    · exact wellFormed_nextLevel (fun w hw => hwf w (by simp [hw])) t ht

/-- **The loop returns the Merkle root** of a non-empty level, given as many
rounds as the level has nodes: each round halves the level. -/
theorem buildLoop_root :
    ∀ {fuel : ℕ} {ts : List TreeNode}, ts ≠ [] → ts.length ≤ fuel →
      (∀ t ∈ ts, t.WellFormed keccak256) →
      ∃ t, buildLoop keccak256 fuel ts = some t ∧
        Merkle.root (ParentHash keccak256) (ts.map TreeNode.Data) = some t.Data ∧
        t.WellFormed keccak256
  | 0, ts, hne, hlen, _ => absurd (List.length_pos_iff.mpr hne) (by omega)
  | fuel + 1, [t], _, _, hwf => ⟨t, rfl, by simp, hwf t (List.mem_singleton_self t)⟩
  | fuel + 1, t :: u :: rest, _, hlen, hwf => by
    have hlen' : 2 ≤ ((t :: u :: rest).map TreeNode.Data).length := by simp
    -- the next level is shorter, and not empty
    have hnext : (nextLevel keccak256 (t :: u :: rest)).length ≤ fuel := by
      rw [length_nextLevel]
      simp only [List.length_cons] at hlen ⊢
      omega
    have hne : nextLevel keccak256 (t :: u :: rest) ≠ [] := by
      rw [nextLevel]
      exact List.cons_ne_nil _ _
    obtain ⟨r, hr, hroot, hwfr⟩ := buildLoop_root hne hnext (wellFormed_nextLevel hwf)
    refine ⟨r, hr, ?_, hwfr⟩
    rw [Merkle.root_pairUp _ hlen', ← map_Data_nextLevel]
    exact hroot

/-- On the empty level the loop never returns: the next level is empty again. -/
theorem buildLoop_nil : ∀ fuel, buildLoop keccak256 fuel [] = none
  | 0 => rfl
  | fuel + 1 => buildLoop_nil fuel

/-- **On a non-empty list of roots the builder returns a well-formed tree whose
root is the Merkle root of the decoded roots**, within as many rounds as there
are roots. -/
theorem BuildTreeFromRetrievalAddresses_root {fuel : ℕ} {seeds : List (List Char)}
    (hne : seeds ≠ []) (hfuel : seeds.length ≤ fuel) :
    ∃ t, BuildTreeFromRetrievalAddresses keccak256 fuel seeds = some t ∧
      Merkle.root (ParentHash keccak256) (seeds.map fun s => (hex.DecodeString s).1) =
        some t.Data ∧ t.WellFormed keccak256 := by
  have hlen : (seeds.map fun s => (hex.DecodeString s).1).length = seeds.length :=
    List.length_map _
  rw [BuildTreeFromRetrievalAddresses]
  generalize seeds.map (fun s => (hex.DecodeString s).1) = ds at hlen ⊢
  match ds, hlen with
  | [], hlen => exact absurd (List.length_eq_zero_iff.mp hlen.symm) hne
  | [d], _ => exact ⟨.leaf d, rfl, by simp [TreeNode.Data], trivial⟩
  | d :: e :: rest, hlen =>
    -- the first loop makes the level above the data
    have hinit : (initLevel keccak256 (d :: e :: rest)).length ≤ fuel := by
      rw [← List.length_map (f := TreeNode.Data), map_Data_initLevel, Merkle.length_pairUp]
      simp only [List.length_cons] at hlen ⊢
      omega
    have hne' : initLevel keccak256 (d :: e :: rest) ≠ [] := by
      rw [initLevel]
      exact List.cons_ne_nil _ _
    obtain ⟨t, ht, hroot, hwf⟩ := buildLoop_root hne' hinit (wellFormed_initLevel _)
    refine ⟨t, ht, ?_, hwf⟩
    rw [Merkle.root_pairUp _ (by simp), ← map_Data_initLevel]
    exact hroot

/-- `verifyTask`'s loop collects no root when no index has a path. -/
theorem verifyPaths_of_absent {unmarshal : List Char → Option (List (List (List Char)))}
    {sample : UInt64 → Bool} {fuel : ℕ} {seed index : UInt64} {result : challengeResult}
    {maxVerifyLeafCount : ℕ} :
    ∀ {is : List UInt64} {verifyLeafCount : ℕ} {roots : List (List Char)},
      (∀ i ∈ is, result.Paths.lookup (seed + i) = none) →
      verifyPaths keccak256 unmarshal sample fuel seed index result maxVerifyLeafCount is
        verifyLeafCount roots = some (.ok (some roots))
  | [], _, _, _ => rfl
  | i :: is, verifyLeafCount, roots, habsent => by
    rw [verifyPaths, habsent i List.mem_cons_self]
    exact verifyPaths_of_absent fun j hj => habsent j (List.mem_cons_of_mem i hj)

theorem BuildTreeFromRetrievalAddresses_nil_loops (keccak256 : List UInt8 → PureChain.Hash) :
    (∀ fuel, BuildTreeFromRetrievalAddresses keccak256 fuel [] = none) ∧
    ∀ (unmarshal : List Char → Option (List (List (List Char)))) (sample : UInt64 → Bool)
      (seed index : UInt64) (result : challengeResult),
      (∀ i < result.ChallengeCount.toUInt64.toNat,
        result.Paths.lookup (seed + UInt64.ofNat i) = none) →
      ∀ fuel, verifyTask keccak256 unmarshal sample fuel seed index result = none := by
  have hnil : ∀ fuel, BuildTreeFromRetrievalAddresses keccak256 fuel [] = none :=
    fun fuel => buildLoop_nil fuel
  refine ⟨hnil, fun unmarshal sample seed index result habsent fuel => ?_⟩
  -- no root is collected, and the builder loops on the empty list
  have hpaths : verifyPaths keccak256 unmarshal sample fuel seed index result
      (getMaxVerifyLeafCount result.Paths.length)
      ((List.range result.ChallengeCount.toUInt64.toNat).map UInt64.ofNat) 0 [] =
      some (.ok (some [])) :=
    verifyPaths_of_absent (fun i hi => by
      obtain ⟨j, hj, rfl⟩ := List.mem_map.mp hi
      exact habsent j (List.mem_range.mp hj))
  simp only [verifyTask, hpaths, hnil, Option.map_none]

/-- An answer that claims one challenge and carries no path: `verifyTask` does
not return within ten rounds (nor any other number). -/
theorem BuildTreeFromRetrievalAddresses_nil_loops_task :
    verifyTask (fun _ => Hash.zero) (fun _ => none) (fun _ => false) 10 0 0
      ⟨0, false, [], 1, List.nodup_nil⟩ = none :=
  (BuildTreeFromRetrievalAddresses_nil_loops (fun _ => Hash.zero)).2 _ _ _ _ _ (fun _ _ => rfl) 10

/-! ### What the path checks accept -/

/-- A path of one row passes with the row's first entry as its root, whatever
it holds: the digest before it is empty, and every string contains the empty
one. -/
theorem verifyTree_single (root : List Char) (rest : List (List Char)) :
    verifyTree keccak256 (some [root :: rest]) = .ok (true, root) := by
  simp [verifyTree, verifyRows, strings.Contains_nil]

theorem verifyTree_accepts_unlinked (keccak256 : List UInt8 → PureChain.Hash) :
    (∀ root : List Char, verifyTree keccak256 (some [[root]]) = .ok (true, root)) ∧
    ∀ (lb rb : List UInt8) (pre post : List Char),
      verifyTree keccak256 (some [[hex.EncodeToString lb, hex.EncodeToString rb],
        [pre ++ hex.EncodeToString (ParentHash keccak256 lb rb) ++ post]]) =
        .ok (true, pre ++ hex.EncodeToString (ParentHash keccak256 lb rb) ++ post) := by
  refine ⟨fun root => verifyTree_single root [], fun lb rb pre post => ?_⟩
  -- the pair decodes and hashes to a digest that the root merely contains
  simp [verifyTree, verifyRows, hex.DecodeString_EncodeToString, strings.Contains_append]

/-- With the largest `uint64` as index, `i <= index` always holds and the loop
of `verifyLeaf` never ends. -/
theorem leafRounds_max :
    ∀ (fuel : ℕ) (i : UInt64) (middle : List UInt8),
      leafRounds keccak256 18446744073709551615 fuel i middle = none
  | 0, _, _ => rfl
  | fuel + 1, i, middle => by
    have hle : i ≤ 18446744073709551615 := by
      rw [UInt64.le_iff_toNat_le]
      have := i.toNat_lt
      simp only [UInt64.reduceToNat]
      omega
    rw [leafRounds, if_pos hle]
    exact leafRounds_max fuel (i + 1) (leafRound keccak256 middle)

/-- Below the largest `uint64` the loop runs `index + 1` rounds from `0`: from
`i`, the `k` rounds left with `i + k = index + 1`. -/
theorem leafRounds_eq {index : UInt64} (hidx : index.toNat < 2 ^ 64 - 1) :
    ∀ (k : ℕ) {fuel : ℕ} {i : UInt64} (middle : List UInt8), i.toNat + k = index.toNat + 1 →
      k < fuel → leafRounds keccak256 index fuel i middle = some ((leafRound keccak256)^[k] middle)
  | _, 0, _, _, _, hfuel => absurd hfuel (Nat.not_lt_zero _)
  | 0, fuel + 1, i, middle, hk, _ => by
    have hgt : ¬i ≤ index := by rw [UInt64.le_iff_toNat_le]; omega
    rw [leafRounds, if_neg hgt]
    rfl
  | k + 1, fuel + 1, i, middle, hk, hfuel => by
    have hle : i ≤ index := by rw [UInt64.le_iff_toNat_le]; omega
    -- `i + 1` does not wrap around below the largest index
    have hsucc : (i + 1).toNat = i.toNat + 1 := by
      rw [UInt64.toNat_add, UInt64.toNat_one, Nat.mod_eq_of_lt (by omega)]
    rw [leafRounds, if_pos hle, Function.iterate_succ_apply]
    exact leafRounds_eq hidx k (leafRound keccak256 middle) (by omega) (by omega)

/-- **`verifyLeaf` returns below the largest index**, given a round more than
its loop runs. -/
theorem verifyLeaf_isSome {fuel : ℕ} {seed index : UInt64} (hidx : index.toNat < 2 ^ 64 - 1)
    (hfuel : index.toNat + 2 ≤ fuel) (retData : Option (List (List (List Char)))) :
    (verifyLeaf keccak256 fuel seed index retData).isSome := by
  cases retData with
  | none => rfl
  | some retData =>
    simp only [verifyLeaf]
    rw [leafRounds_eq hidx (index.toNat + 1) _ (by simp) (by omega)]
    rfl

/-- On an odd index `verifyLeaf` reads the second entry of the first row: a
first row of one entry makes it panic once the loop ends. -/
theorem verifyLeaf_odd_single (fuel : ℕ) (seed : UInt64) (root : List Char) :
    verifyLeaf keccak256 fuel seed 1 (some [[root]]) = none ∨
      verifyLeaf keccak256 fuel seed 1 (some [[root]]) = some (.error "index out of range") := by
  simp only [verifyLeaf]
  cases leafRounds keccak256 1 fuel 0 (legacySum keccak256 (binary.PutUint64 seed)) with
  | none => exact Or.inl rfl
  | some middle => exact Or.inr rfl

theorem verifyLeaf_not_total (keccak256 : List UInt8 → PureChain.Hash) :
    verifyTree keccak256 (some [[]]) = .error "index out of range" ∧
    (∀ (seed : UInt64) (root : List Char), verifyTree keccak256 (some [[root]]) = .ok (true, root) ∧
      ∀ (fuel : ℕ) (b : Bool), verifyLeaf keccak256 fuel seed 1 (some [[root]]) ≠ some (.ok b)) ∧
    ∀ (seed : UInt64) (retData : List (List (List Char))) (fuel : ℕ),
      verifyLeaf keccak256 fuel seed 18446744073709551615 (some retData) = none := by
  refine ⟨rfl, fun seed root => ⟨verifyTree_single root [], fun fuel b h => ?_⟩,
    fun seed retData fuel => ?_⟩
  · rcases verifyLeaf_odd_single fuel seed root with h' | h' <;> rw [h'] at h <;> cases h
  · simp only [verifyLeaf, leafRounds_max, Option.map_none]

end Por

end miner

end PureChain
