import PureChain.Lib.Except

/-!
# Package `vm`: memory and the gas of its expansion

The memory of a call is paid for by its size in words: a memory of `w` words
costs `C(w) = 3·w + w²/512` in all (`totalMemoryFee`). The code does not charge
that whole amount each time; `memoryGasCost` keeps the amount already paid in
`lastGasCost` and charges only the difference when an operation needs more
memory than there is, after which `EVMInterpreter.Run` resizes the memory to the
rounded size (`expandMemory`).

All of it is `uint64` arithmetic, and the bound `0x1FFFFFFFE0` on the size is
what keeps it exact: below it the word count is below `2^32`, so its square
fits. The memory of a run then always holds a whole number `w` of words and has
paid exactly `C(w)` for them (`Memory.HoldsWords`). Each operation charges the
rise of `C` from the words held to the words needed, nothing when they are
already held (`expandMemory_spec`), so along a run from `NewMemory` the fees add
up to `C` of the largest word count asked for (`expandRun_spec`).
-/

namespace PureChain

namespace math

/-- `math.SafeMul`: the low word of the product, and whether the high word is
not zero. -/
def SafeMul (x y : UInt64) : UInt64 × Bool := (x * y, decide (2 ^ 64 ≤ x.toNat * y.toNat))

end math

namespace vm

/-- The interpreter's errors that the memory sizing can return. -/
inductive VmError where
  | ErrGasUintOverflow
  | ErrOutOfGas
  deriving DecidableEq, Repr

/-- `params.MemoryGas`. -/
def MemoryGas : UInt64 := 3

/-- `params.QuadCoeffDiv`. -/
def QuadCoeffDiv : UInt64 := 512

/-- `toWordSize`: the number of 32-byte words `size` bytes take, saturated at
the top of `uint64`. -/
def toWordSize (size : UInt64) : UInt64 :=
  if size > 0xFFFFFFFFFFFFFFFF - 31 then 0xFFFFFFFFFFFFFFFF / 32 + 1
  else (size + 31) / 32

/-- `Memory`: the bytes, and the fee paid so far for the memory's size. -/
structure Memory where
  store : List UInt8
  lastGasCost : UInt64

/-- `NewMemory`. -/
def NewMemory : Memory := ⟨[], 0⟩

namespace Memory

/-- `Len`. -/
def Len (m : Memory) : ℕ := m.store.length

/-- `Resize`: zero bytes appended up to `size`. -/
def Resize (m : Memory) (size : UInt64) : Memory :=
  if UInt64.ofNat m.Len < size then
    { m with store := m.store ++ List.replicate (size - UInt64.ofNat m.Len).toNat 0 }
  else m

end Memory

/-- `memoryGasCost`: the fee for expanding the memory to `newMemSize` bytes,
charged against the fee already paid for its size. -/
def memoryGasCost (mem : Memory) (newMemSize : UInt64) : Except VmError (UInt64 × Memory) :=
  if newMemSize = 0 then .ok (0, mem)
  else if newMemSize > 0x1FFFFFFFE0 then .error .ErrGasUintOverflow
  else
    let newMemSizeWords := toWordSize newMemSize
    let newMemSize := newMemSizeWords * 32
    if newMemSize > UInt64.ofNat mem.Len then
      let square := newMemSizeWords * newMemSizeWords
      let linCoef := newMemSizeWords * MemoryGas
      let quadCoef := square / QuadCoeffDiv
      let newTotalFee := linCoef + quadCoef
      let fee := newTotalFee - mem.lastGasCost
      .ok (fee, { mem with lastGasCost := newTotalFee })
    else .ok (0, mem)

/-- The memory sizing of one operation in `EVMInterpreter.Run`: the operation's
memory size rounded up to words, the expansion fee its dynamic gas charges
through `memoryGasCost` (an error there ends the run with `ErrOutOfGas`), and
the resize. -/
def expandMemory (mem : Memory) (memSize : UInt64) : Except VmError (UInt64 × Memory) := do
  let (memorySize, overflow) := math.SafeMul (toWordSize memSize) 32
  if overflow then throw .ErrGasUintOverflow
  match memoryGasCost mem memorySize with
  | .error _ => throw .ErrOutOfGas
  | .ok (fee, mem) => return (fee, if memorySize > 0 then mem.Resize memorySize else mem)

/-- Operations one after the other, each with the memory size it needs: the
fees charged, and the memory after them. -/
def expandRun (mem : Memory) : List UInt64 → Except VmError (List UInt64 × Memory)
  | [] => .ok ([], mem)
  | memSize :: sizes => do
    let (fee, mem) ← expandMemory mem memSize
    let (fees, mem) ← expandRun mem sizes
    return (fee :: fees, mem)

/-! ### The fee of a memory size -/

/-- The whole fee for a memory of `words` words. -/
def totalMemoryFee (words : ℕ) : ℕ := 3 * words + words * words / 512

/-- The largest word count a list of memory sizes asks for. -/
def maxWords (sizes : List UInt64) : ℕ := (sizes.map fun s => (toWordSize s).toNat).foldr max 0

/-- The memory holds `w` words and has paid their whole fee, with `w` below
`2^32`. -/
def Memory.HoldsWords (m : Memory) (w : ℕ) : Prop :=
  m.Len = 32 * w ∧ m.lastGasCost.toNat = totalMemoryFee w ∧ w ≤ 0xFFFFFFFF

/-! ### Word counts within the bound -/

section Words

variable {s x : UInt64}

theorem toWordSize_toNat (hs : s ≤ 0x1FFFFFFFE0) : (toWordSize s).toNat = (s.toNat + 31) / 32 := by
  have h : s.toNat ≤ 0x1FFFFFFFE0 := UInt64.le_iff_toNat_le.mp hs
  have hlt : ¬ s > 0xFFFFFFFFFFFFFFFF - 31 := by
    rw [gt_iff_lt, UInt64.lt_iff_toNat_lt]
    simp only [UInt64.reduceSub, UInt64.reduceToNat]
    omega
  rw [toWordSize, if_neg hlt, UInt64.toNat_div, UInt64.toNat_add]
  simp only [UInt64.reduceToNat]
  rw [Nat.mod_eq_of_lt (by omega)]

/-- Below the bound the word count is below `2^32`. -/
theorem toWordSize_le (hs : s ≤ 0x1FFFFFFFE0) : (toWordSize s).toNat ≤ 0xFFFFFFFF := by
  have h : s.toNat ≤ 0x1FFFFFFFE0 := UInt64.le_iff_toNat_le.mp hs
  rw [toWordSize_toNat hs]
  omega

theorem toNat_mul_32 (hx : x.toNat ≤ 0xFFFFFFFF) : (x * 32).toNat = 32 * x.toNat := by
  rw [UInt64.toNat_mul]
  simp only [UInt64.reduceToNat]
  rw [Nat.mod_eq_of_lt (by omega)]
  omega

theorem mul_32_le (hx : x.toNat ≤ 0xFFFFFFFF) : x * 32 ≤ 0x1FFFFFFFE0 := by
  rw [UInt64.le_iff_toNat_le, toNat_mul_32 hx]
  simp only [UInt64.reduceToNat]
  omega

/-- The words of a size cover it, saturated or not. -/
theorem toNat_le_toWordSize_mul (s : UInt64) : s.toNat ≤ (toWordSize s).toNat * 32 := by
  have hs := UInt64.toNat_lt s
  unfold toWordSize
  split_ifs with h
  · simp only [UInt64.reduceDiv, UInt64.reduceAdd, UInt64.reduceToNat]
    omega
  · rw [gt_iff_lt, UInt64.lt_iff_toNat_lt] at h
    simp only [UInt64.reduceSub, UInt64.reduceToNat] at h
    rw [UInt64.toNat_div, UInt64.toNat_add]
    simp only [UInt64.reduceToNat]
    rw [Nat.mod_eq_of_lt (by omega)]
    omega

/-- A word count times 32 is a whole number of words. -/
theorem toWordSize_mul_32 (hx : x.toNat ≤ 0xFFFFFFFF) : toWordSize (x * 32) = x := by
  apply UInt64.toNat_inj.mp
  rw [toWordSize_toNat (mul_32_le hx), toNat_mul_32 hx]
  omega

/-- `memoryGasCost`'s `uint64` fee for `x` words is the whole fee: nothing
wraps. -/
theorem newTotalFee_toNat (hx : x.toNat ≤ 0xFFFFFFFF) :
    (x * MemoryGas + x * x / QuadCoeffDiv).toNat = totalMemoryFee x.toNat := by
  have hsq : x.toNat * x.toNat ≤ 0xFFFFFFFF * 0xFFFFFFFF := Nat.mul_le_mul hx hx
  have hlin : x.toNat * 3 < 2 ^ 64 := by omega
  have hquad : x.toNat * x.toNat < 2 ^ 64 := by omega
  rw [UInt64.toNat_add, UInt64.toNat_mul, UInt64.toNat_div, UInt64.toNat_mul]
  simp only [MemoryGas, QuadCoeffDiv, UInt64.reduceToNat]
  rw [Nat.mod_eq_of_lt hlin, Nat.mod_eq_of_lt hquad, Nat.mod_eq_of_lt (by omega), totalMemoryFee]
  omega

theorem totalMemoryFee_mono {a b : ℕ} (h : a ≤ b) : totalMemoryFee a ≤ totalMemoryFee b := by
  have hquad : a * a / 512 ≤ b * b / 512 := Nat.div_le_div_right (Nat.mul_le_mul h h)
  unfold totalMemoryFee
  omega

end Words

/-! ### The memory of a run -/

namespace Memory

variable {m : Memory} {size : UInt64}

@[simp] theorem Len_with_lastGasCost (c : UInt64) : ({ m with lastGasCost := c } : Memory).Len = m.Len :=
  rfl

@[simp] theorem lastGasCost_Resize : (m.Resize size).lastGasCost = m.lastGasCost := by
  unfold Resize
  split_ifs <;> rfl

/-- Resizing to a size at least the length makes the memory that long. -/
theorem Len_Resize (h : m.Len ≤ size.toNat) : (m.Resize size).Len = size.toNat := by
  have hlen : (UInt64.ofNat m.Len).toNat = m.Len := by
    rw [UInt64.toNat_ofNat', Nat.mod_eq_of_lt (Nat.lt_of_le_of_lt h (UInt64.toNat_lt size))]
  unfold Resize
  split_ifs with hlt
  · rw [Len, List.length_append, List.length_replicate, UInt64.toNat_sub_of_le _ _ (UInt64.le_of_lt hlt),
      hlen]
    exact Nat.add_sub_cancel' h
  · rw [UInt64.lt_iff_toNat_lt, hlen] at hlt
    omega

/-- Resizing to a size within the memory leaves it as it is. -/
theorem Resize_of_le (h : size.toNat ≤ m.Len) (hlen : m.Len < 2 ^ 64) : m.Resize size = m := by
  unfold Resize
  rw [if_neg]
  rw [UInt64.lt_iff_toNat_lt, UInt64.toNat_ofNat', Nat.mod_eq_of_lt hlen]
  omega

end Memory

theorem holdsWords_NewMemory : NewMemory.HoldsWords 0 := ⟨rfl, rfl, Nat.zero_le _⟩

section Expand

variable {mem : Memory} {w : ℕ} {x : UInt64}

theorem Memory.HoldsWords.Len_lt (hm : mem.HoldsWords w) : mem.Len < 2 ^ 64 := by
  rw [hm.1]
  have := hm.2.2
  omega

theorem memoryGasCost_zero (mem : Memory) : memoryGasCost mem 0 = .ok (0, mem) := by
  simp [memoryGasCost]

theorem memoryGasCost_of_gt {s : UInt64} (h : 0x1FFFFFFFE0 < s) :
    memoryGasCost mem s = .error .ErrGasUintOverflow := by
  have hs0 : s ≠ 0 := by
    rintro rfl
    exact absurd h (by decide)
  simp [memoryGasCost, hs0, h]

/-- Memory that `x` words need but the memory does not hold: the rise of the
fee is charged, and the new fee recorded. -/
theorem memoryGasCost_grow (hm : mem.HoldsWords w) (hx : x.toNat ≤ 0xFFFFFFFF) (hw : w < x.toNat) :
    memoryGasCost mem (x * 32) =
      .ok (x * MemoryGas + x * x / QuadCoeffDiv - mem.lastGasCost,
        { mem with lastGasCost := x * MemoryGas + x * x / QuadCoeffDiv }) := by
  have h32 := toNat_mul_32 hx
  have hne : x * 32 ≠ 0 := by
    intro h
    rw [h] at h32
    simp only [UInt64.reduceToNat] at h32
    omega
  have hle : ¬ x * 32 > 0x1FFFFFFFE0 := UInt64.not_lt.mpr (mul_32_le hx)
  have hgt : x * 32 > UInt64.ofNat mem.Len := by
    rw [gt_iff_lt, UInt64.lt_iff_toNat_lt, UInt64.toNat_ofNat', Nat.mod_eq_of_lt hm.Len_lt, h32, hm.1]
    omega
  simp only [memoryGasCost, if_neg hne, if_neg hle, toWordSize_mul_32 hx, if_pos hgt]

/-- Memory that `x` words need and the memory holds: nothing is charged. -/
theorem memoryGasCost_within (hm : mem.HoldsWords w) (hx : x.toNat ≤ 0xFFFFFFFF) (hw : x.toNat ≤ w) :
    memoryGasCost mem (x * 32) = .ok (0, mem) := by
  have h32 := toNat_mul_32 hx
  have hle : ¬ x * 32 > 0x1FFFFFFFE0 := UInt64.not_lt.mpr (mul_32_le hx)
  have hngt : ¬ x * 32 > UInt64.ofNat mem.Len := by
    rw [gt_iff_lt, UInt64.lt_iff_toNat_lt, UInt64.toNat_ofNat', Nat.mod_eq_of_lt hm.Len_lt, h32, hm.1]
    omega
  unfold memoryGasCost
  split_ifs
  · rfl
  · simp only [toWordSize_mul_32 hx, if_neg hngt]

/-- **One operation's memory.** Within the bound, the interpreter charges the
rise of the whole fee from the words the memory holds to the words the
operation needs, and the memory then holds the larger of the two. -/
theorem expandMemory_spec (hm : mem.HoldsWords w) {memSize : UInt64}
    (hs : memSize ≤ 0x1FFFFFFFE0) :
    ∃ fee mem', expandMemory mem memSize = .ok (fee, mem') ∧
      fee.toNat + totalMemoryFee w = totalMemoryFee (max w (toWordSize memSize).toNat) ∧
      mem'.HoldsWords (max w (toWordSize memSize).toNat) := by
  have hx := toWordSize_le hs
  have hsafe : math.SafeMul (toWordSize memSize) 32 = (toWordSize memSize * 32, false) := by
    simp only [math.SafeMul, UInt64.reduceToNat, Prod.mk.injEq, true_and, decide_eq_false_iff_not]
    omega
  simp only [expandMemory, hsafe]
  rcases Nat.lt_or_ge w (toWordSize memSize).toNat with hw | hw
  · -- the memory grows to the words needed
    have hfee := newTotalFee_toNat hx
    have hmono := totalMemoryFee_mono (Nat.le_of_lt hw)
    have hpaid : mem.lastGasCost ≤ toWordSize memSize * MemoryGas +
        toWordSize memSize * toWordSize memSize / QuadCoeffDiv := by
      rw [UInt64.le_iff_toNat_le, hfee, hm.2.1]
      exact hmono
    have hpos : toWordSize memSize * 32 > 0 := by
      rw [gt_iff_lt, UInt64.lt_iff_toNat_lt, toNat_mul_32 hx]
      simp only [UInt64.reduceToNat]
      omega
    rw [memoryGasCost_grow hm hx hw, Nat.max_eq_right (Nat.le_of_lt hw)]
    refine ⟨_, _, rfl, ?_, ?_, ?_, hx⟩
    · rw [UInt64.toNat_sub_of_le _ _ hpaid, hfee, hm.2.1]
      omega
    · rw [if_pos hpos, Memory.Len_Resize (by rw [Memory.Len_with_lastGasCost, toNat_mul_32 hx, hm.1]; omega),
        toNat_mul_32 hx]
    · rw [if_pos hpos, Memory.lastGasCost_Resize, hfee]
  · -- the memory already holds them: nothing is charged or resized
    rw [memoryGasCost_within hm hx hw, Nat.max_eq_left hw]
    refine ⟨0, _, rfl, by simp, ?_⟩
    split_ifs
    · rw [Memory.Resize_of_le (by rw [toNat_mul_32 hx, hm.1]; omega) hm.Len_lt]
      exact hm
    · exact hm

/-- **A run's memory.** The fees of a run add up to the rise of the whole fee
from the words held at its start to the most words held. -/
theorem expandRun_spec {sizes : List UInt64} (hm : mem.HoldsWords w)
    (hs : ∀ s ∈ sizes, s ≤ 0x1FFFFFFFE0) :
    ∃ fees mem', expandRun mem sizes = .ok (fees, mem') ∧
      (fees.map UInt64.toNat).sum + totalMemoryFee w = totalMemoryFee (max w (maxWords sizes)) ∧
      mem'.HoldsWords (max w (maxWords sizes)) := by
  induction sizes generalizing mem w with
  | nil =>
    refine ⟨[], mem, rfl, ?_, ?_⟩ <;> simp only [maxWords, List.map_nil, List.foldr_nil,
      Nat.max_zero, List.sum_nil, Nat.zero_add]
    exact hm
  | cons s sizes ih =>
    obtain ⟨fee, mem₁, h₁, hfee, hm₁⟩ := expandMemory_spec hm (hs s List.mem_cons_self)
    obtain ⟨fees, mem₂, h₂, hfees, hm₂⟩ := ih hm₁ fun t ht => hs t (List.mem_cons_of_mem s ht)
    -- the most words of the whole run: those of its first operation, then the rest's
    have hmax : max w (maxWords (s :: sizes)) =
        max (max w (toWordSize s).toNat) (maxWords sizes) := by
      simp only [maxWords, List.map_cons, List.foldr_cons, Nat.max_assoc]
    refine ⟨fee :: fees, mem₂, ?_, ?_, ?_⟩
    · rw [expandRun, h₁, Except.bind_ok]
      dsimp only
      rw [h₂, Except.bind_ok]
      rfl
    · rw [hmax, ← hfees, List.map_cons, List.sum_cons, ← hfee]
      omega
    · rw [hmax]
      exact hm₂

/-- A size above the bound ends the run: with `ErrGasUintOverflow` when its
rounding overflows, and otherwise with `ErrOutOfGas`, the interpreter's answer
to `memoryGasCost`'s `ErrGasUintOverflow`. -/
theorem expandMemory_of_gt {memSize : UInt64} (h : 0x1FFFFFFFE0 < memSize) :
    expandMemory mem memSize = .error
      (if 2 ^ 64 ≤ (toWordSize memSize).toNat * 32 then .ErrGasUintOverflow else .ErrOutOfGas) := by
  by_cases hov : 2 ^ 64 ≤ (toWordSize memSize).toNat * 32
  · -- the rounding overflows
    simp only [expandMemory, math.SafeMul, UInt64.reduceToNat, hov, decide_true, if_true]
    rfl
  · -- no overflow: the rounded size is at least the size
    have hcover := toNat_le_toWordSize_mul memSize
    have hround : (toWordSize memSize * 32).toNat = (toWordSize memSize).toNat * 32 := by
      rw [UInt64.toNat_mul]
      simp only [UInt64.reduceToNat]
      exact Nat.mod_eq_of_lt (by omega)
    have hgt : 0x1FFFFFFFE0 < toWordSize memSize * 32 := by
      rw [UInt64.lt_iff_toNat_lt, hround]
      rw [UInt64.lt_iff_toNat_lt] at h
      simp only [UInt64.reduceToNat] at h ⊢
      omega
    simp only [expandMemory, math.SafeMul, UInt64.reduceToNat, hov, decide_false,
      Bool.false_eq_true, if_false, memoryGasCost_of_gt hgt]
    rfl

end Expand

/-! ### Memory gas telescopes -/

/-- **Memory expansion gas telescopes without overflow.** `memoryGasCost`
charges nothing for size zero and fails with `ErrGasUintOverflow` above the
bound. Within the bound, one operation's sizing charges exactly the rise of the
whole fee `3·w + w²/512` from the words the memory holds to the words needed,
nothing when they are held, and leaves the memory holding the larger count with
its whole fee recorded in `lastGasCost`; above the bound the run ends with an
error. So the fees of a run from `NewMemory` add up to the whole fee of the
largest word count asked for. -/
theorem memoryGasCost_telescopes :
    (∀ mem, memoryGasCost mem 0 = .ok (0, mem)) ∧
    (∀ mem s, 0x1FFFFFFFE0 < s → memoryGasCost mem s = .error .ErrGasUintOverflow) ∧
    (∀ (mem : Memory) w memSize, mem.HoldsWords w → memSize ≤ 0x1FFFFFFFE0 →
      ∃ fee mem', expandMemory mem memSize = .ok (fee, mem') ∧
        fee.toNat + totalMemoryFee w = totalMemoryFee (max w (toWordSize memSize).toNat) ∧
        mem'.HoldsWords (max w (toWordSize memSize).toNat) ∧
        ((toWordSize memSize).toNat ≤ w → fee = 0)) ∧
    (∀ mem memSize, 0x1FFFFFFFE0 < memSize → ∃ e, expandMemory mem memSize = .error e) ∧
    (∀ sizes : List UInt64, (∀ s ∈ sizes, s ≤ 0x1FFFFFFFE0) →
      ∃ fees mem, expandRun NewMemory sizes = .ok (fees, mem) ∧
        (fees.map UInt64.toNat).sum = totalMemoryFee (maxWords sizes) ∧
        mem.HoldsWords (maxWords sizes)) := by
  refine ⟨memoryGasCost_zero, fun _ _ h => memoryGasCost_of_gt h, ?_,
    fun _ _ h => ⟨_, expandMemory_of_gt h⟩, ?_⟩
  · intro mem w memSize hm hs
    obtain ⟨fee, mem', hexp, hfee, hm'⟩ := expandMemory_spec hm hs
    refine ⟨fee, mem', hexp, hfee, hm', fun hw => ?_⟩
    -- the whole fee does not rise, so nothing is charged
    rw [Nat.max_eq_left hw] at hfee
    apply UInt64.toNat_inj.mp
    simp only [UInt64.reduceToNat]
    omega
  · intro sizes hs
    obtain ⟨fees, mem, hrun, hsum, hm⟩ := expandRun_spec holdsWords_NewMemory hs
    rw [Nat.zero_max] at hsum hm
    refine ⟨fees, mem, hrun, ?_, hm⟩
    simpa [totalMemoryFee] using hsum

theorem memoryGasCost_telescopes_run :
    memoryGasCost NewMemory 0x1FFFFFFFE1 = .error .ErrGasUintOverflow ∧
    (∃ fee mem', expandMemory NewMemory 64 = .ok (fee, mem') ∧
      fee.toNat + totalMemoryFee 0 = totalMemoryFee (max 0 (toWordSize 64).toNat) ∧
      mem'.HoldsWords (max 0 (toWordSize 64).toNat) ∧ ((toWordSize 64).toNat ≤ 0 → fee = 0)) ∧
    (∃ e, expandMemory NewMemory 0x1FFFFFFFE1 = .error e) ∧
    (∃ fees mem, expandRun NewMemory [64, 0, 1000] = .ok (fees, mem) ∧
      (fees.map UInt64.toNat).sum = totalMemoryFee (maxWords [64, 0, 1000]) ∧
      mem.HoldsWords (maxWords [64, 0, 1000])) :=
  ⟨memoryGasCost_telescopes.2.1 _ _ (by decide),
    memoryGasCost_telescopes.2.2.1 _ _ _ holdsWords_NewMemory (by decide),
    memoryGasCost_telescopes.2.2.2.1 _ _ (by decide),
    memoryGasCost_telescopes.2.2.2.2 _ (by simp)⟩

end vm

end PureChain
