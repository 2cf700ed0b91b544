import Mathlib.Data.Nat.Bitwise

/-!
# Package `vm`: the jump-destination analysis

Before a contract runs, `codeBitmap` marks which bytes of its code are data –
the immediate bytes of a `PUSHn` – so that a jump into them can be refused
(`codeSegment`). The bitmap has one bit per code byte, the most significant bit
of each byte first. The sweep `codeBitmapInternal` does not set the bits of a
push one by one: it writes 16 and 8 bits at a time (`set16`, `set8`) and the
last 1 to 7 with a mask (`set1`, `setN`), and the masks spill into the next byte,
which `setN`, `set8` and `set16` assign rather than OR, on the ground that
nothing was written there yet.

Each write is modelled as Go runs it on a slice: an index out of range panics
(`none`). The sweep's bits are read positionally (`bitAt`): each write sets the
bits of the run of positions it covers and nothing else (`set8_spec` and the
like), provided the bits from its position on are clear, which the sweep keeps
(`codeBitmapLoop_spec`). So the bitmap marks exactly the positions that the
linear sweep of the code skips as push data (`scanFrom`), and every write falls
within the `len(code)/8+1+4` bytes `codeBitmap` allocates
(`codeBitmap_codeSegment`).
-/

namespace PureChain

namespace vm

/-- `PUSH1`. -/
def PUSH1 : UInt8 := 0x60

/-- `PUSH32`. -/
def PUSH32 : UInt8 := 0x7f

/-- `set2BitsMask`. -/
def set2BitsMask : UInt16 := 0b1100_0000_0000_0000
/-- `set3BitsMask`. -/
def set3BitsMask : UInt16 := 0b1110_0000_0000_0000
/-- `set4BitsMask`. -/
def set4BitsMask : UInt16 := 0b1111_0000_0000_0000
/-- `set5BitsMask`. -/
def set5BitsMask : UInt16 := 0b1111_1000_0000_0000
/-- `set6BitsMask`. -/
def set6BitsMask : UInt16 := 0b1111_1100_0000_0000
/-- `set7BitsMask`. -/
def set7BitsMask : UInt16 := 0b1111_1110_0000_0000

/-- `bitvec`: one bit per code byte, set for data. -/
abbrev bitvec := List UInt8

/-- `lookup`: the bit of each position within its byte. -/
def lookup : List UInt8 := [0x80, 0x40, 0x20, 0x10, 0x8, 0x4, 0x2, 0x1]

namespace bitvec

/-- `bits[i] |= v`, panicking out of range. -/
def orAt (bits : bitvec) (i : ℕ) (v : UInt8) : Option bitvec :=
  if h : i < bits.length then some (bits.set i (bits[i] ||| v)) else none

/-- `bits[i] = v`, panicking out of range. -/
def assignAt (bits : bitvec) (i : ℕ) (v : UInt8) : Option bitvec :=
  if i < bits.length then some (bits.set i v) else none

/-- `set1`. -/
def set1 (bits : bitvec) (pos : ℕ) : Option bitvec :=
  bits.orAt (pos / 8) (lookup.getD (pos % 8) 0)

/-- `setN`: the top bits of `flag`, shifted to the position; what spills into
the next byte is assigned there. -/
def setN (bits : bitvec) (flag : UInt16) (pos : ℕ) : Option bitvec := do
  let a := flag >>> UInt16.ofNat (pos % 8)
  let bits ← bits.orAt (pos / 8) (a >>> 8).toUInt8
  let b := a.toUInt8
  if b ≠ 0 then bits.assignAt (pos / 8 + 1) b else pure bits

/-- `set8`. -/
def set8 (bits : bitvec) (pos : ℕ) : Option bitvec := do
  let a : UInt8 := 0xFF >>> UInt8.ofNat (pos % 8)
  let bits ← bits.orAt (pos / 8) a
  bits.assignAt (pos / 8 + 1) (~~~a)

/-- `set16`. -/
def set16 (bits : bitvec) (pos : ℕ) : Option bitvec := do
  let a : UInt8 := 0xFF >>> UInt8.ofNat (pos % 8)
  let bits ← bits.orAt (pos / 8) a
  let bits ← bits.assignAt (pos / 8 + 1) 0xFF
  bits.assignAt (pos / 8 + 2) (~~~a)

/-- `codeSegment`: whether the bit of `pos` is clear, panicking out of range. -/
def codeSegment (bits : bitvec) (pos : ℕ) : Option Bool :=
  if h : pos / 8 < bits.length then
    some ((bits[pos / 8] &&& ((0x80 : UInt8) >>> UInt8.ofNat (pos % 8))) == 0)
  else none

end bitvec

open bitvec

/-! ### The sweep -/

/-- The loop `for ; numbits >= 16; numbits -= 16` of `codeBitmapInternal`. -/
def set16Loop (bits : bitvec) (pc numbits : ℕ) : Option (bitvec × ℕ × ℕ) :=
  if numbits ≥ 16 then do
    let bits ← bits.set16 pc
    set16Loop bits (pc + 16) (numbits - 16)
  else pure (bits, pc, numbits)
termination_by numbits

/-- The loop `for ; numbits >= 8; numbits -= 8` of `codeBitmapInternal`. -/
def set8Loop (bits : bitvec) (pc numbits : ℕ) : Option (bitvec × ℕ × ℕ) :=
  if numbits ≥ 8 then do
    let bits ← bits.set8 pc
    set8Loop bits (pc + 8) (numbits - 8)
  else pure (bits, pc, numbits)
termination_by numbits

/-- The `switch numbits` of `codeBitmapInternal`. -/
def setSwitch (bits : bitvec) (pc : ℕ) : ℕ → Option (bitvec × ℕ)
  | 1 => do return (← bits.set1 pc, pc + 1)
  | 2 => do return (← bits.setN set2BitsMask pc, pc + 2)
  | 3 => do return (← bits.setN set3BitsMask pc, pc + 3)
  | 4 => do return (← bits.setN set4BitsMask pc, pc + 4)
  | 5 => do return (← bits.setN set5BitsMask pc, pc + 5)
  | 6 => do return (← bits.setN set6BitsMask pc, pc + 6)
  | 7 => do return (← bits.setN set7BitsMask pc, pc + 7)
  | _ => pure (bits, pc)

/-- The data of one push in `codeBitmapInternal`: sixteen bits at a time, then
eight, then the rest. -/
def setPush (bits : bitvec) (pc numbits : ℕ) : Option (bitvec × ℕ) := do
  let (bits, pc, numbits) ←
    if numbits ≥ 8 then do
      let (bits, pc, numbits) ← set16Loop bits pc numbits
      set8Loop bits pc numbits
    else pure (bits, pc, numbits)
  setSwitch bits pc numbits

-- the equations of the loops of a push, made once here for the lemmas that unfold them
attribute [local grind] set16Loop set8Loop setSwitch setPush

/-! ### The bits of a bitvec -/

namespace bitvec

/-- The bit of position `q`: bit `7 - q % 8` of byte `q / 8`, clear past the
end. -/
def bitAt (bits : bitvec) (q : ℕ) : Bool := (bits.getD (q / 8) 0).toNat.testBit (7 - q % 8)

/-- `bits'` is `bits` with the bits of the positions `[lo, hi)` set. -/
def Writes (bits bits' : bitvec) (lo hi : ℕ) : Prop :=
  bits'.length = bits.length ∧ ∀ q, bitAt bits' q = (bitAt bits q || (decide (lo ≤ q) && decide (q < hi)))

/-- No bit from position `pos` on is set. -/
def Clear (bits : bitvec) (pos : ℕ) : Prop := ∀ q, pos ≤ q → bitAt bits q = false

variable {bits bits' bits'' : bitvec} {lo mid hi pos : ℕ}

theorem Writes.refl (bits : bitvec) (pos : ℕ) : Writes bits bits pos pos := by
  refine ⟨rfl, fun q => ?_⟩
  have hempty : (decide (pos ≤ q) && decide (q < pos)) = false := by
    simp only [Bool.and_eq_false_imp, decide_eq_true_eq, decide_eq_false_iff_not]
    omega
  rw [hempty, Bool.or_false]

/-- Two runs of writes, one after the other, write their union. -/
theorem Writes.trans (h₁ : Writes bits bits' lo mid) (h₂ : Writes bits' bits'' mid hi)
    (hlo : lo ≤ mid) (hhi : mid ≤ hi) : Writes bits bits'' lo hi := by
  refine ⟨h₂.1.trans h₁.1, fun q => ?_⟩
  rw [h₂.2, h₁.2, Bool.or_assoc]
  congr 1
  apply Bool.eq_iff_iff.mpr
  simp only [Bool.or_eq_true, Bool.and_eq_true, decide_eq_true_eq]
  omega

/-- Writing a run from a clear position leaves clear what follows it. -/
theorem Clear.of_writes (hc : Clear bits lo) (hw : Writes bits bits' lo hi) (hhi : lo ≤ hi) :
    Clear bits' hi := by
  intro q hq
  rw [hw.2, hc q (by omega)]
  simp only [Bool.false_or, Bool.and_eq_false_imp, decide_eq_true_eq, decide_eq_false_iff_not]
  omega

theorem bitAt_set (v : UInt8) {i : ℕ} (q : ℕ) :
    bitAt (bits.set i v) q = if q / 8 = i ∧ i < bits.length then v.toNat.testBit (7 - q % 8)
      else bitAt bits q := by
  unfold bitAt
  rw [List.getD_eq_getElem?_getD, List.getD_eq_getElem?_getD]
  by_cases h : q / 8 = i ∧ i < bits.length
  · rw [if_pos h, h.1, List.getElem?_set_self h.2, Option.getD_some]
  · rw [if_neg h]
    by_cases hq : q / 8 = i
    · -- past the end, before and after
      have hlen : bits.length ≤ q / 8 := by omega
      rw [List.getElem?_eq_none (by rw [List.length_set]; exact hlen), List.getElem?_eq_none hlen]
    · rw [List.getElem?_set_ne (Ne.symm hq)]

/-- `bits[i] |= v` in range: the bits of `v` are set in byte `i`. -/
theorem orAt_spec (v : UInt8) {i : ℕ} (hi : i < bits.length) :
    ∃ bits', bits.orAt i v = some bits' ∧ bits'.length = bits.length ∧
      ∀ q, bitAt bits' q = (bitAt bits q || (decide (q / 8 = i) && v.toNat.testBit (7 - q % 8))) := by
  refine ⟨_, by rw [orAt, dif_pos hi], List.length_set, fun q => ?_⟩
  rw [bitAt_set]
  by_cases hq : q / 8 = i
  · subst hq
    rw [if_pos ⟨rfl, hi⟩, UInt8.toNat_or, Nat.testBit_or, bitAt,
      List.getD_eq_getElem _ _ hi]
    simp
  · rw [if_neg (fun h => hq h.1)]
    simp [hq]

/-- `bits[i] = v` in range, on a byte with no bit set: as if `v` were ORed in. -/
theorem assignAt_spec (v : UInt8) {i : ℕ} (hi : i < bits.length)
    (hz : ∀ q, q / 8 = i → bitAt bits q = false) :
    ∃ bits', bits.assignAt i v = some bits' ∧ bits'.length = bits.length ∧
      ∀ q, bitAt bits' q = (bitAt bits q || (decide (q / 8 = i) && v.toNat.testBit (7 - q % 8))) := by
  refine ⟨_, by rw [assignAt, if_pos hi], List.length_set, fun q => ?_⟩
  rw [bitAt_set]
  by_cases hq : q / 8 = i
  · rw [if_pos ⟨hq, hi⟩, hz q hq]
    simp [hq]
  · rw [if_neg (fun h => hq h.1)]
    simp [hq]

/-! ### Each write sets a run -/

/-- A writer that sets the `k` positions from `pos` on, within range and on a
bitvec clear from `pos` on. -/
def ChunkSpec (set : bitvec → ℕ → Option bitvec) (k : ℕ) : Prop :=
  ∀ bits pos, (pos + k) / 8 < bits.length → Clear bits pos →
    ∃ bits', set bits pos = some bits' ∧ Writes bits bits' pos (pos + k)

/-- The byte masks of `set1`, `set8` and `set16`, bit by bit. -/
theorem byteMasks_testBit : ∀ s < 8, ∀ j < 8,
    (lookup.getD s 0).toNat.testBit (7 - j) = decide (s = j) ∧
      ((0xFF : UInt8) >>> UInt8.ofNat s).toNat.testBit (7 - j) = decide (s ≤ j) ∧
      (~~~((0xFF : UInt8) >>> UInt8.ofNat s)).toNat.testBit (7 - j) = decide (j < s) ∧
      (0xFF : UInt8).toNat.testBit (7 - j) = true := by
  decide

/-- `flag` is the mask of `k` bits: shifted by `s`, its high byte holds the
bits `s` to `s + k` and its low byte what spills past the byte. -/
def IsMask (flag : UInt16) (k : ℕ) : Prop :=
  ∀ s < 8, ((flag >>> UInt16.ofNat s).toUInt8 = 0 ↔ s + k ≤ 8) ∧ ∀ j < 8,
    ((flag >>> UInt16.ofNat s) >>> 8).toUInt8.toNat.testBit (7 - j) = decide (s ≤ j ∧ j < s + k) ∧
      (flag >>> UInt16.ofNat s).toUInt8.toNat.testBit (7 - j) = decide (j + 8 < s + k)

theorem isMask_setBitsMasks :
    IsMask set2BitsMask 2 ∧ IsMask set3BitsMask 3 ∧ IsMask set4BitsMask 4 ∧
      IsMask set5BitsMask 5 ∧ IsMask set6BitsMask 6 ∧ IsMask set7BitsMask 7 := by
  refine ⟨?_, ?_, ?_, ?_, ?_, ?_⟩ <;> unfold IsMask <;> decide

theorem set1_spec : ChunkSpec set1 1 := by
  intro bits pos hlen hc
  obtain ⟨bits', h, hl, hb⟩ :=
    orAt_spec (lookup.getD (pos % 8) 0) (show pos / 8 < bits.length by omega)
  refine ⟨bits', h, hl, fun q => ?_⟩
  rw [hb, (byteMasks_testBit (pos % 8) (Nat.mod_lt _ (by decide)) (q % 8)
    (Nat.mod_lt _ (by decide))).1]
  congr 1
  apply Bool.eq_iff_iff.mpr
  simp only [Bool.and_eq_true, decide_eq_true_eq]
  omega

theorem setN_spec {flag : UInt16} {k : ℕ} (hm : IsMask flag k) (hk : k ≤ 8) :
    ChunkSpec (fun bits pos => bits.setN flag pos) k := by
  intro bits pos hlen hc
  have hs : pos % 8 < 8 := Nat.mod_lt _ (by decide)
  obtain ⟨hzero, hbits⟩ := hm (pos % 8) hs
  obtain ⟨bits₁, h₁, hl₁, hb₁⟩ :=
    orAt_spec ((flag >>> UInt16.ofNat (pos % 8)) >>> 8).toUInt8 (show pos / 8 < bits.length by omega)
  -- the high byte sets the positions of the run within the byte of `pos`
  have hhigh : ∀ q, (decide (q / 8 = pos / 8) &&
      ((flag >>> UInt16.ofNat (pos % 8)) >>> 8).toUInt8.toNat.testBit (7 - q % 8)) =
        (decide (q / 8 = pos / 8) && decide (pos ≤ q ∧ q < pos + k)) := by
    intro q
    rw [(hbits (q % 8) (Nat.mod_lt _ (by decide))).1]
    apply Bool.eq_iff_iff.mpr
    simp only [Bool.and_eq_true, decide_eq_true_eq]
    omega
  by_cases hb : (flag >>> UInt16.ofNat (pos % 8)).toUInt8 = 0
  · -- nothing spills: the run ends within the byte
    have hfit := hzero.mp hb
    refine ⟨bits₁, by simp [setN, h₁, hb], hl₁, fun q => ?_⟩
    rw [hb₁, hhigh]
    congr 1
    apply Bool.eq_iff_iff.mpr
    simp only [Bool.and_eq_true, decide_eq_true_eq]
    omega
  · -- the rest of the run is assigned to the next byte, where nothing was set
    have hspill : 8 < pos % 8 + k := by
      by_contra h
      exact hb (hzero.mpr (by omega))
    obtain ⟨bits₂, h₂, hl₂, hb₂⟩ :=
      assignAt_spec (flag >>> UInt16.ofNat (pos % 8)).toUInt8
        (show pos / 8 + 1 < bits₁.length by omega) (fun q hq => by rw [hb₁, hc q (by omega)]; simp; omega)
    refine ⟨bits₂, by simp [setN, h₁, hb, h₂], hl₂.trans hl₁, fun q => ?_⟩
    rw [hb₂, hb₁, hhigh, (hbits (q % 8) (Nat.mod_lt _ (by decide))).2, Bool.or_assoc]
    congr 1
    apply Bool.eq_iff_iff.mpr
    simp only [Bool.or_eq_true, Bool.and_eq_true, decide_eq_true_eq]
    omega

theorem set8_spec : ChunkSpec set8 8 := by
  intro bits pos hlen hc
  obtain ⟨-, hfirst, hnext, -⟩ := byteMasks_testBit (pos % 8) (Nat.mod_lt _ (by decide)) 0 (by decide)
  obtain ⟨bits₁, h₁, hl₁, hb₁⟩ :=
    orAt_spec ((0xFF : UInt8) >>> UInt8.ofNat (pos % 8)) (show pos / 8 < bits.length by omega)
  obtain ⟨bits₂, h₂, hl₂, hb₂⟩ :=
    assignAt_spec (~~~((0xFF : UInt8) >>> UInt8.ofNat (pos % 8)))
      (show pos / 8 + 1 < bits₁.length by omega) (fun q hq => by rw [hb₁, hc q (by omega)]; simp; omega)
  refine ⟨bits₂, by simp [set8, h₁, h₂], ⟨hl₂.trans hl₁, fun q => ?_⟩⟩
  have hq := byteMasks_testBit (pos % 8) (Nat.mod_lt _ (by decide)) (q % 8) (Nat.mod_lt _ (by decide))
  rw [hb₂, hb₁, hq.2.1, hq.2.2.1, Bool.or_assoc]
  congr 1
  apply Bool.eq_iff_iff.mpr
  simp only [Bool.or_eq_true, Bool.and_eq_true, decide_eq_true_eq]
  omega

theorem set16_spec : ChunkSpec set16 16 := by
  intro bits pos hlen hc
  obtain ⟨bits₁, h₁, hl₁, hb₁⟩ :=
    orAt_spec ((0xFF : UInt8) >>> UInt8.ofNat (pos % 8)) (show pos / 8 < bits.length by omega)
  obtain ⟨bits₂, h₂, hl₂, hb₂⟩ :=
    assignAt_spec 0xFF (show pos / 8 + 1 < bits₁.length by omega) (fun q hq => by rw [hb₁, hc q (by omega)]; simp; omega)
  obtain ⟨bits₃, h₃, hl₃, hb₃⟩ :=
    assignAt_spec (~~~((0xFF : UInt8) >>> UInt8.ofNat (pos % 8)))
      (show pos / 8 + 2 < bits₂.length by omega) (fun q hq => by rw [hb₂, hb₁, hc q (by omega)]; simp; omega)
  refine ⟨bits₃, by simp [set16, h₁, h₂, h₃], ⟨hl₃.trans (hl₂.trans hl₁), fun q => ?_⟩⟩
  have hq := byteMasks_testBit (pos % 8) (Nat.mod_lt _ (by decide)) (q % 8) (Nat.mod_lt _ (by decide))
  rw [hb₃, hb₂, hb₁, hq.2.1, hq.2.2.1, hq.2.2.2, Bool.and_true, Bool.or_assoc, Bool.or_assoc]
  congr 1
  apply Bool.eq_iff_iff.mpr
  simp only [Bool.or_eq_true, Bool.and_eq_true, decide_eq_true_eq]
  omega

end bitvec

/-! ### Where a push's data end -/

section Advance

variable {bits bits' : bitvec} {pc pc' n m : ℕ}

theorem set16Loop_pc : set16Loop bits pc n = some (bits', pc', m) → pc' + m = pc + n ∧ m < 16 := by
  induction n using Nat.strong_induction_on generalizing bits pc with
  | _ n ih =>
  intro h
  rw [set16Loop] at h
  split_ifs at h with hn
  · obtain ⟨bits₁, -, h⟩ := Option.bind_eq_some_iff.mp h
    have := ih (n - 16) (by omega) h
    omega
  · obtain ⟨rfl, rfl, rfl⟩ : bits = bits' ∧ pc = pc' ∧ n = m := by simpa using h
    omega

theorem set8Loop_pc : set8Loop bits pc n = some (bits', pc', m) → pc' + m = pc + n ∧ m < 8 := by
  induction n using Nat.strong_induction_on generalizing bits pc with
  | _ n ih =>
  intro h
  rw [set8Loop] at h
  split_ifs at h with hn
  · obtain ⟨bits₁, -, h⟩ := Option.bind_eq_some_iff.mp h
    have := ih (n - 8) (by omega) h
    omega
  · obtain ⟨rfl, rfl, rfl⟩ : bits = bits' ∧ pc = pc' ∧ n = m := by simpa using h
    omega

theorem setSwitch_pc (hm : m < 8) (h : setSwitch bits pc m = some (bits', pc')) : pc' = pc + m := by
  match m, hm with
  | 0, _ => simp only [setSwitch, pure, Option.some.injEq, Prod.mk.injEq] at h; omega
  | 1, _ | 2, _ | 3, _ | 4, _ | 5, _ | 6, _ | 7, _ =>
    simp only [setSwitch, bind, pure, Option.bind_eq_some_iff, Option.some.injEq,
      Prod.mk.injEq] at h
    obtain ⟨_, -, -, rfl⟩ := h
    rfl

/-- A push's data end `numbits` bytes on. -/
theorem setPush_pc (h : setPush bits pc n = some (bits', pc')) : pc' = pc + n := by
  unfold setPush at h
  split_ifs at h with hn
  · simp only [bind, Option.bind_eq_some_iff] at h
    obtain ⟨⟨bits₁, pc₁, m₁⟩, h16, ⟨bits₂, pc₂, m₂⟩, h8, hswitch⟩ := h
    dsimp only at h8 hswitch
    obtain ⟨h16pc, -⟩ := set16Loop_pc h16
    obtain ⟨h8pc, h8m⟩ := set8Loop_pc h8
    have := setSwitch_pc h8m hswitch
    omega
  · have := setSwitch_pc (by omega) h
    omega

/-! ### The data of a push -/

theorem ChunkSpec.step {set : bitvec → ℕ → Option bitvec} {k : ℕ} (hs : ChunkSpec set k)
    (hlen : (pc + k) / 8 < bits.length) (hc : Clear bits pc) :
    ∃ bits', (do return (← set bits pc, pc + k) : Option (bitvec × ℕ)) = some (bits', pc + k) ∧
      Writes bits bits' pc (pc + k) := by
  obtain ⟨bits', h, hw⟩ := hs bits pc hlen hc
  exact ⟨bits', by simp [h], hw⟩

theorem set16Loop_spec : ∀ n (bits : bitvec) pc, (pc + n) / 8 < bits.length → Clear bits pc →
    ∃ bits' pc' m, set16Loop bits pc n = some (bits', pc', m) ∧ pc' + m = pc + n ∧ m < 16 ∧
      pc ≤ pc' ∧ Writes bits bits' pc pc' := by
  intro n
  induction n using Nat.strong_induction_on with
  | _ n ih =>
  intro bits pc hlen hc
  rw [set16Loop]
  split_ifs with hn
  · -- sixteen bits, then the loop from sixteen bytes on
    obtain ⟨bits₁, h₁, hw₁⟩ := set16_spec bits pc (by omega) hc
    obtain ⟨bits', pc', m, h, hpc, hm, hle, hw⟩ :=
      ih (n - 16) (by omega) bits₁ (pc + 16) (by rw [hw₁.1]; omega) (hc.of_writes hw₁ (by omega))
    exact ⟨bits', pc', m, by simp [h₁, h], by omega, hm, by omega,
      hw₁.trans hw (by omega) hle⟩
  · exact ⟨bits, pc, n, rfl, rfl, by omega, Nat.le_refl _, Writes.refl bits pc⟩

theorem set8Loop_spec : ∀ n (bits : bitvec) pc, (pc + n) / 8 < bits.length → Clear bits pc →
    ∃ bits' pc' m, set8Loop bits pc n = some (bits', pc', m) ∧ pc' + m = pc + n ∧ m < 8 ∧
      pc ≤ pc' ∧ Writes bits bits' pc pc' := by
  intro n
  induction n using Nat.strong_induction_on with
  | _ n ih =>
  intro bits pc hlen hc
  rw [set8Loop]
  split_ifs with hn
  · -- eight bits, then the loop from eight bytes on
    obtain ⟨bits₁, h₁, hw₁⟩ := set8_spec bits pc (by omega) hc
    obtain ⟨bits', pc', m, h, hpc, hm, hle, hw⟩ :=
      ih (n - 8) (by omega) bits₁ (pc + 8) (by rw [hw₁.1]; omega) (hc.of_writes hw₁ (by omega))
    exact ⟨bits', pc', m, by simp [h₁, h], by omega, hm, by omega,
      hw₁.trans hw (by omega) hle⟩
  · exact ⟨bits, pc, n, rfl, rfl, by omega, Nat.le_refl _, Writes.refl bits pc⟩

theorem setSwitch_spec (hm : m < 8) (hlen : (pc + m) / 8 < bits.length) (hc : Clear bits pc) :
    ∃ bits', setSwitch bits pc m = some (bits', pc + m) ∧ Writes bits bits' pc (pc + m) := by
  obtain ⟨h2, h3, h4, h5, h6, h7⟩ := isMask_setBitsMasks
  match m, hm with
  | 0, _ => exact ⟨bits, rfl, Writes.refl bits pc⟩
  | 1, _ => exact ChunkSpec.step set1_spec hlen hc
  | 2, _ => exact ChunkSpec.step (setN_spec h2 (by decide)) hlen hc
  | 3, _ => exact ChunkSpec.step (setN_spec h3 (by decide)) hlen hc
  | 4, _ => exact ChunkSpec.step (setN_spec h4 (by decide)) hlen hc
  | 5, _ => exact ChunkSpec.step (setN_spec h5 (by decide)) hlen hc
  | 6, _ => exact ChunkSpec.step (setN_spec h6 (by decide)) hlen hc
  | 7, _ => exact ChunkSpec.step (setN_spec h7 (by decide)) hlen hc

/-- **A push's data.** The writes of one push set the bits of its data, and
stay in range when the byte after the data is. -/
theorem setPush_spec (hlen : (pc + n) / 8 < bits.length) (hc : Clear bits pc) :
    ∃ bits', setPush bits pc n = some (bits', pc + n) ∧ Writes bits bits' pc (pc + n) := by
  unfold setPush
  split_ifs with hn
  · -- at least eight bytes: the loops, then the rest
    obtain ⟨bits₁, pc₁, m₁, h₁, hpc₁, -, hle₁, hw₁⟩ := set16Loop_spec n bits pc hlen hc
    obtain ⟨bits₂, pc₂, m₂, h₂, hpc₂, hm₂, hle₂, hw₂⟩ :=
      set8Loop_spec m₁ bits₁ pc₁ (by rw [hw₁.1]; omega) (hc.of_writes hw₁ hle₁)
    obtain ⟨bits₃, h₃, hw₃⟩ := setSwitch_spec hm₂ (by rw [hw₂.1, hw₁.1]; omega)
      ((hc.of_writes hw₁ hle₁).of_writes hw₂ hle₂)
    have hend : pc₂ + m₂ = pc + n := by omega
    refine ⟨bits₃, ?_, ?_⟩
    · simp only [bind, Option.bind_eq_some_iff]
      exact ⟨(bits₁, pc₁, m₁), h₁, (bits₂, pc₂, m₂), h₂, by dsimp only; rw [h₃, hend]⟩
    · rw [← hend]
      exact (hw₁.trans hw₂ hle₁ hle₂).trans hw₃ (Nat.le_trans hle₁ hle₂) (Nat.le_add_right _ _)
  · exact setSwitch_spec (by omega) hlen hc

end Advance

/-- The sweep of `codeBitmapInternal` from `pc`: an opcode byte, and after a
push its data. -/
def codeBitmapLoop (code : List UInt8) (bits : bitvec) (pc : ℕ) : Option bitvec :=
  if h : pc < code.length then
    let op := code[pc]
    let pc := pc + 1
    if op < PUSH1 ∨ op > PUSH32 then codeBitmapLoop code bits pc
    else
      match hp : setPush bits pc (op - PUSH1 + 1).toNat with
      | none => none
      | some (bits, pc') => codeBitmapLoop code bits pc'
  else some bits
termination_by code.length - pc
decreasing_by
  · omega
  · have := setPush_pc hp
    omega

-- the equations of `codeBitmapLoop`, made once here for its case lemmas below
attribute [local grind] codeBitmapLoop

/-- `codeBitmapInternal`. -/
def codeBitmapInternal (code : List UInt8) (bits : bitvec) : Option bitvec :=
  codeBitmapLoop code bits 0

/-- `codeBitmap`: a bitvec four bytes longer than the code needs, for the data
of a push at the end that runs past it. -/
def codeBitmap (code : List UInt8) : Option bitvec :=
  codeBitmapInternal code (List.replicate (code.length / 8 + 1 + 4) 0)

/-! ### The linear sweep -/

/-- The number of immediate bytes after an opcode: `n` after `PUSHn`. -/
def pushSize (op : UInt8) : ℕ := if PUSH1 ≤ op ∧ op ≤ PUSH32 then (op - PUSH1).toNat + 1 else 0

/-- The opcode positions of the code from `pc` on, skipping each push's data. -/
def scanFrom (code : List UInt8) (pc : ℕ) : List ℕ :=
  if h : pc < code.length then pc :: scanFrom code (pc + 1 + pushSize code[pc]) else []
termination_by code.length - pc

-- the equations of `scanFrom`, made once here for the lemmas below
attribute [local grind] scanFrom

/-! ### The sweep follows the linear sweep -/

section Sweep

variable {code : List UInt8} {bits bits' : bitvec} {pc pc' : ℕ}

theorem scanFrom_of_lt (h : pc < code.length) :
    scanFrom code pc = pc :: scanFrom code (pc + 1 + pushSize code[pc]) := by
  rw [scanFrom, dif_pos h]

theorem scanFrom_of_ge (h : code.length ≤ pc) : scanFrom code pc = [] := by
  rw [scanFrom, dif_neg (by omega)]

/-- The sweep from `pc` lists nothing before `pc`. -/
theorem le_of_mem_scanFrom {q : ℕ} : q ∈ scanFrom code pc → pc ≤ q := by
  induction hk : code.length - pc using Nat.strong_induction_on generalizing pc with
  | _ k ih =>
  intro hq
  by_cases h : pc < code.length
  · rw [scanFrom_of_lt h] at hq
    rcases List.mem_cons.mp hq with rfl | hq
    · exact Nat.le_refl _
    · have := ih _ (by omega) rfl hq
      omega
  · rw [scanFrom_of_ge (by omega)] at hq
    exact absurd hq List.not_mem_nil

theorem pushSize_le (op : UInt8) : pushSize op ≤ 32 := by
  unfold pushSize
  split_ifs with h
  · have h₁ := UInt8.le_iff_toNat_le.mp h.1
    have h₂ := UInt8.le_iff_toNat_le.mp h.2
    rw [UInt8.toNat_sub_of_le _ _ h.1]
    simp only [PUSH1, PUSH32, UInt8.reduceToNat] at h₁ h₂ ⊢
    omega
  · omega

/-- `numbits`: the push's size, in the byte arithmetic of the code. -/
theorem numbits_eq {op : UInt8} (h : ¬(op < PUSH1 ∨ op > PUSH32)) :
    (op - PUSH1 + 1).toNat = pushSize op := by
  have hp : PUSH1 ≤ op ∧ op ≤ PUSH32 := ⟨UInt8.not_lt.mp (fun h' => h (Or.inl h')),
    UInt8.not_lt.mp (fun h' => h (Or.inr h'))⟩
  have h₂ := UInt8.le_iff_toNat_le.mp hp.2
  have hsub := UInt8.toNat_sub_of_le _ _ hp.1
  simp only [PUSH32, UInt8.reduceToNat] at h₂
  rw [pushSize, if_pos hp, UInt8.toNat_add, hsub]
  simp only [PUSH1, UInt8.reduceToNat] at hsub ⊢
  omega

theorem pushSize_eq_zero {op : UInt8} (h : op < PUSH1 ∨ op > PUSH32) : pushSize op = 0 := by
  rw [pushSize, if_neg]
  rintro ⟨h₁, h₂⟩
  rcases h with h | h
  · exact absurd h (UInt8.not_lt.mpr h₁)
  · exact absurd h (UInt8.not_lt.mpr h₂)

theorem codeBitmapLoop_of_ge (h : code.length ≤ pc) : codeBitmapLoop code bits pc = some bits := by
  rw [codeBitmapLoop, dif_neg (by omega)]

/-- An opcode that is not a push: on to the next byte. -/
theorem codeBitmapLoop_op (h : pc < code.length) (hop : code[pc] < PUSH1 ∨ code[pc] > PUSH32) :
    codeBitmapLoop code bits pc = codeBitmapLoop code bits (pc + 1) := by
  rw [codeBitmapLoop, dif_pos h]
  exact if_pos hop

/-- A push: its data, then on past them. -/
theorem codeBitmapLoop_push (h : pc < code.length) (hop : ¬(code[pc] < PUSH1 ∨ code[pc] > PUSH32))
    (hs : setPush bits (pc + 1) (pushSize code[pc]) = some (bits', pc')) :
    codeBitmapLoop code bits pc = codeBitmapLoop code bits' pc' := by
  rw [codeBitmapLoop, dif_pos h]
  dsimp only
  rw [if_neg hop]
  split
  · rename_i hnone
    rw [numbits_eq hop, hs] at hnone
    cases hnone
  · rename_i b p hsome
    rw [numbits_eq hop, hs, Option.some.injEq, Prod.mk.injEq] at hsome
    obtain ⟨rfl, rfl⟩ := hsome
    rfl

/-- **The sweep.** From a position of the linear sweep, with the bits from it
on clear and room for the data of a push at the end, `codeBitmapInternal`'s
loop stays in range and sets, within the code, exactly the positions from
there on that the linear sweep skips. -/
theorem codeBitmapLoop_spec (hL : code.length / 8 + 5 ≤ bits.length) (hc : Clear bits pc) :
    ∃ bits', codeBitmapLoop code bits pc = some bits' ∧ bits'.length = bits.length ∧
      ∀ q < code.length,
        bitAt bits' q = (bitAt bits q || (decide (pc ≤ q) && decide (q ∉ scanFrom code pc))) := by
  -- on the code left to sweep
  induction hk : code.length - pc using Nat.strong_induction_on generalizing pc bits with
  | _ k ih =>
  by_cases h : pc < code.length
  · by_cases hop : code[pc] < PUSH1 ∨ code[pc] > PUSH32
    · -- an opcode: the sweep moves one byte on
      obtain ⟨bits', hloop, hl, hb⟩ := ih (code.length - (pc + 1)) (by omega) hL
        (show Clear bits (pc + 1) from fun q hq => hc q (by omega)) rfl
      refine ⟨bits', by rw [codeBitmapLoop_op h hop, hloop], hl, fun q hq => ?_⟩
      rw [hb q hq, scanFrom_of_lt h, pushSize_eq_zero hop, Nat.add_zero]
      congr 1
      apply Bool.eq_iff_iff.mpr
      simp only [Bool.and_eq_true, decide_eq_true_eq, List.mem_cons, not_or]
      constructor
      · rintro ⟨hq₁, hq₂⟩
        exact ⟨by omega, by omega, hq₂⟩
      · rintro ⟨hq₁, hq₂, hq₃⟩
        exact ⟨by omega, hq₃⟩
    · -- a push: its data set, then the sweep moves past them
      have hsize := pushSize_le code[pc]
      obtain ⟨bits₁, hs, hw⟩ :=
        setPush_spec (show (pc + 1 + pushSize code[pc]) / 8 < bits.length by omega)
          (fun q hq => hc q (by omega))
      obtain ⟨bits', hloop, hl, hb⟩ :=
        ih (code.length - (pc + 1 + pushSize code[pc])) (by omega) (hw.1 ▸ hL)
          (Clear.of_writes (fun q hq => hc q (by omega)) hw (by omega)) rfl
      refine ⟨bits', by rw [codeBitmapLoop_push h hop hs, hloop], hl.trans hw.1, fun q hq => ?_⟩
      rw [hb q hq, hw.2, scanFrom_of_lt h, Bool.or_assoc]
      congr 1
      -- the data are no opcode positions: the sweep from past them lists none of them
      have hdata : q < pc + 1 + pushSize code[pc] → q ∉ scanFrom code (pc + 1 + pushSize code[pc]) :=
        fun hq' hm => absurd (le_of_mem_scanFrom hm) (by omega)
      apply Bool.eq_iff_iff.mpr
      simp only [Bool.or_eq_true, Bool.and_eq_true, decide_eq_true_eq, List.mem_cons, not_or]
      constructor
      · rintro (⟨hq₁, hq₂⟩ | ⟨hq₁, hq₂⟩)
        · exact ⟨by omega, by omega, hdata hq₂⟩
        · exact ⟨by omega, by omega, hq₂⟩
      · rintro ⟨hq₁, hq₂, hq₃⟩
        by_cases hq₄ : q < pc + 1 + pushSize code[pc]
        · exact Or.inl ⟨by omega, hq₄⟩
        · exact Or.inr ⟨by omega, hq₃⟩
  · -- past the code: the loop ends, and no position of the code is left
    refine ⟨bits, codeBitmapLoop_of_ge (by omega), rfl, fun q hq => ?_⟩
    have hpq : decide (pc ≤ q) = false := decide_eq_false (by omega)
    rw [hpq, Bool.false_and, Bool.or_false]

end Sweep

/-- A clear bit is a code segment. -/
theorem byte_and_bit_eq_zero (b : UInt8) {s : ℕ} (hs : s < 8) :
    ((b &&& ((0x80 : UInt8) >>> UInt8.ofNat s)) == 0) = !b.toNat.testBit (7 - s) := by
  have hm : ((0x80 : UInt8) >>> UInt8.ofNat s).toNat = 2 ^ (7 - s) :=
    (by decide : ∀ s < 8, ((0x80 : UInt8) >>> UInt8.ofNat s).toNat = 2 ^ (7 - s)) s hs
  have hand : (b &&& ((0x80 : UInt8) >>> UInt8.ofNat s)).toNat =
      (b.toNat.testBit (7 - s)).toNat * 2 ^ (7 - s) := by
    rw [UInt8.toNat_and, hm, Nat.and_two_pow]
  apply Bool.eq_iff_iff.mpr
  rw [beq_iff_eq, ← UInt8.toNat_inj, hand, UInt8.toNat_zero]
  cases b.toNat.testBit (7 - s) <;> simp

theorem codeSegment_eq {bits : bitvec} {pos : ℕ} (h : pos / 8 < bits.length) :
    bits.codeSegment pos = some (!bitAt bits pos) := by
  rw [codeSegment, dif_pos h, bitAt, List.getD_eq_getElem _ _ h,
    byte_and_bit_eq_zero _ (Nat.mod_lt _ (by decide))]

/-- **The jump-destination bitmap is the linear sweep.** `codeBitmap` never
writes outside the `len(code)/8+1+4` bytes it allocates, and a position of the
code is a code segment exactly when the linear sweep of the code, skipping the
`n` bytes after each `PUSHn`, reaches it as an opcode. -/
theorem codeBitmap_codeSegment (code : List UInt8) :
    ∃ bits, codeBitmap code = some bits ∧ bits.length = code.length / 8 + 1 + 4 ∧
      ∀ p < code.length, bits.codeSegment p = some (decide (p ∈ scanFrom code 0)) := by
  -- the allocated bitvec has no bit set
  have hzero : ∀ q, bitAt (List.replicate (code.length / 8 + 1 + 4) 0) q = false := by
    intro q
    rw [bitAt, List.getD_eq_getElem?_getD, List.getElem?_replicate]
    split_ifs <;> simp
  have hroom : code.length / 8 + 5 ≤ (List.replicate (code.length / 8 + 1 + 4) (0 : UInt8)).length := by
    rw [List.length_replicate]
  obtain ⟨bits, hloop, hl, hb⟩ :=
    codeBitmapLoop_spec hroom (show Clear _ 0 from fun q _ => hzero q)
  rw [List.length_replicate] at hl
  refine ⟨bits, hloop, hl, fun p hp => ?_⟩
  rw [codeSegment_eq (by omega), hb p hp, hzero p]
  simp

end vm

end PureChain
