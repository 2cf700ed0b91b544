import Mathlib.Data.Int.Notation
import Mathlib.Data.List.GetD
import PureChain.Lib.Heap

/-!
# Package `prque`: a priority queue on a block-based stack

`Prque` runs `container/heap` over an `sstack`, a stack of `item`s (a value and
an `int64` priority) kept in blocks of `blockSize` slots. A push writes to the
`active` block at `offset`, appending a new block when every slot is used, and
a pop clears the slot before it; a position `i` of the heap is slot
`i % blockSize` of block `i / blockSize`. The queue pops the item of greatest
priority: `Less` puts `a` before `b` when `a > b`, or, for a queue made by
`NewWrapAround`, when `a - b > 0` in `int64` arithmetic, which orders
priorities that lie within `2^63` of each other along the circle of `int64`s.

Whenever an item moves, the optional `SetIndexCallback` is told its new
position, or `-1` once it is popped; the callback is the application's, and
what it was told, the latest call first, is `calls` here.

`Reset` builds a new stack with `wrapAround` false, in `sstack.Reset` and in
`Prque.Reset` alike, so a wrap-around queue is a plain one after it
(`Reset_forgets_wrapAround`).
-/

namespace PureChain

namespace prque

/-- `blockSize`: the slots of a block. -/
def blockSize : ℕ := 4096

/-- `item`: a value and its priority. -/
structure item (V : Type) where
  value : V
  priority : Int64

/-- `sstack`. The slice `active` always aliases one of `blocks`, so it is that
block's index here; a block is its `blockSize` slots, each an item or `nil`.
`hasSetIndex` is whether a `SetIndexCallback` was given, and `calls` what it
was told. -/
structure sstack (V : Type) where
  hasSetIndex : Bool
  calls : List (V × ℤ)
  size : ℕ
  capacity : ℕ
  offset : ℕ
  wrapAround : Bool
  blocks : List (ℕ → Option (item V))
  active : ℕ

variable {V : Type}

/-- `newSstack`: one empty block, active. -/
def newSstack (hasSetIndex : Bool) (calls : List (V × ℤ)) (wrapAround : Bool) : sstack V where
  hasSetIndex := hasSetIndex
  calls := calls
  size := 0
  capacity := blockSize
  offset := 0
  wrapAround := wrapAround
  blocks := [fun _ => none]
  active := 0

namespace sstack

/-- The callback, when there is one, told that `v` is now at `index`. -/
def setIndex (s : sstack V) (v : V) (index : ℤ) : sstack V :=
  if s.hasSetIndex then { s with calls := (v, index) :: s.calls } else s

/-- Slot `o` of block `b`. -/
def slot (s : sstack V) (b o : ℕ) : Option (item V) := (s.blocks.getD b fun _ => none) o

/-- Slot `o` of block `b`, written. -/
def write (s : sstack V) (b o : ℕ) (x : Option (item V)) : sstack V :=
  { s with blocks := s.blocks.modify b fun blk => Function.update blk o x }

/-- The first part of `sstack.Push`: a new block when every slot is used, the
next block when the active one is full. -/
def makeRoom (s : sstack V) : sstack V :=
  if s.size = s.capacity then
    { s with
      blocks := s.blocks ++ [fun _ => none]
      active := s.blocks.length
      capacity := s.capacity + blockSize
      offset := 0 }
  else if s.offset = blockSize then { s with active := s.size / blockSize, offset := 0 }
  else s

/-- `sstack.Push`: room made, and the item written at `offset`. -/
def Push (s : sstack V) (data : item V) : sstack V :=
  let s := s.makeRoom
  let s := s.setIndex data.value s.size
  let s := s.write s.active s.offset (some data)
  { s with offset := s.offset + 1, size := s.size + 1 }

/-- `sstack.Pop`: the slot before `offset`, in the block before when `offset`
is `0`, read and cleared. -/
def Pop (s : sstack V) : Option (item V) × sstack V :=
  let size := s.size - 1
  let offset : ℤ := (s.offset : ℤ) - 1
  let (offset, active) :=
    if offset < 0 then (blockSize - 1, size / blockSize) else (offset.toNat, s.active)
  let res := s.slot active offset
  let s := { s with size := size, offset := offset, active := active }.write active offset none
  let s := match res with
    | some r => s.setIndex r.value (-1)
    | none => s
  (res, s)

/-- `sstack.Len`. -/
def Len (s : sstack V) : ℕ := s.size

/-- `sstack.Less`: the item at `i` has the greater priority. Reading a `nil`
slot is a panic of the source. -/
def Less (s : sstack V) (i j : ℕ) : Bool :=
  match s.slot (i / blockSize) (i % blockSize), s.slot (j / blockSize) (j % blockSize) with
  | some a, some b => if s.wrapAround then a.priority - b.priority > 0 else a.priority > b.priority
  | _, _ => false

/-- `sstack.Swap`, telling the callback where the two items went. -/
def Swap (s : sstack V) (i j : ℕ) : sstack V :=
  let a := s.slot (j / blockSize) (j % blockSize)
  let b := s.slot (i / blockSize) (i % blockSize)
  let s := match a, b with
    | some a, some b => (s.setIndex a.value i).setIndex b.value j
    | _, _ => s
  (s.write (i / blockSize) (i % blockSize) a).write (j / blockSize) (j % blockSize) b

/-- `sstack.Reset`: a new stack with the same callback, and `wrapAround` false. -/
def Reset (s : sstack V) : sstack V := newSstack s.hasSetIndex s.calls false

/-- The `heap.Interface` of an `sstack`. -/
def heapInterface : heap.Interface (sstack V) (item V) where
  Len := Len
  Less := Less
  Swap := Swap
  Push := Push
  Pop := Pop

end sstack

/-! ### The blocks, as one array -/

namespace sstack

/-- Position `i` of the heap: slot `i % blockSize` of block `i / blockSize`. -/
def get (s : sstack V) (i : ℕ) : Option (item V) := s.slot (i / blockSize) (i % blockSize)

/-- **What the code keeps of its blocks**: the capacity is every block's slots,
the active block is one of them, and `size` is the position `offset` of the
active block stands for, `offset` being at most a block. -/
structure Inv (s : sstack V) : Prop where
  capacity : s.capacity = s.blocks.length * blockSize
  active : s.active < s.blocks.length
  size : s.size = s.active * blockSize + s.offset
  offset : s.offset ≤ blockSize

section Blocks

variable {s : sstack V}

@[simp] theorem blocks_setIndex (v : V) (k : ℤ) : (s.setIndex v k).blocks = s.blocks := by
  unfold setIndex; split <;> rfl

@[simp] theorem size_setIndex (v : V) (k : ℤ) : (s.setIndex v k).size = s.size := by
  unfold setIndex; split <;> rfl

@[simp] theorem active_setIndex (v : V) (k : ℤ) : (s.setIndex v k).active = s.active := by
  unfold setIndex; split <;> rfl

@[simp] theorem offset_setIndex (v : V) (k : ℤ) : (s.setIndex v k).offset = s.offset := by
  unfold setIndex; split <;> rfl

@[simp] theorem capacity_setIndex (v : V) (k : ℤ) : (s.setIndex v k).capacity = s.capacity := by
  unfold setIndex; split <;> rfl

@[simp] theorem wrapAround_setIndex (v : V) (k : ℤ) : (s.setIndex v k).wrapAround = s.wrapAround := by
  unfold setIndex; split <;> rfl

@[simp] theorem get_setIndex (v : V) (k : ℤ) (i : ℕ) : (s.setIndex v k).get i = s.get i := by
  simp [get, slot]

@[simp] theorem length_write (b o : ℕ) (x : Option (item V)) :
    (s.write b o x).blocks.length = s.blocks.length := by
  simp [write]

/-- Two positions are one exactly when their blocks and slots are. -/
theorem eq_iff_div_mod {i j : ℕ} : i = j ↔ i / blockSize = j / blockSize ∧ i % blockSize = j % blockSize := by
  constructor
  · rintro rfl
    exact ⟨rfl, rfl⟩
  · rintro ⟨hd, hm⟩
    rw [← Nat.div_add_mod i blockSize, ← Nat.div_add_mod j blockSize, hd, hm]

/-- Writing the slot of a position inside the blocks changes that position only. -/
theorem get_write {i : ℕ} (hi : i / blockSize < s.blocks.length) (x : Option (item V)) (j : ℕ) :
    (s.write (i / blockSize) (i % blockSize) x).get j = if j = i then x else s.get j := by
  simp only [get, slot, write, List.getD_eq_getElem?_getD, List.getElem?_modify]
  by_cases hb : i / blockSize = j / blockSize
  · rw [← hb, List.getElem?_eq_getElem hi]
    simp only [if_true, Option.map_eq_map, Option.map_some, Option.getD_some]
    by_cases ho : i % blockSize = j % blockSize
    · rw [if_pos (eq_iff_div_mod.2 ⟨hb.symm, ho.symm⟩), ← ho, Function.update_self]
    · rw [if_neg (fun h => ho (eq_iff_div_mod.1 h).2.symm), Function.update_of_ne (Ne.symm ho)]
  · rw [if_neg (fun h => hb (eq_iff_div_mod.1 h).1.symm)]
    cases (s.blocks)[j / blockSize]? <;> simp [hb]

/-- The block and slot of a position. -/
theorem div_mod_of_eq {n a o : ℕ} (h : n = a * blockSize + o) (ho : o < blockSize) :
    n / blockSize = a ∧ n % blockSize = o := by
  have hB : 0 < blockSize := by decide
  constructor
  · rw [h, Nat.add_comm, Nat.add_mul_div_right _ _ hB, Nat.div_eq_of_lt ho, Nat.zero_add]
  · rw [h, Nat.add_comm, Nat.add_mul_mod_self_right, Nat.mod_eq_of_lt ho]

@[simp] theorem size_write (b o : ℕ) (x : Option (item V)) : (s.write b o x).size = s.size := rfl
@[simp] theorem active_write (b o : ℕ) (x : Option (item V)) : (s.write b o x).active = s.active := rfl
@[simp] theorem offset_write (b o : ℕ) (x : Option (item V)) : (s.write b o x).offset = s.offset := rfl
@[simp] theorem capacity_write (b o : ℕ) (x : Option (item V)) :
    (s.write b o x).capacity = s.capacity := rfl

/-- A block of nils appended changes no slot. -/
theorem getD_append_default {β : Type} (l : List β) (d : β) (b : ℕ) : (l ++ [d]).getD b d = l.getD b d := by
  by_cases hb : b < l.length
  · exact List.getD_append _ _ _ _ hb
  · rw [List.getD_append_right _ _ _ _ (by omega), List.getD_eq_default l d (show l.length ≤ b by omega)]
    cases b - l.length <;> rfl

/-- **`makeRoom` at a block boundary**: a new, empty block when every slot is
used, the next block when the active one is full; either way the active block's
slot `offset` stands for position `size`, and every position holds what it held. -/
theorem makeRoom_spec (hs : s.Inv) :
    s.makeRoom.capacity = s.makeRoom.blocks.length * blockSize ∧
      s.makeRoom.active < s.makeRoom.blocks.length ∧ s.makeRoom.size = s.size ∧
      s.makeRoom.size = s.makeRoom.active * blockSize + s.makeRoom.offset ∧
      s.makeRoom.offset < blockSize ∧ ∀ j, s.makeRoom.get j = s.get j := by
  have hB : 0 < blockSize := by decide
  have hcap := hs.capacity
  unfold makeRoom
  split
  case isTrue hfull =>
    -- every slot is used: `size` is the first position of the new block
    refine ⟨by simp [hcap, Nat.add_mul], by simp, rfl, by simp only [Nat.add_zero]; omega, hB, fun j => ?_⟩
    simp only [get, slot, getD_append_default]
  case isFalse hfull =>
    split
    case isTrue hoff =>
      -- the active block is full: `size` is the first position of the next
      have hsize : s.size = (s.active + 1) * blockSize := by rw [hs.size, hoff, Nat.succ_mul]
      have hle : s.size ≤ s.capacity := by
        rw [hsize, hcap]
        exact Nat.mul_le_mul_right _ hs.active
      refine ⟨hcap, ?_, rfl, ?_, hB, fun j => rfl⟩
      · show s.size / blockSize < s.blocks.length
        rw [Nat.div_lt_iff_lt_mul hB]
        omega
      · show s.size = s.size / blockSize * blockSize + 0
        rw [Nat.add_zero, hsize, Nat.mul_div_cancel _ hB]
    case isFalse hoff =>
      exact ⟨hcap, hs.active, rfl, hs.size, Nat.lt_of_le_of_ne hs.offset hoff, fun j => rfl⟩

/-- **`Push` puts the item at position `size`**, whatever block that is in, and
leaves every other position as it was. -/
theorem Push_spec (hs : s.Inv) (d : item V) :
    (s.Push d).Inv ∧ (s.Push d).size = s.size + 1 ∧
      ∀ j, (s.Push d).get j = if j = s.size then some d else s.get j := by
  obtain ⟨hcap, hact, hsz, hsize, ho, hget⟩ := makeRoom_spec hs
  obtain ⟨hdiv, hmod⟩ := div_mod_of_eq hsize ho
  rw [hsz] at hdiv hmod
  refine ⟨⟨?_, ?_, ?_, ?_⟩, by simp [Push, hsz], fun j => ?_⟩
  · simp [Push, hcap]
  · simp [Push, hact]
  · simp only [Push, size_write, size_setIndex, active_write, active_setIndex, offset_write, offset_setIndex]
    omega
  · simp only [Push, offset_write, offset_setIndex]
    omega
  -- the write is at the slot of position `size`
  have hw := get_write (s := s.makeRoom.setIndex d.value s.size) (i := s.size)
    (by simp only [blocks_setIndex]; rw [hdiv]; exact hact) (some d) j
  simp only [get_setIndex, hdiv, hmod, hget] at hw
  simpa only [Push, get, slot, size_setIndex, active_setIndex, offset_setIndex, hsz] using hw

theorem Inv_setIndex {v : V} {k : ℤ} : (s.setIndex v k).Inv ↔ s.Inv := by
  unfold setIndex
  split
  · exact ⟨fun h => ⟨h.capacity, h.active, h.size, h.offset⟩, fun h => ⟨h.capacity, h.active, h.size, h.offset⟩⟩
  · rfl

theorem Inv.size_le_capacity (hs : s.Inv) : s.size ≤ s.capacity := by
  have hact := Nat.mul_le_mul_right blockSize hs.active
  rw [Nat.succ_mul] at hact
  rw [hs.capacity, hs.size]
  have := hs.offset
  omega

/-- A position below `size` is in one of the blocks. -/
theorem Inv.div_lt (hs : s.Inv) {i : ℕ} (hi : i < s.size) : i / blockSize < s.blocks.length := by
  rw [Nat.div_lt_iff_lt_mul (by decide), ← hs.capacity]
  exact Nat.lt_of_lt_of_le hi hs.size_le_capacity

theorem Inv_write {b o : ℕ} {x : Option (item V)} : (s.write b o x).Inv ↔ s.Inv := by
  constructor
  · intro h
    exact ⟨by rw [← length_write b o x]; exact h.capacity, by rw [← length_write b o x]; exact h.active,
      h.size, h.offset⟩
  · intro h
    exact ⟨by rw [length_write]; exact h.capacity, by rw [length_write]; exact h.active, h.size, h.offset⟩

/-- Where `Pop` reads: the block and slot of position `size - 1`, in the block
before when `offset` is `0`. -/
theorem Pop_slot (hs : s.Inv) (h0 : 0 < s.size) :
    (if ((s.offset : ℤ) - 1) < 0 then (blockSize - 1, (s.size - 1) / blockSize)
      else (((s.offset : ℤ) - 1).toNat, s.active)) =
      ((s.size - 1) % blockSize, (s.size - 1) / blockSize) := by
  have hB : 0 < blockSize := by decide
  have hsize := hs.size
  split
  case isTrue hoff =>
    -- the first slot of a block: the last slot of the block before
    have ho : s.offset = 0 := by omega
    rw [ho, Nat.add_zero] at hsize
    obtain ⟨a, ha⟩ : ∃ a, s.active = a + 1 := Nat.exists_eq_succ_of_ne_zero fun h => by
      rw [h, Nat.zero_mul] at hsize
      omega
    have hlast : s.size - 1 = a * blockSize + (blockSize - 1) := by
      rw [hsize, ha, Nat.succ_mul]; omega
    rw [(div_mod_of_eq hlast (by omega)).2]
  case isFalse hoff =>
    have hlast : s.size - 1 = s.active * blockSize + (s.offset - 1) := by omega
    obtain ⟨hdiv, hmod⟩ := div_mod_of_eq hlast (by have := hs.offset; omega)
    rw [hdiv, hmod]
    congr 1
    omega

/-- **`Pop` takes the item at position `size - 1`**, in whatever block, clears
its slot, and leaves every other position as it was. -/
theorem Pop_spec (hs : s.Inv) (h0 : 0 < s.size) :
    s.Pop.1 = s.get (s.size - 1) ∧ s.Pop.2.Inv ∧ s.Pop.2.size = s.size - 1 ∧
      ∀ j, s.Pop.2.get j = if j = s.size - 1 then none else s.get j := by
  have hB : 0 < blockSize := by decide
  have hlt : (s.size - 1) / blockSize < s.blocks.length := hs.div_lt (by omega)
  simp only [Pop, Pop_slot hs h0]
  refine ⟨rfl, ?_⟩
  -- the stack with the slot cleared, before the callback is told
  generalize ht : ({ s with
      size := s.size - 1
      offset := (s.size - 1) % blockSize
      active := (s.size - 1) / blockSize } : sstack V).write ((s.size - 1) / blockSize)
      ((s.size - 1) % blockSize) none = t
  have htInv : t.Inv := by
    subst ht
    exact ⟨by simp [write, hs.capacity], by simpa [write] using hlt, by simp [Nat.div_add_mod'],
      by simp only [offset_write]; exact Nat.le_of_lt (Nat.mod_lt _ hB)⟩
  have htsize : t.size = s.size - 1 := by subst ht; rfl
  have htget : ∀ j, t.get j = if j = s.size - 1 then none else s.get j := fun j => by
    subst ht
    exact get_write (s := { s with
      size := s.size - 1
      offset := (s.size - 1) % blockSize
      active := (s.size - 1) / blockSize }) (i := s.size - 1) hlt none j
  cases s.slot ((s.size - 1) / blockSize) ((s.size - 1) % blockSize) with
  | none => exact ⟨htInv, htsize, htget⟩
  | some r => exact ⟨Inv_setIndex.2 htInv, by simp [htsize], fun j => by simp [htget]⟩

@[simp] theorem wrapAround_write (b o : ℕ) (x : Option (item V)) :
    (s.write b o x).wrapAround = s.wrapAround := rfl

/-- **`Swap` exchanges the items at `i` and `j`** and keeps the bookkeeping;
what the callback is told changes no slot. -/
theorem Swap_spec (hs : s.Inv) {i j : ℕ} (hi : i < s.size) (hj : j < s.size) :
    (s.Swap i j).Inv ∧ (s.Swap i j).size = s.size ∧ (s.Swap i j).wrapAround = s.wrapAround ∧
      ∀ k, (s.Swap i j).get k = if k = j then s.get i else if k = i then s.get j else s.get k := by
  -- the stack after the callback's part has the slots and bookkeeping of `s`
  obtain ⟨t, ht, htb, hts, htw, htInv, htget⟩ : ∃ t : sstack V, s.Swap i j =
      (t.write (i / blockSize) (i % blockSize) (s.get j)).write (j / blockSize) (j % blockSize) (s.get i) ∧
      t.blocks = s.blocks ∧ t.size = s.size ∧ t.wrapAround = s.wrapAround ∧ t.Inv ∧
      ∀ k, t.get k = s.get k := by
    unfold Swap
    dsimp only
    split
    · exact ⟨_, rfl, by simp, by simp, by simp, Inv_setIndex.2 (Inv_setIndex.2 hs), by simp⟩
    · exact ⟨s, rfl, rfl, rfl, rfl, hs, fun _ => rfl⟩
  have hib : i / blockSize < t.blocks.length := htb ▸ hs.div_lt hi
  have hjb : j / blockSize < (t.write (i / blockSize) (i % blockSize) (s.get j)).blocks.length := by
    rw [length_write, htb]
    exact hs.div_lt hj
  rw [ht]
  refine ⟨Inv_write.2 (Inv_write.2 htInv), hts, htw, fun k => ?_⟩
  rw [get_write hjb, get_write hib, htget]

@[simp] theorem wrapAround_makeRoom : s.makeRoom.wrapAround = s.wrapAround := by
  unfold makeRoom
  split_ifs <;> rfl

@[simp] theorem wrapAround_Push (d : item V) : (s.Push d).wrapAround = s.wrapAround := by
  simp [Push]

/-- `Less` compares the priorities of the items at two positions, along the
circle of `int64`s when the stack wraps around. -/
theorem Less_eq {i j : ℕ} {a b : item V} (hi : s.get i = some a) (hj : s.get j = some b) :
    s.Less i j = if s.wrapAround then decide (a.priority - b.priority > 0)
      else decide (a.priority > b.priority) := by
  unfold Less
  rw [show s.slot (i / blockSize) (i % blockSize) = s.get i from rfl, hi,
    show s.slot (j / blockSize) (j % blockSize) = s.get j from rfl, hj]

end Blocks

/-! ### The heap over the blocks -/

section Heap

variable {s : sstack V}

theorem Inv_newSstack (hasSetIndex : Bool) (calls : List (V × ℤ)) (wrapAround : Bool) :
    (newSstack hasSetIndex calls wrapAround).Inv :=
  ⟨by simp [newSstack], by simp [newSstack], by simp [newSstack], by simp [newSstack]⟩

theorem get_newSstack (hasSetIndex : Bool) (calls : List (V × ℤ)) (wrapAround : Bool) (i : ℕ) :
    (newSstack hasSetIndex calls wrapAround).get i = none := by
  unfold get slot
  cases i / blockSize <;> rfl

/-- `heap.Push` moves up from position `size`, where `Push` put the item. -/
theorem heapPush_eq (hs : s.Inv) (d : item V) :
    heap.Push heapInterface s d = heap.up heapInterface (s.Push d) s.size := by
  show heap.up _ (s.Push d) ((s.Push d).size - 1) = _
  rw [(Push_spec hs d).2.1, Nat.add_sub_cancel]

/-- **`heap.Pop` takes the root**: the root is swapped to the last position,
which `down` never touches, and popped from there. -/
theorem heapPop_fst (hs : s.Inv) (h0 : 0 < s.size) : (heap.Pop heapInterface s).1 = s.get 0 := by
  have hn : s.size - 1 < s.size := by omega
  obtain ⟨htInv, hts, -, htget⟩ := Swap_spec hs h0 hn
  -- the swaps of `down` are below the last position, which keeps the root
  have hframe : ∀ (u : sstack V) (i j : ℕ), i < j → j < s.size - 1 →
      (u.Inv ∧ u.size = s.size ∧ u.get (s.size - 1) = s.get 0) →
      (u.Swap i j).Inv ∧ (u.Swap i j).size = s.size ∧ (u.Swap i j).get (s.size - 1) = s.get 0 := by
    rintro u i j hij hj ⟨huInv, hus, hug⟩
    obtain ⟨h1, h2, -, h3⟩ := Swap_spec huInv (by omega : i < u.size) (by omega : j < u.size)
    refine ⟨h1, h2.trans hus, ?_⟩
    rw [h3, if_neg (by omega), if_neg (by omega), hug]
  obtain ⟨huInv, hus, hug⟩ := heap.downLoop_induction heapInterface _ hframe (s.Swap 0 (s.size - 1)) 0
    ⟨htInv, hts, by rw [htget, if_pos rfl]⟩
  show ((heap.downLoop heapInterface (s.Swap 0 (s.size - 1)) (s.size - 1) 0).1.Pop).1 = _
  rw [(Pop_spec huInv (by omega)).1, hus, hug]

/-- **Two items pushed on an empty stack**: the heap pops the second first
exactly when it is `Less` than the first. -/
theorem heapPop_push_two (hasSetIndex : Bool) (calls : List (V × ℤ)) (wrapAround : Bool)
    (x y : item V) :
    (heap.Pop heapInterface
      (heap.Push heapInterface (heap.Push heapInterface (newSstack hasSetIndex calls wrapAround) x) y)).1 =
      if (if wrapAround then decide (y.priority - x.priority > 0) else decide (y.priority > x.priority)) = true
      then some y else some x := by
  have heInv := Inv_newSstack (V := V) hasSetIndex calls wrapAround
  obtain ⟨h1Inv, h1s, h1get⟩ := Push_spec heInv x
  obtain ⟨h2Inv, h2s, h2get⟩ := Push_spec h1Inv y
  have he0 : (newSstack hasSetIndex calls wrapAround : sstack V).size = 0 := rfl
  rw [he0, Nat.zero_add] at h1s
  rw [he0] at h1get
  rw [heapPush_eq heInv, he0, heap.up_zero, heapPush_eq h1Inv, h1s, heap.up_one]
  -- the second item, at position `1`, is compared with the first, at the root
  have hy : ((newSstack hasSetIndex calls wrapAround).Push x |>.Push y).get 1 = some y := by
    rw [h2get, h1s, if_pos rfl]
  have hx : ((newSstack hasSetIndex calls wrapAround).Push x |>.Push y).get 0 = some x := by
    rw [h2get, h1s, if_neg (by decide), h1get, if_pos rfl]
  have hless := Less_eq hy hx
  rw [wrapAround_Push, wrapAround_Push, show (newSstack hasSetIndex calls wrapAround : sstack V).wrapAround =
    wrapAround from rfl] at hless
  rw [show heapInterface.Less = Less from rfl, show heapInterface.Swap = Swap from rfl, hless]
  -- the comparison decides whether `up` swaps the two
  cases (if wrapAround = true then decide (y.priority - x.priority > 0) else decide (y.priority > x.priority)) with
  | true =>
    obtain ⟨hsInv, hss, -, hsget⟩ := Swap_spec h2Inv (i := 0) (j := 1) (by omega) (by omega)
    rw [if_pos rfl, if_pos rfl, heapPop_fst hsInv (by omega), hsget, if_neg (by decide), if_pos rfl, hy]
  | false =>
    rw [if_neg Bool.false_ne_true, if_neg Bool.false_ne_true, heapPop_fst h2Inv (by omega), hx]

end Heap

end sstack

/-- `Prque`. -/
structure Prque (V : Type) where
  cont : sstack V

/-- `New`. -/
def New (hasSetIndex : Bool) (calls : List (V × ℤ)) : Prque V := ⟨newSstack hasSetIndex calls false⟩

/-- `NewWrapAround`. -/
def NewWrapAround (hasSetIndex : Bool) (calls : List (V × ℤ)) : Prque V :=
  ⟨newSstack hasSetIndex calls true⟩

namespace Prque

/-- `Prque.Push`. -/
def Push (p : Prque V) (data : V) (priority : Int64) : Prque V :=
  ⟨heap.Push sstack.heapInterface p.cont ⟨data, priority⟩⟩

/-- `Prque.Peek`: the root; on an empty queue the source dereferences `nil`. -/
def Peek (p : Prque V) : Option (V × Int64) :=
  (p.cont.slot 0 0).map fun it => (it.value, it.priority)

/-- `Prque.Pop`. -/
def Pop (p : Prque V) : Option (V × Int64) × Prque V :=
  let (it, s) := heap.Pop sstack.heapInterface p.cont
  (it.map fun it => (it.value, it.priority), ⟨s⟩)

/-- `Prque.Remove`: nothing for a negative position; otherwise what
`heap.Remove` returns, which is the item and not its value. -/
def Remove (p : Prque V) (i : ℤ) : Option (item V) × Prque V :=
  if i < 0 then (none, p)
  else
    let (it, s) := heap.Remove sstack.heapInterface p.cont i.toNat
    (it, ⟨s⟩)

/-- `Prque.Empty`. -/
def Empty (p : Prque V) : Bool := p.cont.Len = 0

/-- `Prque.Size`. -/
def Size (p : Prque V) : ℕ := p.cont.Len

/-- `Prque.Reset`: the queue `New` makes with the same callback. -/
def Reset (p : Prque V) : Prque V := New p.cont.hasSetIndex p.cont.calls

theorem Pop_fst (p : Prque V) :
    p.Pop.1 = (heap.Pop sstack.heapInterface p.cont).1.map fun it => (it.value, it.priority) := rfl

/-- **`Reset` forgets the wrap-around ordering.** On a queue that `Reset` made,
an item of priority `a` pushed before one of priority `b < a` is popped first;
on the wrap-around queue with the same callback, the same two pushes pop the
item of priority `b` first whenever `b - a > 0` in `int64` arithmetic, as with
`a` the greatest and `b` the least `int64`, whose difference wraps to `1`. -/
theorem Reset_forgets_wrapAround (p : Prque V) (x y : V) (a b : Int64) (hwrap : b - a > 0)
    (hplain : b < a) :
    ((p.Reset.Push x a).Push y b).Pop.1 = some (x, a) ∧
      (((NewWrapAround p.cont.hasSetIndex p.cont.calls).Push x a).Push y b).Pop.1 = some (y, b) := by
  constructor
  · rw [Pop_fst]
    show (heap.Pop _ (heap.Push _ (heap.Push _ (newSstack _ _ false) _) _)).1.map _ = _
    rw [sstack.heapPop_push_two, if_neg (by simp [Int64.lt_asymm hplain])]
    rfl
  · rw [Pop_fst]
    show (heap.Pop _ (heap.Push _ (heap.Push _ (newSstack _ _ true) _) _)).1.map _ = _
    rw [sstack.heapPop_push_two, if_pos (by simp [hwrap])]
    rfl

/-- At the greatest and least `int64`. -/
theorem Reset_forgets_wrapAround_max_min :
    (-9223372036854775808 : Int64) - 9223372036854775807 > 0 ∧ (-9223372036854775808 : Int64) < 9223372036854775807 ∧
      (((New false [] : Prque Unit).Reset.Push () 9223372036854775807).Push () (-9223372036854775808)).Pop.1 =
          some ((), 9223372036854775807) ∧
        (((NewWrapAround false [] : Prque Unit).Push () 9223372036854775807).Push ()
          (-9223372036854775808)).Pop.1 = some ((), -9223372036854775808) :=
  ⟨by decide, by decide, Reset_forgets_wrapAround (New false []) () () _ _ (by decide) (by decide)⟩

end Prque

end prque

end PureChain
