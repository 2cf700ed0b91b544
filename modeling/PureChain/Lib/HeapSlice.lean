import Mathlib.Data.List.Induction
import PureChain.Lib.HeapOrder

/-!
# A slice as a `container/heap` collection

Go code hands `container/heap` a slice type: `Len` is the slice's length,
`Swap` exchanges two positions, `Push` appends and `Pop` takes the last
element off. `SliceMethods` says so of an `Interface` over `List α`, for an
order `r` that `Less` decides on the elements. Such a collection is `Lawful`
(`SliceMethods.lawful`), so the heap functions' specifications read directly
on the slice: `Push` appends the element, `Pop` and `Remove` take the element
at the root or at their position, `Init` makes a heap of any slice, and all of
them keep the heap order.
-/

namespace heap

/-- A slice's positions. -/
def sliceGet {α : Type} (s : List α) (k : ℕ) : Option α := s[k]?

/-- **A heap over a slice**: `Len` is the length, `Less` decides `r` on two
elements, and `Swap`, `Push` and `Pop` act as on a Go slice. -/
structure SliceMethods {α : Type} (h : Interface (List α) α) (r : α → α → Prop) : Prop where
  len : ∀ s, h.Len s = s.length
  less : ∀ (s : List α) i j (hi : i < s.length) (hj : j < s.length), h.Less s i j = true ↔ r s[i] s[j]
  swap : ∀ (s : List α) i j (hi : i < s.length) (hj : j < s.length),
    h.Swap s i j = (s.set i s[j]).set j s[i]
  push : ∀ s x, h.Push s x = s ++ [x]
  pop : ∀ s, h.Pop s = (s.getLast?, s.dropLast)

section Positions

variable {α : Type}

/-- `s[i], s[j] = s[j], s[i]` moves the elements as `Equiv.swap` moves positions. -/
theorem sliceGet_swap (s : List α) {i j : ℕ} (hi : i < s.length) (hj : j < s.length) (k : ℕ) :
    sliceGet ((s.set i s[j]).set j s[i]) k = sliceGet s (Equiv.swap i j k) := by
  simp only [sliceGet, List.getElem?_set, List.length_set, Equiv.swap_apply_def]
  by_cases hkj : j = k
  · subst hkj
    by_cases hij : j = i
    · subst hij
      simp [hj]
    · simp [hj, hij, List.getElem?_eq_getElem hi]
  · by_cases hki : i = k
    · subst hki
      simp [hkj, hi, List.getElem?_eq_getElem hj]
    · simp [hkj, hki, Ne.symm hkj, Ne.symm hki]

theorem sliceGet_append (s : List α) (x : α) (k : ℕ) :
    sliceGet (s ++ [x]) k = if k = s.length then some x else sliceGet s k := by
  simp only [sliceGet]
  rw [List.getElem?_append]
  by_cases hk : k < s.length
  · rw [if_pos hk, if_neg (Nat.ne_of_lt hk)]
  by_cases hk' : k = s.length
  · subst hk'
    simp
  · rw [if_neg hk, if_neg hk', List.getElem?_eq_none (by simp only [List.length_singleton]; omega),
      List.getElem?_eq_none (by omega)]

theorem sliceGet_dropLast (s : List α) (k : ℕ) :
    sliceGet s.dropLast k = if k = s.length - 1 then none else sliceGet s k := by
  simp only [sliceGet]
  rw [List.getElem?_dropLast]
  by_cases hk : k < s.length - 1
  · rw [if_pos hk, if_neg (by omega)]
  by_cases hk' : k = s.length - 1
  · rw [if_neg hk, if_pos hk']
  · rw [if_neg hk, if_neg hk', List.getElem?_eq_none (by omega)]

end Positions

section Slice

variable {α : Type} {h : Interface (List α) α} {r : α → α → Prop} (hm : SliceMethods h r)
include hm

/-- **A slice is a lawful collection.** -/
theorem SliceMethods.lawful : Lawful h sliceGet r (fun _ => True) where
  less s i j _ hi hj := by
    rw [hm.len] at hi hj
    rw [hm.less s i j hi hj]
    simp [Before, sliceGet, List.getElem?_eq_getElem hi, List.getElem?_eq_getElem hj]
  swap s i j _ hi hj := by
    rw [hm.len] at hi hj
    rw [hm.swap s i j hi hj, hm.len, hm.len]
    exact ⟨trivial, by simp, sliceGet_swap s hi hj⟩
  push s x _ := by
    rw [hm.push, hm.len, hm.len]
    exact ⟨trivial, by simp, sliceGet_append s x⟩
  pop s _ h0 := by
    rw [hm.len] at h0
    rw [hm.pop, hm.len, hm.len]
    exact ⟨List.getLast?_eq_getElem?, trivial, by simp, sliceGet_dropLast s⟩

theorem SliceMethods.full (s : List α) : Full h sliceGet s := fun k => by
  simp [sliceGet, hm.len]

/-- The elements of a slice are the slice. -/
theorem SliceMethods.elems (s : List α) : elems h sliceGet s = s := by
  show (List.range (h.Len s)).filterMap (fun k => s[k]?) = s
  rw [hm.len]
  induction s using List.reverseRec with
  | nil => rfl
  | append_singleton s a ih =>
    rw [List.length_append, List.length_singleton, List.range_succ, List.filterMap_append,
      List.filterMap_congr (g := fun k => s[k]?)
        (fun k hk => List.getElem?_append_left (List.mem_range.mp hk)), ih]
    simp

theorem SliceMethods.length_Pop {s : List α} (h0 : 0 < s.length) : (Pop h s).2.length = s.length - 1 := by
  have h0' : 0 < h.Len s := by rwa [hm.len]
  have := hm.lawful.len_Pop trivial (hm.full s) h0'
  rwa [hm.len, hm.len] at this

variable [IsStrictWeakOrder α r]

/-- `heap.Push` on a heap slice: a heap with the element appended. -/
theorem SliceMethods.Push_spec {s : List α} (ho : Ordered h sliceGet r s) (x : α) :
    Ordered h sliceGet r (Push h s x) ∧ (Push h s x).Perm (s ++ [x]) := by
  obtain ⟨-, -, -, ho', hperm⟩ := hm.lawful.Push_spec trivial (hm.full s) ho x
  rw [hm.elems, hm.elems] at hperm
  exact ⟨ho', hperm⟩

/-- `heap.Push` of one element after another: a heap with them all appended. -/
theorem SliceMethods.foldl_Push {s : List α} (ho : Ordered h sliceGet r s) (xs : List α) :
    Ordered h sliceGet r (xs.foldl (Push h) s) ∧ (xs.foldl (Push h) s).Perm (s ++ xs) := by
  induction xs generalizing s with
  | nil => exact ⟨ho, by simp⟩
  | cons x xs ih =>
    obtain ⟨ho', hperm⟩ := hm.Push_spec ho x
    obtain ⟨ho'', hperm'⟩ := ih ho'
    refine ⟨ho'', hperm'.trans ?_⟩
    simpa using hperm.append_right xs

/-- `heap.Pop` on a nonempty heap slice takes the root, which no element is
before, and leaves a heap of the others. -/
theorem SliceMethods.Pop_spec {s : List α} (ho : Ordered h sliceGet r s) (h0 : 0 < s.length) :
    (Pop h s).1 = some s[0] ∧ (∀ y ∈ s, ¬ r y s[0]) ∧ Ordered h sliceGet r (Pop h s).2 ∧
      s.Perm ((Pop h s).2 ++ [s[0]]) := by
  have h0' : 0 < h.Len s := by rwa [hm.len]
  obtain ⟨hfst, hroot, -, -, -, ho', hperm⟩ := hm.lawful.Pop_spec trivial (hm.full s) ho h0'
  rw [hm.elems, hm.elems] at hperm
  have hget : sliceGet s 0 = some s[0] := List.getElem?_eq_getElem h0
  refine ⟨hfst.trans hget, fun y hy hlt => ?_, ho', by simpa [hget] using hperm⟩
  obtain ⟨k, hk, rfl⟩ := List.mem_iff_getElem.mp hy
  exact hroot k (by rwa [hm.len]) ⟨s[k], s[0], List.getElem?_eq_getElem hk, hget, hlt⟩

/-- `heap.Remove` at a position of a heap slice: a heap without that element. -/
theorem SliceMethods.Remove_spec {s : List α} (ho : Ordered h sliceGet r s) {i : ℕ} (hi : i < s.length) :
    Ordered h sliceGet r (Remove h s i).2 ∧ s.Perm ((Remove h s i).2 ++ [s[i]]) := by
  have hi' : i < h.Len s := by rwa [hm.len]
  obtain ⟨-, -, -, -, ho', hperm⟩ := hm.lawful.Remove_spec trivial (hm.full s) ho hi'
  rw [hm.elems, hm.elems] at hperm
  have hget : sliceGet s i = some s[i] := List.getElem?_eq_getElem hi
  exact ⟨ho', by simpa [hget] using hperm⟩

/-- `heap.Init` makes a heap of any slice. -/
theorem SliceMethods.Init_spec (s : List α) : Ordered h sliceGet r (Init h s) ∧ (Init h s).Perm s := by
  obtain ⟨hr, ho⟩ := hm.lawful.Init_spec (s := s) trivial (hm.full s)
  have hperm := hr.perm
  rw [hm.elems, hm.elems] at hperm
  exact ⟨ho, hperm⟩

end Slice

end heap
