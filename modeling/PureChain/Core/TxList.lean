import Mathlib.Data.List.AList
import Mathlib.Data.List.Induction
import Mathlib.Data.List.Sort
import Mathlib.Order.Nat
import Mathlib.Order.RelClasses
import PureChain.Lib.HeapSlice

/-!
# `txSortedMap`: an account's transactions by nonce

`txSortedMap` keeps three views of one set of transactions: `items`, the map
from nonce to transaction; `index`, a `container/heap` min-heap of the nonces
(`nonceHeap`); and `cache`, the transactions sorted by nonce, or `nil` when it
has to be rebuilt. `Put`, `Forward`, `Filter`, `Cap`, `Remove` and `Ready` each
keep the three in step their own way: `Forward` shifts the cache's front, `Cap`
its back, the others drop it, and `Filter` rebuilds the heap.

The Go map is an `AList`; its `entries` are the order of a `range` over it,
which Go leaves unspecified and no proof here relies on. `sort.Sort` is
`List.mergeSort`: the sorted lists it is used on have distinct keys, where
every sort gives the same list. Nonces are `ℕ`: the only arithmetic on them is
`next++` in `Ready`, which can wrap only after the largest `uint64`, when no
nonce is left to read. `txSortedMapPool` recycles the memory of dropped caches
and changes no content, so it is not modelled.

`Inv` is the representation invariant; every operation keeps it
(`Inv_step`), so every state reached from `newTxSortedMap` has it.
-/

namespace PureChain

namespace core

/-! ### `nonceHeap` -/

namespace nonceHeap

/-- `nonceHeap.Len`. -/
def Len (h : List ℕ) : ℕ := h.length

/-- `nonceHeap.Less`; an index out of range is a panic of the source. -/
def Less (h : List ℕ) (i j : ℕ) : Bool := decide (h.getD i 0 < h.getD j 0)

/-- `nonceHeap.Swap`: `h[i], h[j] = h[j], h[i]`. -/
def Swap (h : List ℕ) (i j : ℕ) : List ℕ := (h.set i (h.getD j 0)).set j (h.getD i 0)

/-- `nonceHeap.Push`: `append`. -/
def Push (h : List ℕ) (x : ℕ) : List ℕ := h ++ [x]

/-- `nonceHeap.Pop`: the last nonce, and the slice without it. -/
def Pop (h : List ℕ) : Option ℕ × List ℕ := (h.getLast?, h.dropLast)

/-- The `heap.Interface` of a `nonceHeap`. -/
def heapInterface : heap.Interface (List ℕ) ℕ where
  Len := Len
  Less := Less
  Swap := Swap
  Push := Push
  Pop := Pop

/-- A slice's positions. -/
def get (h : List ℕ) (k : ℕ) : Option ℕ := h[k]?

/-- **A `nonceHeap` is a Go slice of nonces**, ordered by `<`. -/
theorem sliceMethods : heap.SliceMethods heapInterface (· < ·) where
  len _ := rfl
  less h i j hi hj := by
    simp [heapInterface, Less, List.getD_eq_getElem?_getD, List.getElem?_eq_getElem hi,
      List.getElem?_eq_getElem hj]
  swap h i j hi hj := by
    simp [heapInterface, Swap, List.getD_eq_getElem?_getD, List.getElem?_eq_getElem hi,
      List.getElem?_eq_getElem hj]
  push _ _ := rfl
  pop _ := rfl

/-- The min-heap order of `container/heap` on a `nonceHeap`. -/
def Ordered (h : List ℕ) : Prop := heap.Ordered heapInterface get (· < ·) h

/-- Nonces compare as `container/heap` needs: a strict weak order. It is not
an instance, so that no later module resolves the order of `ℕ` through it. -/
theorem isStrictWeakOrder_lt : IsStrictWeakOrder ℕ (· < ·) := isStrictWeakOrder_of_isOrderConnected

theorem length_heapPop {h : List ℕ} (h0 : 0 < h.length) :
    (heap.Pop heapInterface h).2.length = h.length - 1 :=
  heap.SliceMethods.length_Pop sliceMethods h0

/-- `heap.Push` on a `nonceHeap`: a heap with the nonce added. -/
theorem heapPush {h : List ℕ} (ho : Ordered h) (x : ℕ) :
    Ordered (heap.Push heapInterface h x) ∧ (heap.Push heapInterface h x).Perm (h ++ [x]) := by
  exact @heap.SliceMethods.Push_spec _ _ _ sliceMethods isStrictWeakOrder_lt _ ho x

/-- `heap.Pop` on a nonempty `nonceHeap` takes its least nonce, the root. -/
theorem heapPop {h : List ℕ} (ho : Ordered h) (h0 : 0 < h.length) :
    (heap.Pop heapInterface h).1 = some h[0] ∧ (∀ y ∈ h, h[0] ≤ y) ∧
      Ordered (heap.Pop heapInterface h).2 ∧ h.Perm ((heap.Pop heapInterface h).2 ++ [h[0]]) := by
  obtain ⟨hfst, hroot, ho', hperm⟩ := @heap.SliceMethods.Pop_spec _ _ _ sliceMethods isStrictWeakOrder_lt _ ho h0
  exact ⟨hfst, fun y hy => Nat.not_lt.mp (hroot y hy), ho', hperm⟩

/-- `heap.Remove` at a position of a `nonceHeap`: a heap without that nonce. -/
theorem heapRemove {h : List ℕ} (ho : Ordered h) {i : ℕ} (hi : i < h.length) :
    Ordered (heap.Remove heapInterface h i).2 ∧ h.Perm ((heap.Remove heapInterface h i).2 ++ [h[i]]) := by
  exact @heap.SliceMethods.Remove_spec _ _ _ sliceMethods isStrictWeakOrder_lt _ ho _ hi

/-- `heap.Init` makes a heap of any slice. -/
theorem heapInit (h : List ℕ) : Ordered (heap.Init heapInterface h) ∧ (heap.Init heapInterface h).Perm h := by
  exact @heap.SliceMethods.Init_spec _ _ _ sliceMethods isStrictWeakOrder_lt h

end nonceHeap

/-! ### `txSortedMap` -/

/-- `txSortedMap`: the map from nonce to transaction, the heap of its nonces,
and the transactions sorted by nonce, `none` for Go's `nil`. -/
structure txSortedMap (Tx : Type) where
  items : AList (fun _ : ℕ => Tx)
  index : List ℕ
  cache : Option (List Tx)

variable {Tx : Type}

/-- `newTxSortedMap`. -/
def newTxSortedMap : txSortedMap Tx := ⟨∅, [], none⟩

namespace txSortedMap

section Ops

-- `tx.Nonce()`
variable (Nonce : Tx → ℕ)

/-- `Get`. -/
def Get (m : txSortedMap Tx) (nonce : ℕ) : Option Tx := m.items.lookup nonce

/-- `Put`: a nonce the map does not hold is pushed on the heap, the
transaction is stored under its nonce, and the cache is dropped. -/
def Put (m : txSortedMap Tx) (tx : Tx) : txSortedMap Tx :=
  let nonce := Nonce tx
  let index :=
    if (m.items.lookup nonce).isNone then heap.Push nonceHeap.heapInterface m.index nonce else m.index
  ⟨m.items.insert nonce tx, index, none⟩

/-- The loop of `Forward`: while the root is below the threshold, it is popped
and its transaction taken out of the map. -/
def forwardLoop (threshold : ℕ) (items : AList (fun _ : ℕ => Tx)) (index : List ℕ)
    (removed : List (Option Tx)) : AList (fun _ : ℕ => Tx) × List ℕ × List (Option Tx) :=
  if _h : 0 < index.length ∧ index.getD 0 0 < threshold then
    -- `heap.Pop(m.index).(uint64)`: the popped nonce is never `nil` here
    let nonce := (heap.Pop nonceHeap.heapInterface index).1.getD 0
    forwardLoop threshold (items.erase nonce) (heap.Pop nonceHeap.heapInterface index).2
      (removed ++ [items.lookup nonce])
  else (items, index, removed)
termination_by index.length
decreasing_by
  rw [nonceHeap.length_heapPop _h.1]
  omega

/-- `Forward`: the transactions below the threshold, popped in order, and the
cache's front shifted by as many. -/
def Forward (m : txSortedMap Tx) (threshold : ℕ) : txSortedMap Tx × List (Option Tx) :=
  let (items, index, removed) := forwardLoop threshold m.items m.index []
  (⟨items, index, m.cache.map fun c => c.drop removed.length⟩, removed)

/-- `filter`: the transactions `f` holds of, taken out of the map in the order
of a `range` over it, and the cache dropped when there were any; the heap is
left as it was. -/
def filter (m : txSortedMap Tx) (f : Tx → Bool) : txSortedMap Tx × List Tx :=
  let (items, removed) := m.items.entries.foldl
    (fun (acc : AList (fun _ : ℕ => Tx) × List Tx) e =>
      if f e.2 then (acc.1.erase e.1, acc.2 ++ [e.2]) else acc) (m.items, [])
  (⟨items, m.index, if removed.length > 0 then none else m.cache⟩, removed)

/-- `reheap`: the heap rebuilt from the map's nonces, and the cache dropped. -/
def reheap (m : txSortedMap Tx) : txSortedMap Tx :=
  ⟨m.items, heap.Init nonceHeap.heapInterface m.items.keys, none⟩

/-- `Filter`: `filter`, then `reheap` when anything was removed. -/
def Filter (m : txSortedMap Tx) (f : Tx → Bool) : txSortedMap Tx × List Tx :=
  let (m, removed) := m.filter f
  (if removed.length > 0 then m.reheap else m, removed)

/-- The loop of `Cap` over the sorted nonces: from position `size - 1` down to
`threshold`, the transaction of each is dropped and taken out of the map. -/
def capLoop (index : List ℕ) (threshold : ℕ) :
    ℕ → AList (fun _ : ℕ => Tx) → List (Option Tx) → AList (fun _ : ℕ => Tx) × List (Option Tx)
  | 0, items, drops => (items, drops)
  | size + 1, items, drops =>
    if threshold < size + 1 then
      capLoop index threshold size (items.erase (index.getD size 0))
        (drops ++ [items.lookup (index.getD size 0)])
    else (items, drops)

/-- `Cap`: nothing when the map holds at most `threshold` transactions;
otherwise the index sorted, the transactions past the first `threshold` of it
dropped, the heap rebuilt from the rest, and the cache's back shifted. -/
def Cap (m : txSortedMap Tx) (threshold : ℕ) : txSortedMap Tx × List (Option Tx) :=
  if m.items.entries.length ≤ threshold then (m, [])
  else
    let index := m.index.mergeSort (fun a b => decide (a ≤ b))
    let (items, drops) := capLoop index threshold m.items.entries.length m.items []
    (⟨items, heap.Init nonceHeap.heapInterface (index.take threshold),
      m.cache.map fun c => c.take (c.length - drops.length)⟩, drops)

/-- `Remove`: `false` for a nonce the map does not hold; otherwise the first
position of the nonce in the index removed from the heap, the transaction taken
out of the map, and the cache dropped. -/
def Remove (m : txSortedMap Tx) (nonce : ℕ) : txSortedMap Tx × Bool :=
  if (m.items.lookup nonce).isNone then (m, false)
  else
    let i := m.index.idxOf nonce
    let index :=
      if i < m.index.length then (heap.Remove nonceHeap.heapInterface m.index i).2 else m.index
    (⟨m.items.erase nonce, index, none⟩, true)

/-- The loop of `Ready`: while the root is `next`, its transaction is taken out
of the map, the root popped, and `next` moved on. -/
def readyLoop (items : AList (fun _ : ℕ => Tx)) (index : List ℕ) (next : ℕ)
    (ready : List (Option Tx)) : AList (fun _ : ℕ => Tx) × List ℕ × List (Option Tx) :=
  if _h : 0 < index.length ∧ index.getD 0 0 = next then
    readyLoop (items.erase next) (heap.Pop nonceHeap.heapInterface index).2 (next + 1)
      (ready ++ [items.lookup next])
  else (items, index, ready)
termination_by index.length
decreasing_by
  rw [nonceHeap.length_heapPop _h.1]
  omega

/-- `Ready`: nothing when the heap is empty or its root is past `start`;
otherwise the run of consecutive nonces from the root taken out, and the cache
dropped. -/
def Ready (m : txSortedMap Tx) (start : ℕ) : txSortedMap Tx × List (Option Tx) :=
  if m.index.length = 0 ∨ m.index.getD 0 0 > start then (m, [])
  else
    let (items, index, ready) := readyLoop m.items m.index (m.index.getD 0 0) []
    (⟨items, index, none⟩, ready)

/-- `Len`. -/
def Len (m : txSortedMap Tx) : ℕ := m.items.entries.length

/-- `flatten`: the cache, built when there is none from the map's transactions
sorted by nonce. -/
def flatten (m : txSortedMap Tx) : txSortedMap Tx × List Tx :=
  match m.cache with
  | some c => (m, c)
  | none =>
    let c := (m.items.entries.map Sigma.snd).mergeSort (fun a b => decide (Nonce a ≤ Nonce b))
    (⟨m.items, m.index, some c⟩, c)

/-- `Flatten`: a copy of what `flatten` returns. -/
def Flatten (m : txSortedMap Tx) : txSortedMap Tx × List Tx := m.flatten Nonce

/-- `LastElement`: the last of the sorted transactions; on an empty map the
source panics. -/
def LastElement (m : txSortedMap Tx) : txSortedMap Tx × Option Tx :=
  let (m, c) := m.flatten Nonce
  (m, c.getLast?)

end Ops

end txSortedMap

/-! ### Sorted nonces -/

/-- A list of nonces sorted by `sort.Sort`. -/
def sortNonces (l : List ℕ) : List ℕ := l.mergeSort (fun a b => decide (a ≤ b))

/-- Sorting distinct nonces sorts them strictly. -/
theorem pairwise_sortNonces {l : List ℕ} (hl : l.Nodup) : (sortNonces l).Pairwise (· < ·) := by
  have hle := @List.pairwise_mergeSort ℕ (fun a b => decide (a ≤ b))
    (fun a b c hab hbc => by simp only [decide_eq_true_eq] at *; omega)
    (fun a b => by simp only [Bool.or_eq_true, decide_eq_true_eq]; omega) l
  have hnd : (sortNonces l).Nodup := (List.mergeSort_perm l _).nodup_iff.mpr hl
  exact (hle.and hnd).imp fun ⟨h1, h2⟩ => Nat.lt_of_le_of_ne (of_decide_eq_true h1) h2

theorem mem_sortNonces {l : List ℕ} {k : ℕ} : k ∈ sortNonces l ↔ k ∈ l := List.mem_mergeSort

/-- Strictly sorted lists of nonces are equal when they hold the same nonces. -/
theorem eq_of_pairwise_lt {l₁ l₂ : List ℕ} (h₁ : l₁.Pairwise (· < ·)) (h₂ : l₂.Pairwise (· < ·))
    (h : ∀ k, k ∈ l₁ ↔ k ∈ l₂) : l₁ = l₂ :=
  h₁.eq_of_mem_iff h₂ h

/-- The nonces of a strictly sorted list below `t` come first. -/
theorem eq_filter_append_filter {l : List ℕ} (hl : l.Pairwise (· < ·)) (t : ℕ) :
    l = l.filter (fun k => decide (k < t)) ++ l.filter (fun k => decide (t ≤ k)) := by
  induction l with
  | nil => rfl
  | cons a l ih =>
    rw [List.pairwise_cons] at hl
    by_cases ha : a < t
    · simp only [List.filter_cons, decide_eq_true ha, if_true, decide_eq_false (Nat.not_le.mpr ha),
        Bool.false_eq_true, if_false, List.cons_append]
      exact congrArg (a :: ·) (ih hl.2)
    · -- every later nonce is past `a`, so past `t`
      have hlow : l.filter (fun k => decide (k < t)) = [] :=
        List.filter_eq_nil_iff.mpr fun b hb => by have := hl.1 b hb; simp only [decide_eq_true_eq]; omega
      have hhigh : l.filter (fun k => decide (t ≤ k)) = l :=
        List.filter_eq_self.mpr fun b hb => by have := hl.1 b hb; simp only [decide_eq_true_eq]; omega
      simp only [List.filter_cons, decide_eq_false ha, decide_eq_true (Nat.not_lt.mp ha), hlow, hhigh,
        Bool.false_eq_true, if_false, if_true, List.nil_append]

/-! ### The invariant -/

namespace txSortedMap

section Inv

variable (Nonce : Tx → ℕ)

/-- The map's nonces in increasing order. -/
def sortedNonces (items : AList (fun _ : ℕ => Tx)) : List ℕ := sortNonces items.keys

/-- The map's transactions in increasing order of nonce. -/
def sortedTxs (items : AList (fun _ : ℕ => Tx)) : List Tx := (sortedNonces items).filterMap items.lookup

/-- Every transaction of the map is stored under its own nonce. -/
def Keyed (items : AList (fun _ : ℕ => Tx)) : Prop := ∀ k tx, items.lookup k = some tx → Nonce tx = k

/-- **The representation invariant of `txSortedMap`.** Each transaction is
stored under its own nonce; the index holds exactly the map's nonces, as a
min-heap; and the cache, when there is one, is the transactions sorted by
nonce. -/
structure Inv (m : txSortedMap Tx) : Prop where
  keyed : Keyed Nonce m.items
  index : m.index.Perm m.items.keys
  heap : nonceHeap.Ordered m.index
  cache : ∀ c, m.cache = some c → c = sortedTxs m.items

end Inv

section Sorted

variable {Nonce : Tx → ℕ} {items : AList (fun _ : ℕ => Tx)}

theorem sortedNonces_pairwise (items : AList (fun _ : ℕ => Tx)) :
    (sortedNonces items).Pairwise (· < ·) :=
  pairwise_sortNonces items.keys_nodup

theorem mem_sortedNonces {k : ℕ} : k ∈ sortedNonces items ↔ k ∈ items.keys := mem_sortNonces

/-- The sorted nonces are the strictly sorted list of the map's nonces. -/
theorem eq_sortedNonces {l : List ℕ} (hl : l.Pairwise (· < ·)) (hmem : ∀ k, k ∈ l ↔ k ∈ items.keys) :
    l = sortedNonces items :=
  eq_of_pairwise_lt hl (sortedNonces_pairwise items) fun k => (hmem k).trans (Iff.symm mem_sortedNonces)

theorem mem_keys_erase {a k : ℕ} : k ∈ (items.erase a).keys ↔ k ≠ a ∧ k ∈ items.keys := by
  rw [AList.keys_erase, items.keys_nodup.mem_erase_iff]

/-- Taking the least nonce out of the map takes it off the front of the
sorted nonces. -/
theorem sortedNonces_erase_min {a : ℕ} (ha : a ∈ items.keys) (hmin : ∀ k ∈ items.keys, a ≤ k) :
    sortedNonces items = a :: sortedNonces (items.erase a) := by
  refine (eq_sortedNonces ?_ fun k => ?_).symm
  · refine List.pairwise_cons.mpr ⟨fun k hk => ?_, sortedNonces_pairwise _⟩
    obtain ⟨hka, hk⟩ := mem_keys_erase.1 (mem_sortedNonces.1 hk)
    exact Nat.lt_of_le_of_ne (hmin k hk) (Ne.symm hka)
  · rw [List.mem_cons, mem_sortedNonces, mem_keys_erase]
    by_cases hka : k = a
    · subst hka
      exact ⟨fun _ => ha, fun _ => .inl rfl⟩
    · exact ⟨fun h => (h.resolve_left hka).2, fun hk => .inr ⟨hka, hk⟩⟩

/-- The map's transactions at nonces it holds have those nonces, and are read
back by them. -/
theorem filterMap_lookup (hkeyed : Keyed Nonce items) (l : List ℕ)
    (hl : ∀ k ∈ l, k ∈ items.keys) :
    (l.filterMap items.lookup).map Nonce = l ∧
      ∀ tx ∈ l.filterMap items.lookup, items.lookup (Nonce tx) = some tx := by
  induction l with
  | nil => exact ⟨rfl, by simp⟩
  | cons k l ih =>
    obtain ⟨tx, htx⟩ : ∃ tx, items.lookup k = some tx :=
      Option.isSome_iff_exists.mp (AList.lookup_isSome.mpr (AList.mem_keys.mpr (hl k List.mem_cons_self)))
    obtain ⟨ih1, ih2⟩ := ih fun k' hk' => hl k' (List.mem_cons_of_mem _ hk')
    have hn := hkeyed k tx htx
    rw [List.filterMap_cons_some (f := fun a => items.lookup a) htx]
    refine ⟨by rw [List.map_cons, hn, ih1], fun tx' htx' => ?_⟩
    rcases List.mem_cons.mp htx' with rfl | h
    · rw [hn]
      exact htx
    · exact ih2 tx' h

/-- Transactions each stored under its nonce are read back from their nonces. -/
theorem filterMap_lookup_map (c : List Tx) (hc : ∀ tx ∈ c, items.lookup (Nonce tx) = some tx) :
    (c.map Nonce).filterMap items.lookup = c := by
  induction c with
  | nil => rfl
  | cons tx c ih =>
    rw [List.map_cons, List.filterMap_cons_some (f := fun a => items.lookup a) (hc tx List.mem_cons_self),
      ih fun tx' h => hc tx' (List.mem_cons_of_mem _ h)]

/-- **The sorted transactions, read by nonce**: a list is the map's
transactions sorted by nonce exactly when its nonces are the sorted nonces and
each is the map's transaction at its nonce. -/
theorem eq_sortedTxs_iff (hkeyed : Keyed Nonce items) {c : List Tx} :
    c = sortedTxs items ↔
      c.map Nonce = sortedNonces items ∧ ∀ tx ∈ c, items.lookup (Nonce tx) = some tx := by
  constructor
  · rintro rfl
    exact filterMap_lookup hkeyed _ fun k hk => mem_sortedNonces.1 hk
  · rintro ⟨hmap, hc⟩
    rw [sortedTxs, ← hmap, filterMap_lookup_map c hc]

/-- Each entry of the map is read back by its nonce. -/
theorem lookup_of_mem_entries {e : Σ _ : ℕ, Tx} (he : e ∈ items.entries) : items.lookup e.1 = some e.2 :=
  AList.mem_lookup_iff.mpr he

theorem map_sortedTxs (hkeyed : Keyed Nonce items) : (sortedTxs items).map Nonce = sortedNonces items :=
  ((eq_sortedTxs_iff hkeyed).mp rfl).1

end Sorted

/-! ### A map restricted to some nonces -/

section Restrict

variable {Nonce : Tx → ℕ} {items items' : AList (fun _ : ℕ => Tx)} {p : ℕ → Prop} [DecidablePred p]

theorem mem_keys_iff_lookup {k : ℕ} : k ∈ items.keys ↔ (items.lookup k).isSome :=
  AList.mem_keys.symm.trans AList.lookup_isSome.symm

/-- `items'` is `items` at the nonces `p` holds of, and holds nothing else. -/
def Restricts (items' items : AList (fun _ : ℕ => Tx)) (p : ℕ → Prop) [DecidablePred p] : Prop :=
  ∀ k, items'.lookup k = if p k then items.lookup k else none

theorem Restricts.mem_keys (hres : Restricts items' items p) {k : ℕ} :
    k ∈ items'.keys ↔ p k ∧ k ∈ items.keys := by
  rw [mem_keys_iff_lookup, mem_keys_iff_lookup, hres k]
  split_ifs with hk <;> simp [hk]

/-- A restriction holds no transaction the map did not. -/
theorem Restricts.lookup_eq_some (hres : Restricts items' items p) {k : ℕ} {tx : Tx}
    (h : items'.lookup k = some tx) : items.lookup k = some tx := by
  rw [hres k] at h
  split_ifs at h
  exact h

theorem Restricts.keyed (hres : Restricts items' items p) (hkeyed : Keyed Nonce items) :
    Keyed Nonce items' := fun k tx hk => hkeyed k tx (hres.lookup_eq_some hk)

/-- Only the nonces the map holds matter to a restriction. -/
theorem Restricts.congr {q : ℕ → Prop} [DecidablePred q] (hres : Restricts items' items p)
    (hpq : ∀ k ∈ items.keys, p k ↔ q k) : Restricts items' items q := fun k => by
  rw [hres k]
  by_cases hk : k ∈ items.keys
  · simp only [hpq k hk]
  · have hnone : items.lookup k = none := AList.lookup_eq_none.mpr fun h => hk (AList.mem_keys.mp h)
    simp only [hnone, ite_self]

/-- Erasing a nonce restricts the map to the others. -/
theorem restricts_erase (items : AList (fun _ : ℕ => Tx)) (a : ℕ) :
    Restricts (items.erase a) items (· ≠ a) := fun k => by
  by_cases hk : k = a
  · subst hk
    simp
  · rw [if_pos hk, AList.lookup_erase_ne hk]

/-- A restriction of a restriction restricts to both predicates. -/
theorem Restricts.trans {items'' : AList (fun _ : ℕ => Tx)} {q : ℕ → Prop} [DecidablePred q]
    (h₁ : Restricts items'' items' q) (h₂ : Restricts items' items p) :
    Restricts items'' items (fun k => q k ∧ p k) := fun k => by
  rw [h₁ k, h₂ k]
  by_cases hq : q k <;> by_cases hp : p k <;> simp [hq, hp]

/-- The sorted nonces of a restriction are the sorted nonces `p` holds of. -/
theorem Restricts.sortedNonces_eq (hres : Restricts items' items p) :
    sortedNonces items' = (sortedNonces items).filter (fun k => decide (p k)) :=
  (eq_sortedNonces ((sortedNonces_pairwise items).filter _) fun k => by
    rw [List.mem_filter, mem_sortedNonces, hres.mem_keys, decide_eq_true_eq, and_comm]).symm

/-- **The cache of a restriction**: the sorted transactions at the nonces `p`
holds of are the sorted transactions of the restriction. -/
theorem Restricts.sortedTxs_eq (hres : Restricts items' items p) (hkeyed : Keyed Nonce items)
    {c c' : List Tx} (hc : c = sortedTxs items) (hsub : ∀ tx ∈ c', tx ∈ c)
    (hmap : c'.map Nonce = (sortedNonces items).filter (fun k => decide (p k))) :
    c' = sortedTxs items' := by
  obtain ⟨-, hlook⟩ := (eq_sortedTxs_iff hkeyed).mp hc
  refine (eq_sortedTxs_iff (hres.keyed hkeyed)).mpr ⟨hmap.trans hres.sortedNonces_eq.symm, fun tx htx => ?_⟩
  have hp : p (Nonce tx) := by
    have : Nonce tx ∈ c'.map Nonce := List.mem_map_of_mem htx
    rw [hmap, List.mem_filter, decide_eq_true_eq] at this
    exact this.2
  rw [hres (Nonce tx), if_pos hp]
  exact hlook tx (hsub tx htx)

variable {m : txSortedMap Tx}

/-- **A shifted cache**: when `g` keeps of the sorted transactions exactly those
at the nonces `p` holds of, `g` of the cache is the cache of the restriction. -/
theorem Inv.cache_map (hm : Inv Nonce m) (hres : Restricts items' m.items p) {g : List Tx → List Tx}
    (hsub : ∀ tx ∈ g (sortedTxs m.items), tx ∈ sortedTxs m.items)
    (hmap : (g (sortedTxs m.items)).map Nonce = (sortedNonces m.items).filter (fun k => decide (p k))) :
    ∀ c, m.cache.map g = some c → c = sortedTxs items' := fun c' hc' => by
  obtain ⟨c, hc, rfl⟩ := Option.map_eq_some_iff.mp hc'
  rw [hm.cache c hc]
  exact hres.sortedTxs_eq hm.keyed rfl hsub hmap

end Restrict

/-! ### The heap of the map's nonces -/

section Index

variable {items : AList (fun _ : ℕ => Tx)} {index : List ℕ}

theorem getD_zero {l : List ℕ} (h0 : 0 < l.length) : l.getD 0 0 = l[0] := by
  simp [List.getD_eq_getElem?_getD, List.getElem?_eq_getElem h0]

/-- A heap of the map's nonces that is `rest` and then `a` holds in `rest` the
nonces other than `a`. -/
theorem perm_keys_erase {rest : List ℕ} {a : ℕ} (hidx : index.Perm items.keys) (hmem : a ∈ items.keys)
    (hperm : index.Perm (rest ++ [a])) : rest.Perm (items.erase a).keys := by
  rw [AList.keys_erase]
  exact List.Perm.cons_inv ((List.perm_append_singleton _ _).symm.trans
    (hperm.symm.trans (hidx.trans (List.perm_cons_erase hmem))))

/-- **`heap.Pop` on a heap of the map's nonces** returns its least nonce and
leaves a heap of the others. -/
theorem heapPop_keys (hidx : index.Perm items.keys) (hheap : nonceHeap.Ordered index)
    (h0 : 0 < index.length) :
    (heap.Pop nonceHeap.heapInterface index).1 = some index[0] ∧ index[0] ∈ items.keys ∧
      (∀ k ∈ items.keys, index[0] ≤ k) ∧
      (heap.Pop nonceHeap.heapInterface index).2.Perm (items.erase index[0]).keys ∧
      nonceHeap.Ordered (heap.Pop nonceHeap.heapInterface index).2 := by
  obtain ⟨hfst, hmin, hord, hperm⟩ := nonceHeap.heapPop hheap h0
  have hmem : index[0] ∈ items.keys := hidx.subset (List.getElem_mem h0)
  exact ⟨hfst, hmem, fun k hk => hmin k (hidx.symm.subset hk), perm_keys_erase hidx hmem hperm, hord⟩

/-- The root of a nonempty heap of the map's nonces is its least nonce. -/
theorem root_min (hidx : index.Perm items.keys) (hheap : nonceHeap.Ordered index) (h0 : 0 < index.length) :
    index.getD 0 0 ∈ items.keys ∧ ∀ k ∈ items.keys, index.getD 0 0 ≤ k := by
  obtain ⟨-, hroot, hmin, -, -⟩ := heapPop_keys hidx hheap h0
  rw [getD_zero h0]
  exact ⟨hroot, hmin⟩

/-- A heap of the map's nonces holds its least nonce at the root. -/
theorem root_eq_min (hidx : index.Perm items.keys) (hheap : nonceHeap.Ordered index) {lo : ℕ}
    (hlo : lo ∈ items.keys) (hmin : ∀ k ∈ items.keys, lo ≤ k) :
    0 < index.length ∧ index.getD 0 0 = lo := by
  have h0 : 0 < index.length := List.length_pos_of_mem (hidx.symm.subset hlo)
  obtain ⟨hroot, hrmin⟩ := root_min hidx hheap h0
  exact ⟨h0, Nat.le_antisymm (hrmin lo hlo) (hmin _ hroot)⟩

end Index

/-! ### Each operation keeps the invariant -/

section Step

variable {Nonce : Tx → ℕ} {m : txSortedMap Tx}

theorem Inv_newTxSortedMap : Inv Nonce (newTxSortedMap : txSortedMap Tx) where
  keyed k tx h := by simp [newTxSortedMap, AList.lookup_empty] at h
  index := by simp [newTxSortedMap, AList.keys_empty]
  heap := fun k hk0 hk => by simp [nonceHeap.heapInterface, nonceHeap.Len, newTxSortedMap] at hk
  cache c h := by simp [newTxSortedMap] at h

theorem Inv_Put (hm : Inv Nonce m) (tx : Tx) : Inv Nonce (m.Put Nonce tx) := by
  refine ⟨fun k tx' hk => ?_, ?_, ?_, fun c hc => by simp [Put] at hc⟩
  · by_cases hkn : k = Nonce tx
    · subst hkn
      simp only [Put, AList.lookup_insert, Option.some.injEq] at hk
      rw [← hk]
    · simp only [Put, AList.lookup_insert_ne hkn] at hk
      exact hm.keyed k tx' hk
  · simp only [Put, AList.keys_insert]
    split_ifs with hnew
    · -- a new nonce, pushed on the heap
      have hnot : Nonce tx ∉ m.items.keys := fun h =>
        absurd (AList.lookup_isSome.mpr (AList.mem_keys.mpr h)) (by simpa using hnew)
      rw [List.erase_of_not_mem hnot]
      exact (nonceHeap.heapPush hm.heap _).2.trans
        ((hm.index.append_right _).trans (List.perm_append_singleton _ _))
    · -- a nonce the heap already holds
      have hmem : Nonce tx ∈ m.items.keys :=
        AList.mem_keys.mp (AList.lookup_isSome.mp (Option.isSome_iff_ne_none.mpr (by simpa using hnew)))
      exact hm.index.trans (List.perm_cons_erase hmem)
  · simp only [Put]
    split_ifs
    · exact (nonceHeap.heapPush hm.heap _).1
    · exact hm.heap

end Step

/-! ### `Forward` -/

section Forward

variable {items : AList (fun _ : ℕ => Tx)} {index : List ℕ} {removed : List (Option Tx)} {threshold : ℕ}

theorem forwardLoop_of_not (hstop : ¬ (0 < index.length ∧ index.getD 0 0 < threshold)) :
    forwardLoop threshold items index removed = (items, index, removed) := by
  rw [forwardLoop, dif_neg hstop]

theorem forwardLoop_of_lt (hgo : 0 < index.length ∧ index.getD 0 0 < threshold) {a : ℕ}
    (ha : (heap.Pop nonceHeap.heapInterface index).1 = some a) :
    forwardLoop threshold items index removed =
      forwardLoop threshold (items.erase a) (heap.Pop nonceHeap.heapInterface index).2
        (removed ++ [items.lookup a]) := by
  rw [forwardLoop, dif_pos hgo]
  dsimp only
  rw [ha, Option.getD_some]

/-- **The loop of `Forward`** takes out the map's nonces below the threshold,
in increasing order, and leaves a heap of the others. -/
theorem forwardLoop_spec (threshold : ℕ) (removed : List (Option Tx)) (hidx : index.Perm items.keys) (hheap : nonceHeap.Ordered index) :
    Restricts (forwardLoop threshold items index removed).1 items (threshold ≤ ·) ∧
      (forwardLoop threshold items index removed).2.1.Perm (forwardLoop threshold items index removed).1.keys ∧
      nonceHeap.Ordered (forwardLoop threshold items index removed).2.1 ∧
      (forwardLoop threshold items index removed).2.2 =
        removed ++ ((sortedNonces items).filter (fun k => decide (k < threshold))).map items.lookup := by
  induction items, index, removed using forwardLoop.induct threshold with
  | case1 items index removed hgo nonce ih =>
    obtain ⟨hfst, hmem, hmin, hperm, hord⟩ := heapPop_keys hidx hheap hgo.1
    have hlt : index[0] < threshold := by
      have := hgo.2
      rwa [getD_zero hgo.1] at this
    have hnonce : nonce = index[0] := by simp only [nonce, hfst, Option.getD_some]
    rw [hnonce] at ih
    obtain ⟨ih1, ih2, ih3, ih4⟩ := ih hperm hord
    rw [forwardLoop_of_lt hgo hfst]
    refine ⟨fun k => ?_, ih2, ih3, ?_⟩
    · -- the nonces left are past the root, which was below the threshold
      rw [ih1 k]
      split_ifs with hk
      · exact AList.lookup_erase_ne (by omega)
      · rfl
    · -- the root is the least nonce, and below the threshold
      rw [ih4, sortedNonces_erase_min hmem hmin, List.filter_cons_of_pos (by simpa using hlt),
        List.map_cons, List.append_assoc, List.singleton_append]
      congr 2
      refine List.map_congr_left fun k hk => AList.lookup_erase_ne ?_
      exact (mem_keys_erase.1 (mem_sortedNonces.1 (List.mem_filter.mp hk).1)).1
  | case2 items index removed hstop =>
    -- no nonce of the map is below the threshold
    have hall : ∀ k ∈ items.keys, threshold ≤ k := by
      intro k hk
      by_cases h0 : 0 < index.length
      · obtain ⟨-, hmin⟩ := root_min hidx hheap h0
        have hge : ¬ index.getD 0 0 < threshold := fun h => hstop ⟨h0, h⟩
        exact Nat.le_trans (Nat.not_lt.mp hge) (hmin k hk)
      · rw [List.eq_nil_of_length_eq_zero (Nat.eq_zero_of_not_pos h0)] at hidx
        exact absurd (hidx.symm.subset hk) (List.not_mem_nil)
    rw [forwardLoop_of_not hstop]
    refine ⟨fun k => ?_, hidx, hheap, ?_⟩
    · split_ifs with hk
      · rfl
      · exact AList.lookup_eq_none.mpr fun hmem => hk (hall k (AList.mem_keys.mp hmem))
    · rw [List.filter_eq_nil_iff.mpr fun k hk => by
        simpa using hall k (mem_sortedNonces.1 hk), List.map_nil, List.append_nil]

/-- `Forward`, in terms of its loop. -/
theorem Forward_eq (m : txSortedMap Tx) (threshold : ℕ) :
    m.Forward threshold =
      (⟨(forwardLoop threshold m.items m.index []).1, (forwardLoop threshold m.items m.index []).2.1,
        m.cache.map fun c => c.drop (forwardLoop threshold m.items m.index []).2.2.length⟩,
        (forwardLoop threshold m.items m.index []).2.2) := rfl

/-- The sorted nonces from the first `t` on are those not below `t`. -/
theorem drop_filter_lt {l : List ℕ} (hl : l.Pairwise (· < ·)) (t : ℕ) :
    l.drop (l.filter (fun k => decide (k < t))).length = l.filter (fun k => decide (t ≤ k)) := by
  have h := congrArg (List.drop (l.filter (fun k => decide (k < t))).length) (eq_filter_append_filter hl t)
  rwa [List.drop_left] at h

theorem Inv_Forward {Nonce : Tx → ℕ} {m : txSortedMap Tx} (hm : Inv Nonce m) (threshold : ℕ) :
    Inv Nonce (m.Forward threshold).1 := by
  obtain ⟨hres, hperm, hord, hrem⟩ :=
    forwardLoop_spec threshold [] hm.index hm.heap
  rw [Forward_eq]
  refine ⟨hres.keyed hm.keyed, hperm, hord, hm.cache_map hres (fun tx htx => List.mem_of_mem_drop htx) ?_⟩
  -- the cache's front is the transactions below the threshold, as many as were removed
  rw [List.map_drop, map_sortedTxs hm.keyed, hrem, List.nil_append, List.length_map]
  exact drop_filter_lt (sortedNonces_pairwise m.items) threshold

/-- **`Forward`** takes out the transactions below the threshold and returns
them in increasing order of nonce. -/
theorem Forward_spec {Nonce : Tx → ℕ} {m : txSortedMap Tx} (hm : Inv Nonce m) (threshold : ℕ) :
    Restricts (m.Forward threshold).1.items m.items (threshold ≤ ·) ∧
      (m.Forward threshold).2 = ((sortedNonces m.items).filter (· < threshold)).map m.items.lookup := by
  obtain ⟨hres, -, -, hrem⟩ :=
    forwardLoop_spec threshold [] hm.index hm.heap
  rw [Forward_eq]
  exact ⟨hres, by rw [hrem, List.nil_append]⟩

end Forward

/-! ### `Cap` -/

section Cap

variable {L : List ℕ} {threshold : ℕ} {items : AList (fun _ : ℕ => Tx)} {drops : List (Option Tx)}

/-- The nonces of a list without repeats at and past position `t` are not
among those before it. -/
theorem mem_take_iff_not_mem_drop (hnd : L.Nodup) (t : ℕ) {k : ℕ} (hk : k ∈ L) :
    k ∈ L.take t ↔ k ∉ L.drop t := by
  refine ⟨fun h h' => List.disjoint_take_drop hnd (Nat.le_refl t) h h', fun h => ?_⟩
  rw [← List.take_append_drop t L, List.mem_append] at hk
  exact hk.resolve_right h

theorem filter_mem_take (hnd : L.Nodup) (t : ℕ) :
    L.filter (fun k => decide (k ∈ L.take t)) = L.take t := by
  have hdis := List.disjoint_take_drop hnd (Nat.le_refl t)
  calc L.filter (fun k => decide (k ∈ L.take t))
      = (L.take t).filter (fun k => decide (k ∈ L.take t)) ++
          (L.drop t).filter (fun k => decide (k ∈ L.take t)) := by
        rw [← List.filter_append, List.take_append_drop]
    _ = L.take t ++ [] := by
        rw [List.filter_eq_self.mpr fun k hk => decide_eq_true hk,
          List.filter_eq_nil_iff.mpr fun k hk => by simpa using fun h => hdis h hk]
    _ = L.take t := List.append_nil _

/-- **The loop of `Cap`** over a list of distinct nonces takes out those at
positions `threshold` to `size - 1`, and drops them from the last back. -/
theorem capLoop_spec (threshold : ℕ) (items : AList (fun _ : ℕ => Tx)) (drops : List (Option Tx)) (hnd : L.Nodup) {size : ℕ} (hsize : size ≤ L.length) :
    Restricts (capLoop L threshold size items drops).1 items (fun k => k ∉ (L.take size).drop threshold) ∧
      (capLoop L threshold size items drops).2 =
        drops ++ ((L.take size).drop threshold).reverse.map items.lookup := by
  induction size, items, drops using capLoop.induct L threshold with
  | case1 items drops =>
    refine ⟨fun k => ?_, ?_⟩ <;> simp [capLoop]
  | case2 size items drops hlt ih =>
    have hs : size < L.length := by omega
    have hget : L.getD size 0 = L[size] := by simp [List.getD_eq_getElem?_getD, hs]
    -- the nonce at `size` is not among those before it, which the loop goes on with
    have hnot : L[size] ∉ L.take size := fun h =>
      List.disjoint_take_drop hnd (Nat.le_refl size) h (by rw [List.drop_eq_getElem_cons hs]; exact List.mem_cons_self)
    have hne : ∀ k ∈ (L.take size).drop threshold, k ≠ L[size] := fun k hk hk' =>
      hnot (hk' ▸ List.mem_of_mem_drop hk)
    have hseg : (L.take (size + 1)).drop threshold = (L.take size).drop threshold ++ [L[size]] := by
      rw [List.take_add_one, List.getElem?_eq_getElem hs, Option.toList_some,
        List.drop_append_of_le_length (by simp; omega)]
    obtain ⟨ih1, ih2⟩ := ih (by omega)
    rw [hget] at ih1 ih2
    simp only [capLoop, if_pos hlt, Nat.succ_eq_add_one]
    rw [hget]
    refine ⟨fun k => ?_, ?_⟩
    · rw [ih1 k, hseg]
      by_cases hk : k = L[size]
      · subst hk
        simp
      · simp [hk, AList.lookup_erase_ne hk]
    · rw [ih2, hseg, List.reverse_append, List.reverse_singleton, List.singleton_append, List.map_cons,
        List.append_assoc, List.singleton_append]
      congr 2
      exact List.map_congr_left fun k hk => AList.lookup_erase_ne (hne k (List.mem_reverse.mp hk))
  | case3 size items drops hle =>
    -- no position from `threshold` on is below `size + 1`
    have hnil : (L.take (size + 1)).drop threshold = [] := List.drop_eq_nil_of_le (by simp; omega)
    simp only [capLoop, if_neg hle, hnil]
    exact ⟨fun k => by simp, by simp⟩

/-- `Cap` when the map holds at most `threshold` transactions, -/
theorem Cap_of_le {m : txSortedMap Tx} (h : m.items.entries.length ≤ threshold) :
    m.Cap threshold = (m, []) := by
  rw [Cap, if_pos h]

/-- and otherwise, in terms of its loop over the sorted index. -/
theorem Cap_of_lt {m : txSortedMap Tx} (h : ¬ m.items.entries.length ≤ threshold) :
    m.Cap threshold =
      (⟨(capLoop (sortNonces m.index) threshold m.items.entries.length m.items []).1,
        heap.Init nonceHeap.heapInterface ((sortNonces m.index).take threshold),
        m.cache.map fun c =>
          c.take (c.length - (capLoop (sortNonces m.index) threshold m.items.entries.length m.items []).2.length)⟩,
        (capLoop (sortNonces m.index) threshold m.items.entries.length m.items []).2) := by
  rw [Cap, if_neg h]
  rfl

/-- Sorting the index sorts the map's nonces. -/
theorem sortNonces_index {m : txSortedMap Tx} (hidx : m.index.Perm m.items.keys) :
    sortNonces m.index = sortedNonces m.items :=
  eq_sortedNonces (pairwise_sortNonces (hidx.nodup_iff.mpr m.items.keys_nodup))
    fun _ => Iff.trans mem_sortNonces hidx.mem_iff

theorem length_sortedNonces (items : AList (fun _ : ℕ => Tx)) :
    (sortedNonces items).length = items.entries.length := by
  rw [sortedNonces, sortNonces, List.length_mergeSort, AList.keys, List.keys, List.length_map]

/-- **`Cap`** keeps the transactions of the `threshold` least nonces and drops
the others, from the highest nonce down. -/
theorem Cap_spec {Nonce : Tx → ℕ} {m : txSortedMap Tx} (hm : Inv Nonce m) (threshold : ℕ) :
    Restricts (m.Cap threshold).1.items m.items (· ∈ (sortedNonces m.items).take threshold) ∧
      (m.Cap threshold).2 = ((sortedNonces m.items).drop threshold).reverse.map m.items.lookup := by
  have hnd := (sortedNonces_pairwise m.items).nodup
  by_cases h : m.items.entries.length ≤ threshold
  · -- every nonce is among the first `threshold`
    have hlen : (sortedNonces m.items).length ≤ threshold := (length_sortedNonces m.items).trans_le h
    rw [Cap_of_le h, List.take_of_length_le hlen, List.drop_of_length_le hlen]
    refine ⟨fun k => ?_, rfl⟩
    by_cases hk : k ∈ sortedNonces m.items
    · rw [if_pos hk]
    · rw [if_neg hk, AList.lookup_eq_none.mpr fun h' => hk (mem_sortedNonces.2 (AList.mem_keys.mp h'))]
  · obtain ⟨hres, hdrops⟩ := capLoop_spec threshold m.items [] (L := sortedNonces m.items) hnd (length_sortedNonces m.items).ge
    rw [← length_sortedNonces, List.take_length] at hres hdrops
    rw [Cap_of_lt h, sortNonces_index hm.index, ← length_sortedNonces, hdrops, List.nil_append]
    refine ⟨hres.congr fun k hk => ?_, rfl⟩
    exact (mem_take_iff_not_mem_drop hnd threshold (mem_sortedNonces.2 hk)).symm

theorem Inv_Cap {Nonce : Tx → ℕ} {m : txSortedMap Tx} (hm : Inv Nonce m) (threshold : ℕ) :
    Inv Nonce (m.Cap threshold).1 := by
  by_cases h : m.items.entries.length ≤ threshold
  · rw [Cap_of_le h]
    exact hm
  · have hnd := (sortedNonces_pairwise m.items).nodup
    obtain ⟨hres, hdrops⟩ := Cap_spec hm threshold
    obtain ⟨hord, hperm⟩ := nonceHeap.heapInit ((sortedNonces m.items).take threshold)
    rw [Cap_of_lt h] at hres hdrops ⊢
    rw [sortNonces_index hm.index] at hres hdrops ⊢
    dsimp only at hres hdrops ⊢
    -- the nonces kept are the first `threshold`
    have hkeys : ((sortedNonces m.items).take threshold).Perm
        (capLoop (sortedNonces m.items) threshold m.items.entries.length m.items []).1.keys := by
      refine (List.perm_ext_iff_of_nodup ((List.take_sublist _ _).nodup hnd) (AList.keys_nodup _)).mpr
        fun k => ?_
      rw [hres.mem_keys]
      exact ⟨fun hk => ⟨hk, mem_sortedNonces.1 (List.mem_of_mem_take hk)⟩, And.left⟩
    -- the cache's back, as many as were dropped, goes
    have hlen : (sortedTxs m.items).length -
        (capLoop (sortedNonces m.items) threshold m.items.entries.length m.items []).2.length = threshold := by
      rw [hdrops, List.length_map, List.length_reverse, List.length_drop, ← List.length_map (f := Nonce),
        map_sortedTxs hm.keyed, length_sortedNonces]
      omega
    refine ⟨hres.keyed hm.keyed, hperm.trans hkeys, hord,
      hm.cache_map hres (fun tx htx => List.mem_of_mem_take htx) ?_⟩
    rw [hlen, List.map_take, map_sortedTxs hm.keyed, filter_mem_take hnd]

end Cap

/-! ### `Ready` -/

section Ready

variable {items : AList (fun _ : ℕ => Tx)} {index : List ℕ} {next : ℕ} {ready : List (Option Tx)}

theorem readyLoop_of_not (hstop : ¬ (0 < index.length ∧ index.getD 0 0 = next)) :
    readyLoop items index next ready = (items, index, ready) := by
  rw [readyLoop, dif_neg hstop]

theorem readyLoop_of_eq (hgo : 0 < index.length ∧ index.getD 0 0 = next) :
    readyLoop items index next ready =
      readyLoop (items.erase next) (heap.Pop nonceHeap.heapInterface index).2 (next + 1)
        (ready ++ [items.lookup next]) := by
  rw [readyLoop, dif_pos hgo]

/-- **The loop of `Ready`**, from a `next` that no nonce of the map is below:
it takes out the run of consecutive nonces from `next`, in order, and leaves a
heap of the others. -/
theorem readyLoop_spec (ready : List (Option Tx)) (hidx : index.Perm items.keys) (hheap : nonceHeap.Ordered index)
    (hge : ∀ k ∈ items.keys, next ≤ k) :
    ∃ n, (∀ j < n, next + j ∈ items.keys) ∧ next + n ∉ items.keys ∧
      Restricts (readyLoop items index next ready).1 items (fun k => ¬ (next ≤ k ∧ k < next + n)) ∧
      (readyLoop items index next ready).2.1.Perm (readyLoop items index next ready).1.keys ∧
      nonceHeap.Ordered (readyLoop items index next ready).2.1 ∧
      (readyLoop items index next ready).2.2 = ready ++ (List.range' next n).map items.lookup := by
  induction items, index, next, ready using readyLoop.induct with
  | case1 items index next ready hgo ih =>
    obtain ⟨-, hmem, -, hperm, hord⟩ := heapPop_keys hidx hheap hgo.1
    have hroot : index[0] = next := by rw [← getD_zero hgo.1]; exact hgo.2
    rw [hroot] at hmem hperm
    -- the root is `next`, so every nonce left is past it
    have hge' : ∀ k ∈ (items.erase next).keys, next + 1 ≤ k := fun k hk => by
      obtain ⟨hne, hk⟩ := mem_keys_erase.1 hk
      have := hge k hk
      omega
    obtain ⟨n, hrun, hend, hres, hperm', hord', hready⟩ := ih hperm hord hge'
    rw [readyLoop_of_eq hgo]
    refine ⟨n + 1, fun j hj => ?_, fun hn => ?_, fun k => ?_, hperm', hord', ?_⟩
    · -- the run is `next` and then the run from `next + 1`
      rcases j with _ | j
      · exact hmem
      · have := (mem_keys_erase.1 (hrun j (by omega))).2
        rwa [show next + 1 + j = next + (j + 1) by omega] at this
    · refine hend (mem_keys_erase.2 ⟨by omega, ?_⟩)
      rwa [show next + 1 + n = next + (n + 1) by omega]
    · rw [hres k]
      by_cases hk : k = next
      · subst hk
        simp
      · have hiff : (next + 1 ≤ k ∧ k < next + 1 + n) ↔ (next ≤ k ∧ k < next + (n + 1)) := by omega
        simp only [hiff, AList.lookup_erase_ne hk]
    · rw [hready, List.append_assoc, List.singleton_append, List.range'_succ, List.map_cons]
      congr 2
      exact List.map_congr_left fun k hk => AList.lookup_erase_ne (by rw [List.mem_range'_1] at hk; omega)
  | case2 items index next ready hstop =>
    -- `next` is not the root, so the map does not hold it
    have hend : next ∉ items.keys := fun hmem => hstop (root_eq_min hidx hheap hmem hge)
    rw [readyLoop_of_not hstop]
    refine ⟨0, fun j hj => absurd hj (Nat.not_lt_zero j), hend, fun k => ?_, hidx, hheap, by simp⟩
    rw [if_pos (by omega)]

/-- `Ready` when it short-circuits, -/
theorem Ready_of_short {m : txSortedMap Tx} {start : ℕ}
    (h : m.index.length = 0 ∨ m.index.getD 0 0 > start) : m.Ready start = (m, []) := by
  rw [Ready, if_pos h]

/-- and otherwise, in terms of its loop. -/
theorem Ready_of_le {m : txSortedMap Tx} {start : ℕ}
    (h : ¬ (m.index.length = 0 ∨ m.index.getD 0 0 > start)) :
    m.Ready start =
      (⟨(readyLoop m.items m.index (m.index.getD 0 0) []).1,
        (readyLoop m.items m.index (m.index.getD 0 0) []).2.1, none⟩,
        (readyLoop m.items m.index (m.index.getD 0 0) []).2.2) := by
  rw [Ready, if_neg h]

theorem Inv_Ready {Nonce : Tx → ℕ} {m : txSortedMap Tx} (hm : Inv Nonce m) (start : ℕ) :
    Inv Nonce (m.Ready start).1 := by
  by_cases h : m.index.length = 0 ∨ m.index.getD 0 0 > start
  · rw [Ready_of_short h]
    exact hm
  · -- the loop starts at the root, the least nonce
    obtain ⟨-, hge⟩ := root_min hm.index hm.heap (by omega)
    obtain ⟨n, -, -, hres, hperm, hord, -⟩ := readyLoop_spec [] hm.index hm.heap hge
    rw [Ready_of_le h]
    exact ⟨hres.keyed hm.keyed, hperm, hord, fun c hc => by cases hc⟩

/-- `Ready` holds no transaction the map did not. -/
theorem lookup_Ready {Nonce : Tx → ℕ} {m : txSortedMap Tx} (hm : Inv Nonce m) {start k : ℕ} {tx : Tx}
    (h : (m.Ready start).1.items.lookup k = some tx) : m.items.lookup k = some tx := by
  by_cases hs : m.index.length = 0 ∨ m.index.getD 0 0 > start
  · rwa [Ready_of_short hs] at h
  · obtain ⟨-, hge⟩ := root_min hm.index hm.heap (by omega)
    obtain ⟨n, -, -, hres, -⟩ := readyLoop_spec [] hm.index hm.heap hge
    rw [Ready_of_le hs] at h
    exact hres.lookup_eq_some h

/-- **`Ready`**: when the least nonce is at most `start`, the run of
consecutive nonces from it is taken out and returned in order; when every nonce
is past `start`, nothing changes. -/
theorem Ready_spec {Nonce : Tx → ℕ} {m : txSortedMap Tx} (hm : Inv Nonce m) (start : ℕ) :
    (∀ lo ∈ m.items.keys, (∀ k ∈ m.items.keys, lo ≤ k) → lo ≤ start →
      ∃ n, (∀ j < n, lo + j ∈ m.items.keys) ∧ lo + n ∉ m.items.keys ∧
        Restricts (m.Ready start).1.items m.items (fun k => ¬ (lo ≤ k ∧ k < lo + n)) ∧
        (m.Ready start).2 = (List.range' lo n).map m.items.lookup) ∧
      ((∀ k ∈ m.items.keys, start < k) → m.Ready start = (m, [])) := by
  refine ⟨fun lo hlo hmin hle => ?_, fun hgt => Ready_of_short ?_⟩
  · -- the root is `lo`, and the loop starts there
    obtain ⟨h0, hroot⟩ := root_eq_min hm.index hm.heap hlo hmin
    have hge : ∀ k ∈ m.items.keys, m.index.getD 0 0 ≤ k := hroot ▸ hmin
    obtain ⟨n, hrun, hend, hres, -, -, hready⟩ := readyLoop_spec [] hm.index hm.heap hge
    rw [hroot] at hrun hend hres hready
    rw [Ready_of_le (by omega), hroot]
    exact ⟨n, hrun, hend, hres, by rw [hready, List.nil_append]⟩
  · -- the root is a nonce of the map, so past `start`
    by_cases h0 : m.index.length = 0
    · exact .inl h0
    · right
      exact hgt _ (root_min hm.index hm.heap (Nat.pos_of_ne_zero h0)).1

end Ready

/-! ### `Remove` -/

section Remove

variable {Nonce : Tx → ℕ} {m : txSortedMap Tx} {nonce : ℕ}

theorem Remove_of_isNone (h : (m.items.lookup nonce).isNone = true) : m.Remove nonce = (m, false) := by
  rw [Remove, if_pos h]

/-- `Remove` of a nonce the map holds, whose first position in the index is `i`. -/
theorem Remove_of_isSome (h : (m.items.lookup nonce).isSome = true) (hi : m.index.idxOf nonce < m.index.length) :
    m.Remove nonce =
      (⟨m.items.erase nonce, (heap.Remove nonceHeap.heapInterface m.index (m.index.idxOf nonce)).2, none⟩, true) := by
  rw [Remove, if_neg fun hn => by simp [Option.isNone_iff_eq_none.mp hn] at h]
  dsimp only
  rw [if_pos hi]

/-- **`Remove`** reports whether the map held the nonce, and takes out that
nonce only. -/
theorem Remove_spec (hm : Inv Nonce m) (nonce : ℕ) :
    (m.Remove nonce).2 = (m.items.lookup nonce).isSome ∧
      Restricts (m.Remove nonce).1.items m.items (· ≠ nonce) := by
  cases h : (m.items.lookup nonce).isSome
  · -- the map does not hold the nonce, which erasing it does not change
    have hnone : (m.items.lookup nonce).isNone = true := by simpa using h
    rw [Remove_of_isNone hnone]
    refine ⟨rfl, fun k => ?_⟩
    by_cases hk : k = nonce
    · subst hk
      simpa using hnone
    · rw [if_pos hk]
  · have hi := List.idxOf_lt_length_of_mem (hm.index.symm.subset (AList.mem_keys.mp (AList.lookup_isSome.mp h)))
    rw [Remove_of_isSome h hi]
    exact ⟨rfl, restricts_erase m.items nonce⟩

theorem Inv_Remove (hm : Inv Nonce m) (nonce : ℕ) : Inv Nonce (m.Remove nonce).1 := by
  cases h : (m.items.lookup nonce).isSome
  · rw [Remove_of_isNone (by simpa using h)]
    exact hm
  · -- the nonce is in the index, where `heap.Remove` takes it out
    have hmem : nonce ∈ m.items.keys := AList.mem_keys.mp (AList.lookup_isSome.mp h)
    have hi := List.idxOf_lt_length_of_mem (hm.index.symm.subset hmem)
    obtain ⟨hord, hperm⟩ := nonceHeap.heapRemove hm.heap hi
    rw [List.getElem_idxOf hi] at hperm
    rw [Remove_of_isSome h hi]
    exact ⟨(restricts_erase m.items nonce).keyed hm.keyed, perm_keys_erase hm.index hmem hperm, hord,
      fun c hc => by cases hc⟩

end Remove

/-! ### `filter`, `reheap` and `Filter` -/

section Filter

variable {Nonce : Tx → ℕ} {m : txSortedMap Tx} (f : Tx → Bool)

/-- The loop of `filter` over a range of entries: the accumulated map
restricted to the nonces of the entries `f` does not hold of, and those
transactions appended in the range's order. -/
theorem filter_foldl (es : List (Σ _ : ℕ, Tx)) (acc : AList (fun _ : ℕ => Tx) × List Tx) :
    Restricts (es.foldl (fun (acc : AList (fun _ : ℕ => Tx) × List Tx) e =>
        if f e.2 then (acc.1.erase e.1, acc.2 ++ [e.2]) else acc) acc).1 acc.1
        (· ∉ (es.filter (fun e => f e.2)).map Sigma.fst) ∧
      (es.foldl (fun (acc : AList (fun _ : ℕ => Tx) × List Tx) e =>
        if f e.2 then (acc.1.erase e.1, acc.2 ++ [e.2]) else acc) acc).2 =
        acc.2 ++ (es.filter (fun e => f e.2)).map Sigma.snd := by
  induction es generalizing acc with
  | nil => exact ⟨fun k => by simp, by simp⟩
  | cons e es ih =>
    rw [List.foldl_cons]
    by_cases hf : f e.2 = true
    · -- the entry is taken out, and the rest of the range restricts further
      obtain ⟨ih1, ih2⟩ := ih (acc.1.erase e.1, acc.2 ++ [e.2])
      simp only [if_pos hf]
      refine ⟨(ih1.trans (restricts_erase acc.1 e.1)).congr fun k _ => ?_, ?_⟩
      · simp [hf, and_comm]
      · rw [ih2, List.filter_cons, if_pos hf, List.map_cons, List.append_assoc, List.singleton_append]
    · obtain ⟨ih1, ih2⟩ := ih acc
      simp only [if_neg hf]
      rw [List.filter_cons, if_neg hf]
      exact ⟨ih1, ih2⟩

/-- **`filter`** takes out the transactions `f` holds of and returns them,
and leaves the heap as it was. -/
theorem filter_spec :
    Restricts (m.filter f).1.items m.items (· ∉ (m.items.entries.filter (fun e => f e.2)).map Sigma.fst) ∧
      (m.filter f).2 = (m.items.entries.filter (fun e => f e.2)).map Sigma.snd ∧
      (m.filter f).1.index = m.index ∧
      ((m.filter f).2 = [] → (m.filter f).1.cache = m.cache) := by
  obtain ⟨hres, hrem⟩ := filter_foldl f m.items.entries (m.items, [])
  rw [List.nil_append] at hrem
  refine ⟨hres, hrem, rfl, fun hnil => ?_⟩
  have h0 : ¬ (m.filter f).2.length > 0 := by rw [hnil]; exact Nat.lt_irrefl 0
  exact if_neg h0

/-- The nonces `filter` takes out are those whose transaction `f` holds of. -/
theorem mem_filter_entries {k : ℕ} :
    k ∈ (m.items.entries.filter (fun e => f e.2)).map Sigma.fst ↔
      ∃ tx, m.items.lookup k = some tx ∧ f tx = true := by
  simp only [List.mem_map, List.mem_filter]
  constructor
  · rintro ⟨⟨k', tx⟩, ⟨he, hf⟩, rfl⟩
    exact ⟨tx, lookup_of_mem_entries he, hf⟩
  · rintro ⟨tx, hk, hf⟩
    exact ⟨⟨k, tx⟩, ⟨AList.mem_lookup_iff.mp hk, hf⟩, rfl⟩

theorem Filter_eq : m.Filter f =
    (if (m.filter f).2.length > 0 then (m.filter f).1.reheap else (m.filter f).1, (m.filter f).2) := rfl

theorem reheap_items : m.reheap.items = m.items := rfl

theorem Inv_reheap (hkeyed : Keyed Nonce m.items) : Inv Nonce m.reheap :=
  ⟨hkeyed, (nonceHeap.heapInit _).2, (nonceHeap.heapInit _).1, fun c hc => by cases hc⟩

/-- `filter` followed by `reheap` keeps the invariant. -/
theorem Inv_filter_reheap (hm : Inv Nonce m) : Inv Nonce (m.filter f).1.reheap :=
  Inv_reheap ((filter_spec f).1.keyed hm.keyed)

theorem Filter_items : (m.Filter f).1.items = (m.filter f).1.items := by
  rw [Filter_eq]
  split <;> rfl

/-- **`Filter`** takes out exactly the transactions `f` holds of, and returns
them. -/
theorem Filter_spec :
    Restricts (m.Filter f).1.items m.items (fun k => (m.items.lookup k).all (fun tx => !f tx) = true) ∧
      (m.Filter f).2 = (m.items.entries.filter (fun e => f e.2)).map Sigma.snd := by
  obtain ⟨hres, hrem, -, -⟩ := filter_spec (m := m) f
  refine ⟨Filter_items f ▸ hres.congr fun k _ => ?_, hrem⟩
  -- a nonce stays when its transaction is not one `f` holds of
  rw [mem_filter_entries]
  cases m.items.lookup k <;> simp

/-- What `Filter` leaves is what the map held and `f` does not hold of. -/
theorem lookup_Filter {k : ℕ} {tx : Tx} (h : (m.Filter f).1.items.lookup k = some tx) :
    m.items.lookup k = some tx ∧ f tx = false := by
  have hk := h
  rw [(Filter_spec f).1 k] at hk
  split_ifs at hk with hc
  simp only [hk, Option.all_some, Bool.not_eq_eq_eq_not, Bool.not_true] at hc
  exact ⟨hk, hc⟩

theorem Inv_Filter (hm : Inv Nonce m) : Inv Nonce (m.Filter f).1 := by
  obtain ⟨hres, hrem, hidx, hcache⟩ := filter_spec (m := m) f
  by_cases h : (m.filter f).2.length > 0
  · rw [Filter_eq, if_pos h]
    exact Inv_filter_reheap f hm
  · rw [Filter_eq, if_neg h]
    -- nothing was removed, so the map holds what it held
    have hnil : (m.filter f).2 = [] := List.eq_nil_of_length_eq_zero (by omega)
    have hnone : m.items.entries.filter (fun e => f e.2) = [] := by
      rw [hnil, eq_comm, List.map_eq_nil_iff] at hrem
      exact hrem
    rw [hnone, List.map_nil] at hres
    have hall : Restricts (m.filter f).1.items m.items (fun _ => True) := hres.congr fun k _ => by simp
    refine ⟨hall.keyed hm.keyed, ?_, by rw [hidx]; exact hm.heap, fun c hc => ?_⟩
    · rw [hidx]
      refine hm.index.trans ((List.perm_ext_iff_of_nodup m.items.keys_nodup (AList.keys_nodup _)).mpr fun k => ?_)
      rw [hall.mem_keys, true_and]
    · rw [hcache hnil] at hc
      have hc' := hm.cache c hc
      refine hall.sortedTxs_eq hm.keyed hc' (fun _ h => h) ?_
      rw [hc', map_sortedTxs hm.keyed]
      simp

end Filter

/-! ### `flatten` -/

section Flatten

variable {Nonce : Tx → ℕ} {items : AList (fun _ : ℕ => Tx)} {m : txSortedMap Tx}

/-- **The sort of `flatten`**: the map's transactions sorted by nonce are its
sorted transactions. -/
theorem mergeSort_entries (hkeyed : Keyed Nonce items) :
    (items.entries.map Sigma.snd).mergeSort (fun a b => decide (Nonce a ≤ Nonce b)) = sortedTxs items := by
  have hperm := List.mergeSort_perm (items.entries.map Sigma.snd) (fun a b => decide (Nonce a ≤ Nonce b))
  -- the nonces of the entries' transactions are the keys
  have hkeys : (items.entries.map Sigma.snd).map Nonce = items.keys := by
    rw [List.map_map, AList.keys, List.keys]
    exact List.map_congr_left fun e he => hkeyed e.1 e.2 (lookup_of_mem_entries he)
  have hnonces := (hperm.map Nonce).trans (List.Perm.of_eq hkeys)
  have hle := @List.pairwise_mergeSort Tx (fun a b => decide (Nonce a ≤ Nonce b))
    (fun a b c hab hbc => by simp only [decide_eq_true_eq] at *; omega)
    (fun a b => by simp only [Bool.or_eq_true, decide_eq_true_eq]; omega) (items.entries.map Sigma.snd)
  have hlt : (((items.entries.map Sigma.snd).mergeSort fun a b => decide (Nonce a ≤ Nonce b)).map Nonce).Pairwise
      (· < ·) := by
    refine (((List.pairwise_map (R := fun x y => decide (x ≤ y) = true)).mpr hle).and (hnonces.nodup_iff.mpr items.keys_nodup)).imp fun ⟨h1, h2⟩ => ?_
    exact Nat.lt_of_le_of_ne (of_decide_eq_true h1) h2
  refine (eq_sortedTxs_iff hkeyed).mpr ⟨eq_sortedNonces hlt fun k => hnonces.mem_iff, fun tx htx => ?_⟩
  obtain ⟨e, he, rfl⟩ := List.mem_map.mp (hperm.subset htx)
  rw [hkeyed e.1 e.2 (lookup_of_mem_entries he)]
  exact lookup_of_mem_entries he

/-- **`Flatten`** returns the map's transactions sorted by nonce. -/
theorem Flatten_spec (hm : Inv Nonce m) : (m.Flatten Nonce).2 = sortedTxs m.items := by
  unfold Flatten flatten
  cases hc : m.cache with
  | some c => exact hm.cache c hc
  | none => exact mergeSort_entries hm.keyed

theorem Flatten_items : (m.Flatten Nonce).1.items = m.items := by
  unfold Flatten flatten
  cases m.cache <;> rfl

theorem LastElement_fst : (m.LastElement Nonce).1 = (m.Flatten Nonce).1 := rfl

theorem Inv_Flatten (hm : Inv Nonce m) : Inv Nonce (m.Flatten Nonce).1 := by
  unfold Flatten flatten
  cases hc : m.cache with
  | some c => exact hm
  | none =>
    exact ⟨hm.keyed, hm.index, hm.heap, fun c hc' => by
      cases hc'
      exact mergeSort_entries hm.keyed⟩

end Flatten

/-! ### Runs of calls -/

/-- The calls on a `txSortedMap` that its callers make: `filter` only with a
`reheap` after it, as its comment asks. -/
inductive Op (Tx : Type) where
  | Put (tx : Tx)
  | Forward (threshold : ℕ)
  | Filter (f : Tx → Bool)
  | filterReheap (f : Tx → Bool)
  | Cap (threshold : ℕ)
  | Remove (nonce : ℕ)
  | Ready (start : ℕ)
  | Flatten

section Run

variable (Nonce : Tx → ℕ)

/-- The map one call leaves. -/
def step (m : txSortedMap Tx) : Op Tx → txSortedMap Tx
  | .Put tx => m.Put Nonce tx
  | .Forward threshold => (m.Forward threshold).1
  | .Filter f => (m.Filter f).1
  | .filterReheap f => (m.filter f).1.reheap
  | .Cap threshold => (m.Cap threshold).1
  | .Remove nonce => (m.Remove nonce).1
  | .Ready start => (m.Ready start).1
  | .Flatten => (m.Flatten Nonce).1

/-- The map a run of calls leaves. -/
def run (m : txSortedMap Tx) (ops : List (Op Tx)) : txSortedMap Tx := ops.foldl (step Nonce) m

variable {Nonce} {m : txSortedMap Tx}

/-- **Every call keeps the invariant.** -/
theorem Inv_step (hm : Inv Nonce m) (op : Op Tx) : Inv Nonce (step Nonce m op) := by
  cases op with
  | Put tx => exact Inv_Put hm tx
  | Forward threshold => exact Inv_Forward hm threshold
  | Filter f => exact Inv_Filter f hm
  | filterReheap f => exact Inv_filter_reheap f hm
  | Cap threshold => exact Inv_Cap hm threshold
  | Remove nonce => exact Inv_Remove hm nonce
  | Ready start => exact Inv_Ready hm start
  | Flatten => exact Inv_Flatten hm

theorem Inv_run (hm : Inv Nonce m) (ops : List (Op Tx)) : Inv Nonce (run Nonce m ops) := by
  induction ops generalizing m with
  | nil => exact hm
  | cons op ops ih => exact ih (Inv_step hm op)

/-- **The three views of every reachable map agree.** After any run of calls
from `newTxSortedMap`, the heap holds exactly the map's nonces in heap order and
a cache is the transactions sorted by nonce. So `Flatten` returns them in
strictly increasing order of nonce, `Forward` takes out exactly those below its
threshold, `Cap` exactly those past the least `threshold` nonces, and `Ready`
the longest run of consecutive nonces from the least, when it is at most
`start`. -/
theorem run_views_agree (Nonce : Tx → ℕ) (ops : List (Op Tx)) :
    let m := run Nonce newTxSortedMap ops
    (m.index.Perm m.items.keys ∧ nonceHeap.Ordered m.index ∧
        ∀ c, m.cache = some c → c = sortedTxs m.items) ∧
      ((m.Flatten Nonce).2 = sortedTxs m.items ∧ ((m.Flatten Nonce).2.map Nonce).Pairwise (· < ·)) ∧
      (∀ threshold, Restricts (m.Forward threshold).1.items m.items (threshold ≤ ·) ∧
        (m.Forward threshold).2 = ((sortedNonces m.items).filter (· < threshold)).map m.items.lookup) ∧
      (∀ threshold, Restricts (m.Cap threshold).1.items m.items (· ∈ (sortedNonces m.items).take threshold) ∧
        (m.Cap threshold).2 = ((sortedNonces m.items).drop threshold).reverse.map m.items.lookup) ∧
      ∀ start,
        (∀ lo ∈ m.items.keys, (∀ k ∈ m.items.keys, lo ≤ k) → lo ≤ start →
          ∃ n, (∀ j < n, lo + j ∈ m.items.keys) ∧ lo + n ∉ m.items.keys ∧
            Restricts (m.Ready start).1.items m.items (fun k => ¬ (lo ≤ k ∧ k < lo + n)) ∧
            (m.Ready start).2 = (List.range' lo n).map m.items.lookup) ∧
          ((∀ k ∈ m.items.keys, start < k) → m.Ready start = (m, [])) := by
  intro m
  have hm : Inv Nonce m := Inv_run Inv_newTxSortedMap ops
  have hflat := Flatten_spec hm
  refine ⟨⟨hm.index, hm.heap, hm.cache⟩, ⟨hflat, ?_⟩, fun threshold => Forward_spec hm threshold,
    fun threshold => Cap_spec hm threshold, fun start => Ready_spec hm start⟩
  -- the nonces of the sorted transactions are the sorted nonces
  rw [hflat, map_sortedTxs hm.keyed]
  exact sortedNonces_pairwise m.items

end Run

end txSortedMap

end core

end PureChain
