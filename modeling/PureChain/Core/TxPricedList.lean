import PureChain.Lib.HeapSlice
import PureChain.Core.Types.Transaction

/-!
# `txPricedList`: the pool's remote transactions by price

When the pool is full it evicts its cheapest remote transactions. It finds them
in `txPricedList`, a `container/heap` min-heap of transactions (`priceHeap`)
ordered by gas price and, at one price, with the higher nonce first. The heap is
not kept in step with the pool's lookup of transactions, `txLookup`: a
transaction that leaves the pool stays in the heap, stale, until a loop meets it
at the root and pops it, or until `Removed` finds enough of them to rebuild the
heap from the lookup (`Reheap`).

Every call keeps the heap order (`Ordered_step`). What each call returns is
then stated against the live transactions, those the lookup still holds under
their hash:
* `Cap` returns exactly the live transactions below the threshold, and leaves
  none below it (`Cap_spec`).
* `Underpriced` answers whether some transaction is live and none costs less
  than the new one (`Underpriced_spec`).
* `Discard` pops live transactions, cheapest first, until they free the slots
  asked for. If it cannot, it puts them back and leaves the live transactions as
  they were (`Discard_spec`).

`tx.Hash()` and `tx.Size()`, the Keccak-256 and the length of a transaction's
encoding, are parameters. `numSlots` divides `Size` on `float64` in the source;
on the sizes a transaction can have, that is the integer division used here.
The order of a `range` over the lookup's map is that of its `entries`, and no
proof relies on it.
-/

namespace PureChain

namespace core

/-! ### `priceHeap` -/

/-- The order of `priceHeap`: the cheaper transaction first, and at one price
the one of higher nonce. -/
def cheaper (a b : Transaction) : Prop :=
  a.GasPrice < b.GasPrice ∨ (a.GasPrice = b.GasPrice ∧ b.Nonce.toNat < a.Nonce.toNat)

/-- Prices and nonces compare as `container/heap` needs: a strict weak order. -/
theorem isStrictWeakOrder_cheaper : IsStrictWeakOrder Transaction cheaper where
  irrefl a h := by
    unfold cheaper at h
    omega
  trans a b c hab hbc := by
    unfold cheaper at hab hbc ⊢
    omega
  incomp_trans a b c hab hbc := by
    unfold cheaper at hab hbc ⊢
    omega

namespace priceHeap

/-- `priceHeap.Len`. -/
def Len (h : List Transaction) : ℕ := h.length

/-- The comparison of `priceHeap.Less`: sort primarily by price, returning the
cheaper one; if the prices match, stabilize via nonces (high nonce is worse). -/
def lessTx (a b : Transaction) : Bool :=
  match compare a.GasPrice b.GasPrice with
  | .lt => true
  | .gt => false
  | .eq => decide (a.Nonce > b.Nonce)

/-- `priceHeap.Less`; an index out of range is a panic of the source. -/
def Less (h : List Transaction) (i j : ℕ) : Bool :=
  match h[i]?, h[j]? with
  | some a, some b => lessTx a b
  | _, _ => false

/-- `priceHeap.Swap`: `h[i], h[j] = h[j], h[i]`. -/
def Swap (h : List Transaction) (i j : ℕ) : List Transaction :=
  match h[i]?, h[j]? with
  | some a, some b => (h.set i b).set j a
  | _, _ => h

/-- `priceHeap.Push`: `append`. -/
def Push (h : List Transaction) (x : Transaction) : List Transaction := h ++ [x]

/-- `priceHeap.Pop`: the last transaction, and the slice without it. -/
def Pop (h : List Transaction) : Option Transaction × List Transaction := (h.getLast?, h.dropLast)

/-- The `heap.Interface` of a `priceHeap`. -/
def heapInterface : heap.Interface (List Transaction) Transaction where
  Len := Len
  Less := Less
  Swap := Swap
  Push := Push
  Pop := Pop

theorem lessTx_iff (a b : Transaction) : lessTx a b = true ↔ cheaper a b := by
  unfold lessTx cheaper
  cases hc : compare a.GasPrice b.GasPrice
  case lt =>
    have := compare_lt_iff_lt.mp hc
    simp only [true_iff]
    omega
  case eq =>
    have := compare_eq_iff_eq.mp hc
    simp only [gt_iff_lt, UInt64.lt_iff_toNat_lt, decide_eq_true_eq]
    omega
  case gt =>
    have := compare_gt_iff_gt.mp hc
    simp only [Bool.false_eq_true, false_iff]
    omega

/-- **A `priceHeap` is a Go slice of transactions**, ordered by `cheaper`. -/
theorem sliceMethods : heap.SliceMethods heapInterface cheaper where
  len _ := rfl
  less h i j hi hj := by
    simp only [heapInterface, Less, List.getElem?_eq_getElem hi, List.getElem?_eq_getElem hj]
    exact lessTx_iff h[i] h[j]
  swap h i j hi hj := by
    simp [heapInterface, Swap, List.getElem?_eq_getElem hi, List.getElem?_eq_getElem hj]
  push _ _ := rfl
  pop _ := rfl

/-- The min-heap order of `container/heap` on a `priceHeap`. -/
def Ordered (h : List Transaction) : Prop := heap.Ordered heapInterface heap.sliceGet cheaper h

theorem length_heapPop {h : List Transaction} (h0 : 0 < h.length) :
    (heap.Pop heapInterface h).2.length = h.length - 1 :=
  heap.SliceMethods.length_Pop sliceMethods h0

/-- `heap.Pop` on a nonempty `priceHeap` takes its cheapest transaction, the
root, and leaves a heap of the others. -/
theorem heapPop {h : List Transaction} (ho : Ordered h) (h0 : 0 < h.length) :
    (heap.Pop heapInterface h).1 = some h[0] ∧ (∀ y ∈ h, ¬ cheaper y h[0]) ∧
      Ordered (heap.Pop heapInterface h).2 ∧ h.Perm ((heap.Pop heapInterface h).2 ++ [h[0]]) := by
  exact @heap.SliceMethods.Pop_spec _ _ _ sliceMethods isStrictWeakOrder_cheaper _ ho h0

/-- `heap.Push` on a `priceHeap`: a heap with the transaction added. -/
theorem heapPush {h : List Transaction} (ho : Ordered h) (x : Transaction) :
    Ordered (heap.Push heapInterface h x) ∧ (heap.Push heapInterface h x).Perm (h ++ [x]) := by
  exact @heap.SliceMethods.Push_spec _ _ _ sliceMethods isStrictWeakOrder_cheaper _ ho x

/-- Transactions pushed one after another on a `priceHeap`. -/
theorem foldl_heapPush {h : List Transaction} (ho : Ordered h) (xs : List Transaction) :
    Ordered (xs.foldl (heap.Push heapInterface) h) ∧ (xs.foldl (heap.Push heapInterface) h).Perm (h ++ xs) := by
  exact @heap.SliceMethods.foldl_Push _ _ _ sliceMethods isStrictWeakOrder_cheaper _ ho xs

/-- `heap.Init` makes a heap of any slice of transactions. -/
theorem heapInit (h : List Transaction) :
    Ordered (heap.Init heapInterface h) ∧ (heap.Init heapInterface h).Perm h := by
  exact @heap.SliceMethods.Init_spec _ _ _ sliceMethods isStrictWeakOrder_cheaper h

end priceHeap

/-! ### `txLookup` -/

/-- `txLookup`: the pool's transactions by hash, local and remote, and the
slots they take. -/
structure txLookup where
  slots : ℤ
  locals : AList (fun _ : PureChain.Hash => Transaction)
  remotes : AList (fun _ : PureChain.Hash => Transaction)

/-- `newTxLookup`. -/
def newTxLookup : txLookup := ⟨0, ∅, ∅⟩

/-- `txSlotSize`: the bytes of one slot. -/
def txSlotSize : ℕ := 32 * 1024

/-- `numSlots`: the slots a transaction takes, its size rounded up to slots. -/
def numSlots (Size : Transaction → ℕ) (tx : Transaction) : ℤ :=
  ((Size tx + txSlotSize - 1) / txSlotSize : ℕ)

namespace txLookup

-- `tx.Hash()` and `tx.Size()`
variable (txHash : Transaction → PureChain.Hash) (Size : Transaction → ℕ)

/-- `Get`: a local transaction under the hash, or else a remote one. -/
def Get (t : txLookup) (hash : PureChain.Hash) : Option Transaction :=
  t.locals.lookup hash <|> t.remotes.lookup hash

/-- `GetRemote`. -/
def GetRemote (t : txLookup) (hash : PureChain.Hash) : Option Transaction := t.remotes.lookup hash

/-- `Count`. -/
def Count (t : txLookup) : ℕ := t.locals.entries.length + t.remotes.entries.length

/-- `RemoteCount`. -/
def RemoteCount (t : txLookup) : ℕ := t.remotes.entries.length

/-- `Slots`. -/
def Slots (t : txLookup) : ℤ := t.slots

/-- `Add`: the transaction under its hash, among the local or the remote ones. -/
def Add (t : txLookup) (tx : Transaction) (isLocal : Bool) : txLookup :=
  let slots := t.slots + numSlots Size tx
  if isLocal then ⟨slots, t.locals.insert (txHash tx) tx, t.remotes⟩
  else ⟨slots, t.locals, t.remotes.insert (txHash tx) tx⟩

/-- `Remove`: nothing for a hash the lookup does not hold (an error is logged),
and otherwise the transaction taken out of both maps. -/
def Remove (t : txLookup) (hash : PureChain.Hash) : txLookup :=
  match t.locals.lookup hash <|> t.remotes.lookup hash with
  | none => t
  | some tx => ⟨t.slots - numSlots Size tx, t.locals.erase hash, t.remotes.erase hash⟩

/-- One remote transaction of the loop of `RemoteToLocals`: moved to the local
ones when `containsTx` accepts it, and counted. -/
def remoteToLocal (containsTx : Transaction → Bool) (acc : txLookup × ℕ)
    (e : Σ _ : PureChain.Hash, Transaction) : txLookup × ℕ :=
  if containsTx e.2 then (⟨acc.1.slots, acc.1.locals.insert e.1 e.2, acc.1.remotes.erase e.1⟩, acc.2 + 1)
  else acc

/-- `RemoteToLocals`: the remote transactions that `containsTx` accepts moved
to the local ones, and how many. `locals.containsTx` is a parameter. -/
def RemoteToLocals (t : txLookup) (containsTx : Transaction → Bool) : txLookup × ℕ :=
  t.remotes.entries.foldl (remoteToLocal containsTx) (t, 0)

theorem remotes_Add (t : txLookup) (tx : Transaction) (isLocal : Bool) :
    (t.Add txHash Size tx isLocal).remotes =
      if isLocal then t.remotes else t.remotes.insert (txHash tx) tx := by
  unfold Add
  cases isLocal <;> rfl

/-- `Remove` only takes remote transactions out, -/
theorem lookup_of_lookup_Remove {t : txLookup} {hash h : PureChain.Hash} {tx : Transaction}
    (hr : (t.Remove Size hash).remotes.lookup h = some tx) : t.remotes.lookup h = some tx := by
  unfold Remove at hr
  split at hr
  · exact hr
  · by_cases hh : h = hash
    · subst hh
      simp at hr
    · rwa [AList.lookup_erase_ne hh] at hr

/-- and leaves none under the hash it is given. -/
theorem lookup_Remove_self (t : txLookup) (hash : PureChain.Hash) :
    (t.Remove Size hash).remotes.lookup hash = none := by
  unfold Remove
  split
  case h_1 hnone =>
    -- neither map holds the hash
    cases hl : t.locals.lookup hash <;> simp_all
  case h_2 => simp

/-- `RemoteToLocals` only takes remote transactions out. -/
theorem lookup_of_lookup_RemoteToLocals {t : txLookup} {containsTx : Transaction → Bool}
    {h : PureChain.Hash} {tx : Transaction} (hr : (t.RemoteToLocals containsTx).1.remotes.lookup h = some tx) :
    t.remotes.lookup h = some tx := by
  -- each step of the loop erases a hash or does nothing
  suffices ∀ (es : List (Σ _ : PureChain.Hash, Transaction)) (acc : txLookup × ℕ),
      (es.foldl (remoteToLocal containsTx) acc).1.remotes.lookup h = some tx → acc.1.remotes.lookup h = some tx
    from this _ _ hr
  intro es
  induction es with
  | nil => exact fun _ hacc => hacc
  | cons e es ih =>
    intro acc hacc
    have hstep := ih _ hacc
    unfold remoteToLocal at hstep
    split_ifs at hstep
    · by_cases hh : h = e.1
      · subst hh
        simp at hstep
      · rwa [AList.lookup_erase_ne hh] at hstep
    · exact hstep

end txLookup

/-! ### `txPricedList` -/

/-- `txPricedList`: the heap of remote transactions, and how many of its
entries are counted stale. The pointer `all` to the pool's lookup is an argument
of each call that reads it. -/
structure txPricedList where
  remotes : List Transaction
  stales : ℤ

/-- `newTxPricedList`. -/
def newTxPricedList : txPricedList := ⟨[], 0⟩

namespace txPricedList

variable (txHash : Transaction → PureChain.Hash) (Size : Transaction → ℕ)

/-- `Put`: a remote transaction pushed on the heap. -/
def Put (l : txPricedList) (tx : Transaction) (isLocal : Bool) : txPricedList :=
  if isLocal then l else ⟨heap.Push priceHeap.heapInterface l.remotes tx, l.stales⟩

/-- `Reheap`: the heap rebuilt from the lookup's remote transactions, with no
stale entry counted. -/
def Reheap (all : txLookup) : txPricedList :=
  let reheap := all.remotes.entries.map (·.2)
  ⟨heap.Init priceHeap.heapInterface reheap, 0⟩

/-- `Removed`: the stale counter bumped, and the heap rebuilt once more than a
quarter of it is stale. -/
def Removed (all : txLookup) (l : txPricedList) (count : ℤ) : txPricedList :=
  let stales := l.stales + count
  if stales ≤ ((l.remotes.length / 4 : ℕ) : ℤ) then ⟨l.remotes, stales⟩ else Reheap all

/-- The loop of `Cap`: stale roots are popped, and live ones below the
threshold popped and dropped. -/
def capLoop (all : txLookup) (threshold : ℤ) (l : txPricedList) (drop : List Transaction) :
    txPricedList × List Transaction :=
  if hl : 0 < l.remotes.length then
    let cheapest := l.remotes[0]
    -- removed or migrated
    if (all.GetRemote (txHash cheapest)).isNone then
      capLoop all threshold ⟨(heap.Pop priceHeap.heapInterface l.remotes).2, l.stales - 1⟩ drop
    else if (cheapest.GasPrice : ℤ) ≥ threshold then (l, drop)
    else capLoop all threshold ⟨(heap.Pop priceHeap.heapInterface l.remotes).2, l.stales⟩ (drop ++ [cheapest])
  else (l, drop)
termination_by l.remotes.length
decreasing_by
  all_goals
    simp only [priceHeap.length_heapPop hl]
    omega

/-- `Cap`: the live transactions below the threshold, dropped from the heap. -/
def Cap (all : txLookup) (l : txPricedList) (threshold : ℤ) : txPricedList × List Transaction :=
  capLoop txHash all threshold l []

/-- The loop of `Underpriced`: stale roots popped. -/
def underpricedLoop (all : txLookup) (l : txPricedList) : txPricedList :=
  if hl : 0 < l.remotes.length then
    let head := l.remotes[0]
    -- removed or migrated
    if (all.GetRemote (txHash head)).isNone then
      underpricedLoop all ⟨(heap.Pop priceHeap.heapInterface l.remotes).2, l.stales - 1⟩
    else l
  else l
termination_by l.remotes.length
decreasing_by
  simp only [priceHeap.length_heapPop hl]
  omega

/-- `Underpriced`: whether the cheapest live remote transaction costs at least
as much as `tx`; `false` when there is none. -/
def Underpriced (all : txLookup) (l : txPricedList) (tx : Transaction) : txPricedList × Bool :=
  let l := underpricedLoop txHash all l
  if _hl : l.remotes.length = 0 then (l, false)
  else
    let cheapest := l.remotes[0]
    (l, decide (cheapest.GasPrice ≥ tx.GasPrice))

/-- The loop of `Discard`: roots popped while slots are still wanted, the live
ones dropped and their slots counted. -/
def discardLoop (all : txLookup) (l : txPricedList) (slots : ℤ) (drop : List Transaction) :
    txPricedList × ℤ × List Transaction :=
  if _hl : 0 < l.remotes.length ∧ slots > 0 then
    -- `heap.Pop(l.remotes).(*types.Transaction)`: a nonempty heap pops a transaction
    match (heap.Pop priceHeap.heapInterface l.remotes).1 with
    | some tx =>
      if (all.GetRemote (txHash tx)).isNone then
        discardLoop all ⟨(heap.Pop priceHeap.heapInterface l.remotes).2, l.stales - 1⟩ slots drop
      else
        discardLoop all ⟨(heap.Pop priceHeap.heapInterface l.remotes).2, l.stales⟩ (slots - numSlots Size tx)
          (drop ++ [tx])
    | none => (l, slots, drop)
  else (l, slots, drop)
termination_by l.remotes.length
decreasing_by
  all_goals
    simp only [priceHeap.length_heapPop _hl.1]
    omega

/-- `Discard`: the cheapest live transactions dropped until they free `slots`
slots; when they cannot and `force` is off, they are pushed back and nothing is
dropped. -/
def Discard (all : txLookup) (l : txPricedList) (slots : ℤ) (force : Bool) :
    txPricedList × List Transaction × Bool :=
  let (l, slots, drop) := discardLoop txHash Size all l slots []
  -- if we still can't make enough room for the new transaction
  if slots > 0 ∧ !force then
    (⟨drop.foldl (heap.Push priceHeap.heapInterface) l.remotes, l.stales⟩, [], false)
  else (l, drop, true)

/-! ### What the calls do -/

/-- A transaction of the heap is live when the lookup holds a remote
transaction under its hash, and stale otherwise. -/
def live (all : txLookup) (tx : Transaction) : Bool := (all.GetRemote (txHash tx)).isSome

theorem live_eq_false {txHash : Transaction → PureChain.Hash} {all : txLookup} {tx : Transaction} :
    live txHash all tx = false ↔ (all.GetRemote (txHash tx)).isNone = true := by
  unfold live
  cases all.GetRemote (txHash tx) <;> simp

theorem live_eq_true {txHash : Transaction → PureChain.Hash} {all : txLookup} {tx : Transaction} :
    live txHash all tx = true ↔ ¬ (all.GetRemote (txHash tx)).isNone = true := by
  unfold live
  cases all.GetRemote (txHash tx) <;> simp

/-- No transaction is cheaper than another of at most its price. -/
theorem GasPrice_le_of_not_cheaper {x y : Transaction} (h : ¬ cheaper y x) : x.GasPrice ≤ y.GasPrice := by
  unfold cheaper at h
  omega

/-- No transaction of a nonempty heap is cheaper than its root. -/
theorem root_least {s : List Transaction} (ho : priceHeap.Ordered s) (h0 : 0 < s.length) :
    ∀ y ∈ s, ¬ cheaper y s[0] :=
  (priceHeap.heapPop ho h0).2.1

/-- What a loop that pops roots leaves: an ordered heap `rest`, where the heap
it started from was `rest` and the popped transactions, none of which costs
more than what is left. -/
structure PoppedFrom (s rest popped : List Transaction) : Prop where
  ordered : priceHeap.Ordered rest
  perm : s.Perm (rest ++ popped)
  least : ∀ x ∈ popped, ∀ y ∈ rest, ¬ cheaper y x

section Pops

variable {s rest popped : List Transaction}

theorem PoppedFrom.refl (ho : priceHeap.Ordered s) : PoppedFrom s s [] :=
  ⟨ho, by simp, by simp⟩

/-- A loop that pops the root and goes on. -/
theorem PoppedFrom.pop (ho : priceHeap.Ordered s) (h0 : 0 < s.length)
    (hp : PoppedFrom (heap.Pop priceHeap.heapInterface s).2 rest popped) :
    PoppedFrom s rest (s[0] :: popped) := by
  obtain ⟨-, hroot, -, hperm⟩ := priceHeap.heapPop ho h0
  refine ⟨hp.ordered, ?_, ?_⟩
  · -- the root goes last, then to the front of what is popped
    refine hperm.trans ((hp.perm.append_right [s[0]]).trans ?_)
    rw [List.append_assoc]
    exact (List.perm_append_singleton s[0] popped).append_left rest
  · intro x hx y hy
    rcases List.mem_cons.mp hx with rfl | hx
    · -- what is left was in the heap, whose root is least
      have hy' : y ∈ (heap.Pop priceHeap.heapInterface s).2 :=
        hp.perm.symm.subset (List.mem_append_left _ hy)
      exact hroot y (hperm.symm.subset (List.mem_append_left _ hy'))
    · exact hp.least x hx y hy

theorem PoppedFrom.mem {x : Transaction} (hp : PoppedFrom s rest popped) (hx : x ∈ s) :
    x ∈ rest ∨ x ∈ popped :=
  List.mem_append.mp (hp.perm.subset hx)

end Pops

section Loops

variable {txHash} (all : txLookup) {l : txPricedList}

/-- The loop of `Underpriced` pops stale transactions only, and stops at a live
root. -/
theorem underpricedLoop_spec (ho : priceHeap.Ordered l.remotes) :
    ∃ popped, PoppedFrom l.remotes (underpricedLoop txHash all l).remotes popped ∧
      (∀ x ∈ popped, live txHash all x = false) ∧
      (underpricedLoop txHash all l).stales = l.stales - popped.length ∧
      ∀ h : 0 < (underpricedLoop txHash all l).remotes.length,
        live txHash all (underpricedLoop txHash all l).remotes[0] = true := by
  induction l using underpricedLoop.induct txHash all with
  | case1 l hl _ hs ih =>
    obtain ⟨-, -, ho', -⟩ := priceHeap.heapPop ho hl
    obtain ⟨popped, hp, hstale, hstales, hroot⟩ := ih ho'
    rw [underpricedLoop, dif_pos hl, if_pos hs]
    refine ⟨l.remotes[0] :: popped, hp.pop ho hl, ?_, ?_, hroot⟩
    · intro x hx
      rcases List.mem_cons.mp hx with rfl | hx
      · exact live_eq_false.2 hs
      · exact hstale x hx
    · rw [hstales, List.length_cons]
      dsimp only
      omega
  | case2 l hl _ hs =>
    rw [underpricedLoop, dif_pos hl, if_neg hs]
    exact ⟨[], PoppedFrom.refl ho, by simp, by simp, fun _ => live_eq_true.2 hs⟩
  | case3 l hl =>
    rw [underpricedLoop, dif_neg hl]
    exact ⟨[], PoppedFrom.refl ho, by simp, by simp, fun h => absurd h hl⟩

/-- The loop of `Cap` pops stale roots and live ones below the threshold, drops
the live ones, and stops at a root at or above it. -/
theorem capLoop_spec (threshold : ℤ) (ho : priceHeap.Ordered l.remotes) (drop : List Transaction) :
    ∃ popped, PoppedFrom l.remotes (capLoop txHash all threshold l drop).1.remotes popped ∧
      (capLoop txHash all threshold l drop).2 = drop ++ popped.filter (live txHash all) ∧
      (∀ x ∈ popped, live txHash all x = true → (x.GasPrice : ℤ) < threshold) ∧
      (∀ y ∈ (capLoop txHash all threshold l drop).1.remotes, threshold ≤ y.GasPrice) ∧
      (capLoop txHash all threshold l drop).1.stales =
        l.stales - (popped.filter fun x => !live txHash all x).length := by
  induction l, drop using capLoop.induct txHash all threshold with
  | case1 l drop hl _ hs ih =>
    -- a stale root is popped
    obtain ⟨-, -, ho', -⟩ := priceHeap.heapPop ho hl
    obtain ⟨popped, hp, hdrop, hbelow, habove, hstales⟩ := ih ho'
    have hlive : live txHash all l.remotes[0] = false := live_eq_false.2 hs
    rw [capLoop, dif_pos hl, if_pos hs]
    refine ⟨l.remotes[0] :: popped, hp.pop ho hl, by simp [hdrop, hlive], ?_, habove, ?_⟩
    · intro x hx hxl
      rcases List.mem_cons.mp hx with rfl | hx
      · simp [hlive] at hxl
      · exact hbelow x hx hxl
    · rw [hstales]
      simp only [List.filter_cons, hlive, Bool.not_false, if_true, List.length_cons]
      omega
  | case2 l drop hl _ hs hge =>
    -- a live root at or above the threshold stops the loop
    rw [capLoop, dif_pos hl, if_neg hs, if_pos hge]
    refine ⟨[], PoppedFrom.refl ho, by simp, by simp, fun y hy => ?_, by simp⟩
    exact le_trans hge (Int.ofNat_le.mpr (GasPrice_le_of_not_cheaper (root_least ho hl y hy)))
  | case3 l drop hl c hs hlt ih =>
    -- a live root below the threshold is popped and dropped
    simp only [c] at hs hlt ih
    obtain ⟨-, -, ho', -⟩ := priceHeap.heapPop ho hl
    obtain ⟨popped, hp, hdrop, hbelow, habove, hstales⟩ := ih ho'
    have hlive : live txHash all l.remotes[0] = true := live_eq_true.2 hs
    rw [capLoop, dif_pos hl, if_neg hs, if_neg hlt]
    refine ⟨l.remotes[0] :: popped, hp.pop ho hl, by simp [hdrop, hlive], ?_, habove, ?_⟩
    · intro x hx hxl
      rcases List.mem_cons.mp hx with rfl | hx
      · exact lt_of_not_ge hlt
      · exact hbelow x hx hxl
    · rw [hstales]
      simp [hlive]
  | case4 l drop hl =>
    rw [capLoop, dif_neg hl]
    refine ⟨[], PoppedFrom.refl ho, by simp, by simp, fun y hy => ?_, by simp⟩
    exact absurd (List.length_pos_of_mem hy) hl

/-- The loop of `Discard` pops roots while slots are wanted, drops the live
ones and counts their slots, and stops when no slot is wanted or the heap is
empty. -/
theorem discardLoop_spec (ho : priceHeap.Ordered l.remotes) (slots : ℤ) (drop : List Transaction) :
    ∃ popped, PoppedFrom l.remotes (discardLoop txHash Size all l slots drop).1.remotes popped ∧
      (discardLoop txHash Size all l slots drop).2.2 = drop ++ popped.filter (live txHash all) ∧
      (discardLoop txHash Size all l slots drop).2.1 =
        slots - ((popped.filter (live txHash all)).map (numSlots Size)).sum ∧
      ((discardLoop txHash Size all l slots drop).2.1 ≤ 0 ∨
        (discardLoop txHash Size all l slots drop).1.remotes = []) ∧
      (discardLoop txHash Size all l slots drop).1.stales =
        l.stales - (popped.filter fun x => !live txHash all x).length := by
  induction l, slots, drop using discardLoop.induct txHash Size all with
  | case1 l slots drop hl tx htx hs ih =>
    -- a stale transaction is popped
    obtain ⟨hfst, -, ho', -⟩ := priceHeap.heapPop ho hl.1
    obtain ⟨popped, hp, hdrop, hslots, hexit, hstales⟩ := ih ho'
    have hx0 : l.remotes[0] = tx := Option.some.inj (hfst.symm.trans htx)
    have hlive : live txHash all tx = false := live_eq_false.2 hs
    rw [discardLoop, dif_pos hl]
    simp only [htx, if_pos hs]
    refine ⟨tx :: popped, hx0 ▸ hp.pop ho hl.1, by simp [hdrop, hlive], by simp [hslots, hlive], hexit, ?_⟩
    rw [hstales]
    simp only [List.filter_cons, hlive, Bool.not_false, if_true, List.length_cons]
    omega
  | case2 l slots drop hl tx htx hs ih =>
    -- a live transaction is popped, dropped and its slots counted
    obtain ⟨hfst, -, ho', -⟩ := priceHeap.heapPop ho hl.1
    obtain ⟨popped, hp, hdrop, hslots, hexit, hstales⟩ := ih ho'
    have hx0 : l.remotes[0] = tx := Option.some.inj (hfst.symm.trans htx)
    have hlive : live txHash all tx = true := live_eq_true.2 hs
    rw [discardLoop, dif_pos hl]
    simp only [htx, if_neg hs]
    refine ⟨tx :: popped, hx0 ▸ hp.pop ho hl.1, by simp [hdrop, hlive], ?_, hexit, ?_⟩
    · rw [hslots]
      simp only [List.filter_cons, hlive, if_true, List.map_cons, List.sum_cons]
      ring
    · rw [hstales]
      simp [hlive]
  | case3 l slots drop hl htx =>
    -- a nonempty heap always pops a transaction
    rw [(priceHeap.heapPop ho hl.1).1] at htx
    exact absurd htx (Option.some_ne_none _)
  | case4 l slots drop hl =>
    rw [discardLoop, dif_neg hl]
    refine ⟨[], PoppedFrom.refl ho, by simp, by simp, ?_, by simp⟩
    show slots ≤ 0 ∨ l.remotes = []
    by_cases h0 : 0 < l.remotes.length
    · exact .inl (by omega)
    · exact .inr (List.eq_nil_of_length_eq_zero (by omega))

end Loops

section Calls

variable {txHash} (all : txLookup) {l : txPricedList}

theorem Put_spec (ho : priceHeap.Ordered l.remotes) (tx : Transaction) (isLocal : Bool) :
    priceHeap.Ordered (l.Put tx isLocal).remotes ∧
      (l.Put tx isLocal).remotes.Perm (if isLocal then l.remotes else l.remotes ++ [tx]) := by
  cases isLocal
  · simp only [Put, Bool.false_eq_true, if_false]
    exact priceHeap.heapPush ho tx
  · simp only [Put, if_true]
    exact ⟨ho, List.Perm.refl _⟩

theorem Reheap_spec (all : txLookup) :
    priceHeap.Ordered (Reheap all).remotes ∧ (Reheap all).remotes.Perm (all.remotes.entries.map (·.2)) ∧
      (Reheap all).stales = 0 :=
  ⟨(priceHeap.heapInit _).1, (priceHeap.heapInit _).2, rfl⟩

/-- `Removed` leaves the heap as it was, or rebuilds it. -/
theorem Removed_spec (ho : priceHeap.Ordered l.remotes) (count : ℤ) :
    priceHeap.Ordered (Removed all l count).remotes ∧
      ((Removed all l count).remotes = l.remotes ∨ Removed all l count = Reheap all) := by
  unfold Removed
  dsimp only
  split_ifs
  · exact ⟨ho, .inl rfl⟩
  · exact ⟨(Reheap_spec all).1, .inr rfl⟩

/-- **`Cap` drops exactly the live transactions below the threshold**, and
leaves a heap with none below it, where every live transaction at or above it
stays. -/
theorem Cap_spec (ho : priceHeap.Ordered l.remotes) (threshold : ℤ) :
    priceHeap.Ordered (l.Cap txHash all threshold).1.remotes ∧
      (l.Cap txHash all threshold).2.Perm
        (l.remotes.filter fun x => live txHash all x && decide ((x.GasPrice : ℤ) < threshold)) ∧
      (∀ y ∈ (l.Cap txHash all threshold).1.remotes, threshold ≤ y.GasPrice) ∧
      ∀ x ∈ l.remotes, live txHash all x = true → threshold ≤ x.GasPrice →
        x ∈ (l.Cap txHash all threshold).1.remotes := by
  obtain ⟨popped, hp, hdrop, hbelow, habove, -⟩ := capLoop_spec all threshold ho []
  have hCap : l.Cap txHash all threshold = capLoop txHash all threshold l [] := rfl
  rw [hCap]
  refine ⟨hp.ordered, ?_, habove, fun x hx hlive hge => ?_⟩
  · -- nothing left is below the threshold, and what was popped live is
    have hrest : (capLoop txHash all threshold l []).1.remotes.filter
        (fun x => live txHash all x && decide ((x.GasPrice : ℤ) < threshold)) = [] :=
      List.filter_eq_nil_iff.mpr fun y hy => by simp [not_lt.mpr (habove y hy)]
    have hpopped : popped.filter (fun x => live txHash all x && decide ((x.GasPrice : ℤ) < threshold)) =
        popped.filter (live txHash all) :=
      List.filter_congr fun x hx => by cases h : live txHash all x <;> simp [h, hbelow x hx]
    rw [hdrop, List.nil_append, ← hpopped]
    refine List.Perm.symm ((hp.perm.filter _).trans ?_)
    rw [List.filter_append, hrest, List.nil_append]
  · rcases hp.mem hx with hrest | hpop
    · exact hrest
    · exact absurd (hbelow x hpop hlive) (not_lt.mpr hge)

theorem Underpriced_fst (tx : Transaction) : (l.Underpriced txHash all tx).1 = underpricedLoop txHash all l := by
  unfold Underpriced
  dsimp only
  split <;> rfl

/-- **`Underpriced` answers whether some transaction of the heap is live and
none costs less than `tx`.** It pops stale transactions only. -/
theorem Underpriced_spec (ho : priceHeap.Ordered l.remotes) (tx : Transaction) :
    priceHeap.Ordered (l.Underpriced txHash all tx).1.remotes ∧
      (∀ x ∈ l.remotes, live txHash all x = true → x ∈ (l.Underpriced txHash all tx).1.remotes) ∧
      ((l.Underpriced txHash all tx).2 = true ↔
        (∃ x ∈ l.remotes, live txHash all x = true) ∧
          ∀ x ∈ l.remotes, live txHash all x = true → tx.GasPrice ≤ x.GasPrice) := by
  obtain ⟨popped, hp, hstale, -, hroot⟩ := underpricedLoop_spec all ho
  -- the live transactions were not popped
  have hkeep : ∀ x ∈ l.remotes, live txHash all x = true → x ∈ (underpricedLoop txHash all l).remotes :=
    fun x hx hlive => (hp.mem hx).resolve_right fun hpop => by simp [hstale x hpop] at hlive
  rw [Underpriced_fst]
  refine ⟨hp.ordered, hkeep, ?_⟩
  unfold Underpriced
  dsimp only
  split_ifs with h0
  · -- no transaction is left, so none was live
    simp only [false_iff, not_and, not_forall]
    rintro ⟨x, hx, hlive⟩
    have := hkeep x hx hlive
    rw [List.length_eq_zero_iff.mp h0] at this
    exact absurd this List.not_mem_nil
  · -- the root is live, and no transaction is cheaper
    have h0' : 0 < (underpricedLoop txHash all l).remotes.length := Nat.pos_of_ne_zero h0
    have hmem : (underpricedLoop txHash all l).remotes[0] ∈ l.remotes :=
      hp.perm.symm.subset (List.mem_append_left _ (List.getElem_mem h0'))
    simp only [ge_iff_le, decide_eq_true_eq]
    constructor
    · intro hle
      refine ⟨⟨_, hmem, hroot h0'⟩, fun x hx hlive => ?_⟩
      exact hle.trans (GasPrice_le_of_not_cheaper (root_least hp.ordered h0' x (hkeep x hx hlive)))
    · rintro ⟨-, hall⟩
      exact hall _ hmem (hroot h0')

/-- **`Discard` drops the cheapest live transactions until they free the slots
asked for.** When they cannot and `force` is off, it drops none, and the heap
keeps exactly the live transactions, which together take fewer slots than
asked. -/
theorem Discard_spec (ho : priceHeap.Ordered l.remotes) (slots : ℤ) (force : Bool) :
    priceHeap.Ordered (l.Discard txHash Size all slots force).1.remotes ∧
      ((l.Discard txHash Size all slots force).2.2 = true →
        (∃ popped, PoppedFrom l.remotes (l.Discard txHash Size all slots force).1.remotes popped ∧
          (l.Discard txHash Size all slots force).2.1 = popped.filter (live txHash all)) ∧
        (force = true ∨ slots ≤ ((l.Discard txHash Size all slots force).2.1.map (numSlots Size)).sum)) ∧
      ((l.Discard txHash Size all slots force).2.2 = false →
        force = false ∧ (l.Discard txHash Size all slots force).2.1 = [] ∧
        (l.Discard txHash Size all slots force).1.remotes.Perm (l.remotes.filter (live txHash all)) ∧
        ((l.remotes.filter (live txHash all)).map (numSlots Size)).sum < slots) := by
  obtain ⟨popped, hp, hdrop, hslots, hexit, -⟩ := discardLoop_spec Size all ho slots []
  rw [List.nil_append] at hdrop
  have hD : l.Discard txHash Size all slots force =
      if (discardLoop txHash Size all l slots []).2.1 > 0 ∧ (!force) = true then
        (⟨(discardLoop txHash Size all l slots []).2.2.foldl (heap.Push priceHeap.heapInterface)
          (discardLoop txHash Size all l slots []).1.remotes, (discardLoop txHash Size all l slots []).1.stales⟩,
          [], false)
      else ((discardLoop txHash Size all l slots []).1, (discardLoop txHash Size all l slots []).2.2, true) := rfl
  rw [hD]
  split_ifs with hfail
  · -- the loop emptied the heap without freeing enough: the live ones go back
    have hempty : (discardLoop txHash Size all l slots []).1.remotes = [] := hexit.resolve_left (by omega)
    have hlive : (l.remotes.filter (live txHash all)).Perm (popped.filter (live txHash all)) := by
      simpa [hempty] using hp.perm.filter (live txHash all)
    obtain ⟨ho', hperm⟩ := priceHeap.foldl_heapPush hp.ordered (discardLoop txHash Size all l slots []).2.2
    refine ⟨ho', by simp, fun _ => ⟨by simpa using hfail.2, rfl, hperm.trans ?_, ?_⟩⟩
    · rw [hempty, List.nil_append, hdrop]
      exact hlive.symm
    · rw [(hlive.map (numSlots Size)).sum_eq]
      omega
  · -- enough slots were freed, or the call was forced
    refine ⟨hp.ordered, fun _ => ⟨⟨popped, hp, hdrop⟩, ?_⟩, by simp⟩
    show force = true ∨ slots ≤ ((discardLoop txHash Size all l slots []).2.2.map (numSlots Size)).sum
    rw [hdrop]
    cases force
    · exact .inr (by simp only [Bool.not_false, and_true, gt_iff_lt, not_lt] at hfail; omega)
    · exact .inl rfl

end Calls

/-! ### Runs of calls -/

/-- The calls on a `txPricedList`, each with the lookup as it is when it is
made: the pool changes it between calls. -/
inductive Op where
  | Put (tx : Transaction) (isLocal : Bool)
  | Removed (all : txLookup) (count : ℤ)
  | Cap (all : txLookup) (threshold : ℤ)
  | Underpriced (all : txLookup) (tx : Transaction)
  | Discard (all : txLookup) (slots : ℤ) (force : Bool)
  | Reheap (all : txLookup)

/-- The list one call leaves. -/
def step (l : txPricedList) : Op → txPricedList
  | .Put tx isLocal => l.Put tx isLocal
  | .Removed all count => Removed all l count
  | .Cap all threshold => (l.Cap txHash all threshold).1
  | .Underpriced all tx => (l.Underpriced txHash all tx).1
  | .Discard all slots force => (l.Discard txHash Size all slots force).1
  | .Reheap all => Reheap all

/-- The list a run of calls leaves. -/
def run (l : txPricedList) (ops : List Op) : txPricedList := ops.foldl (step txHash Size) l

theorem Ordered_newTxPricedList : priceHeap.Ordered newTxPricedList.remotes :=
  fun _ _ hk _ => absurd hk (Nat.not_lt_zero _)

/-- **Every call keeps the heap order**, whatever the lookup holds. -/
theorem Ordered_step {l : txPricedList} (ho : priceHeap.Ordered l.remotes) (op : Op) :
    priceHeap.Ordered (step txHash Size l op).remotes := by
  cases op with
  | Put tx isLocal => exact (Put_spec ho tx isLocal).1
  | Removed all count => exact (Removed_spec all ho count).1
  | Cap all threshold => exact (Cap_spec all ho threshold).1
  | Underpriced all tx => exact (Underpriced_spec all ho tx).1
  | Discard all slots force => exact (Discard_spec Size all ho slots force).1
  | Reheap all => exact (Reheap_spec all).1

theorem Ordered_run {l : txPricedList} (ho : priceHeap.Ordered l.remotes) (ops : List Op) :
    priceHeap.Ordered (run txHash Size l ops).remotes := by
  induction ops generalizing l with
  | nil => exact ho
  | cons op ops ih => exact ih (Ordered_step txHash Size ho op)

end txPricedList

end core

end PureChain
