import PureChain.Core.TxPricedList

/-!
# The pool's lookup and its priced list

`TxPool` keeps every transaction in `all`, a `txLookup`, and also keeps the
remote ones in `priced`, a `txPricedList`. The pool changes the two together:
* `add` and `enqueueTx` put a transaction in both;
* `removeTx` takes a transaction out of `all`, and counts it stale in `priced`
  when it was out of bound;
* the reorganisation loops take transactions out of `all` and then count them
  stale all at once;
* `SetGasPrice` and the eviction of `add` take transactions from `priced`
  first, and then out of `all`.

`Inv` says that the heap is ordered and tracks every remote transaction of the
lookup. Every one of these calls keeps it, in any order (`Inv_run`). On it,
the answers of the priced list speak for the whole pool:
* `Underpriced` refuses a transaction only when no remote transaction of the
  pool costs less (`Underpriced_sound`);
* after `SetGasPrice`, no remote transaction below the price is left
  (`SetGasPrice_spec`);
* to let a transaction into a full pool, `add` evicts live remote
  transactions. They are no more expensive than any remote transaction left,
  and, for a remote transaction, they free the slots it needs
  (`makeRoom_spec`).

The rest of `TxPool` (the pending and queued lists, the accounts, the journal,
the events) is not modelled here. Hashes may collide, so these results speak
of the transactions under a hash and of no transaction beside them.
-/

namespace PureChain

namespace core

/-- The lookup of all transactions and the heap of the remote ones, as
`TxPool` holds them. -/
structure TxPool where
  all : txLookup
  priced : txPricedList

/-- The lookup and the priced list `NewTxPool` makes. -/
def NewTxPool : TxPool := ⟨newTxLookup, newTxPricedList⟩

namespace TxPool

variable (txHash : Transaction → PureChain.Hash) (Size : Transaction → ℕ)

/-- `removeTx`, on the lookup and the priced list: the transaction taken out of
the lookup and, when it was out of bound, counted stale. -/
def removeTx (pool : TxPool) (hash : PureChain.Hash) (outofbound : Bool) : TxPool :=
  match pool.all.Get hash with
  | none => pool
  | some _ =>
    let all := pool.all.Remove Size hash
    ⟨all, if outofbound then txPricedList.Removed all pool.priced 1 else pool.priced⟩

/-- The loop `for _, tx := range drop { pool.removeTx(tx.Hash(), false) }`. -/
def removeAll (pool : TxPool) (txs : List Transaction) : TxPool :=
  txs.foldl (fun pool tx => removeTx Size pool (txHash tx) false) pool

/-- `SetGasPrice`: the remote transactions below the price taken out. -/
def SetGasPrice (pool : TxPool) (price : ℤ) : TxPool :=
  let capped := pool.priced.Cap txHash pool.all price
  removeAll txHash Size ⟨pool.all, capped.1⟩ capped.2

/-- The eviction at the start of `add` when the pool is full: an underpriced
remote transaction is refused; otherwise the cheapest remote transactions are
discarded to make room, and a remote transaction is refused when they cannot
be. Returns whether `tx` may go on. -/
def makeRoom (pool : TxPool) (tx : Transaction) (isLocal : Bool) (capacity : ℕ) : TxPool × Bool :=
  -- `uint64(pool.all.Count()+numSlots(tx)) > pool.config.GlobalSlots+pool.config.GlobalQueue`
  if (pool.all.Count : ℤ) + numSlots Size tx > capacity then
    -- `!isLocal && pool.priced.Underpriced(tx)`: only a remote transaction is checked
    let checked := if isLocal then (pool.priced, false) else pool.priced.Underpriced txHash pool.all tx
    if checked.2 then (⟨pool.all, checked.1⟩, false)
    else
      let discarded := checked.1.Discard txHash Size pool.all (pool.all.Slots - capacity + numSlots Size tx) isLocal
      if !isLocal && !discarded.2.2 then (⟨pool.all, discarded.1⟩, false)
      else (removeAll txHash Size ⟨pool.all, discarded.1⟩ discarded.2.1, true)
  else (pool, true)

/-- The changes the pool makes to its lookup and its priced list. -/
inductive Op where
  /-- `pool.all.Add(tx, isLocal); pool.priced.Put(tx, isLocal)` -/
  | add (tx : Transaction) (isLocal : Bool)
  /-- `pool.all.Remove(hash)` -/
  | allRemove (hash : PureChain.Hash)
  /-- `pool.priced.Removed(count)` -/
  | removed (count : ℤ)
  | removeTx (hash : PureChain.Hash) (outofbound : Bool)
  | SetGasPrice (price : ℤ)
  | makeRoom (tx : Transaction) (isLocal : Bool) (capacity : ℕ)
  /-- `pool.priced.Removed(pool.all.RemoteToLocals(pool.locals))` -/
  | migrate (containsTx : Transaction → Bool)

/-- The pool one change leaves. -/
def step (pool : TxPool) : Op → TxPool
  | .add tx isLocal => ⟨pool.all.Add txHash Size tx isLocal, pool.priced.Put tx isLocal⟩
  | .allRemove hash => ⟨pool.all.Remove Size hash, pool.priced⟩
  | .removed count => ⟨pool.all, txPricedList.Removed pool.all pool.priced count⟩
  | .removeTx hash outofbound => removeTx Size pool hash outofbound
  | .SetGasPrice price => SetGasPrice txHash Size pool price
  | .makeRoom tx isLocal capacity => (makeRoom txHash Size pool tx isLocal capacity).1
  | .migrate containsTx =>
    let moved := pool.all.RemoteToLocals containsTx
    ⟨moved.1, txPricedList.Removed moved.1 pool.priced moved.2⟩

/-- The pool a run of changes leaves. -/
def run (pool : TxPool) (ops : List Op) : TxPool := ops.foldl (step txHash Size) pool

/-! ### The invariant -/

/-- **The invariant of the pool's two views**: the heap is ordered, the lookup
keeps each remote transaction under its own hash, and the heap holds every one
of them. -/
structure Inv (pool : TxPool) : Prop where
  ordered : priceHeap.Ordered pool.priced.remotes
  keyed : ∀ h tx, pool.all.remotes.lookup h = some tx → txHash tx = h
  tracked : ∀ h tx, pool.all.remotes.lookup h = some tx → tx ∈ pool.priced.remotes

theorem Inv_NewTxPool : Inv txHash NewTxPool where
  ordered := txPricedList.Ordered_newTxPricedList
  keyed _ _ h := by simp [NewTxPool, newTxLookup] at h
  tracked _ _ h := by simp [NewTxPool, newTxLookup] at h

section Invariant

variable {txHash} {Size} {pool : TxPool}

/-- A remote transaction of the lookup is live. -/
theorem Inv.live (hi : Inv txHash pool) {h : PureChain.Hash} {tx : Transaction}
    (hl : pool.all.remotes.lookup h = some tx) : txPricedList.live txHash pool.all tx = true := by
  rw [txPricedList.live, txLookup.GetRemote, hi.keyed h tx hl, hl]
  rfl

/-- `Removed` keeps in the heap every transaction that the lookup holds. -/
theorem mem_Removed {all : txLookup} {l : txPricedList} (ho : priceHeap.Ordered l.remotes) (count : ℤ)
    {h : PureChain.Hash} {tx : Transaction} (hmem : tx ∈ l.remotes) (hl : all.remotes.lookup h = some tx) :
    tx ∈ (txPricedList.Removed all l count).remotes := by
  rcases (txPricedList.Removed_spec all ho count).2 with heq | heq
  · rw [heq]
    exact hmem
  · -- the heap is rebuilt from the lookup
    rw [heq]
    exact (txPricedList.Reheap_spec all).2.1.symm.subset
      (List.mem_map.mpr ⟨⟨h, tx⟩, AList.mem_lookup_iff.mp hl, rfl⟩)

/-- A lookup that holds fewer remote transactions, and a heap that `Removed`
left, keep the invariant. -/
theorem Inv.Removed_of_sub (hi : Inv txHash pool) {all : txLookup} (count : ℤ)
    (hsub : ∀ h tx, all.remotes.lookup h = some tx → pool.all.remotes.lookup h = some tx) :
    Inv txHash ⟨all, txPricedList.Removed all pool.priced count⟩ where
  ordered := (txPricedList.Removed_spec all hi.ordered count).1
  keyed h tx hl := hi.keyed h tx (hsub h tx hl)
  tracked h tx hl := mem_Removed hi.ordered count (hi.tracked h tx (hsub h tx hl)) hl

theorem Inv_add (hi : Inv txHash pool) (tx : Transaction) (isLocal : Bool) :
    Inv txHash ⟨pool.all.Add txHash Size tx isLocal, pool.priced.Put tx isLocal⟩ := by
  obtain ⟨ho, hperm⟩ := txPricedList.Put_spec hi.ordered tx isLocal
  refine ⟨ho, fun h y hl => ?_, fun h y hl => ?_⟩ <;> dsimp only at hl ⊢ <;>
    rw [txLookup.remotes_Add] at hl <;> cases isLocal
  case refine_1.false =>
    -- a remote transaction goes under its hash
    by_cases hh : h = txHash tx
    · subst hh
      simp only [Bool.false_eq_true, if_false, AList.lookup_insert, Option.some.injEq] at hl
      rw [hl]
    · simp only [Bool.false_eq_true, if_false, AList.lookup_insert_ne hh] at hl
      exact hi.keyed h y hl
  case refine_1.true =>
    simp only [if_true] at hl
    exact hi.keyed h y hl
  case refine_2.false =>
    -- and is pushed on the heap
    simp only [Bool.false_eq_true, if_false] at hperm
    refine hperm.symm.subset ?_
    by_cases hh : h = txHash tx
    · subst hh
      simp only [Bool.false_eq_true, if_false, AList.lookup_insert, Option.some.injEq] at hl
      simp [hl]
    · simp only [Bool.false_eq_true, if_false, AList.lookup_insert_ne hh] at hl
      exact List.mem_append_left _ (hi.tracked h y hl)
  case refine_2.true =>
    simp only [if_true] at hl hperm
    exact hperm.symm.subset (hi.tracked h y hl)

theorem Inv_allRemove (hi : Inv txHash pool) (hash : PureChain.Hash) :
    Inv txHash ⟨pool.all.Remove Size hash, pool.priced⟩ where
  ordered := hi.ordered
  keyed h tx hl := hi.keyed h tx (txLookup.lookup_of_lookup_Remove Size hl)
  tracked h tx hl := hi.tracked h tx (txLookup.lookup_of_lookup_Remove Size hl)

/-! ### `removeTx` and its loop -/

theorem lookup_of_lookup_removeTx {hash h : PureChain.Hash} {outofbound : Bool} {tx : Transaction}
    (hr : (removeTx Size pool hash outofbound).all.remotes.lookup h = some tx) :
    pool.all.remotes.lookup h = some tx := by
  unfold removeTx at hr
  split at hr
  · exact hr
  · exact txLookup.lookup_of_lookup_Remove Size hr

theorem lookup_removeTx_self (pool : TxPool) (hash : PureChain.Hash) (outofbound : Bool) :
    (removeTx Size pool hash outofbound).all.remotes.lookup hash = none := by
  unfold removeTx
  split
  case h_1 hget =>
    -- the lookup holds nothing under the hash
    cases hl : pool.all.locals.lookup hash <;> simp_all [txLookup.Get]
  case h_2 => exact txLookup.lookup_Remove_self Size _ hash

theorem priced_removeTx (pool : TxPool) (hash : PureChain.Hash) :
    (removeTx Size pool hash false).priced = pool.priced := by
  unfold removeTx
  split <;> rfl

theorem Inv_removeTx (hi : Inv txHash pool) (hash : PureChain.Hash) (outofbound : Bool) :
    Inv txHash (removeTx Size pool hash outofbound) := by
  unfold removeTx
  split
  · exact hi
  · cases outofbound
    · exact Inv_allRemove hi hash
    · exact hi.Removed_of_sub 1 fun _ _ hl => txLookup.lookup_of_lookup_Remove Size hl

theorem priced_removeAll (pool : TxPool) (txs : List Transaction) :
    (removeAll txHash Size pool txs).priced = pool.priced := by
  induction txs generalizing pool with
  | nil => rfl
  | cons tx txs ih => exact (ih _).trans (priced_removeTx pool (txHash tx))

theorem lookup_of_lookup_removeAll {txs : List Transaction} {h : PureChain.Hash} {tx : Transaction}
    (hr : (removeAll txHash Size pool txs).all.remotes.lookup h = some tx) :
    pool.all.remotes.lookup h = some tx := by
  induction txs generalizing pool with
  | nil => exact hr
  | cons x xs ih => exact lookup_of_lookup_removeTx (ih hr)

/-- The loop leaves nothing under the hash of a transaction it removed. -/
theorem lookup_removeAll_of_mem {txs : List Transaction} {d : Transaction} (hd : d ∈ txs) :
    (removeAll txHash Size pool txs).all.remotes.lookup (txHash d) = none := by
  induction txs generalizing pool with
  | nil => exact absurd hd List.not_mem_nil
  | cons x xs ih =>
    rcases List.mem_cons.mp hd with rfl | hd
    · -- removed first, and nothing removed later brings it back
      cases hl : (removeAll txHash Size pool (d :: xs)).all.remotes.lookup (txHash d) with
      | none => rfl
      | some y =>
        have : (removeTx Size pool (txHash d) false).all.remotes.lookup (txHash d) = some y :=
          lookup_of_lookup_removeAll hl
        rw [lookup_removeTx_self] at this
        cases this
    · exact ih hd

/-- Removing the transactions that the heap no longer holds restores the
invariant. -/
theorem Inv_removeAll {txs : List Transaction} (ho : priceHeap.Ordered pool.priced.remotes)
    (hkeyed : ∀ h tx, pool.all.remotes.lookup h = some tx → txHash tx = h)
    (htr : ∀ h tx, pool.all.remotes.lookup h = some tx → tx ∈ pool.priced.remotes ∨ ∃ d ∈ txs, txHash d = h) :
    Inv txHash (removeAll txHash Size pool txs) where
  ordered := by
    rw [priced_removeAll]
    exact ho
  keyed h tx hl := hkeyed h tx (lookup_of_lookup_removeAll hl)
  tracked h tx hl := by
    rw [priced_removeAll]
    rcases htr h tx (lookup_of_lookup_removeAll hl) with hmem | ⟨d, hd, rfl⟩
    · exact hmem
    · rw [lookup_removeAll_of_mem hd] at hl
      cases hl

/-! ### The calls on the priced list -/

theorem Inv_SetGasPrice (hi : Inv txHash pool) (price : ℤ) : Inv txHash (SetGasPrice txHash Size pool price) := by
  obtain ⟨ho, hdrop, -, hkeep⟩ := txPricedList.Cap_spec pool.all hi.ordered price
  refine Inv_removeAll ho hi.keyed fun h tx hl => ?_
  by_cases hge : price ≤ tx.GasPrice
  · exact .inl (hkeep tx (hi.tracked h tx hl) (hi.live hl) hge)
  · -- below the price, `Cap` dropped it
    refine .inr ⟨tx, hdrop.symm.subset (List.mem_filter.mpr ⟨hi.tracked h tx hl, ?_⟩), hi.keyed h tx hl⟩
    simp [hi.live hl, lt_of_not_ge hge]

/-- **After `SetGasPrice`, no remote transaction below the price is left.** -/
theorem SetGasPrice_spec (hi : Inv txHash pool) (price : ℤ) (h : PureChain.Hash) (tx : Transaction)
    (hl : (SetGasPrice txHash Size pool price).all.remotes.lookup h = some tx) : price ≤ tx.GasPrice := by
  obtain ⟨-, -, habove, -⟩ := txPricedList.Cap_spec pool.all hi.ordered price
  -- what the lookup still holds, the heap that `Cap` left tracks
  have hmem := (Inv_SetGasPrice hi price).tracked h tx hl
  rw [SetGasPrice, priced_removeAll] at hmem
  exact habove tx hmem

theorem Inv_Underpriced (hi : Inv txHash pool) (tx : Transaction) :
    Inv txHash ⟨pool.all, (pool.priced.Underpriced txHash pool.all tx).1⟩ := by
  obtain ⟨ho, hkeep, -⟩ := txPricedList.Underpriced_spec pool.all hi.ordered tx
  exact ⟨ho, hi.keyed, fun h y hl => hkeep y (hi.tracked h y hl) (hi.live hl)⟩

/-- **`Underpriced` refuses a transaction only when no remote transaction of
the pool costs less**, and some remote transaction is there. -/
theorem Underpriced_sound (hi : Inv txHash pool) (tx : Transaction)
    (hu : (pool.priced.Underpriced txHash pool.all tx).2 = true) :
    (∃ h y, pool.all.remotes.lookup h = some y) ∧
      ∀ h y, pool.all.remotes.lookup h = some y → tx.GasPrice ≤ y.GasPrice := by
  obtain ⟨⟨x, -, hx⟩, hall⟩ := (txPricedList.Underpriced_spec pool.all hi.ordered tx).2.2.mp hu
  refine ⟨?_, fun h y hl => hall y (hi.tracked h y hl) (hi.live hl)⟩
  -- a live transaction is one the lookup holds something under the hash of
  obtain ⟨y, hy⟩ := Option.isSome_iff_exists.mp hx
  exact ⟨txHash x, y, hy⟩

/-- A `Discard` that succeeds: what is left of the lookup once the dropped
transactions are removed keeps the invariant. -/
theorem Inv_Discard_of_success {l : txPricedList} {slots : ℤ} {force : Bool}
    (hi : Inv txHash ⟨pool.all, l⟩) (hs : (l.Discard txHash Size pool.all slots force).2.2 = true) :
    Inv txHash (removeAll txHash Size ⟨pool.all, (l.Discard txHash Size pool.all slots force).1⟩
      (l.Discard txHash Size pool.all slots force).2.1) := by
  obtain ⟨ho, hsuccess, -⟩ := txPricedList.Discard_spec Size pool.all hi.ordered slots force
  obtain ⟨⟨popped, hp, hdrop⟩, -⟩ := hsuccess hs
  refine Inv_removeAll ho hi.keyed fun h y hl => ?_
  rcases hp.mem (hi.tracked h y hl) with hrest | hpop
  · exact .inl hrest
  · -- a live transaction popped was dropped
    refine .inr ⟨y, ?_, hi.keyed h y hl⟩
    rw [hdrop]
    exact List.mem_filter.mpr ⟨hpop, hi.live hl⟩

/-- A `Discard` that fails keeps the invariant: the heap holds the live
transactions. -/
theorem Inv_Discard_of_failure {l : txPricedList} {slots : ℤ} {force : Bool}
    (hi : Inv txHash ⟨pool.all, l⟩) (hs : (l.Discard txHash Size pool.all slots force).2.2 = false) :
    Inv txHash ⟨pool.all, (l.Discard txHash Size pool.all slots force).1⟩ := by
  obtain ⟨ho, -, hfailure⟩ := txPricedList.Discard_spec Size pool.all hi.ordered slots force
  obtain ⟨-, -, hperm, -⟩ := hfailure hs
  exact ⟨ho, hi.keyed, fun h y hl => hperm.symm.subset (List.mem_filter.mpr ⟨hi.tracked h y hl, hi.live hl⟩)⟩

/-- A `Discard` that `makeRoom` accepts succeeded: a failed one was not forced,
so its transaction was remote. -/
theorem Discard_success_of_accepted {l : txPricedList} {slots : ℤ} {isLocal : Bool}
    (ho : priceHeap.Ordered l.remotes)
    (hacc : ¬ (!isLocal && !(l.Discard txHash Size pool.all slots isLocal).2.2) = true) :
    (l.Discard txHash Size pool.all slots isLocal).2.2 = true := by
  cases hs : (l.Discard txHash Size pool.all slots isLocal).2.2
  · obtain ⟨rfl, -⟩ := (txPricedList.Discard_spec Size pool.all ho slots isLocal).2.2 hs
    simp [hs] at hacc
  · rfl

/-- The check of `makeRoom` keeps the invariant. -/
theorem Inv_checked (hi : Inv txHash pool) (tx : Transaction) (isLocal : Bool) :
    Inv txHash ⟨pool.all,
      (if isLocal then (pool.priced, false) else pool.priced.Underpriced txHash pool.all tx).1⟩ := by
  cases isLocal
  · exact Inv_Underpriced hi tx
  · exact hi

theorem Inv_makeRoom (hi : Inv txHash pool) (tx : Transaction) (isLocal : Bool) (capacity : ℕ) :
    Inv txHash (makeRoom txHash Size pool tx isLocal capacity).1 := by
  have hc := Inv_checked hi tx isLocal
  unfold makeRoom
  dsimp only
  generalize (if isLocal then (pool.priced, false) else pool.priced.Underpriced txHash pool.all tx) = checked at hc ⊢
  split_ifs with hfull hunder hfail
  · exact hc
  · -- a remote transaction for which no room was made
    simp only [Bool.and_eq_true, Bool.not_eq_eq_eq_not, Bool.not_true] at hfail
    exact Inv_Discard_of_failure hc hfail.2
  · -- room was made
    exact Inv_Discard_of_success hc (Discard_success_of_accepted hc.ordered hfail)
  · exact hi

/-- **Making room in a full pool.** To let `tx` go on, `makeRoom` evicts live
remote transactions: it takes them out of the lookup, none costs more than a
remote transaction left, and for a remote `tx` they free the slots it needs. -/
theorem makeRoom_spec (hi : Inv txHash pool) (tx : Transaction) (isLocal : Bool) (capacity : ℕ)
    (hfull : (pool.all.Count : ℤ) + numSlots Size tx > capacity)
    (hok : (makeRoom txHash Size pool tx isLocal capacity).2 = true) :
    ∃ drop : List Transaction,
      (∀ d ∈ drop, txPricedList.live txHash pool.all d = true) ∧
      (∀ d ∈ drop, (makeRoom txHash Size pool tx isLocal capacity).1.all.remotes.lookup (txHash d) = none) ∧
      (∀ d ∈ drop, ∀ h y, (makeRoom txHash Size pool tx isLocal capacity).1.all.remotes.lookup h = some y →
        ¬ cheaper y d) ∧
      (isLocal = true ∨ pool.all.Slots - capacity + numSlots Size tx ≤ (drop.map (numSlots Size)).sum) := by
  have hc := Inv_checked hi tx isLocal
  unfold makeRoom at hok ⊢
  dsimp only at hok ⊢
  generalize (if isLocal then (pool.priced, false) else pool.priced.Underpriced txHash pool.all tx) = checked
    at hc hok ⊢
  rw [if_pos hfull] at hok ⊢
  split_ifs at hok ⊢ with hunder hfail
  · -- the discard that was accepted succeeded
    have hs := Discard_success_of_accepted hc.ordered hfail
    obtain ⟨-, hsuccess, -⟩ := txPricedList.Discard_spec Size pool.all hc.ordered
      (pool.all.Slots - capacity + numSlots Size tx) isLocal
    obtain ⟨⟨popped, hp, hdrop⟩, hslots⟩ := hsuccess hs
    have hinv := Inv_Discard_of_success hc hs
    refine ⟨_, fun d hd => ?_, fun d hd => lookup_removeAll_of_mem hd, fun d hd h y hl => ?_, hslots⟩
    · rw [hdrop] at hd
      exact (List.mem_filter.mp hd).2
    · -- what is left is in the heap `Discard` left, and no cheaper than what it popped
      have hy := hinv.tracked h y hl
      rw [priced_removeAll] at hy
      rw [hdrop] at hd
      exact hp.least d (List.mem_filter.mp hd).1 y hy

/-- **Every change keeps the invariant.** -/
theorem Inv_step (hi : Inv txHash pool) (op : Op) : Inv txHash (step txHash Size pool op) := by
  cases op with
  | add tx isLocal => exact Inv_add hi tx isLocal
  | allRemove hash => exact Inv_allRemove hi hash
  | removed count => exact hi.Removed_of_sub count fun _ _ hl => hl
  | removeTx hash outofbound => exact Inv_removeTx hi hash outofbound
  | SetGasPrice price => exact Inv_SetGasPrice hi price
  | makeRoom tx isLocal capacity => exact Inv_makeRoom hi tx isLocal capacity
  | migrate containsTx =>
    exact hi.Removed_of_sub _ fun _ _ hl => txLookup.lookup_of_lookup_RemoteToLocals hl

theorem Inv_run (hi : Inv txHash pool) (ops : List Op) : Inv txHash (run txHash Size pool ops) := by
  induction ops generalizing pool with
  | nil => exact hi
  | cons op ops ih => exact ih (Inv_step hi op)

end Invariant

/-- **The priced list speaks for every pool a run reaches**: `Underpriced`
refuses a transaction only when no remote transaction of the pool costs less,
and `SetGasPrice` leaves no remote transaction below its price. -/
theorem run_priced_sound (ops : List Op) (tx : Transaction) (price : ℤ) :
    let pool := run txHash Size NewTxPool ops
    ((pool.priced.Underpriced txHash pool.all tx).2 = true →
        ∀ h y, pool.all.remotes.lookup h = some y → tx.GasPrice ≤ y.GasPrice) ∧
      ∀ h y, (SetGasPrice txHash Size pool price).all.remotes.lookup h = some y → price ≤ y.GasPrice := by
  intro pool
  have hi : Inv txHash pool := Inv_run (Inv_NewTxPool txHash) ops
  exact ⟨fun hu => (Underpriced_sound hi tx hu).2, SetGasPrice_spec hi price⟩

end TxPool

end core

end PureChain
