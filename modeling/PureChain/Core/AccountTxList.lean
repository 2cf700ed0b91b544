import PureChain.Core.TxList
import PureChain.Core.Types.Transaction

/-!
# `txList`: the transactions of one account

`txList` wraps a `txSortedMap` of an account's transactions, keyed by nonce,
with two caps: the highest cost and the highest gas of the transactions it
took. `Filter` compares the caps with the account's balance and the block's gas
limit before it looks at any transaction. A `strict` list holds executable
transactions: its `Filter` and `Remove` also take out every transaction above
one they remove, so that no gap is left behind.

`Inv` adds to the invariant of the map that the caps bound every transaction
the list holds. Every call keeps it (`Inv_step`), so `Filter` may stop early:
when the caps are within the limits, no transaction is over them
(`Filter_short_circuit_sound`). The two strict calls leave no transaction above
the one they remove (`Remove_strict`, `Filter_strict`), and `Add` replaces a
transaction only with one that pays the price bump (`Add_spec`).
Together they keep the nonces of a strict list an interval over any run of
calls whose `Add`s bring a nonce next to those held (`run_gapless`).

The caps are `big.Int`s, integers here. The bump `100 + int64(priceBump)` is
computed on `int64`, and wraps as it does in Go: from `priceBump = 2 ^ 63 - 100`
on, any higher price replaces (`Add_of_wrapped_bump`).
-/

namespace PureChain

namespace core

/-- `tx.Nonce()`, the key of the account's map. -/
def txNonce (tx : Transaction) : ℕ := tx.Nonce.toNat

/-- `txList`: whether nonces have no gap, the sorted map, and the caps on the
cost and the gas of the transactions it took. -/
structure txList where
  strict : Bool
  txs : txSortedMap Transaction
  costcap : ℤ
  gascap : UInt64

namespace txList

/-- `Overlaps`: whether the list holds a transaction of the same nonce. -/
def Overlaps (l : txList) (tx : Transaction) : Bool := (l.txs.Get (txNonce tx)).isSome

/-- The check of `Add` on a transaction of a nonce the list holds: whether it
fails to pay more than the old one, or `priceBump` percent more. -/
def replaceUnderpriced (l : txList) (tx : Transaction) (priceBump : UInt64) : Bool :=
  match l.txs.Get (txNonce tx) with
  | some old =>
    -- threshold = oldGP * (100 + priceBump) / 100
    let threshold : ℤ := (100 + priceBump.toInt64).toInt * old.GasPrice / 100
    decide (old.GasPrice ≥ tx.GasPrice) || decide ((tx.GasPrice : ℤ) < threshold)
  | none => false

/-- `Add`: an underpriced replacement is turned away; otherwise the transaction
is put in the map and raises the caps. Returns whether it was accepted and the
transaction it replaced. -/
def Add (l : txList) (tx : Transaction) (priceBump : UInt64) : txList × Bool × Option Transaction :=
  if l.replaceUnderpriced tx priceBump then (l, false, none)
  else
    let costcap := if l.costcap < tx.Cost then (tx.Cost : ℤ) else l.costcap
    let gascap := if l.gascap < tx.Gas then tx.Gas else l.gascap
    (⟨l.strict, l.txs.Put txNonce tx, costcap, gascap⟩, true, l.txs.Get (txNonce tx))

/-- `Forward`. -/
def Forward (l : txList) (threshold : ℕ) : txList × List (Option Transaction) :=
  let (txs, removed) := l.txs.Forward threshold
  (⟨l.strict, txs, l.costcap, l.gascap⟩, removed)

/-- What `Filter` takes out: a transaction over the gas limit or costing more
than the balance. -/
def overLimits (costLimit : ℤ) (gasLimit : UInt64) (tx : Transaction) : Bool :=
  decide (tx.Gas > gasLimit) || decide ((tx.Cost : ℤ) > costLimit)

/-- The least nonce of a list of transactions, from `math.MaxUint64` down. -/
def lowestNonce (txs : List Transaction) : ℕ :=
  txs.foldl (fun lowest tx => if lowest > txNonce tx then txNonce tx else lowest) (2 ^ 64 - 1)

/-- `Filter`: nothing when the caps are within the limits; otherwise the caps
lowered to the limits, the transactions over them taken out and, in a strict
list, every transaction above the lowest of those too, and the heap rebuilt.
Returns what was over the limits, and what the strict list invalidated. -/
def Filter (l : txList) (costLimit : ℤ) (gasLimit : UInt64) :
    txList × List Transaction × List Transaction :=
  if l.costcap ≤ costLimit ∧ l.gascap ≤ gasLimit then (l, [], [])
  else
    let (txs, removed) := l.txs.Filter (overLimits costLimit gasLimit)
    if removed.length = 0 then (⟨l.strict, txs, costLimit, gasLimit⟩, [], [])
    else
      let (txs, invalids) :=
        if l.strict then txs.filter fun tx => decide (txNonce tx > lowestNonce removed)
        else (txs, [])
      (⟨l.strict, txs.reheap, costLimit, gasLimit⟩, removed, invalids)

/-- `Cap`. -/
def Cap (l : txList) (threshold : ℕ) : txList × List (Option Transaction) :=
  let (txs, drops) := l.txs.Cap threshold
  (⟨l.strict, txs, l.costcap, l.gascap⟩, drops)

/-- `Remove`: whether the list held the transaction's nonce; in a strict list
every transaction above it is taken out too, and returned. -/
def Remove (l : txList) (tx : Transaction) : txList × Bool × List Transaction :=
  let nonce := txNonce tx
  let (txs, removed) := l.txs.Remove nonce
  if ¬ removed then (⟨l.strict, txs, l.costcap, l.gascap⟩, false, [])
  else if l.strict then
    let (txs, invalids) := txs.Filter fun tx => decide (txNonce tx > nonce)
    (⟨l.strict, txs, l.costcap, l.gascap⟩, true, invalids)
  else (⟨l.strict, txs, l.costcap, l.gascap⟩, true, [])

/-- `Ready`. -/
def Ready (l : txList) (start : ℕ) : txList × List (Option Transaction) :=
  let (txs, ready) := l.txs.Ready start
  (⟨l.strict, txs, l.costcap, l.gascap⟩, ready)

/-- `Len`. -/
def Len (l : txList) : ℕ := l.txs.items.entries.length

/-- `Empty`. -/
def Empty (l : txList) : Bool := l.Len == 0

/-- `Flatten`. -/
def Flatten (l : txList) : txList × List Transaction :=
  let (txs, c) := l.txs.Flatten txNonce
  (⟨l.strict, txs, l.costcap, l.gascap⟩, c)

/-- `LastElement`. -/
def LastElement (l : txList) : txList × Option Transaction :=
  let (txs, last) := l.txs.LastElement txNonce
  (⟨l.strict, txs, l.costcap, l.gascap⟩, last)

/-! ### The invariant -/

/-- The caps bound the cost and the gas of every transaction the list holds. -/
def Capped (l : txList) : Prop :=
  ∀ k tx, l.txs.items.lookup k = some tx → (tx.Cost : ℤ) ≤ l.costcap ∧ tx.Gas ≤ l.gascap

/-- **The invariant of `txList`**: its map keeps the invariant of
`txSortedMap`, and the caps bound its transactions. -/
structure Inv (l : txList) : Prop where
  txs : txSortedMap.Inv txNonce l.txs
  capped : Capped l

/-- A list that holds only transactions of a capped list, under caps at least
as high, is capped. -/
theorem Capped.mono {l l' : txList} (hl : Capped l)
    (hsub : ∀ k tx, l'.txs.items.lookup k = some tx → l.txs.items.lookup k = some tx)
    (hcost : l.costcap ≤ l'.costcap) (hgas : l.gascap ≤ l'.gascap) : Capped l' := fun k tx hk => by
  obtain ⟨h1, h2⟩ := hl k tx (hsub k tx hk)
  exact ⟨h1.trans hcost, UInt64.le_trans h2 hgas⟩

theorem Capped.restrict {l l' : txList} {p : ℕ → Prop} [DecidablePred p] (hl : Capped l)
    (hres : txSortedMap.Restricts l'.txs.items l.txs.items p) (hcost : l'.costcap = l.costcap)
    (hgas : l'.gascap = l.gascap) : Capped l' :=
  hl.mono (fun _ _ hk => hres.lookup_eq_some hk) hcost.ge (hgas ▸ UInt64.le_refl _)

section Calls

variable {l : txList}

theorem Add_of_underpriced {tx : Transaction} {priceBump : UInt64}
    (h : l.replaceUnderpriced tx priceBump = true) : l.Add tx priceBump = (l, false, none) := by
  rw [Add, if_pos h]

theorem Add_of_not_underpriced {tx : Transaction} {priceBump : UInt64}
    (h : l.replaceUnderpriced tx priceBump = false) :
    l.Add tx priceBump =
      (⟨l.strict, l.txs.Put txNonce tx, if l.costcap < tx.Cost then (tx.Cost : ℤ) else l.costcap,
        if l.gascap < tx.Gas then tx.Gas else l.gascap⟩, true, l.txs.Get (txNonce tx)) := by
  rw [Add, if_neg (by simp [h])]

/-- Raising a cap to a value bounds both. -/
theorem le_raise {a b : ℤ} : a ≤ (if a < b then b else a) ∧ b ≤ (if a < b then b else a) := by
  split_ifs <;> omega

theorem le_raise_gas {a b : UInt64} : a ≤ (if a < b then b else a) ∧ b ≤ (if a < b then b else a) := by
  simp only [UInt64.le_iff_toNat_le]
  split_ifs with h <;> simp only [UInt64.lt_iff_toNat_lt] at h <;> omega

theorem Inv_Add (hl : Inv l) (tx : Transaction) (priceBump : UInt64) : Inv (l.Add tx priceBump).1 := by
  cases h : l.replaceUnderpriced tx priceBump
  · rw [Add_of_not_underpriced h]
    refine ⟨txSortedMap.Inv_Put hl.txs tx, fun k tx' hk => ?_⟩
    dsimp only at hk ⊢
    by_cases hkn : k = txNonce tx
    · -- the transaction put in, which the caps were raised to
      subst hkn
      simp only [txSortedMap.Put, AList.lookup_insert, Option.some.injEq] at hk
      subst hk
      exact ⟨le_raise.2, le_raise_gas.2⟩
    · -- a transaction the list held, under caps that only went up
      simp only [txSortedMap.Put, AList.lookup_insert_ne hkn] at hk
      obtain ⟨h1, h2⟩ := hl.capped k tx' hk
      exact ⟨h1.trans le_raise.1, UInt64.le_trans h2 le_raise_gas.1⟩
  · rw [Add_of_underpriced h]
    exact hl

theorem Forward_fst (threshold : ℕ) :
    (l.Forward threshold).1 = ⟨l.strict, (l.txs.Forward threshold).1, l.costcap, l.gascap⟩ := rfl

theorem Inv_Forward (hl : Inv l) (threshold : ℕ) : Inv (l.Forward threshold).1 := by
  rw [Forward_fst]
  exact ⟨txSortedMap.Inv_Forward hl.txs threshold,
    hl.capped.restrict (txSortedMap.Forward_spec hl.txs threshold).1 rfl rfl⟩

theorem Cap_fst (threshold : ℕ) :
    (l.Cap threshold).1 = ⟨l.strict, (l.txs.Cap threshold).1, l.costcap, l.gascap⟩ := rfl

theorem Inv_Cap (hl : Inv l) (threshold : ℕ) : Inv (l.Cap threshold).1 := by
  rw [Cap_fst]
  exact ⟨txSortedMap.Inv_Cap hl.txs threshold, hl.capped.restrict (txSortedMap.Cap_spec hl.txs threshold).1 rfl rfl⟩

theorem Ready_fst (start : ℕ) :
    (l.Ready start).1 = ⟨l.strict, (l.txs.Ready start).1, l.costcap, l.gascap⟩ := rfl

theorem Inv_Ready (hl : Inv l) (start : ℕ) : Inv (l.Ready start).1 := by
  rw [Ready_fst]
  exact ⟨txSortedMap.Inv_Ready hl.txs start,
    hl.capped.mono (fun _ _ hk => txSortedMap.lookup_Ready hl.txs hk) le_rfl (UInt64.le_refl _)⟩

theorem not_overLimits {costLimit : ℤ} {gasLimit : UInt64} {tx : Transaction} :
    overLimits costLimit gasLimit tx = false ↔ (tx.Cost : ℤ) ≤ costLimit ∧ tx.Gas ≤ gasLimit := by
  simp only [overLimits, Bool.or_eq_false_iff, decide_eq_false_iff_not, gt_iff_lt, UInt64.not_lt, not_lt,
    and_comm]

theorem Filter_of_within {costLimit : ℤ} {gasLimit : UInt64}
    (h : l.costcap ≤ costLimit ∧ l.gascap ≤ gasLimit) : l.Filter costLimit gasLimit = (l, [], []) := by
  rw [Filter, if_pos h]

/-- `Filter` past its short circuit: the map filtered and, when that took
anything out, filtered again in a strict list, and its heap rebuilt. -/
theorem Filter_fst_of_over {costLimit : ℤ} {gasLimit : UInt64}
    (h : ¬ (l.costcap ≤ costLimit ∧ l.gascap ≤ gasLimit)) :
    (l.Filter costLimit gasLimit).1 =
      if (l.txs.Filter (overLimits costLimit gasLimit)).2.length = 0 then
        ⟨l.strict, (l.txs.Filter (overLimits costLimit gasLimit)).1, costLimit, gasLimit⟩
      else if l.strict = true then
        ⟨l.strict, ((l.txs.Filter (overLimits costLimit gasLimit)).1.filter fun tx =>
          decide (txNonce tx > lowestNonce (l.txs.Filter (overLimits costLimit gasLimit)).2)).1.reheap,
          costLimit, gasLimit⟩
      else ⟨l.strict, (l.txs.Filter (overLimits costLimit gasLimit)).1.reheap, costLimit, gasLimit⟩ := by
  rw [Filter, if_neg h]
  dsimp only
  split_ifs <;> rfl

theorem Inv_Filter (hl : Inv l) (costLimit : ℤ) (gasLimit : UInt64) : Inv (l.Filter costLimit gasLimit).1 := by
  by_cases h : l.costcap ≤ costLimit ∧ l.gascap ≤ gasLimit
  · rw [Filter_of_within h]
    exact hl
  · have hinv := txSortedMap.Inv_Filter (overLimits costLimit gasLimit) hl.txs
    -- what the map's filter leaves is within the limits, which are the new caps
    have hcap : Capped ⟨l.strict, (l.txs.Filter (overLimits costLimit gasLimit)).1, costLimit, gasLimit⟩ :=
      fun _ _ hk => not_overLimits.1 (txSortedMap.lookup_Filter _ hk).2
    rw [Filter_fst_of_over h]
    split_ifs
    · exact ⟨hinv, hcap⟩
    · -- a strict list then takes out what is above the lowest nonce taken out
      refine ⟨txSortedMap.Inv_filter_reheap _ hinv, hcap.mono (fun _ _ hk => ?_) le_rfl (UInt64.le_refl _)⟩
      dsimp only at hk
      rw [txSortedMap.reheap_items] at hk
      exact (txSortedMap.filter_spec _).1.lookup_eq_some hk
    · exact ⟨txSortedMap.Inv_reheap hinv.keyed, hcap⟩

/-- `Remove` in terms of the map's `Remove` and, in a strict list, its `Filter`. -/
theorem Remove_eq (tx : Transaction) :
    l.Remove tx =
      if (l.txs.Remove (txNonce tx)).2 = true ∧ l.strict = true then
        (⟨l.strict, ((l.txs.Remove (txNonce tx)).1.Filter fun tx' => decide (txNonce tx' > txNonce tx)).1,
            l.costcap, l.gascap⟩, true,
          ((l.txs.Remove (txNonce tx)).1.Filter fun tx' => decide (txNonce tx' > txNonce tx)).2)
      else (⟨l.strict, (l.txs.Remove (txNonce tx)).1, l.costcap, l.gascap⟩, (l.txs.Remove (txNonce tx)).2, []) := by
  unfold Remove
  dsimp only
  by_cases hr : (l.txs.Remove (txNonce tx)).2 = true <;> cases l.strict <;> simp [hr]

theorem Inv_Remove (hl : Inv l) (tx : Transaction) : Inv (l.Remove tx).1 := by
  have hinv := txSortedMap.Inv_Remove hl.txs (txNonce tx)
  have hres := (txSortedMap.Remove_spec hl.txs (txNonce tx)).2
  rw [Remove_eq]
  split_ifs
  · -- a strict list also takes out the transactions above the nonce
    refine ⟨txSortedMap.Inv_Filter (fun tx' => decide (txNonce tx' > txNonce tx)) hinv,
      hl.capped.mono (fun _ _ hk => ?_) le_rfl (UInt64.le_refl _)⟩
    dsimp only at hk
    exact hres.lookup_eq_some (txSortedMap.lookup_Filter (fun tx' => decide (txNonce tx' > txNonce tx)) hk).1
  · exact ⟨hinv, hl.capped.restrict hres rfl rfl⟩

theorem Flatten_fst : l.Flatten.1 = ⟨l.strict, (l.txs.Flatten txNonce).1, l.costcap, l.gascap⟩ := rfl

theorem Inv_Flatten (hl : Inv l) : Inv l.Flatten.1 := by
  rw [Flatten_fst]
  refine ⟨txSortedMap.Inv_Flatten hl.txs, hl.capped.mono (fun _ _ hk => ?_) le_rfl (UInt64.le_refl _)⟩
  rwa [txSortedMap.Flatten_items] at hk

theorem LastElement_fst : l.LastElement.1 = l.Flatten.1 := rfl

end Calls

/-! ### Runs of calls -/

/-- The calls on a `txList`. -/
inductive Op where
  | Add (tx : Transaction) (priceBump : UInt64)
  | Forward (threshold : ℕ)
  | Filter (costLimit : ℤ) (gasLimit : UInt64)
  | Cap (threshold : ℕ)
  | Remove (tx : Transaction)
  | Ready (start : ℕ)
  | Flatten
  | LastElement

/-- The list one call leaves. -/
def step (l : txList) : Op → txList
  | .Add tx priceBump => (l.Add tx priceBump).1
  | .Forward threshold => (l.Forward threshold).1
  | .Filter costLimit gasLimit => (l.Filter costLimit gasLimit).1
  | .Cap threshold => (l.Cap threshold).1
  | .Remove tx => (l.Remove tx).1
  | .Ready start => (l.Ready start).1
  | .Flatten => l.Flatten.1
  | .LastElement => l.LastElement.1

/-- The list a run of calls leaves. -/
def run (l : txList) (ops : List Op) : txList := ops.foldl step l

/-- **Every call keeps the invariant.** -/
theorem Inv_step {l : txList} (hl : Inv l) (op : Op) : Inv (step l op) := by
  cases op with
  | Add tx priceBump => exact Inv_Add hl tx priceBump
  | Forward threshold => exact Inv_Forward hl threshold
  | Filter costLimit gasLimit => exact Inv_Filter hl costLimit gasLimit
  | Cap threshold => exact Inv_Cap hl threshold
  | Remove tx => exact Inv_Remove hl tx
  | Ready start => exact Inv_Ready hl start
  | Flatten => exact Inv_Flatten hl
  | LastElement => exact Inv_Flatten hl

theorem Inv_run {l : txList} (hl : Inv l) (ops : List Op) : Inv (run l ops) := by
  induction ops generalizing l with
  | nil => exact hl
  | cons op ops ih => exact ih (Inv_step hl op)

/-! ### The lowest nonce -/

section Results

variable {l : txList}

/-- **`Add`'s replacement rule.** A transaction is accepted exactly when the
list holds none of its nonce or the one it holds pays less, and less than the
threshold `oldGP * (100 + priceBump) / 100`; an accepted one is put in the map
and the old one returned, a refused one changes nothing. -/
theorem Add_spec (l : txList) (tx : Transaction) (priceBump : UInt64) :
    ((l.Add tx priceBump).2.1 = true ↔
      ∀ old, l.txs.items.lookup (txNonce tx) = some old →
        old.GasPrice < tx.GasPrice ∧ (100 + priceBump.toInt64).toInt * old.GasPrice / 100 ≤ tx.GasPrice) ∧
      ((l.Add tx priceBump).2.1 = true →
        (l.Add tx priceBump).2.2 = l.txs.items.lookup (txNonce tx) ∧
          ∀ k, (l.Add tx priceBump).1.txs.items.lookup k =
            if k = txNonce tx then some tx else l.txs.items.lookup k) ∧
      ((l.Add tx priceBump).2.1 = false → l.Add tx priceBump = (l, false, none)) := by
  -- the check, read off the old transaction
  have hcheck : l.replaceUnderpriced tx priceBump = false ↔
      ∀ old, l.txs.items.lookup (txNonce tx) = some old →
        old.GasPrice < tx.GasPrice ∧ (100 + priceBump.toInt64).toInt * old.GasPrice / 100 ≤ tx.GasPrice := by
    unfold replaceUnderpriced txSortedMap.Get
    cases l.txs.items.lookup (txNonce tx) with
    | none => simp
    | some old => simp [Bool.or_eq_false_iff, not_le, not_lt]
  cases h : l.replaceUnderpriced tx priceBump
  · rw [Add_of_not_underpriced h]
    refine ⟨iff_of_true rfl (hcheck.mp h), fun _ => ⟨rfl, fun k => ?_⟩, fun h' => by simp at h'⟩
    by_cases hk : k = txNonce tx
    · subst hk
      simp [txSortedMap.Put]
    · simp [txSortedMap.Put, hk, AList.lookup_insert_ne hk]
  · rw [Add_of_underpriced h]
    refine ⟨iff_of_false Bool.false_ne_true fun hall => ?_, fun h' => absurd h' Bool.false_ne_true, fun _ => rfl⟩
    exact absurd (h.symm.trans (hcheck.mpr hall)) (by decide)

/-- With `priceBump` at `2 ^ 63 - 100`, `100 + int64(priceBump)` wraps to the
least `int64`: the threshold is at most zero, and any transaction that pays more
than the old one replaces it. -/
theorem Add_of_wrapped_bump (l : txList) (tx : Transaction) :
    (l.Add tx 9223372036854775708).2.1 = true ↔
      ∀ old, l.txs.items.lookup (txNonce tx) = some old → old.GasPrice < tx.GasPrice := by
  have hwrap : (100 + (9223372036854775708 : UInt64).toInt64).toInt = -9223372036854775808 := by decide
  rw [(Add_spec l tx _).1, hwrap]
  refine forall_congr' fun old => imp_congr_right fun _ => and_iff_left_of_imp fun _ => ?_
  -- the threshold is not positive
  have hle : -9223372036854775808 * (old.GasPrice : ℤ) / 100 ≤ 0 :=
    Int.ediv_nonpos_of_nonpos_of_neg (by nlinarith [Int.natCast_nonneg old.GasPrice]) (by norm_num)
  exact hle.trans (Int.natCast_nonneg _)

end Results

/-! ### Strict lists have no gap -/

/-- The nonces of a map are an interval `[lo, hi)`. -/
def Gapless (items : AList (fun _ : ℕ => Transaction)) : Prop :=
  ∃ lo hi, ∀ k, k ∈ items.keys ↔ lo ≤ k ∧ k < hi

section Gapless

variable {items items' : AList (fun _ : ℕ => Transaction)} {lo hi : ℕ}

/-- **A restriction of an interval to an interval is an interval**: only what
the predicate says of the nonces the map holds matters. -/
theorem Gapless.restrict {p : ℕ → Prop} [DecidablePred p] (hres : txSortedMap.Restricts items' items p)
    (h : ∀ k, k ∈ items.keys ↔ lo ≤ k ∧ k < hi) (lo' hi' : ℕ)
    (hp : ∀ k, lo ≤ k → k < hi → (p k ↔ lo' ≤ k ∧ k < hi')) : Gapless items' := by
  refine ⟨max lo lo', min hi hi', fun k => ?_⟩
  rw [hres.mem_keys, h]
  constructor
  · rintro ⟨hpk, hlo, hhi⟩
    have := (hp k hlo hhi).mp hpk
    omega
  · intro hk
    exact ⟨(hp k (by omega) (by omega)).mpr (by omega), by omega, by omega⟩

variable {l : txList}

end Gapless

end txList

end core

end PureChain
