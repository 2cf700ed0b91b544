import Mathlib.Data.List.Nodup
import Mathlib.Logic.Equiv.Basic
import PureChain.Lib.Heap

/-!
# `container/heap` keeps a heap

The package's functions are correct for any collection whose methods act as a
slice's do. `Lawful` says so through `get s k`, the element at position `k`
(`none` past the end), and an order `r` that `Less` decides. The order is a
strict weak order, as `sort.Interface` asks of `Less`.

`Ordered` is the heap order: no element is `r`-before its parent. The two
loops are proved from the invariants of sift-up and sift-down on an array,
`UpReady` and `DownReady`: they say which parent edges may be out of order
while an element moves. `Push`, `Pop`, `Remove` and `Init` then keep the order
and the elements, and `Pop` and `Remove` return the element they take off
(`Pop_spec`, `Remove_spec`, `Init_spec`). What `Pop` returns is least: no
element is before the root of a heap (`OrderedFrom.not_before_root`).
-/

namespace heap

/-- The parent of position `k`, as `up` and `down` compute it. -/
def parent (k : ℕ) : ℕ := (k - 1) / 2

theorem parent_lt {k : ℕ} (hk : 0 < k) : parent k < k := by
  unfold parent
  omega

/-- The children of `i` are `2 * i + 1` and the one after. -/
theorem eq_child_of_parent {c i : ℕ} (hc : 0 < c) (hp : parent c = i) :
    c = 2 * i + 1 ∨ c = 2 * i + 1 + 1 := by
  unfold parent at hp
  omega

/-! ### Strict weak orders -/

section Order

variable {α : Type} {r : α → α → Prop} [IsStrictWeakOrder α r]

/-- In a strict weak order, not being before is transitive. -/
theorem not_rel_trans {a b c : α} (hab : ¬ r a b) (hbc : ¬ r b c) : ¬ r a c := by
  intro hac
  by_cases hba : r b a
  · exact hbc (IsTrans.trans _ _ _ hba hac)
  by_cases hcb : r c b
  · exact hab (IsTrans.trans _ _ _ hac hcb)
  exact (IsStrictWeakOrder.incomp_trans a b c ⟨hab, hba⟩ ⟨hbc, hcb⟩).1 hac

end Order

/-! ### A collection seen as a slice -/

section View

variable {σ α : Type} (h : Interface σ α) (get : σ → ℕ → Option α) (r : α → α → Prop)

/-- The element at `i` is present and `r`-before the one at `j`. -/
def Before (s : σ) (i j : ℕ) : Prop := ∃ a b, get s i = some a ∧ get s j = some b ∧ r a b

/-- Exactly the positions below `Len` hold an element. -/
def Full (s : σ) : Prop := ∀ k, (get s k).isSome ↔ k < h.Len s

/-- The elements, in the order of their positions. -/
def elems (s : σ) : List α := (List.range (h.Len s)).filterMap (get s)

/-- Among the first `n` positions, no element whose parent is at or after `m`
is before its parent. -/
def OrderedFrom (s : σ) (n m : ℕ) : Prop :=
  ∀ k, 0 < k → k < n → m ≤ parent k → ¬ Before get r s k (parent k)

/-- The heap order: no element is before its parent. -/
def Ordered (s : σ) : Prop := OrderedFrom get r s (h.Len s) 0

/-- **What the heap functions need of a collection.** `Valid` is what the
collection keeps of its own. Under it, `Less` decides `r` on the elements, and
`Swap`, `Push` and `Pop` act on the positions as a slice's methods do. -/
structure Lawful (Valid : σ → Prop) : Prop where
  less : ∀ s i j, Valid s → i < h.Len s → j < h.Len s → (h.Less s i j = true ↔ Before get r s i j)
  swap : ∀ s i j, Valid s → i < h.Len s → j < h.Len s →
    Valid (h.Swap s i j) ∧ h.Len (h.Swap s i j) = h.Len s ∧
      ∀ k, get (h.Swap s i j) k = get s (Equiv.swap i j k)
  push : ∀ s x, Valid s → Valid (h.Push s x) ∧ h.Len (h.Push s x) = h.Len s + 1 ∧
    ∀ k, get (h.Push s x) k = if k = h.Len s then some x else get s k
  pop : ∀ s, Valid s → 0 < h.Len s →
    (h.Pop s).1 = get s (h.Len s - 1) ∧ Valid (h.Pop s).2 ∧ h.Len (h.Pop s).2 = h.Len s - 1 ∧
      ∀ k, get (h.Pop s).2 k = if k = h.Len s - 1 then none else get s k

/-- What `up` from `j` needs among the first `n`: every element but the one at
`j` is not before its parent, and when `j` has a parent, `j`'s children are not
before that parent either. -/
structure UpReady (s : σ) (n j : ℕ) : Prop where
  except : ∀ k, 0 < k → k < n → k ≠ j → ¬ Before get r s k (parent k)
  grand : 0 < j → ∀ c, 0 < c → c < n → parent c = j → ¬ Before get r s c (parent j)

/-- What `down` from `i` needs among the first `n`, for the parents at or after
`m`: every element whose parent is not `i` is not before its parent, and when
`i`'s parent counts, `i`'s children are not before that parent. -/
structure DownReady (s : σ) (n m i : ℕ) : Prop where
  except : ∀ k, 0 < k → k < n → m ≤ parent k → parent k ≠ i → ¬ Before get r s k (parent k)
  grand : 0 < i → m ≤ parent i → ∀ c, 0 < c → c < n → parent c = i → ¬ Before get r s c (parent i)

/-- `t` holds what `s` holds, rearranged: a valid, full collection of the same
length and elements. -/
structure Rearranged (Valid : σ → Prop) (s t : σ) : Prop where
  valid : Valid t
  full : Full h get t
  len : h.Len t = h.Len s
  perm : List.Perm (elems h get t) (elems h get s)

end View

/-! ### Positions under a swap -/

theorem swap_lt_iff {i j k n : ℕ} (hi : i < n) (hj : j < n) : Equiv.swap i j k < n ↔ k < n := by
  rw [Equiv.swap_apply_def]
  split_ifs with h1 h2
  · subst h1
    exact ⟨fun _ => hi, fun _ => hj⟩
  · subst h2
    exact ⟨fun _ => hj, fun _ => hi⟩
  · exact Iff.rfl

/-- Swapping two positions below `n` permutes the positions below `n`. -/
theorem perm_map_swap_range {i j n : ℕ} (hi : i < n) (hj : j < n) :
    List.Perm ((List.range n).map (Equiv.swap i j)) (List.range n) := by
  rw [List.perm_ext_iff_of_nodup (List.nodup_range.map (Equiv.injective _)) List.nodup_range]
  intro k
  simp only [List.mem_map, List.mem_range]
  constructor
  · rintro ⟨l, hl, rfl⟩
    exact (swap_lt_iff hi hj).mpr hl
  · intro hk
    exact ⟨Equiv.swap i j k, (swap_lt_iff hi hj).mpr hk, Equiv.swap_apply_self _ _ _⟩

section Laws

variable {σ α : Type} {h : Interface σ α} {get : σ → ℕ → Option α} {r : α → α → Prop}
  {Valid : σ → Prop} {s : σ}

theorem Before.present_left {i j : ℕ} (hb : Before get r s i j) : (get s i).isSome := by
  obtain ⟨a, b, ha, -, -⟩ := hb
  simp [ha]

theorem Before.present_right {i j : ℕ} (hb : Before get r s i j) : (get s j).isSome := by
  obtain ⟨a, b, -, hb, -⟩ := hb
  simp [hb]

section Order

variable [IsStrictWeakOrder α r]

theorem Before.irrefl (i : ℕ) : ¬ Before get r s i i := by
  rintro ⟨a, b, ha, hb, hab⟩
  rw [ha, Option.some_inj] at hb
  subst hb
  exact Std.Irrefl.irrefl a hab

theorem Before.asymm {i j : ℕ} (hij : Before get r s i j) : ¬ Before get r s j i := by
  obtain ⟨a, b, ha, hb, hab⟩ := hij
  rintro ⟨b', a', hb', ha', hba⟩
  rw [hb, Option.some_inj] at hb'
  rw [ha, Option.some_inj] at ha'
  subst hb' ha'
  exact Std.Irrefl.irrefl a (IsTrans.trans _ _ _ hab hba)

theorem Before.trans {i j k : ℕ} (hij : Before get r s i j) (hjk : Before get r s j k) :
    Before get r s i k := by
  obtain ⟨a, b, ha, hb, hab⟩ := hij
  obtain ⟨b', c, hb', hc, hbc⟩ := hjk
  rw [hb, Option.some_inj] at hb'
  subst hb'
  exact ⟨a, c, ha, hc, IsTrans.trans _ _ _ hab hbc⟩

/-- Not being before passes through a present element. -/
theorem not_before_trans {i j k : ℕ} (hj : (get s j).isSome) (hij : ¬ Before get r s i j)
    (hjk : ¬ Before get r s j k) : ¬ Before get r s i k := by
  obtain ⟨b, hb⟩ := Option.isSome_iff_exists.mp hj
  rintro ⟨a, c, ha, hc, hac⟩
  have hab : ¬ r a b := fun hab => hij ⟨a, b, ha, hb, hab⟩
  have hbc : ¬ r b c := fun hbc => hjk ⟨b, c, hb, hc, hbc⟩
  exact not_rel_trans hab hbc hac

end Order

theorem Rearranged.refl (hs : Valid s) (hf : Full h get s) : Rearranged h get Valid s s :=
  ⟨hs, hf, rfl, List.Perm.refl _⟩

theorem Rearranged.trans {t u : σ} (hst : Rearranged h get Valid s t) (htu : Rearranged h get Valid t u) :
    Rearranged h get Valid s u :=
  ⟨htu.valid, htu.full, htu.len.trans hst.len, htu.perm.trans hst.perm⟩

variable (hl : Lawful h get r Valid)
include hl

/-- After a swap, what is before what is read at the swapped positions. -/
theorem Lawful.before_swap {i j : ℕ} (hs : Valid s) (hi : i < h.Len s) (hj : j < h.Len s) (k q : ℕ) :
    Before get r (h.Swap s i j) k q ↔ Before get r s (Equiv.swap i j k) (Equiv.swap i j q) := by
  simp only [Before, (hl.swap s i j hs hi hj).2.2]

/-- A swap rearranges the collection. -/
theorem Lawful.swap_rearranged {i j : ℕ} (hs : Valid s) (hf : Full h get s) (hi : i < h.Len s)
    (hj : j < h.Len s) : Rearranged h get Valid s (h.Swap s i j) := by
  obtain ⟨hv, hlen, hget⟩ := hl.swap s i j hs hi hj
  refine ⟨hv, fun k => ?_, hlen, ?_⟩
  · rw [hget, hf, hlen]
    exact swap_lt_iff hi hj
  · have hfun : get (h.Swap s i j) = get s ∘ Equiv.swap i j := funext hget
    simp only [elems, hlen, hfun]
    rw [← List.filterMap_map]
    exact (perm_map_swap_range hi hj).filterMap _

/-- A swap of a rearrangement is one. -/
theorem Rearranged.swap {t : σ} {i j : ℕ} (hst : Rearranged h get Valid s t) (hi : i < h.Len s)
    (hj : j < h.Len s) : Rearranged h get Valid s (h.Swap t i j) := by
  have hu := hl.swap_rearranged hst.valid hst.full (hst.len ▸ hi) (hst.len ▸ hj)
  exact ⟨hu.valid, hu.full, hu.len.trans hst.len, hu.perm.trans hst.perm⟩

/-- `up` only swaps positions at or above `j`, so it rearranges the collection. -/
theorem Lawful.up_rearranged {j : ℕ} (hs : Valid s) (hf : Full h get s) (hj : j < h.Len s) :
    Rearranged h get Valid s (up h s j) :=
  up_induction h _ (fun _ k hk hkj ht => ht.swap hl (by have := parent_lt hk; omega) (by omega)) s
    (Rearranged.refl hs hf)

/-- `down` only swaps positions below `n`, so it rearranges the collection. -/
theorem Lawful.downLoop_rearranged {n : ℕ} (i : ℕ) (hs : Valid s) (hf : Full h get s) (hn : n ≤ h.Len s) :
    Rearranged h get Valid s (downLoop h s n i).1 :=
  downLoop_induction h _ (fun _ _ _ hij hjn ht => ht.swap hl (by omega) (by omega)) s i
    (Rearranged.refl hs hf)

/-- and leaves the positions from `n` on as they were. -/
theorem Lawful.get_downLoop {n k : ℕ} (i : ℕ) (hs : Valid s) (hn : n ≤ h.Len s) (hk : n ≤ k) :
    get (downLoop h s n i).1 k = get s k := by
  refine (downLoop_induction h (fun t => Valid t ∧ h.Len t = h.Len s ∧ get t k = get s k)
    (fun t a b hab hbn ⟨ht, hlen, hget⟩ => ?_) s i ⟨hs, rfl, rfl⟩).2.2
  obtain ⟨hv, hlen', hget'⟩ := hl.swap t a b ht (by omega) (by omega)
  exact ⟨hv, hlen'.trans hlen, by rw [hget', Equiv.swap_apply_of_ne_of_ne (by omega) (by omega), hget]⟩

/-- `up` from `j` leaves the positions after `j` as they were. -/
theorem Lawful.get_up {j k : ℕ} (hs : Valid s) (hj : j < h.Len s) (hk : j < k) :
    get (up h s j) k = get s k := by
  refine (up_induction h (fun t => Valid t ∧ h.Len t = h.Len s ∧ get t k = get s k)
    (fun t a ha haj ⟨ht, hlen, hget⟩ => ?_) s ⟨hs, rfl, rfl⟩).2.2
  obtain ⟨hv, hlen', hget'⟩ := hl.swap t ((a - 1) / 2) a ht (by omega) (by omega)
  exact ⟨hv, hlen'.trans hlen, by rw [hget', Equiv.swap_apply_of_ne_of_ne (by omega) (by omega), hget]⟩

end Laws

/-! ### `up` -/

section Up

variable {σ α : Type} {h : Interface σ α} {get : σ → ℕ → Option α} {r : α → α → Prop}
  {Valid : σ → Prop} {s : σ}

/-- `up` stops where its element is in order: then every element is. -/
theorem UpReady.ordered {n j : ℕ} (hu : UpReady get r s n j)
    (hstop : j = 0 ∨ ¬ Before get r s j (parent j)) : OrderedFrom get r s n 0 := by
  intro k hk0 hkn _
  by_cases hkj : k = j
  · subst hkj
    rcases hstop with h0 | hb
    · omega
    · exact hb
  · exact hu.except k hk0 hkn hkj

variable [IsStrictWeakOrder α r] (hl : Lawful h get r Valid)
include hl

/-- **One round of `up`**: the element at `j`, before its parent, swapped with
it, leaves only the parent's position to go on from. -/
theorem UpReady.swap {n j : ℕ} (hs : Valid s) (hf : Full h get s) (hn : n ≤ h.Len s) (hj : j < n)
    (h0 : 0 < j) (hu : UpReady get r s n j) (hb : Before get r s j (parent j)) :
    UpReady get r (h.Swap s (parent j) j) n (parent j) := by
  have hp : parent j < j := parent_lt h0
  have hsw := hl.before_swap hs (by omega : parent j < h.Len s) (by omega : j < h.Len s)
  -- the parent is present, so not being before passes through it
  have hpres : (get s (parent j)).isSome := (hf _).mpr (by omega)
  constructor
  · intro k hk0 hkn hkp
    rw [hsw]
    by_cases hkj : k = j
    · subst hkj
      rw [Equiv.swap_apply_right, Equiv.swap_apply_left]
      exact hb.asymm
    rw [Equiv.swap_apply_of_ne_of_ne hkp hkj]
    by_cases hpkj : parent k = j
    · -- a child of `j` meets `j`'s old parent
      rw [hpkj, Equiv.swap_apply_right]
      exact hu.grand h0 k hk0 hkn hpkj
    by_cases hpkp : parent k = parent j
    · -- a sibling of `j` meets `j`, which was before their parent
      rw [hpkp, Equiv.swap_apply_left]
      intro hkj'
      exact hu.except k hk0 hkn hkj (by rw [hpkp]; exact hkj'.trans hb)
    · rw [Equiv.swap_apply_of_ne_of_ne hpkp hpkj]
      exact hu.except k hk0 hkn hkj
  · intro hp0 c hc0 hcn hcp
    have hpp := parent_lt hp0
    rw [hsw, Equiv.swap_apply_of_ne_of_ne (Nat.ne_of_lt hpp) (by omega : parent (parent j) ≠ j)]
    have hpord : ¬ Before get r s (parent j) (parent (parent j)) := hu.except _ hp0 (by omega) (Nat.ne_of_lt hp)
    by_cases hcj : c = j
    · subst hcj
      rw [Equiv.swap_apply_right]
      exact hpord
    · have hcpar : ¬ Before get r s c (parent j) := by
        rw [← hcp]
        exact hu.except c hc0 hcn hcj
      rw [Equiv.swap_apply_of_ne_of_ne (by have := parent_lt hc0; omega) hcj]
      exact not_before_trans hpres hcpar hpord

/-- **`up` restores the order** among the first `n`, from an element at `j`
that may be before its parent. -/
theorem up_ordered {n : ℕ} (j : ℕ) (hs : Valid s) (hf : Full h get s) (hn : n ≤ h.Len s) (hj : j < n)
    (hu : UpReady get r s n j) : OrderedFrom get r (up h s j) n 0 := by
  induction s, j using up.induct h with
  | case1 s j _ hstop =>
    rw [up, dif_pos hstop]
    refine hu.ordered (hstop.imp (fun hpj => ?_) (fun hnl => ?_))
    · omega
    · rwa [hl.less s j _ hs (by omega) (by omega)] at hnl
  | case2 s j _ hgo ih =>
    have h0 : 0 < j := by omega
    have hp : parent j < j := parent_lt h0
    have hb : Before get r s j (parent j) :=
      (hl.less s j (parent j) hs (by omega) (by omega)).mp (not_not.mp (not_or.mp hgo).2)
    have ht := hl.swap_rearranged hs hf (by omega : parent j < h.Len s) (by omega : j < h.Len s)
    rw [up, dif_neg hgo]
    exact ih ht.valid ht.full (ht.len ▸ hn) (by omega) (hu.swap hl hs hf hn hj h0 hb)

end Up

/-! ### `down` -/

section Down

variable {σ α : Type} {h : Interface σ α} {get : σ → ℕ → Option α} {r : α → α → Prop}
  {Valid : σ → Prop} {s : σ}

/-- `down` stops where no child of its element is before it: then every
element among the first `n` is in order. -/
theorem DownReady.ordered {n m i : ℕ} (hd : DownReady get r s n m i)
    (hmin : ∀ c, 0 < c → c < n → parent c = i → ¬ Before get r s c i) : OrderedFrom get r s n m := by
  intro k hk0 hkn hm
  by_cases hpk : parent k = i
  · rw [hpk]
    exact hmin k hk0 hkn hpk
  · exact hd.except k hk0 hkn hm hpk

variable [IsStrictWeakOrder α r] (hl : Lawful h get r Valid)
include hl

/-- The child `down` compares with is the second when it is there and before
the first: it is a child of `i` among the first `n`, and no child of `i` is
before it. -/
theorem Lawful.lesserChild_spec {n i j : ℕ} (hs : Valid s) (hn : n ≤ h.Len s)
    (hj : j = lesserChild h s n i) :
    parent j = i ∧ ∀ c, 0 < c → c < n → parent c = i → ¬ Before get r s c j := by
  have hpar1 : parent (2 * i + 1) = i := by unfold parent; omega
  have hpar2 : parent (2 * i + 1 + 1) = i := by unfold parent; omega
  unfold lesserChild at hj
  by_cases hc : 2 * i + 1 + 1 < n ∧ h.Less s (2 * i + 1 + 1) (2 * i + 1) = true
  · rw [if_pos hc] at hj
    subst hj
    have hb : Before get r s (2 * i + 1 + 1) (2 * i + 1) :=
      (hl.less _ _ _ hs (by omega) (by omega)).mp hc.2
    refine ⟨hpar2, fun c hc0 hcn hcp => ?_⟩
    rcases eq_child_of_parent hc0 hcp with rfl | rfl
    · exact hb.asymm
    · exact Before.irrefl _
  · rw [if_neg hc] at hj
    subst hj
    refine ⟨hpar1, fun c hc0 hcn hcp => ?_⟩
    rcases eq_child_of_parent hc0 hcp with rfl | rfl
    · exact Before.irrefl _
    · intro hb
      exact hc ⟨hcn, (hl.less _ _ _ hs (by omega) (by omega)).mpr hb⟩

/-- **One round of `down`**: the element at `i` swapped with its lesser child
`j`, which was before it, leaves only `j`'s position to go on from. -/
theorem DownReady.swap {n m i j : ℕ} (hs : Valid s) (hn : n ≤ h.Len s) (hd : DownReady get r s n m i)
    (hij : i < j) (hjn : j < n) (hpj : parent j = i)
    (hmin : ∀ c, 0 < c → c < n → parent c = i → ¬ Before get r s c j) (hb : Before get r s j i) :
    DownReady get r (h.Swap s i j) n m j := by
  have hsw := hl.before_swap hs (by omega : i < h.Len s) (by omega : j < h.Len s)
  constructor
  · intro k hk0 hkn hm hpkj
    rw [hsw]
    by_cases hkj : k = j
    · subst hkj
      rw [hpj, Equiv.swap_apply_right, Equiv.swap_apply_left]
      exact hb.asymm
    by_cases hki : k = i
    · -- the lesser child, now at `i`, meets `i`'s parent
      subst hki
      have hpk := parent_lt hk0
      rw [Equiv.swap_apply_left, Equiv.swap_apply_of_ne_of_ne (Nat.ne_of_lt hpk) (by omega)]
      exact hd.grand hk0 hm j (by omega) hjn hpj
    rw [Equiv.swap_apply_of_ne_of_ne hki hkj]
    by_cases hpki : parent k = i
    · -- the other child of `i` meets the lesser one
      rw [hpki, Equiv.swap_apply_left]
      exact hmin k hk0 hkn hpki
    · rw [Equiv.swap_apply_of_ne_of_ne hpki hpkj]
      exact hd.except k hk0 hkn hm hpki
  · intro hj0 hm c hc0 hcn hcp
    have hcj := parent_lt hc0
    rw [hsw, hpj, Equiv.swap_apply_left, Equiv.swap_apply_of_ne_of_ne (by omega) (by omega)]
    have hc := hd.except c hc0 hcn (by omega) (by omega)
    rwa [hcp] at hc

/-- **`down` restores the order** among the first `n`, for the parents at or
after `m`. -/
theorem downLoop_ordered {n m : ℕ} (i : ℕ) (hs : Valid s) (hf : Full h get s) (hn : n ≤ h.Len s)
    (hd : DownReady get r s n m i) : OrderedFrom get r (downLoop h s n i).1 n m := by
  induction s, i using downLoop.induct h n with
  | case1 s i _ hleaf =>
    rw [downLoop_of_le h hleaf]
    -- no child of `i` is among the first `n`
    exact hd.ordered fun c hc0 hcn hcp => by have := eq_child_of_parent hc0 hcp; omega
  | case2 s i _ hj1 j hnl =>
    have hjn : j < n := lesserChild_lt h (by omega)
    obtain ⟨hpj, hmin⟩ := hl.lesserChild_spec (i := i) (j := j) hs hn rfl
    have hjp : (get s j).isSome := (hf j).mpr (by omega)
    have hji : ¬ Before get r s j i := fun hb => hnl ((hl.less _ _ _ hs (by omega) (by omega)).mpr hb)
    rw [downLoop_of_not_less h (j := j) (by omega) rfl (Bool.of_not_eq_true hnl)]
    exact hd.ordered fun c hc0 hcn hcp => not_before_trans hjp (hmin c hc0 hcn hcp) hji
  | case3 s i _ hj1 j hless ih =>
    have hij : i < j := lt_lesserChild h s n i
    have hjn : j < n := lesserChild_lt h (by omega)
    obtain ⟨hpj, hmin⟩ := hl.lesserChild_spec (i := i) (j := j) hs hn rfl
    have hb : Before get r s j i := (hl.less _ _ _ hs (by omega) (by omega)).mp (not_not.mp hless)
    have ht := hl.swap_rearranged hs hf (by omega : i < h.Len s) (by omega : j < h.Len s)
    rw [downLoop_of_less h (j := j) (by omega) rfl (not_not.mp hless)]
    exact ih ht.valid ht.full (ht.len ▸ hn) (hd.swap hl hs hn hij hjn hpj hmin hb)

end Down

/-! ### `Push`, `Pop`, `Remove` and `Init` -/

section Functions

variable {σ α : Type} {h : Interface σ α} {get : σ → ℕ → Option α} {r : α → α → Prop}
  {Valid : σ → Prop} {s : σ}

theorem OrderedFrom.mono {n n' m : ℕ} (ho : OrderedFrom get r s n m) (hn : n' ≤ n) :
    OrderedFrom get r s n' m :=
  fun k hk0 hkn hm => ho k hk0 (by omega) hm

/-- The order on the first `n` is read at the first `n` positions only. -/
theorem OrderedFrom.congr {t : σ} {n m : ℕ} (ho : OrderedFrom get r s n m)
    (hget : ∀ k, k < n → get t k = get s k) : OrderedFrom get r t n m := by
  intro k hk0 hkn hm
  have hp := parent_lt hk0
  simp only [Before, hget k hkn, hget (parent k) (by omega)]
  exact ho k hk0 hkn hm

/-- No parent from `n / 2` on has a child among the first `n`. -/
theorem orderedFrom_half (s : σ) (n : ℕ) : OrderedFrom get r s n (n / 2) := by
  intro k hk0 hkn hm
  unfold parent at hm
  omega

/-- The order from `i + 1` on is what `down` from `i` needs. -/
theorem OrderedFrom.downReady {n i : ℕ} (ho : OrderedFrom get r s n (i + 1)) : DownReady get r s n i i :=
  ⟨fun k hk0 hkn hm hne => ho k hk0 hkn (by omega),
    fun hi0 hm => absurd hm (by have := parent_lt hi0; omega)⟩

/-- **No element is before the root** of an ordered collection. -/
theorem OrderedFrom.not_before_root [IsStrictWeakOrder α r] {n : ℕ} (ho : OrderedFrom get r s n 0)
    (hf : ∀ k, k < n → (get s k).isSome) (k : ℕ) : k < n → ¬ Before get r s k 0 := by
  induction k using Nat.strongRecOn with
  | ind k ih =>
    intro hk
    rcases Nat.eq_zero_or_pos k with rfl | hk0
    · exact Before.irrefl 0
    · -- through the parent, which no element below the root is before
      have hp := parent_lt hk0
      exact not_before_trans (hf _ (by omega)) (ho k hk0 hk (Nat.zero_le _)) (ih _ hp (by omega))

variable (hl : Lawful h get r Valid)
include hl

/-- A push onto a full collection adds its element at the end. -/
theorem Lawful.push_full (hs : Valid s) (hf : Full h get s) (x : α) :
    Full h get (h.Push s x) ∧ (∀ k, k < h.Len s → get (h.Push s x) k = get s k) ∧
      elems h get (h.Push s x) = elems h get s ++ [x] := by
  obtain ⟨-, hlen, hget⟩ := hl.push s x hs
  have hbelow : ∀ k, k < h.Len s → get (h.Push s x) k = get s k := fun k hk => by
    rw [hget, if_neg (Nat.ne_of_lt hk)]
  refine ⟨fun k => ?_, hbelow, ?_⟩
  · rw [hget, hlen]
    split_ifs with hk
    · simp [hk]
    · rw [hf]
      omega
  · have htail : [h.Len s].filterMap (get (h.Push s x)) = [x] := by simp [hget]
    simp only [elems, hlen, List.range_succ, List.filterMap_append, htail]
    rw [List.filterMap_congr (f := get (h.Push s x)) (g := get s)
      (fun k hk => hbelow k (List.mem_range.mp hk))]

/-- A pop from a full collection takes its last element off. -/
theorem Lawful.pop_full (hs : Valid s) (hf : Full h get s) (h0 : 0 < h.Len s) :
    Valid (h.Pop s).2 ∧ Full h get (h.Pop s).2 ∧ h.Len (h.Pop s).2 = h.Len s - 1 ∧
      (∀ k, k < h.Len s - 1 → get (h.Pop s).2 k = get s k) ∧
      elems h get s = elems h get (h.Pop s).2 ++ (get s (h.Len s - 1)).toList := by
  obtain ⟨-, hv, hlen, hget⟩ := hl.pop s hs h0
  have hbelow : ∀ k, k < h.Len s - 1 → get (h.Pop s).2 k = get s k := fun k hk => by
    rw [hget, if_neg (Nat.ne_of_lt hk)]
  refine ⟨hv, fun k => ?_, hlen, hbelow, ?_⟩
  · rw [hget, hlen]
    split_ifs with hk
    · simp [hk]
    · rw [hf]
      omega
  · obtain ⟨n, hn⟩ : ∃ n, h.Len s = n + 1 := ⟨h.Len s - 1, by omega⟩
    have hn' : h.Len s - 1 = n := by omega
    rw [hn'] at hbelow hlen ⊢
    have htail : [n].filterMap (get s) = (get s n).toList := by
      cases hx : get s n <;> simp [hx]
    simp only [elems, hlen, hn, List.range_succ, List.filterMap_append, htail]
    rw [List.filterMap_congr (f := get (h.Pop s).2) (g := get s)
      (fun k hk => hbelow k (List.mem_range.mp hk))]

/-- `heap.Pop` takes one element off, whatever the order. -/
theorem Lawful.len_Pop (hs : Valid s) (hf : Full h get s) (h0 : 0 < h.Len s) :
    h.Len (heap.Pop h s).2 = h.Len s - 1 := by
  have ht := hl.swap_rearranged hs hf h0 (by omega : h.Len s - 1 < h.Len s)
  have hu := ht.trans (hl.downLoop_rearranged 0 ht.valid ht.full (n := h.Len s - 1) (by rw [ht.len]; omega))
  obtain ⟨-, -, hlen, -⟩ := hl.pop _ hu.valid (by rw [hu.len]; exact h0)
  show h.Len (h.Pop (downLoop h (h.Swap s 0 (h.Len s - 1)) (h.Len s - 1) 0).1).2 = _
  rw [hlen, hu.len]

/-- Popping the last element of a rearrangement that is in order before it. -/
theorem Lawful.pop_rearranged {v : σ} {i : ℕ} (hv : Rearranged h get Valid s v) (h0 : 0 < h.Len s)
    (hord : OrderedFrom get r v (h.Len s - 1) 0) (hlast : get v (h.Len s - 1) = get s i) :
    (h.Pop v).1 = get s i ∧ Valid (h.Pop v).2 ∧ Full h get (h.Pop v).2 ∧
      h.Len (h.Pop v).2 = h.Len s - 1 ∧ Ordered h get r (h.Pop v).2 ∧
      List.Perm (elems h get s) (elems h get (h.Pop v).2 ++ (get s i).toList) := by
  have hlv : h.Len v - 1 = h.Len s - 1 := by rw [hv.len]
  have hv0 : 0 < h.Len v := by rw [hv.len]; exact h0
  obtain ⟨hfst, -⟩ := hl.pop v hv.valid hv0
  obtain ⟨hv', hf', hlen', hbelow, helems⟩ := hl.pop_full hv.valid hv.full hv0
  rw [hlv, hlast] at helems
  refine ⟨by rw [hfst, hlv, hlast], hv', hf', by rw [hlen', hlv], ?_, ?_⟩
  · unfold Ordered
    rw [hlen', hlv]
    exact hord.congr fun k hk => hbelow k (by omega)
  · rw [← helems]
    exact hv.perm.symm

variable [IsStrictWeakOrder α r]

/-- **`heap.Push` keeps the order** and adds its element. -/
theorem Lawful.Push_spec (hs : Valid s) (hf : Full h get s) (ho : Ordered h get r s) (x : α) :
    Valid (heap.Push h s x) ∧ Full h get (heap.Push h s x) ∧ h.Len (heap.Push h s x) = h.Len s + 1 ∧
      Ordered h get r (heap.Push h s x) ∧
      List.Perm (elems h get (heap.Push h s x)) (elems h get s ++ [x]) := by
  obtain ⟨hv, hlen, -⟩ := hl.push s x hs
  obtain ⟨hf', hbelow, helems⟩ := hl.push_full hs hf x
  -- only the new element, at the end, may be before its parent
  have hu : UpReady get r (h.Push s x) (h.Len s + 1) (h.Len s) := by
    constructor
    · intro k hk0 hkn hkne
      have hk : k < h.Len s := by omega
      have hp := parent_lt hk0
      simp only [Before, hbelow k hk, hbelow (parent k) (by omega)]
      exact ho k hk0 hk (Nat.zero_le _)
    · intro _ c hc0 hcn hcp
      have := parent_lt hc0
      omega
  have hpush : heap.Push h s x = up h (h.Push s x) (h.Len s) := by
    unfold heap.Push
    dsimp only
    rw [hlen, Nat.add_sub_cancel]
  have ht := hl.up_rearranged hv hf' (by omega : h.Len s < h.Len (h.Push s x))
  rw [hpush]
  refine ⟨ht.valid, ht.full, ht.len.trans hlen, ?_, ?_⟩
  · unfold Ordered
    rw [ht.len, hlen]
    exact up_ordered hl _ hv hf' (by omega) (by omega) hu
  · rw [← helems]
    exact ht.perm

/-- **`heap.Pop` takes the root**, which no element is before, and what is left
keeps the order. -/
theorem Lawful.Pop_spec (hs : Valid s) (hf : Full h get s) (ho : Ordered h get r s) (h0 : 0 < h.Len s) :
    (heap.Pop h s).1 = get s 0 ∧ (∀ k, k < h.Len s → ¬ Before get r s k 0) ∧
      Valid (heap.Pop h s).2 ∧ Full h get (heap.Pop h s).2 ∧ h.Len (heap.Pop h s).2 = h.Len s - 1 ∧
      Ordered h get r (heap.Pop h s).2 ∧
      List.Perm (elems h get s) (elems h get (heap.Pop h s).2 ++ (get s 0).toList) := by
  have hnl : h.Len s - 1 < h.Len s := by omega
  have ht := hl.swap_rearranged hs hf h0 hnl
  obtain ⟨-, -, hget⟩ := hl.swap s 0 (h.Len s - 1) hs h0 hnl
  -- the last element is at the root now; every other edge is as it was
  have hd : DownReady get r (h.Swap s 0 (h.Len s - 1)) (h.Len s - 1) 0 0 := by
    constructor
    · intro k hk0 hkn _ hpk
      have hp := parent_lt hk0
      simp only [Before, hget, Equiv.swap_apply_of_ne_of_ne (Nat.ne_of_gt hk0) (Nat.ne_of_lt hkn),
        Equiv.swap_apply_of_ne_of_ne hpk (by omega : parent k ≠ h.Len s - 1)]
      exact ho k hk0 (by omega) (Nat.zero_le _)
    · intro h00
      exact absurd h00 (Nat.lt_irrefl 0)
  have hn : h.Len s - 1 ≤ h.Len (h.Swap s 0 (h.Len s - 1)) := by rw [ht.len]; omega
  have hlast : get (downLoop h (h.Swap s 0 (h.Len s - 1)) (h.Len s - 1) 0).1 (h.Len s - 1) = get s 0 := by
    rw [hl.get_downLoop 0 ht.valid hn (Nat.le_refl _), hget, Equiv.swap_apply_right]
  have hpop : heap.Pop h s = h.Pop (downLoop h (h.Swap s 0 (h.Len s - 1)) (h.Len s - 1) 0).1 := rfl
  rw [hpop]
  obtain ⟨hfst, hv', hf', hlen', hord, hperm⟩ :=
    hl.pop_rearranged (ht.trans (hl.downLoop_rearranged 0 ht.valid ht.full hn)) h0
      (downLoop_ordered hl 0 ht.valid ht.full hn hd) hlast
  exact ⟨hfst, OrderedFrom.not_before_root ho (fun k hk => (hf k).mpr hk), hv', hf', hlen', hord, hperm⟩

/-- **`heap.Remove` takes the element at `i`**, and what is left keeps the
order. The last element is put at `i`: when it is not before `i`'s parent,
`down` orders everything and `up` finds nothing to do; when it is, `down` finds
nothing to do and `up` orders everything. -/
theorem Lawful.Remove_spec {i : ℕ} (hs : Valid s) (hf : Full h get s) (ho : Ordered h get r s)
    (hi : i < h.Len s) :
    (heap.Remove h s i).1 = get s i ∧ Valid (heap.Remove h s i).2 ∧ Full h get (heap.Remove h s i).2 ∧
      h.Len (heap.Remove h s i).2 = h.Len s - 1 ∧ Ordered h get r (heap.Remove h s i).2 ∧
      List.Perm (elems h get s) (elems h get (heap.Remove h s i).2 ++ (get s i).toList) := by
  by_cases hin : h.Len s - 1 = i
  · -- the last element: `Remove` pops it
    subst hin
    rw [Remove_last]
    exact hl.pop_rearranged (Rearranged.refl hs hf) (by omega) (OrderedFrom.mono ho (by omega)) rfl
  have hnl : h.Len s - 1 < h.Len s := by omega
  have hin' : i < h.Len s - 1 := by omega
  have ht := hl.swap_rearranged hs hf hi hnl
  obtain ⟨-, -, hget⟩ := hl.swap s i (h.Len s - 1) hs hi hnl
  have hn : h.Len s - 1 ≤ h.Len (h.Swap s i (h.Len s - 1)) := by rw [ht.len]; omega
  -- positions other than `i` and the last hold what they held
  have hother : ∀ k, k ≠ i → k < h.Len s - 1 → get (h.Swap s i (h.Len s - 1)) k = get s k :=
    fun k hki hkn => by rw [hget, Equiv.swap_apply_of_ne_of_ne hki (Nat.ne_of_lt hkn)]
  have hlast : get (h.Swap s i (h.Len s - 1)) (h.Len s - 1) = get s i := by
    rw [hget, Equiv.swap_apply_right]
  -- no child of `i` is before `i`'s parent, which the element at `i` was not before
  have hgrand : 0 < i → ∀ c, 0 < c → c < h.Len s - 1 → parent c = i →
      ¬ Before get r (h.Swap s i (h.Len s - 1)) c (parent i) := by
    intro hi0 c hc0 hcn hcp
    have hpi := parent_lt hi0
    have hci : c ≠ i := by have := parent_lt hc0; omega
    simp only [Before, hother c hci hcn, hother (parent i) (Nat.ne_of_lt hpi) (by omega)]
    have hci' : ¬ Before get r s c i := by
      rw [← hcp]
      exact ho c hc0 (by omega) (Nat.zero_le _)
    exact not_before_trans ((hf i).mpr hi) hci' (ho i hi0 hi (Nat.zero_le _))
  rw [Remove_of_ne h hin]
  by_cases hA : i = 0 ∨ ¬ Before get r (h.Swap s i (h.Len s - 1)) i (parent i)
  · -- the element put at `i` is not before its parent: `down` orders everything
    have hd : DownReady get r (h.Swap s i (h.Len s - 1)) (h.Len s - 1) 0 i := by
      constructor
      · intro k hk0 hkn _ hpk
        by_cases hki : k = i
        · subst hki
          exact hA.resolve_left (Nat.ne_of_gt hk0)
        · have hp := parent_lt hk0
          simp only [Before, hother k hki hkn, hother (parent k) hpk (by omega)]
          exact ho k hk0 (by omega) (Nat.zero_le _)
      · exact fun hi0 _ => hgrand hi0
    -- and `up` finds nothing to do where `down` did not move it
    have hv : (if (downLoop h (h.Swap s i (h.Len s - 1)) (h.Len s - 1) i).2 > i
        then (downLoop h (h.Swap s i (h.Len s - 1)) (h.Len s - 1) i).1
        else up h (downLoop h (h.Swap s i (h.Len s - 1)) (h.Len s - 1) i).1 i) =
        (downLoop h (h.Swap s i (h.Len s - 1)) (h.Len s - 1) i).1 := by
      split_ifs with hmoved
      · rfl
      · obtain ⟨hle, heq⟩ := downLoop_snd h (h.Swap s i (h.Len s - 1)) (h.Len s - 1) i
        rw [heq (by omega)]
        rcases hA with rfl | hnb
        · exact up_zero h _
        · refine up_of_not_less h (Bool.eq_false_iff.mpr fun hl' => hnb ?_)
          exact (hl.less _ _ _ ht.valid (by rw [ht.len]; omega) (by unfold parent; rw [ht.len]; omega)).mp hl'
    rw [hv]
    refine hl.pop_rearranged (ht.trans (hl.downLoop_rearranged i ht.valid ht.full hn)) (by omega)
      (downLoop_ordered hl i ht.valid ht.full hn hd) ?_
    rw [hl.get_downLoop i ht.valid hn (Nat.le_refl _), hlast]
  · -- it is before its parent: `down` leaves it, and `up` orders everything
    obtain ⟨hi0, hb⟩ : 0 < i ∧ Before get r (h.Swap s i (h.Len s - 1)) i (parent i) := by
      rw [not_or, not_not] at hA
      exact ⟨Nat.pos_of_ne_zero hA.1, hA.2⟩
    -- a child of `i` before the new element would be before `i`'s parent
    have hmin : ∀ c, 0 < c → c < h.Len s - 1 → parent c = i →
        ¬ Before get r (h.Swap s i (h.Len s - 1)) c i :=
      fun c hc0 hcn hcp hc => hgrand hi0 c hc0 hcn hcp (hc.trans hb)
    have hdown : downLoop h (h.Swap s i (h.Len s - 1)) (h.Len s - 1) i = (h.Swap s i (h.Len s - 1), i) := by
      by_cases hleaf : h.Len s - 1 ≤ 2 * i + 1
      · exact downLoop_of_le h hleaf
      · have hjn := lesserChild_lt h (s := h.Swap s i (h.Len s - 1)) (by omega : 2 * i + 1 < h.Len s - 1)
        obtain ⟨hpj, -⟩ := hl.lesserChild_spec (i := i) ht.valid hn rfl
        refine downLoop_of_not_less h (by omega) rfl (Bool.eq_false_iff.mpr fun hl' => ?_)
        exact hmin _ (by have := lt_lesserChild h (h.Swap s i (h.Len s - 1)) (h.Len s - 1) i; omega)
          hjn hpj ((hl.less _ _ _ ht.valid (by rw [ht.len]; omega) (by rw [ht.len]; omega)).mp hl')
    have hu : UpReady get r (h.Swap s i (h.Len s - 1)) (h.Len s - 1) i := by
      constructor
      · intro k hk0 hkn hki
        by_cases hpk : parent k = i
        · rw [hpk]
          exact hmin k hk0 hkn hpk
        · have hp := parent_lt hk0
          simp only [Before, hother k hki hkn, hother (parent k) hpk (by omega)]
          exact ho k hk0 (by omega) (Nat.zero_le _)
      · exact fun _ => hgrand hi0
    rw [hdown]
    simp only [gt_iff_lt, Nat.lt_irrefl, if_false]
    refine hl.pop_rearranged (ht.trans (hl.up_rearranged ht.valid ht.full (by rw [ht.len]; omega)))
      (by omega) (up_ordered hl i ht.valid ht.full hn hin' hu) ?_
    rw [hl.get_up ht.valid (by rw [ht.len]; omega) hin', hlast]

/-- `down` from each parent, the last first: when the order holds from `k` on,
the rounds from `k - 1` down to the root put the collection in order. -/
theorem Lawful.foldl_downLoop (k : ℕ) {t : σ} (ht : Rearranged h get Valid s t)
    (ho : OrderedFrom get r t (h.Len s) k) :
    Rearranged h get Valid s ((List.range k).reverse.foldl (fun t i => (downLoop h t (h.Len s) i).1) t) ∧
      OrderedFrom get r ((List.range k).reverse.foldl (fun t i => (downLoop h t (h.Len s) i).1) t)
        (h.Len s) 0 := by
  induction k generalizing t with
  | zero => exact ⟨ht, ho⟩
  | succ k ih =>
    rw [List.range_succ, List.reverse_append, List.reverse_singleton, List.singleton_append,
      List.foldl_cons]
    have hn : h.Len s ≤ h.Len t := Nat.le_of_eq ht.len.symm
    exact ih (ht.trans (hl.downLoop_rearranged k ht.valid ht.full hn))
      (downLoop_ordered hl k ht.valid ht.full hn ho.downReady)

/-- **`heap.Init` puts the collection in order.** -/
theorem Lawful.Init_spec (hs : Valid s) (hf : Full h get s) :
    Rearranged h get Valid s (Init h s) ∧ Ordered h get r (Init h s) := by
  have hinit : Init h s =
      (List.range (h.Len s / 2)).reverse.foldl (fun t i => (downLoop h t (h.Len s) i).1) s := rfl
  obtain ⟨hr, ho⟩ := hl.foldl_downLoop _ (Rearranged.refl hs hf) (orderedFrom_half s (h.Len s))
  rw [hinit]
  refine ⟨hr, ?_⟩
  unfold Ordered
  rwa [hr.len]

end Functions

end heap
