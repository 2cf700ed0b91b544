import Mathlib.Data.List.Basic

/-!
# `container/heap`, over any collection

The package runs the binary-heap algorithms over any collection that gives the
five methods of `heap.Interface`: its length, an order on positions, a swap of
two positions, and a push and a pop at its end. Position `0` is the root and
the parent of `j` is `(j - 1) / 2`. `up` moves the element at `j` towards the
root while it is less than its parent; `down` moves the element at `i0` towards
the leaves, among the first `n`, while its lesser child is less than it.
`Push`, `Pop`, `Remove` and `Init` are built from the two.

Go's `int` positions are `ℕ` here. The only place the code relies on a
negative one is `Len - 1` of an empty collection, where `Pop` and `Remove`
swap at position `-1` and panic; that is outside the model, which swaps at `0`.
-/

namespace heap

/-- `heap.Interface`: the collection's length, order and swap (its
`sort.Interface`), and a push and a pop at its end. `Pop` returns `none` where
the Go method would return a nil. -/
structure Interface (σ α : Type) where
  Len : σ → ℕ
  Less : σ → ℕ → ℕ → Bool
  Swap : σ → ℕ → ℕ → σ
  Push : σ → α → σ
  Pop : σ → Option α × σ

variable {σ α : Type} (h : Interface σ α)

/-- `up`: the element at `j` swapped with its parent while it is less. -/
def up (s : σ) (j : ℕ) : σ :=
  -- the parent; `j = 0` is its own
  let i := (j - 1) / 2
  if _hij : i = j ∨ ¬ h.Less s j i = true then s else up (h.Swap s i j) i
termination_by j
decreasing_by omega

theorem up_zero (s : σ) : up h s 0 = s := by
  rw [up]
  simp

/-- Below the root, `up` stops at an element that is not less than its parent. -/
theorem up_of_not_less {s : σ} {j : ℕ} (hl : h.Less s j ((j - 1) / 2) = false) :
    up h s j = s := by
  rw [up, dif_pos (.inr (by simp [hl]))]

/-- and swaps one that is less with its parent, and goes on from there. -/
theorem up_of_less {s : σ} {j : ℕ} (h0 : 0 < j) (hl : h.Less s j ((j - 1) / 2) = true) :
    up h s j = up h (h.Swap s ((j - 1) / 2) j) ((j - 1) / 2) := by
  rw [up, dif_neg (by simp only [hl, not_true_eq_false, or_false]; omega)]

/-- From position `1`, `up` swaps with the root or stops. -/
theorem up_one (s : σ) : up h s 1 = if h.Less s 1 0 = true then h.Swap s 0 1 else s := by
  split
  case isTrue hl => rw [up_of_less h Nat.one_pos hl, up_zero]
  case isFalse hl => exact up_of_not_less h (Bool.of_not_eq_true hl)

/-- The loop of `down`: the collection, and where the element stopped. -/
def downLoop (s : σ) (n i : ℕ) : σ × ℕ :=
  let j1 := 2 * i + 1
  if _hj : j1 ≥ n then (s, i)
  else
    -- the lesser child
    let j := if j1 + 1 < n ∧ h.Less s (j1 + 1) j1 = true then j1 + 1 else j1
    if ¬ h.Less s j i = true then (s, i) else downLoop (h.Swap s i j) n j
termination_by n - i
decreasing_by all_goals (split <;> omega)

/-- The child of `i` that `down` compares with: the second when it is among
the first `n` and less than the first. -/
def lesserChild (s : σ) (n i : ℕ) : ℕ :=
  if 2 * i + 1 + 1 < n ∧ h.Less s (2 * i + 1 + 1) (2 * i + 1) = true then 2 * i + 1 + 1 else 2 * i + 1

theorem lt_lesserChild (s : σ) (n i : ℕ) : i < lesserChild h s n i := by
  unfold lesserChild
  split <;> omega

theorem lesserChild_lt {s : σ} {n i : ℕ} (hi : 2 * i + 1 < n) : lesserChild h s n i < n := by
  unfold lesserChild
  split <;> omega

/-- `down` stops at an element with no child among the first `n`, -/
theorem downLoop_of_le {s : σ} {n i : ℕ} (hn : n ≤ 2 * i + 1) : downLoop h s n i = (s, i) := by
  rw [downLoop, dif_pos hn]

/-- at one that its lesser child is not less than, -/
theorem downLoop_of_not_less {s : σ} {n i j : ℕ} (hi : 2 * i + 1 < n) (hj : j = lesserChild h s n i)
    (hl : h.Less s j i = false) : downLoop h s n i = (s, i) := by
  subst hj
  rw [downLoop, dif_neg (by omega)]
  simp only [lesserChild] at hl
  simp [hl]

/-- and otherwise swaps the element with that child and goes on from there. -/
theorem downLoop_of_less {s : σ} {n i j : ℕ} (hi : 2 * i + 1 < n) (hj : j = lesserChild h s n i)
    (hl : h.Less s j i = true) : downLoop h s n i = downLoop h (h.Swap s i j) n j := by
  subst hj
  rw [downLoop, dif_neg (by omega)]
  simp only [lesserChild] at hl ⊢
  simp [hl]

section Frame

variable (P : σ → Prop)

/-- **`up` swaps a position with its parent only**, at or above `j`: what
every such swap keeps, `up` keeps. -/
theorem up_induction {j : ℕ} (hswap : ∀ s k, 0 < k → k ≤ j → P s → P (h.Swap s ((k - 1) / 2) k))
    (s : σ) (hs : P s) : P (up h s j) := by
  induction s, j using up.induct h with
  | case1 s j _ hstop => rw [up, dif_pos hstop]; exact hs
  | case2 s j _ hgo ih =>
    have hj : 0 < j := by omega
    rw [up, dif_neg hgo]
    exact ih (fun s k hk hkj => hswap s k hk (by omega)) (hswap s j hj (Nat.le_refl j) hs)

/-- **`down` swaps positions below `n` only**, a parent with its child: what
every such swap keeps, the loop keeps. -/
theorem downLoop_induction {n : ℕ} (hswap : ∀ s i j, i < j → j < n → P s → P (h.Swap s i j))
    (s : σ) (i : ℕ) (hs : P s) : P (downLoop h s n i).1 := by
  induction s, i using downLoop.induct h n with
  | case1 s i _ hn =>
    rw [downLoop_of_le h hn]
    exact hs
  | case2 s i _ hn j hl =>
    rw [downLoop_of_not_less h (j := j) (by omega) rfl (Bool.of_not_eq_true hl)]
    exact hs
  | case3 s i _ hn j hl ih =>
    rw [downLoop_of_less h (j := j) (by omega) rfl (not_not.mp hl)]
    exact ih (hswap _ _ _ (lt_lesserChild h s n i) (lesserChild_lt h (by omega)) hs)

/-- Where `down` stops is at or after where it started, and there only when it
swapped nothing. -/
theorem downLoop_snd (s : σ) (n i : ℕ) :
    i ≤ (downLoop h s n i).2 ∧ ((downLoop h s n i).2 = i → (downLoop h s n i).1 = s) := by
  induction s, i using downLoop.induct h n with
  | case1 s i _ hn =>
    rw [downLoop_of_le h hn]
    exact ⟨Nat.le_refl i, fun _ => rfl⟩
  | case2 s i _ hn j hl =>
    rw [downLoop_of_not_less h (j := j) (by omega) rfl (Bool.of_not_eq_true hl)]
    exact ⟨Nat.le_refl i, fun _ => rfl⟩
  | case3 s i _ hn j hl ih =>
    have hij : i < j := lt_lesserChild h s n i
    rw [downLoop_of_less h (j := j) (by omega) rfl (not_not.mp hl)]
    exact ⟨by omega, fun heq => by omega⟩

end Frame

/-- `down`: the element at `i0` moved towards the leaves among the first `n`,
and whether it moved. -/
def down (s : σ) (i0 n : ℕ) : σ × Bool :=
  let (s, i) := downLoop h s n i0
  (s, decide (i > i0))

theorem down_fst (s : σ) (i0 n : ℕ) : (down h s i0 n).1 = (downLoop h s n i0).1 := rfl

/-- `heap.Push`: the element pushed at the end, and moved up. -/
def Push (s : σ) (x : α) : σ :=
  let s := h.Push s x
  up h s (h.Len s - 1)

/-- `heap.Pop`: the root swapped with the last element, the new root moved
down among the others, and the last element popped. -/
def Pop (s : σ) : Option α × σ :=
  let n := h.Len s - 1
  let s := h.Swap s 0 n
  let s := (down h s 0 n).1
  h.Pop s

/-- `heap.Remove`: the element at `i` swapped with the last, the one put in its
place moved down or, when it did not move, up, and the last popped. -/
def Remove (s : σ) (i : ℕ) : Option α × σ :=
  let n := h.Len s - 1
  let s :=
    if n ≠ i then
      let s := h.Swap s i n
      let (s, moved) := down h s i n
      if ¬ moved then up h s i else s
    else s
  h.Pop s

/-- `Remove` of an element before the last: the last put in its place and
moved down, or up when `down` did not move it. -/
theorem Remove_of_ne {s : σ} {i : ℕ} (hi : h.Len s - 1 ≠ i) :
    Remove h s i = h.Pop (if (downLoop h (h.Swap s i (h.Len s - 1)) (h.Len s - 1) i).2 > i
      then (downLoop h (h.Swap s i (h.Len s - 1)) (h.Len s - 1) i).1
      else up h (downLoop h (h.Swap s i (h.Len s - 1)) (h.Len s - 1) i).1 i) := by
  unfold Remove down
  simp only [ne_eq, hi, not_false_eq_true, if_true, decide_eq_true_eq]
  split_ifs <;> rfl

/-- `Remove` of the last element pops it. -/
theorem Remove_last (s : σ) : Remove h s (h.Len s - 1) = h.Pop s := by
  simp [Remove]

/-- `heap.Init`: `down` from the last parent back to the root. -/
def Init (s : σ) : σ :=
  let n := h.Len s
  (List.range (n / 2)).reverse.foldl (fun s i => (down h s i n).1) s

end heap
