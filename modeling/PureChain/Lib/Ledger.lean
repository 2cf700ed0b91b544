import Mathlib

/-!
# Ledgers of integer amounts

A ledger gives every key an integer amount, `α → ℤ`: the balances of a set of
accounts, say, where a key that was never written holds zero. Two writes are
studied here.

* `Ledger.credit f a x` adds `x` to the entry of `a`.
* `Ledger.debitClamped f a x` takes `x` off the entry of `a` when the entry is
  larger than `x`, and sets it to zero otherwise: a debit that never drives an
  entry below zero.

A batch of credits is a list of pairs of a key and an amount. Folding it into a
ledger adds to every key the sum of the amounts addressed to it
(`Ledger.foldl_credit`), whatever the order of the batch; and a ledger of
non-negative entries stays so under credits of non-negative amounts
(`Ledger.credit_nonneg`) and under clamped debits of any amount
(`Ledger.debitClamped_nonneg`). These are the two facts a proof of "no account
is ever owed a negative amount" rests on.
-/

namespace Ledger

variable {α : Type*} [DecidableEq α]

/-- Add `x` to the entry of `a`. -/
def credit (f : α → ℤ) (a : α) (x : ℤ) : α → ℤ :=
  Function.update f a (f a + x)

/-- Take `x` off the entry of `a` if the entry is larger than `x`, and set it to
zero otherwise. -/
def debitClamped (f : α → ℤ) (a : α) (x : ℤ) : α → ℤ :=
  Function.update f a (if x < f a then f a - x else 0)

/-- The sum of the amounts a batch of credits addresses to `a`. -/
def creditedTo (cs : List (α × ℤ)) (a : α) : ℤ :=
  ((cs.filter fun c => c.1 = a).map Prod.snd).sum

/-- A batch of credits, written into a ledger one after another. -/
def creditAll (f : α → ℤ) (cs : List (α × ℤ)) : α → ℤ :=
  cs.foldl (fun g c => credit g c.1 c.2) f

section Credit

variable {f : α → ℤ} {a b : α} {x : ℤ}

@[simp] theorem credit_apply : credit f a x b = f b + if b = a then x else 0 := by
  rw [credit, Function.update_apply]
  split_ifs with h
  · rw [h]
  · rw [add_zero]

@[simp] theorem debitClamped_apply :
    debitClamped f a x b = if b = a then (if x < f a then f a - x else 0) else f b := by
  rw [debitClamped, Function.update_apply]

@[simp] theorem creditedTo_nil : creditedTo ([] : List (α × ℤ)) a = 0 := rfl

@[simp] theorem creditedTo_cons (c : α × ℤ) (cs : List (α × ℤ)) :
    creditedTo (c :: cs) a = (if c.1 = a then c.2 else 0) + creditedTo cs a := by
  unfold creditedTo
  by_cases h : c.1 = a <;> simp [h]

@[simp] theorem creditedTo_append (cs ds : List (α × ℤ)) :
    creditedTo (cs ++ ds) a = creditedTo cs a + creditedTo ds a := by
  simp [creditedTo, List.filter_append]

@[simp] theorem creditAll_nil : creditAll f [] = f := rfl

@[simp] theorem creditAll_cons (c : α × ℤ) (cs : List (α × ℤ)) :
    creditAll f (c :: cs) = creditAll (credit f c.1 c.2) cs := rfl

/-- **A batch of credits adds to each key what it addresses to it.** -/
theorem foldl_credit (cs : List (α × ℤ)) (f : α → ℤ) (a : α) :
    creditAll f cs a = f a + creditedTo cs a := by
  -- the batch is read from its head, so the ledger it starts from varies
  induction cs generalizing f with
  | nil => simp
  | cons c cs ih =>
    rw [creditAll_cons, ih, credit_apply, creditedTo_cons]
    by_cases h : c.1 = a
    · simp only [h, if_true]
      omega
    · simp only [h, Ne.symm h, if_false, Int.zero_add, Int.add_zero]

/-- A batch of non-negative credits credits every key a non-negative amount. -/
theorem creditedTo_nonneg {cs : List (α × ℤ)} (hcs : ∀ c ∈ cs, 0 ≤ c.2) (a : α) :
    0 ≤ creditedTo cs a := by
  apply List.sum_nonneg
  simp only [List.mem_map, List.mem_filter]
  rintro _ ⟨c, ⟨hc, -⟩, rfl⟩
  exact hcs c hc

/-- **A batch in which at most one part credits a key** credits it at most what
that part does: a sum of non-negative terms, at most one of them non-zero, is at
most a bound of each. -/
theorem sum_le_of_pairwise_ne_zero {ι : Type*} {l : List ι} (hl : l.Nodup) {g : ι → ℤ} {c : ℤ}
    (h0 : ∀ i ∈ l, 0 ≤ g i) (hc : ∀ i ∈ l, g i ≤ c)
    (h1 : ∀ i ∈ l, ∀ j ∈ l, g i ≠ 0 → g j ≠ 0 → i = j) (hc0 : 0 ≤ c) : (l.map g).sum ≤ c := by
  induction l with
  | nil => simpa using hc0
  | cons i l ih =>
    obtain ⟨hi, hl⟩ := List.nodup_cons.mp hl
    rw [List.map_cons, List.sum_cons]
    by_cases hgi : g i = 0
    · rw [hgi, zero_add]
      exact ih hl (fun j hj => h0 j (List.mem_cons_of_mem i hj))
        (fun j hj => hc j (List.mem_cons_of_mem i hj))
        (fun j hj k hk => h1 j (List.mem_cons_of_mem i hj) k (List.mem_cons_of_mem i hk))
    · -- the head is the one non-zero term, so the rest adds up to zero
      have hrest : (l.map g).sum = 0 := by
        apply List.sum_eq_zero
        simp only [List.mem_map]
        rintro _ ⟨j, hj, rfl⟩
        by_contra hgj
        exact hi (h1 i List.mem_cons_self j (List.mem_cons_of_mem i hj) hgi hgj ▸ hj)
      rw [hrest, add_zero]
      exact hc i List.mem_cons_self

end Credit

/-! ### Ledgers of non-negative entries -/

section Nonneg

variable {f : α → ℤ} {a : α} {x : ℤ}

theorem credit_nonneg (hf : 0 ≤ f) (hx : 0 ≤ x) : 0 ≤ credit f a x := by
  intro b
  have hb : 0 ≤ f b := hf b
  show (0 : ℤ) ≤ credit f a x b
  rw [credit_apply]
  split_ifs <;> omega

/-- A clamped debit leaves no entry negative, whatever it takes off. -/
theorem debitClamped_nonneg (hf : 0 ≤ f) : 0 ≤ debitClamped f a x := by
  intro b
  have hb : 0 ≤ f b := hf b
  show (0 : ℤ) ≤ debitClamped f a x b
  rw [debitClamped_apply]
  split_ifs <;> omega

end Nonneg

end Ledger
