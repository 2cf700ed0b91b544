import Mathlib.Data.List.Basic

/-!
# Merkle roots of a list of digests

A Merkle root of a list of digests is built level by level: a level pairs
adjacent digests under the node hash, and an odd level pairs its last digest
with itself (`Merkle.pairUp`); a single digest is the root (`Merkle.root`).
The empty list has no root.

Each level has half as many digests as the one below, rounded up
(`Merkle.length_pairUp`), so a list of at least two digests gets strictly
shorter (`Merkle.length_pairUp_lt`), which is what makes the levels reach a
single digest, and the root is that of the level above (`Merkle.root_pairUp`).
-/

namespace Merkle

variable {δ : Type*} (hn : δ → δ → δ)

/-- One level up: adjacent digests paired under `hn`, the last one with itself
on an odd level. -/
def pairUp : List δ → List δ
  | [] => []
  | [a] => [hn a a]
  | a :: b :: rest => hn a b :: pairUp rest

@[simp] theorem pairUp_nil : pairUp hn [] = [] := rfl

@[simp] theorem pairUp_singleton (a : δ) : pairUp hn [a] = [hn a a] := rfl

@[simp] theorem pairUp_cons_cons (a b : δ) (rest : List δ) :
    pairUp hn (a :: b :: rest) = hn a b :: pairUp hn rest := rfl

/-- **A level has half as many digests, rounded up.** -/
theorem length_pairUp : ∀ l : List δ, (pairUp hn l).length = (l.length + 1) / 2
  | [] => by simp
  | [_] => by simp
  | _ :: _ :: rest => by
    rw [pairUp_cons_cons, List.length_cons, length_pairUp rest]
    simp only [List.length_cons]
    omega

theorem length_pairUp_lt {l : List δ} (h : 2 ≤ l.length) : (pairUp hn l).length < l.length := by
  rw [length_pairUp]
  omega

theorem pairUp_ne_nil {l : List δ} (h : l ≠ []) : pairUp hn l ≠ [] := by
  rw [← List.length_pos_iff, length_pairUp]
  have := List.length_pos_iff.mpr h
  omega

/-- The root: levels paired up until a single digest is left; `none` for the
empty list. -/
def root : List δ → Option δ
  | [] => none
  | [a] => some a
  | a :: b :: rest => root (pairUp hn (a :: b :: rest))
termination_by l => l.length
decreasing_by exact length_pairUp_lt hn (by simp)

@[simp] theorem root_nil : root hn [] = none := by rw [root]

@[simp] theorem root_singleton (a : δ) : root hn [a] = some a := by rw [root]

/-- **The root of two digests or more is the root of the level above.** -/
theorem root_pairUp {l : List δ} (h : 2 ≤ l.length) : root hn l = root hn (pairUp hn l) := by
  match l, h with
  | a :: b :: rest, _ => rw [root]

/-- Every non-empty list has a root. -/
theorem root_isSome : ∀ {l : List δ}, l ≠ [] → (root hn l).isSome
  | [], h => absurd rfl h
  | [a], _ => by rw [root_singleton]; rfl
  | a :: b :: rest, _ => by
    rw [root_pairUp hn (by simp)]
    exact root_isSome (pairUp_ne_nil hn (List.cons_ne_nil _ _))
termination_by l => l.length
decreasing_by exact length_pairUp_lt hn (by simp)

end Merkle
