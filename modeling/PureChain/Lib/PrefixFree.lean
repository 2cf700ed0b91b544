import Mathlib.Data.Set.Defs
import Mathlib.Data.List.Infix

/-!
# Prefix-free sets of words

A set of words is prefix-free when none of its words is a proper prefix of
another. A trie keyed by such a set never has to hold a value at a node and
more values below it. Going down an edge labelled `p` leaves the words that go on
from `p`, with `p` taken off (`PrefixCode.after`). That set is prefix-free
again (`PrefixCode.PrefixFree.after`), and this is what lets an invariant stated
at the root be carried down to every node. A prefix-free set that holds the
empty word holds nothing else (`PrefixCode.PrefixFree.eq_nil`): at that node the
key has run out.
-/

namespace PrefixCode

variable {α : Type*}

/-- The words of `K` that go on from `p`, with `p` taken off. -/
def after (K : Set (List α)) (p : List α) : Set (List α) := {s | p ++ s ∈ K}

/-- No word of `K` is a proper prefix of another. -/
def PrefixFree (K : Set (List α)) : Prop := ∀ a ∈ K, ∀ b ∈ K, a <+: b → a = b

variable {K : Set (List α)}

@[simp] theorem mem_after {p s : List α} : s ∈ after K p ↔ p ++ s ∈ K := Iff.rfl

theorem after_after (p q : List α) : after (after K p) q = after K (p ++ q) := by
  ext s
  simp only [mem_after, List.append_assoc]

theorem PrefixFree.after (h : PrefixFree K) (p : List α) : PrefixFree (after K p) := by
  intro a ha b hb hab
  have := h (p ++ a) ha (p ++ b) hb ((List.prefix_append_right_inj p).mpr hab)
  exact List.append_cancel_left this

/-- **Where the key runs out, it is the only key.** -/
theorem PrefixFree.eq_nil (h : PrefixFree K) (h0 : [] ∈ K) {s : List α} (hs : s ∈ K) : s = [] :=
  (h [] h0 s hs List.nil_prefix).symm

/-- A word at least as long as `k` that is a prefix of `k ++ s` goes on from `k`
with a prefix of `s`. -/
theorem eq_append_of_prefix_append {k k' s : List α} (h : k' <+: k ++ s) (hl : k.length ≤ k'.length) :
    ∃ t, k' = k ++ t ∧ t <+: s := by
  obtain ⟨t, rfl⟩ := List.prefix_of_prefix_length_le (List.prefix_append k s) h hl
  exact ⟨t, rfl, (List.prefix_append_right_inj k).mp h⟩

end PrefixCode
