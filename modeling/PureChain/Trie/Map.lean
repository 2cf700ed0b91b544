import Mathlib.Logic.Function.Basic
import PureChain.Lib.PrefixFree
import PureChain.Trie.Trie

/-!
# The map a trie node stands for

`node.lookup` is the value a node holds at a key, `[]` where it holds none. A
value node answers only where the key has run out. Two facts make `tryGet`
answer `lookup`.

* **The shape** (`node.Canon`). A short node has a nonempty key and a full node
  or value node below it. A full node has seventeen children and at least two of
  them are not nil. A value node holds a nonempty value.
* **The keys** (`HexKeys`). The keys below a node form a prefix-free set of
  nibble strings, and `16` can only end a key. This is what `keybytesToHex`
  gives at the root (`hexKeys_keybytesToHex`), and it passes down every edge.

On nodes of that shape and keys of that set, `tryGet` answers `lookup`
(`tryGet_eq`). A node of that shape is the only one with its map
(`node.eq_of_lookup_eq`). The argument: only a value node holds a value at the
empty key. A short node's key starts every key below it, and the node below has
no nibble that starts all of its keys. A full node's children are read off its
map one nibble at a time. So a trie of the invariant (`Trie.Inv`) is
determined by the map it stands for (`Trie.Inv.eq_of_contents_eq`).
-/

namespace PureChain

namespace trie

open PrefixCode node

/-! ### The map a node stands for -/

namespace node

/-- The value a node holds at a key, `[]` where it holds none. A value node
answers only where the key has run out. -/
def lookup (n : node) (key : List UInt8) : List UInt8 :=
  match n, key with
  | nil, _ => []
  | valueNode v, key => if key = [] then v else []
  | shortNode k c, key => if k <+: key then lookup c (key.drop k.length) else []
  | fullNode _, [] => []
  | fullNode cs, i :: key =>
    match _h : cs[i.toNat]? with
    | none => []
    | some c => lookup c key
termination_by sizeOf n
decreasing_by
  all_goals first | decreasing_tactic | (apply sizeOf_lt_of_getElem?; assumption)

-- the equations of `lookup`, made once here for the lemmas below
attribute [local grind] lookup

@[simp] theorem lookup_nil (key : List UInt8) : nil.lookup key = [] := by
  rw [lookup]

theorem lookup_valueNode (v key : List UInt8) : (valueNode v).lookup key = if key = [] then v else [] := by
  rw [lookup]

theorem lookup_shortNode (k : List UInt8) (c : node) (key : List UInt8) :
    (shortNode k c).lookup key = if k <+: key then c.lookup (key.drop k.length) else [] := by
  rw [lookup]

@[simp] theorem lookup_fullNode_nil (cs : List node) : (fullNode cs).lookup [] = [] := by
  rw [lookup]

theorem lookup_fullNode_cons (cs : List node) (i : UInt8) (key : List UInt8) :
    (fullNode cs).lookup (i :: key) = (cs.getD i.toNat nil).lookup key := by
  rw [lookup, List.getD_eq_getElem?_getD]
  split <;> simp_all

theorem lookup_shortNode_append (k : List UInt8) (c : node) (s : List UInt8) :
    (shortNode k c).lookup (k ++ s) = c.lookup s := by
  rw [lookup_shortNode, if_pos (List.prefix_append k s), List.drop_left]

theorem lookup_shortNode_valueNode (k v s : List UInt8) :
    (shortNode k (valueNode v)).lookup s = if s = k then v else [] := by
  rw [lookup_shortNode]
  by_cases hks : k <+: s
  · obtain ⟨t, rfl⟩ := hks
    rw [if_pos (List.prefix_append k t), List.drop_left, lookup_valueNode]
    simp
  · rw [if_neg hks, if_neg (fun h => hks (by rw [h]))]

/-- A short node with an empty key is its child. -/
theorem lookup_shortNode_nil_key (c : node) : (shortNode [] c).lookup = c.lookup := by
  funext s
  simp [lookup_shortNode]

/-- Two short nodes in a row read as one, with the keys joined. -/
theorem lookup_shortNode_shortNode (k k' : List UInt8) (c : node) :
    (shortNode k (shortNode k' c)).lookup = (shortNode (k ++ k') c).lookup := by
  funext s
  rw [lookup_shortNode k, lookup_shortNode (k ++ k')]
  by_cases hk : k <+: s
  · obtain ⟨t, rfl⟩ := hk
    have hdrop : (k ++ t).drop (k ++ k').length = t.drop k'.length := by
      rw [List.length_append, ← List.drop_drop, List.drop_left]
    rw [if_pos (List.prefix_append k t), List.drop_left, lookup_shortNode, hdrop]
    simp only [List.prefix_append_right_inj]
  · rw [if_neg hk, if_neg (fun h => hk ((List.prefix_append k k').trans h))]

/-- A short node over a child whose map is updated at `r` is updated at `k ++ r`. -/
theorem lookup_shortNode_update {k r v : List UInt8} {c c' : node}
    (h : c'.lookup = Function.update c.lookup r v) :
    (shortNode k c').lookup = Function.update (shortNode k c).lookup (k ++ r) v := by
  funext s
  rw [lookup_shortNode, Function.update_apply, lookup_shortNode]
  by_cases hk : k <+: s
  · obtain ⟨t, rfl⟩ := hk
    rw [if_pos (List.prefix_append k t), List.drop_left, h, Function.update_apply]
    simp only [List.append_cancel_left_eq, List.prefix_append, ↓reduceIte]
  · have hne : s ≠ k ++ r := fun he => hk (he ▸ List.prefix_append k r)
    rw [if_neg hk, if_neg hne, if_neg hk]

/-- A full node whose child at `i` has its map updated at `r` is updated at `i :: r`. -/
theorem lookup_fullNode_set {cs : List node} {i : UInt8} {r v : List UInt8} {c' : node}
    (hi : i.toNat < cs.length) (h : c'.lookup = Function.update (cs.getD i.toNat nil).lookup r v) :
    (fullNode (cs.set i.toNat c')).lookup = Function.update (fullNode cs).lookup (i :: r) v := by
  funext s
  rw [Function.update_apply]
  cases s with
  | nil => simp
  | cons j s =>
    rw [lookup_fullNode_cons, lookup_fullNode_cons, List.getD_eq_getElem?_getD, List.getElem?_set]
    by_cases hj : i = j
    · subst hj
      rw [if_pos rfl, if_pos hi, Option.getD_some, h, Function.update_apply]
      simp
    · have hj' : i.toNat ≠ j.toNat := fun he => hj (UInt8.toNat_inj.mp he)
      rw [if_neg hj', ← List.getD_eq_getElem?_getD, if_neg (by simp [Ne.symm hj])]

end node

/-! ### The shape of a trie's nodes -/

namespace node

/-- **The shape every node of a trie has**: a value node holds a value, a short
node has a key and a full node or value node below it, and a full node has
seventeen children of which at least two are not nil. -/
inductive Canon : node → Prop
  | nil : Canon nil
  | valueNode {v : List UInt8} : v ≠ [] → Canon (valueNode v)
  | shortNode {k : List UInt8} {c : node} : k ≠ [] → c.isFullOrValue → Canon c → Canon (shortNode k c)
  | fullNode {cs : List node} : cs.length = 17 → 2 ≤ cs.countP (fun c => !c.isNil) →
      (∀ c ∈ cs, Canon c) → Canon (fullNode cs)

/-- The keys a node holds a value at lie in `K`. -/
def KeysIn (K : Set (List UInt8)) (n : node) : Prop := ∀ s, n.lookup s ≠ [] → s ∈ K

theorem toNat_toUInt8 {j : ℕ} (h : j < 17) : j.toUInt8.toNat = j := by
  simp [Nat.toUInt8, Nat.mod_eq_of_lt (by omega : j < 256)]

/-- A node of the shape that is not nil holds some value. -/
theorem Canon.exists_lookup {n : node} (hc : n.Canon) (hn : n.isNil = false) : ∃ s, n.lookup s ≠ [] := by
  induction hc with
  | nil => simp [isNil] at hn
  | valueNode hv => exact ⟨[], by simpa [lookup_valueNode] using hv⟩
  | @shortNode k c _ hfv _ ih =>
    obtain ⟨s, hs⟩ := ih (isNil_of_isFullOrValue hfv)
    exact ⟨k ++ s, by rwa [lookup_shortNode_append]⟩
  | @fullNode cs hlen hcount _ ih =>
    obtain ⟨c, hc, hcn⟩ := List.countP_pos_iff.mp (by omega : 0 < cs.countP (fun c => !c.isNil))
    obtain ⟨j, hj, rfl⟩ := List.mem_iff_getElem.mp hc
    obtain ⟨s, hs⟩ := ih _ hc (by simpa using hcn)
    refine ⟨j.toUInt8 :: s, ?_⟩
    rwa [lookup_fullNode_cons, toNat_toUInt8 (hlen ▸ hj), List.getD_eq_getElem _ _ hj]

theorem KeysIn.shortNode {K : Set (List UInt8)} {k : List UInt8} {c : node} (h : (shortNode k c).KeysIn K) :
    c.KeysIn (after K k) := fun s hs => h (k ++ s) (by rwa [lookup_shortNode_append])

theorem KeysIn.fullNode {K : Set (List UInt8)} {cs : List node} (h : (fullNode cs).KeysIn K) (i : UInt8) :
    (cs.getD i.toNat nil).KeysIn (after K [i]) := fun s hs => h (i :: s) (by rwa [lookup_fullNode_cons])

/-- A map update at a key of `K` keeps the keys in `K`. -/
theorem KeysIn.update {K : Set (List UInt8)} {n n' : node} {key v : List UInt8} (h : n.KeysIn K)
    (hkey : key ∈ K) (hl : n'.lookup = Function.update n.lookup key v) : n'.KeysIn K := by
  intro s hs
  rw [hl, Function.update_apply] at hs
  split_ifs at hs with hsk
  · exact hsk ▸ hkey
  · exact h s hs

/-- Below a short node or a full node the key cannot have run out. -/
theorem nil_not_mem {K : Set (List UInt8)} (hK : PrefixFree K) {n : node} (hc : n.Canon) (hk : n.KeysIn K)
    (hn : n.isNil = false) (h0 : n.lookup [] = []) : [] ∉ K := by
  intro hK0
  obtain ⟨s, hs⟩ := hc.exists_lookup hn
  have hs0 : s = [] := hK.eq_nil hK0 (hk s hs)
  exact hs (hs0 ▸ h0)

end node

/-! ### Hex keys -/

/-- What the proofs need of the keys below a node: a prefix-free set of nibble
strings, in which the terminator `16` can only end a key. -/
structure HexKeys (K : Set (List UInt8)) : Prop where
  prefixFree : PrefixFree K
  le_sixteen : ∀ k ∈ K, ∀ x ∈ k, x ≤ 16
  terminator : ∀ p s, p ++ 16 :: s ∈ K → s = []

/-- The keys below an edge labelled `p`. -/
theorem HexKeys.after {K : Set (List UInt8)} (hK : HexKeys K) (p : List UInt8) : HexKeys (after K p) where
  prefixFree := hK.prefixFree.after p
  le_sixteen k hk x hx := hK.le_sixteen _ hk x (List.mem_append_right p hx)
  terminator q s h := hK.terminator (p ++ q) s (by rwa [mem_after, ← List.append_assoc] at h)

/-- Below a nibble string, before the terminator, every position holds a nibble. -/
theorem getElem_append_terminator_lt {ns : List UInt8} (hns : ∀ x ∈ ns, x < 16) {i : ℕ} (hi : i < ns.length)
    (hi16 : i < (ns ++ [16]).length) : (ns ++ [16])[i] < 16 := by
  rw [List.getElem_append_left hi]
  exact hns _ (List.getElem_mem hi)

/-- **The keys `keybytesToHex` writes are hex keys.** -/
theorem hexKeys_keybytesToHex : HexKeys (Set.range keybytesToHex) := by
  have hnib : ∀ k : List UInt8, ∀ x ∈ k.flatMap nibbles, x < 16 := by
    intro k x hx
    obtain ⟨b, -, hb⟩ := List.mem_flatMap.mp hx
    simp only [nibbles, List.mem_cons, List.not_mem_nil, or_false] at hb
    rcases hb with rfl | rfl
    · exact div_16_lt b
    · exact mod_16_lt b
  refine ⟨?_, ?_, ?_⟩
  · rintro _ ⟨a, rfl⟩ _ ⟨b, rfl⟩ hab
    simp only [keybytesToHex_eq] at hab ⊢
    by_cases hlt : (a.flatMap nibbles).length < (b.flatMap nibbles).length
    · -- the terminator of the shorter key would face a nibble of the longer
      have h16 := hab.getElem (i := (a.flatMap nibbles).length) (by simp)
      have hlt16 := getElem_append_terminator_lt (hnib b) hlt (by rw [List.length_append]; omega)
      simp only [← h16, List.getElem_append_right (Nat.le_refl _), Nat.sub_self,
        List.getElem_singleton] at hlt16
      exact absurd hlt16 (by decide)
    · have hle := hab.length_le
      simp only [List.length_append] at hle
      exact hab.eq_of_length (by simp only [List.length_append]; omega)
  · rintro _ ⟨k, rfl⟩ x hx
    rw [keybytesToHex_eq, List.mem_append, List.mem_singleton] at hx
    rcases hx with hx | rfl
    · have := UInt8.lt_iff_toNat_lt.mp (hnib k x hx)
      exact UInt8.le_iff_toNat_le.mpr (by simp only [UInt8.reduceToNat] at this ⊢; omega)
    · decide
  · rintro p s ⟨k, hk⟩
    rw [keybytesToHex_eq] at hk
    by_contra hs
    have hlen := congrArg List.length hk
    simp only [List.length_append, List.length_cons, List.length_nil] at hlen
    have hs0 : 0 < s.length := List.length_pos_iff.mpr hs
    have hp : p.length < (k.flatMap nibbles).length := by omega
    have hlt16 := getElem_append_terminator_lt (hnib k) hp (by rw [List.length_append]; omega)
    rw [List.getElem_of_eq hk] at hlt16
    simp at hlt16

/-! ### `tryGet` reads the map -/

theorem toNat_lt_of_le_sixteen {x : UInt8} (h : x ≤ 16) : x.toNat < 17 :=
  Nat.lt_succ_of_le (UInt8.le_iff_toNat_le.mp h)

/-- `tryGet`'s test at a short node with a key: the key read from `pos` does not
go on with it. -/
theorem shortNode_miss_iff {k : List UInt8} (hk : k ≠ []) (key : List UInt8) (pos : ℕ) :
    ((key.length : ℤ) - pos < k.length ∨ k ≠ (key.drop pos).take k.length) ↔ ¬k <+: key.drop pos := by
  rw [List.prefix_iff_eq_take]
  have hk0 : 0 < k.length := List.length_pos_iff.mpr hk
  constructor
  · rintro (hlt | hne) heq
    · have := congrArg List.length heq
      rw [List.length_take, List.length_drop] at this
      omega
    · exact hne heq
  · exact Or.inr

/-- **`tryGet` answers the map** of a node of the shape, at a key of its set. -/
theorem tryGet_eq {K : Set (List UInt8)} (hK : HexKeys K) {n : node} (hc : n.Canon) (hk : n.KeysIn K)
    {key : List UInt8} {pos : ℕ} (hkey : key.drop pos ∈ K) : tryGet n key pos = some (n.lookup (key.drop pos)) := by
  induction hc generalizing K pos with
  | nil => rw [tryGet, lookup_nil]
  | @valueNode v hv =>
    -- a value node holds its value at `[]`, so the key has run out
    have h0 : [] ∈ K := hk [] (by rwa [lookup_valueNode, if_pos rfl])
    rw [tryGet, lookup_valueNode, if_pos (hK.prefixFree.eq_nil h0 hkey)]
  | @shortNode k c hk0 _ _ ih =>
    rw [tryGet]
    simp only [shortNode_miss_iff hk0]
    by_cases hpre : k <+: key.drop pos
    · obtain ⟨rest, hrest⟩ := hpre
      have hdrop : key.drop (pos + k.length) = rest := by
        rw [← List.drop_drop, ← hrest, List.drop_left]
      rw [if_neg (not_not.mpr ⟨rest, hrest⟩), lookup_shortNode, if_pos ⟨rest, hrest⟩, ← hrest, List.drop_left,
        ih (hK.after k) hk.shortNode (by rw [hdrop, mem_after, hrest]; exact hkey), hdrop]
    · rw [if_pos hpre, lookup_shortNode, if_neg hpre]
  | @fullNode cs hlen hcount hall ih =>
    -- below a full node the key goes on with a nibble
    obtain ⟨i, rest, hdrop⟩ : ∃ i rest, key.drop pos = i :: rest := by
      have := nil_not_mem hK.prefixFree (Canon.fullNode hlen hcount hall) hk rfl (lookup_fullNode_nil cs)
      cases h : key.drop pos with
      | nil => exact absurd (h ▸ hkey) this
      | cons i rest => exact ⟨i, rest, rfl⟩
    have hget : key[pos]? = some i := by
      rw [← Nat.add_zero pos, ← List.getElem?_drop, hdrop]
      rfl
    have hi : i.toNat < cs.length :=
      hlen ▸ toNat_lt_of_le_sixteen (hK.le_sixteen _ hkey i (by rw [hdrop]; exact List.mem_cons_self))
    have hrest : key.drop (pos + 1) = rest := by rw [← List.drop_drop, hdrop, List.drop_one, List.tail_cons]
    rw [tryGet, hget]
    dsimp only
    rw [List.getElem?_eq_getElem hi]
    dsimp only
    have hmem : cs[i.toNat] ∈ cs := List.getElem_mem hi
    have hki := hk.fullNode i
    rw [List.getD_eq_getElem _ _ hi] at hki
    rw [hdrop, lookup_fullNode_cons, List.getD_eq_getElem _ _ hi,
      ih _ hmem (hK.after [i]) hki (by rw [hrest, mem_after, List.singleton_append, ← hdrop]; exact hkey), hrest]

namespace node

/-! ### A node of the shape is the only one with its map -/

/-- Of two children that are not nil, one is not at `a`. -/
theorem exists_ne_of_two_le_countP {cs : List node} (h : 2 ≤ cs.countP (fun c => !c.isNil)) (a : ℕ) :
    ∃ j < cs.length, j ≠ a ∧ (cs.getD j nil).isNil = false := by
  have hpos : 0 < (cs.set a nil).countP (fun c => !c.isNil) := by
    by_cases ha : a < cs.length
    · rw [List.countP_set ha]
      split_ifs <;> omega
    · rw [List.set_eq_of_length_le (by omega)]
      omega
  obtain ⟨c, hc, hcn⟩ := List.countP_pos_iff.mp hpos
  obtain ⟨j, hj', hjc⟩ := List.mem_iff_getElem.mp hc
  have hja : j ≠ a := by
    rintro rfl
    rw [List.getElem_set_self] at hjc
    simp [← hjc] at hcn
  have hj : j < cs.length := by rwa [List.length_set] at hj'
  refine ⟨j, hj, hja, ?_⟩
  rw [List.getD_eq_getElem _ _ hj, ← List.getElem_set_ne (Ne.symm hja) hj', hjc]
  simpa using hcn

/-- **No nibble starts every key below a full node or a value node** of the
shape: a value node holds its value at the empty key, and a full node has two
children. -/
theorem Canon.exists_lookup_not_head {c : node} (hc : c.Canon) (hfv : c.isFullOrValue) (a : UInt8) :
    ∃ s, c.lookup s ≠ [] ∧ ¬[a] <+: s := by
  cases hc with
  | valueNode hv => exact ⟨[], by rwa [lookup_valueNode, if_pos rfl], by simp⟩
  | @fullNode cs hlen hcount hall =>
    obtain ⟨j, hj, hja, hjn⟩ := exists_ne_of_two_le_countP hcount a.toNat
    have hcj : (cs.getD j node.nil).Canon := by
      rw [List.getD_eq_getElem _ _ hj]
      exact hall _ (List.getElem_mem hj)
    obtain ⟨s, hs⟩ := hcj.exists_lookup hjn
    refine ⟨j.toUInt8 :: s, by rwa [lookup_fullNode_cons, toNat_toUInt8 (hlen ▸ hj)], ?_⟩
    rw [List.singleton_prefix_cons_iff]
    rintro rfl
    exact hja (toNat_toUInt8 (hlen ▸ hj)).symm
  | nil => simp [isFullOrValue] at hfv
  | shortNode => simp [isFullOrValue] at hfv

/-- Two short nodes of the shape with one map have one key: a longer key
would start every key below the shorter one with the same nibble. -/
theorem shortNode_key_eq {k k' : List UInt8} {c c' : node} (hc : c.Canon) (hfv : c.isFullOrValue)
    (h : (shortNode k c).lookup = (shortNode k' c').lookup) (hle : k.length ≤ k'.length) : k = k' := by
  have hpre : ∀ s, c.lookup s ≠ [] → k' <+: k ++ s := by
    intro s hs
    have hs' : (shortNode k' c').lookup (k ++ s) ≠ [] := by rwa [← h, lookup_shortNode_append]
    rw [lookup_shortNode] at hs'
    by_contra hn
    exact hs' (if_neg hn)
  obtain ⟨s, hs⟩ := hc.exists_lookup (isNil_of_isFullOrValue hfv)
  obtain ⟨t, rfl, -⟩ := eq_append_of_prefix_append (hpre s hs) hle
  cases t with
  | nil => exact (List.append_nil k).symm
  | cons a t =>
    obtain ⟨s₁, hs₁, hna⟩ := hc.exists_lookup_not_head hfv a
    obtain ⟨u, hu⟩ := hpre s₁ hs₁
    rw [List.append_assoc] at hu
    have hu' := List.append_cancel_left hu
    exact absurd ⟨t ++ u, by rw [← hu']; rfl⟩ hna

/-- A short node of the shape and a full node of the shape have different maps:
every key of the short node starts with its first nibble, and the full node has
a key that does not. -/
theorem lookup_shortNode_ne_fullNode {k : List UInt8} {c : node} {cs : List node} (hk0 : k ≠ [])
    (hcs : (fullNode cs).Canon) : (shortNode k c).lookup ≠ (fullNode cs).lookup := by
  intro h
  obtain ⟨a, k, rfl⟩ := List.exists_cons_of_ne_nil hk0
  obtain ⟨s, hs, hna⟩ := hcs.exists_lookup_not_head rfl a
  rw [← h, lookup_shortNode] at hs
  split_ifs at hs with hpre
  · exact hna ((List.prefix_append [a] k).trans hpre)
  · exact hs rfl

/-- **A node of the shape is the only one with its map.** -/
theorem eq_of_lookup_eq {n m : node} (hn : n.Canon) (hm : m.Canon) (h : n.lookup = m.lookup) : n = m := by
  -- only a value node holds a value at the empty key
  have hnil_key : ∀ {x : node}, x.Canon → x.lookup [] ≠ [] → ∃ v, x = valueNode v := by
    intro x hx hx0
    cases hx with
    | valueNode => exact ⟨_, rfl⟩
    | nil => simp at hx0
    | shortNode hk0 => simp [lookup_shortNode, hk0] at hx0
    | fullNode => simp at hx0
  induction hn generalizing m with
  | nil =>
    cases hmn : m.isNil
    · obtain ⟨s, hs⟩ := hm.exists_lookup hmn
      rw [← h, lookup_nil] at hs
      exact absurd rfl hs
    · exact (eq_nil_of_isNil hmn).symm
  | @valueNode v hv =>
    obtain ⟨w, rfl⟩ := hnil_key hm (by rwa [← h, lookup_valueNode, if_pos rfl])
    have := congrFun h []
    rw [lookup_valueNode, lookup_valueNode, if_pos rfl, if_pos rfl] at this
    rw [this]
  | @shortNode k c hk0 hfv hc ih =>
    have hshort := Canon.shortNode hk0 hfv hc
    cases hm with
    | nil =>
      obtain ⟨s, hs⟩ := hshort.exists_lookup rfl
      exact absurd (by rw [h, lookup_nil]) hs
    | valueNode hw =>
      have := congrFun h []
      rw [lookup_shortNode, if_neg (by simpa using hk0), lookup_valueNode, if_pos rfl] at this
      exact absurd this.symm hw
    | @shortNode k' c' hk0' hfv' hc' =>
      have hkk : k = k' := by
        rcases le_total k.length k'.length with hle | hle
        · exact shortNode_key_eq hc hfv h hle
        · exact (shortNode_key_eq hc' hfv' h.symm hle).symm
      subst hkk
      have hcc : c.lookup = c'.lookup := by
        funext s
        rw [← lookup_shortNode_append k c, h, lookup_shortNode_append]
      rw [ih hc' hcc]
    | fullNode hlen hcount hall => exact absurd h (lookup_shortNode_ne_fullNode hk0 (Canon.fullNode hlen hcount hall))
  | @fullNode cs hlen hcount hall ih =>
    have hfull := Canon.fullNode hlen hcount hall
    cases hm with
    | nil =>
      obtain ⟨s, hs⟩ := hfull.exists_lookup rfl
      exact absurd (by rw [h, lookup_nil]) hs
    | valueNode hw =>
      have := congrFun h []
      rw [lookup_fullNode_nil, lookup_valueNode, if_pos rfl] at this
      exact absurd this.symm hw
    | shortNode hk0 => exact absurd h.symm (lookup_shortNode_ne_fullNode hk0 hfull)
    | @fullNode cs' hlen' hcount' hall' =>
      -- the children have one map each, so they are the same children
      have hchild : ∀ j < 17, cs.getD j nil = cs'.getD j nil := by
        intro j hj
        have hmem : cs.getD j nil ∈ cs := by
          rw [List.getD_eq_getElem _ _ (hlen ▸ hj)]
          exact List.getElem_mem _
        have hmem' : cs'.getD j nil ∈ cs' := by
          rw [List.getD_eq_getElem _ _ (hlen' ▸ hj)]
          exact List.getElem_mem _
        refine ih _ hmem (hall' _ hmem') ?_
        funext s
        have := congrFun h (j.toUInt8 :: s)
        rwa [lookup_fullNode_cons, lookup_fullNode_cons, toNat_toUInt8 hj] at this
      refine congrArg fullNode (List.ext_getElem (hlen.trans hlen'.symm) fun j hj hj' => ?_)
      have := hchild j (hlen ▸ hj)
      rwa [List.getD_eq_getElem _ _ hj, List.getD_eq_getElem _ _ hj'] at this

end node

/-! ### The trie's map -/

theorem keybytesToHex_injective : Function.Injective keybytesToHex := fun a b h => by
  have := hexToKeybytes_keybytesToHex a
  rw [h, hexToKeybytes_keybytesToHex] at this
  exact (Option.some.inj this).symm

namespace Trie

/-- The map a trie stands for: the value at each key, `[]` where there is none. -/
def contents (t : Trie) (key : List UInt8) : List UInt8 := t.root.lookup (keybytesToHex key)

/-- **The invariant of a trie**: its root has the shape, and it holds values
only at keys that `keybytesToHex` writes. -/
structure Inv (t : Trie) : Prop where
  canon : t.root.Canon
  keys : t.root.KeysIn (Set.range keybytesToHex)

theorem Inv_empty : empty.Inv := ⟨Canon.nil, fun s hs => absurd (lookup_nil s) hs⟩

theorem contents_empty : empty.contents = fun _ => [] := by
  funext key
  exact lookup_nil _

/-- **`TryGet` answers the trie's map.** -/
theorem Inv.TryGet_eq {t : Trie} (ht : t.Inv) (key : List UInt8) : t.TryGet key = some (t.contents key) :=
  tryGet_eq hexKeys_keybytesToHex ht.canon ht.keys (by rw [List.drop_zero]; exact ⟨key, rfl⟩)

/-- **A trie of the invariant is determined by its map.** -/
theorem Inv.eq_of_contents_eq {t t' : Trie} (ht : t.Inv) (ht' : t'.Inv) (h : t.contents = t'.contents) :
    t = t' := by
  have hroot : t.root.lookup = t'.root.lookup := by
    funext s
    by_cases hs : s ∈ Set.range keybytesToHex
    · obtain ⟨key, rfl⟩ := hs
      exact congrFun h key
    · -- off the hex keys neither root holds a value
      have h₁ : t.root.lookup s = [] := by_contra fun h₁ => hs (ht.keys s h₁)
      have h₂ : t'.root.lookup s = [] := by_contra fun h₂ => hs (ht'.keys s h₂)
      rw [h₁, h₂]
  have := eq_of_lookup_eq ht.canon ht'.canon hroot
  cases t
  cases t'
  exact congrArg Trie.mk this

end Trie

end trie

end PureChain
