import PureChain.Lib.Run
import PureChain.Trie.Map

/-!
# `insert` and `delete` update the map and keep the shape

On a node of the shape whose keys lie in a hex key set, at a key of that set,
`insert` puts the value at the key (`insert_spec`) and `delete` takes the key
out (`delete_spec`). Neither panics, both keep the shape, and each updates
`lookup` at the key as a map update does. The hard cases are the branch
`insert` builds where two keys part (`lookup_branch`, `Canon.branch`) and what
`delete` leaves of a full node (`reduceFullNode_spec`). In the second case the
index loop `childPos` finds the one child left, and the key set shows that the
value slot `16` holds no short node to merge.

So every run of `TryUpdate` and `TryDelete` calls from the empty trie answers
the map its updates build (`run_TryGet`), and its root depends only on that map
(`run_root_eq`). A call that reports no change returns the node it was given
(`insert_clean`, `delete_clean`).
-/

namespace PureChain

namespace trie

open PrefixCode node

/-! ### `insert` puts a value at a key -/

theorem insert_nil (key : List UInt8) (value : node) :
    insert nil key value = some (true, if key.length = 0 then value else shortNode key value) := by
  rw [insert]
  split_ifs <;> rfl

/-- **An insert that reports no change returns the node it was given**, so the
node keeps its cached hash. -/
theorem insert_clean {n n' : node} {key : List UInt8} {value : node} (h : insert n key value = some (false, n')) :
    n' = n := by
  rw [insert.eq_def] at h
  by_cases h0 : key.length = 0
  · rw [if_pos h0] at h
    split at h <;> simp_all
  rw [if_neg h0] at h
  cases n with
  | shortNode k nv =>
    dsimp only at h
    by_cases hm : prefixLen key k = k.length
    · rw [if_pos hm] at h
      split at h
      · simp at h
      · split_ifs at h <;> simp_all
    · -- a branch is always new
      rw [if_neg hm] at h
      split at h
      · simp only [insert_nil, setChild] at h
        split_ifs at h <;> simp [Option.bind_eq_some_iff] at h
      · simp at h
  | fullNode cs =>
    dsimp only at h
    split at h
    · simp at h
    · split at h
      · simp at h
      · split at h
        · simp at h
        · split_ifs at h
          · simp_all
          · simp [Option.map_eq_some_iff] at h
  | nil => simp at h
  | valueNode v => simp at h

namespace node

/-- What `insert nil` makes of a full node or a value node below a key. -/
theorem insert_nil_spec {r : List UInt8} {c : node} (hc : c.Canon) (hfv : c.isFullOrValue) :
    ∃ X, insert nil r c = some (true, X) ∧ X.Canon ∧ X.isNil = false ∧ X.lookup = (shortNode r c).lookup := by
  refine ⟨_, insert_nil r c, ?_, ?_, ?_⟩
  · split_ifs with hr
    · exact hc
    · exact Canon.shortNode (fun h => hr (h ▸ rfl)) hfv hc
  · split_ifs
    · cases c <;> simp_all [isFullOrValue, isNil]
    · rfl
  · split_ifs with hr
    · rw [List.length_eq_zero_iff.mp hr, lookup_shortNode_nil_key]
    · rfl

theorem lookup_shortNode_cons (a : UInt8) (k : List UInt8) (c : node) (i : UInt8) (s : List UInt8) :
    (shortNode (a :: k) c).lookup (i :: s) = if a = i then (shortNode k c).lookup s else [] := by
  rw [lookup_shortNode, lookup_shortNode]
  by_cases hai : a = i
  · subst hai
    simp only [List.prefix_cons_inj, List.length_cons, List.drop_succ_cons, if_true]
  · rw [if_neg (fun h => hai (List.cons_prefix_cons.mp h).1), if_neg hai]

theorem length_emptyChildren : emptyChildren.length = 17 := List.length_replicate

theorem getElem?_emptyChildren (i : ℕ) : emptyChildren[i]? = if i < 17 then some nil else none :=
  List.getElem?_replicate

/-- **The branch `insert` builds where two keys part**: what was below the
short node goes under the nibble `kb`, the new value under `b`. -/
theorem lookup_branch {kb b : UInt8} (hne : kb ≠ b) (hkb : kb.toNat < 17) (hb : b.toNat < 17)
    {X Y c : node} {kr r v : List UInt8}
    (hX : X.lookup = (shortNode kr c).lookup) (hY : Y.lookup = (shortNode r (valueNode v)).lookup) :
    (fullNode ((emptyChildren.set kb.toNat X).set b.toNat Y)).lookup =
      Function.update (shortNode (kb :: kr) c).lookup (b :: r) v := by
  funext s
  rw [Function.update_apply]
  cases s with
  | nil => simp [lookup_shortNode]
  | cons i s =>
    rw [lookup_fullNode_cons, lookup_shortNode_cons, List.getD_eq_getElem?_getD, List.getElem?_set,
      List.getElem?_set, length_emptyChildren, List.length_set, length_emptyChildren]
    by_cases hib : b = i
    · subst hib
      simp [hb, hY, lookup_shortNode_valueNode, hne]
    · by_cases hik : kb = i
      · subst hik
        simp [UInt8.toNat_inj, hne, Ne.symm hne, hkb, hX]
      · have hcons : i :: s ≠ b :: r := fun h => hib (List.cons.inj h).1.symm
        rw [if_neg hcons, if_neg hik]
        simp only [UInt8.toNat_inj, hib, hik, if_false, getElem?_emptyChildren]
        split_ifs <;> simp

theorem Canon.branch {kb b : UInt8} (hne : kb ≠ b) (hkb : kb.toNat < 17) (hb : b.toNat < 17) {X Y : node}
    (hX : X.Canon) (hY : Y.Canon) (hXn : X.isNil = false) (hYn : Y.isNil = false) :
    (node.fullNode ((emptyChildren.set kb.toNat X).set b.toNat Y)).Canon := by
  have hne' : kb.toNat ≠ b.toNat := fun h => hne (UInt8.toNat_inj.mp h)
  have hkb' : kb.toNat < emptyChildren.length := by rwa [length_emptyChildren]
  have hb' : b.toNat < (emptyChildren.set kb.toNat X).length := by rwa [List.length_set, length_emptyChildren]
  have hone : (emptyChildren.set kb.toNat X).countP (fun c => !c.isNil) = 1 := by
    rw [List.countP_set hkb']
    simp only [emptyChildren, List.countP_replicate, List.getElem_replicate]
    simp [hXn]
  have hnil : (emptyChildren.set kb.toNat X)[b.toNat] = node.nil := by
    rw [List.getElem_set_ne hne']
    simp only [emptyChildren, List.getElem_replicate]
  refine Canon.fullNode (by rw [List.length_set, List.length_set, length_emptyChildren]) ?_ ?_
  · rw [List.countP_set hb', hone, hnil]
    simp [hYn]
  · intro c hc
    rcases List.mem_or_eq_of_mem_set hc with hc | rfl
    · rcases List.mem_or_eq_of_mem_set hc with hc | rfl
      · obtain rfl := List.eq_of_mem_replicate (hc : c ∈ List.replicate 17 node.nil)
        exact Canon.nil
      · exact hX
    · exact hY

/-- Below a short node, `insert` keeps a full node or a value node one. -/
theorem insert_isFullOrValue {c nn : node} {key v : List UInt8} {d : Bool}
    (h : insert c key (valueNode v) = some (d, nn)) (hc : c.isFullOrValue) : nn.isFullOrValue := by
  rw [insert.eq_def] at h
  split_ifs at h with h0
  · -- the key has run out: the new value node
    split at h <;> simp only [Option.some.injEq, Prod.mk.injEq] at h <;> obtain ⟨-, rfl⟩ := h <;> rfl
  · cases c with
    | fullNode cs =>
      dsimp only at h
      split at h
      · simp at h
      · split at h
        · simp at h
        · split at h
          · simp at h
          · split_ifs at h
            · obtain ⟨-, rfl⟩ := Prod.mk.inj (Option.some.inj h)
              rfl
            · obtain ⟨cs', -, h⟩ := Option.map_eq_some_iff.mp h
              rw [← (Prod.mk.inj h).2]
              rfl
    | valueNode w => simp at h
    | nil => simp [isFullOrValue] at hc
    | shortNode k c => simp [isFullOrValue] at hc

/-- **`insert` puts a value at a key**: on a node of the shape whose keys lie in
a hex key set, at a key of that set, `insert` does not panic, keeps the shape
and updates the map at the key. -/
theorem insert_spec {K : Set (List UInt8)} (hK : HexKeys K) {n : node} (hc : n.Canon) (hk : n.KeysIn K)
    {key v : List UInt8} (hkey : key ∈ K) (hv : v ≠ []) :
    ∃ d n', insert n key (valueNode v) = some (d, n') ∧ n'.Canon ∧
      n'.lookup = Function.update n.lookup key v := by
  induction hc generalizing K key with
  | nil =>
    obtain ⟨X, hins, hXc, -, hXl⟩ := insert_nil_spec (r := key) (Canon.valueNode hv) rfl
    refine ⟨true, X, hins, hXc, ?_⟩
    funext s
    rw [hXl, lookup_shortNode_valueNode, Function.update_apply, lookup_nil]
  | @valueNode w hw =>
    -- a value node holds its value where the key has run out
    have h0 : [] ∈ K := hk [] (by rwa [lookup_valueNode, if_pos rfl])
    obtain rfl := hK.prefixFree.eq_nil h0 hkey
    refine ⟨_, _, by rw [insert.eq_def]; rfl, Canon.valueNode hv, ?_⟩
    funext s
    rw [lookup_valueNode, Function.update_apply, lookup_valueNode]
    split_ifs <;> rfl
  | @shortNode k c hk0 hfv hc ih =>
    have hshort := Canon.shortNode hk0 hfv hc
    have hkey0 : key.length ≠ 0 := by
      intro h
      have := nil_not_mem hK.prefixFree hshort hk rfl (by simp [lookup_shortNode, hk0])
      exact this (List.length_eq_zero_iff.mp h ▸ hkey)
    by_cases hm : prefixLen key k = k.length
    · -- the key goes on below the short node
      obtain ⟨rest, rfl⟩ := prefixLen_eq_length_iff.mp hm
      obtain ⟨d, nn, hins, hnc, hnl⟩ := ih (hK.after k) hk.shortNode (by rwa [mem_after])
      have hcall : insert (shortNode k c) (k ++ rest) (valueNode v) =
          if !d then some (false, shortNode k c) else some (true, shortNode k nn) := by
        rw [insert.eq_def, if_neg hkey0]
        dsimp only
        rw [hm, if_pos rfl, List.drop_left, hins]
      cases d with
      | false =>
        obtain rfl := insert_clean hins
        exact ⟨false, _, hcall, hshort, lookup_shortNode_update hnl⟩
      | true =>
        exact ⟨true, _, hcall, Canon.shortNode hk0 (insert_isFullOrValue hins hfv) hnc,
          lookup_shortNode_update hnl⟩
    · -- the keys part inside the short node's key: a branch where they part
      have hmk : prefixLen key k < k.length := lt_of_le_of_ne (prefixLen_le_right key k) hm
      obtain ⟨s, hs⟩ := hc.exists_lookup (isNil_of_isFullOrValue hfv)
      have hks : k ++ s ∈ K := hk _ (by rwa [lookup_shortNode_append])
      have hmkey : prefixLen key k < key.length := by
        by_contra hge
        have hlen : prefixLen key k = key.length := le_antisymm (prefixLen_le_left key k) (not_lt.mp hge)
        have hpre : key <+: k := by
          have htake := take_prefixLen key k
          rw [hlen, List.take_length] at htake
          rw [htake]
          exact List.take_prefix _ _
        have heq := hK.prefixFree key hkey (k ++ s) hks (hpre.trans (List.prefix_append k s))
        have := congrArg List.length heq
        simp only [List.length_append] at this
        omega
      obtain ⟨kb, hkbget⟩ : ∃ kb, k[prefixLen key k]? = some kb := ⟨_, List.getElem?_eq_getElem hmk⟩
      obtain ⟨b, hbget⟩ : ∃ b, key[prefixLen key k]? = some b := ⟨_, List.getElem?_eq_getElem hmkey⟩
      have hne := (prefixLen_getElem?_ne key k hbget hkbget).symm
      have hkb17 := toNat_lt_of_le_sixteen
        (hK.le_sixteen _ hks _ (List.mem_append_left s (List.mem_of_getElem? hkbget)))
      have hb17 := toNat_lt_of_le_sixteen (hK.le_sixteen _ hkey _ (List.mem_of_getElem? hbget))
      obtain ⟨X, hXins, hXc, hXn, hXl⟩ := insert_nil_spec (r := k.drop (prefixLen key k + 1)) hc hfv
      obtain ⟨Y, hYins, hYc, hYn, hYl⟩ :=
        insert_nil_spec (r := key.drop (prefixLen key k + 1)) (Canon.valueNode hv) rfl
      have hres : insert (shortNode k c) key (valueNode v) = some (true,
          if prefixLen key k = 0 then fullNode ((emptyChildren.set kb.toNat X).set b.toNat Y)
          else shortNode (key.take (prefixLen key k)) (fullNode ((emptyChildren.set kb.toNat X).set b.toNat Y))) := by
        rw [insert.eq_def, if_neg hkey0]
        dsimp only
        rw [if_neg hm, hkbget, hbget]
        simp [hXins, hYins, setChild, length_emptyChildren, hkb17, hb17]
        split_ifs <;> rfl
      refine ⟨true, _, hres, ?_, ?_⟩
      · have hbranch := Canon.branch hne hkb17 hb17 hXc hYc hXn hYn
        split_ifs with hm0
        · exact hbranch
        · refine Canon.shortNode ?_ rfl hbranch
          rw [← List.length_pos_iff, List.length_take]
          omega
      · -- both keys start with the common prefix, and then part at `kb` and `b`
        have hk' : k = key.take (prefixLen key k) ++ kb :: k.drop (prefixLen key k + 1) := by
          obtain ⟨_, hkbeq⟩ := List.getElem?_eq_some_iff.mp hkbget
          rw [take_prefixLen, ← hkbeq, ← List.drop_eq_getElem_cons hmk, List.take_append_drop]
        have hkey' : key = key.take (prefixLen key k) ++ b :: key.drop (prefixLen key k + 1) := by
          obtain ⟨_, hbeq⟩ := List.getElem?_eq_some_iff.mp hbget
          rw [← hbeq, ← List.drop_eq_getElem_cons hmkey, List.take_append_drop]
        have hwrap : (if prefixLen key k = 0 then fullNode ((emptyChildren.set kb.toNat X).set b.toNat Y)
            else shortNode (key.take (prefixLen key k)) (fullNode ((emptyChildren.set kb.toNat X).set b.toNat Y))).lookup =
            (shortNode (key.take (prefixLen key k)) (fullNode ((emptyChildren.set kb.toNat X).set b.toNat Y))).lookup := by
          split_ifs with hm0
          · rw [hm0, List.take_zero, lookup_shortNode_nil_key]
          · rfl
        rw [hwrap, lookup_shortNode_update (lookup_branch hne hkb17 hb17 hXl hYl), lookup_shortNode_shortNode,
          ← hk', ← hkey']
  | @fullNode cs hlen hcount hall ih =>
    have hfull := Canon.fullNode hlen hcount hall
    obtain ⟨b, rest, rfl⟩ : ∃ b rest, key = b :: rest := by
      have := nil_not_mem hK.prefixFree hfull hk rfl (lookup_fullNode_nil cs)
      cases key with
      | nil => exact absurd hkey this
      | cons b rest => exact ⟨b, rest, rfl⟩
    have hb : b.toNat < cs.length := hlen ▸ toNat_lt_of_le_sixteen (hK.le_sixteen _ hkey b List.mem_cons_self)
    have hkc := hk.fullNode b
    rw [List.getD_eq_getElem _ _ hb] at hkc
    obtain ⟨d, nn, hins, hnc, hnl⟩ :=
      ih _ (List.getElem_mem hb) (hK.after [b]) hkc (by rwa [mem_after, List.singleton_append])
    have hcall : insert (fullNode cs) (b :: rest) (valueNode v) =
        if !d then some (false, fullNode cs) else (setChild cs b nn).map fun cs => (true, fullNode cs) := by
      rw [insert.eq_def, if_neg (by simp), List.getElem?_cons_zero]
      dsimp only
      split
      · rename_i hnone
        simp [List.getElem?_eq_getElem hb] at hnone
      · rename_i c hc
        rw [List.getElem?_eq_getElem hb, Option.some.injEq] at hc
        rw [List.drop_one, List.tail_cons, ← hc, hins]
    have hnl' : nn.lookup = Function.update (cs.getD b.toNat nil).lookup rest v := by
      rw [List.getD_eq_getElem _ _ hb]
      exact hnl
    cases d with
    | false =>
      obtain rfl := insert_clean hins
      refine ⟨false, _, hcall, hfull, ?_⟩
      have := lookup_fullNode_set hb hnl'
      rwa [List.set_getElem_self] at this
    | true =>
      have hnn : nn.isNil = false := by
        have hval : nn.lookup rest = v := by rw [hnl, Function.update_self]
        cases nn with
        | nil => exact absurd (hval.symm.trans (lookup_nil rest)) hv
        | _ => rfl
      refine ⟨true, _, by rw [hcall, setChild, if_pos hb]; rfl, ?_, lookup_fullNode_set hb hnl'⟩
      refine Canon.fullNode (by rw [List.length_set, hlen]) ?_ ?_
      · rw [List.countP_set hb]
        simp only [hnn, Bool.not_false, if_true]
        split_ifs <;> omega
      · intro c' hc'
        rcases List.mem_or_eq_of_mem_set hc' with hc' | rfl
        · exact hall c' hc'
        · exact hnc

/-! ### `delete` takes a key out -/

/-- **A delete that reports no change returns the node it was given.** -/
theorem delete_clean {n n' : node} {key : List UInt8} (h : delete n key = some (false, n')) : n' = n := by
  cases n with
  | shortNode k c =>
    rw [delete] at h
    split_ifs at h
    · exact (Prod.mk.inj (Option.some.inj h)).2.symm
    · simp at h
    · split at h
      · simp at h
      · split_ifs at h
        · exact (Prod.mk.inj (Option.some.inj h)).2.symm
        · split at h <;> simp at h
  | fullNode cs =>
    rw [delete] at h
    split at h
    · simp at h
    · split at h
      · simp at h
      · split at h
        · simp at h
        · split_ifs at h
          · exact (Prod.mk.inj (Option.some.inj h)).2.symm
          · simp [Option.map_eq_some_iff] at h
  | valueNode v => simp [delete] at h
  | nil =>
    rw [delete] at h
    exact (Prod.mk.inj (Option.some.inj h)).2.symm

/-- `reduceFullNode` makes a short node or keeps the full node. -/
theorem reduceFullNode_cases (cs : List node) :
    (∃ cs', reduceFullNode cs = fullNode cs') ∨ ∃ k c, reduceFullNode cs = shortNode k c := by
  unfold reduceFullNode
  dsimp only
  split_ifs
  · split
    · exact Or.inr ⟨_, _, rfl⟩
    · exact Or.inr ⟨_, _, rfl⟩
  · exact Or.inr ⟨_, _, rfl⟩
  · exact Or.inl ⟨_, rfl⟩

/-- `delete` at a full node leaves a full node or a short node. -/
theorem delete_fullNode_cases {cs : List node} {key : List UInt8} {d : Bool} {n' : node}
    (h : delete (fullNode cs) key = some (d, n')) : (∃ cs', n' = fullNode cs') ∨ ∃ k c, n' = shortNode k c := by
  rw [delete] at h
  split at h
  · simp at h
  · split at h
    · simp at h
    · split at h
      · simp at h
      · split_ifs at h
        · exact Or.inl ⟨cs, (Prod.mk.inj (Option.some.inj h)).2.symm⟩
        · obtain ⟨cs', -, h⟩ := Option.map_eq_some_iff.mp h
          rw [← (Prod.mk.inj h).2]
          exact reduceFullNode_cases cs'

/-! ### The index loop of `delete` -/

theorem childPos_of_forall_isNil : ∀ {cs : List node} (i : ℕ) (pos : ℤ), (∀ c ∈ cs, c.isNil) →
    childPos cs i pos = pos
  | [], _, _, _ => rfl
  | c :: cs, i, pos, h => by
    cases c with
    | nil => rw [childPos, childPos_of_forall_isNil (i + 1) pos (fun c hc => h c (List.mem_cons_of_mem _ hc))]
    | _ => simp [isNil] at h

theorem childPos_cons_of_isNil_eq_false {c : node} (h : c.isNil = false) (cs : List node) (i : ℕ) (pos : ℤ) :
    childPos (c :: cs) i pos = if pos = -1 then childPos cs (i + 1) i else -2 :=
  childPos.eq_3 _ _ _ _ (fun hc => by simp [hc] at h)

theorem childPos_of_ne : ∀ {cs : List node} (i : ℕ) {pos : ℤ}, pos ≠ -1 → (∃ c ∈ cs, c.isNil = false) →
    childPos cs i pos = -2
  | [], _, _, _, ⟨_, hc, _⟩ => absurd hc List.not_mem_nil
  | c :: cs, i, pos, hpos, ⟨c', hc', hn⟩ => by
    cases hc : c.isNil with
    | true =>
      rw [eq_nil_of_isNil hc, childPos]
      rcases List.mem_cons.mp hc' with rfl | hc'
      · rw [eq_nil_of_isNil hc] at hn
        simp at hn
      · exact childPos_of_ne (i + 1) hpos ⟨c', hc', hn⟩
    | false => rw [childPos_cons_of_isNil_eq_false hc, if_neg hpos]

/-- With two children that are not nil the loop ends at `-2`. -/
theorem childPos_two : ∀ {cs : List node} (i : ℕ), 2 ≤ cs.countP (fun c => !c.isNil) → childPos cs i (-1) = -2
  | [], _, h => by simp at h
  | c :: cs, i, h => by
    rw [List.countP_cons] at h
    cases hc : c.isNil with
    | true =>
      rw [eq_nil_of_isNil hc, childPos]
      exact childPos_two (i + 1) (by simpa [hc] using h)
    | false =>
      rw [childPos_cons_of_isNil_eq_false hc, if_pos rfl]
      refine childPos_of_ne (i + 1) (show (i : ℤ) ≠ -1 by omega) ?_
      have : 0 < cs.countP (fun c => !c.isNil) := by
        simp only [hc, Bool.not_false, if_true] at h
        omega
      obtain ⟨c', hc', hn⟩ := List.countP_pos_iff.mp this
      exact ⟨c', hc', by simpa using hn⟩

/-- With one child that is not nil the loop ends at its position. -/
theorem childPos_one : ∀ {cs : List node} (i : ℕ), cs.countP (fun c => !c.isNil) = 1 →
    ∃ j < cs.length, childPos cs i (-1) = ((i + j : ℕ) : ℤ) ∧ (cs.getD j nil).isNil = false ∧
      ∀ j', j' ≠ j → cs.getD j' nil = nil
  | [], _, h => by simp at h
  | c :: cs, i, h => by
    rw [List.countP_cons] at h
    cases hc : c.isNil with
    | true =>
      rw [eq_nil_of_isNil hc] at h ⊢
      obtain ⟨j, hj, hpos, hn, hrest⟩ := childPos_one (i + 1) (by simpa using h)
      refine ⟨j + 1, by simp; omega, by rw [childPos, hpos]; push_cast; ring, by simpa using hn, ?_⟩
      intro j' hj'
      cases j' with
      | zero => rfl
      | succ j' => simpa using hrest j' (by omega)
    | false =>
      -- the first child is the one: all the others are nil
      have h0 : cs.countP (fun c => !c.isNil) = 0 := by
        simp only [hc, Bool.not_false, if_true] at h
        omega
      have hnil : ∀ c ∈ cs, c.isNil := fun c hc => by simpa using List.countP_eq_zero.mp h0 c hc
      refine ⟨0, by simp, ?_, hc, ?_⟩
      · rw [childPos_cons_of_isNil_eq_false hc, if_pos rfl, childPos_of_forall_isNil (i + 1) i hnil]
        simp
      · intro j' hj'
        obtain ⟨j', rfl⟩ := Nat.exists_eq_succ_of_ne_zero hj'
        rw [List.getD_cons_succ, List.getD_eq_getElem?_getD]
        cases hget : cs[j']? with
        | none => rfl
        | some c => exact eq_nil_of_isNil (hnil c (List.mem_of_getElem? hget))

/-! ### `delete` keeps the shape -/

theorem isFullOrValue_of_ne {c : node} (hn : c.isNil = false) (hs : ∀ k c', c ≠ shortNode k c') :
    c.isFullOrValue := by
  cases c with
  | nil => simp at hn
  | shortNode k c' => exact absurd rfl (hs k c')
  | fullNode _ => rfl
  | valueNode _ => rfl

/-- A node of the shape that holds values only where the key has run out is not
a short node. -/
theorem Canon.ne_shortNode {x : node} (hx : x.Canon) (hterm : ∀ s, x.lookup s ≠ [] → s = [])
    (k : List UInt8) (c : node) : x ≠ node.shortNode k c := by
  rintro rfl
  cases hx with
  | shortNode hk0 hfv hc =>
    obtain ⟨s, hs⟩ := hc.exists_lookup (isNil_of_isFullOrValue hfv)
    have := hterm (k ++ s) (by rwa [lookup_shortNode_append])
    exact hk0 (List.append_eq_nil_iff.mp this).1

/-- A full node with one child that is not nil reads as a one-nibble short node
over that child. -/
theorem lookup_fullNode_single {cs : List node} {j : ℕ} (hj : j < 17) (hrest : ∀ j', j' ≠ j → cs.getD j' nil = nil) :
    (fullNode cs).lookup = (shortNode [j.toUInt8] (cs.getD j nil)).lookup := by
  funext s
  cases s with
  | nil => simp [lookup_shortNode]
  | cons i s =>
    rw [lookup_fullNode_cons, lookup_shortNode_cons, lookup_shortNode_nil_key]
    by_cases hij : i.toNat = j
    · rw [if_pos (UInt8.toNat_inj.mp (by rw [toNat_toUInt8 hj, hij])), hij]
    · have hne : j.toUInt8 ≠ i := fun h => hij (by rw [← h, toNat_toUInt8 hj])
      rw [if_neg hne, hrest _ hij, lookup_nil]

/-- **What `delete` leaves of a full node**: the full node while two children
are left, else a short node over the one child, merged with it when it is a
short node. Either way the shape is kept and the map is the full node's. -/
theorem reduceFullNode_spec {cs : List node} (hlen : cs.length = 17) (hall : ∀ c ∈ cs, c.Canon)
    (hpos : 0 < cs.countP (fun c => !c.isNil)) (h16 : ∀ k c, cs.getD 16 nil ≠ shortNode k c) :
    (reduceFullNode cs).Canon ∧ (reduceFullNode cs).lookup = (fullNode cs).lookup := by
  by_cases h2 : 2 ≤ cs.countP (fun c => !c.isNil)
  · have hred : reduceFullNode cs = fullNode cs := by
      unfold reduceFullNode
      rw [childPos_two 0 h2]
      rfl
    rw [hred]
    exact ⟨Canon.fullNode hlen h2 hall, rfl⟩
  -- one child is left, at `j`
  obtain ⟨j, hj, hposj, hjn, hrest⟩ := @childPos_one cs 0 (by omega)
  have hj17 : j < 17 := hlen ▸ hj
  have hcj : (cs.getD j nil).Canon := by
    rw [List.getD_eq_getElem _ _ hj]
    exact hall _ (List.getElem_mem hj)
  have hl := lookup_fullNode_single hj17 hrest
  unfold reduceFullNode
  dsimp only
  rw [hposj, if_pos (Int.natCast_nonneg _), Nat.zero_add, Int.toNat_natCast]
  split_ifs with hj16
  · split
    · -- the child is a short node: its key gets the nibble in front
      rename_i ck cv hcs
      rw [hcs] at hcj hl
      cases hcj with
      | shortNode hck hfv hcv =>
        refine ⟨Canon.shortNode (List.cons_ne_nil _ _) hfv hcv, ?_⟩
        rw [hl, lookup_shortNode_shortNode]
        rfl
    · rename_i hns
      exact ⟨Canon.shortNode (List.cons_ne_nil _ _) (isFullOrValue_of_ne hjn hns) hcj, hl.symm⟩
  · -- the value slot
    have hj' : j = 16 := by omega
    subst hj'
    exact ⟨Canon.shortNode (List.cons_ne_nil _ _) (isFullOrValue_of_ne hjn (h16)) hcj, hl.symm⟩

/-- A short node whose own key is a key of the set is over a value node. -/
theorem Canon.shortNode_self {K : Set (List UInt8)} (hK : PrefixFree K) {k : List UInt8} {c : node}
    (hc : c.Canon) (hfv : c.isFullOrValue) (hk : (node.shortNode k c).KeysIn K) (hkey : k ∈ K) :
    ∃ w, c = node.valueNode w ∧ w ≠ [] := by
  obtain ⟨s, hs⟩ := hc.exists_lookup (isNil_of_isFullOrValue hfv)
  have hks : k ++ s ∈ K := hk _ (by rwa [lookup_shortNode_append])
  -- no key of the set goes on from `k`
  have hs0 : s = [] := List.append_cancel_left ((hK k hkey (k ++ s) hks
    (List.prefix_append k s)).symm.trans (List.append_nil k).symm)
  subst hs0
  cases hc with
  | fullNode => simp at hs
  | valueNode hw => exact ⟨_, rfl, hw⟩
  | nil => simp [isFullOrValue] at hfv
  | shortNode => simp [isFullOrValue] at hfv

/-- **`delete` takes a key out**: on a node of the shape whose keys lie in a hex
key set, at a key of that set, `delete` does not panic, keeps the shape and
clears the map at the key. -/
theorem delete_spec {K : Set (List UInt8)} (hK : HexKeys K) {n : node} (hc : n.Canon) (hk : n.KeysIn K)
    {key : List UInt8} (hkey : key ∈ K) :
    ∃ d n', delete n key = some (d, n') ∧ n'.Canon ∧ n'.lookup = Function.update n.lookup key [] := by
  induction hc generalizing K key with
  | nil =>
    refine ⟨false, nil, by rw [delete], Canon.nil, ?_⟩
    funext s
    rw [lookup_nil, Function.update_apply, lookup_nil]
    split_ifs <;> rfl
  | @valueNode w hw =>
    -- a value node holds its value where the key has run out
    have h0 : [] ∈ K := hk [] (by rwa [lookup_valueNode, if_pos rfl])
    obtain rfl := hK.prefixFree.eq_nil h0 hkey
    refine ⟨true, nil, by rw [delete], Canon.nil, ?_⟩
    funext s
    rw [lookup_nil, Function.update_apply, lookup_valueNode]
    split_ifs <;> rfl
  | @shortNode k c hk0 hfv hc ih =>
    have hshort := Canon.shortNode hk0 hfv hc
    by_cases hm : prefixLen key k < k.length
    · -- the key leaves the short node's key: nothing to delete
      have hnot : ¬k <+: key := fun h => by rw [← prefixLen_eq_length_iff] at h; omega
      refine ⟨false, _, by rw [delete, if_pos hm], hshort, ?_⟩
      symm
      rw [Function.update_eq_self_iff, lookup_shortNode, if_neg hnot]
    have hm' : prefixLen key k = k.length := le_antisymm (prefixLen_le_right key k) (not_lt.mp hm)
    obtain ⟨rest, rfl⟩ := prefixLen_eq_length_iff.mp hm'
    by_cases hr : rest = []
    · -- the key is the short node's: below it is only the value there
      subst hr
      rw [List.append_nil] at hkey hm hm' ⊢
      obtain ⟨w, rfl, -⟩ := Canon.shortNode_self hK.prefixFree hc hfv hk hkey
      refine ⟨true, nil, by rw [delete, if_neg hm, if_pos hm'], Canon.nil, ?_⟩
      funext s
      rw [lookup_nil, Function.update_apply, lookup_shortNode_valueNode]
      split_ifs <;> rfl
    -- the key goes on below the short node, which is over a full node
    have hlen : prefixLen (k ++ rest) k ≠ (k ++ rest).length := by
      rw [hm', List.length_append]
      have := List.length_pos_iff.mpr hr
      omega
    obtain ⟨d, child, hdel, hcc, hcl⟩ := ih (hK.after k) hk.shortNode (show rest ∈ after K k by rwa [mem_after])
    rw [delete, if_neg hm, if_neg hlen, List.drop_left, hdel]
    cases d with
    | false =>
      obtain rfl := delete_clean hdel
      exact ⟨false, _, rfl, hshort, lookup_shortNode_update hcl⟩
    | true =>
      have hcf : ∃ cs, c = fullNode cs := by
        cases c with
        | fullNode cs => exact ⟨cs, rfl⟩
        | valueNode w =>
          -- a value node below would end every key at `k`
          have h0 : [] ∈ after K k := hk.shortNode [] (by rw [lookup_valueNode, if_pos rfl]; cases hc; assumption)
          exact absurd (hK.after k |>.prefixFree.eq_nil h0 hkey) hr
        | nil => simp [isFullOrValue] at hfv
        | shortNode => simp [isFullOrValue] at hfv
      obtain ⟨cs, rfl⟩ := hcf
      rcases delete_fullNode_cases hdel with ⟨cs', rfl⟩ | ⟨ck, cv, rfl⟩
      · exact ⟨true, _, rfl, Canon.shortNode hk0 rfl hcc, lookup_shortNode_update hcl⟩
      · -- the child shrank to a short node: the two short nodes merge
        cases hcc with
        | shortNode hck hfv' hcv =>
          refine ⟨true, _, rfl, Canon.shortNode (by simp [concat, hk0]) hfv' hcv, ?_⟩
          rw [concat, ← lookup_shortNode_shortNode, lookup_shortNode_update hcl]
  | @fullNode cs hlen hcount hall ih =>
    have hfull := Canon.fullNode hlen hcount hall
    obtain ⟨b, rest, rfl⟩ : ∃ b rest, key = b :: rest := by
      have := nil_not_mem hK.prefixFree hfull hk rfl (lookup_fullNode_nil cs)
      cases key with
      | nil => exact absurd hkey this
      | cons b rest => exact ⟨b, rest, rfl⟩
    have hb : b.toNat < cs.length := hlen ▸ toNat_lt_of_le_sixteen (hK.le_sixteen _ hkey b List.mem_cons_self)
    have hkc := hk.fullNode b
    rw [List.getD_eq_getElem _ _ hb] at hkc
    obtain ⟨d, nn, hdel, hnc, hnl⟩ :=
      ih _ (List.getElem_mem hb) (hK.after [b]) hkc (by rwa [mem_after, List.singleton_append])
    have hcall : delete (fullNode cs) (b :: rest) =
        if !d then some (false, fullNode cs) else (setChild cs b nn).map fun cs => (true, reduceFullNode cs) := by
      rw [delete, List.getElem?_cons_zero]
      dsimp only
      split
      · rename_i hnone
        simp [List.getElem?_eq_getElem hb] at hnone
      · rename_i c hc
        rw [List.getElem?_eq_getElem hb, Option.some.injEq] at hc
        rw [List.drop_one, List.tail_cons, ← hc, hdel]
    have hnl' : nn.lookup = Function.update (cs.getD b.toNat nil).lookup rest [] := by
      rw [List.getD_eq_getElem _ _ hb]
      exact hnl
    have hset := lookup_fullNode_set hb hnl'
    cases d with
    | false =>
      obtain rfl := delete_clean hdel
      refine ⟨false, _, hcall, hfull, ?_⟩
      rwa [List.set_getElem_self] at hset
    | true =>
      -- one child changed, so one of the two that were there is still there
      have hpos : 0 < (cs.set b.toNat nn).countP (fun c => !c.isNil) := by
        rw [List.countP_set hb]
        split_ifs <;> omega
      -- below the value slot only the value is held: no short node there
      have h16 : ∀ k c, (cs.set b.toNat nn).getD 16 nil ≠ shortNode k c := by
        have hk' := (hk.update hkey hset).fullNode 16
        have h16len : 16 < (cs.set b.toNat nn).length := by rw [List.length_set, hlen]; omega
        have hc16 : (cs.set b.toNat nn).getD 16 nil ∈ cs.set b.toNat nn := by
          rw [List.getD_eq_getElem _ _ h16len]
          exact List.getElem_mem h16len
        have hall' : ∀ c ∈ cs.set b.toNat nn, c.Canon := fun c hc => by
          rcases List.mem_or_eq_of_mem_set hc with hc | rfl
          · exact hall c hc
          · exact hnc
        refine Canon.ne_shortNode (hall' _ hc16) (fun s hs => hK.terminator [] s ?_)
        exact hk' s hs
      obtain ⟨hrc, hrl⟩ := reduceFullNode_spec (by rw [List.length_set, hlen]) (fun c hc => by
        rcases List.mem_or_eq_of_mem_set hc with hc | rfl
        · exact hall c hc
        · exact hnc) hpos h16
      exact ⟨true, _, by rw [hcall, setChild, if_pos hb]; rfl, hrc, hrl.trans hset⟩

/-! ### The `dirty` flag

A node that a call reports clean keeps its cached hash, so the flag must be
set whenever the map below the node changes. It is set exactly then. -/

end node

namespace Trie

/-- A root updated at a key's hex encoding is a map updated at the key. -/
theorem contents_eq_update {t t' : Trie} {key v : List UInt8}
    (h : t'.root.lookup = Function.update t.root.lookup (keybytesToHex key) v) :
    t'.contents = Function.update t.contents key v := by
  funext k
  simp only [contents, h, Function.update_apply, keybytesToHex_injective.eq_iff]

/-- **`TryUpdate` writes the key**, and an empty value deletes it. -/
theorem Inv.TryUpdate_spec {t : Trie} (ht : t.Inv) (key value : List UInt8) :
    ∃ t', t.TryUpdate key value = some t' ∧ t'.Inv ∧ t'.contents = Function.update t.contents key value := by
  have hkey : keybytesToHex key ∈ Set.range keybytesToHex := ⟨key, rfl⟩
  unfold Trie.TryUpdate
  dsimp only
  split_ifs with hv
  · obtain ⟨d, n', hins, hc, hl⟩ := insert_spec hexKeys_keybytesToHex ht.canon ht.keys hkey
      (List.ne_nil_of_length_pos (Nat.pos_of_ne_zero hv))
    exact ⟨⟨n'⟩, by rw [hins]; rfl, ⟨hc, ht.keys.update hkey hl⟩, contents_eq_update hl⟩
  · obtain ⟨d, n', hdel, hc, hl⟩ := delete_spec hexKeys_keybytesToHex ht.canon ht.keys hkey
    have hv : value = [] := List.length_eq_zero_iff.mp (not_not.mp hv)
    subst hv
    exact ⟨⟨n'⟩, by rw [hdel]; rfl, ⟨hc, ht.keys.update hkey hl⟩, contents_eq_update hl⟩

/-- **`TryDelete` clears the key.** -/
theorem Inv.TryDelete_spec {t : Trie} (ht : t.Inv) (key : List UInt8) :
    ∃ t', t.TryDelete key = some t' ∧ t'.Inv ∧ t'.contents = Function.update t.contents key [] := by
  have hkey : keybytesToHex key ∈ Set.range keybytesToHex := ⟨key, rfl⟩
  obtain ⟨d, n', hdel, hc, hl⟩ := delete_spec hexKeys_keybytesToHex ht.canon ht.keys hkey
  exact ⟨⟨n'⟩, by rw [TryDelete, hdel]; rfl, ⟨hc, ht.keys.update hkey hl⟩, contents_eq_update hl⟩

/-- What a call does to a map from keys to values. -/
def Op.apply (m : List UInt8 → List UInt8) : Op → List UInt8 → List UInt8
  | .TryUpdate key value => Function.update m key value
  | .TryDelete key => Function.update m key []

theorem Inv.step_spec {t : Trie} (ht : t.Inv) (op : Op) :
    ∃ t', t.step op = some t' ∧ t'.Inv ∧ t'.contents = Op.apply t.contents op := by
  cases op with
  | TryUpdate key value => exact ht.TryUpdate_spec key value
  | TryDelete key => exact ht.TryDelete_spec key

/-- **Every run of calls keeps the invariant**: from a trie of the invariant,
every sequence of `TryUpdate` and `TryDelete` calls goes through without a
panic and leaves the map the calls build. -/
theorem Inv.run_spec {t : Trie} (ht : t.Inv) (ops : List Op) :
    ∃ t', ops.foldlM step t = some t' ∧ t'.Inv ∧ t'.contents = ops.foldl Op.apply t.contents :=
  Run.foldlM_simulates (fun _ op ht => ht.step_spec op) ops ht

end Trie

/-- **The trie answers the map its calls build**: every sequence of `TryUpdate`
and `TryDelete` calls from the empty trie goes through without a panic, keeps
the shape, and `TryGet` then returns at every key the value the same updates
leave in a map, `[]` where there is none. -/
theorem run_TryGet (ops : List Trie.Op) :
    ∃ t, ops.foldlM Trie.step Trie.empty = some t ∧ t.Inv ∧
      ∀ key, t.TryGet key = some (ops.foldl Trie.Op.apply (fun _ => []) key) := by
  obtain ⟨t, hrun, ht, hc⟩ := Trie.Inv_empty.run_spec ops
  refine ⟨t, hrun, ht, fun key => ?_⟩
  rw [ht.TryGet_eq, hc, Trie.contents_empty]

/-- **The root depends only on the map**: two sequences of calls from the empty
trie that leave the same map leave the same trie, whatever the order of the
insertions and deletions, so the root hash does not depend on it either. -/
theorem run_root_eq (ops₁ ops₂ : List Trie.Op)
    (h : ops₁.foldl Trie.Op.apply (fun _ => []) = ops₂.foldl Trie.Op.apply (fun _ => [])) :
    ops₁.foldlM Trie.step Trie.empty = ops₂.foldlM Trie.step Trie.empty := by
  obtain ⟨t₁, hrun₁, ht₁, hc₁⟩ := Trie.Inv_empty.run_spec ops₁
  obtain ⟨t₂, hrun₂, ht₂, hc₂⟩ := Trie.Inv_empty.run_spec ops₂
  rw [hrun₁, hrun₂, ht₁.eq_of_contents_eq ht₂ (by rw [hc₁, hc₂, Trie.contents_empty, h])]

/-- Two keys written in either order, one of them written and then deleted. -/
theorem run_root_eq_reordered :
    [Trie.Op.TryUpdate [1] [7], Trie.Op.TryUpdate [2] [8], Trie.Op.TryDelete [2]].foldl Trie.Op.apply (fun _ => []) =
        [Trie.Op.TryUpdate [1] [7]].foldl Trie.Op.apply (fun _ => []) ∧
      [Trie.Op.TryUpdate [1] [7], Trie.Op.TryUpdate [2] [8], Trie.Op.TryDelete [2]].foldlM Trie.step Trie.empty =
        [Trie.Op.TryUpdate [1] [7]].foldlM Trie.step Trie.empty :=
  have h : [Trie.Op.TryUpdate [1] [7], Trie.Op.TryUpdate [2] [8], Trie.Op.TryDelete [2]].foldl Trie.Op.apply
      (fun _ => []) = [Trie.Op.TryUpdate [1] [7]].foldl Trie.Op.apply (fun _ => []) := by
    simp only [List.foldl_cons, List.foldl_nil, Trie.Op.apply, Function.update_idem]
    rw [Function.update_eq_self_iff, Function.update_apply, if_neg (by decide)]
  ⟨h, run_root_eq _ _ h⟩

end trie

end PureChain
