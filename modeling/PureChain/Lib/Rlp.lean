import Mathlib

/-!
# Recursive length prefix, on item trees

The serialization every hash of the chain is taken over. An *item* is a byte
string or a list of items, and its encoding prefixes the payload with a header
that says which of the two it is and how long the payload is:

* a single byte below `0x80` stands for itself;
* a string of at most 55 bytes gets the header `0x80 + length`, a longer one
  `0xb7 + k` followed by the `k` big-endian bytes of its length;
* a list concatenates the encodings of its items and prefixes the result with
  `0xc0 + length`, or `0xf7 + k` and the `k` bytes of a length above 55.

Integers are strings too: a natural number is written as its **minimal**
big-endian bytes (`Rlp.beBytes`), so zero is the empty string `0x80`.

Nothing here is about any particular data type; a structure is serialized by
first mapping it to an item tree, and two structures with the same tree have the
same bytes (and hence the same hash) whatever the encoder does with them.

The converse is what makes a hash over the bytes commit to the tree: the
encoding is **prefix-free** on items whose encoding is shorter than `2^64`
bytes (`Rlp.Item.encode_append_inj`), the lengths a header can state; above
that, the byte counting the length bytes wraps. Two trees with the same bytes
are then the same tree (`Rlp.Item.encode_injective`).
-/

namespace Rlp

/-! ### Big-endian integers -/

/-- The minimal big-endian bytes of a natural number: none for zero. -/
def beBytes (n : ℕ) : List UInt8 :=
  if n = 0 then [] else beBytes (n / 256) ++ [UInt8.ofNat (n % 256)]
decreasing_by omega

-- the equations of `beBytes`, made once here for the lemmas that unfold it
attribute [local grind] beBytes

@[simp] theorem beBytes_zero : beBytes 0 = [] := by
  rw [beBytes, if_pos rfl]

theorem beBytes_of_pos {n : ℕ} (h : 0 < n) :
    beBytes n = beBytes (n / 256) ++ [UInt8.ofNat (n % 256)] := by
  rw [beBytes, if_neg (by omega)]

/-! ### Items and their encoding -/

/-- An RLP item: a byte string, or a list of items. -/
inductive Item where
  /-- A byte string. -/
  | str (bytes : List UInt8)
  /-- A list of items. -/
  | list (items : List Item)
  deriving Repr, Inhabited

/-- The header of a payload of `len` bytes, with `short` the offset of the
one-byte form (`0x80` for strings, `0xc0` for lists): the one-byte form up to 55
bytes, the long form with the big-endian length after it above. -/
def header (short : ℕ) (len : ℕ) : List UInt8 :=
  if len ≤ 55 then [UInt8.ofNat (short + len)]
  else UInt8.ofNat (short + 55 + (beBytes len).length) :: beBytes len

/-- The encoding of a byte string: a single byte below `0x80` is its own
encoding, anything else gets a string header. -/
def encodeString (bytes : List UInt8) : List UInt8 :=
  match bytes with
  | [b] => if b.toNat < 0x80 then [b] else header 0x80 1 ++ [b]
  | _ => header 0x80 bytes.length ++ bytes

mutual

/-- **The encoding of an item.** -/
def Item.encode : Item → List UInt8
  | .str bytes => encodeString bytes
  | .list items => let payload := Item.encodeAll items
      header 0xc0 payload.length ++ payload

/-- The concatenated encodings of a list of items: the payload of a list. -/
def Item.encodeAll : List Item → List UInt8
  | [] => []
  | i :: is => i.encode ++ Item.encodeAll is

end

attribute [local grind] header Item.encode Item.encodeAll

@[simp] theorem encode_str (bytes : List UInt8) : (Item.str bytes).encode = encodeString bytes := by
  rw [Item.encode]

@[simp] theorem encode_list (items : List Item) :
    (Item.list items).encode =
      header 0xc0 (Item.encodeAll items).length ++ Item.encodeAll items := by
  rw [Item.encode]

@[simp] theorem encodeAll_nil : Item.encodeAll [] = [] := by
  rw [Item.encodeAll]

@[simp] theorem encodeAll_cons (i : Item) (is : List Item) :
    Item.encodeAll (i :: is) = i.encode ++ Item.encodeAll is := by
  rw [Item.encodeAll]

theorem encodeAll_append : ∀ (is js : List Item), Item.encodeAll (is ++ js) = Item.encodeAll is ++ Item.encodeAll js
  | [], js => by rw [List.nil_append, encodeAll_nil, List.nil_append]
  | i :: is, js => by rw [List.cons_append, encodeAll_cons, encodeAll_cons, encodeAll_append is js, List.append_assoc]


/-! ### Reading big-endian bytes back -/

/-- The number big-endian bytes stand for. -/
def beValue (bs : List UInt8) : ℕ := bs.foldl (fun acc b => acc * 256 + b.toNat) 0

attribute [local grind] beValue

theorem beValue_append_singleton (bs : List UInt8) (b : UInt8) :
    beValue (bs ++ [b]) = beValue bs * 256 + b.toNat := by
  simp [beValue, List.foldl_append]

theorem beValue_beBytes (n : ℕ) : beValue (beBytes n) = n := by
  induction n using Nat.strongRecOn with
  | _ n ih =>
    rcases Nat.eq_zero_or_pos n with rfl | hn
    · simp [beValue]
    · rw [beBytes_of_pos hn, beValue_append_singleton, ih (n / 256) (by omega),
        UInt8.toNat_ofNat']
      omega

theorem beBytes_injective : Function.Injective beBytes := fun m n h => by
  rw [← beValue_beBytes m, h, beValue_beBytes]

/-- A number below `256 ^ k` takes at most `k` bytes. -/
theorem length_beBytes_le {n k : ℕ} (h : n < 256 ^ k) : (beBytes n).length ≤ k := by
  induction k generalizing n with
  | zero =>
    obtain rfl : n = 0 := by simpa using h
    simp
  | succ k ih =>
    rcases Nat.eq_zero_or_pos n with rfl | hn
    · simp
    · rw [beBytes_of_pos hn, List.length_append, List.length_singleton]
      have : n / 256 < 256 ^ k := by rw [Nat.pow_succ] at h; omega
      have := ih this
      omega

theorem length_beBytes_pos {n : ℕ} (h : 0 < n) : 0 < (beBytes n).length := by
  rw [beBytes_of_pos h]
  simp

/-- The minimal bytes of a number do not start with a zero. -/
theorem headD_beBytes_ne_zero {n : ℕ} (h : 0 < n) : (beBytes n).headD 0 ≠ 0 := by
  induction n using Nat.strongRecOn with
  | _ n ih =>
    rw [beBytes_of_pos h]
    rcases Nat.eq_zero_or_pos (n / 256) with hq | hq
    · -- a single byte, the number itself
      rw [hq, beBytes_zero, List.nil_append, List.headD_cons]
      intro h0
      have := congrArg UInt8.toNat h0
      rw [UInt8.toNat_ofNat'] at this
      simp at this
      omega
    · have hne := length_beBytes_pos hq
      obtain ⟨c, cs, hc⟩ := List.exists_cons_of_length_pos hne
      have := ih (n / 256) (by omega) hq
      rw [hc] at this ⊢
      exact this

/-- A number from `1` to `255` is its own single byte. -/
theorem beBytes_of_lt_256 {n : ℕ} (h0 : 0 < n) (h : n < 256) : beBytes n = [UInt8.ofNat n] := by
  rw [beBytes_of_pos h0, Nat.div_eq_of_lt h, beBytes_zero, Nat.mod_eq_of_lt h, List.nil_append]

/-- The number whose minimal bytes are a single byte is that byte. -/
theorem toNat_of_beBytes_eq {n : ℕ} {y : UInt8} (h : beBytes n = [y]) : y.toNat = n := by
  rw [← beValue_beBytes n, h]
  simp [beValue]

/-- **Bytes without a leading zero are the minimal bytes of their value.** -/
theorem beBytes_beValue : ∀ {bs : List UInt8}, bs.headD 0 ≠ 0 → beBytes (beValue bs) = bs := by
  intro bs
  induction bs using List.reverseRecOn with
  | nil => intro h; exact absurd rfl h
  | append_singleton init b ih =>
    intro h
    rw [beValue_append_singleton]
    rcases init with _ | ⟨c, cs⟩
    · -- one byte, which is not zero
      have hb : b.toNat ≠ 0 := fun h0 => h (by simpa [← UInt8.toNat_inj] using h0)
      rw [beValue, List.foldl_nil, Nat.zero_mul, Nat.zero_add,
        beBytes_of_pos (Nat.pos_of_ne_zero hb), Nat.div_eq_of_lt (UInt8.toNat_lt b),
        beBytes_zero, Nat.mod_eq_of_lt (UInt8.toNat_lt b), UInt8.ofNat_toNat]
    · have hinit := ih (by simpa using h)
      -- the bytes before the last stand for a positive number
      have hpos : 0 < beValue (c :: cs) := by
        rcases Nat.eq_zero_or_pos (beValue (c :: cs)) with h0 | h0
        · rw [h0, beBytes_zero] at hinit
          exact absurd hinit.symm (List.cons_ne_nil c cs)
        · exact h0
      have hb := UInt8.toNat_lt b
      rw [beBytes_of_pos (by omega)]
      have hdiv : (beValue (c :: cs) * 256 + b.toNat) / 256 = beValue (c :: cs) := by omega
      have hmod : (beValue (c :: cs) * 256 + b.toNat) % 256 = b.toNat := by omega
      rw [hdiv, hmod, hinit, UInt8.ofNat_toNat]

/-- A leading zero byte adds nothing. -/
theorem beValue_cons_zero (bs : List UInt8) : beValue (0 :: bs) = beValue bs := by
  simp [beValue]

/-- Leading zero bytes do not change a big-endian value. -/
theorem beValue_replicate_append (k : ℕ) (l : List UInt8) :
    beValue (List.replicate k 0 ++ l) = beValue l := by
  induction k with
  | zero => rfl
  | succ k ih => rw [List.replicate_succ, List.cons_append, beValue_cons_zero, ih]

/-- **Padding the minimal bytes of their value back with zeros gives the bytes.** -/
theorem replicate_append_beBytes_beValue :
    ∀ bs : List UInt8, List.replicate (bs.length - (beBytes (beValue bs)).length) 0 ++
      beBytes (beValue bs) = bs
  | [] => by simp [beValue]
  | b :: rest => by
    by_cases hb : b = 0
    · -- a leading zero: one more zero of padding in front of the rest's
      subst hb
      have ih := replicate_append_beBytes_beValue rest
      have hlen := congrArg List.length ih
      simp only [List.length_append, List.length_replicate] at hlen
      rw [beValue_cons_zero, List.length_cons,
        show rest.length + 1 - (beBytes (beValue rest)).length =
          (rest.length - (beBytes (beValue rest)).length) + 1 by omega,
        List.replicate_succ, List.cons_append, ih]
    · -- no leading zero: the bytes are already minimal
      rw [beBytes_beValue (by simpa using hb), Nat.sub_self, List.replicate_zero, List.nil_append]

/-- `k` bytes stand for a number below `256 ^ k`. -/
theorem beValue_lt (bs : List UInt8) : beValue bs < 256 ^ bs.length := by
  induction bs using List.reverseRecOn with
  | nil => simp [beValue]
  | append_singleton init b ih =>
    rw [beValue_append_singleton, List.length_append, List.length_singleton, Nat.pow_succ]
    have hb : b.toNat < 256 := UInt8.toNat_lt b
    calc beValue init * 256 + b.toNat < (beValue init + 1) * 256 := by omega
      _ ≤ 256 ^ init.length * 256 := Nat.mul_le_mul_right 256 ih

/-! ### Headers -/

section Header

variable {short len len' : ℕ}

theorem header_of_le (h : len ≤ 55) : header short len = [UInt8.ofNat (short + len)] := by
  rw [header, if_pos h]

theorem header_of_lt (h : 55 < len) :
    header short len = UInt8.ofNat (short + 55 + (beBytes len).length) :: beBytes len := by
  rw [header, if_neg (by omega)]

/-- A tag and a length prefix without a leading zero whose value is above 55
are the long header of that value. -/
theorem cons_eq_header {x : UInt8} {bs : List UInt8} (hx : x.toNat = short + 55 + bs.length)
    (h55 : 55 < beValue bs) (hcanon : bs.headD 0 ≠ 0) : x :: bs = header short (beValue bs) := by
  rw [header_of_lt h55, beBytes_beValue hcanon, ← hx, UInt8.ofNat_toNat]

/-- The first byte of a header of a payload shorter than `2^64` lies in the
64 bytes from `short` on. -/
theorem header_eq_cons (hs : short + 63 < 256) (hlen : len < 2 ^ 64) :
    ∃ b t, header short len = b :: t ∧ short ≤ b.toNat ∧ b.toNat ≤ short + 63 := by
  unfold header
  split_ifs with h
  · refine ⟨_, [], rfl, ?_⟩
    rw [UInt8.toNat_ofNat']
    omega
  · have hk := length_beBytes_le (k := 8) (by omega : len < 256 ^ 8)
    refine ⟨_, _, rfl, ?_⟩
    rw [UInt8.toNat_ofNat']
    omega

/-- **A header and what follows it are read back**: the payload length, and the
bytes after the header. -/
theorem header_append_inj {r r' : List UInt8} (hlen : len < 2 ^ 64)
    (hlen' : len' < 2 ^ 64) (h : header short len ++ r = header short len' ++ r') :
    len = len' ∧ r = r' := by
  have hk := length_beBytes_le (k := 8) (by omega : len < 256 ^ 8)
  have hk' := length_beBytes_le (k := 8) (by omega : len' < 256 ^ 8)
  unfold header at h
  split_ifs at h with h1 h2 h2
  · -- two one-byte headers
    obtain ⟨hb, hr⟩ := List.cons_eq_cons.mp h
    have := congrArg UInt8.toNat hb
    rw [UInt8.toNat_ofNat', UInt8.toNat_ofNat'] at this
    exact ⟨by omega, hr⟩
  · have := congrArg UInt8.toNat (List.cons_eq_cons.mp h).1
    rw [UInt8.toNat_ofNat', UInt8.toNat_ofNat'] at this
    have := length_beBytes_pos (by omega : 0 < len')
    omega
  · have := congrArg UInt8.toNat (List.cons_eq_cons.mp h).1
    rw [UInt8.toNat_ofNat', UInt8.toNat_ofNat'] at this
    have := length_beBytes_pos (by omega : 0 < len)
    omega
  · -- two long headers: the length of the length, then the length
    obtain ⟨hb, hr⟩ := List.cons_eq_cons.mp h
    have hkk := congrArg UInt8.toNat hb
    rw [UInt8.toNat_ofNat', UInt8.toNat_ofNat'] at hkk
    obtain ⟨hbe, hr⟩ := List.append_inj hr (by omega)
    exact ⟨beBytes_injective hbe, hr⟩

end Header

/-! ### The encoding is prefix-free -/

section Injective

/-- A string is encoded either as its one byte below `0x80`, or behind a string
header. -/
theorem encodeString_cases (bytes : List UInt8) :
    (∃ b, bytes = [b] ∧ b.toNat < 0x80 ∧ encodeString bytes = [b]) ∨
      encodeString bytes = header 0x80 bytes.length ++ bytes := by
  unfold encodeString
  split
  · rename_i b
    split_ifs with hb
    · exact .inl ⟨b, rfl, hb, rfl⟩
    · exact .inr rfl
  · exact .inr rfl

/-- A string that is not a single byte below `0x80` is encoded behind a header. -/
theorem encodeString_of_not_byte {bytes : List UInt8}
    (h : ∀ b, bytes = [b] → 0x80 ≤ b.toNat) :
    encodeString bytes = header 0x80 bytes.length ++ bytes := by
  rcases encodeString_cases bytes with ⟨b, rfl, hb, -⟩ | he
  · have := h b rfl
    omega
  · exact he

/-- A string behind a header is not a single byte below `0x80`. -/
theorem not_byte_of_encodeString_eq {bytes : List UInt8}
    (h : encodeString bytes = header 0x80 bytes.length ++ bytes) :
    ∀ b, bytes = [b] → 0x80 ≤ b.toNat := by
  intro b hb
  by_contra hlt
  subst hb
  have := congrArg List.length h
  simp [encodeString, show b.toNat < 0x80 by omega, header] at this

/-- A number whose minimal bytes are encoded behind a header is zero, or at
least `0x80`. -/
theorem eq_zero_or_le_of_encodeString {n : ℕ}
    (h : encodeString (beBytes n) = header 0x80 (beBytes n).length ++ beBytes n) :
    n = 0 ∨ 0x80 ≤ n := by
  rcases Nat.eq_zero_or_pos n with h0 | h0
  · exact .inl h0
  · refine .inr (Nat.le_of_not_lt fun hlt => ?_)
    have := not_byte_of_encodeString_eq h _ (beBytes_of_lt_256 h0 (by omega))
    rw [UInt8.toNat_ofNat', Nat.mod_eq_of_lt (by omega)] at this
    omega

theorem length_le_encodeString (bytes : List UInt8) : bytes.length ≤ (encodeString bytes).length := by
  rcases encodeString_cases bytes with ⟨b, rfl, -, h⟩ | h <;> simp [h]

/-- The first byte of a string's encoding is below `0xc0`. -/
theorem encodeString_eq_cons {bytes : List UInt8} (h : bytes.length < 2 ^ 64) :
    ∃ b t, encodeString bytes = b :: t ∧ b.toNat < 0xc0 := by
  rcases encodeString_cases bytes with ⟨b, -, hb, he⟩ | he
  · exact ⟨b, [], he, by omega⟩
  · obtain ⟨b, t, hh, -, hb⟩ := @header_eq_cons 0x80 _ (by omega) h
    exact ⟨b, t ++ bytes, by rw [he, hh, List.cons_append], by omega⟩

/-- The first byte of a list's encoding is `0xc0` or above. -/
theorem encode_list_eq_cons {items : List Item} (h : (Item.encodeAll items).length < 2 ^ 64) :
    ∃ b t, (Item.list items).encode = b :: t ∧ 0xc0 ≤ b.toNat := by
  obtain ⟨b, t, hh, hb, -⟩ := @header_eq_cons 0xc0 _ (by omega) h
  exact ⟨b, t ++ Item.encodeAll items, by rw [encode_list, hh, List.cons_append], hb⟩

theorem encode_ne_nil (i : Item) : i.encode ≠ [] := by
  cases i with
  | str bytes =>
    rw [encode_str]
    rcases encodeString_cases bytes with ⟨b, -, -, h⟩ | h
    · simp [h]
    · unfold header at h
      split_ifs at h <;> simp [h]
  | list items =>
    rw [encode_list]
    unfold header
    split_ifs <;> simp

/-- Two strings whose encodings start two byte sequences alike are the same,
and so is what follows them. -/
theorem encodeString_append_inj {bytes bytes' r r' : List UInt8} (hlen : bytes.length < 2 ^ 64)
    (hlen' : bytes'.length < 2 ^ 64) (h : encodeString bytes ++ r = encodeString bytes' ++ r') :
    bytes = bytes' ∧ r = r' := by
  rcases encodeString_cases bytes with ⟨b, rfl, hb, he⟩ | he <;>
  rcases encodeString_cases bytes' with ⟨b', rfl, hb', he'⟩ | he' <;>
  rw [he, he'] at h
  · -- two bytes standing for themselves
    obtain ⟨rfl, hr⟩ := List.cons_eq_cons.mp h
    exact ⟨rfl, hr⟩
  · -- a byte below `0x80` against a string header
    obtain ⟨c, t, hh, hc, -⟩ := @header_eq_cons 0x80 _ (by omega) hlen'
    rw [hh] at h
    simp only [List.cons_append] at h
    have := congrArg UInt8.toNat (List.cons_eq_cons.mp h).1
    omega
  · obtain ⟨c, t, hh, hc, -⟩ := @header_eq_cons 0x80 _ (by omega) hlen
    rw [hh] at h
    simp only [List.cons_append] at h
    have := congrArg UInt8.toNat (List.cons_eq_cons.mp h).1
    omega
  · -- two string headers: the same length, then the same bytes
    rw [List.append_assoc, List.append_assoc] at h
    obtain ⟨hl, h⟩ := header_append_inj hlen hlen' h
    exact List.append_inj h hl

theorem length_payload_lt {items : List Item} (h : (Item.list items).encode.length < 2 ^ 64) :
    (Item.encodeAll items).length < 2 ^ 64 := by
  rw [encode_list, List.length_append] at h
  omega

theorem length_bytes_lt {bytes : List UInt8} (h : (Item.str bytes).encode.length < 2 ^ 64) :
    bytes.length < 2 ^ 64 := by
  rw [encode_str] at h
  exact Nat.lt_of_le_of_lt (length_le_encodeString bytes) h

/-- An item of a list is encoded within the list's payload. -/
theorem length_encode_le_of_mem {i : Item} {items : List Item} (h : i ∈ items) :
    i.encode.length ≤ (Item.encodeAll items).length := by
  induction items with
  | nil => simp at h
  | cons j js ih =>
    rw [encodeAll_cons, List.length_append]
    rcases List.mem_cons.mp h with rfl | h
    · omega
    · have := ih h
      omega

/-- Every item takes a byte at least. -/
theorem length_le_length_encodeAll (items : List Item) :
    items.length ≤ (Item.encodeAll items).length := by
  induction items with
  | nil => simp
  | cons j js ih =>
    have := List.length_pos_of_ne_nil (encode_ne_nil j)
    rw [encodeAll_cons, List.length_append, List.length_cons]
    omega

mutual

/-- **The encoding of an item shorter than `2^64` bytes is prefix-free**: an
encoding followed by anything determines the item and what follows it. The
first byte tells strings from lists; then the header gives the payload length,
and the payload is read item by item. -/
theorem Item.encode_append_inj : ∀ (i j : Item) {r r' : List UInt8},
    i.encode.length < 2 ^ 64 → j.encode.length < 2 ^ 64 → i.encode ++ r = j.encode ++ r' →
      i = j ∧ r = r'
  | .str bytes, .str bytes', r, r', hi, hj, h => by
    rw [encode_str, encode_str] at h
    obtain ⟨rfl, hr⟩ := encodeString_append_inj (length_bytes_lt hi) (length_bytes_lt hj) h
    exact ⟨rfl, hr⟩
  | .str bytes, .list items, r, r', hi, hj, h => by
    obtain ⟨b, t, hb, hlt⟩ := encodeString_eq_cons (length_bytes_lt hi)
    obtain ⟨c, u, hc, hge⟩ := encode_list_eq_cons (length_payload_lt hj)
    rw [encode_str, hb, hc] at h
    have := congrArg UInt8.toNat (List.cons_eq_cons.mp h).1
    omega
  | .list items, .str bytes, r, r', hi, hj, h => by
    obtain ⟨b, t, hb, hlt⟩ := encodeString_eq_cons (length_bytes_lt hj)
    obtain ⟨c, u, hc, hge⟩ := encode_list_eq_cons (length_payload_lt hi)
    rw [encode_str, hb, hc] at h
    have := congrArg UInt8.toNat (List.cons_eq_cons.mp h).1
    omega
  | .list items, .list items', r, r', hi, hj, h => by
    have hp := length_payload_lt hi
    have hp' := length_payload_lt hj
    rw [encode_list, encode_list, List.append_assoc, List.append_assoc] at h
    obtain ⟨hl, h⟩ := header_append_inj hp hp' h
    obtain ⟨hpay, hr⟩ := List.append_inj h hl
    exact ⟨congrArg Item.list (Item.encodeAll_inj items items' hp hp' hpay), hr⟩

/-- The payload of a list determines its items. -/
theorem Item.encodeAll_inj : ∀ (is js : List Item), (Item.encodeAll is).length < 2 ^ 64 →
    (Item.encodeAll js).length < 2 ^ 64 → Item.encodeAll is = Item.encodeAll js → is = js
  | [], [], _, _, _ => rfl
  | [], j :: js, _, _, h => by
    rw [encodeAll_nil, encodeAll_cons] at h
    exact absurd h.symm (List.append_ne_nil_of_left_ne_nil (encode_ne_nil j) _)
  | i :: is, [], _, _, h => by
    rw [encodeAll_nil, encodeAll_cons] at h
    exact absurd h (List.append_ne_nil_of_left_ne_nil (encode_ne_nil i) _)
  | i :: is, j :: js, hi, hj, h => by
    simp only [encodeAll_cons, List.length_append] at hi hj h
    obtain ⟨rfl, hrest⟩ := Item.encode_append_inj i j (by omega) (by omega) h
    rw [Item.encodeAll_inj is js (by omega) (by omega) hrest]

end

/-- **RLP is injective on the items it can encode.** -/
theorem Item.encode_injective {i j : Item} (hi : i.encode.length < 2 ^ 64)
    (hj : j.encode.length < 2 ^ 64) (h : i.encode = j.encode) : i = j :=
  (Item.encode_append_inj i j hi hj (show i.encode ++ [] = j.encode ++ [] by rw [h])).1

/-- A natural number as an item: its minimal big-endian string. -/
def Item.nat (n : ℕ) : Item := .str (beBytes n)

@[simp] theorem Item.nat_inj {m n : ℕ} : Item.nat m = Item.nat n ↔ m = n :=
  ⟨fun h => beBytes_injective (Item.str.inj h), fun h => h ▸ rfl⟩

end Injective

/-! ### Lengths -/

section Length

theorem length_header_le {short len : ℕ} (h : len < 2 ^ 64) : (header short len).length ≤ 9 := by
  unfold header
  split_ifs
  · simp
  · have := length_beBytes_le (k := 8) (by omega : len < 256 ^ 8)
    simp only [List.length_cons]
    omega

/-- A string's encoding adds at most nine bytes to it. -/
theorem length_encode_str_le {bytes : List UInt8} (h : bytes.length < 2 ^ 64) :
    (Item.str bytes).encode.length ≤ bytes.length + 9 := by
  rw [encode_str]
  rcases encodeString_cases bytes with ⟨b, rfl, -, he⟩ | he
  · simp [he]
  · have := @length_header_le 0x80 _ h
    rw [he, List.length_append]
    omega

/-- A list's encoding adds at most nine bytes to its payload. -/
theorem length_encode_list_le {items : List Item} (h : (Item.encodeAll items).length < 2 ^ 64) :
    (Item.list items).encode.length ≤ (Item.encodeAll items).length + 9 := by
  have := @length_header_le 0xc0 _ h
  rw [encode_list, List.length_append]
  omega

/-- A number below `256 ^ k` is encoded in at most `k + 9` bytes. -/
theorem length_encode_nat_le {n k : ℕ} (h : n < 256 ^ k) (hk : k < 2 ^ 64) :
    (Item.nat n).encode.length ≤ k + 9 := by
  have hb := length_beBytes_le h
  have := @length_encode_str_le (beBytes n) (by omega)
  rw [Item.nat]
  omega

end Length

end Rlp
