import PureChain.Lib.Rlp
import PureChain.Lib.Except

/-!
# Package `rlp`: splitting encoded values

`rlp.Split` reads the header of the first value in a byte slice and returns
its kind, its content and the bytes after it; `SplitString` and `SplitList`
insist on a kind. The header is read by `readKind`, which is where the decoder
refuses what the encoder never writes: a single byte below `0x80` behind a
string header, a length prefix for fewer than 56 bytes, a length prefix with a
leading zero byte, and a value longer than the input.

A whole item tree is decoded from the raw functions the way their callers do
it: split the first value, and split the content of a list value after value
until it is used up (`splitValues`, `splitValue`).

The two results, each by induction on the tree:

* the split of an encoding followed by anything is the tree and what follows
  (`splitValue_encode`);
* what the split accepts is an encoding followed by what it leaves
  (`encode_of_splitValue`): accepted input is canonical.

Both rest on what `Split` does to one header (`Split_eq_ok` for what it accepts,
`Split_encodeString` and `Split_list` for what it is given by the encoder).
-/

namespace PureChain

namespace rlp

open Rlp

/-- `Kind`: the three kinds of value a header announces. -/
inductive Kind where
  | Byte
  | String
  | List
  deriving DecidableEq, Repr

/-- The errors of the decoders: those of package `rlp` and the two of package
`io` they return. -/
inductive RlpError where
  | EOF
  | ErrUnexpectedEOF
  | EOL
  | ErrExpectedString
  | ErrExpectedList
  | ErrCanonInt
  | ErrCanonSize
  | ErrElemTooLarge
  | ErrValueTooLarge
  | ErrMoreThanOneValue
  | errNotInList
  | errNotAtEOL
  | errUintOverflow
  /-- The typed decoders' `decodeError` "input string too long". -/
  | errInputStringTooLong
  /-- `decodeError` "input string too short". -/
  | errInputStringTooShort
  /-- `decodeError` "too few elements", of a struct. -/
  | errTooFewElements
  /-- `decodeError` "wrong kind of empty value", of a nil pointer. -/
  | errWrongKindOfEmptyValue
  /-- The writer's "cannot encode negative *big.Int". -/
  | errNegativeBigInt
  /-- Not an error of the code: the bound the model puts on the stream
  decoder's recursion ran out. The bound `DecodeBytes` gives never does. -/
  | fuel
  deriving DecidableEq, Repr

/-! ### Reading a header -/

/-- `readSize`: `slen` big-endian bytes, at least 56 and without a leading
zero. -/
def readSize (b : List UInt8) (slen : ℕ) : Except RlpError ℕ :=
  if slen > b.length then throw .ErrUnexpectedEOF
  else
    let s := beValue (b.take slen)
    -- reject sizes below 56 and sizes with leading zero bytes
    if s < 56 ∨ b.headD 0 = 0 then throw .ErrCanonSize else pure s

/-- `readKind`: the kind, the size of the header and the size of the content. -/
def readKind (buf : List UInt8) : Except RlpError (Kind × ℕ × ℕ) :=
  match buf with
  | [] => throw .ErrUnexpectedEOF
  | b :: rest => do
    let (k, tagsize, contentsize) ←
      if b < 0x80 then pure (Kind.Byte, 0, 1)
      else if b < 0xB8 then
        -- reject strings that should have been single bytes
        if (b - 0x80).toNat = 1 ∧ 0 < rest.length ∧ rest.headD 0 < 128 then throw .ErrCanonSize
        else pure (Kind.String, 1, (b - 0x80).toNat)
      else if b < 0xC0 then do
        let contentsize ← readSize rest (b - 0xB7).toNat
        pure (Kind.String, (b - 0xB7).toNat + 1, contentsize)
      else if b < 0xF8 then pure (Kind.List, 1, (b - 0xC0).toNat)
      else do
        let contentsize ← readSize rest (b - 0xF7).toNat
        pure (Kind.List, (b - 0xF7).toNat + 1, contentsize)
    -- reject values larger than the input slice
    if contentsize > buf.length - tagsize then throw .ErrValueTooLarge
    else pure (k, tagsize, contentsize)

/-- `Split`: the kind and content of the first value, and the bytes after it. -/
def Split (b : List UInt8) : Except RlpError (Kind × List UInt8 × List UInt8) := do
  let (k, ts, cs) ← readKind b
  pure (k, (b.drop ts).take cs, b.drop (ts + cs))

/-- `SplitString`. -/
def SplitString (b : List UInt8) : Except RlpError (List UInt8 × List UInt8) := do
  let (k, content, rest) ← Split b
  if k = .List then throw .ErrExpectedString else pure (content, rest)

/-- `SplitList`. -/
def SplitList (b : List UInt8) : Except RlpError (List UInt8 × List UInt8) := do
  let (k, content, rest) ← Split b
  if k ≠ .List then throw .ErrExpectedList else pure (content, rest)

/-! ### The header of each kind -/

section ReadKind

variable {b : UInt8} {rest : List UInt8}

theorem readSize_eq_ok {bs : List UInt8} {slen s : ℕ} :
    readSize bs slen = .ok s ↔
      slen ≤ bs.length ∧ s = beValue (bs.take slen) ∧ 56 ≤ s ∧ bs.headD 0 ≠ 0 := by
  unfold readSize
  dsimp only
  split_ifs with h1 h2
  · refine ⟨fun h => h.elim, ?_⟩
    rintro ⟨hl, -⟩
    omega
  · refine ⟨fun h => h.elim, ?_⟩
    rintro ⟨-, rfl, h56, h0⟩
    rcases h2 with h2 | h2
    · omega
    · exact absurd h2 h0
  · refine ⟨fun h => ?_, ?_⟩
    · cases h
      obtain ⟨h56, h0⟩ := not_or.mp h2
      exact ⟨by omega, rfl, by omega, h0⟩
    · rintro ⟨-, rfl, -, -⟩
      rfl

/-- A length prefix read back: the minimal bytes of a size from 56 on. -/
theorem readSize_beBytes {n : ℕ} (hn : 56 ≤ n) (r : List UInt8) :
    readSize (beBytes n ++ r) (beBytes n).length = .ok n := by
  have hpos := length_beBytes_pos (by omega : 0 < n)
  have hhead := headD_beBytes_ne_zero (by omega : 0 < n)
  obtain ⟨c, cs, hc⟩ := List.exists_cons_of_length_pos hpos
  refine readSize_eq_ok.2 ⟨by simp, by rw [List.take_left, beValue_beBytes], hn, ?_⟩
  rw [hc] at hhead ⊢
  exact hhead

/-- What a length prefix that was read back is: the minimal bytes of the size. -/
theorem take_eq_beBytes_of_readSize {bs : List UInt8} {slen s : ℕ} (hslen : 0 < slen)
    (h : readSize bs slen = .ok s) : bs.take slen = beBytes s := by
  obtain ⟨hlen, rfl, -, h0⟩ := readSize_eq_ok.1 h
  obtain ⟨c, cs, hc⟩ := List.exists_cons_of_length_pos (by omega : 0 < bs.length)
  rw [beBytes_beValue]
  subst hc
  obtain ⟨k, rfl⟩ := Nat.exists_eq_succ_of_ne_zero (by omega : slen ≠ 0)
  exact h0

theorem readKind_byte (hb : b.toNat < 0x80) : readKind (b :: rest) = pure (.Byte, 0, 1) := by
  have h1 : b < 0x80 := UInt8.lt_iff_toNat_lt.mpr hb
  simp [readKind, h1]

theorem readKind_string (hb₁ : 0x80 ≤ b.toNat) (hb₂ : b.toNat < 0xB8) :
    readKind (b :: rest) =
      if b.toNat - 0x80 = 1 ∧ 0 < rest.length ∧ rest.headD 0 < 128 then throw .ErrCanonSize
      else if b.toNat - 0x80 > rest.length then throw .ErrValueTooLarge
      else pure (.String, 1, b.toNat - 0x80) := by
  have h1 : ¬ b < 0x80 := fun h => by rw [UInt8.lt_iff_toNat_lt] at h; simp at h; omega
  have h2 : b < 0xB8 := UInt8.lt_iff_toNat_lt.mpr hb₂
  have hsub : (b - 0x80).toNat = b.toNat - 0x80 :=
    UInt8.toNat_sub_of_le _ _ (UInt8.le_iff_toNat_le.mpr hb₁)
  simp only [readKind, h1, h2, if_false, if_true, hsub]
  by_cases hc : b.toNat - 0x80 = 1 ∧ 0 < rest.length ∧ rest.headD 0 < 128
  · rw [if_pos hc, if_pos hc]
    rfl
  · rw [if_neg hc, if_neg hc, pure_bind]
    simp only [List.length_cons, Nat.add_sub_cancel]

theorem readKind_longString (hb₁ : 0xB8 ≤ b.toNat) (hb₂ : b.toNat < 0xC0) :
    readKind (b :: rest) =
      (readSize rest (b.toNat - 0xB7) >>= fun cs =>
        if cs > rest.length - (b.toNat - 0xB7) then throw .ErrValueTooLarge
        else pure (.String, b.toNat - 0xB7 + 1, cs)) := by
  have h1 : ¬ b < 0x80 := fun h => by rw [UInt8.lt_iff_toNat_lt] at h; simp at h; omega
  have h2 : ¬ b < 0xB8 := fun h => by rw [UInt8.lt_iff_toNat_lt] at h; simp at h; omega
  have h3 : b < 0xC0 := UInt8.lt_iff_toNat_lt.mpr hb₂
  have hle : (0xB7 : UInt8) ≤ b := UInt8.le_iff_toNat_le.mpr (by simp; omega)
  have hsub : (b - 0xB7).toNat = b.toNat - 0xB7 := UInt8.toNat_sub_of_le _ _ hle
  simp only [readKind, h1, h2, h3, if_false, if_true, hsub]
  cases readSize rest (b.toNat - 0xB7) with
  | error e => simp only [Except.bind_error]
  | ok cs => simp

theorem readKind_list (hb₁ : 0xC0 ≤ b.toNat) (hb₂ : b.toNat < 0xF8) :
    readKind (b :: rest) =
      if b.toNat - 0xC0 > rest.length then throw .ErrValueTooLarge
      else pure (.List, 1, b.toNat - 0xC0) := by
  have h1 : ¬ b < 0x80 := fun h => by rw [UInt8.lt_iff_toNat_lt] at h; simp at h; omega
  have h2 : ¬ b < 0xB8 := fun h => by rw [UInt8.lt_iff_toNat_lt] at h; simp at h; omega
  have h3 : ¬ b < 0xC0 := fun h => by rw [UInt8.lt_iff_toNat_lt] at h; simp at h; omega
  have h4 : b < 0xF8 := UInt8.lt_iff_toNat_lt.mpr hb₂
  have hsub : (b - 0xC0).toNat = b.toNat - 0xC0 :=
    UInt8.toNat_sub_of_le _ _ (UInt8.le_iff_toNat_le.mpr hb₁)
  simp only [readKind, h1, h2, h3, h4, if_false, if_true, hsub]
  simp [List.length_cons]

theorem readKind_longList (hb : 0xF8 ≤ b.toNat) :
    readKind (b :: rest) =
      (readSize rest (b.toNat - 0xF7) >>= fun cs =>
        if cs > rest.length - (b.toNat - 0xF7) then throw .ErrValueTooLarge
        else pure (.List, b.toNat - 0xF7 + 1, cs)) := by
  have h1 : ¬ b < 0x80 := fun h => by rw [UInt8.lt_iff_toNat_lt] at h; simp at h; omega
  have h2 : ¬ b < 0xB8 := fun h => by rw [UInt8.lt_iff_toNat_lt] at h; simp at h; omega
  have h3 : ¬ b < 0xC0 := fun h => by rw [UInt8.lt_iff_toNat_lt] at h; simp at h; omega
  have h4 : ¬ b < 0xF8 := fun h => by rw [UInt8.lt_iff_toNat_lt] at h; simp at h; omega
  have hle : (0xF7 : UInt8) ≤ b := UInt8.le_iff_toNat_le.mpr (by simp; omega)
  have hsub : (b - 0xF7).toNat = b.toNat - 0xF7 := UInt8.toNat_sub_of_le _ _ hle
  simp only [readKind, h1, h2, h3, h4, if_false, hsub]
  cases readSize rest (b.toNat - 0xF7) with
  | error e => simp only [Except.bind_error]
  | ok cs => simp

end ReadKind

/-! ### What `Split` accepts, and what it is given -/

section Split

variable {x : UInt8} {r : List UInt8}

theorem Split_of_readKind {b : List UInt8} {k : Kind} {ts cs : ℕ} (h : readKind b = .ok (k, ts, cs)) :
    Split b = .ok (k, (b.drop ts).take cs, b.drop (ts + cs)) := by
  simp [Split, h]

/-- A one-byte header read back: the header, the content it counts, the rest. -/
theorem eq_short_header {short n : ℕ} (hx : x.toNat = short + n) (hn : n ≤ 55) :
    x :: r = header short n ++ r.take n ++ r.drop n := by
  have hx' : x = UInt8.ofNat (short + n) := by rw [← hx, UInt8.ofNat_toNat]
  rw [header_of_le hn, hx', List.singleton_append, List.cons_append, List.take_append_drop]

/-- A long header read back: its length prefix is the minimal bytes of the size
it states, so the bytes are the header, the content, the rest. -/
theorem eq_long_header {short k cs : ℕ} (hx : x.toNat = short + 55 + k) (hk : 0 < k)
    (h : readSize r k = .ok cs) :
    x :: r = header short cs ++ (r.drop k).take cs ++ r.drop (k + cs) := by
  obtain ⟨hlen, -, h56, -⟩ := readSize_eq_ok.1 h
  have hpre := take_eq_beBytes_of_readSize hk h
  have hk' : (beBytes cs).length = k := by rw [← hpre, List.length_take]; omega
  have hx' : x = UInt8.ofNat (short + 55 + (beBytes cs).length) := by
    rw [hk', ← hx, UInt8.ofNat_toNat]
  rw [header_of_lt (by omega), hx']
  simp only [List.cons_append, List.append_assoc]
  rw [← hpre, ← List.drop_drop, List.take_append_drop, List.take_append_drop]

/-- **What `Split` accepts.** A list value is a list header and the content it
counts; any other value is the encoding of its content as a string – in
particular a single byte below `0x80` is never behind a header, and a length
prefix is the minimal bytes of a size above 55. -/
theorem Split_eq_ok {b : List UInt8} {k : Kind} {content rest : List UInt8}
    (h : Split b = .ok (k, content, rest)) :
    (k = .List ∧ b = header 0xc0 content.length ++ content ++ rest) ∨
      (k ≠ .List ∧ b = Rlp.encodeString content ++ rest) := by
  obtain ⟨⟨k', ts, cs⟩, hk, hres⟩ := Except.bind_eq_ok.mp h
  simp only [Except.pure_eq_ok, Prod.mk.injEq] at hres
  obtain ⟨rfl, rfl, rfl⟩ := hres
  cases b with
  | nil => exact absurd hk Except.throw_ne_ok
  | cons x r =>
    rcases Nat.lt_or_ge x.toNat 0x80 with h1 | h1
    · -- a byte that stands for itself
      rw [readKind_byte h1, Except.pure_eq_ok, Prod.mk.injEq, Prod.mk.injEq] at hk
      obtain ⟨rfl, rfl, rfl⟩ := hk
      refine .inr ⟨by decide, ?_⟩
      simp [Rlp.encodeString, h1]
    rcases Nat.lt_or_ge x.toNat 0xB8 with h2 | h2
    · -- a short string, never a single byte below `0x80`
      rw [readKind_string h1 h2] at hk
      simp only [Except.ite_throw_eq_ok, Except.pure_eq_ok, Prod.mk.injEq] at hk
      obtain ⟨hcanon, hlen, rfl, rfl, rfl⟩ := hk
      have hlen' : (r.take (x.toNat - 0x80)).length = x.toNat - 0x80 := by
        rw [List.length_take]; omega
      refine .inr ⟨by decide, ?_⟩
      rw [List.drop_one, List.tail_cons, Nat.add_comm, List.drop_succ_cons,
        encodeString_of_not_byte ?_, hlen']
      · exact eq_short_header (by omega) (by omega)
      · intro y hy
        have h1' : x.toNat - 0x80 = 1 := by rw [← hlen', hy, List.length_singleton]
        obtain ⟨z, zs, rfl⟩ := List.exists_cons_of_length_pos (by omega : 0 < r.length)
        simp only [h1', List.take_succ_cons, List.take_zero, List.cons.injEq, and_true] at hy
        subst hy
        have hz : ¬ z < 128 := fun hz => hcanon ⟨h1', by simp, by simpa using hz⟩
        rw [UInt8.lt_iff_toNat_lt] at hz
        simp at hz
        omega
    rcases Nat.lt_or_ge x.toNat 0xC0 with h3 | h3
    · -- a long string
      rw [readKind_longString h2 h3] at hk
      obtain ⟨cs, hsize, hk⟩ := Except.bind_eq_ok.mp hk
      simp only [Except.ite_throw_eq_ok, Except.pure_eq_ok, Prod.mk.injEq] at hk
      obtain ⟨hlen, rfl, rfl, rfl⟩ := hk
      have h56 := (readSize_eq_ok.1 hsize).2.2.1
      have hlen' : ((r.drop (x.toNat - 0xB7)).take cs).length = cs := by
        rw [List.length_take, List.length_drop]; omega
      refine .inr ⟨by decide, ?_⟩
      rw [List.drop_succ_cons, Nat.add_right_comm, List.drop_succ_cons,
        encodeString_of_not_byte ?_, hlen']
      · exact eq_long_header (by omega) (by omega) hsize
      · intro y hy
        rw [hy, List.length_singleton] at hlen'
        omega
    rcases Nat.lt_or_ge x.toNat 0xF8 with h4 | h4
    · -- a short list
      rw [readKind_list h3 h4] at hk
      simp only [Except.ite_throw_eq_ok, Except.pure_eq_ok, Prod.mk.injEq] at hk
      obtain ⟨hlen, rfl, rfl, rfl⟩ := hk
      have hlen' : (r.take (x.toNat - 0xC0)).length = x.toNat - 0xC0 := by
        rw [List.length_take]; omega
      refine .inl ⟨rfl, ?_⟩
      rw [List.drop_one, List.tail_cons, Nat.add_comm, List.drop_succ_cons, hlen']
      exact eq_short_header (by omega) (by omega)
    · -- a long list
      rw [readKind_longList h4] at hk
      obtain ⟨cs, hsize, hk⟩ := Except.bind_eq_ok.mp hk
      simp only [Except.ite_throw_eq_ok, Except.pure_eq_ok, Prod.mk.injEq] at hk
      obtain ⟨hlen, rfl, rfl, rfl⟩ := hk
      have hlen' : ((r.drop (x.toNat - 0xF7)).take cs).length = cs := by
        rw [List.length_take, List.length_drop]; omega
      refine .inl ⟨rfl, ?_⟩
      rw [List.drop_succ_cons, Nat.add_right_comm, List.drop_succ_cons, hlen']
      exact eq_long_header (by omega) (by omega) hsize

/-- A header read as the header it is: the content it counts and the rest. -/
theorem Split_of_header {hd c rest : List UInt8} {k : Kind}
    (h : readKind (hd ++ c ++ rest) = .ok (k, hd.length, c.length)) :
    Split (hd ++ c ++ rest) = .ok (k, c, rest) := by
  rw [Split_of_readKind h, List.append_assoc, List.drop_left, List.take_left, ← List.drop_drop,
    List.drop_left, List.drop_left]

/-- The tag of a long header and its length prefix, read back. -/
theorem readSize_of_long_header (short : ℕ) {n : ℕ} (hn : 55 < n) (hlt : n < 2 ^ 64) (r : List UInt8) :
    ∃ x k, header short n ++ r = x :: (beBytes n ++ r) ∧ x.toNat = (short + 55 + k) % 256 ∧
      1 ≤ k ∧ k ≤ 8 ∧ (beBytes n).length = k ∧ readSize (beBytes n ++ r) k = .ok n := by
  have hk := length_beBytes_le (k := 8) (by omega : n < 256 ^ 8)
  have hk1 := length_beBytes_pos (by omega : 0 < n)
  refine ⟨_, _, by rw [header_of_lt hn, List.cons_append], UInt8.toNat_ofNat', hk1, hk, rfl,
    readSize_beBytes (by omega) r⟩

/-- **A string the encoder wrote is split back**, whatever follows it. -/
theorem Split_encodeString (c rest : List UInt8) (hc : c.length < 2 ^ 64) :
    ∃ k, k ≠ .List ∧ Split (Rlp.encodeString c ++ rest) = .ok (k, c, rest) := by
  rcases encodeString_cases c with ⟨y, rfl, hy, he⟩ | he
  · refine ⟨.Byte, by decide, ?_⟩
    rw [he, List.singleton_append, Split_of_readKind (readKind_byte hy)]
    rfl
  refine ⟨.String, by decide, ?_⟩
  rw [he, Split_of_header]
  rcases Nat.lt_or_ge 55 c.length with hn | hn
  · -- a long string header
    obtain ⟨x, k, hx, hxk, hk1, hk8, hlen, hsize⟩ := readSize_of_long_header 0x80 hn hc (c ++ rest)
    rw [List.append_assoc, hx, readKind_longString (by omega) (by omega)]
    have hk : x.toNat - 0xB7 = k := by omega
    rw [hk, hsize]
    simp only [Except.bind_ok, List.length_append, header_of_lt hn, List.length_cons, hlen]
    rw [if_neg (by omega)]
    rfl
  · -- a one-byte string header, which a single byte below `0x80` never gets
    have hnot := not_byte_of_encodeString_eq he
    have hx : (UInt8.ofNat (0x80 + c.length)).toNat = 0x80 + c.length := by
      rw [UInt8.toNat_ofNat']
      omega
    rw [header_of_le hn, List.singleton_append, List.cons_append, readKind_string (by omega) (by omega),
      hx, Nat.add_sub_cancel_left, if_neg, if_neg (by simp)]
    · rfl
    · rintro ⟨h1, -, hhead⟩
      obtain ⟨y, rfl⟩ := List.length_eq_one_iff.mp h1
      have := hnot y rfl
      rw [List.singleton_append, List.headD_cons, UInt8.lt_iff_toNat_lt] at hhead
      simp at hhead
      omega

/-- **A list header the encoder wrote is split back**, with the content it
counts and whatever follows. -/
theorem Split_list (c rest : List UInt8) (hc : c.length < 2 ^ 64) :
    Split (header 0xc0 c.length ++ c ++ rest) = .ok (.List, c, rest) := by
  rw [Split_of_header]
  rcases Nat.lt_or_ge 55 c.length with hn | hn
  · obtain ⟨x, k, hx, hxk, hk1, hk8, hlen, hsize⟩ := readSize_of_long_header 0xc0 hn hc (c ++ rest)
    rw [List.append_assoc, hx, readKind_longList (by omega)]
    have hk : x.toNat - 0xF7 = k := by omega
    rw [hk, hsize]
    simp only [Except.bind_ok, List.length_append, header_of_lt hn, List.length_cons, hlen]
    rw [if_neg (by omega)]
    rfl
  · have hx : (UInt8.ofNat (0xc0 + c.length)).toNat = 0xc0 + c.length := by
      rw [UInt8.toNat_ofNat']
      omega
    rw [header_of_le hn, List.singleton_append, List.cons_append, readKind_list (by omega) (by omega),
      hx, Nat.add_sub_cancel_left, if_neg (by simp)]
    rfl

theorem header_ne_nil (short len : ℕ) : header short len ≠ [] := by
  unfold header
  split_ifs <;> simp

/-- What follows the first value is shorter than the input, and so is the
content of a list value. -/
theorem Split_length_lt {b : List UInt8} {k : Kind} {content rest : List UInt8}
    (h : Split b = .ok (k, content, rest)) :
    rest.length < b.length ∧ (k = .List → content.length < b.length) := by
  rcases Split_eq_ok h with ⟨rfl, hb⟩ | ⟨hk, hb⟩
  · have := List.length_pos_of_ne_nil (header_ne_nil 0xc0 content.length)
    rw [hb]
    simp only [List.length_append]
    exact ⟨by omega, fun _ => by omega⟩
  · have := List.length_pos_of_ne_nil (encode_ne_nil (.str content))
    rw [encode_str] at this
    rw [hb, List.length_append]
    exact ⟨by omega, fun h => absurd h hk⟩

/-- What `Split` leaves is where the header it read skips to. -/
theorem readKind_of_Split {b : List UInt8} {k : Kind} {content rest : List UInt8}
    (h : Split b = .ok (k, content, rest)) : ∃ ts cs, readKind b = .ok (k, ts, cs) ∧ b.drop (ts + cs) = rest := by
  obtain ⟨⟨k', ts, cs⟩, hk, hres⟩ := Except.bind_eq_ok.mp h
  simp only [Except.pure_eq_ok, Prod.mk.injEq] at hres
  obtain ⟨rfl, -, rfl⟩ := hres
  exact ⟨ts, cs, hk, rfl⟩

/-- The content `SplitList` returns is shorter than its input. -/
theorem SplitList_length_lt {b content rest : List UInt8} (h : SplitList b = .ok (content, rest)) :
    content.length < b.length := by
  obtain ⟨⟨k, c, r⟩, hs, h⟩ := Except.bind_eq_ok.mp h
  simp only [ne_eq, Except.ite_throw_eq_ok, not_not, Except.pure_eq_ok, Prod.mk.injEq] at h
  obtain ⟨rfl, rfl, rfl⟩ := h
  exact (Split_length_lt hs).2 rfl

/-- What `SplitString` leaves is shorter than its input. -/
theorem SplitString_length_lt {b content rest : List UInt8} (h : SplitString b = .ok (content, rest)) :
    rest.length < b.length := by
  obtain ⟨⟨k, c, r⟩, hs, h⟩ := Except.bind_eq_ok.mp h
  simp only [Except.ite_throw_eq_ok, Except.pure_eq_ok, Prod.mk.injEq] at h
  obtain ⟨-, rfl, rfl⟩ := h
  exact (Split_length_lt hs).1

/-- `SplitString` reads back a string the encoder wrote. -/
theorem SplitString_encodeString (c rest : List UInt8) (hc : c.length < 2 ^ 64) :
    SplitString (Rlp.encodeString c ++ rest) = .ok (c, rest) := by
  obtain ⟨k, hk, hs⟩ := Split_encodeString c rest hc
  simp [SplitString, hs, hk]

/-- `SplitList` reads back a list header the encoder wrote. -/
theorem SplitList_list (c rest : List UInt8) (hc : c.length < 2 ^ 64) :
    SplitList (header 0xc0 c.length ++ c ++ rest) = .ok (c, rest) := by
  rw [SplitList, Split_list c rest hc]
  rfl

/-- The first value of an encoding followed by anything is split off. -/
theorem Split_encode (t : Item) (rest : List UInt8) (ht : t.encode.length < 2 ^ 64) :
    ∃ k content, Split (t.encode ++ rest) = .ok (k, content, rest) := by
  cases t with
  | str c =>
    obtain ⟨k, -, hs⟩ := Split_encodeString c rest (length_bytes_lt ht)
    exact ⟨k, c, by rw [encode_str, hs]⟩
  | list items =>
    exact ⟨.List, _, by rw [encode_list, Split_list _ rest (length_payload_lt ht)]⟩

/-- Only a single byte is read as a byte: every other header announces a string
or a list. -/
theorem length_of_Split_byte {b content rest : List UInt8} (h : Split b = .ok (.Byte, content, rest)) :
    content.length = 1 := by
  obtain ⟨⟨k, ts, cs⟩, hk, hres⟩ := Except.bind_eq_ok.mp h
  simp only [Except.pure_eq_ok, Prod.mk.injEq] at hres
  obtain ⟨rfl, rfl, -⟩ := hres
  cases b with
  | nil => exact absurd hk Except.throw_ne_ok
  | cons x r =>
    rcases Nat.lt_or_ge x.toNat 0x80 with h1 | h1
    · rw [readKind_byte h1, Except.pure_eq_ok, Prod.mk.injEq, Prod.mk.injEq] at hk
      obtain ⟨-, rfl, rfl⟩ := hk
      simp
    rcases Nat.lt_or_ge x.toNat 0xB8 with h2 | h2
    · rw [readKind_string h1 h2] at hk
      simp at hk
    rcases Nat.lt_or_ge x.toNat 0xC0 with h3 | h3
    · rw [readKind_longString h2 h3] at hk
      obtain ⟨_, -, hk⟩ := Except.bind_eq_ok.mp hk
      simp at hk
    rcases Nat.lt_or_ge x.toNat 0xF8 with h4 | h4
    · rw [readKind_list h3 h4] at hk
      simp at hk
    · rw [readKind_longList h4] at hk
      obtain ⟨_, -, hk⟩ := Except.bind_eq_ok.mp hk
      simp at hk

/-- A string the encoder wrote that is not one byte is split back as a string. -/
theorem Split_encodeString_string (c rest : List UInt8) (hc : c.length < 2 ^ 64) (h1 : c.length ≠ 1) :
    Split (Rlp.encodeString c ++ rest) = .ok (.String, c, rest) := by
  obtain ⟨k, hk, hs⟩ := Split_encodeString c rest hc
  cases k with
  | Byte => exact absurd (length_of_Split_byte hs) h1
  | String => exact hs
  | List => exact absurd rfl hk

end Split

/-! ### Counting values -/

section Count

/-- The loop of `CountValues` from the `i`-th value on: read a header, skip the
value it announces, until the input is used up. -/
def countValues (i : ℕ) (b : List UInt8) : Except RlpError ℕ :=
  if b = [] then pure i
  else
    match h : readKind b with
    | .error e => throw e
    | .ok (_, tagsize, size) => countValues (i + 1) (b.drop (tagsize + size))
termination_by b.length
decreasing_by exact (Split_length_lt (Split_of_readKind h)).1

/-- `CountValues`: the number of values in the input. -/
def CountValues (b : List UInt8) : Except RlpError ℕ := countValues 0 b

/-- A value that splits off counts one, and the loop goes on after it. -/
theorem countValues_of_Split {b : List UInt8} {k : Kind} {content rest : List UInt8}
    (h : Split b = .ok (k, content, rest)) (i : ℕ) : countValues i b = countValues (i + 1) rest := by
  obtain ⟨ts, cs, hk, rfl⟩ := readKind_of_Split h
  have hb : b ≠ [] := by
    rintro rfl
    exact absurd hk Except.throw_ne_ok
  rw [countValues, if_neg hb]
  split
  · rename_i e he
    rw [hk] at he
    cases he
  · rename_i k' ts' cs' he
    rw [hk] at he
    cases he
    rfl

/-- **The payload of a list counts its items.** -/
theorem countValues_encodeAll : ∀ (items : List Item) (i : ℕ), (Item.encodeAll items).length < 2 ^ 64 →
    countValues i (Item.encodeAll items) = .ok (i + items.length)
  | [], i, _ => by
    rw [encodeAll_nil, countValues, if_pos rfl, List.length_nil, Nat.add_zero]
    rfl
  | t :: ts, i, h => by
    rw [encodeAll_cons, List.length_append] at *
    obtain ⟨k, content, hs⟩ := Split_encode t (Item.encodeAll ts) (by omega)
    rw [countValues_of_Split hs, countValues_encodeAll ts (i + 1) (by omega), List.length_cons,
      Nat.add_assoc, Nat.add_comm 1]

end Count

/-! ### Item trees by `Split` -/

section Tree

/-- The values of a list's content, split one after the other until the content
is used up: how the callers of `Split` read a list. -/
def splitValues (b : List UInt8) : Except RlpError (List Item) :=
  if b = [] then pure []
  else
    match h : Split b with
    | .error e => throw e
    | .ok (k, content, rest) => do
      let v ← if hk : k = .List then Item.list <$> splitValues content else pure (Item.str content)
      let vs ← splitValues rest
      pure (v :: vs)
termination_by b.length
decreasing_by
  all_goals first
    | exact (Split_length_lt h).1
    | exact (Split_length_lt h).2 (by assumption)

/-- The first value of the input as an item tree, and the bytes after it. -/
def splitValue (b : List UInt8) : Except RlpError (Item × List UInt8) := do
  let (k, content, rest) ← Split b
  if k = .List then
    let items ← splitValues content
    pure (.list items, rest)
  else pure (.str content, rest)

@[simp] theorem splitValues_nil : splitValues [] = .ok [] := by
  rw [splitValues, if_pos rfl]
  rfl

/-- The content of a list is its first value and the values after it. -/
theorem splitValues_of_ne_nil {b : List UInt8} (hb : b ≠ []) :
    splitValues b =
      (splitValue b >>= fun p => splitValues p.2 >>= fun vs => pure (p.1 :: vs)) := by
  rw [splitValues, if_neg hb, splitValue]
  split
  · rename_i e h
    simp [h]
  · rename_i k content rest h
    simp only [h, Except.bind_ok]
    by_cases hk : k = .List
    · simp only [hk, dite_true, if_true]
      cases splitValues content <;> rfl
    · simp only [hk, dite_false, if_false]
      rfl

mutual

/-- **The split of an encoding followed by anything is the tree and what
follows.** -/
theorem splitValue_encode : ∀ (t : Item) (rest : List UInt8), t.encode.length < 2 ^ 64 →
    splitValue (t.encode ++ rest) = .ok (t, rest)
  | .str c, rest, h => by
    obtain ⟨k, hk, hs⟩ := Split_encodeString c rest (length_bytes_lt h)
    simp [splitValue, hs, hk]
  | .list items, rest, h => by
    rw [encode_list, splitValue, Split_list _ rest (length_payload_lt h)]
    simp [splitValues_encodeAll items (length_payload_lt h)]

/-- The payload of a list is split back into its items. -/
theorem splitValues_encodeAll : ∀ (items : List Item), (Item.encodeAll items).length < 2 ^ 64 →
    splitValues (Item.encodeAll items) = .ok items
  | [], _ => splitValues_nil
  | t :: ts, h => by
    rw [encodeAll_cons, List.length_append] at *
    rw [splitValues_of_ne_nil (List.append_ne_nil_of_left_ne_nil (encode_ne_nil t) _),
      splitValue_encode t _ (by omega), Except.bind_ok]
    simp [splitValues_encodeAll ts (by omega)]

end

/-- **What the split accepts is canonical**: an input it reads as a tree is the
encoding of that tree followed by what it leaves, and a list's content read as
items is their payload. -/
theorem encode_of_splitValue (n : ℕ) : ∀ b : List UInt8, b.length = n →
    (∀ t rest, splitValue b = .ok (t, rest) → b = t.encode ++ rest) ∧
      (∀ items, splitValues b = .ok items → b = Item.encodeAll items) := by
  induction n using Nat.strongRecOn with
  | _ n ih =>
    intro b hn
    -- the first value: a list's content is shorter, so it is read canonically
    have hvalue : ∀ t rest, splitValue b = .ok (t, rest) → b = t.encode ++ rest := by
      intro t rest h
      obtain ⟨⟨k, content, rest'⟩, hs, h⟩ := Except.bind_eq_ok.mp h
      have hlen := Split_length_lt hs
      rcases Split_eq_ok hs with ⟨rfl, hb⟩ | ⟨hk, hb⟩
      · have hshort := hlen.2 rfl
        simp only [if_true] at h
        obtain ⟨items, hitems, h⟩ := Except.bind_eq_ok.mp h
        simp only [Except.pure_eq_ok, Prod.mk.injEq] at h
        obtain ⟨rfl, rfl⟩ := h
        have hc := (ih content.length (by omega) content rfl).2 items hitems
        rw [hb, encode_list, ← hc]
      · simp only [hk, if_false, Except.pure_eq_ok, Prod.mk.injEq] at h
        obtain ⟨rfl, rfl⟩ := h
        rw [hb, encode_str]
    refine ⟨hvalue, fun items h => ?_⟩
    by_cases hb : b = []
    · subst hb
      rw [splitValues_nil] at h
      cases h
      rfl
    -- a list's content: its first value, then the rest, which is shorter
    rw [splitValues_of_ne_nil hb] at h
    obtain ⟨⟨v, rest⟩, hv, h⟩ := Except.bind_eq_ok.mp h
    obtain ⟨vs, hvs, h⟩ := Except.bind_eq_ok.mp h
    simp only [Except.pure_eq_ok] at h
    subst h
    have hb' := hvalue v rest hv
    have hlen : rest.length < n := by
      have := List.length_pos_of_ne_nil (encode_ne_nil v)
      rw [← hn, hb', List.length_append]
      omega
    rw [hb', encodeAll_cons, (ih rest.length hlen rest rfl).2 vs hvs]

end Tree

end rlp

end PureChain
