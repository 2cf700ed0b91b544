import Mathlib
import PureChain.Rlp.Raw
import PureChain.Rlp.Encode

/-!
# Package `rlp`: the decoding stream

`rlp.Stream` reads values piece by piece from a reader: `Kind` reads the header
of the value ahead and caches what it says, `Bytes` reads a string, `List`
enters a list and `ListEnd` leaves it. The stream keeps no buffer; what bounds
its reads is a stack with the bytes left in each list being read and, for an
input of known length, the bytes left in the input (`remaining`). Every read
goes through `willRead`, which charges the innermost list and the input; when
the innermost list has nothing left, `Kind` returns `EOL`.

The sizes are the code's `uint64`s: entering a list subtracts its size from the
enclosing one, which wraps when a header claims more than is left after it.
`Kind` lets such a list header through, since it checks the size against what
was left before the header: the list entered then runs past the end of the
enclosing one (`Stream.List_overruns`).
The reader here is a `bytes.Reader`, the one `DecodeBytes` uses: the bytes it
still holds are `r`.

An item tree is decoded by `decodeInterface`, with `decodeListSlice` and
`decodeSliceElems` for a list, as `Decode` does for an `interface{}`. Their
recursion is bounded by `fuel`; `DecodeBytes` gives one more than the length of
the input, and every value read consumes a byte at least.

Decoding an encoding gives the tree back and consumes it exactly
(`decodeInterface_encode`), and what is decoded is the canonical encoding of
the tree returned (`encode_of_decodeInterface`); for `DecodeBytes`, the two are
`DecodeBytes_encode` and `encode_of_DecodeBytes`.
-/

namespace PureChain

namespace rlp

open Rlp

/-- `Stream` on a `bytes.Reader`. -/
structure Stream where
  /-- The bytes the reader still holds. -/
  r : List UInt8
  /-- The bytes left in the input, when it is `limited`. -/
  remaining : UInt64
  /-- The size of the value ahead. -/
  size : UInt64
  kinderr : Option RlpError
  /-- The sizes left in the lists being read, the innermost first. -/
  stack : List UInt64
  /-- The kind of the value ahead; `none` is the code's `-1`, a rearmed `Kind`. -/
  kind : Option Kind
  /-- The value of a single byte in the header. -/
  byteval : UInt8
  limited : Bool

/-- `Reset` on a `bytes.Reader` of `b`: the input limit, or else the reader's
length. -/
def Stream.Reset (b : List UInt8) (inputLimit : UInt64) : Stream where
  r := b
  remaining := if inputLimit > 0 then inputLimit else UInt64.ofNat b.length
  size := 0
  kinderr := none
  stack := []
  kind := none
  byteval := 0
  limited := true

/-- `listLimit`: whether a list is being read, and what is left in it. -/
def Stream.listLimit (s : Stream) : Bool × UInt64 :=
  match s.stack with
  | [] => (false, 0)
  | limit :: _ => (true, limit)

/-- `willRead`: the read charged to the innermost list and to the input. -/
def Stream.willRead (s : Stream) (n : UInt64) : Except RlpError Stream := do
  let s := { s with kind := none }
  let s ← match s.stack with
    | limit :: rest =>
      if n > limit then throw .ErrElemTooLarge else pure { s with stack := (limit - n) :: rest }
    | [] => pure s
  if s.limited then
    if n > s.remaining then throw .ErrValueTooLarge
    else pure { s with remaining := s.remaining - n }
  else pure s

/-- `readByte`. -/
def Stream.readByte (s : Stream) : Except RlpError (UInt8 × Stream) := do
  let s ← s.willRead 1
  match s.r with
  | [] => throw .ErrUnexpectedEOF
  | b :: r => pure (b, { s with r := r })

/-- `readFull` of `n` bytes. -/
def Stream.readFull (s : Stream) (n : UInt64) : Except RlpError (List UInt8 × Stream) := do
  let s ← s.willRead n
  if s.r.length < n.toNat then throw .ErrUnexpectedEOF
  else pure (s.r.take n.toNat, { s with r := s.r.drop n.toNat })

/-- `readUint`: `size` big-endian bytes without a leading zero. -/
def Stream.readUint (s : Stream) (size : ℕ) : Except RlpError (UInt64 × Stream) :=
  match size with
  | 0 => pure (0, { s with kind := none })
  | 1 => do
    let (b, s) ← s.readByte
    pure (b.toUInt64, s)
  | size + 2 => do
    let (buffer, s) ← s.readFull (UInt64.ofNat (size + 2))
    if buffer.headD 0 = 0 then throw .ErrCanonSize
    else pure (UInt64.ofNat (beValue buffer), s)

/-- `readKind`: the kind and size of the value whose header is ahead; running
out of input at the top level is the end of the input. -/
def Stream.readKind (s : Stream) : Except RlpError ((Kind × UInt64) × Stream) :=
  match s.readByte with
  | .error err =>
    throw (if s.stack = [] ∧ (err = .ErrUnexpectedEOF ∨ err = .ErrValueTooLarge) then .EOF else err)
  | .ok (b, s) =>
    let s := { s with byteval := 0 }
    if b < 0x80 then pure ((.Byte, 0), { s with byteval := b })
    else if b < 0xB8 then pure ((.String, (b - 0x80).toUInt64), s)
    else if b < 0xC0 then do
      let (size, s) ← s.readUint (b - 0xB7).toNat
      if size < 56 then throw .ErrCanonSize else pure ((.String, size), s)
    else if b < 0xF8 then pure ((.List, (b - 0xC0).toUInt64), s)
    else do
      let (size, s) ← s.readUint (b - 0xF7).toNat
      if size < 56 then throw .ErrCanonSize else pure ((.List, size), s)

/-- `Kind`: the cached kind, or the header read and checked against what is left
in the list – as it was before the header – and in the input. -/
def Stream.Kind (s : Stream) : Except RlpError ((Kind × UInt64) × Stream) :=
  match s.kind with
  | some kind =>
    match s.kinderr with
    | some err => throw err
    | none => pure ((kind, s.size), s)
  | none =>
    let (inList, listLimit) := s.listLimit
    if inList ∧ listLimit = 0 then throw .EOL
    else do
      let ((kind, size), s) ← s.readKind
      let s := { s with kind := some kind, size := size }
      if inList ∧ size > listLimit then throw .ErrElemTooLarge
      else if s.limited ∧ size > s.remaining then throw .ErrValueTooLarge
      else pure ((kind, size), { s with kinderr := none })

/-- `Bytes`: a string's contents; a string of one byte below `0x80` is refused. -/
def Stream.Bytes (s : Stream) : Except RlpError (List UInt8 × Stream) := do
  let ((kind, size), s) ← s.Kind
  match kind with
  | .Byte => pure ([s.byteval], { s with kind := none })
  | .String =>
    let (b, s) ← s.readFull size
    if size = 1 ∧ b.headD 0 < 128 then throw .ErrCanonSize else pure (b, s)
  | .List => throw .ErrExpectedString

/-- `List`: the list's size taken from the enclosing list and pushed. -/
def Stream.List (s : Stream) : Except RlpError (UInt64 × Stream) := do
  let ((kind, size), s) ← s.Kind
  if kind ≠ .List then throw .ErrExpectedList
  else
    let stack := match s.stack with
      | limit :: rest => (limit - size) :: rest
      | [] => []
    pure (size, { s with stack := size :: stack, kind := none, size := 0 })

/-- `ListEnd`: the innermost list, read to its end, left. -/
def Stream.ListEnd (s : Stream) : Except RlpError Stream :=
  match s.stack with
  | [] => throw .errNotInList
  | listLimit :: rest =>
    if listLimit > 0 then throw .errNotAtEOL
    else pure { s with stack := rest, kind := none, size := 0 }

/-! ### Decoding item trees -/

/-- `decodeSliceElems`: values decoded by `elemdec` until the list's end, where
`Kind` returns `EOL` and reads nothing. -/
def decodeSliceElems {α : Type} (elemdec : Stream → Except RlpError (α × Stream)) :
    ℕ → Stream → Except RlpError (List α × Stream)
  | 0, _ => throw .fuel
  | fuel + 1, s =>
    match elemdec s with
    | .error .EOL => pure ([], s)
    | .error err => throw err
    | .ok (v, s) => do
      let (vs, s) ← decodeSliceElems elemdec fuel s
      pure (v :: vs, s)

/-- `decodeListSlice`. -/
def decodeListSlice {α : Type} (elemdec : Stream → Except RlpError (α × Stream)) (fuel : ℕ)
    (s : Stream) : Except RlpError (List α × Stream) := do
  let (size, s) ← s.List
  if size = 0 then
    let s ← s.ListEnd
    pure ([], s)
  else
    let (vs, s) ← decodeSliceElems elemdec fuel s
    let s ← s.ListEnd
    pure (vs, s)

/-- `decodeInterface`: a list of values, or a string's contents. -/
def decodeInterface : ℕ → Stream → Except RlpError (Item × Stream)
  | 0, _ => throw .fuel
  | fuel + 1, s => do
    let ((kind, _), s) ← s.Kind
    if kind = .List then
      let (items, s) ← decodeListSlice (decodeInterface fuel) fuel s
      pure (.list items, s)
    else
      let (b, s) ← s.Bytes
      pure (.str b, s)

/-- `DecodeBytes` into an `interface{}`: one value, and no bytes after it. -/
def DecodeBytes (b : List UInt8) : Except RlpError Item := do
  let s := Stream.Reset b (UInt64.ofNat b.length)
  let (val, s) ← decodeInterface (b.length + 1) s
  if s.r.length > 0 then throw .ErrMoreThanOneValue else pure val

/-! ### Reads -/

/-- The stream once a read of `n` bytes is charged to the innermost list and to
the input: what `willRead` leaves. -/
def Stream.charge (s : Stream) (n : ℕ) : Stream :=
  { s with
    stack := s.stack.modifyHead (· - UInt64.ofNat n)
    remaining := if s.limited then s.remaining - UInt64.ofNat n else s.remaining
    kind := none }

/-- The stream once `n` bytes are read. -/
def Stream.skip (s : Stream) (n : ℕ) : Stream := { s.charge n with r := s.r.drop n }

/-- The stream once `List` entered a list of size `p`: the size pushed, and taken
from the enclosing list. -/
def Stream.enter (s : Stream) (p : UInt64) : Stream :=
  { s with stack := p :: s.stack.modifyHead (· - p), kind := none, size := 0 }

/-- Room for `n` bytes in the innermost list and in the input. -/
def Stream.Fits (s : Stream) (n : ℕ) : Prop :=
  (∀ limit ∈ s.stack.head?, n ≤ limit.toNat) ∧ (s.limited = true → n ≤ s.remaining.toNat)

section Reads

variable {s s' : Stream} {n m : ℕ}

@[simp] theorem Stream.r_skip : (s.skip n).r = s.r.drop n := rfl
@[simp] theorem Stream.limited_skip : (s.skip n).limited = s.limited := rfl
@[simp] theorem Stream.kind_skip : (s.skip n).kind = none := rfl
@[simp] theorem Stream.size_skip : (s.skip n).size = s.size := rfl
@[simp] theorem Stream.byteval_skip : (s.skip n).byteval = s.byteval := rfl
@[simp] theorem Stream.kinderr_skip : (s.skip n).kinderr = s.kinderr := rfl
@[simp] theorem Stream.stack_skip :
    (s.skip n).stack = s.stack.modifyHead (· - UInt64.ofNat n) := rfl
@[simp] theorem Stream.remaining_skip :
    (s.skip n).remaining = if s.limited then s.remaining - UInt64.ofNat n else s.remaining := rfl

theorem uint64_sub_sub (a b c : UInt64) : a - b - c = a - (b + c) := by grind

theorem uint64_add_sub_cancel (a b : UInt64) : a + b - a = b := by grind

/-- A `uint64` that a number below it is taken from, as a number. -/
theorem toNat_sub_ofNat {a : UInt64} (h : n ≤ a.toNat) :
    (a - UInt64.ofNat n).toNat = a.toNat - n := by
  have hn : n < 2 ^ 64 := Nat.lt_of_le_of_lt h a.toNat_lt
  rw [UInt64.toNat_sub_of_le, UInt64.toNat_ofNat_of_lt' hn]
  rw [UInt64.le_iff_toNat_le, UInt64.toNat_ofNat_of_lt' hn]
  exact h

theorem modifyHead_sub_sub (st : List UInt64) (n m : ℕ) :
    (st.modifyHead (· - UInt64.ofNat n)).modifyHead (· - UInt64.ofNat m) =
      st.modifyHead (· - UInt64.ofNat (n + m)) := by
  cases st with
  | nil => rfl
  | cons a st => simp [UInt64.ofNat_add, uint64_sub_sub]

/-- Two reads one after the other are one read. -/
theorem Stream.skip_skip : (s.skip n).skip m = s.skip (n + m) := by
  simp only [Stream.skip, Stream.charge, List.drop_drop, modifyHead_sub_sub]
  split_ifs <;> simp [UInt64.ofNat_add, uint64_sub_sub]

theorem Stream.Fits.mono (h : s.Fits n) (hm : m ≤ n) : s.Fits m :=
  ⟨fun l hl => Nat.le_trans hm (h.1 l hl), fun hl => Nat.le_trans hm (h.2 hl)⟩

/-- What is left after a read that fits. -/
theorem Stream.Fits.skip (h : s.Fits (n + m)) : (s.skip n).Fits m := by
  constructor
  · intro l hl
    cases hs : s.stack with
    | nil => simp [hs] at hl
    | cons a st =>
      simp only [Stream.stack_skip, hs, List.modifyHead_cons, List.head?_cons, Option.mem_def,
        Option.some.injEq] at hl
      have ha := h.1 a (by simp [hs])
      subst hl
      rw [toNat_sub_ofNat (by omega)]
      omega
  · intro hl
    rw [Stream.limited_skip] at hl
    have hr := h.2 hl
    rw [Stream.remaining_skip, if_pos hl, toNat_sub_ofNat (by omega)]
    omega

/-- The room in a list just entered: its size, and the input as before. -/
theorem Stream.Fits.enter (h : s.Fits n) (hn : n < 2 ^ 64) : (s.enter (UInt64.ofNat n)).Fits n := by
  refine ⟨fun l hl => ?_, h.2⟩
  simp only [Stream.enter, List.head?_cons, Option.mem_def, Option.some.injEq] at hl
  subst hl
  exact Nat.le_of_eq (UInt64.toNat_ofNat_of_lt' hn).symm

theorem ofNat_gt_iff (hn : n < 2 ^ 64) (a : UInt64) : UInt64.ofNat n > a ↔ a.toNat < n := by
  rw [GT.gt, UInt64.lt_iff_toNat_lt, UInt64.toNat_ofNat_of_lt' hn]

theorem Stream.willRead_of_Fits (hn : n < 2 ^ 64) (h : s.Fits n) :
    s.willRead (UInt64.ofNat n) = .ok (s.charge n) := by
  rcases s with ⟨r, remaining, size, kinderr, stack, kind, byteval, limited⟩
  obtain ⟨hs, hr⟩ := h
  -- neither the innermost list nor the input refuses the read
  have hr' : limited = true → ¬ UInt64.ofNat n > remaining := fun hl =>
    (ofNat_gt_iff hn remaining).not.mpr (by have : n ≤ remaining.toNat := hr hl; omega)
  cases stack with
  | nil =>
    cases limited
    · rfl
    · simp [Stream.willRead, hr' rfl, Stream.charge]
  | cons limit rest =>
    have hl : ¬ UInt64.ofNat n > limit :=
      (ofNat_gt_iff hn limit).not.mpr (by have := hs limit (by simp); omega)
    cases limited
    · simp [Stream.willRead, hl, Stream.charge]
    · simp [Stream.willRead, hl, hr' rfl, Stream.charge]

theorem Stream.Fits_of_willRead (hn : n < 2 ^ 64) (h : s.willRead (UInt64.ofNat n) = .ok s') :
    s.Fits n := by
  rcases s with ⟨r, remaining, size, kinderr, stack, kind, byteval, limited⟩
  -- the input's check comes last, whatever the list's did
  have hr : limited = true → n ≤ remaining.toNat := by
    intro hl
    subst hl
    by_contra hlt
    have hgt : UInt64.ofNat n > remaining := (ofNat_gt_iff hn remaining).mpr (by omega)
    cases stack with
    | nil => simp [Stream.willRead, hgt] at h
    | cons limit rest =>
      by_cases hl : UInt64.ofNat n > limit
      · simp [Stream.willRead, hl] at h
      · simp [Stream.willRead, hl, hgt] at h
  refine ⟨fun limit hlim => ?_, hr⟩
  cases stack with
  | nil => simp at hlim
  | cons a rest =>
    simp only [List.head?_cons, Option.mem_def, Option.some.injEq] at hlim
    subst hlim
    by_contra hlt
    have hgt : UInt64.ofNat n > a := (ofNat_gt_iff hn a).mpr (by omega)
    simp [Stream.willRead, hgt] at h

/-- **`willRead`**: a read that fits is charged, any other is refused. -/
theorem Stream.willRead_eq_ok (hn : n < 2 ^ 64) :
    s.willRead (UInt64.ofNat n) = .ok s' ↔ s.Fits n ∧ s' = s.charge n := by
  constructor
  · intro h
    have hf := Stream.Fits_of_willRead hn h
    rw [Stream.willRead_of_Fits hn hf] at h
    exact ⟨hf, (Except.ok.inj h).symm⟩
  · rintro ⟨hf, rfl⟩
    exact Stream.willRead_of_Fits hn hf

theorem Stream.skip_eq_charge {b : UInt8} {rest} (h : s.r = b :: rest) :
    s.skip 1 = { s.charge 1 with r := rest } := by
  simp [Stream.skip, h]

/-- **`readByte`**: the next byte, when a byte fits. -/
theorem Stream.readByte_eq_ok {b : UInt8} :
    s.readByte = .ok (b, s') ↔ s.Fits 1 ∧ s.r.head? = some b ∧ s' = s.skip 1 := by
  have h1 : (1 : UInt64) = UInt64.ofNat 1 := rfl
  unfold Stream.readByte
  rw [h1]
  constructor
  · intro h
    obtain ⟨s₁, hw, h⟩ := Except.bind_eq_ok.mp h
    obtain ⟨hf, rfl⟩ := (Stream.willRead_eq_ok (n := 1) (by decide)).mp hw
    cases hr : s.r with
    | nil => simp [Stream.charge, hr] at h
    | cons c rest =>
      simp only [Stream.charge, hr, Except.pure_eq_ok, Prod.mk.injEq] at h
      obtain ⟨rfl, rfl⟩ := h
      exact ⟨hf, rfl, by rw [Stream.skip_eq_charge hr]; rfl⟩
  · rintro ⟨hf, hb, rfl⟩
    rw [Stream.willRead_of_Fits (n := 1) (by decide) hf, Except.bind_ok]
    cases hr : s.r with
    | nil => simp [hr] at hb
    | cons c rest =>
      simp only [hr, List.head?_cons, Option.some.injEq] at hb
      subst hb
      simp only [Stream.charge, hr, Except.pure_eq_ok]
      rw [Stream.skip_eq_charge hr]
      rfl

/-- **`readFull`**: the next `n` bytes, when they are there and fit. -/
theorem Stream.readFull_eq_ok {bs} (hn : n < 2 ^ 64) :
    s.readFull (UInt64.ofNat n) = .ok (bs, s') ↔
      s.Fits n ∧ n ≤ s.r.length ∧ bs = s.r.take n ∧ s' = s.skip n := by
  have htn : (UInt64.ofNat n).toNat = n := UInt64.toNat_ofNat_of_lt' hn
  unfold Stream.readFull
  constructor
  · intro h
    obtain ⟨s₁, hw, h⟩ := Except.bind_eq_ok.mp h
    obtain ⟨hf, rfl⟩ := (Stream.willRead_eq_ok hn).mp hw
    simp only [htn, Except.ite_throw_eq_ok, Except.pure_eq_ok, Prod.mk.injEq] at h
    obtain ⟨hlen, rfl, rfl⟩ := h
    exact ⟨hf, by simpa [Stream.charge] using hlen, rfl, rfl⟩
  · rintro ⟨hf, hlen, rfl, rfl⟩
    rw [Stream.willRead_of_Fits hn hf, Except.bind_ok, htn, if_neg (by simpa [Stream.charge] using hlen)]
    rfl

theorem Stream.readFull_eq_ok_toNat {n : UInt64} {bs} :
    s.readFull n = .ok (bs, s') ↔
      s.Fits n.toNat ∧ n.toNat ≤ s.r.length ∧ bs = s.r.take n.toNat ∧ s' = s.skip n.toNat := by
  rw [← Stream.readFull_eq_ok n.toNat_lt, UInt64.ofNat_toNat]

/-- `s'` is `s` with `n` bytes read and charged to the innermost list and to the
input, whatever it caches about the value ahead. -/
structure Stream.Moved (s s' : Stream) (n : ℕ) : Prop where
  r : s'.r = s.r.drop n
  stack : s'.stack = s.stack.modifyHead (· - UInt64.ofNat n)
  remaining : s'.remaining = if s.limited then s.remaining - UInt64.ofNat n else s.remaining
  limited : s'.limited = s.limited

theorem Stream.moved_skip (s : Stream) (n : ℕ) : s.Moved (s.skip n) n := ⟨rfl, rfl, rfl, rfl⟩

theorem Stream.moved_zero (s : Stream) : s.Moved s 0 := by
  refine ⟨rfl, ?_, ?_, rfl⟩
  · cases s.stack <;> simp
  · split_ifs <;> simp

/-- Rearming `Kind` reads nothing. -/
theorem Stream.moved_rearm (s : Stream) : s.Moved { s with kind := none } 0 :=
  have h := Stream.moved_zero s
  ⟨h.r, h.stack, h.remaining, h.limited⟩

theorem Stream.Moved.trans {s₁ s₂ : Stream} (h₁ : s.Moved s₁ n) (h₂ : s₁.Moved s₂ m) :
    s.Moved s₂ (n + m) := by
  refine ⟨by rw [h₂.r, h₁.r, List.drop_drop], by rw [h₂.stack, h₁.stack, modifyHead_sub_sub], ?_,
    h₂.limited.trans h₁.limited⟩
  rw [h₂.remaining, h₁.limited, h₁.remaining]
  split_ifs <;> simp [UInt64.ofNat_add, uint64_sub_sub]

/-- The room left after a move. -/
theorem Stream.Moved.fits (h : s.Moved s' n) (hf : s.Fits (n + m)) : s'.Fits m := by
  have hs := hf.skip
  unfold Stream.Fits at hs ⊢
  rw [h.stack, h.remaining, h.limited]
  exact hs

/-- **`readUint`** of the minimal bytes of a size. -/
theorem Stream.readUint_beBytes {v : ℕ} {more} (h0 : 0 < v) (hv : v < 2 ^ 64)
    (hr : s.r = beBytes v ++ more) (hf : s.Fits (beBytes v).length) :
    s.readUint (beBytes v).length = .ok (UInt64.ofNat v, s.skip (beBytes v).length) := by
  have hval := beValue_beBytes v
  have hk8 : (beBytes v).length ≤ 8 := length_beBytes_le (by omega)
  rcases hlen : (beBytes v).length with _ | _ | k
  · exact absurd hlen (Nat.pos_iff_ne_zero.mp (length_beBytes_pos h0))
  · -- one byte, read by `readByte`
    obtain ⟨x, hx⟩ := List.length_eq_one_iff.mp hlen
    rw [hx] at hr hval
    have hxv : x.toNat = v := by simpa [beValue] using hval
    have hb : s.readByte = .ok (x, s.skip 1) :=
      Stream.readByte_eq_ok.2 ⟨by rwa [hlen] at hf, by simp [hr], rfl⟩
    simp only [Stream.readUint, hb, Except.bind_ok, Except.pure_eq_ok, Prod.mk.injEq, and_true]
    exact UInt64.ext (by rw [UInt8.toNat_toUInt64, UInt64.toNat_ofNat_of_lt' hv, hxv])
  · -- two bytes or more, read by `readFull` and checked for a leading zero
    have hfull : s.readFull (UInt64.ofNat (k + 2)) = .ok (beBytes v, s.skip (k + 2)) := by
      refine (Stream.readFull_eq_ok (by omega)).mpr ⟨by rwa [hlen] at hf, ?_, ?_, rfl⟩
      · rw [hr, List.length_append]
        omega
      · rw [hr, ← hlen, List.take_left]
    simp only [Stream.readUint, hfull, Except.bind_ok, if_neg (headD_beBytes_ne_zero h0), hval]
    rfl

/-- **What `readUint` reads**: `size` bytes, whose big-endian value it returns,
with no leading zero when there are two or more. -/
theorem Stream.readUint_eq_ok {k : ℕ} {v : UInt64} (hk : 0 < k) (hk8 : k ≤ 8)
    (h : s.readUint k = .ok (v, s')) :
    ∃ bs, s.r = bs ++ s'.r ∧ bs.length = k ∧ v.toNat = beValue bs ∧
      (2 ≤ k → bs.headD 0 ≠ 0) ∧ s' = s.skip k := by
  rcases k with _ | _ | k
  · omega
  · obtain ⟨⟨x, s₀⟩, hb, h⟩ := Except.bind_eq_ok.mp h
    obtain ⟨-, hx, rfl⟩ := Stream.readByte_eq_ok.1 hb
    simp only [Except.pure_eq_ok, Prod.mk.injEq] at h
    obtain ⟨rfl, rfl⟩ := h
    obtain ⟨rest, hr⟩ := List.head?_eq_some_iff.mp hx
    refine ⟨[x], by simp [hr], rfl, by simp [beValue], by omega, rfl⟩
  · obtain ⟨⟨buf, s₀⟩, hb, h⟩ := Except.bind_eq_ok.mp h
    obtain ⟨-, hlen, rfl, rfl⟩ := (Stream.readFull_eq_ok (by omega)).mp hb
    simp only [Except.ite_throw_eq_ok, Except.pure_eq_ok, Prod.mk.injEq] at h
    obtain ⟨h0, rfl, rfl⟩ := h
    -- at most eight bytes, so the value fits in a `uint64`
    have hlt : beValue (s.r.take (k + 2)) < 2 ^ 64 := by
      have h1 := beValue_lt (s.r.take (k + 2))
      rw [List.length_take, Nat.min_eq_left hlen] at h1
      have h2 : 256 ^ (k + 2) ≤ 256 ^ 8 := Nat.pow_le_pow_right (by omega) hk8
      omega
    refine ⟨s.r.take (k + 2), by simp, by simp; omega, UInt64.toNat_ofNat_of_lt' hlt,
      fun _ => h0, rfl⟩

end Reads

/-! ### Headers -/

section ReadKind

variable {s s₀ s₁ : Stream} {b : UInt8}

theorem toUInt64_sub {b c : UInt8} {n : ℕ} (hc : c.toNat = n) (h : n ≤ b.toNat) :
    (b - c).toUInt64 = UInt64.ofNat (b.toNat - n) := by
  apply UInt64.ext
  rw [← hc] at h ⊢
  rw [UInt8.toNat_toUInt64, UInt8.toNat_sub_of_le _ _ (UInt8.le_iff_toNat_le.mpr h),
    UInt64.toNat_ofNat_of_lt' (Nat.lt_of_le_of_lt (Nat.sub_le _ _) (Nat.lt_trans b.toNat_lt (by decide)))]

theorem Stream.readKind_byte (h : s.readByte = .ok (b, s₀)) (hb : b.toNat < 0x80) :
    s.readKind = .ok ((.Byte, 0), { s₀ with byteval := b }) := by
  have h1 : b < 0x80 := UInt8.lt_iff_toNat_lt.mpr hb
  simp only [Stream.readKind, h, h1, if_true]
  rfl

theorem Stream.readKind_string (h : s.readByte = .ok (b, s₀)) (hb₁ : 0x80 ≤ b.toNat)
    (hb₂ : b.toNat < 0xB8) :
    s.readKind = .ok ((.String, UInt64.ofNat (b.toNat - 0x80)), { s₀ with byteval := 0 }) := by
  have h1 : ¬ b < 0x80 := fun h => by rw [UInt8.lt_iff_toNat_lt] at h; simp at h; omega
  have h2 : b < 0xB8 := UInt8.lt_iff_toNat_lt.mpr hb₂
  simp only [Stream.readKind, h, h1, h2, if_false, if_true,
    toUInt64_sub (c := 0x80) rfl hb₁]
  rfl

theorem Stream.readKind_longString (h : s.readByte = .ok (b, s₀)) (hb₁ : 0xB8 ≤ b.toNat)
    (hb₂ : b.toNat < 0xC0) :
    s.readKind = ({ s₀ with byteval := 0 }.readUint (b.toNat - 0xB7) >>= fun p =>
      if p.1 < 56 then throw .ErrCanonSize else pure ((.String, p.1), p.2)) := by
  have h1 : ¬ b < 0x80 := fun h => by rw [UInt8.lt_iff_toNat_lt] at h; simp at h; omega
  have h2 : ¬ b < 0xB8 := fun h => by rw [UInt8.lt_iff_toNat_lt] at h; simp at h; omega
  have h3 : b < 0xC0 := UInt8.lt_iff_toNat_lt.mpr hb₂
  have hsub : (b - 0xB7).toNat = b.toNat - 0xB7 :=
    UInt8.toNat_sub_of_le _ _ (UInt8.le_iff_toNat_le.mpr (by simp; omega))
  simp only [Stream.readKind, h, h1, h2, h3, if_false, if_true, hsub]

theorem Stream.readKind_list (h : s.readByte = .ok (b, s₀)) (hb₁ : 0xC0 ≤ b.toNat)
    (hb₂ : b.toNat < 0xF8) :
    s.readKind = .ok ((.List, UInt64.ofNat (b.toNat - 0xC0)), { s₀ with byteval := 0 }) := by
  have h1 : ¬ b < 0x80 := fun h => by rw [UInt8.lt_iff_toNat_lt] at h; simp at h; omega
  have h2 : ¬ b < 0xB8 := fun h => by rw [UInt8.lt_iff_toNat_lt] at h; simp at h; omega
  have h3 : ¬ b < 0xC0 := fun h => by rw [UInt8.lt_iff_toNat_lt] at h; simp at h; omega
  have h4 : b < 0xF8 := UInt8.lt_iff_toNat_lt.mpr hb₂
  simp only [Stream.readKind, h, h1, h2, h3, h4, if_false, if_true,
    toUInt64_sub (c := 0xC0) rfl hb₁]
  rfl

theorem Stream.readKind_longList (h : s.readByte = .ok (b, s₀)) (hb : 0xF8 ≤ b.toNat) :
    s.readKind = ({ s₀ with byteval := 0 }.readUint (b.toNat - 0xF7) >>= fun p =>
      if p.1 < 56 then throw .ErrCanonSize else pure ((.List, p.1), p.2)) := by
  have h1 : ¬ b < 0x80 := fun h => by rw [UInt8.lt_iff_toNat_lt] at h; simp at h; omega
  have h2 : ¬ b < 0xB8 := fun h => by rw [UInt8.lt_iff_toNat_lt] at h; simp at h; omega
  have h3 : ¬ b < 0xC0 := fun h => by rw [UInt8.lt_iff_toNat_lt] at h; simp at h; omega
  have h4 : ¬ b < 0xF8 := fun h => by rw [UInt8.lt_iff_toNat_lt] at h; simp at h; omega
  have hsub : (b - 0xF7).toNat = b.toNat - 0xF7 :=
    UInt8.toNat_sub_of_le _ _ (UInt8.le_iff_toNat_le.mpr (by simp; omega))
  simp only [Stream.readKind, h, h1, h2, h3, h4, if_false, hsub]

/-- A `uint64` read from a header is above 55 exactly when the size is. -/
theorem not_ofNat_lt_56 {n : ℕ} (hn : n < 2 ^ 64) (h : 55 < n) : ¬ UInt64.ofNat n < 56 := by
  rw [UInt64.lt_iff_toNat_lt, UInt64.toNat_ofNat_of_lt' hn]
  simp only [UInt64.reduceToNat]
  omega

/-- **`readKind` of a string or list header** the encoder wrote: the kind and
the size it states, with the header read. -/
theorem Stream.readKind_header {short n : ℕ} {k : rlp.Kind} {rest}
    (hk : (short = 0x80 ∧ k = .String) ∨ (short = 0xC0 ∧ k = .List)) (hn : n < 2 ^ 64)
    (hr : s.r = header short n ++ rest) (hf : s.Fits (header short n).length) :
    s.readKind = .ok ((k, UInt64.ofNat n), { s.skip (header short n).length with byteval := 0 }) := by
  have hshort : short ≤ 0xC0 := by omega
  rcases Nat.lt_or_ge 55 n with h56 | h55
  · -- the long form: a tag, then the size in `readUint`'s minimal bytes
    obtain ⟨x, kk, hx, hxk, hk1, hk8, hlen, -⟩ := readSize_of_long_header short h56 hn rest
    have hlen' : (header short n).length = 1 + kk := by
      rw [header_of_lt h56, List.length_cons, hlen, Nat.add_comm]
    have hb : s.readByte = .ok (x, s.skip 1) :=
      Stream.readByte_eq_ok.2 ⟨hf.mono (by omega), by rw [hr, hx]; rfl, rfl⟩
    have hu : { s.skip 1 with byteval := 0 }.readUint kk =
        .ok (UInt64.ofNat n, ({ s.skip 1 with byteval := 0 }).skip kk) := by
      rw [← hlen]
      refine Stream.readUint_beBytes (by omega) hn
        (show { s.skip 1 with byteval := 0 }.r = beBytes n ++ rest by simp [hr, hx]) ?_
      rw [hlen]
      exact Stream.Fits.skip (by rwa [hlen'] at hf)
    have hs : ({ s.skip 1 with byteval := 0 }).skip kk =
        { s.skip (header short n).length with byteval := 0 } := by
      rw [hlen', ← Stream.skip_skip]
      rfl
    rcases hk with ⟨rfl, rfl⟩ | ⟨rfl, rfl⟩
    · rw [Stream.readKind_longString hb (by omega) (by omega), show x.toNat - 0xB7 = kk by omega, hu,
        Except.bind_ok, if_neg (not_ofNat_lt_56 hn h56), hs]
      rfl
    · rw [Stream.readKind_longList hb (by omega), show x.toNat - 0xF7 = kk by omega, hu,
        Except.bind_ok, if_neg (not_ofNat_lt_56 hn h56), hs]
      rfl
  · -- the one-byte form
    have hx : (UInt8.ofNat (short + n)).toNat = short + n := by
      rw [UInt8.toNat_ofNat']
      omega
    have hb : s.readByte = .ok (UInt8.ofNat (short + n), s.skip 1) :=
      Stream.readByte_eq_ok.2 ⟨by rwa [header_of_le h55] at hf, by rw [hr, header_of_le h55]; rfl, rfl⟩
    rw [header_of_le h55]
    rcases hk with ⟨rfl, rfl⟩ | ⟨rfl, rfl⟩
    · rw [Stream.readKind_string hb (by omega) (by omega), hx, Nat.add_sub_cancel_left]
      rfl
    · rw [Stream.readKind_list hb (by omega) (by omega), hx, Nat.add_sub_cancel_left]
      rfl

/-- A long header read back: the tag, then a size above 55 in minimal bytes –
one byte above 55 has no leading zero, and `readUint` refuses one for more. -/
theorem Stream.readKind_long_eq (short : ℕ) {kk : ℕ} {x : UInt8} {v : UInt64} {tl}
    (hr : s.r = x :: tl) (hx : x.toNat = short + 55 + kk) (hk1 : 0 < kk) (hk8 : kk ≤ 8)
    (hu : { s.skip 1 with byteval := 0 }.readUint kk = .ok (v, s₁)) (hv : ¬ v < 56) :
    s.r = header short v.toNat ++ s₁.r ∧ s.Moved s₁ (header short v.toNat).length := by
  obtain ⟨bs, hbs, hlen, hval, hcanon, rfl⟩ := Stream.readUint_eq_ok hk1 hk8 hu
  have h56 : 56 ≤ v.toNat := by
    rw [UInt64.lt_iff_toNat_lt] at hv
    simpa using hv
  have hne : bs.headD 0 ≠ 0 := by
    rcases Nat.lt_or_ge kk 2 with h | h
    · obtain ⟨c, rfl⟩ := List.length_eq_one_iff.mp (by omega : bs.length = 1)
      intro h0
      simp only [List.headD_cons] at h0
      subst h0
      simp [beValue] at hval
      omega
    · exact hcanon h
  have hhdr : x :: bs = header short v.toNat := by
    rw [hval]
    exact cons_eq_header (by omega) (by omega) hne
  refine ⟨?_, ?_⟩
  · rw [← hhdr, hr, List.cons_append, ← hbs]
    simp [hr]
  · rw [← hhdr, List.length_cons, hlen, Nat.add_comm]
    have hm : s.Moved { s.skip 1 with byteval := 0 } 1 := ⟨rfl, rfl, rfl, rfl⟩
    exact hm.trans (Stream.moved_skip _ kk)

/-- **What `readKind` reads**: a header, which is a byte below `0x80` standing
for itself or the canonical header of a string or a list of the size returned. -/
theorem Stream.readKind_eq_ok {k : rlp.Kind} {sz : UInt64} (h : s.readKind = .ok ((k, sz), s₁)) :
    ∃ hdr, s.r = hdr ++ s₁.r ∧ s.Moved s₁ hdr.length ∧
      (k = .Byte → hdr = [s₁.byteval] ∧ s₁.byteval.toNat < 0x80) ∧
      (k = .String → hdr = header 0x80 sz.toNat) ∧ (k = .List → hdr = header 0xC0 sz.toNat) := by
  cases hb : s.readByte with
  | error e => simp [Stream.readKind, hb] at h
  | ok p =>
    obtain ⟨x, s₀⟩ := p
    obtain ⟨-, hx, rfl⟩ := Stream.readByte_eq_ok.1 hb
    obtain ⟨tl, hr⟩ := List.head?_eq_some_iff.mp hx
    have hm : s.Moved { s.skip 1 with byteval := 0 } 1 := ⟨rfl, rfl, rfl, rfl⟩
    have hr1 : s.r = [x] ++ ({ s.skip 1 with byteval := 0 }).r := by simp [hr]
    rcases Nat.lt_or_ge x.toNat 0x80 with h1 | h1
    · -- a byte that stands for itself
      rw [Stream.readKind_byte hb h1] at h
      simp only [Except.ok.injEq, Prod.mk.injEq] at h
      obtain ⟨⟨rfl, rfl⟩, rfl⟩ := h
      exact ⟨[x], hr1, ⟨rfl, rfl, rfl, rfl⟩, fun _ => ⟨rfl, h1⟩, by simp, by simp⟩
    rcases Nat.lt_or_ge x.toNat 0xB8 with h2 | h2
    · -- a short string
      rw [Stream.readKind_string hb h1 h2] at h
      simp only [Except.ok.injEq, Prod.mk.injEq] at h
      obtain ⟨⟨rfl, rfl⟩, rfl⟩ := h
      refine ⟨[x], hr1, hm, by simp, fun _ => ?_, by simp⟩
      rw [UInt64.toNat_ofNat_of_lt' (show x.toNat - 0x80 < 2 ^ 64 by omega), header_of_le (by omega),
        Nat.add_sub_of_le h1, UInt8.ofNat_toNat]
    rcases Nat.lt_or_ge x.toNat 0xC0 with h3 | h3
    · -- a long string
      rw [Stream.readKind_longString hb h2 h3] at h
      obtain ⟨⟨v, s₂⟩, hu, h⟩ := Except.bind_eq_ok.mp h
      simp only [Except.ite_throw_eq_ok, Except.pure_eq_ok, Prod.mk.injEq] at h
      obtain ⟨hv, ⟨rfl, rfl⟩, rfl⟩ := h
      obtain ⟨hr', hm'⟩ := Stream.readKind_long_eq 0x80 hr (by omega) (by omega) (by omega) hu hv
      exact ⟨_, hr', hm', by simp, fun _ => rfl, by simp⟩
    rcases Nat.lt_or_ge x.toNat 0xF8 with h4 | h4
    · -- a short list
      rw [Stream.readKind_list hb h3 h4] at h
      simp only [Except.ok.injEq, Prod.mk.injEq] at h
      obtain ⟨⟨rfl, rfl⟩, rfl⟩ := h
      refine ⟨[x], hr1, hm, by simp, by simp, fun _ => ?_⟩
      rw [UInt64.toNat_ofNat_of_lt' (show x.toNat - 0xC0 < 2 ^ 64 by omega), header_of_le (by omega),
        Nat.add_sub_of_le h3, UInt8.ofNat_toNat]
    · -- a long list
      rw [Stream.readKind_longList hb h4] at h
      obtain ⟨⟨v, s₂⟩, hu, h⟩ := Except.bind_eq_ok.mp h
      simp only [Except.ite_throw_eq_ok, Except.pure_eq_ok, Prod.mk.injEq] at h
      obtain ⟨hv, ⟨rfl, rfl⟩, rfl⟩ := h
      have hx8 := x.toNat_lt
      obtain ⟨hr', hm'⟩ := Stream.readKind_long_eq 0xC0 hr (by omega) (by omega) (by omega) hu hv
      exact ⟨_, hr', hm', by simp, by simp, fun _ => rfl⟩

end ReadKind

/-! ### `Kind`, `Bytes`, `List` and `ListEnd` -/

section Values

variable {s s₁ s₂ s₃ s' : Stream} {k : rlp.Kind} {sz : UInt64}

/-- `Kind` with no kind cached: the header read, and the checks against the list
and the input passed. -/
theorem Stream.Kind_fresh (hk : s.kind = none) (h : s.readKind = .ok ((k, sz), s₁))
    (hL : ∀ limit ∈ s.stack.head?, 0 < limit.toNat ∧ sz.toNat ≤ limit.toNat)
    (hR : s₁.limited = true → sz.toNat ≤ s₁.remaining.toNat) :
    s.Kind = .ok ((k, sz), { s₁ with kind := some k, size := sz, kinderr := none }) := by
  have hR' : ¬ (s₁.limited = true ∧ sz > s₁.remaining) := fun ⟨hl, hgt⟩ => by
    have := hR hl
    rw [GT.gt, UInt64.lt_iff_toNat_lt] at hgt
    omega
  cases hs : s.stack with
  | nil => simp [Stream.Kind, hk, Stream.listLimit, hs, h, hR']
  | cons limit rest =>
    obtain ⟨h0, hle⟩ := hL limit (by simp [hs])
    have hne : limit ≠ 0 := fun h => by subst h; simp at h0
    have hgt : ¬ sz > limit := by
      rw [GT.gt, UInt64.lt_iff_toNat_lt]
      omega
    simp [Stream.Kind, hk, Stream.listLimit, hs, h, hne, hgt, hR']

/-- `Kind` at the end of the innermost list. -/
theorem Stream.Kind_EOL (hk : s.kind = none) (h0 : s.stack.head? = some 0) :
    s.Kind = .error .EOL := by
  obtain ⟨rest, hs⟩ := List.head?_eq_some_iff.mp h0
  simp [Stream.Kind, hk, Stream.listLimit, hs]

theorem Stream.Kind_cached (hk : s.kind = some k) (he : s.kinderr = none) :
    s.Kind = .ok ((k, s.size), s) := by
  simp [Stream.Kind, hk, he]

/-- **What `Kind` reads** with no kind cached: what `readKind` reads, cached. -/
theorem Stream.Kind_eq_ok (hk : s.kind = none) (h : s.Kind = .ok ((k, sz), s₁)) :
    ∃ s₀, s.readKind = .ok ((k, sz), s₀) ∧
      s₁ = { s₀ with kind := some k, size := sz, kinderr := none } := by
  simp only [Stream.Kind, hk] at h
  -- the end-of-list guard is decided by `simp`: it does not return a value
  split_ifs at h
  obtain ⟨⟨⟨k', sz'⟩, s₀⟩, hrk, h⟩ := Except.bind_eq_ok.mp h
  simp only [Except.ite_throw_eq_ok, Except.pure_eq_ok, Prod.mk.injEq] at h
  obtain ⟨-, -, ⟨rfl, rfl⟩, rfl⟩ := h
  exact ⟨s₀, hrk, rfl⟩

theorem Stream.Bytes_byte (hk : s.kind = some .Byte) (he : s.kinderr = none) :
    s.Bytes = .ok ([s.byteval], { s with kind := none }) := by
  simp [Stream.Bytes, Stream.Kind_cached hk he]

theorem Stream.Bytes_string {c} (hk : s.kind = some .String) (he : s.kinderr = none)
    (h : s.readFull s.size = .ok (c, s')) (hc : ¬ (s.size = 1 ∧ c.headD 0 < 128)) :
    s.Bytes = .ok (c, s') := by
  simp only [Stream.Bytes, Stream.Kind_cached hk he, Except.bind_ok, h, if_neg hc]
  rfl

/-- **What `Bytes` reads** after `Kind`: the byte that stood for itself, or the
content of a string that is not a single byte below `0x80`. -/
theorem Stream.Bytes_eq_ok {c} (hk : s.kind = some k) (he : s.kinderr = none)
    (h : s.Bytes = .ok (c, s')) :
    (k = .Byte ∧ c = [s.byteval] ∧ s' = { s with kind := none }) ∨
      (k = .String ∧ s.readFull s.size = .ok (c, s') ∧ ¬ (s.size = 1 ∧ c.headD 0 < 128)) := by
  rw [Stream.Bytes, Stream.Kind_cached hk he, Except.bind_ok] at h
  cases k with
  | Byte =>
    simp only [Except.pure_eq_ok, Prod.mk.injEq] at h
    exact .inl ⟨rfl, h.1.symm, h.2.symm⟩
  | String =>
    obtain ⟨⟨c', s₀⟩, hf, h⟩ := Except.bind_eq_ok.mp h
    simp only [Except.ite_throw_eq_ok, Except.pure_eq_ok, Prod.mk.injEq] at h
    obtain ⟨hc, rfl, rfl⟩ := h
    exact .inr ⟨rfl, hf, hc⟩
  | List => exact absurd h Except.throw_ne_ok

/-- `List` after `Kind` read a list header: the list's size is pushed, and taken
from the enclosing list. -/
theorem Stream.List_of_Kind (h : s.Kind = .ok ((.List, sz), s₁)) : s.List = .ok (sz, s₁.enter sz) := by
  simp only [Stream.List, h, Except.bind_ok, ne_eq, not_true_eq_false, if_false, Stream.enter]
  cases s₁.stack <;> rfl

theorem Stream.List_cached (hk : s.kind = some .List) (he : s.kinderr = none) :
    s.List = .ok (s.size, s.enter s.size) :=
  Stream.List_of_Kind (Stream.Kind_cached hk he)

/-- **What `List` enters** is a list whose header `Kind` read. -/
theorem Stream.List_eq_ok (h : s.List = .ok (sz, s₂)) :
    ∃ s₁, s.Kind = .ok ((.List, sz), s₁) ∧ s₂ = s₁.enter sz := by
  obtain ⟨⟨⟨k, sz'⟩, s₁⟩, hK, h⟩ := Except.bind_eq_ok.mp h
  simp only [Except.ite_throw_eq_ok, ne_eq, not_not, Except.pure_eq_ok, Prod.mk.injEq] at h
  obtain ⟨rfl, rfl, rfl⟩ := h
  refine ⟨s₁, hK, ?_⟩
  simp only [Stream.enter]
  cases s₁.stack <;> rfl

theorem Stream.ListEnd_eq_ok :
    s.ListEnd = .ok s' ↔ ∃ rest, s.stack = 0 :: rest ∧ s' = { s with stack := rest, kind := none, size := 0 } := by
  unfold Stream.ListEnd
  cases hs : s.stack with
  | nil => simp
  | cons limit rest =>
    by_cases h0 : limit = 0
    · subst h0
      simp only [GT.gt, UInt64.lt_irrefl, if_false, List.cons.injEq, true_and, exists_eq_left']
      exact ⟨fun h => Except.pure_eq_ok.mp h.symm, fun h => h ▸ rfl⟩
    · have : limit > 0 := by
        rw [GT.gt, UInt64.lt_iff_toNat_lt]
        have : limit.toNat ≠ 0 := fun h => h0 (UInt64.ext h)
        simp
        omega
      simp [this, h0]

/-- **A list read to its end is left**: after `List` pushed size `p` and `c`
bytes were read inside, `ListEnd` succeeds exactly when they are the size, and
then the whole list was read from the enclosing one. -/
theorem Stream.Moved_of_ListEnd {p : UInt64} {n : ℕ}
    (hm : (s.enter p).Moved s₂ n)
    (h : s₂.ListEnd = .ok s₃) :
    p = UInt64.ofNat n ∧ s.Moved s₃ n ∧ s₃.kind = none := by
  obtain ⟨rest, hs, rfl⟩ := Stream.ListEnd_eq_ok.1 h
  simp only [hm.stack, Stream.enter, List.modifyHead_cons, List.cons.injEq] at hs
  obtain ⟨hp, hrest⟩ := hs
  have hp' : p = UInt64.ofNat n := by grind
  subst hp'
  exact ⟨rfl, ⟨hm.r, hrest.symm, hm.remaining, hm.limited⟩, rfl⟩

theorem Stream.ListEnd_of_Moved {n : ℕ}
    (hm : (s.enter (UInt64.ofNat n)).Moved s₂ n) :
    ∃ s₃, s₂.ListEnd = .ok s₃ ∧ s.Moved s₃ n ∧ s₃.kind = none := by
  have hs : s₂.stack = 0 :: s.stack.modifyHead (· - UInt64.ofNat n) := by
    simp [hm.stack, Stream.enter]
  obtain ⟨s₃, h⟩ : ∃ s₃, s₂.ListEnd = .ok s₃ := ⟨_, Stream.ListEnd_eq_ok.2 ⟨_, hs, rfl⟩⟩
  exact ⟨s₃, h, (Stream.Moved_of_ListEnd hm h).2⟩

/-- **`Kind` of a string or list header** the encoder wrote, with room for the
content after it: the header is read and the kind and size cached. -/
theorem Stream.Kind_header {short n : ℕ} {k : rlp.Kind} {rest}
    (hk : (short = 0x80 ∧ k = .String) ∨ (short = 0xC0 ∧ k = .List)) (hn : n < 2 ^ 64)
    (hs : s.kind = none) (hr : s.r = header short n ++ rest)
    (hf : s.Fits ((header short n).length + n)) :
    ∃ s₁, s.Kind = .ok ((k, UInt64.ofNat n), s₁) ∧ s.Moved s₁ (header short n).length ∧
      s₁.kind = some k ∧ s₁.kinderr = none ∧ s₁.size = UInt64.ofNat n := by
  have hpos := List.length_pos_of_ne_nil (header_ne_nil short n)
  have hn' := UInt64.toNat_ofNat_of_lt' hn
  refine ⟨_, Stream.Kind_fresh hs (Stream.readKind_header hk hn hr (hf.mono (by omega))) ?_ ?_,
    ⟨rfl, rfl, rfl, rfl⟩, rfl, rfl, rfl⟩
  · -- the content fits the list the header is read from
    intro limit hl
    have := hf.1 limit hl
    omega
  · -- and the input after the header
    intro hl
    rw [hn']
    exact hf.skip.2 hl

/-- `Kind` of a byte below `0x80`, which is its own header. -/
theorem Stream.Kind_byte_item {y : UInt8} {rest} (hs : s.kind = none) (hy : y.toNat < 0x80)
    (hr : s.r = y :: rest) (hf : s.Fits 1) :
    s.Kind = .ok ((.Byte, 0),
      { s.skip 1 with byteval := y, kind := some .Byte, size := 0, kinderr := none }) := by
  have hb : s.readByte = .ok (y, s.skip 1) := Stream.readByte_eq_ok.2 ⟨hf, by simp [hr], rfl⟩
  exact Stream.Kind_fresh hs (Stream.readKind_byte hb hy)
    (fun limit hl => ⟨hf.1 limit hl, Nat.zero_le _⟩) (fun _ => Nat.zero_le _)

/-- `Kind` of a string header the encoder wrote, and the read of the content
after it, which is not a single byte below `0x80`. -/
theorem Stream.Kind_string_item {c rest} (hs : s.kind = none) (hc : c.length < 2 ^ 64)
    (hnot : ∀ y, c = [y] → 0x80 ≤ y.toNat) (hr : s.r = header 0x80 c.length ++ (c ++ rest))
    (hf : s.Fits ((header 0x80 c.length).length + c.length)) :
    ∃ s₁, s.Kind = .ok ((.String, UInt64.ofNat c.length), s₁) ∧
      s.Moved s₁ (header 0x80 c.length).length ∧ s₁.kind = some .String ∧ s₁.kinderr = none ∧
      s₁.size = UInt64.ofNat c.length ∧
      s₁.readFull (UInt64.ofNat c.length) = .ok (c, s₁.skip c.length) ∧
      ¬ (UInt64.ofNat c.length = 1 ∧ c.headD 0 < 128) := by
  obtain ⟨s₁, hK, hm, hk₁, he₁, hsz⟩ := Stream.Kind_header (.inl ⟨rfl, rfl⟩) hc hs hr hf
  have hr₁ : s₁.r = c ++ rest := by rw [hm.r, hr, List.drop_left]
  refine ⟨s₁, hK, hm, hk₁, he₁, hsz, ?_, ?_⟩
  · -- the content is read in full
    refine (Stream.readFull_eq_ok hc).mpr ⟨hm.fits hf, ?_, ?_, rfl⟩ <;> simp [hr₁]
  · -- and is not a single byte below `0x80`
    rintro ⟨h1, h2⟩
    have hlen : c.length = 1 := by
      have := congrArg UInt64.toNat h1
      rwa [UInt64.toNat_ofNat_of_lt' hc] at this
    obtain ⟨y, rfl⟩ := List.length_eq_one_iff.mp hlen
    have := hnot y rfl
    rw [List.headD_cons, UInt8.lt_iff_toNat_lt] at h2
    simp at h2
    omega

/-- `Kind` of a list header the encoder wrote: the payload is ahead, with room
for it. -/
theorem Stream.Kind_list_item {ts rest} (hs : s.kind = none)
    (hn : (Item.encodeAll ts).length < 2 ^ 64) (hr : s.r = (Item.list ts).encode ++ rest)
    (hf : s.Fits (Item.list ts).encode.length) :
    ∃ s₁, s.Kind = .ok ((.List, UInt64.ofNat (Item.encodeAll ts).length), s₁) ∧
      s.Moved s₁ (header 0xC0 (Item.encodeAll ts).length).length ∧
      s₁.r = Item.encodeAll ts ++ rest ∧ s₁.Fits (Item.encodeAll ts).length := by
  rw [encode_list, List.append_assoc] at hr
  rw [encode_list, List.length_append] at hf
  obtain ⟨s₁, hK, hm, -⟩ := Stream.Kind_header (.inr ⟨rfl, rfl⟩) hn hs hr hf
  exact ⟨s₁, hK, hm, by rw [hm.r, hr, List.drop_left], hm.fits hf⟩

/-- **A string the encoder wrote is read back** by `Kind` and `Bytes`, and
exactly its bytes are consumed. -/
theorem Stream.Bytes_encodeString {c rest} (hs : s.kind = none) (hc : c.length < 2 ^ 64)
    (hr : s.r = encodeString c ++ rest) (hf : s.Fits (encodeString c).length) :
    ∃ k sz s₁ s', k ≠ .List ∧ s.Kind = .ok ((k, sz), s₁) ∧ s₁.Bytes = .ok (c, s') ∧
      s.Moved s' (encodeString c).length ∧ s'.kind = none := by
  rcases encodeString_cases c with ⟨y, rfl, hy, he⟩ | he
  · -- a byte below `0x80`, which is its own header
    rw [he] at hr hf ⊢
    refine ⟨_, _, _, _, by decide, Stream.Kind_byte_item hs hy hr hf, Stream.Bytes_byte rfl rfl,
      ?_, ?_⟩
    · exact ⟨rfl, rfl, rfl, rfl⟩
    · rfl
  · -- a header, then the content
    rw [he, List.length_append] at hf
    rw [he, List.append_assoc] at hr
    obtain ⟨s₁, hK, hm, hk₁, he₁, hsz, hfull, hc₁⟩ :=
      Stream.Kind_string_item hs hc (not_byte_of_encodeString_eq he) hr hf
    refine ⟨_, _, s₁, _, by decide, hK, Stream.Bytes_string hk₁ he₁ (by rwa [hsz]) (by rwa [hsz]),
      ?_, rfl⟩
    rw [he, List.length_append]
    exact hm.trans (Stream.moved_skip _ c.length)

/-- `Kind` after `Kind`: the value ahead is cached, and read again as it was. -/
theorem Stream.Kind_of_Kind {x : rlp.Kind × UInt64} (hk : s.kind = none)
    (h : s.Kind = .ok (x, s₁)) : s₁.Kind = .ok (x, s₁) := by
  obtain ⟨k, sz⟩ := x
  obtain ⟨s₀, -, rfl⟩ := Stream.Kind_eq_ok hk h
  exact Stream.Kind_cached rfl rfl

/-- `List` after `Kind` enters the list `Kind` read the header of. -/
theorem Stream.List_after_Kind {x : rlp.Kind × UInt64} (hk : s.kind = none)
    (h : s.Kind = .ok (x, s₁)) : s₁.List = s.List := by
  simp only [Stream.List, Stream.Kind_of_Kind hk h, h]

/-- `Bytes` after `Kind` reads the string `Kind` read the header of. -/
theorem Stream.Bytes_after_Kind {x : rlp.Kind × UInt64} (hk : s.kind = none)
    (h : s.Kind = .ok (x, s₁)) : s₁.Bytes = s.Bytes := by
  simp only [Stream.Bytes, Stream.Kind_of_Kind hk h, h]

/-- **What `Kind` accepts as a byte** is a byte below `0x80`, its own header. -/
theorem Stream.byte_of_Kind (hk : s.kind = none) (hK : s.Kind = .ok ((.Byte, sz), s₁)) :
    s₁.byteval.toNat < 0x80 ∧ s.r = [s₁.byteval] ++ s₁.r ∧ s.Moved s₁ 1 ∧
      s₁.kind = some .Byte ∧ s₁.kinderr = none := by
  obtain ⟨s₀, hrk, rfl⟩ := Stream.Kind_eq_ok hk hK
  obtain ⟨hdr, hr, hm, hbyte, -, -⟩ := Stream.readKind_eq_ok hrk
  obtain ⟨rfl, hlt⟩ := hbyte rfl
  exact ⟨hlt, hr, ⟨hm.r, hm.stack, hm.remaining, hm.limited⟩, rfl, rfl⟩

/-- **What `Kind` accepts as a string or list header** is the canonical header of
the size it returns. -/
theorem Stream.header_of_Kind {short : ℕ} (hk : s.kind = none) (hK : s.Kind = .ok ((k, sz), s₁))
    (hshort : (k = .String ∧ short = 0x80) ∨ (k = .List ∧ short = 0xC0)) :
    s.r = header short sz.toNat ++ s₁.r ∧ s.Moved s₁ (header short sz.toNat).length ∧
      s₁.kind = some k ∧ s₁.kinderr = none ∧ s₁.size = sz := by
  obtain ⟨s₀, hrk, rfl⟩ := Stream.Kind_eq_ok hk hK
  obtain ⟨hdr, hr, hm, -, hstr, hlist⟩ := Stream.readKind_eq_ok hrk
  have hhdr : hdr = header short sz.toNat := by
    rcases hshort with ⟨rfl, rfl⟩ | ⟨rfl, rfl⟩
    · exact hstr rfl
    · exact hlist rfl
  subst hhdr
  exact ⟨hr, ⟨hm.r, hm.stack, hm.remaining, hm.limited⟩, rfl, rfl, rfl⟩

/-- **String content read after its header** is the encoding of that content,
when it is not a single byte below `0x80`. -/
theorem Stream.encodeString_of_content {b} (hk : s.kind = none)
    (hK : s.Kind = .ok ((.String, sz), s₁)) (hlen : b.length = sz.toNat) (hr₁ : s₁.r = b ++ s'.r)
    (hm₁ : s₁.Moved s' b.length) (hc : ∀ y, b = [y] → 0x80 ≤ y.toNat) :
    s.r = encodeString b ++ s'.r ∧ s.Moved s' (encodeString b).length := by
  obtain ⟨hr, hm, -⟩ := Stream.header_of_Kind hk hK (.inl ⟨rfl, rfl⟩)
  rw [← hlen] at hr hm
  rw [encodeString_of_not_byte hc, List.length_append]
  exact ⟨by rw [hr, hr₁, List.append_assoc], hm.trans hm₁⟩

/-- **A string content read in full after its header** is the encoding of that
content, when it is not a single byte below `0x80`. -/
theorem Stream.encodeString_of_readFull {b} (hk : s.kind = none)
    (hK : s.Kind = .ok ((.String, sz), s₁)) (hf : s₁.readFull sz = .ok (b, s'))
    (hc : ¬ (sz = 1 ∧ b.headD 0 < 128)) :
    s.r = encodeString b ++ s'.r ∧ s.Moved s' (encodeString b).length ∧ s'.kind = none ∧
      b.length = sz.toNat := by
  obtain ⟨-, hlen, rfl, rfl⟩ := Stream.readFull_eq_ok_toNat.1 hf
  have hclen : (s₁.r.take sz.toNat).length = sz.toNat := by
    rw [List.length_take]
    omega
  have hnot : ∀ y, s₁.r.take sz.toNat = [y] → 0x80 ≤ y.toNat := by
    intro y hy
    have h1 : sz = 1 := UInt64.ext (by rw [← hclen, hy]; rfl)
    by_contra hlt
    exact hc ⟨h1, by rw [hy, List.headD_cons, UInt8.lt_iff_toNat_lt]; simp; omega⟩
  have hr₁ : s₁.r = s₁.r.take sz.toNat ++ (s₁.skip sz.toNat).r := by simp
  obtain ⟨hr, hm⟩ := Stream.encodeString_of_content hk hK hclen hr₁
    (by rw [hclen]; exact Stream.moved_skip _ _) hnot
  exact ⟨hr, hm, rfl, hclen⟩

end Values

/-! ### Decoding an encoding -/

section Decode

variable {α : Type} {elemdec : Stream → Except RlpError (α × Stream)} {s s₁ : Stream}

/-- `decodeListSlice` once `List` entered the list: an empty list is left at
once, any other is read to its end first. -/
theorem decodeListSlice_of_List {fuel : ℕ} {sz : UInt64} (hL : s.List = .ok (sz, s₁)) :
    decodeListSlice elemdec fuel s =
      if sz = 0 then s₁.ListEnd >>= fun s => pure ([], s)
      else decodeSliceElems elemdec fuel s₁ >>= fun p =>
        p.2.ListEnd >>= fun s => pure (p.1, s) := by
  simp only [decodeListSlice, hL, Except.bind_ok]

/-- At the end of a list there is no value: `decodeInterface` stops with `EOL`. -/
theorem decodeInterface_EOL {f : ℕ} (hk : s.kind = none) (h0 : s.stack.head? = some 0) :
    decodeInterface (f + 1) s = .error .EOL := by
  simp [decodeInterface, Stream.Kind_EOL hk h0]

/-- **The elements of a list the encoder wrote are read back**, given an element
decoder that reads each item back as the value paired with it and stops at the
list's end. The induction is on the elements; the list's remaining size is the
top of the stack. -/
theorem decodeSliceElems_complete
    (hEOL : ∀ s : Stream, s.kind = none → s.stack.head? = some 0 → elemdec s = .error .EOL)
    {ws : List α} {ts : List Item}
    (hws : List.Forall₂ (fun w t => ∀ (s : Stream) rest, s.r = t.encode ++ rest →
      s.Fits t.encode.length → s.kind = none →
      ∃ s', elemdec s = .ok (w, s') ∧ s.Moved s' t.encode.length ∧ s'.kind = none) ws ts) :
    ∀ (fuel : ℕ) (s : Stream) (rest : List UInt8), ts.length < fuel →
      (Item.encodeAll ts).length < 2 ^ 64 → s.r = Item.encodeAll ts ++ rest →
      s.stack.head? = some (UInt64.ofNat (Item.encodeAll ts).length) →
      s.Fits (Item.encodeAll ts).length → s.kind = none →
      ∃ s', decodeSliceElems elemdec fuel s = .ok (ws, s') ∧
        s.Moved s' (Item.encodeAll ts).length ∧ s'.kind = none := by
  induction hws with
  | nil =>
    -- nothing is left in the list: `EOL`, and nothing read
    intro fuel s rest hlen _ _ h0 _ hk
    obtain ⟨fuel, rfl⟩ : ∃ f, fuel = f + 1 := ⟨fuel - 1, by simp at hlen; omega⟩
    have h0' : s.stack.head? = some 0 := by simpa using h0
    refine ⟨s, ?_, Stream.moved_zero s, hk⟩
    simp [decodeSliceElems, hEOL s hk h0']
  | @cons w t ws ts hwt _ ih =>
    intro fuel s rest hlen h64 hr hhead hf hk
    obtain ⟨fuel, rfl⟩ : ∃ f, fuel = f + 1 := ⟨fuel - 1, by simp at hlen; omega⟩
    have hlen' : (Item.encodeAll (t :: ts)).length = t.encode.length + (Item.encodeAll ts).length := by
      rw [encodeAll_cons, List.length_append]
    rw [encodeAll_cons, List.append_assoc] at hr
    rw [hlen'] at hhead hf h64
    -- the first element, then the others from where it ends
    obtain ⟨s₁, hd, hm₁, hk₁⟩ := hwt s _ hr (hf.mono (by omega)) hk
    have hr₁ : s₁.r = Item.encodeAll ts ++ rest := by rw [hm₁.r, hr, List.drop_left]
    have hhead₁ : s₁.stack.head? = some (UInt64.ofNat (Item.encodeAll ts).length) := by
      obtain ⟨st, hst⟩ := List.head?_eq_some_iff.mp hhead
      rw [hm₁.stack, hst, List.modifyHead_cons, List.head?_cons, UInt64.ofNat_add,
        uint64_add_sub_cancel]
    obtain ⟨s₂, hd₂, hm₂, hk₂⟩ := ih fuel s₁ rest (by simp at hlen; omega) (by omega) hr₁ hhead₁
      (hm₁.fits hf) hk₁
    refine ⟨s₂, ?_, by rw [hlen']; exact hm₁.trans hm₂, hk₂⟩
    simp [decodeSliceElems, hd, hd₂]

/-- **A list the encoder wrote is read to its end** by `decodeListSlice`, once
its header is read: the elements, then `ListEnd`. -/
theorem decodeListSlice_complete
    (hEOL : ∀ s : Stream, s.kind = none → s.stack.head? = some 0 → elemdec s = .error .EOL)
    {ws : List α} {ts : List Item} {rest}
    (hws : List.Forall₂ (fun w t => ∀ (s : Stream) rest, s.r = t.encode ++ rest →
      s.Fits t.encode.length → s.kind = none →
      ∃ s', elemdec s = .ok (w, s') ∧ s.Moved s' t.encode.length ∧ s'.kind = none) ws ts)
    (fuel : ℕ) (hfuel : ts.length < fuel) (h64 : (Item.encodeAll ts).length < 2 ^ 64)
    (hL : s.List = .ok (UInt64.ofNat (Item.encodeAll ts).length,
      s₁.enter (UInt64.ofNat (Item.encodeAll ts).length)))
    (hr₁ : s₁.r = Item.encodeAll ts ++ rest) (hf₁ : s₁.Fits (Item.encodeAll ts).length) :
    ∃ s', decodeListSlice elemdec fuel s = .ok (ws, s') ∧
      s₁.Moved s' (Item.encodeAll ts).length ∧ s'.kind = none := by
  rw [decodeListSlice_of_List hL]
  by_cases hn0 : (Item.encodeAll ts).length = 0
  · -- an empty list is left at once
    have hts : ts = [] :=
      List.eq_nil_of_length_eq_zero (Nat.eq_zero_of_le_zero (hn0 ▸ length_le_length_encodeAll ts))
    subst hts
    obtain rfl : ws = [] := List.forall₂_nil_right_iff.mp hws
    obtain ⟨s₃, hE, hm₃, hk₃⟩ := Stream.ListEnd_of_Moved (Stream.moved_zero (s₁.enter (UInt64.ofNat 0)))
    have hE' : (s₁.enter 0).ListEnd = .ok s₃ := hE
    refine ⟨s₃, ?_, hm₃, hk₃⟩
    simp [hE']
  · -- the elements, then the end of the list
    have hne : UInt64.ofNat (Item.encodeAll ts).length ≠ 0 := fun h => hn0 (by
      have := congrArg UInt64.toNat h
      rwa [UInt64.toNat_ofNat_of_lt' h64] at this)
    obtain ⟨s₂, hd, hm₂, hk₂⟩ := decodeSliceElems_complete hEOL hws fuel (s₁.enter _) rest hfuel h64
      hr₁ rfl (hf₁.enter h64) rfl
    obtain ⟨s₃, hE, hm₃, hk₃⟩ := Stream.ListEnd_of_Moved hm₂
    refine ⟨s₃, ?_, hm₃, hk₃⟩
    simp [hne, hd, hE]

/-- **Decoding reads back what the encoder wrote**: from a stream with no kind
cached whose bytes start with the encoding of `t`, and with room for it in the
innermost list and in the input, `decodeInterface` returns `t` and consumes
exactly its encoding. The induction is on the fuel; a list's elements are
shorter than the list, and fewer than its bytes. -/
theorem decodeInterface_encode (fuel : ℕ) :
    ∀ (t : Item) (s : Stream) (rest : List UInt8), t.encode.length < fuel →
      t.encode.length < 2 ^ 64 → s.r = t.encode ++ rest → s.Fits t.encode.length →
      s.kind = none →
      ∃ s', decodeInterface fuel s = .ok (t, s') ∧ s.Moved s' t.encode.length ∧ s'.kind = none := by
  induction fuel with
  | zero => intro t s rest h; omega
  | succ f ih =>
    intro t s rest hfuel h64 hr hf hk
    cases t with
    | str c =>
      rw [encode_str] at hr hf ⊢
      obtain ⟨k, sz, s₁, s', hkl, hK, hB, hm, hk'⟩ :=
        Stream.Bytes_encodeString hk (length_bytes_lt h64) hr hf
      refine ⟨s', ?_, hm, hk'⟩
      simp [decodeInterface, hK, hkl, hB]
    | list items =>
      have hn := length_payload_lt h64
      have hpos := List.length_pos_of_ne_nil (header_ne_nil 0xC0 (Item.encodeAll items).length)
      rw [encode_list, List.length_append] at hfuel hf ⊢
      rw [encode_list, List.append_assoc] at hr
      obtain ⟨s₁, hK, hm₁, hk₁, he₁, hsz⟩ := Stream.Kind_header (.inr ⟨rfl, rfl⟩) hn hk hr hf
      have hr₁ : s₁.r = Item.encodeAll items ++ rest := by rw [hm₁.r, hr, List.drop_left]
      -- the elements are shorter than the list, and each of them is read back
      have hws : List.Forall₂ (fun w t => ∀ (s : Stream) rest, s.r = t.encode ++ rest →
          s.Fits t.encode.length → s.kind = none → ∃ s', decodeInterface f s = .ok (w, s') ∧
            s.Moved s' t.encode.length ∧ s'.kind = none) items items :=
        List.forall₂_same.mpr fun t ht s rest hr hf hk => ih t s rest
          (by have := length_encode_le_of_mem ht; omega)
          (by have := length_encode_le_of_mem ht; omega) hr hf hk
      -- at the end of the list there is no element, however much fuel is left
      have hEOL : ∀ s : Stream, s.kind = none → s.stack.head? = some 0 →
          decodeInterface f s = .error .EOL := by
        intro s hk h0
        cases f with
        | zero => omega
        | succ f => exact decodeInterface_EOL hk h0
      obtain ⟨s', hd, hm, hk'⟩ := decodeListSlice_complete hEOL hws f
        (by have := length_le_length_encodeAll items; omega) hn
        (by rw [Stream.List_cached hk₁ he₁, hsz]) hr₁ (hm₁.fits hf)
      exact ⟨s', by simp [decodeInterface, hK, hd], hm₁.trans hm, hk'⟩

/-! ### What is decoded is an encoding -/

/-- **What `Kind` and `Bytes` accept as a string** is the encoding of its
content: a byte below `0x80` alone, or a canonical header and the content it
counts, which is not a single byte below `0x80`. -/
theorem Stream.encodeString_of_Bytes {k : rlp.Kind} {sz : UInt64} {s' : Stream} {c}
    (hk : s.kind = none) (hK : s.Kind = .ok ((k, sz), s₁)) (hkl : k ≠ .List)
    (hB : s₁.Bytes = .ok (c, s')) :
    s.r = encodeString c ++ s'.r ∧ s.Moved s' (encodeString c).length ∧ s'.kind = none := by
  obtain ⟨s₀, -, rfl⟩ := Stream.Kind_eq_ok hk hK
  rcases Stream.Bytes_eq_ok rfl rfl hB with ⟨rfl, rfl, rfl⟩ | ⟨rfl, hf, hc⟩
  · -- the byte that stood for itself
    obtain ⟨hlt, hr, hm, -, -⟩ := Stream.byte_of_Kind hk hK
    have he : encodeString [s₀.byteval] = [s₀.byteval] := by simp [encodeString, hlt]
    rw [he]
    exact ⟨hr, ⟨hm.r, hm.stack, hm.remaining, hm.limited⟩, rfl⟩
  · -- a string header and the content it counts
    obtain ⟨hr, hm, hk', -⟩ := Stream.encodeString_of_readFull hk hK hf hc
    exact ⟨hr, hm, hk'⟩

/-- **The elements `decodeSliceElems` reads are encodings**, one after the
other, given an element decoder that reads only encodings, each paired by `P`
with the value read. -/
theorem decodeSliceElems_sound {P : α → Item → Prop}
    (hdec : ∀ (s : Stream) w s', s.kind = none → s.r.length < 2 ^ 64 → elemdec s = .ok (w, s') →
      ∃ t, P w t ∧ s.r = t.encode ++ s'.r ∧ s.Moved s' t.encode.length ∧ s'.kind = none) :
    ∀ (fuel : ℕ) (s : Stream) ws s', s.kind = none → s.r.length < 2 ^ 64 →
      decodeSliceElems elemdec fuel s = .ok (ws, s') →
      ∃ ts, List.Forall₂ P ws ts ∧ s.r = Item.encodeAll ts ++ s'.r ∧
        s.Moved s' (Item.encodeAll ts).length ∧ s'.kind = none
  | 0, s, ws, s', _, _, h => by simp [decodeSliceElems] at h
  | fuel + 1, s, ws, s', hk, h64, h => by
    rw [decodeSliceElems] at h
    split at h
    · -- `EOL`: the end of the list, where nothing is read
      simp only [Except.pure_eq_ok, Prod.mk.injEq] at h
      obtain ⟨rfl, rfl⟩ := h
      exact ⟨[], .nil, by simp, Stream.moved_zero s, hk⟩
    · exact absurd h Except.throw_ne_ok
    · -- an element, then the others from where it ends
      rename_i w s₁ hd
      obtain ⟨⟨ws, s₂⟩, hrec, h⟩ := Except.bind_eq_ok.mp h
      simp only [Except.pure_eq_ok, Prod.mk.injEq] at h
      obtain ⟨rfl, rfl⟩ := h
      obtain ⟨t, hP, hr₁, hm₁, hk₁⟩ := hdec s w s₁ hk h64 hd
      have h64₁ : s₁.r.length < 2 ^ 64 := by
        rw [hm₁.r, List.length_drop]
        omega
      obtain ⟨ts, hPs, hr₂, hm₂, hk₂⟩ := decodeSliceElems_sound hdec fuel s₁ ws s₂ hk₁ h64₁ hrec
      refine ⟨t :: ts, .cons hP hPs, by rw [hr₁, hr₂, encodeAll_cons, List.append_assoc], ?_, hk₂⟩
      rw [encodeAll_cons, List.length_append]
      exact hm₁.trans hm₂

/-- **A list `decodeListSlice` reads is the payload of the size its header
stated**: `ListEnd` succeeds only where the size pushed is used up, and the
bytes read inside are fewer than `2^64`. -/
theorem decodeListSlice_sound {P : α → Item → Prop} {fuel : ℕ} {sz : UInt64} {ws} {s₃ : Stream}
    (hdec : ∀ (s : Stream) w s', s.kind = none → s.r.length < 2 ^ 64 → elemdec s = .ok (w, s') →
      ∃ t, P w t ∧ s.r = t.encode ++ s'.r ∧ s.Moved s' t.encode.length ∧ s'.kind = none)
    (hL : s.List = .ok (sz, s₁.enter sz)) (h64 : s₁.r.length < 2 ^ 64)
    (h : decodeListSlice elemdec fuel s = .ok (ws, s₃)) :
    ∃ ts, List.Forall₂ P ws ts ∧ s₁.r = Item.encodeAll ts ++ s₃.r ∧
      sz.toNat = (Item.encodeAll ts).length ∧
      s₁.Moved s₃ (Item.encodeAll ts).length ∧ s₃.kind = none := by
  rw [decodeListSlice_of_List hL] at h
  -- the stream where `ListEnd` is called, and what was read before it
  obtain ⟨ts, s₂, hPs, hr₂, hm₂, hE⟩ : ∃ ts s₂, List.Forall₂ P ws ts ∧
      s₁.r = Item.encodeAll ts ++ s₂.r ∧ (s₁.enter sz).Moved s₂ (Item.encodeAll ts).length ∧
      s₂.ListEnd = .ok s₃ := by
    split_ifs at h
    · obtain ⟨s₃', hE, h⟩ := Except.bind_eq_ok.mp h
      simp only [Except.pure_eq_ok, Prod.mk.injEq] at h
      obtain ⟨rfl, rfl⟩ := h
      exact ⟨[], _, .nil, by simp; rfl, Stream.moved_zero _, hE⟩
    · obtain ⟨⟨vs, s₂⟩, hloop, h⟩ := Except.bind_eq_ok.mp h
      obtain ⟨s₃', hE, h⟩ := Except.bind_eq_ok.mp h
      simp only [Except.pure_eq_ok, Prod.mk.injEq] at h
      obtain ⟨rfl, rfl⟩ := h
      obtain ⟨ts, hPs, hr₂, hm₂, -⟩ := decodeSliceElems_sound hdec fuel (s₁.enter sz) vs s₂ rfl h64 hloop
      exact ⟨ts, s₂, hPs, hr₂, hm₂, hE⟩
  obtain ⟨hsz, hm₃, hk₃⟩ := Stream.Moved_of_ListEnd hm₂ hE
  have hlt : (Item.encodeAll ts).length < 2 ^ 64 := by
    have := congrArg List.length hr₂
    rw [List.length_append] at this
    omega
  refine ⟨ts, hPs, ?_, by rw [hsz, UInt64.toNat_ofNat_of_lt' hlt], hm₃, hk₃⟩
  rw [hr₂, hm₃.r, hr₂, List.drop_left]

/-- **What `decodeInterface` accepts is the canonical encoding of what it
returns**, followed by what it leaves: a byte below `0x80` is never behind a
header, no size below 56 has a length prefix, and no length prefix has a leading
zero. The induction is on the fuel. -/
theorem encode_of_decodeInterface (fuel : ℕ) :
    ∀ (s : Stream) (t : Item) (s' : Stream), s.kind = none → s.r.length < 2 ^ 64 →
      decodeInterface fuel s = .ok (t, s') →
      s.r = t.encode ++ s'.r ∧ s.Moved s' t.encode.length ∧ s'.kind = none := by
  induction fuel with
  | zero => intro s t s' _ _ h; simp [decodeInterface] at h
  | succ f ih =>
    intro s t s' hk h64 h
    rw [decodeInterface] at h
    obtain ⟨⟨⟨k, sz⟩, s₁⟩, hK, h⟩ := Except.bind_eq_ok.mp h
    by_cases hkl : k = .List
    · -- a list header, its elements and the end of the list
      subst hkl
      simp at h
      obtain ⟨⟨items, s₃⟩, hd, h⟩ := Except.map_eq_ok.mp h
      simp only [Prod.mk.injEq] at h
      obtain ⟨rfl, rfl⟩ := h
      obtain ⟨hr, hm₁, hk₁, he₁, hsz⟩ := Stream.header_of_Kind hk hK (.inr ⟨rfl, rfl⟩)
      have h64₁ : s₁.r.length < 2 ^ 64 := by
        have := congrArg List.length hr
        rw [List.length_append] at this
        omega
      have hL := Stream.List_cached hk₁ he₁
      rw [hsz] at hL
      obtain ⟨ts, hts, hr₃, hlen, hm₃, hk₃⟩ :=
        decodeListSlice_sound (P := (· = ·)) (fun s t s' hk h64 hd => ⟨t, rfl, ih s t s' hk h64 hd⟩)
          hL h64₁ hd
      obtain rfl : items = ts := by rwa [List.forall₂_eq_eq_eq] at hts
      rw [hlen] at hr hm₁
      refine ⟨by rw [encode_list, hr, hr₃, List.append_assoc], ?_, hk₃⟩
      rw [encode_list, List.length_append]
      exact hm₁.trans hm₃
    · -- a string
      simp [hkl] at h
      obtain ⟨⟨c, s₂⟩, hB, h⟩ := Except.map_eq_ok.mp h
      simp only [Prod.mk.injEq] at h
      obtain ⟨rfl, rfl⟩ := h
      rw [encode_str]
      exact Stream.encodeString_of_Bytes hk hK hkl hB

/-- The stream `DecodeBytes` decodes from: the bytes, all of them the input. -/
theorem Reset_Fits (b : List UInt8) (h : b.length < 2 ^ 64) :
    (Stream.Reset b (UInt64.ofNat b.length)).Fits b.length := by
  refine ⟨fun l hl => by simp [Stream.Reset] at hl, fun _ => ?_⟩
  simp only [Stream.Reset, ite_self, UInt64.toNat_ofNat_of_lt' h, Nat.le_refl]

/-- **`DecodeBytes` reads back what the encoder wrote.** -/
theorem DecodeBytes_encode (t : Item) (h : t.encode.length < 2 ^ 64) :
    DecodeBytes t.encode = .ok t := by
  obtain ⟨s', hd, hm, -⟩ := decodeInterface_encode (t.encode.length + 1) t _ [] (by omega) h
    (by simp [Stream.Reset]) (Reset_Fits _ h) rfl
  have hr : s'.r = [] := by simp [hm.r, Stream.Reset]
  simp [DecodeBytes, hd, hr]

/-- **What `DecodeBytes` accepts is the canonical encoding of what it returns.** -/
theorem encode_of_DecodeBytes {b : List UInt8} {t : Item} (h : b.length < 2 ^ 64)
    (hd : DecodeBytes b = .ok t) : b = t.encode := by
  obtain ⟨⟨t', s'⟩, hdi, hend⟩ := Except.bind_eq_ok.mp hd
  simp only [Except.ite_throw_eq_ok, Except.pure_eq_ok] at hend
  obtain ⟨hr, rfl⟩ := hend
  have hr' : s'.r = [] := List.eq_nil_of_length_eq_zero (by omega)
  obtain ⟨hb, -⟩ := encode_of_decodeInterface _ (Stream.Reset b (UInt64.ofNat b.length)) _ s' rfl h hdi
  simpa [hr', Stream.Reset] using hb

end Decode

/-! ### A list header claiming what was left before it -/

section Overrun

variable {s : Stream}

/-- **`List` enters a list that runs past the enclosing one.** Inside a list
with `R` bytes left, a short list header claiming `R` bytes passes the check of
`Kind`, made against the `R` bytes left before the header was read. `List` then
takes the `R` bytes from the `R - 1` left after the header, so the enclosing
list's entry wraps to `2^64 - 1`, and the list entered has room for all `R`
bytes, the last of them past the end of the enclosing list. -/
theorem Stream.List_overruns {R : ℕ} {rest more}
    (hk : s.kind = none) (hs : s.stack = UInt64.ofNat R :: rest) (hR0 : 0 < R) (hR : R ≤ 55)
    (hr : s.r = UInt8.ofNat (0xC0 + R) :: more) (hin : s.limited = true → R + 1 ≤ s.remaining.toNat) :
    ∃ s', s.List = .ok (UInt64.ofNat R, s') ∧
      s'.stack = UInt64.ofNat R :: 0xFFFFFFFFFFFFFFFF :: rest ∧ s'.r = more ∧ s'.Fits R := by
  have hR64 : (UInt64.ofNat R).toNat = R := UInt64.toNat_ofNat_of_lt' (by simp only [UInt64.size]; omega)
  have hbyte : (UInt8.ofNat (0xC0 + R)).toNat = 0xC0 + R :=
    UInt8.toNat_ofNat_of_lt' (by simp only [UInt8.size]; omega)
  -- the header byte is read, charged to the enclosing list and the input
  have hb : s.readByte = .ok (UInt8.ofNat (0xC0 + R), s.skip 1) := by
    refine Stream.readByte_eq_ok.2 ⟨⟨fun l hl => ?_, fun hl => ?_⟩, by simp [hr], rfl⟩
    · simp only [hs, List.head?_cons, Option.mem_def, Option.some.injEq] at hl
      subst hl
      omega
    · have := hin hl
      omega
  have hrk := Stream.readKind_list hb (by omega) (by omega)
  rw [hbyte, Nat.add_sub_cancel_left] at hrk
  have hrem : s.limited = true → ((s.skip 1).remaining).toNat = s.remaining.toNat - 1 := fun hl => by
    have := hin hl
    rw [Stream.remaining_skip, if_pos hl, toNat_sub_ofNat (by omega)]
  -- `Kind` checks the size against the `R` bytes left before the header
  have hK := Stream.Kind_fresh hk hrk
    (fun limit hl => by
      simp only [hs, List.head?_cons, Option.mem_def, Option.some.injEq] at hl
      subst hl
      omega)
    (fun hl => by
      have := hin hl
      have := hrem hl
      simp only at this ⊢
      omega)
  refine ⟨_, Stream.List_of_Kind hK, ?_, by simp [Stream.enter, hr], ⟨fun l hl => ?_, fun hl => ?_⟩⟩
  · -- the `R` bytes are taken from the `R - 1` left after the header
    simp only [Stream.enter, Stream.stack_skip, hs, List.modifyHead_cons, List.cons.injEq, true_and]
    grind
  · simp only [Stream.enter, List.head?_cons, Option.mem_def, Option.some.injEq] at hl
    subst hl
    omega
  · have := hin hl
    have := hrem hl
    simp only [Stream.enter] at this ⊢
    omega

/-- The stream on `[0xC2, 0xC2, 0x80, 0x80]` once `List` entered the outer list
of two bytes, whose first is a list header claiming two. -/
theorem Stream.List_overruns_outer_two :
    (Stream.Reset [0xC2, 0xC2, 0x80, 0x80] 0).List =
        .ok (2, ⟨[0xC2, 0x80, 0x80], 3, 0, none, [2], none, 0, true⟩) ∧
      ∃ s', (⟨[0xC2, 0x80, 0x80], 3, 0, none, [2], none, 0, true⟩ : Stream).List = .ok (UInt64.ofNat 2, s') ∧
        s'.stack = [UInt64.ofNat 2, 0xFFFFFFFFFFFFFFFF] ∧ s'.r = [0x80, 0x80] ∧ s'.Fits 2 :=
  ⟨rfl, Stream.List_overruns rfl rfl (by decide) (by decide) rfl (fun _ => by decide)⟩

end Overrun

/-! ### The codec -/

/-- **RLP decoding inverts the encoder and accepts only canonical input.** What
`EncodeToBytes` writes is read back, with whatever follows it left, by `Split`
applied down the tree, by `decodeInterface` on a `Stream` (`Kind`, `Bytes`,
`List`, `ListEnd`) positioned at it, and by `DecodeBytes`; and whatever either
decoder accepts as one item is what `EncodeToBytes` writes for the item
returned. The bound `2^64` is that of a Go slice's length. -/
theorem EncodeToBytes_decode_canonical :
    (∀ t : Item, (EncodeToBytes t).length < 2 ^ 64 →
      (∀ rest, splitValue (EncodeToBytes t ++ rest) = .ok (t, rest)) ∧
      (∀ (s : Stream) rest fuel, (EncodeToBytes t).length < fuel →
        s.r = EncodeToBytes t ++ rest → s.Fits (EncodeToBytes t).length → s.kind = none →
        ∃ s', decodeInterface fuel s = .ok (t, s') ∧ s'.r = rest ∧
          s.Moved s' (EncodeToBytes t).length) ∧
      DecodeBytes (EncodeToBytes t) = .ok t) ∧
    (∀ b t rest, splitValue b = .ok (t, rest) → b = EncodeToBytes t ++ rest) ∧
    (∀ (s : Stream) fuel t s', s.kind = none → s.r.length < 2 ^ 64 →
      decodeInterface fuel s = .ok (t, s') → s.r = EncodeToBytes t ++ s'.r) ∧
    (∀ b t, b.length < 2 ^ 64 → DecodeBytes b = .ok t → b = EncodeToBytes t) := by
  simp only [EncodeToBytes_eq_encode]
  refine ⟨fun t h => ⟨fun rest => splitValue_encode t rest h, ?_, DecodeBytes_encode t h⟩,
    fun b t rest hs => (encode_of_splitValue b.length b rfl).1 t rest hs,
    fun s fuel t s' hk h64 hd => (encode_of_decodeInterface fuel s t s' hk h64 hd).1,
    fun b t h hd => encode_of_DecodeBytes h hd⟩
  intro s rest fuel hfuel hr hf hk
  obtain ⟨s', hd, hm, -⟩ := decodeInterface_encode fuel t s rest hfuel h hr hf hk
  exact ⟨s', hd, by rw [hm.r, hr, List.drop_left], hm⟩

/-- A list of a string and the empty list, written and read back by `DecodeBytes`. -/
theorem EncodeToBytes_decode_canonical_pair :
    DecodeBytes (EncodeToBytes (.list [.str [0x83], .list []])) = .ok (.list [.str [0x83], .list []]) :=
  (EncodeToBytes_decode_canonical.1 _ (by rw [EncodeToBytes_eq_encode]; decide)).2.2

end rlp

end PureChain
