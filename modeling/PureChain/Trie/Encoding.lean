import Mathlib.Data.List.GetD
import PureChain.Lib.File

/-!
# Package `trie`: the three encodings of a key

A key of the trie is written three ways. As *keybytes*, the bytes of the key. As
*hex*, one byte per nibble, high nibble first, and a terminator `16` when the
node at the key holds a value. As *compact*, the hex-prefix encoding of the
Yellow Paper: a flag nibble (bit 0 the parity of the number of nibbles, bit 1
the terminator), the first nibble beside it when there is an odd number of them,
and the rest packed two to a byte.

`keybytesToHex` and `hexToKeybytes` undo each other, and so do `hexToCompact`
and `compactToHex` on every hex key; both come down to one fact, that a byte
split into its two nibbles and packed again is the byte
(`div_shiftLeft_or_mod`, `shiftLeft_or_div`). `hexToCompactInPlace` writes the
compact key over the hex key it reads, one byte behind the two nibbles it packs
into it, so it writes what `hexToCompact` returns (`packLoop_eq`); but it writes
the flag byte into the first byte of its input even when the input has none, so
it panics on the empty key, which `hexToCompact` encodes as `[0]`.
-/

namespace PureChain

namespace trie

/-- `hasTerm`: the key ends with the terminator. -/
def hasTerm (s : List UInt8) : Bool := 0 < s.length && s.getLast? = some 16

/-- `decodeNibbles`: nibbles packed two to a byte, the first in the high half.
Every caller passes an even number of them. -/
def decodeNibbles : List UInt8 → List UInt8
  | n₁ :: n₂ :: nibbles => (n₁ <<< 4 ||| n₂) :: decodeNibbles nibbles
  | _ => []

/-- `keybytesToHex`: each byte as its two nibbles, and the terminator. -/
def keybytesToHex (str : List UInt8) : List UInt8 :=
  str.flatMap (fun b => [b / 16, b % 16]) ++ [16]

/-- `hexToKeybytes`: the terminator dropped and the nibbles packed; a key of odd
length is the panic of the source. -/
def hexToKeybytes (hex : List UInt8) : Option (List UInt8) :=
  let hex := if hasTerm hex then hex.dropLast else hex
  if hex.length % 2 ≠ 0 then none else some (decodeNibbles hex)

/-- `hexToCompact`. -/
def hexToCompact (hex : List UInt8) : List UInt8 :=
  let terminator : UInt8 := if hasTerm hex then 1 else 0
  let hex := if hasTerm hex then hex.dropLast else hex
  -- the flag byte
  let flag := terminator <<< 5
  if hex.length % 2 = 1 then
    -- the first nibble goes in the flag byte, beside the odd flag
    (flag ||| (1 : UInt8) <<< 4 ||| hex.headD 0) :: decodeNibbles hex.tail
  else flag :: decodeNibbles hex

/-- `compactToHex`. -/
def compactToHex (compact : List UInt8) : List UInt8 :=
  if compact.length = 0 then compact
  else
    let base := keybytesToHex compact
    -- the terminator goes when the flag nibble does not have it
    let base := if base.headD 0 < 2 then base.dropLast else base
    -- and one nibble or two are the flags
    let chop := 2 - (base.headD 0 &&& 1)
    base.drop chop.toNat

/-- The loop of `hexToCompactInPlace`: nibbles `ni` and `ni + 1` packed into byte
`bi` of the same buffer while `ni < hexLen`; `fuel` counts the rounds left, and
`hexLen` of them are enough. -/
def packLoop (hexLen : ℕ) (hex : List UInt8) (bi ni : ℕ) : ℕ → List UInt8
  | 0 => hex
  | fuel + 1 =>
    if ni < hexLen then
      packLoop hexLen (hex.set bi (hex.getD ni 0 <<< 4 ||| hex.getD (ni + 1) 0)) (bi + 1) (ni + 2) fuel
    else hex

/-- `hexToCompactInPlace`: the buffer once the compact key is written over the
hex key, and the compact key's length. Writing the flag byte into an empty
buffer is the panic of the source. -/
def hexToCompactInPlace (hex : List UInt8) : Option (List UInt8 × ℕ) :=
  let hexLen := hex.length
  -- the terminator is left out of the nibbles
  let (firstByte, hexLen) : UInt8 × ℕ :=
    if 0 < hexLen ∧ hex.getD (hexLen - 1) 0 = 16 then ((1 : UInt8) <<< 5, hexLen - 1) else (0, hexLen)
  let binLen := hexLen / 2 + 1
  let (firstByte, ni) : UInt8 × ℕ :=
    if hexLen % 2 = 1 then (firstByte ||| (1 : UInt8) <<< 4 ||| hex.getD 0 0, 1) else (firstByte, 0)
  let hex := packLoop hexLen hex 1 ni hexLen
  if hex.length = 0 then none else some (hex.set 0 firstByte, binLen)

/-! ### A byte and its two nibbles -/

/-- The two nibbles of a byte: the high one, and the low one. -/
def nibbles (b : UInt8) : List UInt8 := [b / 16, b % 16]

-- the equations of the definitions the lemmas below unfold, made once here
attribute [local grind] hasTerm decodeNibbles nibbles

theorem keybytesToHex_eq (str : List UInt8) : keybytesToHex str = str.flatMap nibbles ++ [16] := rfl

/-- Two nibbles packed into a byte: the high one times sixteen, plus the low one. -/
theorem toNat_shiftLeft_or {a b : UInt8} (ha : a < 16) (hb : b < 16) :
    (a <<< 4 ||| b).toNat = a.toNat * 16 + b.toNat := by
  have ha' : a.toNat < 16 := UInt8.lt_iff_toNat_lt.mp ha
  have hb' : b.toNat < 2 ^ 4 := UInt8.lt_iff_toNat_lt.mp hb
  have hshift : (a <<< 4).toNat = a.toNat * 2 ^ 4 := by
    rw [UInt8.toNat_shiftLeft, show (4 : UInt8).toNat % 8 = 4 from rfl, Nat.shiftLeft_eq,
      Nat.mod_eq_of_lt (by omega)]
  calc (a <<< 4 ||| b).toNat = b.toNat ||| a.toNat * 2 ^ 4 := by rw [UInt8.toNat_or, hshift, Nat.or_comm]
    _ = a.toNat * 2 ^ 4 + b.toNat := binary.BigEndian.or_mul_two_pow_eq_add hb'
    _ = a.toNat * 16 + b.toNat := by rw [show (2 : ℕ) ^ 4 = 16 from rfl]

theorem shiftLeft_or_div {a b : UInt8} (ha : a < 16) (hb : b < 16) : (a <<< 4 ||| b) / 16 = a := by
  apply UInt8.toNat_inj.mp
  have hb' : b.toNat < 16 := UInt8.lt_iff_toNat_lt.mp hb
  rw [UInt8.toNat_div, toNat_shiftLeft_or ha hb]
  simp only [UInt8.reduceToNat]
  omega

theorem shiftLeft_or_mod {a b : UInt8} (ha : a < 16) (hb : b < 16) : (a <<< 4 ||| b) % 16 = b := by
  apply UInt8.toNat_inj.mp
  have hb' : b.toNat < 16 := UInt8.lt_iff_toNat_lt.mp hb
  rw [UInt8.toNat_mod, toNat_shiftLeft_or ha hb]
  simp only [UInt8.reduceToNat]
  omega

theorem div_16_lt (b : UInt8) : b / 16 < 16 := by
  rw [UInt8.lt_iff_toNat_lt, UInt8.toNat_div]
  have := b.toNat_lt
  simp only [UInt8.reduceToNat]
  omega

theorem mod_16_lt (b : UInt8) : b % 16 < 16 := by
  rw [UInt8.lt_iff_toNat_lt, UInt8.toNat_mod]
  simp only [UInt8.reduceToNat]
  omega

/-- A byte split into its nibbles and packed again is the byte. -/
theorem div_shiftLeft_or_mod (b : UInt8) : (b / 16) <<< 4 ||| b % 16 = b := by
  apply UInt8.toNat_inj.mp
  rw [toNat_shiftLeft_or (div_16_lt b) (mod_16_lt b), UInt8.toNat_div, UInt8.toNat_mod]
  simp only [UInt8.reduceToNat]
  omega

@[simp] theorem decodeNibbles_nil : decodeNibbles [] = [] := rfl

/-- Packing the nibbles of bytes gives the bytes back. -/
@[simp] theorem decodeNibbles_flatMap_nibbles (str : List UInt8) : decodeNibbles (str.flatMap nibbles) = str := by
  induction str with
  | nil => rfl
  | cons b str ih =>
    rw [List.flatMap_cons, nibbles, List.cons_append, List.cons_append, List.nil_append, decodeNibbles, ih,
      div_shiftLeft_or_mod]

/-- Splitting packed nibbles gives the nibbles back. -/
theorem flatMap_nibbles_decodeNibbles :
    ∀ ns : List UInt8, ns.length % 2 = 0 → (∀ n ∈ ns, n < 16) → (decodeNibbles ns).flatMap nibbles = ns
  | [], _, _ => rfl
  | [_], h, _ => by simp at h
  | n₁ :: n₂ :: ns, h, hns => by
    have h₁ := hns n₁ (by simp)
    have h₂ := hns n₂ (by simp)
    rw [decodeNibbles, List.flatMap_cons, nibbles, shiftLeft_or_div h₁ h₂, shiftLeft_or_mod h₁ h₂,
      flatMap_nibbles_decodeNibbles ns (by simp only [List.length_cons] at h; omega)
        (fun n hn => hns n (by simp [hn]))]
    rfl

theorem length_decodeNibbles : ∀ ns : List UInt8, (decodeNibbles ns).length = ns.length / 2
  | [] => rfl
  | [_] => by simp [decodeNibbles]
  | _ :: _ :: ns => by
    rw [decodeNibbles, List.length_cons, length_decodeNibbles ns]
    simp only [List.length_cons]
    omega

@[simp] theorem hasTerm_append_terminator (ns : List UInt8) : hasTerm (ns ++ [16]) = true := by
  simp [hasTerm]

theorem hasTerm_of_lt {ns : List UInt8} (hns : ∀ n ∈ ns, n < 16) : hasTerm ns = false := by
  cases hl : ns.getLast? with
  | none => simp [hasTerm, hl]
  | some x =>
    have hx := hns x (List.mem_of_getLast? hl)
    have hne : x ≠ 16 := fun h => by rw [h] at hx; exact absurd hx (by decide)
    simp [hasTerm, hl, hne]

theorem length_flatMap_nibbles (str : List UInt8) : (str.flatMap nibbles).length = 2 * str.length := by
  induction str with
  | nil => rfl
  | cons b str ih =>
    rw [List.flatMap_cons, List.length_append, ih, nibbles]
    simp only [List.length_cons, List.length_nil]
    omega

/-! ### Keybytes and hex -/

/-- **`hexToKeybytes` undoes `keybytesToHex`.** -/
theorem hexToKeybytes_keybytesToHex (k : List UInt8) : hexToKeybytes (keybytesToHex k) = some k := by
  have heven : (k.flatMap nibbles).length % 2 = 0 := by
    rw [length_flatMap_nibbles]
    omega
  simp only [hexToKeybytes, keybytesToHex_eq, hasTerm_append_terminator, ↓reduceIte, List.dropLast_concat,
    heven, ne_eq, not_true_eq_false, decodeNibbles_flatMap_nibbles]

/-! ### Hex and compact -/

/-- A key in hex: nibbles, and the terminator when `term`. -/
def withTerm (ns : List UInt8) (term : Bool) : List UInt8 := if term then ns ++ [16] else ns

theorem hasTerm_withTerm {ns : List UInt8} (hns : ∀ n ∈ ns, n < 16) (term : Bool) :
    hasTerm (withTerm ns term) = term := by
  cases term
  · exact hasTerm_of_lt hns
  · exact hasTerm_append_terminator ns

theorem withTerm_cons (n : UInt8) (ns : List UInt8) (term : Bool) :
    withTerm (n :: ns) term = n :: withTerm ns term := by
  cases term <;> rfl

theorem take_withTerm (ns : List UInt8) (term : Bool) : (withTerm ns term).take ns.length = ns := by
  cases term <;> simp [withTerm]

/-- The flag nibble of the compact encoding: bit 1 the terminator, bit 0 the parity. -/
def flagNibble (term odd : Bool) : UInt8 := (if term then 2 else 0) + (if odd then 1 else 0)

/-- The flag byte `hexToCompact` builds is the flag nibble in the high half. -/
theorem flag_or_odd (term : Bool) (a : UInt8) :
    (if term then (1 : UInt8) else 0) <<< 5 ||| (1 : UInt8) <<< 4 ||| a = flagNibble term true <<< 4 ||| a :=
  congrArg (· ||| a) (by cases term <;> decide)

theorem flag_even (term : Bool) : (if term then (1 : UInt8) else 0) <<< 5 = flagNibble term false <<< 4 ||| 0 := by
  cases term <;> decide

/-- `hexToCompact` of a key in hex: the flag nibble and, for an odd key, its first
nibble in the first byte, and the other nibbles packed. -/
theorem hexToCompact_withTerm {ns : List UInt8} (hns : ∀ n ∈ ns, n < 16) (term : Bool) :
    hexToCompact (withTerm ns term) =
      if ns.length % 2 = 1 then (flagNibble term true <<< 4 ||| ns.headD 0) :: decodeNibbles ns.tail
      else (flagNibble term false <<< 4 ||| 0) :: decodeNibbles ns := by
  have hterm := hasTerm_withTerm hns term
  have hstrip : (if hasTerm (withTerm ns term) then (withTerm ns term).dropLast else withTerm ns term) = ns := by
    rw [hterm]
    cases term <;> simp [withTerm]
  simp only [hexToCompact]
  rw [hstrip, hterm]
  split
  · rw [flag_or_odd]
  · rw [flag_even]

theorem flagNibble_lt (term odd : Bool) : flagNibble term odd < 16 := by
  cases term <;> cases odd <;> decide

/-- Below two the flag nibble says there is no terminator. -/
theorem flagNibble_lt_two (term odd : Bool) : flagNibble term odd < 2 ↔ term = false := by
  cases term <;> cases odd <;> decide

/-- The nibbles `compactToHex` chops: the flag, and the padding nibble of an even key. -/
theorem toNat_chop (term odd : Bool) : (2 - (flagNibble term odd &&& 1)).toNat = if odd then 1 else 2 := by
  cases term <;> cases odd <;> decide

/-- `compactToHex` of a compact key: the flag nibble says whether the terminator
goes back on and whether the nibble beside it is part of the key. -/
theorem compactToHex_flag {F a : UInt8} (hF : F < 16) (ha : a < 16) {rest : List UInt8}
    (hrest : rest.length % 2 = 0) (hns : ∀ n ∈ rest, n < 16) :
    compactToHex ((F <<< 4 ||| a) :: decodeNibbles rest) =
      (if F < 2 then F :: a :: rest else F :: a :: (rest ++ [16])).drop (2 - (F &&& 1)).toNat := by
  have hhex : keybytesToHex ((F <<< 4 ||| a) :: decodeNibbles rest) = F :: a :: (rest ++ [16]) := by
    rw [keybytesToHex_eq, List.flatMap_cons, flatMap_nibbles_decodeNibbles rest hrest hns, nibbles,
      shiftLeft_or_div hF ha, shiftLeft_or_mod hF ha]
    rfl
  simp only [compactToHex, List.length_cons, Nat.add_one_ne_zero, ↓reduceIte, hhex, List.headD_cons]
  split
  · rw [← List.cons_append, ← List.cons_append, List.dropLast_concat, List.headD_cons]
  · rfl

/-- **`compactToHex` undoes `hexToCompact`** on every key in hex. -/
theorem compactToHex_hexToCompact {ns : List UInt8} (hns : ∀ n ∈ ns, n < 16) (term : Bool) :
    compactToHex (hexToCompact (withTerm ns term)) = withTerm ns term := by
  rw [hexToCompact_withTerm hns]
  split
  case isTrue hodd =>
    -- the first nibble rides in the flag byte
    obtain ⟨n₁, rest, rfl⟩ := List.exists_cons_of_length_pos (by omega : 0 < ns.length)
    have hrest : rest.length % 2 = 0 := by simp only [List.length_cons] at hodd; omega
    rw [List.headD_cons, List.tail_cons,
      compactToHex_flag (flagNibble_lt term true) (hns n₁ (by simp)) hrest (fun n hn => hns n (by simp [hn])),
      toNat_chop]
    cases term <;> simp [flagNibble_lt_two, withTerm]
  case isFalse heven =>
    rw [compactToHex_flag (flagNibble_lt term false) (by decide) (by omega) hns, toNat_chop]
    cases term <;> simp [flagNibble_lt_two, withTerm]

/-! ### Hex to compact, in place -/

/-- The loop of `hexToCompactInPlace` with `k` rounds left: the bytes before `bi`
as they were, the packed nibbles from `ni` on, and the bytes from `bi + k` on as
they were. Byte `bi` is written only after nibbles `ni` and `ni + 1` are read,
and `bi ≤ ni + 1`, so no round reads a byte an earlier round wrote. -/
theorem packLoop_eq (hexLen : ℕ) :
    ∀ (k : ℕ) (buf : List UInt8) (bi ni fuel : ℕ), ni + 2 * k = hexLen → k ≤ fuel → bi ≤ ni + 1 →
      hexLen ≤ buf.length →
      packLoop hexLen buf bi ni fuel = buf.take bi ++ decodeNibbles ((buf.drop ni).take (2 * k)) ++ buf.drop (bi + k)
  | 0, buf, bi, ni, fuel, hk, _, _, _ => by
    have hdone : packLoop hexLen buf bi ni fuel = buf := by
      cases fuel with
      | zero => rfl
      | succ fuel => rw [packLoop, if_neg (by omega)]
    rw [hdone, Nat.mul_zero, List.take_zero, decodeNibbles_nil, List.append_nil, Nat.add_zero, List.take_append_drop]
  | k + 1, _, _, _, 0, _, hfuel, _, _ => absurd hfuel (by omega)
  | k + 1, buf, bi, ni, fuel + 1, hk, hfuel, hbi, hlen => by
    have hni : ni + 1 < buf.length := by omega
    have hbi' : bi < buf.length := by omega
    rw [packLoop, if_pos (by omega), List.getD_eq_getElem buf 0 (by omega), List.getD_eq_getElem buf 0 hni]
    -- the round: one byte written at `bi`
    generalize hx : buf[ni] <<< 4 ||| buf[ni + 1] = x
    have htake : (buf.set bi x).take (bi + 1) = buf.take bi ++ [x] := by
      rw [List.take_succ_eq_append_getElem (by rw [List.length_set]; exact hbi'),
        List.take_set_of_le (Nat.le_refl _), List.getElem_set_self]
    have hread : (buf.set bi x).drop (ni + 2) = buf.drop (ni + 2) := List.drop_set_of_lt (by omega)
    have hrest : (buf.set bi x).drop (bi + 1 + k) = buf.drop (bi + (k + 1)) := by
      rw [List.drop_set_of_lt (by omega), Nat.add_assoc, Nat.add_comm 1 k]
    have hnibbles : decodeNibbles ((buf.drop ni).take (2 * (k + 1))) = x :: decodeNibbles ((buf.drop (ni + 2)).take (2 * k)) := by
      rw [List.drop_eq_getElem_cons (by omega), List.drop_eq_getElem_cons hni, Nat.mul_succ, List.take_succ_cons,
        List.take_succ_cons, decodeNibbles, hx]
    -- the rounds left, over the buffer this one wrote
    rw [packLoop_eq hexLen k (buf.set bi x) (bi + 1) (ni + 2) fuel (by omega) (by omega) (by omega)
      (by rw [List.length_set]; omega), htake, hread, hrest, hnibbles]
    simp only [List.append_assoc, List.cons_append, List.nil_append]

/-- The test of `hexToCompactInPlace` for the terminator is `hasTerm`. -/
theorem hasTerm_iff_getD (s : List UInt8) : hasTerm s = true ↔ 0 < s.length ∧ s.getD (s.length - 1) 0 = 16 := by
  simp only [hasTerm, Bool.and_eq_true, decide_eq_true_eq, List.getLast?_eq_getElem?, List.getD_eq_getElem?_getD]
  constructor
  · rintro ⟨hpos, hlast⟩
    exact ⟨hpos, by rw [hlast]; rfl⟩
  · rintro ⟨hpos, hlast⟩
    refine ⟨hpos, ?_⟩
    rw [List.getElem?_eq_getElem (by omega)] at hlast ⊢
    rw [← hlast]
    rfl

/-- **`hexToCompactInPlace` writes what `hexToCompact` returns** over the first
bytes of a nonempty key in hex, leaves the rest of it, and returns its length. -/
theorem hexToCompactInPlace_withTerm {ns : List UInt8} (hns : ∀ n ∈ ns, n < 16) (term : Bool)
    (hne : withTerm ns term ≠ []) :
    hexToCompactInPlace (withTerm ns term) =
      some (hexToCompact (withTerm ns term) ++ (withTerm ns term).drop (hexToCompact (withTerm ns term)).length,
        (hexToCompact (withTerm ns term)).length) := by
  have hcond : (0 < (withTerm ns term).length ∧
      (withTerm ns term).getD ((withTerm ns term).length - 1) 0 = 16) ↔ term = true := by
    rw [← hasTerm_iff_getD, hasTerm_withTerm hns]
  -- the terminator sets the flag and leaves the nibbles
  have hfirst : (if 0 < (withTerm ns term).length ∧ (withTerm ns term).getD ((withTerm ns term).length - 1) 0 = 16
      then ((1 : UInt8) <<< 5, (withTerm ns term).length - 1) else (0, (withTerm ns term).length)) =
      ((if term then (1 : UInt8) else 0) <<< 5, ns.length) := by
    cases term
    · rw [if_neg (fun h => Bool.false_ne_true (hcond.mp h))]
      rfl
    · rw [if_pos (hcond.mpr rfl)]
      simp [withTerm]
  have hlen : ns.length ≤ (withTerm ns term).length := by cases term <;> simp [withTerm]
  have hlen0 : (withTerm ns term).length ≠ 0 := fun h => hne (List.eq_nil_of_length_eq_zero h)
  simp only [hexToCompactInPlace, hfirst, hexToCompact_withTerm hns]
  split
  case isTrue hodd =>
    obtain ⟨n₁, rest, rfl⟩ := List.exists_cons_of_length_pos (by omega : 0 < ns.length)
    have hrest : rest.length % 2 = 0 := by simp only [List.length_cons] at hodd; omega
    -- the loop packs the nibbles after the first, one byte on
    have hloop := packLoop_eq (n₁ :: rest).length (rest.length / 2) (n₁ :: withTerm rest term) 1 1
      (n₁ :: rest).length (by simp only [List.length_cons]; omega) (by simp only [List.length_cons]; omega)
      (by omega) (by rw [← withTerm_cons]; exact hlen)
    rw [List.take_succ_cons, List.take_zero, List.drop_succ_cons, List.drop_zero,
      Nat.mul_div_cancel' (Nat.dvd_of_mod_eq_zero hrest), take_withTerm] at hloop
    have hk : (rest.length + 1) / 2 = rest.length / 2 := by omega
    simp only [withTerm_cons, List.getD_cons_zero, List.headD_cons, List.tail_cons, hloop]
    simp only [List.cons_append, List.nil_append, List.length_cons, Nat.add_one_ne_zero, ↓reduceIte,
      List.set_cons_zero, flag_or_odd, length_decodeNibbles, hk, Nat.add_comm 1]
  case isFalse heven =>
    obtain ⟨a, t, hat⟩ := List.exists_cons_of_ne_nil hne
    -- the loop packs every nibble, one byte on
    have hloop := packLoop_eq ns.length (ns.length / 2) (withTerm ns term) 1 0 ns.length (by omega) (by omega)
      (by omega) hlen
    rw [List.drop_zero, Nat.mul_div_cancel' (Nat.dvd_of_mod_eq_zero (by omega)), take_withTerm, hat,
      List.take_succ_cons, List.take_zero] at hloop
    simp only [hat, hloop]
    simp only [List.cons_append, List.nil_append, List.length_cons, Nat.add_one_ne_zero, ↓reduceIte,
      List.set_cons_zero, flag_even, length_decodeNibbles, Nat.add_comm 1]

example : hexToCompactInPlace [1, 2, 3, 16] = some ([0x31, 0x23, 3, 16], 2) := by decide

/-- The three encodings of a key: keybytes to hex and back, hex to compact and
back, and the in-place compact encoding of a key that has a nibble or the
terminator. -/
theorem key_encodings_round_trip :
    (∀ k : List UInt8, hexToKeybytes (keybytesToHex k) = some k) ∧
      ∀ (ns : List UInt8) (term : Bool), (∀ n ∈ ns, n < 16) →
        compactToHex (hexToCompact (withTerm ns term)) = withTerm ns term ∧
          (withTerm ns term ≠ [] →
            hexToCompactInPlace (withTerm ns term) =
              some (hexToCompact (withTerm ns term) ++
                  (withTerm ns term).drop (hexToCompact (withTerm ns term)).length,
                (hexToCompact (withTerm ns term)).length)) :=
  ⟨hexToKeybytes_keybytesToHex, fun _ term hns =>
    ⟨compactToHex_hexToCompact hns term, hexToCompactInPlace_withTerm hns term⟩⟩

theorem key_encodings_round_trip_odd_term :
    (∀ n ∈ ([1, 2, 3] : List UInt8), n < 16) ∧ withTerm [1, 2, 3] true ≠ [] ∧
      hexToCompactInPlace (withTerm [1, 2, 3] true) =
        some (hexToCompact (withTerm [1, 2, 3] true) ++
            (withTerm [1, 2, 3] true).drop (hexToCompact (withTerm [1, 2, 3] true)).length,
          (hexToCompact (withTerm [1, 2, 3] true)).length) :=
  have hns : ∀ n ∈ ([1, 2, 3] : List UInt8), n < 16 := fun n hn => by
    simp only [List.mem_cons, List.not_mem_nil, or_false] at hn
    rcases hn with rfl | rfl | rfl <;> decide
  ⟨hns, by decide, (key_encodings_round_trip.2 [1, 2, 3] true hns).2 (by decide)⟩

/-- The empty key: `hexToCompact` encodes it as the flag byte alone, and
`hexToCompactInPlace` writes that byte past the end of its input. -/
theorem hexToCompactInPlace_empty_key :
    hexToCompactInPlace (withTerm [] false) = none ∧ hexToCompact (withTerm [] false) = [0] := by
  decide

/-! ### The common prefix of two keys -/

/-- `prefixLen`: the length of the common prefix of `a` and `b`. -/
def prefixLen : List UInt8 → List UInt8 → ℕ
  | x :: a, y :: b => if x = y then prefixLen a b + 1 else 0
  | _, _ => 0

-- its equations, made once here for the lemmas below
attribute [local grind] prefixLen

theorem prefixLen_le_left : ∀ a b : List UInt8, prefixLen a b ≤ a.length
  | [], _ => Nat.zero_le _
  | _ :: _, [] => Nat.zero_le _
  | x :: a, y :: b => by
    have := prefixLen_le_left a b
    rw [prefixLen]
    split_ifs <;> simp only [List.length_cons] <;> omega

theorem prefixLen_le_right : ∀ a b : List UInt8, prefixLen a b ≤ b.length
  | [], _ => Nat.zero_le _
  | _ :: _, [] => Nat.zero_le _
  | x :: a, y :: b => by
    have := prefixLen_le_right a b
    rw [prefixLen]
    split_ifs <;> simp only [List.length_cons] <;> omega

/-- The two keys agree up to their common prefix's length. -/
theorem take_prefixLen : ∀ a b : List UInt8, a.take (prefixLen a b) = b.take (prefixLen a b)
  | [], _ => rfl
  | _ :: _, [] => rfl
  | x :: a, y :: b => by
    rw [prefixLen]
    split_ifs with h
    · rw [List.take_succ_cons, List.take_succ_cons, h, take_prefixLen a b]
    · rfl

/-- **The keys differ right after their common prefix.** -/
theorem prefixLen_getElem?_ne :
    ∀ (a b : List UInt8) {x y : UInt8}, a[prefixLen a b]? = some x → b[prefixLen a b]? = some y → x ≠ y
  | [], _, _, _, h, _ => by simp at h
  | _ :: _, [], _, _, _, h => by simp [prefixLen] at h
  | x :: a, y :: b, x', y', hx, hy => by
    rw [prefixLen] at hx hy
    split_ifs at hx hy with h
    · exact prefixLen_getElem?_ne a b hx hy
    · simp only [List.getElem?_cons_zero, Option.some.injEq] at hx hy
      rw [← hx, ← hy]
      exact h

theorem prefixLen_eq_length_iff {a b : List UInt8} : prefixLen a b = b.length ↔ b <+: a := by
  constructor
  · intro h
    rw [List.prefix_iff_eq_take]
    have := take_prefixLen a b
    rwa [h, List.take_length, eq_comm] at this
  · rintro ⟨t, rfl⟩
    induction b with
    | nil => cases t <;> rfl
    | cons y b ih => rw [List.cons_append, prefixLen, if_pos rfl, ih, List.length_cons]

end trie

end PureChain
