import Mathlib
import PureChain.Consensus.Dpos.Snapshot

/-!
# The signing window of `Recents`

The rule that a validator may not seal twice within `len(Validators)/2 + 1`
consecutive blocks is implemented by pruning: every header forgets one entry of
`Recents` and records one. This file shows that the pruning keeps `Recents`
inside the window it is meant to represent, across epoch blocks that shrink or
grow the validator set:

* `Dpos.Window V R m` – every key of `R` lies in `[m - |V|/2, m]`;
* `Dpos.window_applyHeader` – one header at `m + 1` keeps the window, the
  epoch branch included: its loop deletes exactly the keys
  `m + 1 - |V'|/2 - 1 - i` that a smaller new set leaves behind;
* `Dpos.Reachable.inv` – every snapshot reachable from genesis carries the
  window at its own number, as long as the number has not wrapped around.

At block `n = Number + 1`, after `Recents[n - limit]` is forgotten, the keys then
lie in `[n - |V|/2, n - 1]`: at most `|V|/2` of them, so at most `|V|/2`
validators are barred (`Dpos.nextWindow_of_reachable`).

The proviso about wrapping is not a formality. Block numbers are `uint64`; once
`Number` reaches `2^64 - 1`, the next number is `0`, the guard `number >= limit`
fails, and the entry that should leave the window stays in it forever. With a
single validator that validator is then barred from every later block
(`Dpos.not_nextWindow_of_reachable`).
-/

namespace PureChain

namespace Dpos

/-! ### Arithmetic of the window -/

/-- The window is `|V|/2 + 1` wide as a 64-bit number, since a Go map has fewer
than `2^63` entries. -/
theorem limitOf_toNat {V : Finset Address} (h : V.card < 2 ^ 63) :
    (limitOf V).toNat = V.card / 2 + 1 := by
  rw [limitOf, UInt64.toNat_ofNat']
  omega

/-! ### The window invariant -/

/-- **The window at block `m`**: every key of `Recents` is one of the last
`|V|/2 + 1` block numbers up to `m`. -/
def Window (validators : Finset Address) (recents : Recents) (m : ℕ) : Prop :=
  ∀ k ∈ recents, k.toNat ≤ m ∧ m ≤ k.toNat + validators.card / 2

theorem mem_forgetOldest {β : Type} {m : Finmap fun _ : UInt64 => β} {number limit k : UInt64} :
    k ∈ forgetOldest m number limit ↔ k ∈ m ∧ ¬(limit ≤ number ∧ k = number - limit) := by
  unfold forgetOldest
  split_ifs with h
  · simp [Finmap.mem_erase, h, and_comm]
  · simp [h]

/-- Forgetting the oldest entry at `n = m + 1` leaves the keys in
`[n - |V|/2, n - 1]`. -/
theorem forgetOldest_window {V : Finset Address} {R : Recents} {m : ℕ} (hw : Window V R m)
    (hc : V.card < 2 ^ 63) {n : UInt64} (hn : n.toNat = m + 1) :
    ∀ k ∈ forgetOldest R n (limitOf V), k.toNat < n.toNat ∧ n.toNat ≤ k.toNat + V.card / 2 := by
  intro k hk
  obtain ⟨hkR, hne⟩ := mem_forgetOldest.1 hk
  obtain ⟨hle, hge⟩ := hw k hkR
  have hl := limitOf_toNat hc
  refine ⟨by omega, ?_⟩
  -- the only key at the edge of the old window is `n - limit`, which was forgotten
  by_contra hlt
  apply hne
  have hln : limitOf V ≤ n := by
    rw [UInt64.le_iff_toNat_le]
    omega
  refine ⟨hln, UInt64.toNat_inj.mp ?_⟩
  rw [UInt64.toNat_sub_of_le _ _ hln]
  omega

theorem mem_pruneEpoch {R : Recents} {number limit k : UInt64} {count : ℕ} :
    k ∈ pruneEpoch R number limit count ↔
      k ∈ R ∧ ∀ i < count, k ≠ number - limit - UInt64.ofNat i := by
  induction count with
  | zero => simp [pruneEpoch]
  | succ c ih =>
    rw [pruneEpoch, List.range_succ, List.foldl_append, ← pruneEpoch]
    simp only [List.foldl_cons, List.foldl_nil, Finmap.mem_erase, ih]
    constructor
    · rintro ⟨hne, hR, hall⟩
      refine ⟨hR, fun i hi => ?_⟩
      rcases Nat.lt_succ_iff_lt_or_eq.mp hi with hi | rfl
      · exact hall i hi
      · exact hne
    · rintro ⟨hR, hall⟩
      exact ⟨hall c (Nat.lt_succ_self c), hR, fun i hi => hall i (Nat.lt_succ_of_lt hi)⟩

/-- **The epoch pruning**: when the validator set goes from `V` to `V'`, the loop
over `i < |V|/2 - |V'|/2` deletes the keys `n - |V'|/2 - 1 - i`, which are
exactly the keys of the old window that are too old for the new one. -/
theorem pruneEpoch_window {V V' : Finset Address} {R : Recents} {n : UInt64}
    (hR : ∀ k ∈ R, k.toNat ≤ n.toNat ∧ n.toNat ≤ k.toNat + V.card / 2)
    (hc' : V'.card < 2 ^ 63) :
    Window V' (pruneEpoch R n (limitOf V') (V.card / 2 - V'.card / 2)) n.toNat := by
  intro k hk
  obtain ⟨hkR, hne⟩ := mem_pruneEpoch.1 hk
  obtain ⟨hle, hge⟩ := hR k hkR
  refine ⟨hle, ?_⟩
  by_contra hlt
  have hl := limitOf_toNat hc'
  -- `k` is the key deleted at step `i = n - |V'|/2 - 1 - k` of the loop
  set i := n.toNat - (V'.card / 2 + 1) - k.toNat with hi
  have hln : limitOf V' ≤ n := by
    rw [UInt64.le_iff_toNat_le]
    omega
  have hi64 : i < 2 ^ 64 := by
    have := n.toNat_lt_size
    simp only [UInt64.size] at this
    omega
  have hin : UInt64.ofNat i ≤ n - limitOf V' := by
    rw [UInt64.le_iff_toNat_le, UInt64.toNat_sub_of_le _ _ hln, UInt64.toNat_ofNat']
    omega
  apply hne i (by omega)
  refine UInt64.toNat_inj.mp ?_
  rw [UInt64.toNat_sub_of_le _ _ hin, UInt64.toNat_sub_of_le _ _ hln, UInt64.toNat_ofNat']
  omega

/-! ### One header, and a run of headers -/

theorem checkpointValidators_length {extra : List UInt8} {vals : List Address}
    (h : checkpointValidators extra = .ok vals) :
    vals.length = (extra.length - extraVanity - extraSeal) / 20 := by
  unfold checkpointValidators at h
  split_ifs at h
  rw [← Except.pure_eq_ok.mp h, List.length_map, List.length_range]

/-- The validators an epoch header lists fit in a Go map, as the extra-data they
are read from fits in a slice. -/
theorem checkpointValidators_card {header : Header} {vals : List Address}
    (h : checkpointValidators header.Extra = .ok vals) : vals.toFinset.card < 2 ^ 63 := by
  have hlen := checkpointValidators_length h
  have hext := header.extra_len_lt
  have := List.toFinset_card_le vals
  omega

section Run

variable {config : DposConfig} {recover : Header → Except Error Address}

/-- **One header keeps the window**: replayed at `m + 1` on a snapshot whose
window ends at `m`, it leaves a snapshot whose window ends at `m + 1`, with the
number untouched (it moves only at the end of `Snapshot.apply`). -/
theorem window_applyHeader {snap snap' : Snapshot} {header : Header} {m : ℕ}
    (hw : Window snap.Validators snap.Recents m) (hc : snap.Validators.card < 2 ^ 63)
    (hn : header.number.toNat = m + 1)
    (h : applyHeader config recover snap header = .ok snap') :
    snap'.Number = snap.Number ∧ Window snap'.Validators snap'.Recents (m + 1) ∧
      snap'.Validators.card < 2 ^ 63 := by
  obtain ⟨v, -, -, -, hsnap⟩ := (applyHeader_eq_ok config recover).mp h
  -- the window once the sealer is recorded at `n = m + 1`, before any epoch pruning
  have hrec : ∀ k ∈ (forgetOldest snap.Recents header.number (limitOf snap.Validators)).insert
      header.number v,
      k.toNat ≤ header.number.toNat ∧ header.number.toNat ≤ k.toNat + snap.Validators.card / 2 := by
    intro k hk
    rcases Finmap.mem_insert.mp hk with rfl | hk
    · omega
    · have := forgetOldest_window hw hc hn k hk
      omega
  split_ifs at hsnap
  · obtain ⟨vals, hvals, rfl⟩ := hsnap
    have hcard := checkpointValidators_card hvals
    refine ⟨rfl, ?_, hcard⟩
    rw [← hn]
    exact pruneEpoch_window hrec hcard
  · subst hsnap
    refine ⟨rfl, fun k hk => ?_, hc⟩
    have := hrec k hk
    dsimp only
    omega

/-- The headers carry the consecutive numbers `n, n + 1, …`, as `uint64`s. -/
def NumberedFrom : UInt64 → List Header → Prop
  | _, [] => True
  | n, h :: hs => h.number = n ∧ NumberedFrom (n + 1) hs

theorem numberedFrom_of_checkHeaders {keccak256 : List UInt8 → Hash} :
    ∀ {h : Header} {hs : List Header},
      checkHeaders keccak256 (h :: hs) = .ok () → NumberedFrom h.number (h :: hs)
  | _, [], _ => ⟨rfl, trivial⟩
  | h, h₂ :: hs, hc => by
    obtain ⟨hnum, -, hrest⟩ := (checkHeaders_cons_cons keccak256).mp hc
    have := numberedFrom_of_checkHeaders hrest
    rw [hnum] at this
    exact ⟨rfl, this⟩

/-- **A run of headers keeps the window**: the replay loop of `Snapshot.apply`,
by induction on the headers, as long as their numbers do not wrap. -/
theorem window_foldlM : ∀ {hs : List Header} {snap snap' : Snapshot} {m : ℕ},
    Window snap.Validators snap.Recents m → snap.Validators.card < 2 ^ 63 →
    NumberedFrom (UInt64.ofNat (m + 1)) hs → m + hs.length < 2 ^ 64 →
    hs.foldlM (applyHeader config recover) snap = .ok snap' →
    snap'.Number = snap.Number ∧ Window snap'.Validators snap'.Recents (m + hs.length) ∧
      snap'.Validators.card < 2 ^ 63
  | [], snap, snap', m, hw, hc, _, _, h => by
    rw [List.foldlM_nil, Except.pure_eq_ok] at h
    subst h
    exact ⟨rfl, hw, hc⟩
  | h :: hs, snap, snap', m, hw, hc, ⟨hnum, hnums⟩, hlen, hfold => by
    rw [List.foldlM_cons, Except.bind_eq_ok] at hfold
    obtain ⟨mid, hmid, hrest⟩ := hfold
    rw [List.length_cons] at hlen
    have hn : h.number.toNat = m + 1 := by
      rw [hnum, UInt64.toNat_ofNat']
      omega
    obtain ⟨hN, hw', hc'⟩ := window_applyHeader hw hc hn hmid
    have hnums' : NumberedFrom (UInt64.ofNat (m + 1 + 1)) hs := by
      rwa [UInt64.ofNat_add (m + 1) 1]
    obtain ⟨hN', hw'', hc''⟩ := window_foldlM hw' hc' hnums' (by omega) hrest
    refine ⟨hN'.trans hN, ?_, hc''⟩
    rwa [List.length_cons, ← Nat.add_assoc, Nat.add_right_comm]

variable {keccak256 : List UInt8 → Hash}

/-- **`Snapshot.apply` keeps the window** and moves the number by the count of
headers. -/
theorem window_apply {s s' : Snapshot} {headers : List Header} {m : ℕ}
    (hnum : s.Number.toNat = m) (hw : Window s.Validators s.Recents m)
    (hc : s.Validators.card < 2 ^ 63) (hlen : m + headers.length < 2 ^ 64)
    (h : s.apply config recover keccak256 headers = .ok s') :
    s'.Number.toNat = m + headers.length ∧ Window s'.Validators s'.Recents (m + headers.length) ∧
      s'.Validators.card < 2 ^ 63 := by
  cases headers with
  | nil =>
    rw [Snapshot.apply, Except.pure_eq_ok] at h
    subst h
    exact ⟨hnum, hw, hc⟩
  | cons first rest =>
    obtain ⟨hchk, hfirst, -, snap, hfold, rfl⟩ := (apply_cons_eq_ok config recover keccak256).mp h
    have hnums : NumberedFrom (UInt64.ofNat (m + 1)) (first :: rest) := by
      have := numberedFrom_of_checkHeaders hchk
      rw [hfirst] at this
      rw [← hnum, UInt64.ofNat_add, UInt64.ofNat_toNat]
      exact this
    obtain ⟨hN, hw', hc'⟩ := window_foldlM hw hc hnums hlen hfold
    refine ⟨?_, hw', hc'⟩
    rw [UInt64.toNat_add, hN, hnum, UInt64.toNat_ofNat']
    omega

end Run

/-! ### Every reachable snapshot -/

/-- What a snapshot reachable at height `k` satisfies: its number is `k`, its
`Recents` lies in the window ending at `k`, and its validator set fits in a Go
map. -/
structure Inv (s : Snapshot) (k : ℕ) : Prop where
  number : s.Number.toNat = k
  window : Window s.Validators s.Recents k
  card_lt : s.Validators.card < 2 ^ 63

theorem ParseValidators_length {bytes : List UInt8} {vals : List Address}
    (h : ParseValidators bytes = .ok vals) : vals.length = bytes.length / 20 := by
  unfold ParseValidators at h
  split_ifs at h
  rw [← Except.pure_eq_ok.mp h, List.length_map, List.length_range]

theorem genesisSnapshot_inv {keccak256 : List UInt8 → Hash} {checkpoint : Header} {s : Snapshot}
    (h : genesisSnapshot keccak256 checkpoint = .ok s) : Inv s 0 := by
  unfold genesisSnapshot at h
  split_ifs at h
  obtain ⟨vals, hvals, hs⟩ := Except.bind_eq_ok.mp h
  rw [Except.pure_eq_ok] at hs
  subst hs
  have hlen := ParseValidators_length hvals
  have hext := checkpoint.extra_len_lt
  have := List.toFinset_card_le vals
  refine ⟨rfl, fun k hk => absurd hk (Finmap.notMem_empty), ?_⟩
  simp only [newSnapshot, List.length_take, List.length_drop] at hlen ⊢
  omega

/-- **The invariant of every reachable snapshot**, by induction on the run that
reaches it, for heights below `2^64`. -/
theorem Reachable.inv {config : DposConfig} {keccak256 : List UInt8 → Hash} {k : ℕ}
    {s : Snapshot} (h : Reachable config keccak256 k s) (hk : k < 2 ^ 64) : Inv s k := by
  induction h with
  | genesis hg => exact genesisSnapshot_inv hg
  | apply recover headers _ happ ih =>
    have ihk := ih (by omega)
    obtain ⟨h1, h2, h3⟩ := window_apply ihk.number ihk.window ihk.card_lt hk happ
    exact ⟨h1, h2, h3⟩

/-! ### The window at the next block -/

/-- The recent sealers left when block `n = Number + 1` is applied, once
`Recents[n - limit]` has been forgotten. -/
def Snapshot.nextRecents (s : Snapshot) : Dpos.Recents :=
  forgetOldest s.Recents (s.Number + 1) (limitOf s.Validators)

/-- **The window at the next block**: at `n = Number + 1`, after
`Recents[n - limit]` is forgotten, every key left lies in `[n - limit + 1, n - 1]`,
at most `|V|/2` keys are left, and at least `|V| - |V|/2` validators are not
barred from sealing block `n`. -/
def NextWindow (s : Snapshot) : Prop :=
  (∀ k ∈ s.nextRecents,
      ((s.Number + 1).toNat : ℤ) - (limitOf s.Validators).toNat + 1 ≤ k.toNat ∧
        (k.toNat : ℤ) ≤ (s.Number + 1).toNat - 1) ∧
    s.nextRecents.keys.card ≤ s.Validators.card / 2 ∧
    s.Validators.card - s.Validators.card / 2 ≤
      (s.Validators.filter fun v => ¬RecentlySigned s.nextRecents v).card

/-- Keys confined to the `w` numbers below `n` are at most `w`. -/
theorem card_keys_le {R : Recents} {n w : ℕ} (h : ∀ k ∈ R, k.toNat < n ∧ n ≤ k.toNat + w) :
    R.keys.card ≤ w := by
  have hmaps : Set.MapsTo UInt64.toNat (R.keys : Set UInt64) (Finset.Ico (n - w) n) := by
    intro k hk
    have := h k (Finmap.mem_keys.mp hk)
    rw [Finset.coe_Ico, Set.mem_Ico]
    omega
  have hinj : Set.InjOn UInt64.toNat (R.keys : Set UInt64) :=
    fun a _ b _ hab => UInt64.toNat_inj.mp hab
  calc R.keys.card ≤ (Finset.Ico (n - w) n).card := Finset.card_le_card_of_injOn _ hmaps hinj
    _ = n - (n - w) := Nat.card_Ico _ _
    _ ≤ w := by omega

/-- Every barred validator is the value of some key: there are no more of them
than keys. -/
theorem card_barred_le (R : Recents) (V : Finset Address) :
    (V.filter fun v => RecentlySigned R v).card ≤ R.keys.card := by
  classical
  have hsub : (V.filter fun v => RecentlySigned R v) ⊆
      R.keys.image fun k => (R.lookup k).getD default := by
    intro v hv
    obtain ⟨seen, hseen, hlook⟩ := (Finset.mem_filter.mp hv).2
    exact Finset.mem_image.mpr ⟨seen, hseen, by rw [hlook, Option.getD_some]⟩
  exact (Finset.card_le_card hsub).trans Finset.card_image_le

/-- **The window claim holds at every reachable snapshot whose next block number
does not wrap**: by `Dpos.Reachable.inv`, then the forgetting of
`n - limit`. -/
theorem nextWindow_of_reachable {config : DposConfig} {keccak256 : List UInt8 → Hash} {k : ℕ}
    {s : Snapshot} (h : Reachable config keccak256 k s) (hk : k + 1 < 2 ^ 64) : NextWindow s := by
  have inv := h.inv (by omega)
  have hn : (s.Number + 1).toNat = k + 1 := by
    rw [UInt64.toNat_add, inv.number]
    simp only [UInt64.toNat_one]
    omega
  have hl := limitOf_toNat inv.card_lt
  have hkeys := forgetOldest_window inv.window inv.card_lt hn
  have hcard : s.nextRecents.keys.card ≤ s.Validators.card / 2 := card_keys_le hkeys
  refine ⟨fun key hkey => ?_, hcard, ?_⟩
  · have := hkeys key hkey
    rw [hl]
    omega
  · have hsplit := Finset.card_filter_add_card_filter_not (s := s.Validators)
      (fun v => RecentlySigned s.nextRecents v)
    have hbar := card_barred_le s.nextRecents s.Validators
    omega

/-! ### Past block `2^64 - 1`

A chain sealed by a single validator `v`, which lists `v` at every epoch. Its
snapshot at height `j` records `v` at `j` and nothing else, for every `j` up to
`2^64 - 1`; there the next number wraps to `0` and `v` is never forgotten. -/

section Wrap

variable (keccak256 : List UInt8 → Hash) (v : Address)

/-- The extra-data of the one-validator chain: a zero vanity, `v`, a zero seal. -/
def soloExtra : List UInt8 := List.replicate 32 0 ++ v.bytes.toList ++ List.replicate 65 0

/-- The headers of the one-validator chain, each the child of the previous one. -/
def soloHeader : ℕ → Header
  | 0 =>
    { ParentHash := default, UncleHash := default, Coinbase := v, Root := default,
      TxHash := default, ReceiptHash := default, Bloom := Vector.replicate 256 0,
      Difficulty := 2, Number := 0, GasLimit := 0, GasUsed := 0, Time := 0,
      Extra := soloExtra v, MixDigest := default, Provider := default,
      TeamAddress := default, ValidatorRate := 0, TeamRate := 0,
      Nonce := Vector.replicate 8 0, ExtraNonce := Vector.replicate 8 0,
      extra_len_lt := by simp [soloExtra] }
  | j + 1 => { soloHeader j with Number := j + 1, ParentHash := (soloHeader j).Hash keccak256 }

/-- The snapshot of the one-validator chain at height `j`. -/
def soloSnap (j : ℕ) : Snapshot where
  Number := UInt64.ofNat j
  Hash := (soloHeader keccak256 v j).Hash keccak256
  Validators := {v}
  Recents := if j = 0 then ∅ else Finmap.singleton (UInt64.ofNat j) v
  RecentForkHashes := ∅

variable {keccak256 v}

theorem soloHeader_extra (j : ℕ) : (soloHeader keccak256 v j).Extra = soloExtra v := by
  induction j with
  | zero => rfl
  | succ j ih => exact ih

theorem soloHeader_number (j : ℕ) : (soloHeader keccak256 v j).number = UInt64.ofNat j := by
  cases j <;> rfl

theorem checkpointValidators_soloExtra : checkpointValidators (soloExtra v) = .ok [v] := by
  have hlen : (soloExtra v).length = 117 := by simp [soloExtra]
  have hdrop : (soloExtra v).drop (extraVanity + 0 * 20) =
      v.bytes.toList ++ List.replicate 65 0 := by
    simp [soloExtra, extraVanity, List.drop_append]
  rw [checkpointValidators, if_neg (by rw [hlen]; decide), hlen]
  have hcount : (117 - extraVanity - extraSeal) / 20 = 1 := by decide
  rw [hcount, List.range_one, List.map_singleton, hdrop, Address.copyFrom_append]
  rfl

/-- A genesis header whose extra-data lists `v` alone snapshots `v` alone. -/
theorem genesisSnapshot_of_soloExtra {checkpoint : Header} (h : checkpoint.Extra = soloExtra v) :
    genesisSnapshot keccak256 checkpoint =
      .ok { Number := 0, Hash := checkpoint.Hash keccak256, Validators := {v}, Recents := ∅,
            RecentForkHashes := ∅ } := by
  have hlen : checkpoint.Extra.length = 117 := by simp [h, soloExtra]
  have hslice : (checkpoint.Extra.drop extraVanity).take (117 - extraVanity - extraSeal) =
      v.bytes.toList := by
    simp [h, soloExtra, extraVanity, extraSeal, List.drop_append]
  have hparse : ParseValidators v.bytes.toList = .ok [v] := by
    have hb : v.bytes.toList.length = 20 := by simp
    rw [ParseValidators, if_neg (by rw [hb]; decide), hb]
    simp [List.take_of_length_le (le_of_eq hb), Address.copyFrom_bytes]
  rw [genesisSnapshot, if_neg (by rw [hlen]; decide), hlen, hslice, hparse]
  rfl

theorem genesisSnapshot_solo : genesisSnapshot keccak256 (soloHeader keccak256 v 0) =
    .ok (soloSnap keccak256 v 0) :=
  genesisSnapshot_of_soloExtra rfl

theorem forgetOldest_solo {β : Type} (m : Finmap fun _ : UInt64 => β) (b : β) {j : ℕ}
    (hj : j + 1 < 2 ^ 64) (hm : m = ∅ ∨ m = Finmap.singleton (UInt64.ofNat j) b) :
    forgetOldest m (UInt64.ofNat (j + 1)) 1 = ∅ := by
  have hle : (1 : UInt64) ≤ UInt64.ofNat (j + 1) := by
    rw [UInt64.le_iff_toNat_le, UInt64.toNat_ofNat']
    simp only [UInt64.toNat_one]
    omega
  have hsub : UInt64.ofNat (j + 1) - 1 = UInt64.ofNat j := by
    rw [UInt64.ofNat_add]
    simp
  rw [forgetOldest, if_pos hle, hsub]
  refine Finmap.ext_lookup fun k => ?_
  by_cases hk : k = UInt64.ofNat j
  · rw [hk, Finmap.lookup_erase, Finmap.lookup_empty]
  · rw [Finmap.lookup_erase_ne hk, Finmap.lookup_empty, Finmap.lookup_eq_none]
    rcases hm with rfl | rfl
    · exact Finmap.notMem_empty
    · rwa [Finmap.mem_singleton]

theorem insert_empty_eq_singleton {β : Type} (a : UInt64) (b : β) :
    (∅ : Finmap fun _ : UInt64 => β).insert a b = Finmap.singleton a b := by
  refine Finmap.ext_lookup fun k => ?_
  by_cases hk : k = a
  · rw [hk, Finmap.lookup_insert, Finmap.lookup_singleton_eq]
  · rw [Finmap.lookup_insert_of_ne _ hk, Finmap.lookup_empty, eq_comm, Finmap.lookup_eq_none,
      Finmap.mem_singleton]
    exact hk

variable (config : DposConfig)

/-- One header of the one-validator chain: `v` is forgotten at `j` and recorded
at `j + 1`, at an epoch block as well as elsewhere. -/
theorem applyHeader_solo {j : ℕ} (hj : j + 1 < 2 ^ 64) :
    applyHeader config (fun _ => .ok v) (soloSnap keccak256 v j) (soloHeader keccak256 v (j + 1)) =
      .ok { soloSnap keccak256 v j with Recents := Finmap.singleton (UInt64.ofNat (j + 1)) v } := by
  have hlim : limitOf ({v} : Finset Address) = 1 := by rw [limitOf, Finset.card_singleton]; rfl
  have hcard : UInt64.ofNat ({v} : Finset Address).card = 1 := by
    rw [Finset.card_singleton]; rfl
  have hforget : forgetOldest (soloSnap keccak256 v j).Recents (UInt64.ofNat (j + 1)) 1 = ∅ :=
    forgetOldest_solo _ v hj (by unfold soloSnap; split_ifs <;> simp)
  have hforks : forgetOldest (soloSnap keccak256 v j).RecentForkHashes (UInt64.ofNat (j + 1)) 1 =
      ∅ := forgetOldest_solo _ "" hj (Or.inl rfl)
  refine (applyHeader_eq_ok config _).mpr ⟨v, rfl, Finset.mem_singleton_self v, ?_, ?_⟩
  · rw [soloHeader_number]
    erw [hlim, hforget]
    rintro ⟨seen, hseen, -⟩
    exact Finmap.notMem_empty (Finmap.mem_keys.mp hseen)
  · rw [soloHeader_number]
    erw [hlim, hforget, hcard, hforks, insert_empty_eq_singleton]
    split_ifs
    · refine ⟨[v], by rw [soloHeader_extra]; exact checkpointValidators_soloExtra, ?_⟩
      -- the checkpoint names `v` again, so nothing is pruned
      have hv : [v].toFinset = {v} := by simp
      rw [hv, show (soloSnap keccak256 v j).Validators = {v} from rfl, Nat.sub_self]
      rfl
    · rfl

/-- The one-validator chain is a run of `Snapshot.apply`, one header at a time. -/
theorem apply_solo {j : ℕ} (hj : j + 1 < 2 ^ 64) :
    (soloSnap keccak256 v j).apply config (fun _ => .ok v) keccak256
      [soloHeader keccak256 v (j + 1)] = .ok (soloSnap keccak256 v (j + 1)) := by
  refine (apply_cons_eq_ok config _ keccak256).mpr
    ⟨rfl, ?_, rfl, _, by rw [List.foldlM_cons, applyHeader_solo config hj]; rfl, ?_⟩
  · rw [soloHeader_number, UInt64.ofNat_add]
    rfl
  · simp only [soloSnap, List.length_singleton, List.getLast_singleton, Nat.add_one_ne_zero,
      if_false, UInt64.ofNat_add]

theorem reachable_solo : ∀ j, j < 2 ^ 64 → Reachable config keccak256 j (soloSnap keccak256 v j)
  | 0, _ => .genesis genesisSnapshot_solo
  | j + 1, hj => .apply _ _ (reachable_solo j (by omega)) (apply_solo config hj)

end Wrap

/-- The configuration of the one-validator chain, with the default epoch. -/
def soloConfig : DposConfig := { Period := 3, Epoch := 100, epoch_pos := by decide }

/-- **The window claim fails once the block number wraps**: the one-validator
chain reaches height `2^64 - 1`, where the next block number is `0`, nothing is
forgotten, and the single validator stays barred. -/
theorem not_nextWindow_of_reachable :
    ¬∀ (config : DposConfig) (keccak256 : List UInt8 → Hash) (k : ℕ) (s : Snapshot),
      Reachable config keccak256 k s → NextWindow s := by
  intro hall
  obtain ⟨-, hkeys, -⟩ := hall soloConfig (fun _ => default) (2 ^ 64 - 1)
    (soloSnap (fun _ => default) default (2 ^ 64 - 1))
    (reachable_solo soloConfig (2 ^ 64 - 1) (by omega))
  have hnext : (soloSnap (fun _ => default) default (2 ^ 64 - 1)).nextRecents =
      Finmap.singleton (UInt64.ofNat (2 ^ 64 - 1)) default := by
    rw [Snapshot.nextRecents, forgetOldest, if_neg (by decide)]
    rfl
  rw [hnext, Finmap.keys_singleton, Finset.card_singleton] at hkeys
  exact absurd hkeys (by decide)

/-- The window claim at the first block of the one-validator chain. -/
theorem nextWindow_solo_one :
    Reachable soloConfig (fun _ => default) 1 (soloSnap (fun _ => default) default 1) ∧
      1 + 1 < 2 ^ 64 ∧ NextWindow (soloSnap (fun _ => default) default 1) :=
  ⟨reachable_solo soloConfig 1 (by omega), by omega,
    nextWindow_of_reachable (reachable_solo soloConfig 1 (by omega)) (by omega)⟩

end Dpos

end PureChain
