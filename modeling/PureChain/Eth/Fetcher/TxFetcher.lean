import Mathlib.Data.Finmap
import Mathlib.Data.Finset.Sort
import PureChain.Lib.Except

/-!
# Package `fetcher`: announcements at the transaction fetcher

`TxFetcher` learns of transactions by their hashes, as peers announce them, and
keeps each hash in one of three stages: waiting for a broadcast (`waitlist`,
`waittime`, with the hashes of each peer in `waitslots`), queued for retrieval
(`announced`, with the hashes of each peer in `announces`), and being fetched
(`fetching`, `requests`, with the other peers that have the hash in
`alternates`; `announces` keeps them too). An announcement files each hash it
brings in the stage the hash is already in, or starts it waiting, and a new peer
that announced something already queued is asked for it at once
(`scheduleFetches`).

A peer may have at most `maxTxAnnounces` hashes tracked, waiting or announced;
the announcements past that are dropped. The loop computes how many to keep as
`want - maxTxAnnounces`, the number it means to drop, where the number to keep
is `maxTxAnnounces - used`. So a peer just below the bound can go past it by
almost as much again (`notify_overshoots_maxTxAnnounces`).

The timers of the loop are not state here: they only decide when the wait and
timeout events come, and a run may bring those at any time.
-/

namespace PureChain

namespace fetcher

/-- `maxTxAnnounces`: how many hashes a peer may have tracked at once. -/
def maxTxAnnounces : ℕ := 4096

/-- `maxTxRetrievals`: how many hashes one request asks for. -/
def maxTxRetrievals : ℕ := 256

/-- `txAnnounce`: the hashes a peer announced and the fetcher does not know. -/
structure txAnnounce (P H : Type) where
  origin : P
  hashes : List H

/-- `txRequest`: the hashes asked of a peer, and when. -/
structure txRequest (H : Type) where
  hashes : List H
  time : ℤ

/-- `TxFetcher`, its three stages. A Go map of sets is a `Finmap` of `Finset`s
here, a missing key reading as the empty set as Go reads a nil map; the sets of
`alternates` may be nil, which the loop tells apart from empty ones. -/
structure TxFetcher (P H : Type) where
  waitlist : Finmap fun _ : H => Finset P
  waittime : Finmap fun _ : H => ℤ
  waitslots : Finmap fun _ : P => Finset H
  announces : Finmap fun _ : P => Finset H
  announced : Finmap fun _ : H => Finset P
  fetching : Finmap fun _ : H => P
  requests : Finmap fun _ : P => txRequest H
  alternates : Finmap fun _ : H => Option (Finset P)

/-- An order in which Go's `range` visits the keys of a map of hashes: every key
once, in an order the runtime picks. -/
structure mapOrder (H : Type) where
  toList : Finset H → List H
  nodup : ∀ s, (toList s).Nodup
  mem : ∀ s a, a ∈ toList s ↔ a ∈ s

variable {P H : Type} [DecidableEq P] [DecidableEq H]

/-- The set a map of sets holds at a key, empty when there is none. -/
def setAt {α β : Type} [DecidableEq α] (m : Finmap fun _ : α => Finset β) (a : α) : Finset β :=
  (m.lookup a).getD ∅

/-- `m[a][b] = struct{}{}`, creating the set `m[a]` when it is missing. -/
def addTo {α β : Type} [DecidableEq α] [DecidableEq β] (m : Finmap fun _ : α => Finset β) (a : α) (b : β) :
    Finmap fun _ : α => Finset β :=
  m.insert a (insert b (setAt m a))

/-- A fetcher with nothing tracked, as `NewTxFetcher` makes it. -/
def NewTxFetcher : TxFetcher P H :=
  ⟨∅, ∅, ∅, ∅, ∅, ∅, ∅, ∅⟩

namespace TxFetcher

/-- `len(f.waitslots[p]) + len(f.announces[p])`: the hashes a peer has tracked,
waiting or announced. -/
def used (f : TxFetcher P H) (p : P) : ℕ := (setAt f.waitslots p).card + (setAt f.announces p).card

/-- The loop body of the announcement handler: one announced hash filed in the
stage it is in, or started waiting at `now`. -/
def notifyHash (now : ℤ) (origin : P) (f : TxFetcher P H) (hash : H) : TxFetcher P H :=
  match f.alternates.lookup hash with
  | some (some alts) =>
    -- being fetched: the peer is one more place to get it from
    { f with
      alternates := f.alternates.insert hash (some (insert origin alts))
      announces := addTo f.announces origin hash }
  | _ =>
    match f.announced.lookup hash with
    | some origins =>
      -- queued from another peer: tracked for this one too
      { f with
        announced := f.announced.insert hash (insert origin origins)
        announces := addTo f.announces origin hash }
    | none =>
      match f.waitlist.lookup hash with
      | some origins =>
        -- already waiting: the peer is one more origin
        { f with
          waitlist := f.waitlist.insert hash (insert origin origins)
          waitslots := addTo f.waitslots origin hash }
      | none =>
        { f with
          waitlist := f.waitlist.insert hash {origin}
          waittime := f.waittime.insert hash now
          waitslots := addTo f.waitslots origin hash }

/-- The loop of `scheduleFetches` over the hashes a peer announced, in the order
`range` visits them: each that is not being fetched is marked as fetched from
`peer`, its queued origins become its alternates, and the loop stops at
`maxTxRetrievals` of them. A hash that has alternates already is the panic of the
source. -/
def fetchHashes (peer : P) : List H → TxFetcher P H × List H → Except String (TxFetcher P H × List H)
  | [], acc => .ok acc
  | hash :: rest, (f, hashes) =>
    if (f.fetching.lookup hash).isSome then fetchHashes peer rest (f, hashes)
    else if (f.alternates.lookup hash).isSome then .error "alternate tracker already contains fetching item"
    else
      let f := { f with
        fetching := f.fetching.insert hash peer
        alternates := f.alternates.insert hash (f.announced.lookup hash)
        announced := f.announced.erase hash }
      let hashes := hashes ++ [hash]
      if maxTxRetrievals ≤ hashes.length then .ok (f, hashes) else fetchHashes peer rest (f, hashes)

/-- `scheduleFetches` for the peers `actives`, in the order they are visited: a
peer with no request in flight and something announced is asked for the hashes
`fetchHashes` picks, at `now`. -/
def scheduleFetches (order : mapOrder H) (now : ℤ) (f : TxFetcher P H) :
    List P → Except String (TxFetcher P H)
  | [] => .ok f
  | peer :: actives =>
    if (f.requests.lookup peer).isSome ∨ (setAt f.announces peer).card = 0 then
      scheduleFetches order now f actives
    else do
      let (f, hashes) ← fetchHashes peer (order.toList (setAt f.announces peer)) (f, [])
      let f := if 0 < hashes.length then { f with requests := f.requests.insert peer ⟨hashes, now⟩ } else f
      scheduleFetches order now f actives

/-- The `notify` case of `TxFetcher.loop`, an announcement handled at `now`. -/
def notify (order : mapOrder H) (now : ℤ) (f : TxFetcher P H) (ann : txAnnounce P H) :
    Except String (TxFetcher P H) :=
  let used := f.used ann.origin
  if maxTxAnnounces ≤ used then .ok f
  else
    let want := used + ann.hashes.length
    -- meant to keep `maxTxAnnounces - used` of them
    let hashes := if maxTxAnnounces < want then ann.hashes.take (want - maxTxAnnounces) else ann.hashes
    let oldPeer := f.announces.lookup ann.origin |>.isSome
    let f := hashes.foldl (notifyHash now ann.origin) f
    -- a new peer that announced something already queued is asked for it
    if !oldPeer ∧ 0 < (setAt f.announces ann.origin).card then f.scheduleFetches order now [ann.origin]
    else .ok f

end TxFetcher

/-! ### Filing fresh hashes -/

section Filing

variable {α β : Type} [DecidableEq α] [DecidableEq β]

omit [DecidableEq β] in
@[simp] theorem setAt_empty (a : α) : setAt (∅ : Finmap fun _ : α => Finset β) a = ∅ := rfl

@[simp] theorem setAt_addTo_self (m : Finmap fun _ : α => Finset β) (a : α) (b : β) :
    setAt (addTo m a b) a = insert b (setAt m a) := by
  simp [setAt, addTo]

theorem setAt_addTo_of_ne (m : Finmap fun _ : α => Finset β) {a a' : α} (h : a' ≠ a) (b : β) :
    setAt (addTo m a b) a' = setAt m a' := by
  simp [setAt, addTo, Finmap.lookup_insert_of_ne _ h]

end Filing

namespace TxFetcher

variable {f : TxFetcher P H}

/-- A hash the fetcher has in none of its stages. -/
def Fresh (f : TxFetcher P H) (hash : H) : Prop :=
  f.alternates.lookup hash = none ∧ f.announced.lookup hash = none ∧ f.waitlist.lookup hash = none

/-- A fresh hash starts waiting, at `now`, in the peer's slots. -/
theorem notifyHash_of_fresh {now : ℤ} {origin : P} {hash : H} (h : f.Fresh hash) :
    f.notifyHash now origin hash = { f with
      waitlist := f.waitlist.insert hash {origin}
      waittime := f.waittime.insert hash now
      waitslots := addTo f.waitslots origin hash } := by
  obtain ⟨halt, hann, hwait⟩ := h
  simp only [notifyHash, halt, hann, hwait]

/-- **Filing hashes the fetcher does not know** starts them all waiting: they go
into the peer's slots, and no other stage and no other hash of the waiting list
changes. -/
theorem foldl_notifyHash_of_fresh (now : ℤ) (origin : P) (hs : List H) (hnd : hs.Nodup)
    (hfresh : ∀ hash ∈ hs, f.Fresh hash) :
    let f' := hs.foldl (notifyHash now origin) f
    f'.alternates = f.alternates ∧ f'.announced = f.announced ∧ f'.announces = f.announces ∧
      (∀ hash, hash ∉ hs → f'.waitlist.lookup hash = f.waitlist.lookup hash) ∧
      setAt f'.waitslots origin = setAt f.waitslots origin ∪ hs.toFinset := by
  induction hs generalizing f with
  | nil => simp
  | cons hash hs ih =>
    obtain ⟨hnot, hnd⟩ := List.nodup_cons.mp hnd
    -- the hashes after this one are still fresh once it is filed
    have hrest : ∀ h' ∈ hs, (f.notifyHash now origin hash).Fresh h' := fun h' hh' => by
      have hne : h' ≠ hash := fun heq => hnot (heq ▸ hh')
      obtain ⟨halt, hann, hwait⟩ := hfresh h' (List.mem_cons_of_mem _ hh')
      rw [notifyHash_of_fresh (hfresh hash List.mem_cons_self)]
      exact ⟨halt, hann, by rw [Finmap.lookup_insert_of_ne _ hne]; exact hwait⟩
    have e : f.notifyHash now origin hash = _ := notifyHash_of_fresh (hfresh hash List.mem_cons_self)
    obtain ⟨halt, hann, hanns, hwait, hslots⟩ := ih (f := f.notifyHash now origin hash) hnd hrest
    refine ⟨halt.trans (by rw [e]), hann.trans (by rw [e]), hanns.trans (by rw [e]), fun h' hh' => ?_, ?_⟩
    · rw [List.mem_cons, not_or] at hh'
      rw [List.foldl_cons, hwait h' hh'.2, e]
      exact Finmap.lookup_insert_of_ne _ hh'.1
    · rw [List.foldl_cons, hslots, e, setAt_addTo_self, List.toFinset_cons, Finset.insert_union,
        Finset.union_insert]

/-- **An announcement of fresh hashes** from a peer below the bound is filed
whole when it fits, and otherwise cut to `used + n - maxTxAnnounces` of its
hashes: the number the loop means to drop. Nothing is fetched for it, and no
other hash changes stage. -/
theorem notify_of_fresh (order : mapOrder H) (now : ℤ) (ann : txAnnounce P H)
    (hlt : f.used ann.origin < maxTxAnnounces) (hnd : ann.hashes.Nodup)
    (hfresh : ∀ hash ∈ ann.hashes, f.Fresh hash ∧ hash ∉ setAt f.waitslots ann.origin) :
    ∃ f', f.notify order now ann = .ok f' ∧
      f'.used ann.origin = f.used ann.origin +
        (if maxTxAnnounces < f.used ann.origin + ann.hashes.length then
          f.used ann.origin + ann.hashes.length - maxTxAnnounces
        else ann.hashes.length) ∧
      f'.alternates = f.alternates ∧ f'.announced = f.announced ∧
      (∀ hash, hash ∉ ann.hashes → f'.waitlist.lookup hash = f.waitlist.lookup hash) ∧
      setAt f'.waitslots ann.origin ⊆ setAt f.waitslots ann.origin ∪ ann.hashes.toFinset := by
  -- the hashes the loop keeps: a prefix of the announcement
  obtain ⟨kept, hkept, hsub, hlen⟩ : ∃ kept : List H,
      kept = (if maxTxAnnounces < f.used ann.origin + ann.hashes.length then
        ann.hashes.take (f.used ann.origin + ann.hashes.length - maxTxAnnounces) else ann.hashes) ∧
      kept.Sublist ann.hashes ∧
      kept.length = if maxTxAnnounces < f.used ann.origin + ann.hashes.length then
        f.used ann.origin + ann.hashes.length - maxTxAnnounces else ann.hashes.length := by
    refine ⟨_, rfl, ?_, ?_⟩
    · split
      · exact List.take_sublist _ _
      · exact List.Sublist.refl _
    · split
      · rw [List.length_take]
        omega
      · rfl
  obtain ⟨halt, hann, hanns, hwait, hslots⟩ := foldl_notifyHash_of_fresh now ann.origin kept (hsub.nodup hnd)
    (fun hash hh => (hfresh hash (hsub.subset hh)).1)
  -- the peer's announced set is as it was, so no fetch is scheduled
  have hno : ¬ ((!(f.announces.lookup ann.origin).isSome) = true ∧
      0 < (setAt (kept.foldl (notifyHash now ann.origin) f).announces ann.origin).card) := by
    rintro ⟨hold, hpos⟩
    rw [hanns] at hpos
    cases hl : f.announces.lookup ann.origin with
    | none => simp [setAt, hl] at hpos
    | some _ => simp [hl] at hold
  refine ⟨kept.foldl (notifyHash now ann.origin) f, ?_, ?_, halt, hann,
    fun hash hh => hwait hash fun hk => hh (hsub.subset hk), ?_⟩
  · simp only [notify, Nat.not_le.mpr hlt, ↓reduceIte, ← hkept, hno]
  · have hdisj : Disjoint (setAt f.waitslots ann.origin) kept.toFinset :=
      Finset.disjoint_right.mpr fun hash hh => (hfresh hash (hsub.subset (List.mem_toFinset.mp hh))).2
    rw [used, hslots, hanns, Finset.card_union_of_disjoint hdisj, List.toFinset_card_of_nodup (hsub.nodup hnd),
      hlen, used]
    omega
  · rw [hslots]
    exact Finset.union_subset_union (Finset.Subset.refl _)
      fun hash hh => List.mem_toFinset.mpr (hsub.subset (List.mem_toFinset.mp hh))

end TxFetcher

/-- **An announcement can take a peer past `maxTxAnnounces`.** A peer announces
`hs₁` to a new fetcher, fewer hashes than the bound, and then `hs₂`, all fresh:
the loop keeps `|hs₁| + |hs₂| - maxTxAnnounces` of the second batch where
`maxTxAnnounces - |hs₁|` would fit, and the peer is left tracking
`2 |hs₁| + |hs₂| - maxTxAnnounces` hashes, past the bound as soon as
`2 |hs₁| + |hs₂| > 2 maxTxAnnounces`. -/
theorem notify_overshoots_maxTxAnnounces (order : mapOrder H) (now₁ now₂ : ℤ) (origin : P)
    (hs₁ hs₂ : List H) (hnd : (hs₁ ++ hs₂).Nodup) (h₁ : hs₁.length < maxTxAnnounces)
    (h₂ : maxTxAnnounces < hs₁.length + hs₂.length) :
    ∃ f₁ f₂, (NewTxFetcher : TxFetcher P H).notify order now₁ ⟨origin, hs₁⟩ = .ok f₁ ∧
      f₁.used origin = hs₁.length ∧ f₁.notify order now₂ ⟨origin, hs₂⟩ = .ok f₂ ∧
      f₂.used origin = 2 * hs₁.length + hs₂.length - maxTxAnnounces := by
  obtain ⟨hnd₁, hnd₂, hne⟩ := List.nodup_append.mp hnd
  have hused₀ : (NewTxFetcher : TxFetcher P H).used origin = 0 := rfl
  -- the first announcement fits, and starts all its hashes waiting
  obtain ⟨f₁, hf₁, hused₁, halt₁, hann₁, hwait₁, hslots₁⟩ :=
    TxFetcher.notify_of_fresh order now₁ ⟨origin, hs₁⟩ (by rw [hused₀]; exact Nat.lt_of_le_of_lt (Nat.zero_le _) h₁)
      hnd₁ (fun hash _ => ⟨⟨Finmap.lookup_empty _, Finmap.lookup_empty _, Finmap.lookup_empty _⟩,
        Finset.notMem_empty _⟩)
  replace hused₁ : f₁.used origin = hs₁.length := by
    simpa only [hused₀, Nat.zero_add, Nat.not_lt.mpr (Nat.le_of_lt h₁), if_false] using hused₁
  -- the second brings hashes the first did not: all fresh
  have hfresh₂ : ∀ hash ∈ hs₂, f₁.Fresh hash ∧ hash ∉ setAt f₁.waitslots origin := fun hash hh => by
    have hnot : hash ∉ hs₁ := fun h1 => hne hash h1 hash hh rfl
    refine ⟨⟨by rw [halt₁]; exact Finmap.lookup_empty _, by rw [hann₁]; exact Finmap.lookup_empty _,
      by rw [hwait₁ hash hnot]; exact Finmap.lookup_empty _⟩, fun hs => ?_⟩
    have hempty : setAt (NewTxFetcher : TxFetcher P H).waitslots origin = ∅ := rfl
    have := hslots₁ hs
    rw [hempty, Finset.empty_union, List.mem_toFinset] at this
    exact hnot this
  obtain ⟨f₂, hf₂, hused₂, -⟩ :=
    TxFetcher.notify_of_fresh order now₂ ⟨origin, hs₂⟩ (by rw [hused₁]; exact h₁) hnd₂ hfresh₂
  dsimp only at hused₂
  rw [hused₁, if_pos h₂] at hused₂
  refine ⟨f₁, f₂, hf₁, hused₁, hf₂, ?_⟩
  rw [hused₂]
  omega

/-- Go's order on a map of numbered hashes, taken as the sorted one. -/
def sortedOrder : mapOrder ℕ :=
  ⟨fun s => s.sort (· ≤ ·), fun s => s.sort_nodup _, fun _ _ => Finset.mem_sort _⟩

theorem notify_overshoots_maxTxAnnounces_4000 :
    (List.range 4000 ++ List.range' 4000 200).Nodup ∧ (List.range 4000).length < maxTxAnnounces ∧
      maxTxAnnounces < (List.range 4000).length + (List.range' 4000 200).length ∧
      ∃ f₁ f₂, (NewTxFetcher : TxFetcher String ℕ).notify sortedOrder 0 ⟨"peer", List.range 4000⟩ = .ok f₁ ∧
        f₁.used "peer" = (List.range 4000).length ∧ f₁.notify sortedOrder 1 ⟨"peer", List.range' 4000 200⟩ = .ok f₂ ∧
        f₂.used "peer" = 2 * (List.range 4000).length + (List.range' 4000 200).length - maxTxAnnounces := by
  have hnd : (List.range 4000 ++ List.range' 4000 200).Nodup := by
    rw [List.range_eq_range', List.range'_append_1]
    exact List.nodup_range'
  have h₁ : (List.range 4000).length < maxTxAnnounces := by simp [maxTxAnnounces]
  have h₂ : maxTxAnnounces < (List.range 4000).length + (List.range' 4000 200).length := by
    simp [maxTxAnnounces]
  exact ⟨hnd, h₁, h₂, notify_overshoots_maxTxAnnounces sortedOrder 0 1 "peer" _ _ hnd h₁ h₂⟩

-- the peer is left tracking 4104 hashes, past the bound of 4096
example : 2 * (List.range 4000).length + (List.range' 4000 200).length - maxTxAnnounces = 4104 := by
  simp [maxTxAnnounces]

end fetcher

end PureChain
