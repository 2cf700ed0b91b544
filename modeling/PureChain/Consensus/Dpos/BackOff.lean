import PureChain.Consensus.Dpos.Verify

/-!
# The back-off of an out-of-turn validator

From the Ramanujan fork on, a block sealed out of turn comes later than the
period after its parent: `backOffTime` gives the validator whose turn it is no
delay, and every other validator `1 + steps[idx]` seconds, where `idx` is its
place among the sorted validators and `steps` a permutation of `0, …, n-1`
shuffled with the snapshot's number as seed. `Dpos.Prepare` stamps a header
with this delay (`PureChain.Dpos.prepareTime`), and
`blockTimeVerifyForRamanujanFork` checks it again with the header's coinbase.

On a snapshot with at least one validator the delays are slots: the validator in
turn has `0`, every other one a slot in `[1, n]`, and no two validators share
one (`PureChain.Dpos.backOffTime_injOn`), because the shuffle is a permutation
and the sorted list has no repetition. The time `Prepare` stamps passes the
check on the same snapshot, as both compute the same sum, wrapping or not
(`PureChain.Dpos.prepareTime_passes`).

The number of validators is the length of a Go slice, an `int`; the statements
below ask that it stay below `2^64`, where `uint64(len(validators))` is exact.
-/

namespace PureChain

namespace Dpos

/-! ### The time `Prepare` stamps -/

section Prepare

variable (p : Dpos) (shuffle : UInt64 → (n : ℕ) → Equiv.Perm (Fin n))

/-- `Dpos.blockTimeForRamanujanFork`: the earliest time of a block the engine's
own validator `p.val` seals on top of `parent`. -/
def blockTimeForRamanujanFork (snap : Snapshot) (header parent : Header) :
    Except Error UInt64 := do
  let blockTime := parent.Time + p.config.Period
  if p.chainConfig.IsRamanujan header.Number then
    let backOff ← backOffTime shuffle snap p.val
    pure (blockTime + backOff)
  else pure blockTime

/-- The timestamp `Dpos.Prepare` gives the header it prepares: the block time,
raised to the clock `now` when that is later. `Prepare` has set the coinbase to
`p.val` before. -/
def prepareTime (snap : Snapshot) (header parent : Header) (now : UInt64) :
    Except Error UInt64 := do
  let time ← p.blockTimeForRamanujanFork shuffle snap header parent
  pure (if time < now then now else time)

end Prepare

/-! ### Turns and indices -/

theorem length_validators (s : Snapshot) : s.validators.length = s.Validators.card :=
  Finset.length_sort _

/-- The index `inturn` reads: `(Number + 1) % n`, in range when there is a
validator and `n` is a `uint64`. -/
theorem turn_lt_length {s : Snapshot} (hn : 0 < s.validators.length)
    (hlen : s.validators.length < 2 ^ 64) :
    ((s.Number + 1) % UInt64.ofNat s.validators.length).toNat < s.validators.length := by
  rw [UInt64.toNat_mod, UInt64.toNat_ofNat_of_lt' hlen]
  exact Nat.mod_lt _ hn

/-- On a snapshot with a validator, `inturn` answers whether `v` is the
validator at the turn index, and does not panic. -/
theorem inturn_eq_ok {s : Snapshot} (hn : 0 < s.validators.length)
    (hlen : s.validators.length < 2 ^ 64) (v : Address) :
    s.inturn v =
      .ok (s.validators.get ⟨_, turn_lt_length hn hlen⟩ == v) := by
  unfold Snapshot.inturn
  dsimp only
  rw [List.getElem?_eq_getElem (turn_lt_length hn hlen)]
  rfl

/-- At most one validator is in turn. -/
theorem eq_of_inturn {s : Snapshot} {v w : Address} (hv : s.inturn v = .ok true)
    (hw : s.inturn w = .ok true) : v = w := by
  unfold Snapshot.inturn at hv hw
  dsimp only at hv hw
  split at hv
  · rename_i u hu
    rw [hu] at hw
    have hv' : u = v := beq_iff_eq.mp (Except.ok.inj hv)
    have hw' : u = w := beq_iff_eq.mp (Except.ok.inj hw)
    rw [← hv', ← hw']
  · cases hv

/-- A validator has a place among the sorted validators. -/
theorem indexOfVal_of_mem {s : Snapshot} {v : Address} (hv : v ∈ s.Validators) :
    ∃ idx, s.indexOfVal v = some idx ∧ s.validators[idx] = v := by
  cases hidx : s.indexOfVal v with
  | none =>
    have hnot : v ∉ s.validators := List.finIdxOf?_eq_none_iff.mp hidx
    exact absurd (Finset.mem_sort _ |>.mpr hv) hnot
  | some idx => exact ⟨idx, rfl, (List.finIdxOf?_eq_some_iff.mp hidx).1⟩

/-! ### The slots -/

section Slots

variable (shuffle : UInt64 → (n : ℕ) → Equiv.Perm (Fin n)) {s : Snapshot}

/-- The delay of an out-of-turn validator at index `idx`: one second past its
step, a step of the shuffled `0, …, n-1`. -/
theorem backOffTime_of_not_inturn {v : Address} (hturn : s.inturn v = .ok false)
    {idx : Fin s.validators.length} (hidx : s.indexOfVal v = some idx) :
    backOffTime shuffle s v =
      .ok (initialBackOffTime + UInt64.ofNat (shuffle s.Number _ idx).val * wiggleTime) := by
  simp [backOffTime, hturn, hidx]

/-- The step plus one second does not wrap. -/
theorem toNat_backOff (hlen : s.validators.length < 2 ^ 64) (idx : Fin s.validators.length) :
    (initialBackOffTime + UInt64.ofNat (shuffle s.Number _ idx).val * wiggleTime).toNat =
      (shuffle s.Number _ idx).val + 1 := by
  have hlt := (shuffle s.Number s.validators.length idx).isLt
  simp only [initialBackOffTime, wiggleTime, UInt64.mul_one, UInt64.toNat_add,
    UInt64.toNat_ofNat', UInt64.reduceToNat]
  omega

/-- **The slot of an out-of-turn validator** lies in `[1, n]`. -/
theorem backOffTime_mem_slots (hlen : s.validators.length < 2 ^ 64) {v : Address}
    (hv : v ∈ s.Validators) (hturn : s.inturn v = .ok false) :
    ∃ d, backOffTime shuffle s v = .ok d ∧ 1 ≤ d.toNat ∧ d.toNat ≤ s.validators.length := by
  obtain ⟨idx, hidx, -⟩ := indexOfVal_of_mem hv
  have hlt := (shuffle s.Number s.validators.length idx).isLt
  refine ⟨_, backOffTime_of_not_inturn shuffle hturn hidx, ?_, ?_⟩ <;>
    rw [toNat_backOff shuffle hlen] <;> omega

/-- The validator in turn has no delay, every other one at least a second. -/
theorem backOffTime_ne_of_inturn (hlen : s.validators.length < 2 ^ 64) {v w : Address}
    (hv : s.inturn v = .ok true) (hw : w ∈ s.Validators) (hturn : s.inturn w = .ok false) :
    backOffTime shuffle s v ≠ backOffTime shuffle s w := by
  obtain ⟨d, hd, hd1, -⟩ := backOffTime_mem_slots shuffle hlen hw hturn
  rw [hd, backOffTime_of_inturn hv]
  intro h
  rw [← Except.ok.inj h] at hd1
  exact absurd hd1 (by decide)

/-- **No two validators share a slot.** -/
theorem backOffTime_injOn (hn : 0 < s.validators.length) (hlen : s.validators.length < 2 ^ 64)
    {v w : Address} (hv : v ∈ s.Validators) (hw : w ∈ s.Validators)
    (h : backOffTime shuffle s v = backOffTime shuffle s w) : v = w := by
  -- split on whether each is in turn
  cases hbv : s.inturn v with
  | error e => rw [inturn_eq_ok hn hlen] at hbv; cases hbv
  | ok bv =>
    cases hbw : s.inturn w with
    | error e => rw [inturn_eq_ok hn hlen] at hbw; cases hbw
    | ok bw =>
      cases bv <;> cases bw
      · -- both out of turn: the shuffle tells their indices apart
        obtain ⟨iv, hiv, hv'⟩ := indexOfVal_of_mem hv
        obtain ⟨iw, hiw, hw'⟩ := indexOfVal_of_mem hw
        rw [backOffTime_of_not_inturn shuffle hbv hiv, backOffTime_of_not_inturn shuffle hbw hiw]
          at h
        have hsteps := congrArg UInt64.toNat (Except.ok.inj h)
        rw [toNat_backOff shuffle hlen, toNat_backOff shuffle hlen, Nat.add_right_cancel_iff]
          at hsteps
        have hidx : iv = iw := (shuffle s.Number _).injective (Fin.ext hsteps)
        rw [← hv', ← hw', hidx]
      · exact absurd h.symm (backOffTime_ne_of_inturn shuffle hlen hbw hv hbv)
      · exact absurd h (backOffTime_ne_of_inturn shuffle hlen hbv hw hbw)
      · exact eq_of_inturn hbv hbw

end Slots

/-! ### `Prepare` and the check agree -/

section Agree

variable (p : Dpos) (shuffle : UInt64 → (n : ℕ) → Equiv.Perm (Fin n)) {s : Snapshot}

/-- On a snapshot with a validator, every validator, and every other address,
has a delay. -/
theorem backOffTime_ok (hn : 0 < s.validators.length) (hlen : s.validators.length < 2 ^ 64)
    (v : Address) : ∃ d, backOffTime shuffle s v = .ok d := by
  cases hturn : s.inturn v with
  | error e => rw [inturn_eq_ok hn hlen] at hturn; cases hturn
  | ok b =>
    cases b with
    | true => exact ⟨0, backOffTime_of_inturn hturn⟩
    | false =>
      cases hidx : s.indexOfVal v with
      | none => exact ⟨0, by simp [backOffTime, hturn, hidx]⟩
      | some idx => exact ⟨_, backOffTime_of_not_inturn shuffle hturn hidx⟩

/-- Raising a time to the clock never makes it earlier. -/
theorem not_lt_raise (time now : UInt64) : ¬(if time < now then now else time) < time := by
  split_ifs with h
  · exact fun h' => UInt64.lt_asymm h h'
  · exact UInt64.lt_irrefl time

theorem prepareTime_ok (hn : 0 < s.validators.length) (hlen : s.validators.length < 2 ^ 64)
    (header parent : Header) (now : UInt64) :
    ∃ t, p.prepareTime shuffle s header parent now = .ok t := by
  obtain ⟨d, hd⟩ := backOffTime_ok shuffle hn hlen p.val
  unfold prepareTime blockTimeForRamanujanFork
  cases p.chainConfig.IsRamanujan header.Number <;> simp [hd]

/-- **The time `Prepare` stamps passes `blockTimeVerifyForRamanujanFork`** on the
same snapshot, for the header with the engine's validator as coinbase. -/
theorem prepareTime_passes {header parent : Header} {now t : UInt64}
    (h : p.prepareTime shuffle s header parent now = .ok t) :
    p.blockTimeVerifyForRamanujanFork shuffle s { header with Coinbase := p.val, Time := t }
      parent = .ok () := by
  obtain ⟨time, htime, ht⟩ := Except.bind_eq_ok.mp h
  rw [Except.pure_eq_ok] at ht
  unfold blockTimeForRamanujanFork at htime
  unfold blockTimeVerifyForRamanujanFork
  cases hram : p.chainConfig.IsRamanujan header.Number
  · simp only [Bool.false_eq_true, if_false]
    rfl
  · -- both sides add the same delay of `p.val` to the same sum
    rw [hram, if_pos rfl] at htime
    obtain ⟨d, hd, hsum⟩ := Except.bind_eq_ok.mp htime
    rw [Except.pure_eq_ok] at hsum
    simp only [if_true, hd, Except.bind_ok]
    rw [if_neg (by rw [← ht, ← hsum]; exact not_lt_raise _ _)]
    rfl

end Agree

theorem backOffTime_slots (shuffle : UInt64 → (n : ℕ) → Equiv.Perm (Fin n)) (s : Snapshot)
    (hn : 0 < s.Validators.card) (hlen : s.Validators.card < 2 ^ 64) :
    (∀ v, ∃ b, s.inturn v = .ok b) ∧
    (∀ v ∈ s.Validators, s.inturn v = .ok true → backOffTime shuffle s v = .ok 0) ∧
    (∀ v ∈ s.Validators, s.inturn v = .ok false →
      ∃ d, backOffTime shuffle s v = .ok d ∧ 1 ≤ d.toNat ∧ d.toNat ≤ s.Validators.card) ∧
    (∀ v ∈ s.Validators, ∀ w ∈ s.Validators,
      backOffTime shuffle s v = backOffTime shuffle s w → v = w) ∧
    (∀ (p : Dpos) (header parent : Header) (now : UInt64),
      ∃ t, p.prepareTime shuffle s header parent now = .ok t ∧
        p.blockTimeVerifyForRamanujanFork shuffle s { header with Coinbase := p.val, Time := t }
          parent = .ok ()) := by
  rw [← length_validators] at hn hlen ⊢
  refine ⟨fun v => ⟨_, inturn_eq_ok hn hlen v⟩, fun v _ hturn => backOffTime_of_inturn hturn,
    fun v hv hturn => backOffTime_mem_slots shuffle hlen hv hturn,
    fun v hv w hw h => backOffTime_injOn shuffle hn hlen hv hw h, fun p header parent now => ?_⟩
  obtain ⟨t, ht⟩ := prepareTime_ok p shuffle hn hlen header parent now
  exact ⟨t, ht, prepareTime_passes p shuffle ht⟩

theorem backOffTime_slots_pair :
    0 < ({Address.ofNat 1, Address.ofNat 2} : Finset Address).card ∧
      ({Address.ofNat 1, Address.ofNat 2} : Finset Address).card < 2 ^ 64 ∧
      backOffTime (fun _ n => Equiv.refl (Fin n))
          ⟨0, Hash.zero, {Address.ofNat 1, Address.ofNat 2}, ∅, ∅⟩ (Address.ofNat 1) ≠
        backOffTime (fun _ n => Equiv.refl (Fin n))
          ⟨0, Hash.zero, {Address.ofNat 1, Address.ofNat 2}, ∅, ∅⟩ (Address.ofNat 2) := by
  have hcard : ({Address.ofNat 1, Address.ofNat 2} : Finset Address).card = 2 :=
    Finset.card_pair (by decide)
  refine ⟨by rw [hcard]; decide, by rw [hcard]; decide, fun h => ?_⟩
  have hslots := backOffTime_slots (fun _ n => Equiv.refl (Fin n))
    ⟨0, Hash.zero, {Address.ofNat 1, Address.ofNat 2}, ∅, ∅⟩ (by rw [hcard]; decide)
    (by rw [hcard]; decide)
  exact absurd (hslots.2.2.2.1 _ (by simp) _ (by simp) h) (by decide)

end Dpos

end PureChain
