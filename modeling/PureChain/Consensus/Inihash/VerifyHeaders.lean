import PureChain.Lib.Run
import PureChain.Consensus.Inihash.Consensus

/-!
# Verifying a batch of headers concurrently

`Inihash.VerifyHeaders` verifies `n` headers on `min(GOMAXPROCS, n)` worker
goroutines and hands the results back on the channel `errorsOut` in the order
of the headers. A dispatcher goroutine feeds the indices `0, …, n - 1` to the
workers over the unbuffered channel `inputs`; a worker writes
`errors[index] = verifyHeaderWorker(…, index)` into the shared slice and sends
`index` on the channel `done`, buffered to the number of workers; the
dispatcher marks each index it receives in `checked` and sends `errors[out]`
for as long as `checked[out]` holds, returning after the last one. Closing the
channel `abort` makes the dispatcher return at any point.

The goroutines are a transition system (`Dispatch.Step`): one step per atomic
action of a worker or a case of the dispatcher's `select`, in any order the
scheduler picks; the caller's closing of `abort` is one more step
(`Dispatch.StepOrClose`). Over every interleaving
(`PureChain.Inihash.VerifyHeaders_in_order`):

* every run is finite: a measure of the work left drops at every step;
* what has been sent on `errorsOut` is always `errors[0], …, errors[k - 1]` for
  some `k ≤ n`, each the value the worker wrote, so nothing is sent out of order
  or twice, whether `abort` is closed or not;
* a run in which `abort` stays open ends only once the dispatcher has returned
  having sent all `n` results;
* after the dispatcher returns nothing more is sent.

The invariant behind the last three is `Dispatch.Inv`: every index below `in`
is held by a worker, waits in `done` or is checked, and `errors[j]` is final
once a worker reports `j`.

The workers' results are those of a function fixed when the goroutines start
(`verifyHeaderWorker` at the clock read then). The branch of a full fake engine
or an empty batch, which sends `n` nil results without any goroutine, is left
out.
-/

namespace PureChain

namespace Inihash

section Worker

variable (keccak256 : List UInt8 → PureChain.Hash)
  (VersaHash : List UInt8 → List UInt8 → List UInt8 → List UInt8)

/-- `Inihash.verifyHeaderWorker`: the header at `index` against its parent, the
header before it in the batch when it links to it, read from the chain for the
first one. The dispatcher hands out only indices of the batch; out of range the
zero header stands for Go's panic. -/
def verifyHeaderWorker (chain : ChainHeaderReader) (inihash : Inihash) (headers : List Header)
    (seals : List Bool) (index : ℕ) (unixNow : Int64) : Except Error Unit :=
  let header := headers.getD index Header.zero
  let parent :=
    if index = 0 then chain.GetHeader header.ParentHash (header.number - 1)
    else if (headers.getD (index - 1) Header.zero).Hash keccak256 = header.ParentHash then
      some (headers.getD (index - 1) Header.zero)
    else none
  match parent with
  | none => throw .errUnknownAncestor
  | some parent =>
    verifyHeader keccak256 VersaHash chain inihash header parent false (seals.getD index false)
      unixNow

end Worker

/-- What a worker goroutine of `VerifyHeaders` is doing. -/
inductive Worker where
  /-- waiting in `for index := range inputs` -/
  | idle
  /-- has received `index` and computes `errors[index]` -/
  | verifying (index : ℕ)
  /-- has written `errors[index]` and is blocked on `done <- index` -/
  | reporting (index : ℕ)
  deriving DecidableEq, Repr

/-- The number of workers `VerifyHeaders` spawns: `GOMAXPROCS`, but no more than
there are headers. -/
def numWorkers (procs n : ℕ) : ℕ := if n < procs then n else procs

/-- The goroutines of `VerifyHeaders` once spawned: the shared slice `errors`,
the workers, the buffer of `done`, the dispatcher's locals, and whether the
caller has closed `abort`. `errors` and `checked` are the slices of length `n`,
read as functions. -/
structure Dispatch (α : Type*) where
  errors : ℕ → α
  workers : List Worker
  done : List ℕ
  /-- the dispatcher's `in` -/
  input : ℕ
  /-- whether the dispatcher's `inputs` is still the channel rather than `nil` -/
  inputs : Bool
  out : ℕ
  checked : ℕ → Bool
  errorsOut : List α
  /-- the dispatcher goroutine has returned -/
  returned : Bool
  abort : Bool

namespace Dispatch

variable {α : Type*}

/-- The state after `VerifyHeaders` spawned its goroutines: `errors` holds the
nil error `nil`, every worker waits for an index. -/
def init (procs n : ℕ) (nil : α) : Dispatch α where
  errors := fun _ => nil
  workers := List.replicate (numWorkers procs n) .idle
  done := []
  input := 0
  inputs := true
  out := 0
  checked := fun _ => false
  errorsOut := []
  returned := false
  abort := false

variable (n : ℕ)

/-- The loop of the dispatcher's `done` case,
`for …; checked[out]; out++ { errorsOut <- errors[out]; if out == n-1 { return } }`,
run for at most `fuel` rounds. -/
def flush : ℕ → Dispatch α → Dispatch α
  | 0, s => s
  | fuel + 1, s =>
    if s.checked s.out then
      if s.out = n - 1 then
        { s with errorsOut := s.errorsOut ++ [s.errors s.out], returned := true }
      else flush fuel { s with errorsOut := s.errorsOut ++ [s.errors s.out], out := s.out + 1 }
    else s

variable (cap : ℕ) (work : ℕ → α)

/-- One step of the goroutines of `VerifyHeaders` on `n` headers, with `cap`
workers computing `work`. -/
inductive Step : Dispatch α → Dispatch α → Prop
  /-- `case inputs <- in:` an idle worker receives `in`; `inputs` becomes `nil`
  after the last index. -/
  | send {s : Dispatch α} {w : ℕ} (hret : s.returned = false) (hin : s.inputs = true)
      (hw : s.workers[w]? = some .idle) :
      Step s { s with
        workers := s.workers.set w (.verifying s.input), input := s.input + 1,
        inputs := s.input + 1 != n }
  /-- `errors[index] = verifyHeaderWorker(…, index)` -/
  | verify {s : Dispatch α} {w i : ℕ} (hw : s.workers[w]? = some (.verifying i)) :
      Step s { s with
        errors := Function.update s.errors i (work i), workers := s.workers.set w (.reporting i) }
  /-- `done <- index`, when the buffer has room -/
  | report {s : Dispatch α} {w i : ℕ} (hw : s.workers[w]? = some (.reporting i))
      (hroom : s.done.length < cap) :
      Step s { s with done := s.done ++ [i], workers := s.workers.set w .idle }
  /-- `case index := <-done:` mark `index` and send what is ready -/
  | receive {s : Dispatch α} {i : ℕ} {rest : List ℕ} (hret : s.returned = false)
      (hdone : s.done = i :: rest) :
      Step s (flush n n { s with done := rest, checked := Function.update s.checked i true })
  /-- `case <-abort: return` -/
  | quit {s : Dispatch α} (hret : s.returned = false) (habort : s.abort = true) :
      Step s { s with returned := true }

/-- A step of the goroutines, or the caller closing `abort`. -/
def StepOrClose (s s' : Dispatch α) : Prop :=
  Step n cap work s s' ∨ (s.abort = false ∧ s' = { s with abort := true })

/-! ### The loop that sends the results -/

variable {n}

/-- The loop only moves `out`, appends to `errorsOut` and may return. -/
theorem flush_eq : ∀ (fuel : ℕ) (s : Dispatch α), ∃ out errorsOut returned,
    flush n fuel s = { s with out := out, errorsOut := errorsOut, returned := returned }
  | 0, s => ⟨s.out, s.errorsOut, s.returned, rfl⟩
  | fuel + 1, s => by
    rw [flush]
    split_ifs
    · exact ⟨_, _, _, rfl⟩
    · obtain ⟨out, errorsOut, returned, h⟩ := flush_eq fuel
        { s with errorsOut := s.errorsOut ++ [s.errors s.out], out := s.out + 1 }
      exact ⟨out, errorsOut, returned, h⟩
    · exact ⟨s.out, s.errorsOut, s.returned, rfl⟩

/-- The first `k` results in order are a prefix of all `n`. -/
theorem map_range_isPrefixOf (work : ℕ → α) {k : ℕ} (hk : k ≤ n) :
    (List.range k).map work <+: (List.range n).map work := by
  have hrange : List.range k = (List.range n).take k := by
    rw [List.take_range, Nat.min_eq_left hk]
  rw [hrange, List.map_take]
  exact List.take_prefix _ _

/-- Sending `errors[out]` when it holds the result for `out` extends the results
sent in order by one. -/
theorem map_range_succ_of_eq {errors work : ℕ → α} {out : ℕ} (h : errors out = work out) :
    (List.range out).map work ++ [errors out] = (List.range (out + 1)).map work := by
  rw [List.range_succ, List.map_append, List.map_singleton, h]

/-- **The loop sends the results in order**: started below `n` with the results
before `out` sent and those checked written, it stops at the first unchecked
index with everything before it sent, or returns having sent all `n`. -/
theorem flush_spec {work : ℕ → α} :
    ∀ {fuel : ℕ} {s : Dispatch α}, (∀ j, s.checked j = true → s.errors j = work j) →
      s.out < n → n - s.out ≤ fuel → s.errorsOut = (List.range s.out).map work →
      ((flush n fuel s).returned = s.returned ∧ (flush n fuel s).out < n ∧
          (flush n fuel s).checked (flush n fuel s).out = false ∧
          (flush n fuel s).errorsOut = (List.range (flush n fuel s).out).map work) ∨
        ((flush n fuel s).returned = true ∧ (flush n fuel s).errorsOut = (List.range n).map work)
  | 0, s, _, hout, hfuel, _ => absurd hfuel (by omega)
  | fuel + 1, s, hw, hout, hfuel, hsent => by
    rw [flush]
    by_cases hc : s.checked s.out = true
    · -- `errors[out]` is sent, then the loop returns or moves on
      have hsent' : s.errorsOut ++ [s.errors s.out] = (List.range (s.out + 1)).map work := by
        rw [hsent, map_range_succ_of_eq (hw _ hc)]
      rw [if_pos hc]
      by_cases hlast : s.out = n - 1
      · rw [if_pos hlast]
        refine Or.inr ⟨rfl, ?_⟩
        rw [hsent', show s.out + 1 = n by omega]
      · rw [if_neg hlast]
        exact flush_spec (s := { s with
          errorsOut := s.errorsOut ++ [s.errors s.out], out := s.out + 1 })
          hw (by simp only; omega) (by simp only; omega) hsent'
    · rw [if_neg hc]
      exact Or.inl ⟨rfl, hout, Bool.eq_false_iff.mpr hc, hsent⟩

/-! ### The invariant -/

/-- What holds in every reachable state of `VerifyHeaders` on `n ≥ 1` headers. -/
structure Inv (n : ℕ) (work : ℕ → α) (s : Dispatch α) : Prop where
  /-- `errors[j]` is final once a worker reports `j`. -/
  written : ∀ j, s.checked j = true ∨ j ∈ s.done ∨ .reporting j ∈ s.workers →
    s.errors j = work j
  /-- Every index handed out is with a worker, in `done`, or checked. -/
  covered : ∀ j < s.input, s.checked j = true ∨ j ∈ s.done ∨ .verifying j ∈ s.workers ∨
    .reporting j ∈ s.workers
  input_le : s.input ≤ n
  inputs_iff : s.inputs = true ↔ s.input < n
  /-- While the dispatcher runs, the results before `out` are sent and `out` is
  not checked. -/
  pending : s.returned = false →
    s.out < n ∧ s.checked s.out = false ∧ s.errorsOut = (List.range s.out).map work
  /-- The dispatcher returns having sent everything, unless `abort` made it. -/
  finished : s.returned = true →
    (s.abort = true ∧ s.errorsOut <+: (List.range n).map work) ∨
      s.errorsOut = (List.range n).map work
  workers_ne : s.workers ≠ []

variable {cap : ℕ} {work : ℕ → α} {s : Dispatch α}

theorem inv_init {procs : ℕ} (nil : α) (hn : 0 < n) (hprocs : 0 < procs) :
    Inv n work (init procs n nil) where
  written j h := by simp [init] at h
  covered j hj := absurd hj (Nat.not_lt_zero j)
  input_le := Nat.zero_le n
  inputs_iff := by simp [init, hn]
  pending _ := ⟨hn, rfl, rfl⟩
  finished h := by cases h
  workers_ne := by
    have hw : 0 < numWorkers procs n := by unfold numWorkers; split_ifs <;> omega
    simpa [init, List.replicate_eq_nil_iff] using Nat.pos_iff_ne_zero.mp hw

/-- The results sent so far are a prefix of all `n`. -/
theorem Inv.errorsOut_isPrefixOf (hinv : Inv n work s) :
    s.errorsOut <+: (List.range n).map work := by
  cases hret : s.returned
  · obtain ⟨hout, -, hsent⟩ := hinv.pending hret
    rw [hsent]
    exact map_range_isPrefixOf work hout.le
  · rcases hinv.finished hret with ⟨-, hpre⟩ | hall
    · exact hpre
    · exact hall ▸ List.prefix_refl _

theorem Inv.send {w : ℕ} (hinv : Inv n work s) (hin : s.inputs = true)
    (hw : s.workers[w]? = some .idle) :
    Inv n work { s with
      workers := s.workers.set w (.verifying s.input), input := s.input + 1,
      inputs := s.input + 1 != n } := by
  have hlt : s.input < n := hinv.inputs_iff.mp hin
  have hwlen : w < s.workers.length := (List.getElem?_eq_some_iff.mp hw).1
  refine ⟨fun j hj => ?_, fun j hj => ?_, by simp only; omega, ?_, hinv.pending,
    hinv.finished, by simpa using hinv.workers_ne⟩
  · -- the new entry is no report
    refine hinv.written j ?_
    rcases hj with hj | hj | hj
    · exact Or.inl hj
    · exact Or.inr (Or.inl hj)
    · rcases List.mem_or_eq_of_mem_set hj with hj | hj
      · exact Or.inr (Or.inr hj)
      · cases hj
  · -- the index just sent is with the worker that took it
    simp only at hj ⊢
    rcases Nat.lt_succ_iff_lt_or_eq.mp hj with hj | rfl
    · rcases hinv.covered j hj with h | h | h | h
      · exact Or.inl h
      · exact Or.inr (Or.inl h)
      · exact Or.inr (Or.inr (Or.inl (List.mem_set_of_ne hw h (by simp) _)))
      · exact Or.inr (Or.inr (Or.inr (List.mem_set_of_ne hw h (by simp) _)))
    · exact Or.inr (Or.inr (Or.inl (List.mem_set hwlen _)))
  · simp only [bne_iff_ne, ne_eq]
    omega

theorem Inv.verify {w i : ℕ} (hinv : Inv n work s) (hw : s.workers[w]? = some (.verifying i)) :
    Inv n work { s with
      errors := Function.update s.errors i (work i), workers := s.workers.set w (.reporting i) } := by
  have hwlen : w < s.workers.length := (List.getElem?_eq_some_iff.mp hw).1
  refine ⟨fun j hj => ?_, fun j hj => ?_, hinv.input_le, hinv.inputs_iff, hinv.pending,
    hinv.finished, by simpa using hinv.workers_ne⟩
  · -- `errors[i]` has just been written; every other entry is as it was
    simp only at hj ⊢
    by_cases hji : j = i
    · rw [hji, Function.update_self]
    · rw [Function.update_of_ne hji]
      refine hinv.written j ?_
      rcases hj with hj | hj | hj
      · exact Or.inl hj
      · exact Or.inr (Or.inl hj)
      · rcases List.mem_or_eq_of_mem_set hj with hj | hj
        · exact Or.inr (Or.inr hj)
        · exact absurd (Worker.reporting.inj hj) hji
  · simp only at hj ⊢
    rcases hinv.covered j hj with h | h | h | h
    · exact Or.inl h
    · exact Or.inr (Or.inl h)
    · by_cases hji : j = i
      · subst hji
        exact Or.inr (Or.inr (Or.inr (List.mem_set hwlen _)))
      · exact Or.inr (Or.inr (Or.inl (List.mem_set_of_ne hw h (by simpa using hji) _)))
    · exact Or.inr (Or.inr (Or.inr (List.mem_set_of_ne hw h (by simp) _)))

theorem Inv.report {w i : ℕ} (hinv : Inv n work s) (hw : s.workers[w]? = some (.reporting i)) :
    Inv n work { s with done := s.done ++ [i], workers := s.workers.set w .idle } := by
  have hmem : Worker.reporting i ∈ s.workers := List.mem_of_getElem? hw
  refine ⟨fun j hj => ?_, fun j hj => ?_, hinv.input_le, hinv.inputs_iff, hinv.pending,
    hinv.finished, by simpa using hinv.workers_ne⟩
  · -- the reported index moves from the worker to `done`
    refine hinv.written j ?_
    simp only [List.mem_append, List.mem_singleton] at hj
    rcases hj with hj | (hj | rfl) | hj
    · exact Or.inl hj
    · exact Or.inr (Or.inl hj)
    · exact Or.inr (Or.inr hmem)
    · rcases List.mem_or_eq_of_mem_set hj with hj | hj
      · exact Or.inr (Or.inr hj)
      · cases hj
  · simp only [List.mem_append, List.mem_singleton]
    rcases hinv.covered j hj with h | h | h | h
    · exact Or.inl h
    · exact Or.inr (Or.inl (Or.inl h))
    · exact Or.inr (Or.inr (Or.inl (List.mem_set_of_ne hw h (by simp) _)))
    · by_cases hji : j = i
      · exact Or.inr (Or.inl (Or.inr hji))
      · exact Or.inr (Or.inr (Or.inr (List.mem_set_of_ne hw h (by simpa using hji) _)))

theorem Inv.receive {i : ℕ} {rest : List ℕ} (hinv : Inv n work s) (hret : s.returned = false)
    (hdone : s.done = i :: rest) :
    Inv n work (flush n n { s with done := rest, checked := Function.update s.checked i true }) := by
  set s₁ : Dispatch α := { s with done := rest, checked := Function.update s.checked i true }
  obtain ⟨hout, -, hsent⟩ := hinv.pending hret
  -- what is checked after the receive is written
  have hw : ∀ j, s₁.checked j = true ∨ j ∈ s₁.done ∨ .reporting j ∈ s₁.workers →
      s₁.errors j = work j := by
    intro j hj
    refine hinv.written j ?_
    simp only [s₁, hdone, List.mem_cons] at hj ⊢
    by_cases hji : j = i
    · exact Or.inr (Or.inl (Or.inl hji))
    · rw [Function.update_of_ne hji] at hj
      rcases hj with hj | hj | hj
      · exact Or.inl hj
      · exact Or.inr (Or.inl (Or.inr hj))
      · exact Or.inr (Or.inr hj)
  have hcov : ∀ j < s₁.input, s₁.checked j = true ∨ j ∈ s₁.done ∨ .verifying j ∈ s₁.workers ∨
      .reporting j ∈ s₁.workers := by
    intro j hj
    simp only [s₁] at hj ⊢
    by_cases hji : j = i
    · exact Or.inl (by rw [hji, Function.update_self])
    · rw [Function.update_of_ne hji]
      rcases hinv.covered j hj with h | h | h | h
      · exact Or.inl h
      · rw [hdone, List.mem_cons] at h
        exact Or.inr (Or.inl (h.resolve_left hji))
      · exact Or.inr (Or.inr (Or.inl h))
      · exact Or.inr (Or.inr (Or.inr h))
  have hspec := flush_spec (fun j hj => hw j (Or.inl hj)) hout (Nat.sub_le n s₁.out) hsent
  obtain ⟨out, errorsOut, returned, hflush⟩ := flush_eq n s₁
  rw [hflush] at hspec ⊢
  refine ⟨hw, hcov, hinv.input_le, hinv.inputs_iff, fun hret' => ?_, fun hret' => ?_,
    hinv.workers_ne⟩
  · rcases hspec with ⟨-, h⟩ | ⟨h, -⟩
    · exact h
    · simp only at hret' h
      rw [hret'] at h
      cases h
  · rcases hspec with ⟨h, -⟩ | ⟨-, h⟩
    · simp only [s₁] at hret' h
      rw [hret', hret] at h
      cases h
    · exact Or.inr h

theorem Inv.quit (hinv : Inv n work s) (hret : s.returned = false) (habort : s.abort = true) :
    Inv n work { s with returned := true } := by
  refine ⟨hinv.written, hinv.covered, hinv.input_le, hinv.inputs_iff, fun h => (by cases h),
    fun _ => Or.inl ⟨habort, ?_⟩, hinv.workers_ne⟩
  obtain ⟨hout, -, hsent⟩ := hinv.pending hret
  rw [hsent]
  exact map_range_isPrefixOf work hout.le

theorem Inv.close (hinv : Inv n work s) : Inv n work { s with abort := true } := by
  refine ⟨hinv.written, hinv.covered, hinv.input_le, hinv.inputs_iff, hinv.pending,
    fun hret => Or.inl ⟨rfl, ?_⟩, hinv.workers_ne⟩
  exact hinv.errorsOut_isPrefixOf

/-- **Every step keeps the invariant.** -/
theorem Inv.step {s' : Dispatch α} (hinv : Inv n work s) (h : Step n cap work s s') :
    Inv n work s' := by
  cases h with
  | send _ hin hw => exact hinv.send hin hw
  | verify hw => exact hinv.verify hw
  | report hw _ => exact hinv.report hw
  | receive hret hdone => exact hinv.receive hret hdone
  | quit hret habort => exact hinv.quit hret habort

theorem Inv.stepOrClose {s' : Dispatch α} (hinv : Inv n work s)
    (h : StepOrClose n cap work s s') : Inv n work s' := by
  rcases h with h | ⟨-, rfl⟩
  · exact hinv.step h
  · exact hinv.close

/-! ### Every run is finite -/

/-- The weight of a worker: the steps it has left before it is idle again. -/
def Worker.weight : Worker → ℕ
  | .idle => 0
  | .verifying _ => 3
  | .reporting _ => 2

/-- The work left: four steps per index not yet handed out, each worker's
weight, one step per index in `done`, the dispatcher's return and the closing
of `abort`. -/
def measure (n : ℕ) (s : Dispatch α) : ℕ :=
  4 * (n - s.input) + (s.workers.map Worker.weight).sum + s.done.length +
    (if s.returned then 0 else 1) + (if s.abort then 0 else 1)

theorem measure_lt_of_step {s' : Dispatch α} (hinv : Inv n work s)
    (h : StepOrClose n cap work s s') : measure n s' < measure n s := by
  rcases h with h | ⟨habort, rfl⟩
  · cases h with
    | send hret hin hw =>
      have hlt := hinv.inputs_iff.mp hin
      have hsum := List.sum_map_set_add Worker.weight hw (.verifying s.input)
      simp only [measure, Worker.weight] at hsum ⊢
      omega
    | @verify _ i hw =>
      have hsum := List.sum_map_set_add Worker.weight hw (.reporting i)
      simp only [measure, Worker.weight] at hsum ⊢
      omega
    | report hw _ =>
      have hsum := List.sum_map_set_add Worker.weight hw .idle
      simp only [measure, Worker.weight, List.length_append, List.length_singleton] at hsum ⊢
      omega
    | @receive i rest hret hdone =>
      obtain ⟨out, errorsOut, returned, hflush⟩ := flush_eq n
        { s with done := rest, checked := Function.update s.checked i true }
      rw [hflush]
      simp only [measure, hdone, hret, List.length_cons, Bool.false_eq_true, if_false]
      split_ifs <;> omega
    | quit hret habort =>
      simp only [measure, hret, habort, Bool.false_eq_true, if_false, if_true]
      omega
  · simp only [measure, habort, Bool.false_eq_true, if_false, if_true]
    split_ifs <;> omega

/-! ### Runs that end -/

/-- **A terminal state is one where the dispatcher has returned**: if it has
not, some worker can move, or the dispatcher can send an index or receive one. -/
theorem returned_of_terminal (hcap : 0 < cap) (hinv : Inv n work s)
    (hterm : Run.Terminal (Step n cap work) s) : s.returned = true := by
  by_contra hret
  rw [Bool.not_eq_true] at hret
  -- no worker is verifying or reporting, and `done` is empty
  have hnv : ∀ j, .verifying j ∉ s.workers := fun j hj => by
    obtain ⟨w, hw⟩ := List.mem_iff_getElem?.mp hj
    exact hterm _ (.verify hw)
  have hdone : s.done = [] := by
    cases hd : s.done with
    | nil => rfl
    | cons i rest => exact absurd (Step.receive hret hd) (hterm _)
  have hnr : ∀ j, .reporting j ∉ s.workers := fun j hj => by
    obtain ⟨w, hw⟩ := List.mem_iff_getElem?.mp hj
    exact hterm _ (.report hw (by rw [hdone]; exact hcap))
  -- so the first worker is idle, and every index has been handed out
  have hidle : s.workers[0]? = some .idle := by
    cases hws : s.workers with
    | nil => exact absurd hws hinv.workers_ne
    | cons x rest =>
      cases x with
      | idle => rfl
      | verifying j => exact absurd (hws ▸ List.mem_cons_self) (hnv j)
      | reporting j => exact absurd (hws ▸ List.mem_cons_self) (hnr j)
  have hinputs : s.inputs = false := by
    cases hin : s.inputs with
    | false => rfl
    | true => exact absurd (Step.send hret hin hidle) (hterm _)
  have hinput : s.input = n := by
    have := hinv.inputs_iff
    have := hinv.input_le
    simp only [hinputs, Bool.false_eq_true, false_iff, not_lt] at *
    omega
  -- every index is checked, `out` among them
  obtain ⟨hout, hchecked, -⟩ := hinv.pending hret
  rcases hinv.covered s.out (hinput ▸ hout) with h | h | h | h
  · rw [hchecked] at h
    cases h
  · rw [hdone] at h
    cases h
  · exact hnv _ h
  · exact hnr _ h

/-- After the dispatcher returns, nothing more is sent. -/
theorem errorsOut_of_returned {s' : Dispatch α} (hret : s.returned = true)
    (h : StepOrClose n cap work s s') : s'.errorsOut = s.errorsOut := by
  rcases h with h | ⟨-, rfl⟩
  · cases h with
    | send hret' => simp [hret] at hret'
    | verify => rfl
    | report => rfl
    | receive hret' => simp [hret] at hret'
    | quit hret' => simp [hret] at hret'
  · rfl

/-- The goroutines alone never close `abort`. -/
theorem abort_of_step {s' : Dispatch α} (h : Step n cap work s s') : s'.abort = s.abort := by
  cases h with
  | receive =>
    obtain ⟨out, errorsOut, returned, hflush⟩ := flush_eq n
      { s with done := _, checked := _ }
    rw [hflush]
  | _ => rfl

theorem numWorkers_pos {procs n : ℕ} (hprocs : 0 < procs) (hn : 0 < n) :
    0 < numWorkers procs n := by
  unfold numWorkers
  split_ifs <;> omega

end Dispatch

open Dispatch in
theorem VerifyHeaders_in_order (keccak256 : List UInt8 → PureChain.Hash)
    (VersaHash : List UInt8 → List UInt8 → List UInt8 → List UInt8) (chain : ChainHeaderReader)
    (inihash : Inihash) (headers : List Header) (seals : List Bool) (unixNow : Int64) (procs : ℕ)
    (hn : headers ≠ []) (hprocs : 0 < procs) :
    (∀ f : ℕ → Dispatch (Except Error Unit), f 0 = init procs headers.length (.ok ()) →
      ¬∀ k, StepOrClose headers.length (numWorkers procs headers.length)
        (fun i => verifyHeaderWorker keccak256 VersaHash chain inihash headers seals i unixNow)
        (f k) (f (k + 1))) ∧
    (∀ s, Relation.ReflTransGen (StepOrClose headers.length (numWorkers procs headers.length)
        (fun i => verifyHeaderWorker keccak256 VersaHash chain inihash headers seals i unixNow))
        (init procs headers.length (.ok ())) s →
      s.errorsOut <+: (List.range headers.length).map
        (fun i => verifyHeaderWorker keccak256 VersaHash chain inihash headers seals i unixNow)) ∧
    (∀ s, Relation.ReflTransGen (Step headers.length (numWorkers procs headers.length)
        (fun i => verifyHeaderWorker keccak256 VersaHash chain inihash headers seals i unixNow))
        (init procs headers.length (.ok ())) s →
      Run.Terminal (Step headers.length (numWorkers procs headers.length)
        (fun i => verifyHeaderWorker keccak256 VersaHash chain inihash headers seals i unixNow)) s →
      s.returned = true ∧ s.errorsOut = (List.range headers.length).map
        (fun i => verifyHeaderWorker keccak256 VersaHash chain inihash headers seals i unixNow)) ∧
    (∀ s s', Relation.ReflTransGen (StepOrClose headers.length (numWorkers procs headers.length)
        (fun i => verifyHeaderWorker keccak256 VersaHash chain inihash headers seals i unixNow))
        (init procs headers.length (.ok ())) s →
      s.returned = true →
      StepOrClose headers.length (numWorkers procs headers.length)
        (fun i => verifyHeaderWorker keccak256 VersaHash chain inihash headers seals i unixNow) s s' →
      s'.errorsOut = s.errorsOut) := by
  have hn' : 0 < headers.length := List.length_pos_iff.mpr hn
  have hinit : Inv headers.length
      (fun i => verifyHeaderWorker keccak256 VersaHash chain inihash headers seals i unixNow)
      (init procs headers.length (Except.ok ())) :=
    inv_init (Except.ok ()) hn' hprocs
  refine ⟨fun f hf => ?_, fun s hs => ?_, fun s hs hterm => ?_, fun s s' _ hret h => ?_⟩
  · -- the work left drops at every step
    exact Run.not_infinite_run (measure headers.length) (fun _ _ hi h => hi.stepOrClose h)
      (fun _ _ hi h => measure_lt_of_step hi h) f (hf ▸ hinit)
  · exact (Run.invariant hinit (fun _ _ hi h => hi.stepOrClose h) hs).errorsOut_isPrefixOf
  · -- without `abort` the dispatcher returns only after the last result
    have hinv := Run.invariant hinit (fun _ _ hi h => hi.step h) hs
    have habort : s.abort = false :=
      Run.invariant (I := fun s : Dispatch _ => s.abort = false) rfl
        (fun _ _ hi h => (abort_of_step h).trans hi) hs
    have hret := returned_of_terminal (numWorkers_pos hprocs hn') hinv hterm
    rcases hinv.finished hret with ⟨habort', -⟩ | hall
    · rw [habort] at habort'
      cases habort'
    · exact ⟨hret, hall⟩
  · exact errorsOut_of_returned hret h

/-- One header, one processor: the run that hands the header out, verifies it,
reports it and receives it ends with the dispatcher returned and the header's
result sent. -/
theorem VerifyHeaders_in_order_one :
    ([Header.zero] ≠ [] ∧ 0 < 1) ∧
    ∃ s, Relation.ReflTransGen (Dispatch.Step 1 (numWorkers 1 1)
        (fun i => verifyHeaderWorker (fun _ => Hash.zero) (fun _ _ _ => [])
          (ChainHeaderReader.ofHeaders MainnetChainConfig (fun _ => Hash.zero) (fun _ => Header.zero) 0)
          ⟨.ModeNormal, 0⟩ [Header.zero] [false] i 0)) (Dispatch.init 1 1 (Except.ok ())) s ∧
      s.returned = true ∧ s.errorsOut = [verifyHeaderWorker (fun _ => Hash.zero) (fun _ _ _ => [])
          (ChainHeaderReader.ofHeaders MainnetChainConfig (fun _ => Hash.zero) (fun _ => Header.zero) 0)
          ⟨.ModeNormal, 0⟩ [Header.zero] [false] 0 0] := by
  refine ⟨⟨List.cons_ne_nil _ _, Nat.one_pos⟩, ?_⟩
  let W : ℕ → Except Error Unit := fun i => verifyHeaderWorker (fun _ => Hash.zero)
    (fun _ _ _ => []) (ChainHeaderReader.ofHeaders MainnetChainConfig (fun _ => Hash.zero)
      (fun _ => Header.zero) 0) ⟨.ModeNormal, 0⟩ [Header.zero] [false] i 0
  -- hand out index 0, verify it, report it, receive it
  have hrun : Relation.ReflTransGen (Dispatch.Step 1 (numWorkers 1 1) W)
      (Dispatch.init 1 1 (Except.ok ())) _ :=
    (((Relation.ReflTransGen.refl.tail (.send (w := 0) rfl rfl rfl)).tail
      (.verify (w := 0) (i := 0) rfl)).tail (.report (w := 0) (i := 0) rfl (by decide))).tail
      (.receive rfl rfl)
  refine ⟨_, hrun, (VerifyHeaders_in_order (fun _ => Hash.zero) (fun _ _ _ => [])
    (ChainHeaderReader.ofHeaders MainnetChainConfig (fun _ => Hash.zero) (fun _ => Header.zero) 0)
    ⟨.ModeNormal, 0⟩ [Header.zero] [false] 0 1 (List.cons_ne_nil _ _) Nat.one_pos).2.2.1 _ hrun
    fun s' h => ?_⟩
  -- the dispatcher has returned and the one worker is idle: nothing can move
  cases h <;> simp_all [Dispatch.flush, Dispatch.init, numWorkers, List.getElem?_cons]

end Inihash

end PureChain
