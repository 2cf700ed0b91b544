import Mathlib

/-!
# Runs of a transition system

A concurrent program is read as a step relation on its global states: every
goroutine's next atomic action is one possible step, and a run is any sequence
of steps, in whatever order the scheduler picks them. Two facts are used about
every such system.

* `Run.invariant`: a predicate that holds initially and that every step keeps
  holds in every reachable state (`Relation.ReflTransGen`);
* `Run.not_infinite_run`: when a natural-number measure drops at every step out
  of a state of the invariant, no run is infinite, so every run, whatever the
  interleaving, ends in a `Run.Terminal` state, where no step is enabled.

Together with a description of the terminal states they say what every complete
run of the system does. For a sequential component whose calls can fail,
`Run.foldlM_simulates` carries an invariant and an abstraction over every
sequence of calls.

Goroutines that run the same code form a pool, the list of their local states;
two facts about a step of one of them (`List.mem_set_of_ne`,
`List.sum_map_set_add`) carry invariants and measures over the pool.
-/

namespace Run

variable {σ : Type*} (step : σ → σ → Prop)

/-- No step is enabled at `s`. -/
def Terminal (s : σ) : Prop := ∀ s', ¬step s s'

variable {step}

/-- **Inductive invariants** hold in every reachable state. -/
theorem invariant {I : σ → Prop} {s₀ s : σ} (h₀ : I s₀)
    (hstep : ∀ s s', I s → step s s' → I s') (h : Relation.ReflTransGen step s₀ s) : I s := by
  induction h with
  | refl => exact h₀
  | tail _ hst ih => exact hstep _ _ ih hst

/-- Along a run that stays in the invariant, the measure has dropped by at least
the number of steps taken. -/
theorem measure_add_le {I : σ → Prop} (μ : σ → ℕ)
    (hI : ∀ s s', I s → step s s' → I s') (hμ : ∀ s s', I s → step s s' → μ s' < μ s)
    {f : ℕ → σ} (h0 : I (f 0)) (hrun : ∀ k, step (f k) (f (k + 1))) :
    ∀ k, I (f k) ∧ μ (f k) + k ≤ μ (f 0)
  | 0 => ⟨h0, Nat.le_refl _⟩
  | k + 1 => by
    obtain ⟨hk, hle⟩ := measure_add_le μ hI hμ h0 hrun k
    have hdrop := hμ _ _ hk (hrun k)
    exact ⟨hI _ _ hk (hrun k), by omega⟩

/-- **No run is infinite** when a measure drops at every step out of the
invariant. -/
theorem not_infinite_run {I : σ → Prop} (μ : σ → ℕ)
    (hI : ∀ s s', I s → step s s' → I s') (hμ : ∀ s s', I s → step s s' → μ s' < μ s)
    (f : ℕ → σ) (h0 : I (f 0)) : ¬∀ k, step (f k) (f (k + 1)) := by
  intro hrun
  have hle := (measure_add_le μ hI hμ h0 hrun (μ (f 0) + 1)).2
  omega

end Run

/-! ### Runs of a partial step

A sequential component whose calls can fail (a panic, an error) is read as a
step `σ → α → Option σ` folded over its calls, and what it is for as a total
step on abstract states. `Run.foldlM_simulates` is the induction over the calls,
once: a step that, out of a state of the invariant, succeeds, keeps the
invariant and moves the abstraction as the abstract step does, gives a run that
does the same. -/

namespace Run

variable {σ τ α : Type*} {step : σ → α → Option σ} {abs : σ → τ} {absStep : τ → α → τ} {I : σ → Prop}

/-- **A run of a partial step simulates the abstract run.** -/
theorem foldlM_simulates (h : ∀ s a, I s → ∃ s', step s a = some s' ∧ I s' ∧ abs s' = absStep (abs s) a) :
    ∀ (ops : List α) {s : σ}, I s →
      ∃ s', ops.foldlM step s = some s' ∧ I s' ∧ abs s' = ops.foldl absStep (abs s)
  | [], s, hs => ⟨s, rfl, hs, rfl⟩
  | a :: ops, s, hs => by
    obtain ⟨s₁, hstep, hs₁, habs₁⟩ := h s a hs
    obtain ⟨s', hrun, hs', habs'⟩ := foldlM_simulates h ops hs₁
    refine ⟨s', ?_, hs', by rw [habs', habs₁, List.foldl_cons]⟩
    rw [List.foldlM_cons, hstep]
    exact hrun

end Run

/-! ### Pools of processes

Goroutines that run the same code form a pool: the list of their local states,
where a step of one of them sets its entry. -/

namespace List

variable {β : Type*}

/-- A local state another process holds survives a step of process `w`. -/
theorem mem_set_of_ne {l : List β} {w : ℕ} {a b : β} (hw : l[w]? = some b) (ha : a ∈ l)
    (hne : a ≠ b) (c : β) : a ∈ l.set w c := by
  obtain ⟨i, hi, rfl⟩ := List.getElem_of_mem ha
  have hiw : w ≠ i := by
    rintro rfl
    exact hne (Option.some.inj ((List.getElem?_eq_getElem hi).symm.trans hw))
  have hi' : i < (l.set w c).length := by rwa [List.length_set]
  have hmem := List.getElem_mem hi'
  rwa [List.getElem_set_ne hiw] at hmem

/-- A weight summed over the pool changes by what the step of process `w` changes
in its own weight. -/
theorem sum_map_set_add (f : β → ℕ) :
    ∀ {l : List β} {w : ℕ} {b : β}, l[w]? = some b →
      ∀ c, ((l.set w c).map f).sum + f b = (l.map f).sum + f c
  | [], _, _, hw, _ => by simp at hw
  | x :: l, 0, b, hw, c => by
    rw [List.getElem?_cons_zero, Option.some_inj] at hw
    subst hw
    simp only [List.set_cons_zero, List.map_cons, List.sum_cons]
    omega
  | x :: l, w + 1, b, hw, c => by
    rw [List.getElem?_cons_succ] at hw
    have hrest := sum_map_set_add f hw c
    simp only [List.set_cons_succ, List.map_cons, List.sum_cons]
    omega

end List
