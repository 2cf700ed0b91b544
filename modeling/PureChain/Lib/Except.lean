import Mathlib

/-!
# Reading a successful `Except` computation backwards

Go functions return a value and an error; they are `Except ε α` here, and
`do`-notation strings their calls together exactly as the `if err != nil {
return … }` idiom does. A proof about such a function starts from `f x = .ok r`
and has to peel it apart: which call returned what, and that no early return was
taken. These are the rules for that, one per way of building a computation, so
that no proof has to unfold the monad.
-/

namespace Except

variable {ε α β : Type _}

theorem bind_eq_ok {x : Except ε α} {f : α → Except ε β} {b : β} :
    (x >>= f) = .ok b ↔ ∃ a, x = .ok a ∧ f a = .ok b := by
  cases x <;> simp [bind, Except.bind]

theorem bind_eq_error {x : Except ε α} {f : α → Except ε β} {e : ε} :
    (x >>= f) = .error e ↔ x = .error e ∨ ∃ a, x = .ok a ∧ f a = .error e := by
  cases x <;> simp [bind, Except.bind]

theorem map_eq_ok {x : Except ε α} {f : α → β} {b : β} :
    (f <$> x) = .ok b ↔ ∃ a, x = .ok a ∧ f a = b := by
  cases x <;> simp [Functor.map, Except.map]

@[simp] theorem throw_bind {e : ε} {f : α → Except ε β} : (throw e >>= f) = throw e := rfl

@[simp] theorem map_throw {e : ε} {f : α → β} : (f <$> (throw e : Except ε α)) = throw e := rfl

@[simp] theorem pure_eq_ok {a b : α} : (pure a : Except ε α) = .ok b ↔ a = b := by
  simp [pure, Except.pure]

@[simp] theorem throw_ne_ok {e : ε} {b : α} : (throw e : Except ε α) ≠ .ok b := by
  simp [throw, throwThe, MonadExceptOf.throw]

@[simp] theorem throw_eq_error {e e' : ε} : (throw e : Except ε α) = .error e' ↔ e = e' := by
  simp [throw, throwThe, MonadExceptOf.throw]

@[simp] theorem pure_ne_error {a : α} {e : ε} : (pure a : Except ε α) ≠ .error e := by
  simp [pure, Except.pure]

@[simp] theorem bind_ok {a : α} {f : α → Except ε β} : (Except.ok a >>= f) = f a := rfl

@[simp] theorem bind_error {e : ε} {f : α → Except ε β} : (Except.error e >>= f) = .error e := rfl

/-- Renaming the error leaves a success as it is. -/
@[simp] theorem mapError_eq_ok {ε' : Type _} {f : ε → ε'} {x : Except ε α} {a : α} :
    x.mapError f = .ok a ↔ x = .ok a := by
  cases x <;> simp [Except.mapError]

@[simp] theorem mapError_ok {ε' : Type _} {f : ε → ε'} {a : α} :
    (Except.ok a : Except ε α).mapError f = .ok a := rfl

@[simp] theorem mapError_error {ε' : Type _} {f : ε → ε'} {e : ε} :
    (Except.error e : Except ε α).mapError f = .error (f e) := rfl

/-- A guard `if c then throw e` lets the computation through exactly when `c`
fails. -/
@[simp] theorem ite_throw_eq_ok {c : Prop} [Decidable c] {e : ε} {x : Except ε α} {b : α} :
    (if c then throw e else x) = .ok b ↔ ¬c ∧ x = .ok b := by
  by_cases c <;> simp [*]

@[simp] theorem ite_else_throw_eq_ok {c : Prop} [Decidable c] {e : ε} {x : Except ε α} {b : α} :
    (if c then x else throw e) = .ok b ↔ c ∧ x = .ok b := by
  by_cases c <;> simp [*]

/-- A `mapM` succeeds when the function succeeds on every element; the results
are in order. -/
theorem mapM_eq_ok {f : α → Except ε β} : ∀ {l : List α} {l' : List β},
    l.mapM f = .ok l' ↔ List.Forall₂ (fun a b => f a = .ok b) l l'
  | [], l' => by cases l' <;> simp [pure, Except.pure]
  | a :: l, l' => by
    rw [List.mapM_cons, List.forall₂_cons_left_iff]
    constructor
    · intro h
      obtain ⟨b, hb, h⟩ := bind_eq_ok.1 h
      obtain ⟨bs, hbs, h⟩ := bind_eq_ok.1 h
      exact ⟨b, bs, hb, mapM_eq_ok.1 hbs, (pure_eq_ok.1 h).symm⟩
    · rintro ⟨b, bs, hb, hbs, rfl⟩
      simp [hb, mapM_eq_ok.2 hbs]

end Except
