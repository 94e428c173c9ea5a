import FifteenBit.Notice

/-! What a sequence of computations gives: what its last part gives, or the error of the
first part that fails. -/

namespace FifteenBit

section Except

variable {ε α β : Type} {x : Except ε α} {f : α → Except ε β}

theorem except_bind_eq_ok {b : β} : (x >>= f) = .ok b ↔ ∃ a, x = .ok a ∧ f a = .ok b := by
  cases x <;> simp [bind, Except.bind]

theorem except_bind_eq_error {e : ε} :
    (x >>= f) = .error e ↔ x = .error e ∨ ∃ a, x = .ok a ∧ f a = .error e := by
  cases x <;> simp [bind, Except.bind]

theorem except_mapError_eq_ok {ε' : Type} {g : ε → ε'} {a : α} :
    x.mapError g = .ok a ↔ x = .ok a := by
  constructor
  · intro h
    cases x with
    | error e => cases h
    | ok b => exact congrArg Except.ok (Except.ok.inj h)
  · rintro rfl
    rfl

end Except

namespace Logged

variable {ε α β : Type}

@[simp] theorem result_pure (a : α) : (Pure.pure a : Logged ε α).result = .ok a := rfl

@[simp] theorem result_error (e : ε) : (Logged.error e : Logged ε α).result = .error e := rfl

@[simp] theorem result_ofExcept (r : Except ε α) : (Logged.ofExcept r).result = r := rfl

theorem result_bind (x : Logged ε α) (f : α → Logged ε β) :
    (x >>= f).result = x.result >>= fun a => (f a).result := by
  show (Logged.bind x f).result = _
  cases hx : x.result <;> simp [Logged.bind, hx, Bind.bind, Except.bind]

theorem bind_congr {x : Logged ε α} {f g : α → Logged ε β}
    (h : ∀ a, x.result = .ok a → f a = g a) : (x >>= f) = x >>= g := by
  show Logged.bind x f = Logged.bind x g
  cases hx : x.result with
  | error e => simp only [Logged.bind, hx]
  | ok a => simp only [Logged.bind, hx, h a hx]

theorem log_bind_of_ok {x : Logged ε α} {a : α} (h : x.result = .ok a) (f : α → Logged ε β) :
    (x >>= f).log = x.log ++ (f a).log := by
  show (Logged.bind x f).log = _
  simp only [Logged.bind, h]

theorem log_bind_pure (x : Logged ε α) (f : α → β) :
    (x >>= fun a => Pure.pure (f a)).log = x.log := by
  show (Logged.bind x _).log = _
  cases hx : x.result with
  | error e => simp only [Logged.bind, hx]
  | ok a =>
    simp only [Logged.bind, hx]
    exact List.append_nil _

theorem result_bind_eq_ok {x : Logged ε α} {f : α → Logged ε β} {b : β} :
    (x >>= f).result = .ok b ↔ ∃ a, x.result = .ok a ∧ (f a).result = .ok b := by
  rw [result_bind, except_bind_eq_ok]

theorem result_bind_eq_error {x : Logged ε α} {f : α → Logged ε β} {e : ε} :
    (x >>= f).result = .error e ↔
      x.result = .error e ∨ ∃ a, x.result = .ok a ∧ (f a).result = .error e := by
  rw [result_bind, except_bind_eq_error]

theorem result_bind_pure_eq_error {x : Logged ε α} {f : α → β} {e : ε} :
    (x >>= fun a => Pure.pure (f a)).result = .error e ↔ x.result = .error e := by
  simp [result_bind_eq_error]

end Logged

end FifteenBit
