import FifteenBit.Proofs.Logged

/-! Checks that are made one after the other. The first one that is not passed says what is
complained of, and the later ones are not made. -/

namespace FifteenBit

/-- What a check complains of. It is passed if it complains of nothing. -/
abbrev Check (ε : Type) := ε → Prop

namespace Check

variable {ε α β : Type} {k : Check ε} {ks ls : List (Check ε)} {e : ε} {p : Prop}

def Passed (k : Check ε) : Prop :=
  ∀ e, ¬ k e

/-- A check that complains of one thing, under a condition. -/
def when (p : Prop) (e : ε) : Check ε :=
  fun e' => p ∧ e' = e

/-- The complaint of the first check that is not passed. -/
def First : List (Check ε) → Check ε
  | [], _ => False
  | k :: ks, e => k e ∨ k.Passed ∧ First ks e

theorem when_passed : (when p e).Passed ↔ ¬ p := by
  constructor
  · intro h hp
    exact h e ⟨hp, rfl⟩
  · rintro h _ ⟨hp, _⟩
    exact h hp

theorem exists_first_iff : (∃ e, First ks e) ↔ ∃ k ∈ ks, ∃ e, k e := by
  induction ks with
  | nil => simp [First]
  | cons k ks ih =>
    by_cases hk : ∃ e, k e
    · obtain ⟨e, he⟩ := hk
      exact ⟨fun _ => ⟨k, by simp, e, he⟩, fun _ => ⟨e, .inl he⟩⟩
    · have hp : k.Passed := fun e he => hk ⟨e, he⟩
      have hnot (e : ε) : ¬ k e := hp e
      simpa [First, hp, hnot] using ih

theorem all_passed_iff : (∀ k ∈ ks, k.Passed) ↔ ∀ e, ¬ First ks e := by
  rw [← not_exists, exists_first_iff]
  simp [Passed]

theorem first_append :
    First (ks ++ ls) e ↔ First ks e ∨ (∀ k ∈ ks, k.Passed) ∧ First ls e := by
  induction ks with
  | nil => simp [First]
  | cons k ks ih =>
    by_cases hp : k.Passed
    · simp [First, hp, ih, or_assoc]
    · simp [First, hp]

theorem first_singleton : First [k] e ↔ k e := by
  simp [First]

theorem first_when_iff {x : Option ε} (h : ∀ e', x = some e' ↔ First ks e') [Decidable p]
    (e' : ε) : (if p then some e else x) = some e' ↔ First (when p e :: ks) e' := by
  by_cases hp : p
  · simp [First, hp, when_passed, when, eq_comm]
  · simp [First, hp, when_passed, when, h]

/-- A computation fails with the complaint of the first check that is not passed, and only so. -/
def Guards (ks : List (Check ε)) (x : Except ε α) : Prop :=
  ∀ e, x = .error e ↔ First ks e

theorem guards_ok (a : α) : Guards [] (Except.ok a : Except ε α) := by
  intro e
  simp [First]

theorem guards_error (hk : ∀ e', k e' ↔ e' = e) :
    Guards (k :: ks) (Except.error e : Except ε α) := by
  intro e'
  have hnot : ¬ k.Passed := fun h => h e ((hk e).2 rfl)
  simp [First, hk, hnot, eq_comm]

theorem guards_when (e : ε) (hp : p) : Guards (when p e :: ks) (Except.error e : Except ε α) :=
  guards_error fun _ => and_iff_right hp

theorem Guards.all_passed {x : Except ε α} {a : α} (h : Guards ks x) (hx : x = .ok a) :
    ∀ k ∈ ks, k.Passed := by
  rw [all_passed_iff]
  intro e he
  have herror := (h e).2 he
  rw [hx] at herror
  cases herror

/-- The checks of a computation come before those of the one that goes on with its result. -/
theorem Guards.bind {x : Except ε α} {f : α → Except ε β} (hx : Guards ks x)
    (hf : ∀ a, x = .ok a → Guards ls (f a)) : Guards (ks ++ ls) (x >>= f) := by
  intro e
  rw [first_append, except_bind_eq_error, hx e]
  cases hr : x with
  | error e' =>
    have hfirst : First ks e' := (hx e').1 hr
    have hnot : ¬ ∀ k ∈ ks, k.Passed := fun h => all_passed_iff.1 h e' hfirst
    simp [hnot]
  | ok a =>
    have hpassed := hx.all_passed hr
    have hlater := hf a hr e
    simp only [Except.ok.injEq, exists_eq_left']
    rw [hlater, and_iff_right hpassed]

theorem Guards.bind_logged {x : Logged ε α} {f : α → Logged ε β} (hx : Guards ks x.result)
    (hf : ∀ a, x.result = .ok a → Guards ls (f a).result) :
    Guards (ks ++ ls) (x >>= f).result := by
  rw [Logged.result_bind]
  exact hx.bind hf

theorem Guards.map_logged {x : Logged ε α} (hx : Guards ks x.result) (g : α → β) :
    Guards ks (x >>= fun a => Pure.pure (g a)).result := by
  have hg (a : α) : Guards [] (Pure.pure (g a) : Logged ε β).result := guards_ok (g a)
  have h := hx.bind_logged fun a _ => hg a
  rwa [List.append_nil] at h

/-- A check that is passed may be left out. -/
theorem Guards.cons_of_passed {x : Except ε α} (h : Guards ks x) (hk : k.Passed) :
    Guards (k :: ks) x := by
  intro e
  rw [h e]
  simp [First, hk, hk e]

theorem Guards.cons_when {x : Except ε α} (h : Guards ks x) (hp : ¬ p) :
    Guards (when p e :: ks) x :=
  h.cons_of_passed (when_passed.2 hp)

theorem Guards.append_of_passed {x : Except ε α} (h : Guards (ks ++ ls) x)
    (hl : ∀ l ∈ ls, l.Passed) : Guards ks x := by
  intro e
  have hnot := all_passed_iff.1 hl e
  rw [h e, first_append]
  simp [hnot]

end Check

end FifteenBit
