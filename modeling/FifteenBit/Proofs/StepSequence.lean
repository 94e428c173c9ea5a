import FifteenBit.Proofs.StepAnswers

/-! The steps of a machine one after the other. They may go on after one that has stopped the
machine. -/

namespace FifteenBit.Machine

variable {σ τ : Type} [Console σ] [Console τ]

/-- The machine and its console after so many steps. -/
def after : Nat → Machine → σ → Machine × σ
  | 0, m, c => (m, c)
  | n + 1, m, c =>
    let (m, c) := after n m c
    ((m.step c).machine, (m.step c).console)

/-- The step that comes after so many others. -/
def nthStep (n : Nat) (m : Machine) (c : σ) : Step σ :=
  (m.after n c).1.step (m.after n c).2

theorem after_succ (n : Nat) (m : Machine) (c : σ) :
    m.after (n + 1) c = ((m.nthStep n c).machine, (m.nthStep n c).console) := rfl

theorem after_preserves {P : Machine → Prop} (hp : ∀ m (c : σ), P m → P (m.step c).machine)
    {m : Machine} (hm : P m) (n : Nat) (c : σ) : P (m.after n c).1 := by
  induction n with
  | zero => exact hm
  | succ n ih => exact hp _ _ ih

theorem after_policy (n : Nat) (m : Machine) (c : σ) : (m.after n c).1.policy = m.policy := by
  have hp (m' : Machine) (c' : σ) (h : m'.policy = m.policy) :
      (m'.step c').machine.policy = m.policy := (step_policy m' c').trans h
  exact after_preserves (P := fun m' => m'.policy = m.policy) hp rfl n c

/-- A map of machines that goes along with each of the steps goes along with all of them. -/
theorem after_map (g : Machine → Machine) {m : Machine} {c : σ} {n : Nat}
    (h : ∀ k < n, ((g (m.after k c).1).step (m.after k c).2).machine = g (m.nthStep k c).machine ∧
      ((g (m.after k c).1).step (m.after k c).2).console = (m.nthStep k c).console) :
    (g m).after n c = (g (m.after n c).1, (m.after n c).2) := by
  induction n with
  | zero => rfl
  | succ n ih =>
    have ih := ih fun k hk => h k (Nat.lt_succ_of_lt hk)
    obtain ⟨hm, hc⟩ := h n (Nat.lt_succ_self n)
    rw [after_succ, after_succ, nthStep, ih]
    exact Prod.ext hm hc

/-- On consoles that are alike all steps are the same. -/
theorem after_of_alike {m : Machine} {c : σ} {d : τ} (h : Console.Alike c d) (n : Nat) :
    (m.after n d).1 = (m.after n c).1 ∧ Console.Alike (m.after n c).2 (m.after n d).2 := by
  induction n with
  | zero => exact ⟨rfl, h⟩
  | succ n ih =>
    obtain ⟨hm, hl⟩ := ih
    obtain ⟨d', hd, hl'⟩ := step_of_alike (m := (m.after n c).1) hl
    have hstep : m.nthStep n d = (m.nthStep n c).on d' := by
      rw [nthStep, hm, hd]
      rfl
    rw [after_succ, after_succ, hstep]
    exact ⟨rfl, hl'⟩

theorem nthStep_of_alike {m : Machine} {c : σ} {d : τ} (h : Console.Alike c d) (n : Nat) :
    ∃ d', m.nthStep n d = (m.nthStep n c).on d' := by
  obtain ⟨hm, hl⟩ := after_of_alike (m := m) h n
  obtain ⟨d', hd, _⟩ := step_of_alike (m := (m.after n c).1) hl
  refine ⟨d', ?_⟩
  rw [nthStep, hm, hd]
  rfl

end FifteenBit.Machine
