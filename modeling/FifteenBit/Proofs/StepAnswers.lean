import FifteenBit.Proofs.Alike
import FifteenBit.Proofs.RunCases
import FifteenBit.Proofs.StepCases

/-! A machine sees no more of a console than its answers. On two consoles that are alike it
takes the same steps and comes to the same end. -/

namespace FifteenBit

variable {σ τ : Type}

def Step.on (s : Step σ) (d : τ) : Step τ where
  machine := s.machine
  console := d
  result := s.result
  log := s.log
  calls := s.calls

theorem Step.outcome?_on (s : Step σ) (d : τ) : (s.on d).outcome? = s.outcome? := rfl

namespace Machine

variable [Console σ] [Console τ] {m : Machine} {c c' : σ} {d d' : τ} {next : UInt64}
  {e : Effect}

theorem Performs.of_answers {s : Step σ} (hp : m.Performs c next e s)
    (h : Console.Answers d s.calls d') : m.perform d next e = s.on d' := by
  cases hp with
  | next | halt | jump | call | store | push =>
    cases h
    rfl
  | emptyReturn hs | ret hs | underflow hs | pop hs =>
    cases h
    simp only [perform, hs]
    rfl
  | pending hp =>
    cases h
    simp only [perform, hp]
    rfl
  | @wrote x _ hc =>
    obtain ⟨hw, h⟩ := Console.answers_wrote_cons.1 h
    cases h
    have hd : Console.write d x = (.ok (), (Console.write d x).2) := Prod.ext hw rfl
    rw [perform, hd]
    rfl
  | @refused x reason _ hc =>
    obtain ⟨hw, h⟩ := Console.answers_refused_cons.1 h
    cases h
    have hd : Console.write d x = (.error reason, (Console.write d x).2) := Prod.ext hw rfl
    rw [perform, hd]
    rfl
  | line hp hc | exhausted hp hc | failed hp hc =>
    have ha : Console.Answers d ((Console.refill c).2.1.map .read) d' := by rwa [hc]
    have hr := Console.refill_of_answers ha
    rw [hc] at hr
    simp only [perform, hp, hr]
    rfl

theorem step_of_answers (h : Console.Answers d (m.step c).calls d') :
    m.step d = (m.step c).on d' := by
  rcases step_cases m c with ⟨hr, hs⟩ | ⟨fault, hr, hf, hs⟩ | ⟨i, fault, hr, hf, he, hs⟩ |
    ⟨i, e, hr, hf, he, hs⟩
  · rw [hs] at h ⊢
    cases h
    exact step_of_not_running hr d
  · rw [hs] at h ⊢
    cases h
    exact step_of_fetch_error hr hf d
  · rw [hs] at h ⊢
    cases h
    exact step_of_effect_error hr hf he d
  · rw [hs] at h ⊢
    rw [step_of_effect hr hf he d, (performs m c _ e).of_answers h]
    rfl

theorem step_of_alike (h : Console.Alike c d) :
    ∃ d', m.step d = (m.step c).on d' ∧ Console.Alike (m.step c).console d' := by
  obtain ⟨d', hd, hl⟩ := h.answers (step_answers m c)
  exact ⟨d', step_of_answers hd, hl⟩

section Keeps

variable {R : σ → τ → Prop}

theorem step_of_keeps (hk : Console.Keeps R) (h : R c d) :
    ∃ d', m.step d = (m.step c).on d' ∧ R (m.step c).console d' := by
  obtain ⟨d', hd, hr⟩ := hk.answers h (step_answers m c)
  exact ⟨d', step_of_answers hd, hr⟩

/-- A run on a console comes to the same on a related one, and the consoles that it comes to are
related again. -/
theorem run_of_keeps (hk : Console.Keeps R) (h : R c d) {keep : Notice → Bool} {n : Nat}
    {log : Array Notice} {r : Run σ} (hr : m.run keep n c log = some r) :
    ∃ d', m.run keep n d log = some ⟨r.machine, d', r.result, r.log⟩ ∧ R r.console d' := by
  induction n generalizing m c d log with
  | zero => cases hr
  | succ n ih =>
    obtain ⟨d₁, hd, hR⟩ := step_of_keeps (m := m) hk h
    cases ho : (m.step c).outcome? with
    | none =>
      rw [run_of_running ho] at hr
      rw [run_of_running (by rw [hd, Step.outcome?_on, ho]), hd]
      exact ih hR hr
    | some result =>
      rw [run_of_stopped ho] at hr
      rw [run_of_stopped (by rw [hd, Step.outcome?_on, ho]), hd, ← Option.some.inj hr]
      exact ⟨d₁, rfl, hR⟩

end Keeps

theorem Ends.answers {e : Ending} (h : m.Ends c e c') : Console.Answers c e.calls c' := by
  induction h using Ends.induction with
  | stopped m c result ho => exact step_answers m c
  | running m c e c' ho _ ih => exact (step_answers m c).append ih

theorem Ends.of_alike {e : Ending} (h : m.Ends c e c') (hl : Console.Alike c d) :
    ∃ d', m.Ends d e d' := by
  induction h using Ends.induction generalizing d with
  | stopped m c result ho =>
    obtain ⟨d', hd, _⟩ := step_of_alike (m := m) hl
    have ho' : (m.step d).outcome? = some result := by rw [hd, Step.outcome?_on, ho]
    refine ⟨d', (ends_of_stopped ho').2 ?_⟩
    rw [hd]
    exact ⟨rfl, rfl⟩
  | running m c e c' ho _ ih =>
    obtain ⟨d₁, hd, hl⟩ := step_of_alike (m := m) hl
    have ho' : (m.step d).outcome? = none := by rw [hd, Step.outcome?_on, ho]
    obtain ⟨d', he⟩ := ih hl
    refine ⟨d', (ends_of_running ho').2 ?_⟩
    rw [hd]
    exact ⟨e, he, rfl⟩

end Machine

end FifteenBit
