import FifteenBit.Console.Recorder
import FifteenBit.Proofs.StepSequence
import FifteenBit.Proofs.Tightening

/-! The two policies side by side. Machines that differ in nothing else take the same steps up
to the first one with a warning, and there the strict one stops. -/

namespace FifteenBit

variable {σ : Type}

def Step.warnings (s : Step σ) : List Notice :=
  s.log.filter fun n => n.level == .warn

/-- The second step comes to the same as the first one, under another policy. -/
structure Step.Agrees (policy : Policy) (s t : Step σ) : Prop where
  result : t.result = s.result
  calls : t.calls = s.calls
  console : t.console = s.console
  machine : t.machine = s.machine.withPolicy policy

/-- The step is stopped by an operand word, and nothing has come of it. -/
structure Step.RefusedAt (m : Machine) (c : σ) (raw : Word) (s : Step σ) : Prop where
  result : s.result = .error (.invalidOperand m.ip raw)
  calls : s.calls = []
  console : s.console = c
  machine : s.machine = { m with running := false }

namespace Machine

variable [Console σ] {m : Machine} {i : Instruction}

theorem perform_warnings (m : Machine) (c : σ) (next : UInt64) (e : Effect) :
    (m.perform c next e).warnings = [] := by
  have hp := performs m c next e
  generalize m.perform c next e = s at hp
  cases hp <;> rfl

theorem step_warnings (hr : m.running = true) (hf : m.fetch = .ok i) (c : σ) :
    (m.step c).warnings = (m.effect i).log.filter fun n => n.level == .warn := by
  have hpreface : (m.preface i).filter (fun n => n.level == .warn) =
      (m.effect i).log.filter fun n => n.level == .warn := rfl
  cases he : (m.effect i).result with
  | error fault =>
    rw [Step.warnings, step_of_effect_error hr hf he, List.filter_append, hpreface]
    exact List.append_nil _
  | ok e =>
    have hp := perform_warnings m c (m.ip + i.size.toUInt64) e
    rw [Step.warnings] at hp ⊢
    rw [step_of_effect hr hf he, List.filter_append, hpreface, hp, List.append_nil]

theorem step_warnings_of_silent (h : ∀ i, m.running = true → m.fetch = .ok i →
    (m.effect i).log = []) (c : σ) : (m.step c).warnings = [] := by
  cases hr : m.running with
  | false =>
    rw [step_of_not_running hr]
    rfl
  | true =>
    cases hf : m.fetch with
    | error fault =>
      rw [step_of_fetch_error hr hf]
      rfl
    | ok i => rw [step_warnings hr hf, h i hr hf, List.filter_nil]

theorem step_tightens (hp : m.policy = .wrap) (c : σ) :
    ((m.step c).warnings = [] ∧
      (m.step c).Agrees .strict ((m.withPolicy .strict).step c)) ∨
    ∃ raw o more, (m.step c).warnings = .normalized raw m.ip o :: more ∧
      ((m.withPolicy .strict).step c).RefusedAt (m.withPolicy .strict) c raw := by
  by_cases h : ∃ i raw o more, m.running = true ∧ m.fetch = .ok i ∧
      (m.effect i).log = .normalized raw m.ip o :: more ∧
      ((m.withPolicy .strict).effect i).result = .error (.invalidOperand m.ip raw)
  · right
    obtain ⟨i, raw, o, more, hr, hf, hl, he⟩ := h
    refine ⟨raw, o, more.filter fun n => n.level == .warn, ?_, ?_⟩
    · rw [step_warnings hr hf, hl]
      rfl
    · rw [step_of_effect_error (m := m.withPolicy .strict) hr hf he]
      exact ⟨rfl, rfl, rfl, rfl⟩
  · left
    have hsilent (i : Instruction) (hr : m.running = true) (hf : m.fetch = .ok i) :
        (m.effect i).log = [] ∧ Parallel id Effect.Same (m.effect i).result
          ((m.withPolicy .strict).effect i).result := by
      rcases (effect_tightens hp i).log_cases with hs | ⟨raw, o, more, hl, he⟩
      · exact hs
      · exact absurd ⟨i, raw, o, more, hr, hf, hl, he⟩ h
    refine ⟨step_warnings_of_silent (fun i hr hf => (hsilent i hr hf).1) c, ?_⟩
    have hs : (m.step c).Recodes id id .strict ((m.recode id .strict).step c) := by
      refine step_recodes (fun _ => rfl) (fun _ _ => rfl) ?_ ?_ c
      · intro _
        rw [recode_id]
        exact .refl (fun i => i.mapOperands_id.symm) m.fetch
      · intro i hr hf
        rw [recode_id, i.mapOperands_id]
        exact (hsilent i hr hf).2
    rw [recode_id] at hs
    refine ⟨?_, hs.calls, hs.console, hs.machine.trans (recode_id _ _)⟩
    rw [hs.result]
    cases (m.step c).result <;> rfl

theorem step_tolerant (hp : m.policy = .wrap) (c : σ) (ip : UInt64) (raw : Word) :
    (m.step c).result ≠ .error (.invalidOperand ip raw) := by
  intro h
  rcases step_cases m c with ⟨_, hs⟩ | ⟨fault, _, hf, hs⟩ | ⟨i, fault, _, _, he, hs⟩ |
    ⟨i, e, _, _, _, hs⟩
  · rw [hs] at h
    cases h
  · rw [hs] at h
    obtain rfl : fault = .invalidOperand ip raw := Except.error.inj h
    rcases fetch_eq_error hf with ⟨_, h⟩ | ⟨_, _, _, h⟩ <;> cases h
  · rw [hs] at h
    obtain rfl : fault = .invalidOperand ip raw := Except.error.inj h
    exact (effect_tightens hp i).tolerant ip raw he
  · rw [hs] at h
    have hperform := performs m c (m.ip + i.size.toUInt64) e
    generalize m.perform c (m.ip + i.size.toUInt64) e = s at h hperform
    cases hperform <;> cases h

theorem step_silent (hp : m.policy = .strict) (c : σ) : (m.step c).warnings = [] :=
  step_warnings_of_silent (fun i _ _ => effect_silent hp i) c

theorem after_withPolicy (hp : m.policy = .wrap) (c : σ) {n : Nat}
    (h : ∀ k < n, (m.nthStep k c).warnings = []) :
    (m.withPolicy .strict).after n c = ((m.after n c).1.withPolicy .strict, (m.after n c).2) := by
  refine after_map (·.withPolicy .strict) fun k hk => ?_
  have hpk : (m.after k c).1.policy = .wrap := (after_policy k m c).trans hp
  rcases step_tightens hpk (m.after k c).2 with ⟨_, ha⟩ | ⟨_, _, _, hw, _⟩
  · exact ⟨ha.machine, ha.console⟩
  · have hsilent := h k hk
    rw [nthStep, hw] at hsilent
    cases hsilent

/-- Up to the first step with a warning the strict machine takes the same steps. There it is
stopped by the word of the first warning, before anything has come of the instruction. -/
theorem strict_until_warning (hp : m.policy = .wrap) (c : σ) :
    (∀ n, (∀ k < n, (m.nthStep k c).warnings = []) →
      ((m.nthStep n c).warnings = [] →
        (m.nthStep n c).Agrees .strict ((m.withPolicy .strict).nthStep n c)) ∧
      ∀ warning more, (m.nthStep n c).warnings = warning :: more →
        ∃ raw o, warning = .normalized raw (m.after n c).1.ip o ∧
          ((m.withPolicy .strict).nthStep n c).RefusedAt ((m.after n c).1.withPolicy .strict)
            (m.after n c).2 raw) ∧
    (∀ n ip raw, (m.nthStep n c).result ≠ .error (.invalidOperand ip raw)) ∧
    ∀ n, ((m.withPolicy .strict).nthStep n c).warnings = [] := by
  refine ⟨?_, ?_, ?_⟩
  · intro n h
    have hpn : (m.after n c).1.policy = .wrap := (after_policy n m c).trans hp
    have hstep : (m.withPolicy .strict).nthStep n c =
        ((m.after n c).1.withPolicy .strict).step (m.after n c).2 := by
      rw [nthStep, after_withPolicy hp c h]
    rw [hstep]
    rcases step_tightens hpn (m.after n c).2 with ⟨hw, ha⟩ | ⟨raw, o, more, hw, hrefused⟩
    · refine ⟨fun _ => ha, ?_⟩
      intro warning more hn
      rw [nthStep, hw] at hn
      cases hn
    · constructor
      · intro hn
        rw [nthStep, hw] at hn
        cases hn
      · intro warning more' hn
        rw [nthStep, hw] at hn
        exact ⟨raw, o, (List.cons.inj hn).1.symm, hrefused⟩
  · intro n
    exact step_tolerant ((after_policy n m c).trans hp) (m.after n c).2
  · intro n
    exact step_silent ((after_policy n (m.withPolicy .strict) c).trans rfl) _

theorem strict_until_warning_divisor :
    ∃ m : Machine, (boot [21, 11, 40001, 5, 40002] .wrap).result = .ok m ∧ ∀ c : Recorder,
      (m.nthStep 0 c).Agrees .strict ((m.withPolicy .strict).nthStep 0 c) ∧
      ((m.withPolicy .strict).nthStep 1 c).result = .error (.invalidOperand 1 40002) := by
  obtain ⟨m, hb, hp, hip, hr, hf, he, hf', hl⟩ : ∃ m : Machine,
      (boot [21, 11, 40001, 5, 40002] .wrap).result = .ok m ∧ m.policy = .wrap ∧ m.ip = 0 ∧
      m.running = true ∧ m.fetch = .ok .noop ∧ m.effect .noop = ⟨[], .ok .next⟩ ∧
      ({ m with ip := 1 } : Machine).fetch = .ok (.mod 40001 5 40002) ∧
      (({ m with ip := 1 } : Machine).effect (.mod 40001 5 40002)).log =
        [.normalized 40002 1 (.literal 7234), .normalized 40001 1 (.literal 7233),
          .normalized 40002 1 (.literal 7234)] := ⟨_, rfl, rfl, rfl, rfl, rfl, rfl, rfl, rfl⟩
  refine ⟨m, hb, fun c => ?_⟩
  have hafter : m.after 1 c = ({ m with ip := 1 }, c) := by
    have hs := step_of_effect hr hf (by rw [he]) c
    rw [after_succ, nthStep, after, hs, hip]
    rfl
  have hw0 : (m.nthStep 0 c).warnings = [] := by
    rw [nthStep, after, step_warnings hr hf, he]
    rfl
  have hw1 : (m.nthStep 1 c).warnings =
      [.normalized 40002 1 (.literal 7234), .normalized 40001 1 (.literal 7233),
        .normalized 40002 1 (.literal 7234)] := by
    rw [nthStep, hafter, step_warnings (m := { m with ip := 1 }) hr hf', hl]
    rfl
  have hsync := (strict_until_warning hp c).1
  refine ⟨(hsync 0 fun k hk => absurd hk (Nat.not_lt_zero k)).1 hw0, ?_⟩
  have hbefore : ∀ k < 1, (m.nthStep k c).warnings = [] := by
    intro k hk
    obtain rfl : k = 0 := by omega
    exact hw0
  obtain ⟨raw, o, hwarning, hrefused⟩ := (hsync 1 hbefore).2 _ _ hw1
  have hresult := hrefused.result
  rw [hafter] at hwarning hresult
  cases hwarning
  exact hresult

end Machine

end FifteenBit
