import FifteenBit.Console.Recorder
import FifteenBit.Proofs.StepEffect
import FifteenBit.Proofs.StepSequence
import Mathlib.Logic.Relation

/-! Calls and returns match. A step puts at most one value on the stack or takes one off, so what
a call leaves there stays as long as the stack does not become lower. -/

namespace FifteenBit.Machine

section Stack

variable {σ : Type} [Console σ] {m : Machine} {c : σ}

theorem store_stack (m : Machine) (t : Target) (n : UInt32) : (m.store t n).stack = m.stack := by
  cases t <;> rfl

theorem Performs.stack_cases {next : UInt64} {e : Effect} {s : Step σ}
    (h : m.Performs c next e s) :
    s.machine.stack = m.stack ∨ (∃ x, s.machine.stack = x :: m.stack) ∨
      ∃ x, m.stack = x :: s.machine.stack := by
  cases h with
  | call | push => exact .inr (.inl ⟨_, rfl⟩)
  | ret hs => exact .inr (.inr ⟨_, hs⟩)
  | @pop t x rest hs =>
    refine .inr (.inr ⟨x, ?_⟩)
    have hrest : ({ m with stack := rest }.store t x.toUInt32).stack = rest := store_stack ..
    rw [hs]
    exact congrArg (x :: ·) hrest.symm
  | store | pending | line => exact .inl (store_stack ..)
  | _ => exact .inl rfl

theorem step_stack_cases (m : Machine) (c : σ) :
    (m.step c).machine.stack = m.stack ∨ (∃ x, (m.step c).machine.stack = x :: m.stack) ∨
      ∃ x, m.stack = x :: (m.step c).machine.stack := by
  rcases refused_or_performed m c with ⟨_, _, hs⟩ | ⟨i, e, _, _, _, hs⟩
  · rw [hs]
    exact .inl rfl
  · rw [hs]
    exact (performs m c _ e).stack_cases

end Stack

/-- One step, on any console, that leaves at least so many values on the stack. -/
inductive StepAbove (depth : Nat) : Machine → Machine → Prop
  | step {σ : Type} [Console σ] {m : Machine} {c : σ}
      (hd : depth ≤ (m.step c).machine.stack.length) : StepAbove depth m (m.step c).machine

abbrev ReachableAbove (depth : Nat) :=
  Relation.ReflTransGen (StepAbove depth)

variable {m m' : Machine} {frame : List Word}

theorem StepAbove.frame_suffix (h : StepAbove frame.length m m') (hs : frame <:+ m.stack) :
    frame <:+ m'.stack := by
  cases h with
  | @step σ _ _ c hd =>
    rcases step_stack_cases m c with hst | ⟨x, hst⟩ | ⟨x, hst⟩
    · rw [hst]
      exact hs
    · rw [hst]
      exact hs.trans (List.suffix_cons x m.stack)
    · rw [hst] at hs
      rcases List.suffix_cons_iff.1 hs with he | hs
      · have hlen := congrArg List.length he
        rw [List.length_cons] at hlen
        omega
      · exact hs

theorem ReachableAbove.frame_suffix (h : ReachableAbove frame.length m m')
    (hs : frame <:+ m.stack) : frame <:+ m'.stack := by
  induction h with
  | refl => exact hs
  | tail _ hstep ih => exact hstep.frame_suffix ih

variable {σ τ : Type} [Console σ] [Console τ] {c : σ} {d : τ}

theorem step_of_call {a : Word} (hf : m.fetch = .ok (.call a))
    (h : (m.step c).result = .ok .running) :
    (m.step c).machine.stack = wrap (m.ip.toUInt32 + 2) :: m.stack := by
  obtain ⟨i, e, _, hf', he, hs⟩ := performed_of_ok h
  obtain rfl : Instruction.call a = i := Except.ok.inj (hf.symm.trans hf')
  rw [hs]
  cases resolves_of_effect he with
  | call => rfl
  | binary hi => cases hi

theorem step_of_ret {x : Word} {rest : List Word} (hr : m.running = true)
    (hf : m.fetch = .ok .ret) (hs : m.stack = x :: rest) (d : τ) :
    (m.step d).result = .ok .running ∧ (m.step d).machine.ip = x.toUInt64 ∧
      (m.step d).machine.stack = rest := by
  rw [step_of_effect hr hf rfl d, perform, hs]
  exact ⟨rfl, rfl, rfl⟩

/-- As long as the stack does not become lower than a call has left it, the address after the call
lies where the call has put it. A return from that height goes there and leaves the stack as it
was before the call. -/
theorem call_return {a : Word} (hf : m.fetch = .ok (.call a))
    (h : (m.step c).result = .ok .running) :
    ∃ back : Word, back.toNat = (m.ip.toNat + 2) % 32768 ∧
      ∀ m', ReachableAbove (m.stack.length + 1) (m.step c).machine m' →
        back :: m.stack <:+ m'.stack ∧
        ∀ {τ : Type} [Console τ] (d : τ), m'.running = true → m'.fetch = .ok .ret →
          m'.stack.length = m.stack.length + 1 →
          (m'.step d).result = .ok .running ∧
            (m'.step d).machine.ip.toNat = (m.ip.toNat + 2) % 32768 ∧
            (m'.step d).machine.stack = m.stack := by
  have hback := toNat_wrap_ip hf
  refine ⟨wrap (m.ip.toUInt32 + 2), hback, fun m' hm' => ?_⟩
  have hframe : wrap (m.ip.toUInt32 + 2) :: m.stack <:+ m'.stack := by
    have hcalled := step_of_call hf h
    exact ReachableAbove.frame_suffix hm' ⟨[], hcalled.symm⟩
  refine ⟨hframe, fun d hr hret hlen => ?_⟩
  have hst := hframe.eq_of_length hlen.symm
  obtain ⟨hrun, hip, hstack⟩ := step_of_ret hr hret hst.symm d
  refine ⟨hrun, ?_, hstack⟩
  rw [hip, UInt16.toNat_toUInt64, hback]

theorem call_return_nested :
    ∃ m : Machine, (boot [17, 3, 0, 17, 6, 18, 18] .wrap).result = .ok m ∧ ∀ c : Recorder,
      (m.after 2 c).1.stack = [5, 2] ∧ (m.after 3 c).1.fetch = .ok .ret ∧
      (m.after 4 c).1.ip.toNat = 2 ∧ (m.after 4 c).1.stack = [] := by
  obtain ⟨m, hb, hr, hip, hst, hf, he, hf', he', hret, hret'⟩ : ∃ m : Machine,
      (boot [17, 3, 0, 17, 6, 18, 18] .wrap).result = .ok m ∧ m.running = true ∧ m.ip = 0 ∧
      m.stack = [] ∧ m.fetch = .ok (.call 3) ∧ (m.effect (.call 3)).result = .ok (.call 3) ∧
      ({ m with ip := 3, stack := [2] } : Machine).fetch = .ok (.call 6) ∧
      (({ m with ip := 3, stack := [2] } : Machine).effect (.call 6)).result = .ok (.call 6) ∧
      ({ m with ip := 6, stack := [5, 2] } : Machine).fetch = .ok .ret ∧
      ({ m with ip := 5, stack := [2] } : Machine).fetch = .ok .ret :=
    ⟨_, rfl, rfl, rfl, rfl, rfl, rfl, rfl, rfl, rfl, rfl⟩
  refine ⟨m, hb, fun c => ?_⟩
  have hs := step_of_effect hr hf he c
  have h1 : m.after 1 c = ({ m with ip := 3, stack := [2] }, c) := by
    rw [after_succ, nthStep, after, hs, perform, hip, hst]
    rfl
  have h2 : m.after 2 c = ({ m with ip := 6, stack := [5, 2] }, c) := by
    rw [after_succ, nthStep, h1, step_of_effect (m := { m with ip := 3, stack := [2] }) hr hf' he' c]
    rfl
  have h3 : m.after 3 c = ({ m with ip := 5, stack := [2] }, c) := by
    rw [after_succ, nthStep, h2, step_of_effect (m := { m with ip := 6, stack := [5, 2] }) hr hret rfl c]
    rfl
  have hcalled : (m.step c).result = .ok .running := by
    rw [hs]
    rfl
  have habove : ReachableAbove (m.stack.length + 1) (m.step c).machine (m.after 3 c).1 := by
    have hone : m.stack.length + 1 = 1 := by rw [hst]; rfl
    have hd2 : 1 ≤ (m.after 2 c).1.stack.length := by rw [h2]; exact Nat.le_succ 1
    have hd3 : 1 ≤ (m.after 3 c).1.stack.length := by rw [h3]; exact Nat.le_refl 1
    rw [hone]
    exact .tail (.tail .refl (.step hd2)) (.step hd3)
  obtain ⟨_, _, hreturn⟩ := call_return hf hcalled
  obtain ⟨_, hret₃⟩ := hreturn _ habove
  have hlen : (m.after 3 c).1.stack.length = m.stack.length + 1 := by rw [h3, hst]; rfl
  rw [h3] at hret₃ hlen
  obtain ⟨_, hip₄, hst₄⟩ := hret₃ c hr hret' hlen
  have h4 : (m.after 4 c).1 = (({ m with ip := 5, stack := [2] } : Machine).step c).machine := by
    rw [after_succ, nthStep, h3]
  rw [h2, h3, h4, hip₄, hst₄, hip, hst]
  exact ⟨rfl, hret', rfl, rfl⟩

end FifteenBit.Machine
