import FifteenBit.Machine.Step
import FifteenBit.Proofs.Answers

/-! All that a step can do. Later proofs take a step apart by these cases and do not look
at its definition again. -/

namespace FifteenBit.Machine

variable {σ : Type} [Console σ]

/-- All that putting an effect into force can do; `next` is the address after the instruction. -/
inductive Performs (m : Machine) (c : σ) (next : UInt64) : Effect → Step σ → Prop
  | next : m.Performs c next .next (m.advance c [] next)
  | halt : m.Performs c next .halt (m.halt c .opcode)
  | jump {x : Word} : m.Performs c next (.jump x) (m.advance c [] x.toUInt64)
  | call {x : Word} :
    m.Performs c next (.call x)
      ({ m with stack := wrap (m.ip.toUInt32 + 2) :: m.stack }.advance c [] x.toUInt64)
  | emptyReturn (hs : m.stack = []) : m.Performs c next .ret (m.halt c .emptyReturn)
  | ret {x : Word} {rest : List Word} (hs : m.stack = x :: rest) :
    m.Performs c next .ret ({ m with stack := rest }.advance c [] x.toUInt64)
  | store {t : Target} {n : UInt32} :
    m.Performs c next (.store t n) ((m.store t n).advance c [] next)
  | push {x : Word} :
    m.Performs c next (.push x) ({ m with stack := x :: m.stack }.advance c [] next)
  | underflow {t : Target} (hs : m.stack = []) :
    m.Performs c next (.pop t) (m.fail c [] (.stackUnderflow m.ip))
  | pop {t : Target} {x : Word} {rest : List Word} (hs : m.stack = x :: rest) :
    m.Performs c next (.pop t)
      (({ m with stack := rest }.store t x.toUInt32).advance c [] next)
  | wrote {x : Word} {d : σ} (hc : Console.write c x = (.ok (), d)) :
    m.Performs c next (.write x) (m.advance d [.wrote x] next)
  | refused {x : Word} {reason : String} {d : σ} (hc : Console.write c x = (.error reason, d)) :
    m.Performs c next (.write x) (m.fail d [.refused x reason] (.console reason))
  | pending {t : Target} {x : Word} {rest : List Word} (hp : m.pending = x :: rest) :
    m.Performs c next (.read t)
      (({ m with pending := rest }.store t x.toUInt32).advance c [] next)
  | line {t : Target} {x : Word} {rest : List Word} {readings : List Reading} {d : σ}
      (hp : m.pending = []) (hc : Console.refill c = (.codes x rest, readings, d)) :
    m.Performs c next (.read t)
      (({ m with pending := rest }.store t x.toUInt32).advance d (readings.map .read) next)
  | exhausted {t : Target} {readings : List Reading} {d : σ}
      (hp : m.pending = []) (hc : Console.refill c = (.endOfInput, readings, d)) :
    m.Performs c next (.read t) (m.fail d (readings.map .read) (.inputExhausted m.ip))
  | failed {t : Target} {reason : String} {readings : List Reading} {d : σ}
      (hp : m.pending = []) (hc : Console.refill c = (.failed reason, readings, d)) :
    m.Performs c next (.read t) (m.fail d (readings.map .read) (.console reason))

theorem performs (m : Machine) (c : σ) (next : UInt64) (e : Effect) :
    m.Performs c next e (m.perform c next e) := by
  cases e with
  | next => exact .next
  | halt => exact .halt
  | jump x => exact .jump
  | call x => exact .call
  | ret =>
    cases hs : m.stack with
    | nil => simpa only [perform, hs] using Performs.emptyReturn hs
    | cons x rest => simpa only [perform, hs] using Performs.ret hs
  | store t n => exact .store
  | push x => exact .push
  | pop t =>
    cases hs : m.stack with
    | nil => simpa only [perform, hs] using Performs.underflow hs
    | cons x rest => simpa only [perform, hs] using Performs.pop hs
  | write x =>
    rcases hc : Console.write c x with ⟨_ | _, d⟩
    · simpa only [perform, hc] using Performs.refused hc
    · simpa only [perform, hc] using Performs.wrote hc
  | read t =>
    cases hp : m.pending with
    | cons x rest => simpa only [perform, hp] using Performs.pending hp
    | nil =>
      rcases hc : Console.refill c with ⟨_ | _ | _, readings, d⟩
      · simpa only [perform, hp, hc] using Performs.line hp hc
      · simpa only [perform, hp, hc] using Performs.exhausted hp hc
      · simpa only [perform, hp, hc] using Performs.failed hp hc

def preface (m : Machine) (i : Instruction) : List Notice :=
  .executing (m.traceLine i.opcode i.operands) :: (m.effect i).log

section Step

variable {m : Machine} {i : Instruction} {fault : Fault} {e : Effect}

theorem step_of_not_running (hr : m.running = false) (c : σ) :
    m.step c = ⟨m, c, .error .machineHalted, [], []⟩ := by
  simp [step, hr]

theorem step_of_fetch_error (hr : m.running = true) (hf : m.fetch = .error fault) (c : σ) :
    m.step c = m.fail c [] fault := by
  simp [step, hr, hf]

theorem step_of_effect_error (hr : m.running = true) (hf : m.fetch = .ok i)
    (he : (m.effect i).result = .error fault) (c : σ) :
    m.step c = { m.fail c [] fault with log := m.preface i ++ [.faulted fault] } := by
  simp [step, hr, hf, he, preface, fail]

theorem step_of_effect (hr : m.running = true) (hf : m.fetch = .ok i)
    (he : (m.effect i).result = .ok e) (c : σ) :
    m.step c = { m.perform c (m.ip + i.size.toUInt64) e with
      log := m.preface i ++ (m.perform c (m.ip + i.size.toUInt64) e).log } := by
  simp [step, hr, hf, he, preface]

end Step

theorem step_cases (m : Machine) (c : σ) :
    (m.running = false ∧ m.step c = ⟨m, c, .error .machineHalted, [], []⟩) ∨
    (∃ fault, m.running = true ∧ m.fetch = .error fault ∧ m.step c = m.fail c [] fault) ∨
    (∃ i fault, m.running = true ∧ m.fetch = .ok i ∧ (m.effect i).result = .error fault ∧
      m.step c = { m.fail c [] fault with log := m.preface i ++ [.faulted fault] }) ∨
    (∃ i e, m.running = true ∧ m.fetch = .ok i ∧ (m.effect i).result = .ok e ∧
      m.step c = { m.perform c (m.ip + i.size.toUInt64) e with
        log := m.preface i ++ (m.perform c (m.ip + i.size.toUInt64) e).log }) := by
  cases hr : m.running with
  | false => exact .inl ⟨rfl, step_of_not_running hr c⟩
  | true =>
    refine .inr ?_
    cases hf : m.fetch with
    | error fault => exact .inl ⟨fault, rfl, rfl, step_of_fetch_error hr hf c⟩
    | ok i =>
      refine .inr ?_
      cases he : (m.effect i).result with
      | error fault => exact .inl ⟨i, fault, rfl, rfl, he, step_of_effect_error hr hf he c⟩
      | ok e => exact .inr ⟨i, e, rfl, rfl, he, step_of_effect hr hf he c⟩

/-- A step that fails before its instruction has an effect stops the machine and does not use the
console. -/
theorem refused_or_performed (m : Machine) (c : σ) :
    (∃ fault log, m.step c = ⟨m.abort, c, .error fault, log, []⟩) ∨
    ∃ i e, m.running = true ∧ m.fetch = .ok i ∧ (m.effect i).result = .ok e ∧
      m.step c = { m.perform c (m.ip + i.size.toUInt64) e with
        log := m.preface i ++ (m.perform c (m.ip + i.size.toUInt64) e).log } := by
  rcases step_cases m c with ⟨hr, hs⟩ | ⟨fault, _, _, hs⟩ | ⟨i, fault, _, _, _, hs⟩ | hs
  · have habort : m.abort = m := by rw [abort, ← hr]
    rw [habort]
    exact .inl ⟨_, _, hs⟩
  · exact .inl ⟨_, _, hs⟩
  · exact .inl ⟨_, _, hs⟩
  · exact .inr hs

theorem performed_of_ok {m : Machine} {c : σ} {status : Status}
    (h : (m.step c).result = .ok status) :
    ∃ i e, m.running = true ∧ m.fetch = .ok i ∧ (m.effect i).result = .ok e ∧
      m.step c = { m.perform c (m.ip + i.size.toUInt64) e with
        log := m.preface i ++ (m.perform c (m.ip + i.size.toUInt64) e).log } := by
  rcases refused_or_performed m c with ⟨_, _, hs⟩ | hs
  · rw [hs] at h
    cases h
  · exact hs

section Frame

variable {m : Machine} {c : σ} {next : UInt64} {e : Effect} {s : Step σ}

theorem Performs.running_eq (h : m.Performs c next e s) (hs : s.result = .ok .running) :
    s.machine.running = m.running := by
  cases h with
  | @store t | @pop t | @pending t | @line t => cases t <;> rfl
  | halt | emptyReturn | underflow | refused | exhausted | failed => cases hs
  | _ => rfl

theorem Performs.policy_eq (h : m.Performs c next e s) : s.machine.policy = m.policy := by
  cases h with
  | @store t | @pop t | @pending t | @line t => cases t <;> rfl
  | _ => rfl

theorem Performs.machine_of_stopped (h : m.Performs c next e s)
    (hs : s.result ≠ .ok .running) : s.machine = m.abort := by
  cases h with
  | halt | emptyReturn | underflow | refused | exhausted | failed => rfl
  | _ => exact absurd rfl hs

theorem machine_of_stopped (h : (m.step c).result ≠ .ok .running) :
    (m.step c).machine = m.abort := by
  rcases refused_or_performed m c with ⟨_, _, hs⟩ | ⟨i, e, _, _, _, hs⟩
  · rw [hs]
  · rw [hs] at h ⊢
    exact (performs m c _ e).machine_of_stopped h

theorem step_running (h : (m.step c).result = .ok .running) :
    (m.step c).machine.running = true := by
  obtain ⟨i, e, hr, _, _, hs⟩ := performed_of_ok h
  rw [hs] at h ⊢
  exact ((performs m c _ e).running_eq h).trans hr

theorem step_policy (m : Machine) (c : σ) : (m.step c).machine.policy = m.policy := by
  rcases refused_or_performed m c with ⟨_, _, hs⟩ | ⟨i, e, _, _, _, hs⟩
  · rw [hs]
    rfl
  · rw [hs]
    exact (performs m c _ e).policy_eq

end Frame

theorem Performs.answers {m : Machine} {c : σ} {next : UInt64} {e : Effect} {s : Step σ}
    (h : m.Performs c next e s) : Console.Answers c s.calls s.console := by
  cases h with
  | wrote hc =>
    refine .wrote (by rw [hc]) ?_
    rw [hc]
    exact .nil _
  | refused hc =>
    refine .refused (by rw [hc]) ?_
    rw [hc]
    exact .nil _
  | line _ hc | exhausted _ hc | failed _ hc =>
    have ha := Console.answers_refill c
    rw [hc] at ha
    exact ha
  | _ => exact .nil c

theorem step_answers (m : Machine) (c : σ) :
    Console.Answers c (m.step c).calls (m.step c).console := by
  rcases refused_or_performed m c with ⟨_, _, hs⟩ | ⟨i, e, _, _, _, hs⟩
  · rw [hs]
    exact .nil c
  · rw [hs]
    exact (performs m c _ e).answers

end FifteenBit.Machine
