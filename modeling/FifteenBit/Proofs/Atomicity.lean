import FifteenBit.Console.Script
import FifteenBit.Proofs.FaultCases
import FifteenBit.Proofs.Host

/-! A step that fails or halts changes nothing but that the machine runs no more, and
nothing that its host does makes it run again. -/

namespace FifteenBit.Machine

variable {σ : Type} [Console σ] {m m' : Machine} {c : σ}

/-- The uses of a console by an instruction that has stopped the machine. -/
inductive StoppedCalls (m : Machine) : List Call → Prop
  | unused : m.StoppedCalls []
  | refused {a code : Word} {reason : String} (hf : m.fetch = .ok (.out a))
      (hv : (m.value a).result = .ok code) : m.StoppedCalls [.refused code reason]
  /-- Lines without a code, and then the end of the input or a failure. -/
  | unread {a : Word} {n : Nat} {last : Reading} (hf : m.fetch = .ok (.input a))
      (hp : m.pending = []) (hl : last = .endOfInput ∨ ∃ reason, last = .failed reason) :
    m.StoppedCalls (Call.blanks n ++ [.read last])

theorem Performs.ip_of_fault {next : UInt64} {e : Effect} {s : Step σ} {fault : Fault}
    (h : m.Performs c next e s) (hs : s.result = .error fault) {ip : UInt64}
    (hip : fault.ip? = some ip) : ip = m.ip := by
  cases h with
  | underflow | exhausted =>
    cases hs
    exact (Option.some.inj hip).symm
  | refused | failed =>
    cases hs
    cases hip
  | _ => cases hs

theorem Performs.stoppedCalls {next : UInt64} {e : Effect} {s : Step σ} {i : Instruction}
    (h : m.Performs c next e s) (hf : m.fetch = .ok i) (he : (m.effect i).result = .ok e)
    (hs : s.result ≠ .ok .running) : m.StoppedCalls s.calls := by
  cases h with
  | halt | emptyReturn | underflow => exact .unused
  | refused =>
    cases resolves_of_effect he with
    | out ha => exact .refused hf ha
  | @exhausted t readings d hp hc =>
    cases resolves_of_effect he with
    | input =>
      obtain ⟨n, hn⟩ := Console.refill_calls hc
      show m.StoppedCalls (readings.map .read)
      rw [hn]
      exact .unread hf hp (.inl rfl)
  | @failed t reason readings d hp hc =>
    cases resolves_of_effect he with
    | input =>
      obtain ⟨n, hn⟩ := Console.refill_calls hc
      show m.StoppedCalls (readings.map .read)
      rw [hn]
      exact .unread hf hp (.inr ⟨reason, rfl⟩)
  | _ => exact absurd rfl hs

theorem HostStep.not_running (h : HostStep m m') (hr : m.running = false) :
    m'.running = false := by
  have hstep {σ : Type} [Console σ] (m : Machine) (c : σ) (h : m.running = false) :
      (m.step c).machine.running = false := by
    rw [step_of_not_running h]
    exact h
  cases h with
  | step m c => exact hstep m c hr
  | run h => exact run_preserves hstep h hr
  | setRegister | refused => exact hr
  | writeMemory h =>
    obtain ⟨memory, rfl⟩ := writeMemory_eq_ok h
    exact hr
  | abort => rfl

theorem HostReachable.not_running (h : HostReachable m m') (hr : m.running = false) :
    m'.running = false := by
  induction h with
  | refl => exact hr
  | tail _ h ih => exact h.not_running ih

theorem run_of_not_running (h : m.running = false) (c : σ) (keep : Notice → Bool) (n : Nat)
    (log : Array Notice) : m.run keep (n + 1) c log = some ⟨m, c, .error .machineHalted, log⟩ ∧
      m.calls (n + 1) c = [] := by
  have ho : (m.step c).outcome? = some (.error .machineHalted) := by
    rw [step_of_not_running h]
    rfl
  rw [run_of_stopped ho, calls_of_stopped ho, step_of_not_running h]
  simp

theorem steps_of_not_running (h : m.running = false) (c : σ) (n : Nat) :
    m.steps (n + 1) c = [⟨m, c, .error .machineHalted, [], []⟩] := by
  simp only [steps, step_of_not_running h, Step.outcome?]

theorem run_stopped {keep : Notice → Bool} {n : Nat} {log : Array Notice} {r : Run σ}
    (h : m.run keep n c log = some r) : r.machine.running = false := by
  induction n generalizing m c log with
  | zero => cases h
  | succ n ih =>
    cases ho : (m.step c).outcome? with
    | none =>
      rw [run_of_running ho] at h
      exact ih h
    | some result =>
      have hs : (m.step c).result ≠ .ok .running := by
        intro hs
        rw [Step.outcome?_eq_none_iff.2 hs] at ho
        cases ho
      rw [run_of_stopped ho] at h
      rw [← Option.some.inj h, machine_of_stopped hs, abort]

theorem ip_of_fault {fault : Fault} (h : (m.step c).result = .error fault) {ip : UInt64}
    (hip : fault.ip? = some ip) : ip = m.ip := by
  rcases step_cases m c with ⟨_, hs⟩ | ⟨_, _, hf, hs⟩ | ⟨_, _, _, _, he, hs⟩ |
    ⟨i, e, _, _, _, hs⟩
  · rw [hs] at h
    cases h
    cases hip
  · rw [hs] at h
    cases h
    exact (rejects_of_fetch hf).ip_eq hip
  · rw [hs] at h
    cases h
    exact (rejects_of_effect he).ip_eq hip
  · rw [hs] at h
    exact (performs m c _ e).ip_of_fault h hip

theorem stoppedCalls (h : (m.step c).result ≠ .ok .running) :
    m.StoppedCalls (m.step c).calls := by
  rcases refused_or_performed m c with ⟨_, _, hs⟩ | ⟨i, e, _, hf, he, hs⟩
  · rw [hs]
    exact .unused
  · rw [hs] at h ⊢
    exact (performs m c _ e).stoppedCalls hf he h

/-- What a step leaves behind that stops the machine, and what becomes of the machine then. -/
theorem step_atomic (h : (m.step c).result ≠ .ok .running) :
    (m.step c).machine = { m with running := false } ∧
    (∀ fault ip, (m.step c).result = .error fault → fault.ip? = some ip → ip = m.ip) ∧
    m.StoppedCalls (m.step c).calls ∧ Console.Answers c (m.step c).calls (m.step c).console ∧
    ∀ m', HostReachable (m.step c).machine m' → ∀ (τ : Type) [Console τ] (d : τ),
      m'.step d = ⟨m', d, .error .machineHalted, [], []⟩ ∧
      ∀ keep n log, m'.run keep (n + 1) d log = some ⟨m', d, .error .machineHalted, log⟩ ∧
        m'.calls (n + 1) d = [] := by
  have hm := machine_of_stopped h
  refine ⟨hm, fun _ _ hs => ip_of_fault hs, stoppedCalls h, step_answers m c, ?_⟩
  intro m' hm' τ _ d
  rw [hm] at hm'
  have hr : m'.running = false := HostReachable.not_running hm' rfl
  exact ⟨step_of_not_running hr d, run_of_not_running hr d⟩

theorem step_atomic_refused :
    ∃ m : Machine, (boot [19, 65] .strict).result = .ok m ∧
      (m.step (Script.ofReadings [] (some 0))).result = .error (.console "write refused") ∧
      (m.step (Script.ofReadings [] (some 0))).machine = { m with running := false } := by
  obtain ⟨m, hb, hs⟩ : ∃ m : Machine, (boot [19, 65] .strict).result = .ok m ∧
      (m.step (Script.ofReadings [] (some 0))).result = .error (.console "write refused") :=
    ⟨_, rfl, rfl⟩
  have h : (m.step (Script.ofReadings [] (some 0))).result ≠ .ok .running := by
    rw [hs]
    nofun
  exact ⟨m, hb, hs, (step_atomic h).1⟩

end FifteenBit.Machine
