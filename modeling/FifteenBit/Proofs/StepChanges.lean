import FifteenBit.Console.Script
import FifteenBit.Proofs.CallReturn
import FifteenBit.Proofs.InputStream

/-! What a step changes, over all of the machine and the console. Each instruction has a place
where it stores something, a change of the stack and a use of the console; nothing else becomes
different. -/

namespace FifteenBit

/-- One value is put on the stack or taken off, and the others stay below it. A `ret` finds none
if it halts the machine. -/
def Instruction.StackChange : Instruction → List Word → List Word → Prop
  | .push _, before, after | .call _, before, after => ∃ x, after = x :: before
  | .pop _, before, after => ∃ x, before = x :: after
  | .ret, before, after => (∃ x, before = x :: after) ∨ before = [] ∧ after = []
  | _, before, after => after = before

namespace Machine

variable {σ : Type} [Console σ]

/-- The uses of a console by an instruction that does not fail. -/
def UsesConsole (m : Machine) : Instruction → List Call → Prop
  | .out a, calls => ∃ x, (m.value a).result = .ok x ∧ calls = [.wrote x]
  | .input _, calls =>
    calls = [] ∨ ∃ n x rest, calls = Call.blanks n ++ [.read (.line (x :: rest))]
  | _, calls => calls = []

/-- What is different after an instruction, and that all else is as before. -/
structure Footprint (m : Machine) (c : σ) (i : Instruction) (s : Step σ) : Prop where
  storage : ∀ t, m.destination? i ≠ some t → s.machine.contentOf? t = m.contentOf? t
  unstored : i.opcode ∈ [.jmp, .jt, .jf, .push, .call, .ret, .out, .noop, .halt] →
    s.machine.memory = m.memory ∧ s.machine.registers = m.registers
  stack : i.StackChange m.stack s.machine.stack
  pending : (∀ a, i ≠ .input a) → s.machine.pending = m.pending
  calls : m.UsesConsole i s.calls
  console : Console.Answers c s.calls s.console
  ip : s.result = .ok .running → ¬ m.Jumps i → s.machine.ip.toNat = m.ip.toNat + 1 + i.opcode.arity
  policy : s.machine.policy = m.policy
  running : s.result = .ok .running → s.machine.running = m.running
  halts : s.result ≠ .ok .running ↔ i = .halt ∨ i = .ret ∧ m.stack = []
  halted : s.result ≠ .ok .running →
    s.machine = { m with running := false } ∧ s.console = c ∧ s.calls = []

section Performs

variable {m : Machine} {c : σ} {next : UInt64} {i : Instruction} {e : Effect} {s : Step σ}
  {status : Status}

/-- An instruction that combines two values does nothing besides. -/
theorem binary_plain {operands : Word × Word × Word × (UInt32 → UInt32 → UInt32)}
    (h : i.binary? = some operands) :
    (∀ before after, i.StackChange before after ↔ after = before) ∧
      ∀ calls, m.UsesConsole i calls ↔ calls = [] := by
  cases i with
  | eq | gt | add | mult | mod | and | or => exact ⟨fun _ _ => Iff.rfl, fun _ => Iff.rfl⟩
  | _ => cases h

theorem Performs.stack_change (h : m.Performs c next e s) (hi : m.Resolves i e)
    (hs : s.result = .ok status) : i.StackChange m.stack s.machine.stack := by
  cases hi with
  | push | call =>
    cases h
    exact ⟨_, rfl⟩
  | @pop a t =>
    cases h with
    | underflow => cases hs
    | @pop _ x rest hst =>
      have hrest : ({ m with stack := rest }.store t x.toUInt32).stack = rest := store_stack ..
      exact ⟨x, hst.trans (congrArg (x :: ·) hrest.symm)⟩
  | ret =>
    cases h with
    | emptyReturn hst => exact .inr ⟨hst, hst⟩
    | ret hst => exact .inl ⟨_, hst⟩
  | binary hb =>
    cases h
    exact ((binary_plain hb (m := m)).1 _ _).2 (store_stack ..)
  | set | not | rmem | wmem =>
    cases h
    exact store_stack ..
  | input =>
    cases h with
    | pending | line => exact store_stack ..
    | exhausted | failed => rfl
  | out => cases h <;> rfl
  | _ =>
    cases h
    rfl

theorem Performs.uses_console (h : m.Performs c next e s) (hi : m.Resolves i e)
    (hs : s.result = .ok status) : m.UsesConsole i s.calls := by
  cases hi with
  | out ha =>
    cases h with
    | wrote => exact ⟨_, ha, rfl⟩
    | refused => cases hs
  | input =>
    cases h with
    | pending => exact .inl rfl
    | line _ hc =>
      obtain ⟨n, hn⟩ := Console.refill_calls hc
      exact .inr ⟨n, _, _, hn⟩
    | exhausted | failed => cases hs
  | binary hb =>
    cases h
    exact ((binary_plain hb).2 _).2 rfl
  | ret => cases h <;> rfl
  | pop => cases h <;> rfl
  | _ =>
    cases h
    rfl

theorem Performs.ip_next (h : m.Performs c next e s) (hi : m.Resolves i e)
    (hs : s.result = .ok .running) (hj : ¬ m.Jumps i) : s.machine.ip = next := by
  cases h with
  | jump =>
    cases hi with
    | jmp => exact absurd trivial hj
    | jtTaken ha hx => exact absurd ⟨_, ha, hx⟩ hj
    | jfTaken ha => exact absurd ha hj
  | call =>
    cases hi
    exact absurd trivial hj
  | ret =>
    cases hi
    exact absurd trivial hj
  | halt | emptyReturn | underflow | refused | exhausted | failed => cases hs
  | _ => rfl

theorem Performs.halts_iff (h : m.Performs c next e s) (hi : m.Resolves i e)
    (hs : s.result = .ok status) :
    s.result ≠ .ok .running ↔ i = .halt ∨ i = .ret ∧ m.stack = [] := by
  constructor
  · intro hstopped
    cases h with
    | halt =>
      cases hi
      exact .inl rfl
    | emptyReturn hst =>
      cases hi
      exact .inr ⟨rfl, hst⟩
    | underflow | refused | exhausted | failed => cases hs
    | _ => exact absurd rfl hstopped
  · rintro (rfl | ⟨rfl, hst⟩) hrun
    · cases hi with
      | halt =>
        cases h
        cases hrun
      | binary hb => cases hb
    · cases hi with
      | ret =>
        cases h with
        | emptyReturn => cases hrun
        | ret hst' =>
          rw [hst] at hst'
          cases hst'
      | binary hb => cases hb

theorem Performs.halted (h : m.Performs c next e s) (hs : s.result = .ok status)
    (hstopped : s.result ≠ .ok .running) :
    s.machine = { m with running := false } ∧ s.console = c ∧ s.calls = [] := by
  cases h with
  | halt | emptyReturn => exact ⟨rfl, rfl, rfl⟩
  | underflow | refused | exhausted | failed => cases hs
  | _ => exact absurd rfl hstopped

end Performs

section Step

variable {m : Machine} {c : σ} {i : Instruction}

theorem destination?_eq_none
    (h : i.opcode ∈ [.jmp, .jt, .jf, .push, .call, .ret, .out, .noop, .halt]) :
    m.destination? i = none := by
  cases i with
  | jmp | jt | jf | push | call | ret | out | noop | halt => rfl
  | _ => simp [Instruction.opcode] at h

theorem storage_kept (hf : m.fetch = .ok i) {t : Target} (ht : m.destination? i ≠ some t) :
    (m.step c).machine.contentOf? t = m.contentOf? t := by
  refine step_content_of_not_overwrites ?_
  rintro ⟨_, i', hf', hd⟩
  obtain rfl : i = i' := Except.ok.inj (hf.symm.trans hf')
  exact ht hd

theorem all_storage_kept (hf : m.fetch = .ok i) (hd : m.destination? i = none) :
    (m.step c).machine.memory = m.memory ∧ (m.step c).machine.registers = m.registers := by
  rcases step_storage_cases m c with ⟨t, n, ⟨_, i', hf', hd'⟩, _⟩ | ⟨_, hkept⟩
  · obtain rfl : i = i' := Except.ok.inj (hf.symm.trans hf')
    rw [hd] at hd'
    cases hd'
  · exact hkept

/-- Each step that does not fail is that of the instruction at hand, and changes what this one is to
change. One that halts makes the machine run no more, and that is all. -/
theorem step_footprint {status : Status} (h : (m.step c).result = .ok status) :
    ∃ i, m.fetch = .ok i ∧ m.Footprint c i (m.step c) := by
  obtain ⟨i, e, hr, hf, he, hs⟩ := performed_of_ok h
  have hi := resolves_of_effect he
  have hp := performs m c (m.ip + i.size.toUInt64) e
  have hok : (m.perform c (m.ip + i.size.toUInt64) e).result = .ok status := by rwa [hs] at h
  refine ⟨i, hf, ?_⟩
  constructor
  case storage => exact fun t ht => storage_kept hf ht
  case unstored => exact fun hop => all_storage_kept hf (destination?_eq_none hop)
  case stack =>
    rw [hs]
    exact hp.stack_change hi hok
  case pending =>
    intro hin
    have hno : ¬ m.CompletesInput c := by
      rintro ⟨_, a, ha⟩
      exact hin a (Except.ok.inj (hf.symm.trans ha))
    exact (step_keeps hno).1
  case calls =>
    rw [hs]
    exact hp.uses_console hi hok
  case console => exact step_answers m c
  case ip =>
    rw [hs]
    intro hrun hj
    rw [hp.ip_next hi hrun hj, toNat_next hf, Instruction.size, Nat.add_assoc]
  case policy => exact step_policy m c
  case running => exact fun hrun => (step_running hrun).trans hr.symm
  case halts =>
    rw [hs]
    exact hp.halts_iff hi hok
  case halted =>
    rw [hs]
    exact hp.halted hok

/-- The code that is read goes to the first cell of the program, over the `in` itself. -/
theorem step_footprint_overwriting : ∃ m : Machine, (boot [20, 0, 7] .strict).result = .ok m ∧
    ∀ c : Script, c.readings = [.line [], .line [65, 66]] →
      (m.step c).calls = [.read (.line []), .read (.line [65, 66])] ∧
      (m.step c).machine.ip.toNat = 2 ∧ (m.step c).machine.stack = m.stack ∧
      ∀ t, t ≠ .memory 0 → (m.step c).machine.contentOf? t = m.contentOf? t := by
  obtain ⟨m, hb, hr, hf, hip, hp, he, hd⟩ : ∃ m : Machine,
      (boot [20, 0, 7] .strict).result = .ok m ∧ m.running = true ∧ m.fetch = .ok (.input 0) ∧
      m.ip = 0 ∧ m.pending = [] ∧ (m.effect (.input 0)).result = .ok (.read (.memory 0)) ∧
      m.destination? (.input 0) = some (.memory 0) :=
    ⟨_, rfl, rfl, rfl, rfl, rfl, rfl, rfl⟩
  refine ⟨m, hb, ?_⟩
  intro c hreadings
  have hblank : Console.read c = (.line [], { c with readings := [.line [65, 66]] }) := by
    show Script.read c = _
    rw [Script.read, hreadings]
  have hline : Console.read { c with readings := [.line [65, 66]] } =
      (.line [65, 66], { c with readings := [] }) := rfl
  have hs := step_of_effect hr hf he c
  simp only [perform, hp, Console.refill_of_blank hblank, Console.refill_of_line hline] at hs
  have hrun : (m.step c).result = .ok .running := by
    rw [hs]
    rfl
  obtain ⟨i, hf', hfoot⟩ := step_footprint hrun
  obtain rfl : .input 0 = i := Except.ok.inj (hf.symm.trans hf')
  refine ⟨by rw [hs]; rfl, ?_, hfoot.stack, fun t ht => hfoot.storage t ?_⟩
  · rw [hfoot.ip hrun id, hip]
    rfl
  · intro h
    rw [hd] at h
    exact ht (Option.some.inj h).symm

end Step

end Machine

end FifteenBit
