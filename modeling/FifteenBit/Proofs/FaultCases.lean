import FifteenBit.Proofs.Fetch
import FifteenBit.Proofs.Resolution

/-! The faults of an instruction before it has an effect. They are about its cells and its
operands, and none of them comes from the stack or from the console. -/

namespace FifteenBit

def Fault.ip? : Fault → Option UInt64
  | .stackUnderflow ip | .invalidWriteTarget ip _ | .divisionByZero ip | .invalidOperand ip _
  | .invalidOpcode ip _ | .inputExhausted ip => some ip
  | .invalidAddress _ | .console _ | .machineHalted => none

theorem Instruction.assemble_eq_error {ε : Type} {cell : Nat → Except ε Word} {op : Opcode} {e : ε}
    (h : assemble cell op = .error e) : ∃ k, cell k = .error e := by
  cases op
  case halt | ret | noop => cases h
  case push | pop | jmp | call | out | input =>
    rcases except_bind_eq_error.1 h with h | ⟨_, _, h⟩
    · exact ⟨_, h⟩
    · cases h
  case set | jt | jf | not | rmem | wmem =>
    rcases except_bind_eq_error.1 h with h | ⟨_, _, h⟩
    · exact ⟨_, h⟩
    rcases except_bind_eq_error.1 h with h | ⟨_, _, h⟩
    · exact ⟨_, h⟩
    · cases h
  case eq | gt | add | mult | mod | and | or =>
    rcases except_bind_eq_error.1 h with h | ⟨_, _, h⟩
    · exact ⟨_, h⟩
    rcases except_bind_eq_error.1 h with h | ⟨_, _, h⟩
    · exact ⟨_, h⟩
    rcases except_bind_eq_error.1 h with h | ⟨_, _, h⟩
    · exact ⟨_, h⟩
    · cases h

namespace Machine

/-- The faults of fetching an instruction and of resolving its operands. -/
inductive Rejects (m : Machine) : Fault → Prop
  | address (address : UInt64) : m.Rejects (.invalidAddress address)
  | opcode (raw : Word) : m.Rejects (.invalidOpcode m.ip raw)
  | operand (raw : Word) : m.Rejects (.invalidOperand m.ip raw)
  | target (raw : Word) : m.Rejects (.invalidWriteTarget m.ip raw)
  | divisor : m.Rejects (.divisionByZero m.ip)

section Rejects

variable {m : Machine} {a b c raw : Word} {fault : Fault}

theorem cell_eq_error {address : UInt64} (h : m.cell address = .error fault) :
    fault = .invalidAddress address := by
  cases hw : m.memory[address.toNat]? with
  | some w => simp [cell, hw] at h
  | none =>
    simp only [cell, hw, Except.error.injEq] at h
    exact h.symm

/-- Fetching fails at a cell outside of memory or at a word that is no opcode. -/
theorem fetch_eq_error (h : m.fetch = .error fault) :
    (∃ address, fault = .invalidAddress address) ∨
      ∃ raw, m.cell m.ip = .ok raw ∧ Opcode.ofWord? raw = none ∧
        fault = .invalidOpcode m.ip raw := by
  rcases except_bind_eq_error.1 h with h | ⟨raw, hraw, h⟩
  · exact .inl ⟨_, cell_eq_error h⟩
  · split at h
    · rename_i hop
      exact .inr ⟨raw, hraw, hop, (Except.error.inj h).symm⟩
    · obtain ⟨_, hk⟩ := Instruction.assemble_eq_error h
      exact .inl ⟨_, cell_eq_error hk⟩

theorem rejects_of_cell {address : UInt64} (h : m.cell address = .error fault) :
    m.Rejects fault := by
  rw [cell_eq_error h]
  exact .address address

theorem rejects_of_fetch (h : m.fetch = .error fault) : m.Rejects fault := by
  rcases fetch_eq_error h with ⟨address, rfl⟩ | ⟨raw, _, _, rfl⟩
  · exact .address address
  · exact .opcode raw

theorem rejects_of_operand (h : (m.operand raw).result = .error fault) : m.Rejects fault := by
  rw [(operand_eq_error.1 h).2]
  exact .operand raw

theorem rejects_of_value (h : (m.value raw).result = .error fault) : m.Rejects fault := by
  rw [(value_eq_error.1 h).2]
  exact .operand raw

theorem rejects_of_target (h : (m.target raw).result = .error fault) : m.Rejects fault := by
  rw [(target_eq_error.1 h).2]
  exact .operand raw

theorem rejects_of_combine {f : UInt32 → UInt32 → UInt32}
    (h : (m.combine a b c f).result = .error fault) : m.Rejects fault := by
  rcases Logged.result_bind_eq_error.1 h with h | ⟨_, _, h⟩
  · exact rejects_of_target h
  rcases Logged.result_bind_eq_error.1 h with h | ⟨_, _, h⟩
  · exact rejects_of_value h
  · exact rejects_of_value (Logged.result_bind_pure_eq_error.1 h)

theorem rejects_of_branch {wanted : Bool} (h : (m.branch a b wanted).result = .error fault) :
    m.Rejects fault := by
  rcases Logged.result_bind_eq_error.1 h with h | ⟨_, _, h⟩
  · exact rejects_of_value h
  · split at h
    · exact rejects_of_value (Logged.result_bind_pure_eq_error.1 h)
    · cases h

theorem rejects_of_effect {i : Instruction} (h : (m.effect i).result = .error fault) :
    m.Rejects fault := by
  cases i with
  | halt | ret | noop => cases h
  | set a b =>
    rcases Logged.result_bind_eq_error.1 h with h | ⟨o, _, h⟩
    · exact rejects_of_operand h
    cases o with
    | literal v =>
      cases h
      exact .target a
    | register r => exact rejects_of_value (Logged.result_bind_pure_eq_error.1 h)
  | push a | jmp a | call a | out a =>
    exact rejects_of_value (Logged.result_bind_pure_eq_error.1 h)
  | pop a | input a => exact rejects_of_target (Logged.result_bind_pure_eq_error.1 h)
  | eq a b c | gt a b c | add a b c | mult a b c | and a b c | or a b c =>
    rw [effect] at h
    exact rejects_of_combine h
  | jt a b | jf a b =>
    rw [effect] at h
    exact rejects_of_branch h
  | mod a b c =>
    rcases Logged.result_bind_eq_error.1 h with h | ⟨_, _, h⟩
    · exact rejects_of_value h
    split at h
    · cases h
      exact .divisor
    · exact rejects_of_combine h
  | not a b =>
    rcases Logged.result_bind_eq_error.1 h with h | ⟨_, _, h⟩
    · exact rejects_of_target h
    · exact rejects_of_value (Logged.result_bind_pure_eq_error.1 h)
  | rmem a b =>
    rcases Logged.result_bind_eq_error.1 h with h | ⟨_, _, h⟩
    · exact rejects_of_target h
    rcases Logged.result_bind_eq_error.1 h with h | ⟨_, _, h⟩
    · exact rejects_of_value h
    · exact rejects_of_cell (Logged.result_bind_pure_eq_error.1 h)
  | wmem a b =>
    rcases Logged.result_bind_eq_error.1 h with h | ⟨_, _, h⟩
    · exact rejects_of_value h
    · exact rejects_of_value (Logged.result_bind_pure_eq_error.1 h)

theorem Rejects.ip_eq (h : m.Rejects fault) {ip : UInt64} (hip : fault.ip? = some ip) :
    ip = m.ip := by
  cases h with
  | address => cases hip
  | opcode | operand | target | divisor => exact (Option.some.inj hip).symm

end Rejects

end Machine

end FifteenBit
