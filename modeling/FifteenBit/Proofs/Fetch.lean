import FifteenBit.Machine.Effect
import FifteenBit.Proofs.Logged

/-! What the fetched instruction says about memory: its words stand in the cells from
the instruction pointer on, and the address after them does not wrap. -/

namespace FifteenBit

namespace Opcode

def word : Opcode → Word
  | .halt => 0
  | .set => 1
  | .push => 2
  | .pop => 3
  | .eq => 4
  | .gt => 5
  | .jmp => 6
  | .jt => 7
  | .jf => 8
  | .add => 9
  | .mult => 10
  | .mod => 11
  | .and => 12
  | .or => 13
  | .not => 14
  | .rmem => 15
  | .wmem => 16
  | .call => 17
  | .ret => 18
  | .out => 19
  | .input => 20
  | .noop => 21

theorem word_of_ofWord? {w : Word} {op : Opcode} (h : ofWord? w = some op) : w = op.word := by
  unfold ofWord? at h
  split at h <;> first
    | rw [← Option.some.inj h]; rfl
    | simp at h

theorem arity_le (op : Opcode) : op.arity ≤ 3 := by
  cases op <;> decide

end Opcode

namespace Instruction

def words (i : Instruction) : List Word :=
  i.opcode.word :: i.operands

theorem length_words (i : Instruction) : i.words.length = i.size := by
  simp [words, size, length_operands, Nat.add_comm]

section Assemble

variable {ε : Type} {cell : Nat → Except ε Word} {i : Instruction}

theorem of_one_cell {f : Word → Instruction} (h : (return f (← cell 1)) = Except.ok i) :
    ∃ a, i = f a ∧ cell 1 = .ok a := by
  obtain ⟨a, ha, h⟩ := except_bind_eq_ok.1 h
  exact ⟨a, (Except.ok.inj h).symm, ha⟩

theorem of_two_cells {f : Word → Word → Instruction}
    (h : (return f (← cell 1) (← cell 2)) = Except.ok i) :
    ∃ a b, i = f a b ∧ cell 1 = .ok a ∧ cell 2 = .ok b := by
  obtain ⟨a, ha, h⟩ := except_bind_eq_ok.1 h
  obtain ⟨b, hb, h⟩ := except_bind_eq_ok.1 h
  exact ⟨a, b, (Except.ok.inj h).symm, ha, hb⟩

theorem of_three_cells {f : Word → Word → Word → Instruction}
    (h : (return f (← cell 1) (← cell 2) (← cell 3)) = Except.ok i) :
    ∃ a b c, i = f a b c ∧ cell 1 = .ok a ∧ cell 2 = .ok b ∧ cell 3 = .ok c := by
  obtain ⟨a, ha, h⟩ := except_bind_eq_ok.1 h
  obtain ⟨b, hb, h⟩ := except_bind_eq_ok.1 h
  obtain ⟨c, hc, h⟩ := except_bind_eq_ok.1 h
  exact ⟨a, b, c, (Except.ok.inj h).symm, ha, hb, hc⟩

theorem assemble_eq_ok {op : Opcode} (h : assemble cell op = .ok i) :
    i.opcode = op ∧ ∀ k w, i.operands[k]? = some w → cell (k + 1) = .ok w := by
  cases op
  case halt | ret | noop =>
    rw [← Except.ok.inj h]
    exact ⟨rfl, by simp [operands]⟩
  case push | pop | jmp | call | out | input =>
    obtain ⟨a, rfl, ha⟩ := of_one_cell h
    refine ⟨rfl, fun k w hk => ?_⟩
    rcases k with _ | k <;> simp_all [operands]
  case set | jt | jf | not | rmem | wmem =>
    obtain ⟨a, b, rfl, ha, hb⟩ := of_two_cells h
    refine ⟨rfl, fun k w hk => ?_⟩
    rcases k with _ | _ | k <;> simp_all [operands]
  case eq | gt | add | mult | mod | and | or =>
    obtain ⟨a, b, c, rfl, ha, hb, hc⟩ := of_three_cells h
    refine ⟨rfl, fun k w hk => ?_⟩
    rcases k with _ | _ | _ | k <;> simp_all [operands]

end Assemble

end Instruction

namespace Machine

variable {m : Machine} {i : Instruction}

theorem cell_eq_ok {address : UInt64} {w : Word} :
    m.cell address = .ok w ↔ m.memory[address.toNat]? = some w := by
  cases hw : m.memory[address.toNat]? <;> simp [cell, hw]

theorem fetch_of_opcode {raw : Word} {op : Opcode} (hc : m.cell m.ip = .ok raw)
    (hop : Opcode.ofWord? raw = some op) :
    m.fetch = Instruction.assemble (fun i => m.cell (m.ip + i.toUInt64)) op := by
  simp only [fetch, hc, bind, Except.bind, hop]

theorem fetch_of_no_opcode {raw : Word} (hc : m.cell m.ip = .ok raw)
    (hop : Opcode.ofWord? raw = none) : m.fetch = .error (.invalidOpcode m.ip raw) := by
  simp only [fetch, hc, bind, Except.bind, hop]

theorem fetch_of_cell_error {fault : Fault} (hc : m.cell m.ip = .error fault) :
    m.fetch = .error fault := by
  simp only [fetch, hc, bind, Except.bind]

/-- Operand cells are few, so their addresses do not wrap. -/
theorem toNat_operand_address {op : Opcode} {k : Nat} (hip : m.ip.toNat < 32768)
    (hk : k < op.arity) : (m.ip + (k + 1).toUInt64).toNat = m.ip.toNat + (k + 1) := by
  have ha := op.arity_le
  simp only [UInt64.toNat_add, Nat.toUInt64_eq, UInt64.toNat_ofNat']
  omega

/-- A machine executes the words that stand in its memory from its instruction pointer on. -/
theorem fetch_words (h : m.fetch = .ok i) {k : Nat} {w : Word} (hk : i.words[k]? = some w) :
    m.memory[m.ip.toNat + k]? = some w := by
  obtain ⟨raw, hraw, h⟩ := except_bind_eq_ok.1 h
  rw [cell_eq_ok] at hraw
  have hip : m.ip.toNat < 32768 := (Vector.getElem?_eq_some_iff.1 hraw).1
  cases hop : Opcode.ofWord? raw with
  | none => simp [hop] at h
  | some op =>
    simp only [hop] at h
    obtain ⟨ho, hc⟩ := Instruction.assemble_eq_ok h
    cases k with
    | zero =>
      have hw : i.opcode.word = w := by simpa [Instruction.words] using hk
      rw [← hw, ho, ← Opcode.word_of_ofWord? hop]
      exact hraw
    | succ k =>
      have hk : i.operands[k]? = some w := hk
      have hlt := (List.getElem?_eq_some_iff.1 hk).1
      rw [Instruction.length_operands] at hlt
      have hcell := cell_eq_ok.1 (hc k w hk)
      rwa [toNat_operand_address hip hlt] at hcell

theorem fetch_end_le (h : m.fetch = .ok i) : m.ip.toNat + i.size ≤ 32768 := by
  have hlt : i.opcode.arity < i.words.length := by
    rw [Instruction.length_words, Instruction.size]
    omega
  have hcell := fetch_words h (List.getElem?_eq_getElem hlt)
  have hend : m.ip.toNat + i.opcode.arity < 32768 := (Vector.getElem?_eq_some_iff.1 hcell).1
  rw [Instruction.size]
  omega

theorem toNat_next (h : m.fetch = .ok i) :
    (m.ip + i.size.toUInt64).toNat = m.ip.toNat + i.size := by
  have hle := fetch_end_le h
  simp only [UInt64.toNat_add, Nat.toUInt64_eq, UInt64.toNat_ofNat']
  omega

end Machine

end FifteenBit
