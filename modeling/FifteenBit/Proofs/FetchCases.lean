import FifteenBit.Proofs.FaultCases

/-! All that fetching can come to. It fails at the instruction pointer, at a word that is no
opcode, or at the end of memory, which is the first address where no operand cell is. -/

namespace FifteenBit

/-- Operand cells are fetched in order, so the first one that fails decides. -/
theorem Instruction.assemble_eq_error_first {ε : Type} {cell : Nat → Except ε Word} {op : Opcode}
    {e : ε} (h : assemble cell op = .error e) :
    ∃ k < op.arity, cell (k + 1) = .error e ∧ ∀ j < k, ∃ w, cell (j + 1) = .ok w := by
  have hone {w : Word} (h1 : cell 1 = .ok w) : ∀ j < 1, ∃ w, cell (j + 1) = .ok w := by
    intro j hj
    obtain rfl : j = 0 := Nat.lt_one_iff.1 hj
    exact ⟨w, h1⟩
  cases op
  case halt | ret | noop => cases h
  case push | pop | jmp | call | out | input =>
    rcases except_bind_eq_error.1 h with h | ⟨_, _, h⟩
    · exact ⟨0, Nat.one_pos, h, nofun⟩
    · cases h
  case set | jt | jf | not | rmem | wmem =>
    rcases except_bind_eq_error.1 h with h | ⟨a, ha, h⟩
    · exact ⟨0, Nat.two_pos, h, nofun⟩
    rcases except_bind_eq_error.1 h with h | ⟨_, _, h⟩
    · exact ⟨1, Nat.one_lt_two, h, hone ha⟩
    · cases h
  case eq | gt | add | mult | mod | and | or =>
    rcases except_bind_eq_error.1 h with h | ⟨a, ha, h⟩
    · exact ⟨0, by decide, h, nofun⟩
    rcases except_bind_eq_error.1 h with h | ⟨b, hb, h⟩
    · exact ⟨1, by decide, h, hone ha⟩
    rcases except_bind_eq_error.1 h with h | ⟨_, _, h⟩
    · refine ⟨2, by decide, h, fun j hj => ?_⟩
      obtain hj | rfl : j < 1 ∨ j = 1 := by omega
      · exact hone ha j hj
      · exact ⟨b, hb⟩
    · cases h

theorem Instruction.assemble_operands {ε : Type} {cell : Nat → Except ε Word} {i : Instruction}
    (h : ∀ k w, i.operands[k]? = some w → cell (k + 1) = .ok w) : assemble cell i.opcode = .ok i := by
  cases i with
  | halt | ret | noop => rfl
  | push a | pop a | jmp a | call a | out a | input a =>
    exact except_bind_eq_ok.2 ⟨a, h 0 a rfl, rfl⟩
  | set a b | jt a b | jf a b | not a b | rmem a b | wmem a b =>
    exact except_bind_eq_ok.2 ⟨a, h 0 a rfl, except_bind_eq_ok.2 ⟨b, h 1 b rfl, rfl⟩⟩
  | eq a b c | gt a b c | add a b c | mult a b c | mod a b c | and a b c | or a b c =>
    exact except_bind_eq_ok.2 ⟨a, h 0 a rfl, except_bind_eq_ok.2 ⟨b, h 1 b rfl,
      except_bind_eq_ok.2 ⟨c, h 2 c rfl, rfl⟩⟩⟩

theorem Opcode.ofWord?_word (op : Opcode) : ofWord? op.word = some op := by
  cases op <;> rfl

namespace Machine

variable {m : Machine} {address : UInt64}

theorem cell_of_lt (h : address.toNat < 32768) : ∃ w, m.cell address = .ok w := by
  have hw : m.memory[address.toNat]? = some m.memory[address.toNat] :=
    Vector.getElem?_eq_getElem h
  exact ⟨_, cell_eq_ok.2 hw⟩

theorem cell_of_ge (h : 32768 ≤ address.toNat) : m.cell address = .error (.invalidAddress address) := by
  have hw : m.memory[address.toNat]? = none := Vector.getElem?_eq_none h
  rw [cell, hw]

/-- If operand cells are missing, the first of them is the one after the last cell of memory. -/
theorem assemble_fault {op : Opcode} {fault : Fault} (hip : m.ip.toNat < 32768)
    (h : Instruction.assemble (fun i => m.cell (m.ip + i.toUInt64)) op = .error fault) :
    32768 ≤ m.ip.toNat + op.arity ∧ fault = .invalidAddress 32768 := by
  obtain ⟨k, hk, hfail, hbefore⟩ := Instruction.assemble_eq_error_first h
  have haddress := toNat_operand_address hip hk
  have hge : 32768 ≤ m.ip.toNat + (k + 1) := by
    rw [← haddress]
    refine Nat.le_of_not_lt fun hlt => ?_
    obtain ⟨w, hw⟩ := cell_of_lt (m := m) hlt
    rw [hw] at hfail
    cases hfail
  have hle : m.ip.toNat + k < 32768 := by
    cases k with
    | zero => exact hip
    | succ k =>
      obtain ⟨w, hw⟩ := hbefore k (Nat.lt_succ_self k)
      have hlt := (Vector.getElem?_eq_some_iff.1 (cell_eq_ok.1 hw)).1
      rwa [toNat_operand_address hip (Nat.lt_of_succ_lt hk)] at hlt
  have hend : m.ip + (k + 1).toUInt64 = 32768 := by
    apply UInt64.toNat_inj.1
    rw [haddress]
    show m.ip.toNat + (k + 1) = 32768
    omega
  rw [← hend]
  exact ⟨by omega, cell_eq_error hfail⟩

theorem fetch_cases (m : Machine) :
    (32768 ≤ m.ip.toNat ∧ m.fetch = .error (.invalidAddress m.ip)) ∨
    ∃ raw, m.memory[m.ip.toNat]? = some raw ∧
      ((Opcode.ofWord? raw = none ∧ m.fetch = .error (.invalidOpcode m.ip raw)) ∨
      ∃ op, Opcode.ofWord? raw = some op ∧
        ((32768 ≤ m.ip.toNat + op.arity ∧ m.fetch = .error (.invalidAddress 32768)) ∨
        ∃ i, m.ip.toNat + op.arity < 32768 ∧ i.opcode = op ∧ m.fetch = .ok i)) := by
  by_cases hip : m.ip.toNat < 32768
  · right
    obtain ⟨raw, hraw⟩ := cell_of_lt (m := m) hip
    refine ⟨raw, cell_eq_ok.1 hraw, ?_⟩
    cases hop : Opcode.ofWord? raw with
    | none => exact .inl ⟨rfl, fetch_of_no_opcode hraw hop⟩
    | some op =>
      have hfetch := fetch_of_opcode hraw hop
      refine .inr ⟨op, rfl, ?_⟩
      cases hi : Instruction.assemble (fun i => m.cell (m.ip + i.toUInt64)) op with
      | error fault =>
        obtain ⟨hge, rfl⟩ := assemble_fault hip hi
        exact .inl ⟨hge, hfetch.trans hi⟩
      | ok i =>
        obtain rfl := (Instruction.assemble_eq_ok hi).1
        have hf := hfetch.trans hi
        have hend := fetch_end_le hf
        rw [Instruction.size] at hend
        exact .inr ⟨i, by omega, rfl, hf⟩
  · have hge := Nat.le_of_not_lt hip
    exact .inl ⟨hge, fetch_of_cell_error (cell_of_ge hge)⟩

theorem fetch_eq_invalidAddress : m.fetch = .error (.invalidAddress address) ↔
    (32768 ≤ m.ip.toNat ∧ address = m.ip) ∨
    ∃ raw op, m.memory[m.ip.toNat]? = some raw ∧ Opcode.ofWord? raw = some op ∧
      32768 ≤ m.ip.toNat + op.arity ∧ address = 32768 := by
  have hinside {raw : Word} (h : m.memory[m.ip.toNat]? = some raw) : m.ip.toNat < 32768 :=
    (Vector.getElem?_eq_some_iff.1 h).1
  rcases fetch_cases m with ⟨hge, hf⟩ | ⟨raw, hraw, ⟨hop, hf⟩ | ⟨op, hop, ⟨hge, hf⟩ | ⟨i, hlt, _, hf⟩⟩⟩
  · rw [hf]
    constructor
    · intro h
      cases h
      exact .inl ⟨hge, rfl⟩
    · rintro (⟨_, rfl⟩ | ⟨raw, _, hraw, _⟩)
      · rfl
      · exact absurd (hinside hraw) (Nat.not_lt.2 hge)
  · rw [hf]
    constructor
    · intro h
      cases h
    · rintro (⟨hge, _⟩ | ⟨raw', op, hraw', hop', _⟩)
      · exact absurd (hinside hraw) (Nat.not_lt.2 hge)
      · obtain rfl : raw = raw' := Option.some.inj (hraw.symm.trans hraw')
        rw [hop] at hop'
        cases hop'
  · rw [hf]
    constructor
    · intro h
      cases h
      exact .inr ⟨raw, op, hraw, hop, hge, rfl⟩
    · rintro (⟨hge, _⟩ | ⟨_, _, _, _, _, rfl⟩)
      · exact absurd (hinside hraw) (Nat.not_lt.2 hge)
      · rfl
  · rw [hf]
    constructor
    · intro h
      cases h
    · rintro (⟨hge, _⟩ | ⟨raw', op', hraw', hop', hge, _⟩)
      · exact absurd (hinside hraw) (Nat.not_lt.2 hge)
      · obtain rfl : raw = raw' := Option.some.inj (hraw.symm.trans hraw')
        obtain rfl : op = op' := Option.some.inj (hop.symm.trans hop')
        omega

/-- The words of the instruction stand in memory from the instruction pointer on. -/
def Holds (m : Machine) (i : Instruction) : Prop :=
  ∀ k w, i.words[k]? = some w → m.memory[m.ip.toNat + k]? = some w

theorem fetch_eq_ok {i : Instruction} : m.fetch = .ok i ↔ m.Holds i := by
  constructor
  · intro h k w hk
    exact fetch_words h hk
  · intro h
    have hraw : m.cell m.ip = .ok i.opcode.word := cell_eq_ok.2 (h 0 _ rfl)
    have hip : m.ip.toNat < 32768 := (Vector.getElem?_eq_some_iff.1 (cell_eq_ok.1 hraw)).1
    rw [fetch_of_opcode hraw (Opcode.ofWord?_word i.opcode)]
    refine Instruction.assemble_operands fun k w hk => ?_
    have hlt : k < i.opcode.arity := by
      rw [← Instruction.length_operands]
      exact (List.getElem?_eq_some_iff.1 hk).1
    rw [cell_eq_ok, toNat_operand_address hip hlt]
    exact h (k + 1) w hk

end Machine

end FifteenBit
