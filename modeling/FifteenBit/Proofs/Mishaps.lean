import FifteenBit.Console.Recorder
import FifteenBit.Proofs.Comparison
import FifteenBit.Proofs.FetchCases
import FifteenBit.Proofs.Footprint
import FifteenBit.Proofs.Host
import FifteenBit.Proofs.StepEffect

/-! What cannot go wrong. The machine computes with numbers of bounded size, divides, and stores at
addresses without a check, and on no machine that can be reached does that come to grief. An
address is complained of only if the instruction is not all in memory. -/

namespace FifteenBit

/-- Two computations with like results, of which the first complains of no address. -/
def Comparison.withinMemory : Comparison where
  Holds R x y :=
    (∀ address, x.result ≠ .error (.invalidAddress address)) ∧ Parallel id R x.result y.result
  pure h := ⟨nofun, .ok h⟩
  bind := by
    rintro α β γ δ R S x y u v ⟨hx, hp⟩ hs
    refine ⟨fun address he => ?_, ?_⟩
    · rcases Logged.result_bind_eq_error.1 he with he | ⟨a, ha, he⟩
      · exact hx address he
      · rw [ha] at hp
        obtain ⟨b, _, hab⟩ := hp.of_ok
        exact (hs a b ha hab).1 address he
    · rw [Logged.result_bind, Logged.result_bind]
      exact hp.bind fun a b ha hab => (hs a b ha hab).2

namespace Machine

section Faults

variable {σ : Type} [Console σ] {m : Machine} {c : σ} {address : UInt64}

/-- The address of a cell that is loaded is a value, so there is such a cell. -/
theorem WellFormed.effect_within (hw : m.WellFormed) (i : Instruction) (address : UInt64) :
    (m.effect i).result ≠ .error (.invalidAddress address) := by
  have hcompare : Compares .withinMemory id m m i := by
    refine ⟨rfl, fun raw => ⟨fun address h => ?_, .refl (fun _ => rfl) _⟩,
      fun raw => ⟨nofun, .error (.invalidWriteTarget m.ip raw)⟩,
      ⟨nofun, .error (.divisionByZero m.ip)⟩, ?_⟩
    · have hfault := (operand_eq_error.1 h).2
      cases hfault
    · intro a b x _ hx
      obtain ⟨w, hcell⟩ := cell_of_lt (m := m) (toNat_toUInt64_lt (hw.value_lt hx))
      rw [hcell]
      exact ⟨nofun, .ok rfl⟩
  have heffect := hcompare.effect
  exact heffect.1 address

theorem WellFormed.step_eq_invalidAddress (hw : m.WellFormed) :
    (m.step c).result = .error (.invalidAddress address) ↔
      m.running = true ∧ m.fetch = .error (.invalidAddress address) := by
  constructor
  · intro h
    rcases step_cases m c with ⟨_, hs⟩ | ⟨fault, hr, hf, hs⟩ | ⟨i, fault, _, _, he, hs⟩ |
      ⟨i, e, _, _, _, hs⟩
    · rw [hs] at h
      cases h
    · rw [hs] at h
      obtain rfl : fault = .invalidAddress address := Except.error.inj h
      exact ⟨hr, hf⟩
    · rw [hs] at h
      obtain rfl : fault = .invalidAddress address := Except.error.inj h
      exact absurd he (hw.effect_within i address)
    · rw [hs] at h
      have hp := performs m c (m.ip + i.size.toUInt64) e
      generalize m.perform c (m.ip + i.size.toUInt64) e = s at hp h
      cases hp <;> cases h
  · rintro ⟨hr, hf⟩
    rw [step_of_fetch_error hr hf]
    rfl

end Faults

/-- What could go wrong when the next instruction is run. The computed number is not the exact one
where an address, a result or the address to return to does not fit; a divisor is zero; or there
is no cell to store in. -/
inductive Mishap (m : Machine) : Prop
  | operandAddress {raw : Word} {op : Opcode} {k : Nat} (hc : m.cell m.ip = .ok raw)
      (hop : Opcode.ofWord? raw = some op) (hk : k < op.arity)
      (h : (m.ip + (k + 1).toUInt64).toNat ≠ m.ip.toNat + (k + 1))
  | nextAddress {i : Instruction} (hf : m.fetch = .ok i)
      (h : (m.ip + i.size.toUInt64).toNat ≠ m.ip.toNat + 1 + i.opcode.arity)
  | returnAddress {a : Word} (hf : m.fetch = .ok (.call a))
      (h : (m.ip.toUInt32 + 2).toNat ≠ m.ip.toNat + 2)
  | sum {a b c x y : Word} (hf : m.fetch = .ok (.add a b c)) (hx : (m.value b).result = .ok x)
      (hy : (m.value c).result = .ok y)
      (h : (x.toUInt32 + y.toUInt32).toNat ≠ x.toNat + y.toNat)
  | product {a b c x y : Word} (hf : m.fetch = .ok (.mult a b c))
      (hx : (m.value b).result = .ok x) (hy : (m.value c).result = .ok y)
      (h : (x.toUInt32 * y.toUInt32).toNat ≠ x.toNat * y.toNat)
  | division {a b c : Word} {e : Effect} (hf : m.fetch = .ok (.mod a b c))
      (he : (m.effect (.mod a b c)).result = .ok e) (hy : (m.value c).result = .ok 0)
  | store {i : Instruction} {e : Effect} {address : Word} (hf : m.fetch = .ok i)
      (he : (m.effect i).result = .ok e) (ht : e.target? = some (.memory address))
      (h : 32768 ≤ address.toNat)

variable {m : Machine} {ip : Option UInt64}

theorem WellFormed.not_mishap (hw : m.WellFormed) : ¬ m.Mishap := by
  intro h
  cases h with
  | operandAddress hc _ hk h =>
    have hip : m.ip.toNat < 32768 := (Vector.getElem?_eq_some_iff.1 (cell_eq_ok.1 hc)).1
    exact h (toNat_operand_address hip hk)
  | @nextAddress i hf h =>
    apply h
    rw [toNat_next hf, Instruction.size, Nat.add_assoc]
  | returnAddress hf h =>
    have hend := fetch_end_le hf
    apply h
    rw [UInt32.toNat_add, UInt64.toNat_toUInt32]
    show (m.ip.toNat % 4294967296 + 2) % 4294967296 = m.ip.toNat + 2
    omega
  | @sum a b c x y hf hx hy h =>
    obtain ⟨_, g, hg, hexact⟩ := binary_numbers (i := .add a b c) rfl
    cases hg
    exact h (hexact x y)
  | @product a b c x y hf hx hy h =>
    obtain ⟨_, g, hg, hexact⟩ := binary_numbers (i := .mult a b c) rfl
    cases hg
    exact h (hexact x y)
  | @division a b c e hf he hy =>
    cases resolves_of_effect he with
    | binary hi _ _ hc hz =>
      cases hi
      have hzero : (0 : Word) = _ := Except.ok.inj (hy.symm.trans hc)
      exact hz rfl hzero.symm
  | @store i e address hf he ht h =>
    have hb := hw.effect_bounded he
    cases e with
    | store | pop | read =>
      cases ht
      exact Nat.not_lt.2 h (UInt16.lt_iff_toNat_lt.1 hb)
    | _ => cases ht

/-- On a machine that can be reached nothing goes wrong, and an address is complained of just if
there is no instruction at the instruction pointer or it does not end in memory. -/
theorem Reached.no_mishap (h : Reached ip m) : ¬ m.Mishap ∧
    ∀ {σ : Type} [Console σ] (c : σ) (address : UInt64),
      ((m.step c).result = .error (.invalidAddress address) ↔
        m.running = true ∧ m.fetch = .error (.invalidAddress address)) ∧
      (m.fetch = .error (.invalidAddress address) ↔
        (32768 ≤ m.ip.toNat ∧ address = m.ip) ∨
        ∃ raw op, m.memory[m.ip.toNat]? = some raw ∧ Opcode.ofWord? raw = some op ∧
          32768 ≤ m.ip.toNat + op.arity ∧ address = 32768) := by
  have hw := h.invariant.1
  exact ⟨hw.not_mishap, fun c address => ⟨hw.step_eq_invalidAddress, fetch_eq_invalidAddress⟩⟩

theorem Reached.no_mishap_last_cell :
    ∃ m : Machine, Reached (some 32767) m ∧ m.readMemory? 32767 = some 9 ∧ ¬ m.Mishap ∧
      ∀ c : Recorder, (m.step c).result = .error (.invalidAddress 32768) := by
  obtain ⟨b, hb, hrun⟩ : ∃ b, (boot [] .wrap).result = .ok b ∧ b.running = true := ⟨_, rfl, rfl⟩
  let m : Machine := { b with ip := 32767 }
  have hw : m.WellFormed := (boot_wellFormed hb).of_eq rfl rfl
  have hrestored : (restore m.snapshot m.policy).result = .ok m := restore_eq_ok.2 ⟨hw, rfl, rfl⟩
  let m' : Machine := { m with memory := m.memory.set 32767 9 }
  have hwritten : m.writeMemory 32767 9 = .ok m' := rfl
  have h : Reached (some 32767) m' := .used (.restored hrestored) (.writeMemory hwritten)
  have hcell : m'.memory[m'.ip.toNat]? = some 9 := Vector.getElem?_set_self (by decide)
  have hend : 32768 ≤ m'.ip.toNat + Opcode.add.arity := by
    show 32768 ≤ 32767 + 3
    decide
  obtain ⟨hno, haddress⟩ := Reached.no_mishap h
  refine ⟨m', h, hcell, hno, fun c => ?_⟩
  obtain ⟨hstep, hfetch⟩ := haddress c 32768
  exact hstep.2 ⟨hrun, hfetch.2 (.inr ⟨9, .add, hcell, rfl, hend, rfl⟩)⟩

end Machine

end FifteenBit
