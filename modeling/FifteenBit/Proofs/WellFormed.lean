import FifteenBit.Proofs.EffectCases
import FifteenBit.Proofs.Fetch
import FifteenBit.Proofs.StepCases

/-! Registers and the stack hold values. Memory and the pending input may hold any words:
what is stored is reduced, and what is not reduced comes from operands, which are bounded. -/

namespace FifteenBit

def Target.Exists : Target → Prop
  | .memory address => address < 32768
  | .register _ => True

/-- What an effect takes for a value is one, and its target exists. -/
def Effect.Bounded : Effect → Prop
  | .jump x | .call x | .push x | .write x => x < 32768
  | .store t _ | .pop t | .read t => t.Exists
  | .next | .halt | .ret => True

theorem RegisterFile.read_write (f : RegisterFile) (r r' : Register) (w : Word) :
    (f.write r w).read r' = if r = r' then w else f.read r' := by
  by_cases h : r = r'
  · subst h
    rw [if_pos rfl, read_write_same]
  · rw [if_neg h, read_write_of_ne f w h]

theorem toNat_toUInt64_lt {x : Word} (h : x < 32768) : x.toUInt64.toNat < 32768 := by
  rw [UInt16.toNat_toUInt64]
  exact UInt16.lt_iff_toNat_lt.1 h

namespace Machine

structure WellFormed (m : Machine) : Prop where
  registers : ∀ r, m.register r < 32768
  stack : ∀ w ∈ m.stack, w < 32768

theorem target_exists {m : Machine} {raw : Word} {t : Target}
    (h : (m.target raw).result = .ok t) : t.Exists := by
  obtain ⟨o, ho, rfl⟩ := target_eq_ok.1 h
  cases o with
  | literal v => exact Operand.literal_lt ho
  | register r => trivial

namespace WellFormed

variable {m : Machine}

theorem value_lt (hw : m.WellFormed) {raw x : Word} (h : (m.value raw).result = .ok x) :
    x < 32768 := by
  obtain ⟨o, ho, rfl⟩ := value_eq_ok.1 h
  cases o with
  | literal v => exact Operand.literal_lt ho
  | register r => exact hw.registers r

theorem effect_bounded (hw : m.WellFormed) {i : Instruction} {e : Effect}
    (h : (m.effect i).result = .ok e) : e.Bounded := by
  cases resolves_of_effect h with
  | halt | jtPassed | jfPassed | ret | noop | set => trivial
  | push ha | jmp ha | call ha | out ha => exact hw.value_lt ha
  | jtTaken _ _ hb | jfTaken _ hb => exact hw.value_lt hb
  | pop ha | binary _ ha | not ha | rmem ha | input ha => exact target_exists ha
  | wmem ha => exact hw.value_lt ha

theorem of_eq (hw : m.WellFormed) {m' : Machine} (hr : m'.registers = m.registers)
    (hs : m'.stack = m.stack) : m'.WellFormed := by
  refine ⟨fun r => ?_, hs ▸ hw.stack⟩
  rw [register, hr]
  exact hw.registers r

theorem setRegister (hw : m.WellFormed) (r : Register) (w : Word) :
    (m.setRegister r w).WellFormed := by
  refine ⟨fun r' => ?_, hw.stack⟩
  show (m.registers.write r (wrap w.toUInt32)).read r' < 32768
  rw [RegisterFile.read_write]
  split
  · exact wrap_lt _
  · exact hw.registers r'

theorem store (hw : m.WellFormed) (t : Target) (n : UInt32) : (m.store t n).WellFormed := by
  cases t with
  | memory address => exact hw.of_eq rfl rfl
  | register r =>
    refine ⟨fun r' => ?_, hw.stack⟩
    show (m.registers.write r (wrap n)).read r' < 32768
    rw [RegisterFile.read_write]
    split
    · exact wrap_lt n
    · exact hw.registers r'

theorem push (hw : m.WellFormed) {x : Word} (hx : x < 32768) :
    ({ m with stack := x :: m.stack } : Machine).WellFormed := by
  refine ⟨hw.registers, fun w hm => ?_⟩
  rcases List.mem_cons.1 hm with rfl | hm
  · exact hx
  · exact hw.stack w hm

theorem pop (hw : m.WellFormed) {x : Word} {rest : List Word} (hs : m.stack = x :: rest) :
    x < 32768 ∧ ({ m with stack := rest } : Machine).WellFormed := by
  have hall := hw.stack
  rw [hs] at hall
  exact ⟨hall x List.mem_cons_self,
    ⟨hw.registers, fun w hm => hall w (List.mem_cons_of_mem x hm)⟩⟩

end WellFormed

theorem boot_eq_ok {image : List Word} {policy : Policy} {m : Machine}
    (h : (boot image policy).result = .ok m) :
    m.registers = RegisterFile.zero ∧ m.stack = [] ∧ m.ip = 0 := by
  by_cases hl : image.length ≤ memorySize
  · rw [boot, dif_pos hl] at h
    cases h
    exact ⟨rfl, rfl, rfl⟩
  · rw [boot, dif_neg hl] at h
    cases h

theorem boot_wellFormed {image : List Word} {policy : Policy} {m : Machine}
    (h : (boot image policy).result = .ok m) : m.WellFormed := by
  obtain ⟨hr, hs, _⟩ := boot_eq_ok h
  constructor
  · intro r
    rw [register, hr, RegisterFile.read, RegisterFile.zero, Fin.getElem_fin, Vector.getElem_replicate]
    decide
  · rw [hs]
    intro w hm
    cases hm

variable {σ : Type} [Console σ] {m : Machine} {c : σ} {next : UInt64} {e : Effect} {s : Step σ}

theorem Performs.wellFormed (h : m.Performs c next e s) (hw : m.WellFormed) (he : e.Bounded) :
    s.machine.WellFormed := by
  cases h with
  | call => exact (hw.push (wrap_lt (m.ip.toUInt32 + 2))).of_eq rfl rfl
  | ret hs => exact (hw.pop hs).2.of_eq rfl rfl
  | store => exact (hw.store _ _).of_eq rfl rfl
  | push => exact (hw.push he).of_eq rfl rfl
  | pop hs => exact ((hw.pop hs).2.store _ _).of_eq rfl rfl
  | @pending t x rest | @line t x rest =>
    have hp : ({ m with pending := rest } : Machine).WellFormed := hw.of_eq rfl rfl
    exact (hp.store t x.toUInt32).of_eq rfl rfl
  | _ => exact hw.of_eq rfl rfl

theorem Performs.ip_cases (h : m.Performs c next e s) (hw : m.WellFormed) (he : e.Bounded) :
    s.machine.ip = m.ip ∨ s.machine.ip = next ∨ s.machine.ip.toNat < 32768 := by
  cases h with
  | jump | call => exact .inr (.inr (toNat_toUInt64_lt he))
  | ret hs => exact .inr (.inr (toNat_toUInt64_lt (hw.pop hs).1))
  | next | store | push | pop | wrote | pending | line => exact .inr (.inl rfl)
  | halt | emptyReturn | underflow | refused | exhausted | failed => exact .inl rfl

theorem WellFormed.step (hw : m.WellFormed) (c : σ) : (m.step c).machine.WellFormed := by
  rcases refused_or_performed m c with ⟨_, _, hs⟩ | ⟨i, e, _, _, he, hs⟩
  · rw [hs]
    exact hw.of_eq rfl rfl
  · rw [hs]
    exact (performs m c _ e).wellFormed hw (hw.effect_bounded he)

theorem WellFormed.step_ip (hw : m.WellFormed) (c : σ) :
    (m.step c).machine.ip = m.ip ∨ (m.step c).machine.ip.toNat ≤ 32768 := by
  rcases refused_or_performed m c with ⟨_, _, hs⟩ | ⟨i, e, _, hf, he, hs⟩
  · rw [hs]
    exact .inl rfl
  · rw [hs]
    rcases (performs m c _ e).ip_cases hw (hw.effect_bounded he) with h | h | h
    · exact .inl h
    · right
      rw [h, toNat_next hf]
      exact fetch_end_le hf
    · exact .inr (Nat.le_of_lt h)

end Machine

end FifteenBit
