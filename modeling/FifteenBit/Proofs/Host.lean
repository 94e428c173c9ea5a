import FifteenBit.Proofs.RunCases
import FifteenBit.Proofs.SnapshotRestore
import Mathlib.Logic.Relation

/-! All that a host can do with a machine, and what holds of a machine after it. -/

namespace FifteenBit.Machine

/-- One use of a machine by its host, on any console. -/
inductive HostStep : Machine → Machine → Prop
  | step {σ : Type} [Console σ] (m : Machine) (c : σ) : HostStep m (m.step c).machine
  | run {σ : Type} [Console σ] {keep : Notice → Bool} {n : Nat} {m : Machine} {c : σ}
      {log : Array Notice} {r : Run σ} (h : m.run keep n c log = some r) : HostStep m r.machine
  | setRegister (m : Machine) (r : Register) (w : Word) : HostStep m (m.setRegister r w)
  | writeMemory {m m' : Machine} {address w : Word} (h : m.writeMemory address w = .ok m') :
    HostStep m m'
  | refused {m : Machine} {address w : Word} {fault : Fault}
      (h : m.writeMemory address w = .error fault) : HostStep m m
  | abort (m : Machine) : HostStep m m.abort

abbrev HostReachable :=
  Relation.ReflTransGen HostStep

/-- Machines that are booted or restored, and then used, saved and restored again. With
them goes the instruction pointer of the snapshot that was restored last, if there is one. -/
inductive Reached : Option UInt64 → Machine → Prop
  | booted {image : List Word} {policy : Policy} {m : Machine}
      (h : (boot image policy).result = .ok m) : Reached none m
  | restored {s : Snapshot} {policy : Policy} {m : Machine}
      (h : (restore s policy).result = .ok m) : Reached (some s.ip) m
  | used {ip : Option UInt64} {m m' : Machine} (hm : Reached ip m) (h : HostStep m m') :
    Reached ip m'
  | resumed {ip : Option UInt64} {policy : Policy} {m m' : Machine} (hm : Reached ip m)
      (h : (restore m.snapshot policy).result = .ok m') : Reached (some m.ip) m'

variable {m m' : Machine} {ip : Option UInt64}

theorem writeMemory_eq_ok {address w : Word} (h : m.writeMemory address w = .ok m') :
    ∃ memory, m' = { m with memory := memory } := by
  by_cases ha : address.toNat < memorySize
  · rw [writeMemory, dif_pos ha] at h
    exact ⟨_, (Except.ok.inj h).symm⟩
  · rw [writeMemory, dif_neg ha] at h
    cases h

def IpFrom (ip : Option UInt64) (m : Machine) : Prop :=
  m.ip.toNat ≤ 32768 ∨ ip = some m.ip

theorem HostStep.preserves (h : HostStep m m') (hw : m.WellFormed) (hi : m.IpFrom ip) :
    m'.WellFormed ∧ m'.IpFrom ip := by
  have hstep {σ : Type} [Console σ] (m : Machine) (c : σ) (h : m.WellFormed ∧ m.IpFrom ip) :
      (m.step c).machine.WellFormed ∧ (m.step c).machine.IpFrom ip := by
    refine ⟨h.1.step c, ?_⟩
    rcases h.1.step_ip c with hip | hip
    · rw [IpFrom, hip]
      exact h.2
    · exact .inl hip
  cases h with
  | step m c => exact hstep m c ⟨hw, hi⟩
  | run h => exact run_preserves hstep h ⟨hw, hi⟩
  | setRegister m r w => exact ⟨hw.setRegister r w, hi⟩
  | writeMemory h =>
    obtain ⟨memory, rfl⟩ := writeMemory_eq_ok h
    exact ⟨hw.of_eq rfl rfl, hi⟩
  | refused h => exact ⟨hw, hi⟩
  | abort m => exact ⟨hw.of_eq rfl rfl, hi⟩

theorem Reached.invariant (h : Reached ip m) : m.WellFormed ∧ m.IpFrom ip := by
  induction h with
  | booted h =>
    refine ⟨boot_wellFormed h, .inl ?_⟩
    rw [(boot_eq_ok h).2.2]
    decide
  | restored h =>
    obtain ⟨hw, rfl, _⟩ := restore_eq_ok.1 h
    exact ⟨hw, .inr rfl⟩
  | used _ h ih => exact h.preserves ih.1 ih.2
  | resumed _ h _ =>
    obtain ⟨hw, hs, _⟩ := restore_eq_ok.1 h
    exact ⟨hw, .inr (congrArg (some ·.ip) hs.symm)⟩

theorem Reached.bounds (h : Reached ip m) :
    m.memory.toList.length = 32768 ∧ (∀ r, m.register r < 32768) ∧ (∀ w ∈ m.stack, w < 32768) ∧
      (m.ip.toNat ≤ 32768 ∨ ip = some m.ip) := by
  obtain ⟨hw, hi⟩ := h.invariant
  exact ⟨Vector.length_toList, hw.registers, hw.stack, hi⟩

theorem Reached.bounds_far_ip :
    ∃ m : Machine, Reached (some 1099511627776) m ∧ m.ip = 1099511627776 ∧
      m.register ⟨0⟩ = 32767 ∧ m.memory.toList.length = 32768 ∧ (∀ r, m.register r < 32768) ∧
      ∀ w ∈ m.stack, w < 32768 := by
  obtain ⟨b, hb⟩ : ∃ b, (boot [21] .wrap).result = .ok b := ⟨_, rfl⟩
  let m : Machine := { b with ip := 1099511627776 }
  have hw : m.WellFormed := (boot_wellFormed hb).of_eq rfl rfl
  have hr : (restore m.snapshot m.policy).result = .ok m := restore_eq_ok.2 ⟨hw, rfl, rfl⟩
  have h : Reached (some m.ip) (m.setRegister ⟨0⟩ 65535) := .used (.restored hr) (.setRegister ..)
  obtain ⟨hm, hreg, hs, _⟩ := Reached.bounds h
  exact ⟨_, h, rfl, RegisterFile.read_write_same .., hm, hreg, hs⟩

end FifteenBit.Machine
