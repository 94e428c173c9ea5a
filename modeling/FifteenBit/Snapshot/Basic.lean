import FifteenBit.Machine.Basic

/-! Snapshots hold all that a machine holds, but its policy. Any snapshot can be
written down; a machine is restored only from one without a flaw. -/

namespace FifteenBit

structure Snapshot where
  version : UInt32
  memory : List Word
  registers : List Word
  /-- The bottom comes first. -/
  stack : List Word
  ip : UInt64
  running : Bool
  input : List Word
  deriving DecidableEq, Repr

namespace Snapshot

def currentVersion : UInt32 := 1

/-- The first flaw, if there is one. Of the values that are too big, those of the
registers come before those of the stack. -/
def flaw? (s : Snapshot) : Option Flaw :=
  if s.version ≠ currentVersion then some (.version s.version)
  else if s.memory.length ≠ memorySize then some (.memory s.memory.length)
  else if s.registers.length ≠ 8 then some (.registers s.registers.length)
  else ((s.registers ++ s.stack).find? fun w => 32768 ≤ w).map .value

theorem length_of_flaw?_eq_none {s : Snapshot} (h : s.flaw? = none) :
    s.memory.length = memorySize ∧ s.registers.length = 8 := by
  unfold flaw? at h
  split at h
  · simp at h
  · split at h
    · simp at h
    · rename_i hm
      split at h
      · simp at h
      · rename_i hr
        exact ⟨Decidable.not_not.1 hm, Decidable.not_not.1 hr⟩

end Snapshot

namespace Machine

def snapshot (m : Machine) : Snapshot where
  version := Snapshot.currentVersion
  memory := m.memory.toList
  registers := m.registers.toList
  stack := m.stack.reverse
  ip := m.ip
  running := m.running
  input := m.pending

def restore (s : Snapshot) (policy : Policy) : Logged StorageError Machine :=
  match h : s.flaw? with
  | some flaw => Logged.error (.invalidSnapshot flaw)
  | none => do
    have hl := Snapshot.length_of_flaw?_eq_none h
    Logged.note (.resumed s.ip)
    return {
      memory := ⟨s.memory.toArray, by simp [hl.1]⟩
      registers := ⟨s.registers.toArray, by simp [hl.2]⟩
      stack := s.stack.reverse
      ip := s.ip
      pending := s.input
      running := s.running
      policy := policy }

end Machine

end FifteenBit
