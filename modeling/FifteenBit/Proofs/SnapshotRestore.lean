import FifteenBit.Proofs.WellFormed
import FifteenBit.Snapshot.Basic

/-! What is restored. The snapshots without a flaw are those of well-formed machines, and
a snapshot and a policy make one machine. -/

namespace FifteenBit

theorem Snapshot.flaw?_eq_none_iff {s : Snapshot} :
    s.flaw? = none ↔ s.version = currentVersion ∧ s.memory.length = memorySize ∧
      s.registers.length = 8 ∧ (∀ w ∈ s.registers, w < 32768) ∧ ∀ w ∈ s.stack, w < 32768 := by
  rw [flaw?]
  by_cases hv : s.version = currentVersion
  · by_cases hm : s.memory.length = memorySize
    · by_cases hr : s.registers.length = 8
      · simp [hv, hm, hr]
      · simp [hv, hm, hr]
    · simp [hv, hm]
  · simp [hv]

namespace Machine

variable {m m' : Machine} {s : Snapshot} {policy : Policy}

theorem wellFormed_iff : m.WellFormed ↔
    (∀ w ∈ m.registers.toList, w < 32768) ∧ ∀ w ∈ m.stack, w < 32768 := by
  constructor
  · intro hw
    refine ⟨fun w hm => ?_, hw.stack⟩
    obtain ⟨i, hi, rfl⟩ := List.getElem_of_mem hm
    have hi' : i < 8 := by simpa using hi
    exact hw.registers ⟨⟨i, hi'⟩⟩
  · rintro ⟨hr, hs⟩
    exact ⟨fun r => hr _ (by simp [register, RegisterFile.read]), hs⟩

theorem snapshot_injective (h : m.snapshot = m'.snapshot) (hp : m.policy = m'.policy) :
    m = m' := by
  cases m
  cases m'
  simp_all [snapshot, Vector.toList_inj]

theorem WellFormed.flaw?_snapshot (hw : m.WellFormed) : m.snapshot.flaw? = none := by
  rw [wellFormed_iff] at hw
  rw [Snapshot.flaw?_eq_none_iff]
  exact ⟨rfl, by simp [snapshot], by simp [snapshot], hw.1, by simpa [snapshot] using hw.2⟩

theorem restore_eq_ok : (restore s policy).result = .ok m ↔
    m.WellFormed ∧ m.snapshot = s ∧ m.policy = policy := by
  have hof {m : Machine} (h : (restore s policy).result = .ok m) :
      m.WellFormed ∧ m.snapshot = s ∧ m.policy = policy := by
    unfold restore at h
    split at h
    · cases h
    · rename_i hf
      obtain ⟨hv, _, _, hr, hs⟩ := Snapshot.flaw?_eq_none_iff.1 hf
      cases h
      refine ⟨wellFormed_iff.2 ⟨by simpa using hr, by simpa using hs⟩, ?_, rfl⟩
      simp [snapshot, ← hv]
  refine ⟨hof, ?_⟩
  rintro ⟨hw, rfl, rfl⟩
  have hok : ∃ m', (restore m.snapshot m.policy).result = .ok m' := by
    unfold restore
    split
    · rename_i hf
      simp [hw.flaw?_snapshot] at hf
    · exact ⟨_, rfl⟩
  obtain ⟨m', h⟩ := hok
  obtain ⟨_, hs, hp⟩ := hof h
  rw [h, snapshot_injective hs hp]

/-- A well-formed machine is restored from its snapshot, under any policy. -/
theorem WellFormed.restore (hw : m.WellFormed) (policy : Policy) :
    (Machine.restore m.snapshot policy).result = .ok { m with policy := policy } :=
  restore_eq_ok.2 ⟨⟨hw.registers, hw.stack⟩, rfl, rfl⟩

theorem restore_log (h : (restore s policy).result = .ok m) :
    (restore s policy).log = [.resumed s.ip] := by
  obtain ⟨hw, rfl, -⟩ := restore_eq_ok.1 h
  unfold restore
  split
  · rename_i hf
    simp [hw.flaw?_snapshot] at hf
  · rfl

end Machine

end FifteenBit
