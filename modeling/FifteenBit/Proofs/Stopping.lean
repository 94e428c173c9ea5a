import FifteenBit.Proofs.FetchCases
import FifteenBit.Proofs.ImageDecoding
import FifteenBit.Proofs.RunCases
import FifteenBit.Proofs.StepCases

/-! Programs that stop. A run is followed instruction by instruction: each one takes a step, and the
rest of the run is up to the machine that it leaves behind. -/

namespace FifteenBit.Machine

variable {σ : Type} [Console σ] {m m' : Machine} {c c' : σ} {n : Nat} {P : Run σ → Prop}

theorem step_of_perform {i : Instruction} {e : Effect} {s : Step σ} (hr : m.running = true)
    (hi : m.Holds i) (he : (m.effect i).result = .ok e)
    (hp : m.perform c (m.ip + i.size.toUInt64) e = s) :
    m.step c = { s with log := m.preface i ++ s.log } := by
  rw [step_of_effect hr (fetch_eq_ok.2 hi) he c, hp]

/-- A run of at least so many steps comes to an end, and to such an end. -/
def StopsWithin (n : Nat) (m : Machine) (c : σ) (P : Run σ → Prop) : Prop :=
  ∀ keep log extra, ∃ r, m.run keep (n + extra) c log = some r ∧ P r

theorem StopsWithin.mono {k : Nat} (h : StopsWithin n m c P) (hk : n ≤ k) :
    StopsWithin k m c P := by
  intro keep log extra
  obtain ⟨r, hr, hP⟩ := h keep log (k - n + extra)
  refine ⟨r, ?_, hP⟩
  rw [← hr]
  congr 1
  omega

theorem StopsWithin.of_effect {i : Instruction} {e : Effect} {calls : List Call}
    (h : StopsWithin n m' c' P) (hr : m.running = true) (hi : m.Holds i)
    (he : (m.effect i).result = .ok e)
    (hp : m.perform c (m.ip + i.size.toUInt64) e = ⟨m', c', .ok .running, [], calls⟩) :
    StopsWithin (n + 1) m c P := by
  have hs := step_of_perform hr hi he hp
  have ho : (m.step c).outcome? = none := by
    rw [hs]
    rfl
  intro keep log extra
  rw [Nat.add_right_comm, run_of_running ho, hs]
  exact h keep _ extra

theorem StopsWithin.of_fault {i : Instruction} {e : Effect} {calls : List Call} {fault : Fault}
    (hr : m.running = true) (hi : m.Holds i) (he : (m.effect i).result = .ok e)
    (hp : m.perform c (m.ip + i.size.toUInt64) e = m.fail c' calls fault)
    (hP : ∀ m' log, P ⟨m', c', .error fault, log⟩) : StopsWithin 1 m c P := by
  have hs := step_of_perform hr hi he hp
  have ho : (m.step c).outcome? = some (.error fault) := by
    rw [hs]
    rfl
  intro keep log extra
  rw [Nat.add_comm, run_of_stopped ho, hs]
  exact ⟨_, rfl, hP _ _⟩

section Ends

variable {i : Instruction} {e : Effect} {calls : List Call}

theorem Ends.of_effect {ending : Ending} {d : σ} (h : m'.Ends c' ending d)
    (hr : m.running = true) (hi : m.Holds i) (he : (m.effect i).result = .ok e)
    (hp : m.perform c (m.ip + i.size.toUInt64) e = ⟨m', c', .ok .running, [], calls⟩) :
    m.Ends c (ending.after calls) d := by
  have hs := step_of_perform hr hi he hp
  have ho : (m.step c).outcome? = none := by
    rw [hs]
    rfl
  refine (ends_of_running ho).2 ?_
  rw [hs]
  exact ⟨ending, h, rfl⟩

theorem Ends.of_stop {s : Step σ} {result : Except Fault HaltReason}
    (hr : m.running = true) (hi : m.Holds i) (he : (m.effect i).result = .ok e)
    (hp : m.perform c (m.ip + i.size.toUInt64) e = s) (ho : s.outcome? = some result) :
    m.Ends c ⟨s.machine, result, s.calls⟩ s.console := by
  have hs := step_of_perform hr hi he hp
  have hstop : (m.step c).outcome? = some result := by
    rw [hs]
    exact ho
  refine (ends_of_stopped hstop).2 ?_
  rw [hs]
  exact ⟨rfl, rfl⟩

end Ends

/-- The words of an image stand in the memory that is made of it. -/
theorem holds_of_image {m : Machine} {i : Instruction} {image : List Word}
    {hl : image.length ≤ memorySize} (hm : m.memory = Memory.ofImage image hl)
    (h : i.words <+: image.drop m.ip.toNat) : m.Holds i := by
  intro k w hk
  obtain ⟨rest, hrest⟩ := h
  have hlt : k < i.words.length := (List.getElem?_eq_some_iff.1 hk).1
  have hw : image[m.ip.toNat + k]? = some w := by
    rw [← List.getElem?_drop, ← hrest, List.getElem?_append_left hlt, hk]
  have hlt : m.ip.toNat + k < image.length := (List.getElem?_eq_some_iff.1 hw).1
  rw [hm, ← Vector.getElem?_toList, toList_ofImage, zeroPadded, List.getElem?_append_left hlt, hw]

end FifteenBit.Machine
