import FifteenBit.Proofs.Checks
import FifteenBit.Proofs.SnapshotRestore

/-! Which snapshots are restored. They are those of well-formed machines, whatever their memory,
their input and their instruction pointer hold. For another one the first check that it does not
pass is reported. -/

namespace FifteenBit

/-- Copies words into the eight registers. There is no copy of more words or of fewer. -/
def RegisterFile.copyOf? (ws : List Word) : Option RegisterFile :=
  if h : ws.length = 8 then some ⟨ws.toArray, by simpa using h⟩ else none

theorem RegisterFile.copyOf?_toList (f : RegisterFile) : copyOf? f.toList = some f := by
  rw [copyOf?, dif_pos Vector.length_toList]
  exact congrArg some (Vector.toArray_inj.1 rfl)

namespace Snapshot

/-- The checks of a snapshot in their order, each with what it finds. Of the values that are too
big the first one is named; the registers come before the stack, and its bottom before its top. -/
def checks (s : Snapshot) : List (Check Flaw) :=
  [.when (s.version ≠ 1) (.version s.version),
    .when (s.memory.length ≠ 32768) (.memory s.memory.length),
    .when (s.registers.length ≠ 8) (.registers s.registers.length),
    fun flaw => ∃ before w after, s.registers ++ s.stack = before ++ w :: after ∧
      (∀ x ∈ before, x < 32768) ∧ 32768 ≤ w ∧ flaw = .value w]

variable {s : Snapshot} {flaw : Flaw}

theorem find?_large_eq_some {ws : List Word} {w : Word} :
    ws.find? (fun x => 32768 ≤ x) = some w ↔
      ∃ before after, ws = before ++ w :: after ∧ (∀ x ∈ before, x < 32768) ∧ 32768 ≤ w := by
  rw [List.find?_eq_some_iff_append]
  constructor
  · rintro ⟨hw, before, after, rfl, hb⟩
    exact ⟨before, after, rfl, by simpa using hb, of_decide_eq_true hw⟩
  · rintro ⟨before, after, rfl, hb, hw⟩
    exact ⟨decide_eq_true hw, before, after, rfl, by simpa using hb⟩

theorem flaw?_eq_some_iff : s.flaw? = some flaw ↔ Check.First s.checks flaw := by
  refine Check.first_when_iff (fun _ => ?_) flaw
  refine Check.first_when_iff (fun _ => ?_) _
  refine Check.first_when_iff (fun flaw => ?_) _
  rw [Check.first_singleton, Option.map_eq_some_iff]
  constructor
  · rintro ⟨w, hw, rfl⟩
    obtain ⟨before, after, hs, hb, h⟩ := find?_large_eq_some.1 hw
    exact ⟨before, w, after, hs, hb, h, rfl⟩
  · rintro ⟨before, w, after, hs, hb, h, rfl⟩
    exact ⟨w, find?_large_eq_some.2 ⟨before, after, hs, hb, h⟩, rfl⟩

end Snapshot

namespace Machine

variable {s : Snapshot} {policy : Policy}

theorem restore_result (s : Snapshot) (policy : Policy) :
    (∃ flaw, s.flaw? = some flaw ∧ (restore s policy).result = .error (.invalidSnapshot flaw)) ∨
    (s.flaw? = none ∧ ∃ m, (restore s policy).result = .ok m) := by
  unfold restore
  split
  · rename_i flaw hf
    exact .inl ⟨flaw, hf, rfl⟩
  · rename_i hf
    exact .inr ⟨hf, _, rfl⟩

theorem exists_restore_iff : (∃ m, (restore s policy).result = .ok m) ↔ s.flaw? = none := by
  rcases restore_result s policy with ⟨flaw, hf, hr⟩ | ⟨hf, m, hr⟩ <;> simp [hf, hr]

theorem restore_eq_error {e : StorageError} : (restore s policy).result = .error e ↔
    ∃ flaw, Check.First s.checks flaw ∧ e = .invalidSnapshot flaw := by
  simp only [← Snapshot.flaw?_eq_some_iff]
  rcases restore_result s policy with ⟨flaw, hf, hr⟩ | ⟨hf, m, hr⟩
  · simp [hf, hr, eq_comm]
  · simp [hf, hr]

/-- The snapshots that are restored are those of well-formed machines, and the machine that is made
of one has that snapshot. Of the others the first flaw is reported. The registers are copied only
where there are eight. -/
theorem restore_exactly (s : Snapshot) (policy : Policy) :
    ((∃ m, (restore s policy).result = .ok m) ↔
      s.version = 1 ∧ s.memory.length = 32768 ∧ s.registers.length = 8 ∧
        (∀ w ∈ s.registers, w < 32768) ∧ ∀ w ∈ s.stack, w < 32768) ∧
    ((∃ m, (restore s policy).result = .ok m) ↔ ∃ m : Machine, m.WellFormed ∧ m.snapshot = s) ∧
    (∀ m, (restore s policy).result = .ok m → m.snapshot = s ∧ m.policy = policy ∧
      RegisterFile.copyOf? s.registers = some m.registers) ∧
    (∀ e, (restore s policy).result = .error e ↔
      ∃ flaw, Check.First s.checks flaw ∧ e = .invalidSnapshot flaw) ∧
    (s.flaw? = none → ∃ f, RegisterFile.copyOf? s.registers = some f) := by
  have hcopied (m : Machine) (h : (restore s policy).result = .ok m) :
      RegisterFile.copyOf? s.registers = some m.registers := by
    obtain ⟨_, rfl, _⟩ := restore_eq_ok.1 h
    exact RegisterFile.copyOf?_toList m.registers
  refine ⟨?_, ?_, ?_, fun e => restore_eq_error, ?_⟩
  · exact exists_restore_iff.trans Snapshot.flaw?_eq_none_iff
  · constructor
    · rintro ⟨m, h⟩
      obtain ⟨hw, hs, _⟩ := restore_eq_ok.1 h
      exact ⟨m, hw, hs⟩
    · rintro ⟨m, hw, rfl⟩
      exact ⟨_, hw.restore policy⟩
  · intro m h
    obtain ⟨_, hs, hp⟩ := restore_eq_ok.1 h
    exact ⟨hs, hp, hcopied m h⟩
  · intro h
    obtain ⟨m, hm⟩ := exists_restore_iff.2 h
    exact ⟨_, hcopied m hm⟩

theorem restore_exactly_two_values :
    ∃ m : Machine, (boot [65535] .wrap).result = .ok m ∧ ∀ policy : Policy,
      (restore { m.snapshot with registers := [7, 40000, 0, 0, 0, 0, 0, 65535], stack := [50000] }
        policy).result = .error (.invalidSnapshot (.value 40000)) ∧
      ∃ m', (restore { m.snapshot with stack := [32767], ip := 65535 } policy).result = .ok m' ∧
        m'.snapshot.memory = m.snapshot.memory := by
  obtain ⟨m, hb⟩ : ∃ m : Machine, (boot [65535] .wrap).result = .ok m := ⟨_, rfl⟩
  refine ⟨m, hb, fun policy => ⟨?_, ?_⟩⟩
  · have hlength : ¬ m.snapshot.memory.length ≠ 32768 := fun h => h Vector.length_toList
    refine ((restore_exactly _ policy).2.2.2.1 _).2 ⟨.value 40000, ?_, rfl⟩
    refine .inr ⟨Check.when_passed.2 (fun h => h rfl), ?_⟩
    refine .inr ⟨Check.when_passed.2 hlength, ?_⟩
    refine .inr ⟨Check.when_passed.2 (fun h => h rfl), ?_⟩
    exact .inl ⟨[7], 40000, [0, 0, 0, 0, 0, 65535, 50000], rfl,
      List.forall_mem_singleton.2 (by decide), by decide, rfl⟩
  · have hregisters := (wellFormed_iff.1 (boot_wellFormed hb)).1
    have hstack : ∀ w ∈ [(32767 : Word)], w < 32768 := List.forall_mem_singleton.2 (by decide)
    obtain ⟨m', hm'⟩ := (restore_exactly { m.snapshot with stack := [32767], ip := 65535 }
      policy).1.2 ⟨rfl, Vector.length_toList, Vector.length_toList, hregisters, hstack⟩
    have hs := ((restore_exactly _ policy).2.2.1 m' hm').1
    exact ⟨m', hm', (congrArg Snapshot.memory hs).trans rfl⟩

end Machine

end FifteenBit
