import FifteenBit.Console.Recorder
import FifteenBit.Proofs.Footprint

/-! Words that name registers come from the start only. A place that has been overwritten holds
a value from then on, and a copy that is made of such a word is the number of its register. -/

namespace FifteenBit

theorem Operand.ofWord?_operand (policy : Policy) (r : Register) :
    ofWord? policy r.operand = some (.register r) := by
  have hle : ¬ r.operand < 32768 := by
    obtain ⟨i⟩ := r
    revert i
    decide
  rw [ofWord?.eq_def, if_neg hle, Register.ofOperand?_operand]

theorem wrap_operand (r : Register) : wrap r.operand.toUInt32 = r.index.val.toUInt16 := by
  obtain ⟨i⟩ := r
  revert i
  decide

namespace Machine

section Copying

variable {m : Machine}

/-- The next instruction reads the word of a cell and stores it. -/
def Loads (m : Machine) (source : Word) (t : Target) : Prop :=
  m.running = true ∧ ∃ a b, m.fetch = .ok (.rmem a b) ∧ (m.target a).result = .ok t ∧
    (m.value b).result = .ok source

/-- The next instruction writes what a register holds to a cell. -/
def Saves (m : Machine) (r : Register) (address : Word) : Prop :=
  m.running = true ∧ ∃ a, m.fetch = .ok (.wmem a r.operand) ∧ (m.value a).result = .ok address

variable {σ : Type} [Console σ]

theorem Loads.step {source w : Word} {t : Target} (h : m.Loads source t)
    (hw : m.readMemory? source = some w) (c : σ) :
    (m.step c).machine.contentOf? t = some (wrap w.toUInt32) := by
  obtain ⟨hr, a, b, hf, ha, hb⟩ := h
  have hcell : m.cell source.toUInt64 = .ok w := by
    rw [cell_eq_ok, UInt16.toNat_toUInt64]
    exact hw
  have he : (m.effect (.rmem a b)).result = .ok (.store t w.toUInt32) :=
    Logged.result_bind_eq_ok.2 ⟨t, ha, Logged.result_bind_eq_ok.2 ⟨source, hb,
      Logged.result_bind_eq_ok.2 ⟨w, hcell, rfl⟩⟩⟩
  exact step_content_of_store hr hf he (target_exists ha) c

theorem Saves.step (hm : m.WellFormed) {r : Register} {address : Word} (h : m.Saves r address)
    (c : σ) : (m.step c).machine.readMemory? address = some (m.register r) := by
  obtain ⟨hr, a, hf, ha⟩ := h
  have hb : (m.value r.operand).result = .ok (m.register r) :=
    value_eq_ok.2 ⟨.register r, Operand.ofWord?_operand m.policy r, rfl⟩
  have he : (m.effect (.wmem a r.operand)).result =
      .ok (.store (.memory address) (m.register r).toUInt32) :=
    Logged.result_bind_eq_ok.2 ⟨address, ha, Logged.result_bind_eq_ok.2 ⟨_, hb, rfl⟩⟩
  have hstored := step_content_of_store hr hf he (hm.value_lt ha) c
  rw [wrap_of_lt (hm.registers r)] at hstored
  exact hstored

end Copying

section After

variable {σ : Type} [Console σ] {m : Machine} {c : σ} {t : Target} {k n : Nat}

/-- A word that is no value has stood in its place all the time. -/
theorem content_kept (hm : m.WellFormed) (hk : k ≤ n) {w : Word} (hw : 32768 ≤ w)
    (h : (m.after n c).1.contentOf? t = some w) : (m.after k c).1.contentOf? t = some w := by
  by_cases ho : m.OverwrittenIn c t k n
  · obtain ⟨x, hx, hc⟩ := content_of_overwritten hm ho
    obtain rfl : x = w := Option.some.inj (hc.symm.trans h)
    exact absurd hx (UInt16.not_lt.2 hw)
  · rw [← content_of_not_overwritten hk ho]
    exact h

/-- Cells that are not overwritten keep their words, and the others hold values. So words that
name registers are those of the start, and copies of them are numbers. -/
theorem no_register_word_forged (hm : m.WellFormed) (c : σ) :
    (∀ n address w, m.readMemory? address = some w →
      ¬ m.OverwrittenIn c (.memory address) 0 n ∧
        (m.after n c).1.readMemory? address = some w ∨
      m.OverwrittenIn c (.memory address) 0 n ∧
        ∃ x < 32768, (m.after n c).1.readMemory? address = some x) ∧
    (∀ k n address w, k ≤ n → 32768 ≤ w → (m.after n c).1.readMemory? address = some w →
      (m.after k c).1.readMemory? address = some w) ∧
    (∀ n source t (r : Register), (m.after n c).1.Loads source t →
      (m.after n c).1.readMemory? source = some r.operand →
      (m.after (n + 1) c).1.contentOf? t = some r.index.val.toUInt16) ∧
    ∀ k n source q (r : Register) address, k < n → (m.after k c).1.Loads source (.register q) →
      (m.after k c).1.readMemory? source = some r.operand →
      ¬ m.OverwrittenIn c (.register q) (k + 1) n → (m.after n c).1.Saves q address →
      (m.after (n + 1) c).1.readMemory? address = some r.index.val.toUInt16 := by
  have hloaded (n : Nat) (source : Word) (t : Target) (r : Register)
      (hl : (m.after n c).1.Loads source t)
      (hr : (m.after n c).1.readMemory? source = some r.operand) :
      (m.after (n + 1) c).1.contentOf? t = some r.index.val.toUInt16 := by
    rw [← wrap_operand]
    exact hl.step hr (m.after n c).2
  refine ⟨?_, ?_, hloaded, ?_⟩
  · intro n address w hw
    by_cases ho : m.OverwrittenIn c (.memory address) 0 n
    · exact .inr ⟨ho, content_of_overwritten hm ho⟩
    · exact .inl ⟨ho, (content_of_not_overwritten (Nat.zero_le n) ho).trans hw⟩
  · intro k n address w hk hw h
    exact content_kept (t := .memory address) hm hk hw h
  · intro k n source q r address hk hl hr ho hs
    have hheld : (m.after n c).1.contentOf? (.register q) = some r.index.val.toUInt16 :=
      (content_of_not_overwritten hk ho).trans (hloaded k source (.register q) r hl hr)
    have hsaved := hs.step (after_wellFormed hm n c) (m.after n c).2
    exact hsaved.trans hheld

theorem no_register_word_forged_copy :
    ∃ m : Machine, (boot [15, 32768, 7, 16, 8, 32768, 0, 32773, 0] .wrap).result = .ok m ∧
      m.WellFormed ∧ m.readMemory? 7 = some 32773 ∧
      ∀ c : Recorder, (m.after 2 c).1.readMemory? 8 = some 5 := by
  obtain ⟨m, hb, hr, hf, ht, hs, he, h7, hip, hnext⟩ : ∃ m : Machine,
      (boot [15, 32768, 7, 16, 8, 32768, 0, 32773, 0] .wrap).result = .ok m ∧
      m.running = true ∧ m.fetch = .ok (.rmem 32768 7) ∧
      (m.target 32768).result = .ok (.register ⟨0⟩) ∧ (m.value 7).result = .ok 7 ∧
      (m.effect (.rmem 32768 7)).result = .ok (.store (.register ⟨0⟩) 32773) ∧
      m.readMemory? 7 = some 32773 ∧ m.ip = 0 ∧
      ({ m with registers := m.registers.write ⟨0⟩ 5, ip := 3 } : Machine).Saves ⟨0⟩ 8 :=
    ⟨_, rfl, rfl, rfl, rfl, rfl, rfl, rfl, rfl, rfl, 8, rfl, rfl⟩
  have hm := boot_wellFormed hb
  refine ⟨m, hb, hm, h7, fun c => ?_⟩
  have hafter : (m.after 1 c).1 = { m with registers := m.registers.write ⟨0⟩ 5, ip := 3 } := by
    have hs := step_of_effect hr hf he c
    rw [after_succ, nthStep, after, hs, hip]
    rfl
  obtain ⟨_, _, _, hcopied⟩ := no_register_word_forged hm c
  refine hcopied 0 1 7 ⟨0⟩ ⟨5⟩ 8 Nat.zero_lt_one ⟨hr, 32768, 7, hf, ht, hs⟩ h7 ?_ ?_
  · rintro ⟨j, hj, hj', _⟩
    omega
  · rw [hafter]
    exact hnext

end After

end Machine

end FifteenBit
