import FifteenBit.Machine.Effect
import FifteenBit.Proofs.Logged

/-! What operand words are resolved to. The words fall into three ranges: those that stand
for themselves, those that name registers, and those above, which are reduced or refused. -/

namespace FifteenBit

namespace Operand

theorem ofWord?_of_lt {raw : Word} (policy : Policy) (h : raw.toNat < 32768) :
    ofWord? policy raw = some (.literal raw) := by
  have hlt : raw < 32768 := UInt16.lt_iff_toNat_lt.2 h
  rw [ofWord?.eq_def, if_pos hlt]

theorem ofWord?_register {raw : Word} (policy : Policy) (h : 32768 ≤ raw.toNat)
    (h' : raw.toNat < 32776) :
    ofWord? policy raw = some (.register ⟨⟨raw.toNat - 32768, by omega⟩⟩) := by
  have hle : ¬ raw < 32768 := fun hlt => Nat.not_lt.2 h (UInt16.lt_iff_toNat_lt.1 hlt)
  have hr : Register.ofOperand? raw = some ⟨⟨raw.toNat - 32768, by omega⟩⟩ := by
    rw [Register.ofOperand?, dif_pos ⟨h, h'⟩]
  rw [ofWord?.eq_def, if_neg hle, hr]

theorem ofWord?_above {raw : Word} (policy : Policy) (h : 32776 ≤ raw.toNat) :
    ofWord? policy raw =
      if policy = .wrap then some (.literal (FifteenBit.wrap raw.toUInt32)) else none := by
  have hle : ¬ raw < 32768 := fun hlt => by
    have hn : raw.toNat < 32768 := UInt16.lt_iff_toNat_lt.1 hlt
    omega
  have hr : Register.ofOperand? raw = none := by
    rw [Register.ofOperand?_eq_none_iff]
    omega
  rw [ofWord?.eq_def, if_neg hle, hr]
  cases policy <;> rfl

theorem literal_lt {policy : Policy} {raw v : Word}
    (h : ofWord? policy raw = some (.literal v)) : v < 32768 := by
  by_cases hlt : raw.toNat < 32768
  · rw [ofWord?_of_lt policy hlt] at h
    cases h
    exact UInt16.lt_iff_toNat_lt.2 hlt
  · by_cases hr : raw.toNat < 32776
    · rw [ofWord?_register policy (by omega) hr] at h
      cases h
    · rw [ofWord?_above policy (by omega)] at h
      split at h
      · cases h
        exact wrap_lt _
      · cases h

end Operand

namespace Machine

variable {m : Machine} {raw : Word} {fault : Fault}

theorem operand_eq_ok {o : Operand} :
    (m.operand raw).result = .ok o ↔ Operand.ofWord? m.policy raw = some o := by
  cases h : Operand.ofWord? m.policy raw <;> simp [operand, h]

theorem operand_eq_error :
    (m.operand raw).result = .error fault ↔
      Operand.ofWord? m.policy raw = none ∧ fault = .invalidOperand m.ip raw := by
  cases h : Operand.ofWord? m.policy raw <;> simp [operand, h, @eq_comm _ fault]

theorem value_eq_ok {x : Word} :
    (m.value raw).result = .ok x ↔
      ∃ o, Operand.ofWord? m.policy raw = some o ∧ m.valueOf o = x := by
  simp [value, Logged.result_bind_eq_ok, operand_eq_ok]

theorem value_eq_error :
    (m.value raw).result = .error fault ↔
      Operand.ofWord? m.policy raw = none ∧ fault = .invalidOperand m.ip raw := by
  simp [value, Logged.result_bind_eq_error, operand_eq_error]

theorem target_eq_ok {t : Target} :
    (m.target raw).result = .ok t ↔
      ∃ o, Operand.ofWord? m.policy raw = some o ∧ o.target = t := by
  simp [target, Logged.result_bind_eq_ok, operand_eq_ok]

theorem target_eq_error :
    (m.target raw).result = .error fault ↔
      Operand.ofWord? m.policy raw = none ∧ fault = .invalidOperand m.ip raw := by
  simp [target, Logged.result_bind_eq_error, operand_eq_error]

end Machine

end FifteenBit
