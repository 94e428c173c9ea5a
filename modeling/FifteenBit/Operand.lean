import FifteenBit.Register

/-! Operand words. Below 32768 a word stands for itself, the next eight name the
registers, and what lies above is reduced or refused, as the policy says. -/

namespace FifteenBit

/-- What happens to operand words above the registers. -/
inductive Policy where
  | wrap
  | strict
  deriving DecidableEq, Repr

def Policy.name : Policy → String
  | .wrap => "Wrap"
  | .strict => "Strict"

inductive Operand where
  | literal (value : Word)
  | register (r : Register)
  deriving DecidableEq, Repr

inductive Target where
  | memory (address : Word)
  | register (r : Register)
  deriving DecidableEq, Repr

namespace Operand

/-- Reads an operand word; `none` if the policy refuses it. -/
def ofWord? (policy : Policy) (raw : Word) : Option Operand :=
  if raw < 32768 then some (.literal raw)
  else match Register.ofOperand? raw with
    | some r => some (.register r)
    | none => match policy with
      | .wrap => some (.literal (FifteenBit.wrap raw.toUInt32))
      | .strict => none

/-- Whether a word lies above those that name registers. -/
def outOfRange (raw : Word) : Bool :=
  decide (32776 ≤ raw)

def target : Operand → Target
  | .literal address => .memory address
  | .register r => .register r

def text : Operand → String
  | .literal value => "Literal(" ++ toString value ++ ")"
  | .register r => "Register(" ++ r.name ++ ")"

theorem outOfRange_iff (raw : Word) : outOfRange raw = true ↔ 32776 ≤ raw.toNat := by
  simp [outOfRange, UInt16.le_iff_toNat_le]

/-- A policy refuses all words above the registers, or none. -/
theorem ofWord?_eq_none_iff (policy : Policy) (raw : Word) :
    ofWord? policy raw = none ↔ policy = .strict ∧ outOfRange raw = true := by
  rw [outOfRange_iff]
  unfold ofWord?
  split
  · rename_i hlt
    simp only [UInt16.lt_iff_toNat_lt, UInt16.reduceToNat] at hlt
    simp only [reduceCtorEq, false_iff, not_and]
    omega
  · rename_i hle
    simp only [UInt16.lt_iff_toNat_lt, UInt16.reduceToNat] at hle
    have hn := Register.ofOperand?_eq_none_iff raw
    split
    · rename_i r hr
      simp only [hr, reduceCtorEq, false_iff, Decidable.not_not] at hn
      simp only [reduceCtorEq, false_iff, not_and]
      omega
    · rename_i hr
      have hr := hn.1 hr
      cases policy <;> simp
      omega

end Operand

end FifteenBit
