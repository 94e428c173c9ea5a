import FifteenBit.Word

/-! The twenty-two operations, their words, mnemonics and operand counts. -/

namespace FifteenBit

inductive Opcode where
  | halt | set | push | pop | eq | gt | jmp | jt | jf | add | mult | mod
  | and | or | not | rmem | wmem | call | ret | out | input | noop
  deriving DecidableEq, Repr

namespace Opcode

def ofWord? : Word → Option Opcode
  | 0 => some .halt
  | 1 => some .set
  | 2 => some .push
  | 3 => some .pop
  | 4 => some .eq
  | 5 => some .gt
  | 6 => some .jmp
  | 7 => some .jt
  | 8 => some .jf
  | 9 => some .add
  | 10 => some .mult
  | 11 => some .mod
  | 12 => some .and
  | 13 => some .or
  | 14 => some .not
  | 15 => some .rmem
  | 16 => some .wmem
  | 17 => some .call
  | 18 => some .ret
  | 19 => some .out
  | 20 => some .input
  | 21 => some .noop
  | _ => none

def arity : Opcode → Nat
  | .halt | .ret | .noop => 0
  | .push | .pop | .jmp | .call | .out | .input => 1
  | .set | .jt | .jf | .not | .rmem | .wmem => 2
  | .eq | .gt | .add | .mult | .mod | .and | .or => 3

def mnemonic : Opcode → String
  | .halt => "halt"
  | .set => "set"
  | .push => "push"
  | .pop => "pop"
  | .eq => "eq"
  | .gt => "gt"
  | .jmp => "jmp"
  | .jt => "jt"
  | .jf => "jf"
  | .add => "add"
  | .mult => "mult"
  | .mod => "mod"
  | .and => "and"
  | .or => "or"
  | .not => "not"
  | .rmem => "rmem"
  | .wmem => "wmem"
  | .call => "call"
  | .ret => "ret"
  | .out => "out"
  | .input => "in"
  | .noop => "noop"

theorem ofWord?_eq_none_iff (w : Word) : ofWord? w = none ↔ 21 < w.toNat := by
  unfold ofWord?
  split <;> simp_all [← UInt16.toNat_inj]
  omega

end Opcode

end FifteenBit
