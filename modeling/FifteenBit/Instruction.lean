import FifteenBit.Opcode

/-! Instructions with the operand words as they stand in memory. -/

namespace FifteenBit

inductive Instruction where
  | halt
  | set (a b : Word)
  | push (a : Word)
  | pop (a : Word)
  | eq (a b c : Word)
  | gt (a b c : Word)
  | jmp (a : Word)
  | jt (a b : Word)
  | jf (a b : Word)
  | add (a b c : Word)
  | mult (a b c : Word)
  | mod (a b c : Word)
  | and (a b c : Word)
  | or (a b c : Word)
  | not (a b : Word)
  | rmem (a b : Word)
  | wmem (a b : Word)
  | call (a : Word)
  | ret
  | out (a : Word)
  | input (a : Word)
  | noop
  deriving DecidableEq, Repr

namespace Instruction

def opcode : Instruction → Opcode
  | .halt => .halt
  | .set .. => .set
  | .push _ => .push
  | .pop _ => .pop
  | .eq .. => .eq
  | .gt .. => .gt
  | .jmp _ => .jmp
  | .jt .. => .jt
  | .jf .. => .jf
  | .add .. => .add
  | .mult .. => .mult
  | .mod .. => .mod
  | .and .. => .and
  | .or .. => .or
  | .not .. => .not
  | .rmem .. => .rmem
  | .wmem .. => .wmem
  | .call _ => .call
  | .ret => .ret
  | .out _ => .out
  | .input _ => .input
  | .noop => .noop

def operands : Instruction → List Word
  | .halt | .ret | .noop => []
  | .push a | .pop a | .jmp a | .call a | .out a | .input a => [a]
  | .set a b | .jt a b | .jf a b | .not a b | .rmem a b | .wmem a b => [a, b]
  | .eq a b c | .gt a b c | .add a b c | .mult a b c | .mod a b c
  | .and a b c | .or a b c => [a, b, c]

/-- Builds the instruction of an opcode from its operand cells, which are
fetched in order. -/
def assemble {ε : Type} (cell : Nat → Except ε Word) : Opcode → Except ε Instruction
  | .halt => pure .halt
  | .set => return .set (← cell 1) (← cell 2)
  | .push => return .push (← cell 1)
  | .pop => return .pop (← cell 1)
  | .eq => return .eq (← cell 1) (← cell 2) (← cell 3)
  | .gt => return .gt (← cell 1) (← cell 2) (← cell 3)
  | .jmp => return .jmp (← cell 1)
  | .jt => return .jt (← cell 1) (← cell 2)
  | .jf => return .jf (← cell 1) (← cell 2)
  | .add => return .add (← cell 1) (← cell 2) (← cell 3)
  | .mult => return .mult (← cell 1) (← cell 2) (← cell 3)
  | .mod => return .mod (← cell 1) (← cell 2) (← cell 3)
  | .and => return .and (← cell 1) (← cell 2) (← cell 3)
  | .or => return .or (← cell 1) (← cell 2) (← cell 3)
  | .not => return .not (← cell 1) (← cell 2)
  | .rmem => return .rmem (← cell 1) (← cell 2)
  | .wmem => return .wmem (← cell 1) (← cell 2)
  | .call => return .call (← cell 1)
  | .ret => pure .ret
  | .out => return .out (← cell 1)
  | .input => return .input (← cell 1)
  | .noop => pure .noop

def size (i : Instruction) : Nat :=
  1 + i.opcode.arity

theorem length_operands (i : Instruction) : i.operands.length = i.opcode.arity := by
  cases i <;> rfl

end Instruction

end FifteenBit
