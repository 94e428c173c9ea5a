import FifteenBit.Column
import FifteenBit.Opcode
import FifteenBit.Register

/-! One line of the execution log: where the machine is, the instruction with its
operand words, the character it prints, the registers, and the stack. -/

namespace FifteenBit

structure TraceLine where
  ip : UInt64
  opcode : Opcode
  operands : List Word
  /-- The character that an `out` prints, else a blank. -/
  printed : Char
  registers : RegisterFile
  /-- The top comes first; the line shows the bottom first. -/
  stack : List Word
  deriving DecidableEq

namespace TraceLine

/-- The character column shows no control character. -/
def visible (c : Char) : Char :=
  if c.toNat < 0x20 ∨ 0x7F ≤ c.toNat ∧ c.toNat < 0xA0 then ' ' else c

def word (w : Word) : List Char :=
  Column.number 5 w.toNat

/-- Three columns, blank where there is no operand. -/
def operandColumns (operands : List Word) : List (List Char) :=
  (operands.map word ++ List.replicate 3 (Column.text 5 [])).take 3

def chars (line : TraceLine) : List Char :=
  Column.number 5 line.ip.toNat ++ [' '] ++ Column.text 4 line.opcode.mnemonic.toList
    ++ [':', ' '] ++ Column.row (operandColumns line.operands)
    ++ [' ', line.printed, ' ', ' ', '|', ' ', ' ']
    ++ Column.row (line.registers.toList.map word)
    ++ [' ', ' ', '|', ' ', ' '] ++ Column.row (line.stack.reverse.map word)

def text (line : TraceLine) : String :=
  String.ofList line.chars

end TraceLine

end FifteenBit
