import FifteenBit.Line
import FifteenBit.Notice

/-! The state of a machine and what its host may do with it. -/

namespace FifteenBit

abbrev Memory := Vector Word memorySize

/-- The words of an image from address 0, then zeros. -/
def Memory.ofImage (image : List Word) (h : image.length ≤ memorySize) : Memory :=
  ⟨(image ++ List.replicate (memorySize - image.length) 0).toArray, by simp; omega⟩

structure Machine where
  memory : Memory
  registers : RegisterFile
  /-- The top comes first. -/
  stack : List Word
  ip : UInt64
  /-- The unread rest of the current input line. -/
  pending : List Word
  running : Bool
  policy : Policy

namespace Machine

def boot (image : List Word) (policy : Policy) : Logged StorageError Machine :=
  if h : image.length ≤ memorySize then do
    Logged.note (.booted image.length policy)
    return {
      memory := Memory.ofImage image h
      registers := RegisterFile.zero
      stack := []
      ip := 0
      pending := []
      running := true
      policy := policy }
  else Logged.error (.tooLarge image.length)

def abort (m : Machine) : Machine :=
  { m with running := false }

def register (m : Machine) (r : Register) : Word :=
  m.registers.read r

/-- Sets a register to a word reduced to a value. -/
def setRegister (m : Machine) (r : Register) (w : Word) : Machine :=
  { m with registers := m.registers.write r (wrap w.toUInt32) }

def readMemory? (m : Machine) (address : Word) : Option Word :=
  m.memory[address.toNat]?

def writeMemory (m : Machine) (address w : Word) : Except Fault Machine :=
  if h : address.toNat < memorySize then
    .ok { m with memory := m.memory.set address.toNat w h }
  else .error (.invalidAddress address.toUInt64)

/-- Stores a result, reduced to a value. -/
def store (m : Machine) (target : Target) (n : UInt32) : Machine :=
  match target with
  | .register r => { m with registers := m.registers.write r (wrap n) }
  | .memory address => { m with memory := m.memory.setIfInBounds address.toNat (wrap n) }

def valueOf (m : Machine) : Operand → Word
  | .literal value => value
  | .register r => m.register r

def printed (m : Machine) : Opcode → List Word → Char
  | .out, a :: _ =>
    match (Operand.ofWord? m.policy a).bind fun operand => Line.character? (m.valueOf operand) with
    | some c => TraceLine.visible c
    | none => ' '
  | _, _ => ' '

/-- The line of the execution log for an instruction that is about to be run. -/
def traceLine (m : Machine) (opcode : Opcode) (operands : List Word) : TraceLine where
  ip := m.ip
  opcode := opcode
  operands := operands
  printed := m.printed opcode operands
  registers := m.registers
  stack := m.stack

end Machine

end FifteenBit
