import FifteenBit.Instruction
import FifteenBit.Machine.Basic

/-! What an instruction is about to do, with its operands read in the present
state. Reading them may fail, and may leave a warning for each word that is
reduced; it changes nothing. -/

namespace FifteenBit

inductive Effect where
  | next
  | halt
  | jump (address : Word)
  | call (address : Word)
  | ret
  | store (target : Target) (result : UInt32)
  | push (value : Word)
  | pop (target : Target)
  | write (code : Word)
  | read (target : Target)
  deriving DecidableEq, Repr

namespace Machine

def cell (m : Machine) (address : UInt64) : Except Fault Word :=
  match m.memory[address.toNat]? with
  | some w => .ok w
  | none => .error (.invalidAddress address)

def fetch (m : Machine) : Except Fault Instruction := do
  let raw ← m.cell m.ip
  match Opcode.ofWord? raw with
  | none => .error (.invalidOpcode m.ip raw)
  | some opcode => Instruction.assemble (fun i => m.cell (m.ip + i.toUInt64)) opcode

def operand (m : Machine) (raw : Word) : Logged Fault Operand :=
  match Operand.ofWord? m.policy raw with
  | none => Logged.error (.invalidOperand m.ip raw)
  | some operand =>
    { log := if Operand.outOfRange raw then [.normalized raw m.ip operand] else []
      result := .ok operand }

def value (m : Machine) (raw : Word) : Logged Fault Word :=
  return m.valueOf (← m.operand raw)

def target (m : Machine) (raw : Word) : Logged Fault Target :=
  return (← m.operand raw).target

/-- A result of two values goes to a target. -/
def combine (m : Machine) (a b c : Word) (f : UInt32 → UInt32 → UInt32) :
    Logged Fault Effect := do
  let target ← m.target a
  let x ← m.value b
  let y ← m.value c
  return .store target (f x.toUInt32 y.toUInt32)

/-- A jump that is taken if the condition has the wanted truth; only then is its
destination looked at. -/
def branch (m : Machine) (a b : Word) (wanted : Bool) : Logged Fault Effect := do
  let condition ← m.value a
  if (condition != 0) == wanted then return .jump (← m.value b)
  else return .next

def effect (m : Machine) : Instruction → Logged Fault Effect
  | .halt => return .halt
  | .set a b => do
    match ← m.operand a with
    | .literal _ => Logged.error (.invalidWriteTarget m.ip a)
    | .register r => return .store (.register r) (← m.value b).toUInt32
  | .push a => return .push (← m.value a)
  | .pop a => return .pop (← m.target a)
  | .eq a b c => m.combine a b c fun x y => if x = y then 1 else 0
  | .gt a b c => m.combine a b c fun x y => if x > y then 1 else 0
  | .jmp a => return .jump (← m.value a)
  | .jt a b => m.branch a b true
  | .jf a b => m.branch a b false
  | .add a b c => m.combine a b c fun x y => x + y
  | .mult a b c => m.combine a b c fun x y => x * y
  | .mod a b c => do
    if (← m.value c) = 0 then Logged.error (.divisionByZero m.ip)
    else m.combine a b c fun x y => x % y
  | .and a b c => m.combine a b c fun x y => x &&& y
  | .or a b c => m.combine a b c fun x y => x ||| y
  | .not a b => do
    let target ← m.target a
    let x ← m.value b
    return .store target (~~~x &&& 0x7FFF).toUInt32
  | .rmem a b => do
    let target ← m.target a
    let address ← m.value b
    let w ← Logged.ofExcept (m.cell address.toUInt64)
    return .store target w.toUInt32
  | .wmem a b => do
    let address ← m.value a
    let x ← m.value b
    return .store (.memory address) x.toUInt32
  | .call a => return .call (← m.value a)
  | .ret => return .ret
  | .out a => return .write (← m.value a)
  | .input a => return .read (← m.target a)
  | .noop => return .next

end Machine

end FifteenBit
