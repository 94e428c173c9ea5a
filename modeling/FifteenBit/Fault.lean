import FifteenBit.Word

/-! Why a machine stops: it is told to, or an instruction fails. -/

namespace FifteenBit

inductive HaltReason where
  | opcode
  /-- A `ret` on an empty stack. -/
  | emptyReturn
  deriving DecidableEq, Repr

def HaltReason.name : HaltReason → String
  | .opcode => "Opcode"
  | .emptyReturn => "EmptyReturn"

inductive Fault where
  | stackUnderflow (ip : UInt64)
  | invalidWriteTarget (ip : UInt64) (operand : Word)
  | divisionByZero (ip : UInt64)
  | invalidOperand (ip : UInt64) (value : Word)
  | invalidOpcode (ip : UInt64) (opcode : Word)
  | invalidAddress (address : UInt64)
  | inputExhausted (ip : UInt64)
  | console (reason : String)
  | machineHalted
  deriving DecidableEq, Repr

def Fault.message : Fault → String
  | .stackUnderflow ip => "stack underflow at ip " ++ toString ip
  | .invalidWriteTarget ip operand =>
    "operand " ++ toString operand ++ " at ip " ++ toString ip ++ " does not denote a register"
  | .divisionByZero ip => "division by zero at ip " ++ toString ip
  | .invalidOperand ip value =>
    "invalid operand value " ++ toString value ++ " at ip " ++ toString ip
  | .invalidOpcode ip opcode =>
    "unknown opcode `" ++ toString opcode ++ "` at ip " ++ toString ip
  | .invalidAddress address => "address " ++ toString address ++ " is outside memory"
  | .inputExhausted ip => "input exhausted at ip " ++ toString ip
  | .console reason => "console error: " ++ reason
  | .machineHalted => "machine is halted"

end FifteenBit
