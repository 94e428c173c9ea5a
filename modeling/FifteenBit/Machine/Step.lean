import FifteenBit.Console
import FifteenBit.Machine.Effect

/-! One instruction at a time. A step that fails or halts leaves all of the machine
as it was, except that it runs no more. -/

namespace FifteenBit

inductive Status where
  | running
  | halted (reason : HaltReason)
  deriving DecidableEq, Repr

/-- What a step leaves behind: the machine, the console, how it ended, its log
records and its uses of the console. -/
structure Step (σ : Type) where
  machine : Machine
  console : σ
  result : Except Fault Status
  log : List Notice
  calls : List Call

namespace Machine

variable {σ : Type}

def advance (m : Machine) (c : σ) (calls : List Call) (ip : UInt64) : Step σ where
  machine := { m with ip := ip }
  console := c
  result := .ok .running
  log := []
  calls := calls

def halt (m : Machine) (c : σ) (reason : HaltReason) : Step σ where
  machine := m.abort
  console := c
  result := .ok (.halted reason)
  log := [.halted m.ip reason]
  calls := []

def fail (m : Machine) (c : σ) (calls : List Call) (fault : Fault) : Step σ where
  machine := m.abort
  console := c
  result := .error fault
  log := [.faulted fault]
  calls := calls

/-- Puts an effect into force; `next` is the address after the instruction. -/
def perform [Console σ] (m : Machine) (c : σ) (next : UInt64) : Effect → Step σ
  | .next => m.advance c [] next
  | .halt => m.halt c .opcode
  | .jump address => m.advance c [] address.toUInt64
  | .call address =>
    { m with stack := wrap (m.ip.toUInt32 + 2) :: m.stack }.advance c [] address.toUInt64
  | .ret =>
    match m.stack with
    | [] => m.halt c .emptyReturn
    | address :: stack => { m with stack := stack }.advance c [] address.toUInt64
  | .store target result => (m.store target result).advance c [] next
  | .push value => { m with stack := value :: m.stack }.advance c [] next
  | .pop target =>
    match m.stack with
    | [] => m.fail c [] (.stackUnderflow m.ip)
    | value :: stack => ({ m with stack := stack }.store target value.toUInt32).advance c [] next
  | .write code =>
    match Console.write c code with
    | (.ok _, c) => m.advance c [.wrote code] next
    | (.error reason, c) => m.fail c [.refused code reason] (.console reason)
  | .read target =>
    match m.pending with
    | code :: rest => ({ m with pending := rest }.store target code.toUInt32).advance c [] next
    | [] =>
      match Console.refill c with
      | (.codes code rest, readings, c) =>
        ({ m with pending := rest }.store target code.toUInt32).advance c
          (readings.map .read) next
      | (.endOfInput, readings, c) => m.fail c (readings.map .read) (.inputExhausted m.ip)
      | (.failed reason, readings, c) => m.fail c (readings.map .read) (.console reason)

/-- Runs one instruction. The log holds the instruction, the warnings about its
operands, and how it stops the machine if it does. -/
def step [Console σ] (m : Machine) (c : σ) : Step σ :=
  if m.running then
    match m.fetch with
    | .error fault => m.fail c [] fault
    | .ok i =>
      let executing := Notice.executing (m.traceLine i.opcode i.operands)
      let next := m.ip + i.size.toUInt64
      let ⟨warnings, effect⟩ := m.effect i
      let s := match effect with
        | .error fault => m.fail c [] fault
        | .ok effect => m.perform c next effect
      { s with log := executing :: warnings ++ s.log }
  else
    { machine := m, console := c, result := .error .machineHalted, log := [], calls := [] }

end Machine

end FifteenBit
