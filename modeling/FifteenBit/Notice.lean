import FifteenBit.Fault
import FifteenBit.Operand
import FifteenBit.StorageError
import FifteenBit.TraceLine

/-! Log records. A record is kept as what happened; its level, topic and text are
read off it. -/

namespace FifteenBit

inductive Level where
  | error | warn | info | debug | trace
  deriving DecidableEq, Repr

namespace Level

def rank : Level → Nat
  | .error => 0
  | .warn => 1
  | .info => 2
  | .debug => 3
  | .trace => 4

def name : Level → String
  | .error => "ERROR"
  | .warn => "WARN"
  | .info => "INFO"
  | .debug => "DEBUG"
  | .trace => "TRACE"

end Level

inductive Notice where
  | loaded (words : Nat) (path : String)
  | booted (words : Nat) (policy : Policy)
  | resumed (ip : UInt64)
  | saved (path : String)
  | executing (line : TraceLine)
  | normalized (raw : Word) (ip : UInt64) (operand : Operand)
  | halted (ip : UInt64) (reason : HaltReason)
  | faulted (fault : Fault)
  /-- The command line reports why a run has stopped. -/
  | stopped (reason : HaltReason)
  /-- The command line reports what could not be loaded or saved. -/
  | failed (error : StorageError)
  deriving DecidableEq

namespace Notice

def level : Notice → Level
  | .loaded .. | .booted .. | .resumed _ | .saved _ | .halted .. | .stopped _ => .info
  | .executing _ => .trace
  | .normalized .. => .warn
  | .faulted _ | .failed _ => .error

def topic : Notice → String
  | .loaded .. => "synacor::loader"
  | .booted .. | .executing _ | .normalized .. | .halted .. | .faulted _ => "synacor::vm"
  | .resumed _ | .saved _ => "synacor::snapshot"
  | .stopped _ | .failed _ => "synacor"

def text : Notice → String
  | .loaded words path => "loaded " ++ toString words ++ " words from " ++ path
  | .booted words policy =>
    "booting " ++ toString words ++ " words, operand policy " ++ policy.name
  | .resumed ip => "resuming at ip " ++ toString ip
  | .saved path => "saved snapshot to " ++ path
  | .executing line => line.text
  | .normalized raw ip operand =>
    "operand " ++ toString raw ++ " at ip " ++ toString ip ++ " normalized to " ++ operand.text
  | .halted ip reason => "halted at ip " ++ toString ip ++ ": " ++ reason.name
  | .faulted fault => fault.message ++ ", halting"
  | .stopped reason => "stopped: " ++ reason.name
  | .failed error => error.message

/-- Whether a log at some level holds the record. -/
def isShownAt (limit : Level) (n : Notice) : Bool :=
  n.level.rank ≤ limit.rank

end Notice

/-- A result or an error, with the records made on the way. -/
structure Logged (ε α : Type) where
  log : List Notice
  result : Except ε α

namespace Logged

variable {ε α β : Type}

def pure (a : α) : Logged ε α where
  log := []
  result := .ok a

def error (e : ε) : Logged ε α where
  log := []
  result := .error e

def note (n : Notice) : Logged ε Unit where
  log := [n]
  result := .ok ()

def ofExcept (result : Except ε α) : Logged ε α where
  log := []
  result := result

def bind (x : Logged ε α) (f : α → Logged ε β) : Logged ε β :=
  match x.result with
  | .error e => { log := x.log, result := .error e }
  | .ok a =>
    let y := f a
    { log := x.log ++ y.log, result := y.result }

instance : Monad (Logged ε) where
  pure := pure
  bind := bind

end Logged

end FifteenBit
