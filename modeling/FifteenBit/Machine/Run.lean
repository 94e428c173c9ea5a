import FifteenBit.Machine.Step

/-! Whole runs: instructions are run until one halts the machine or fails. -/

namespace FifteenBit

/-- How a run ended, and the log records that were kept. -/
structure Run (σ : Type) where
  machine : Machine
  console : σ
  result : Except Fault HaltReason
  log : Array Notice

namespace Machine

variable {σ : Type}

/-- Runs at most so many instructions; `none` if the machine has not stopped by
then. Of the log, the records that `keep` picks are added to `log`. -/
def run [Console σ] (keep : Notice → Bool) :
    Nat → Machine → σ → Array Notice → Option (Run σ)
  | 0, _, _, _ => none
  | fuel + 1, m, c, log =>
    let s := m.step c
    let log := log ++ s.log.filter keep
    match s.result with
    | .ok .running => run keep fuel s.machine s.console log
    | .ok (.halted reason) =>
      some { machine := s.machine, console := s.console, result := .ok reason, log := log }
    | .error fault =>
      some { machine := s.machine, console := s.console, result := .error fault, log := log }

/-- Whether the next step is going to read a line. -/
def awaitsLine (m : Machine) : Bool :=
  m.running && m.pending.isEmpty &&
    match m.fetch with
    | .error _ => false
    | .ok i => match (m.effect i).result with
      | .ok (.read _) => true
      | _ => false

end Machine

end FifteenBit
