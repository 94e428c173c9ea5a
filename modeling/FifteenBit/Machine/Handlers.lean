import FifteenBit.Machine.Step

/-! Instructions as handlers that work on the machine in place. A handler that fails leaves the
machine as it has made it by then, and nothing puts it back. -/

namespace FifteenBit

/-- A machine and its console while an instruction is run, with the log records and the uses of the
console that it has made. -/
structure Context (σ : Type) where
  machine : Machine
  console : σ
  log : List Notice
  calls : List Call

def Context.noted {σ : Type} (s : Context σ) (log : List Notice) : Context σ :=
  { s with log := s.log ++ log }

def Context.called {σ : Type} (s : Context σ) (c : σ) (calls : List Call) : Context σ :=
  { s with console := c, calls := s.calls ++ calls }

/-- The context stays as it is when a handler fails. -/
abbrev Handler (σ α : Type) : Type :=
  EStateM Fault (Context σ) α

/-- Where the machine goes on after an instruction. -/
inductive Flow where
  | next
  | jump (address : Word)
  | halt (reason : HaltReason)
  deriving DecidableEq, Repr

namespace Handler

variable {σ α : Type}

/-- Asks the machine as it is now. -/
def ask (f : Machine → Logged Fault α) : Handler σ α := fun s =>
  let logged := f s.machine
  match logged.result with
  | .ok a => .ok a (s.noted logged.log)
  | .error fault => .error fault (s.noted logged.log)

/-- Fails at the present instruction pointer. -/
def raise (fault : UInt64 → Fault) : Handler σ α := fun s =>
  .error (fault s.machine.ip) s

def value (raw : Word) : Handler σ Word :=
  ask (Machine.value · raw)

def target (raw : Word) : Handler σ Target :=
  ask (Machine.target · raw)

def update (f : Machine → Machine) : Handler σ Unit :=
  modify fun s => { s with machine := f s.machine }

def store (target : Target) (n : UInt32) : Handler σ Unit :=
  update (Machine.store · target n)

def push (x : Word) : Handler σ Unit :=
  update fun m => { m with stack := x :: m.stack }

def pop? : Handler σ (Option Word) := fun s =>
  match s.machine.stack with
  | [] => .ok none s
  | x :: stack => .ok (some x) { s with machine := { s.machine with stack := stack } }

def write [Console σ] (code : Word) : Handler σ Unit := fun s =>
  match Console.write s.console code with
  | (.ok _, c) => .ok () (s.called c [.wrote code])
  | (.error reason, c) => .error (.console reason) (s.called c [.refused code reason])

/-- Reads lines until a code is pending. -/
def refill [Console σ] : Handler σ Unit := fun s =>
  if hp : s.machine.pending = [] then
    match h : Console.read s.console with
    | (.line codes, c) =>
      have hlt : codes = [] → Console.blanks c < Console.blanks s.console := by
        rintro rfl
        simpa [h] using Console.blanks_read s.console
      let machine := { s.machine with pending := s.machine.pending ++ codes }
      refill { s.called c [.read (.line codes)] with machine := machine }
    | (.endOfInput, c) => .error (.inputExhausted s.machine.ip) (s.called c [.read .endOfInput])
    | (.failed reason, c) => .error (.console reason) (s.called c [.read (.failed reason)])
  else .ok () s
termination_by s => if s.machine.pending = [] then Console.blanks s.console + 1 else 0
decreasing_by
  rw [hp, List.nil_append, if_pos rfl]
  split
  · exact Nat.succ_lt_succ (hlt ‹_›)
  · exact Nat.succ_pos _

def takePending? : Handler σ (Option Word) := fun s =>
  match s.machine.pending with
  | [] => .ok none s
  | x :: pending => .ok (some x) { s with machine := { s.machine with pending := pending } }

def combine (a b c : Word) (f : UInt32 → UInt32 → UInt32) : Handler σ Flow := do
  let target ← target a
  let x ← value b
  let y ← value c
  store target (f x.toUInt32 y.toUInt32)
  return .next

def branch (a b : Word) (wanted : Bool) : Handler σ Flow := do
  let condition ← value a
  if (condition != 0) == wanted then return .jump (← value b)
  else return .next

def call (x : Word) : Handler σ Flow := do
  let s ← get
  push (wrap (s.machine.ip.toUInt32 + 2))
  return .jump x

def ret : Handler σ Flow := do
  match ← pop? with
  | some x => return .jump x
  | none => return .halt .emptyReturn

def pop (target : Target) : Handler σ Flow := do
  match ← pop? with
  | some x => store target x.toUInt32
  | none => raise .stackUnderflow
  return .next

def input [Console σ] (target : Target) : Handler σ Flow := do
  refill
  if let some code ← takePending? then store target code.toUInt32
  return .next

def handle [Console σ] : Instruction → Handler σ Flow
  | .halt => return .halt .opcode
  | .set a b => do
    match ← ask (Machine.operand · a) with
    | .literal _ => raise (.invalidWriteTarget · a)
    | .register r =>
      let x ← value b
      store (.register r) x.toUInt32
      return .next
  | .push a => do
    push (← value a)
    return .next
  | .pop a => do pop (← target a)
  | .eq a b c => combine a b c fun x y => if x = y then 1 else 0
  | .gt a b c => combine a b c fun x y => if x > y then 1 else 0
  | .jmp a => return .jump (← value a)
  | .jt a b => branch a b true
  | .jf a b => branch a b false
  | .add a b c => combine a b c fun x y => x + y
  | .mult a b c => combine a b c fun x y => x * y
  | .mod a b c => do
    if (← value c) = 0 then raise .divisionByZero
    else combine a b c fun x y => x % y
  | .and a b c => combine a b c fun x y => x &&& y
  | .or a b c => combine a b c fun x y => x ||| y
  | .not a b => do
    let target ← target a
    let x ← value b
    store target (~~~x &&& 0x7FFF).toUInt32
    return .next
  | .rmem a b => do
    let target ← target a
    let address ← value b
    let w ← ask fun m => Logged.ofExcept (m.cell address.toUInt64)
    store target w.toUInt32
    return .next
  | .wmem a b => do
    let address ← value a
    let x ← value b
    store (.memory address) x.toUInt32
    return .next
  | .call a => do call (← value a)
  | .ret => ret
  | .out a => do
    write (← value a)
    return .next
  | .input a => do input (← target a)
  | .noop => return .next

/-- Moves on after an instruction; `next` is the address behind it. -/
def follow (next : UInt64) : Flow → Handler σ Status
  | .next => do
    update fun m => { m with ip := next }
    return .running
  | .jump x => do
    update fun m => { m with ip := x.toUInt64 }
    return .running
  | .halt reason => return .halted reason

/-- Runs an instruction that has been fetched. -/
def execute [Console σ] (i : Instruction) : Handler σ Status := do
  let s ← get
  ask fun m => Logged.note (.executing (m.traceLine i.opcode i.operands))
  follow (s.machine.ip + i.size.toUInt64) (← handle i)

def next [Console σ] : Handler σ Status := do
  execute (← ask fun m => Logged.ofExcept m.fetch)

/-- What stops an instruction stops the machine. -/
def conclude : EStateM.Result Fault (Context σ) Status → Step σ
  | .ok .running s => ⟨s.machine, s.console, .ok .running, s.log, s.calls⟩
  | .ok (.halted reason) s =>
    let log := s.log ++ [.halted s.machine.ip reason]
    ⟨s.machine.abort, s.console, .ok (.halted reason), log, s.calls⟩
  | .error fault s => ⟨s.machine.abort, s.console, .error fault, s.log ++ [.faulted fault], s.calls⟩

end Handler

/-- Runs one instruction in place. -/
def Machine.stepInPlace {σ : Type} [Console σ] (m : Machine) (c : σ) : Step σ :=
  if m.running then Handler.conclude (Handler.next.run ⟨m, c, [], []⟩)
  else ⟨m, c, .error .machineHalted, [], []⟩

end FifteenBit
