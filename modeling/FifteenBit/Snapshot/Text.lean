import FifteenBit.Snapshot.Basic

/-! The written form of a snapshot: a JSON object with one member for each field, in
their order, and no blank. -/

namespace FifteenBit.Snapshot

inductive Field where
  | version | memory | registers | stack | ip | running | input
  deriving DecidableEq, Repr

def ascii (s : String) : List UInt8 :=
  s.toList.map fun c => c.toNat.toUInt8

namespace Field

def all : List Field :=
  [.version, .memory, .registers, .stack, .ip, .running, .input]

def name : Field → List UInt8
  | .version => ascii "version"
  | .memory => ascii "memory"
  | .registers => ascii "registers"
  | .stack => ascii "stack"
  | .ip => ascii "ip"
  | .running => ascii "running"
  | .input => ascii "input"

def ofName? (name : List UInt8) : Option Field :=
  all.find? fun f => f.name == name

end Field

def decimal (n : Nat) : List UInt8 :=
  (Nat.toDigits 10 n).map fun c => c.toNat.toUInt8

def commas (items : List (List UInt8)) : List UInt8 :=
  [0x2C].intercalate items

def wordList (ws : List Word) : List UInt8 :=
  [0x5B] ++ commas (ws.map fun w => decimal w.toNat) ++ [0x5D]

def truth (b : Bool) : List UInt8 :=
  if b then ascii "true" else ascii "false"

def value (s : Snapshot) : Field → List UInt8
  | .version => decimal s.version.toNat
  | .memory => wordList s.memory
  | .registers => wordList s.registers
  | .stack => wordList s.stack
  | .ip => decimal s.ip.toNat
  | .running => truth s.running
  | .input => wordList s.input

def member (s : Snapshot) (f : Field) : List UInt8 :=
  [0x22] ++ f.name ++ [0x22, 0x3A] ++ s.value f

def bytes (s : Snapshot) : List UInt8 :=
  [0x7B] ++ commas (Field.all.map s.member) ++ [0x7D]

end FifteenBit.Snapshot
