import FifteenBit.CommandLine.Session

/-! The program: a session of the command line on the real files and streams. A line
is read from the standard input only when the machine is about to want one, and what
it writes is printed after each instruction. -/

namespace FifteenBit.CommandLine

/-- What a failure of the system means for a file. -/
def fileError : IO.Error → FileError
  | .noFileOrDirectory .. => .notFound
  | .inappropriateType _ code _ => if code = 20 then .notDirectory else .isDirectory
  | .invalidArgument _ 36 _ => .nameTooLong
  | e => .other (toString e)

def readFile (path : String) : IO (Except FileError (List UInt8)) := do
  match ← (IO.FS.withFile path .read fun file => file.readBinToEnd).toBaseIO with
  | .ok bytes => return .ok bytes.toList
  | .error e => return .error (fileError e)

def writeFile (path : String) (bytes : List UInt8) : IO (Except FileError Unit) := do
  match ← (IO.FS.writeBinFile path ⟨bytes.toArray⟩).toBaseIO with
  | .ok _ => return .ok ()
  | .error e => return .error (fileError e)

/-- Reads up to a line feed or the end of the stream; the last byte read comes first. -/
partial def readLine (input : IO.FS.Stream) (taken : List UInt8) : IO (List UInt8) := do
  let bytes ← input.read 1
  match bytes.toList with
  | [] => return taken
  | b :: _ => if b = 10 then return b :: taken else readLine input (b :: taken)

/-- Gives the console the line that the next step reads. -/
def supply (m : Machine) (c : Stream) : IO Stream := do
  if m.awaitsLine && c.unread.isEmpty then
    (← IO.getStdout).flush
    let taken ← readLine (← IO.getStdin) []
    return { c with unread := taken.reverse }
  else return c

def deliver (c : Stream) : IO Stream := do
  if c.emitted.isEmpty then return c
  else
    (← IO.getStdout).write ⟨c.emitted⟩
    return { c with emitted := #[] }

partial def runMachine (o : Options) (m : Machine) (c : Stream) :
    IO (Machine × Except Fault HaltReason) := do
  let c ← supply m c
  let s := m.step c
  let c ← deliver s.console
  IO.eprint (logText o s.log)
  match s.result with
  | .ok .running => runMachine o s.machine c
  | .ok (.halted reason) => return (s.machine, .ok reason)
  | .error fault => return (s.machine, .error fault)

def keepMachine (o : Options) (m : Machine) : IO Unit := do
  match o.save with
  | none => return
  | some path =>
    match ← writeFile path m.snapshot.bytes with
    | .ok _ => IO.eprint (logText o [.saved path])
    | .error e => IO.eprint (logText o [.failed (.file e)])

def runOptions (o : Options) : IO UInt32 := do
  let started := o.machine (← readFile o.source)
  IO.eprint (logText o started.log)
  match started.result with
  | .error e =>
    IO.eprint (logText o [.failed e])
    return 1
  | .ok m =>
    IO.print (o.listing m)
    let (m, result) ← runMachine o m (Stream.ofInput [])
    (← IO.getStdout).flush
    keepMachine o m
    let last := verdict o result
    IO.eprint last.1
    return last.2.toUInt32

end FifteenBit.CommandLine

open FifteenBit.CommandLine in
def main (args : List String) : IO UInt32 := do
  match request Options.initial args with
  | .run o => runOptions o
  | .version => do
    IO.print versionText
    return 0
  | .help => do
    IO.print helpText
    return 0
  | .misuse => do
    IO.eprint usageText
    return 2
