import FifteenBit.CommandLine.Listing
import FifteenBit.CommandLine.Options
import FifteenBit.Console.Stream
import FifteenBit.Image
import FifteenBit.Machine.Run
import FifteenBit.Snapshot.Storage

/-! A session of the command line: a machine is made from an image or a snapshot, its
memory listed if that is asked for, run to its end, and kept if that is asked for. -/

namespace FifteenBit.CommandLine

namespace Options

def policy (o : Options) : Policy :=
  if o.strict then .strict else .wrap

def level (o : Options) : Level :=
  match o.verbosity with
  | 0 => .warn
  | 1 => .info
  | 2 => .debug
  | _ => .trace

def shows (o : Options) (n : Notice) : Bool :=
  n.isShownAt o.level

/-- The machine to run, from what was found in the source. -/
def machine (o : Options) (found : Except FileError (List UInt8)) :
    Logged StorageError Machine :=
  match o.resume with
  | some _ => do
    let snapshot ← Logged.ofExcept (Snapshot.load found)
    Machine.restore snapshot o.policy
  | none => do
    let image ← Image.load o.source found
    Machine.boot image o.policy

def listing (o : Options) (m : Machine) : String :=
  if o.dumpMemory then Listing.text m.memory else ""

end Options

/-- A log record as a line: its level in five columns, its topic and its text. -/
def logLine (n : Notice) : String :=
  String.ofList (Column.left 5 n.level.name.toList) ++ " [" ++ n.topic ++ "] " ++ n.text ++ "\n"

def logText (o : Options) (log : List Notice) : String :=
  String.join ((log.filter o.shows).map logLine)

/-- The last words about a run, and its exit status. -/
def verdict (o : Options) : Except Fault HaltReason → String × Nat
  | .ok reason => (logText o [.stopped reason], 0)
  | .error fault => ("error " ++ fault.message ++ ", halting...\n", 1)

def versionText : String :=
  "synacor 0.1.0\n"

def helpText : String :=
  "Run a Synacor architecture program image\n\n" ++
  "Usage: synacor [OPTIONS] [IMAGE]\n\n" ++
  "Arguments:\n" ++
  "  [IMAGE]  Program image: little-endian 16-bit words [default: challenge.bin]\n\n" ++
  "Options:\n" ++
  "      --resume <SNAPSHOT>  Continue from a saved snapshot instead of booting the image\n" ++
  "      --strict             Fault on operand values above the register range instead of wrapping them\n" ++
  "      --save <PATH>        Write a snapshot here when the machine stops\n" ++
  "      --dump-memory        Print the loaded memory before running\n" ++
  "  -v, --verbose...         More logging on stderr (-v info, -vv debug, -vvv trace)\n" ++
  "  -h, --help               Print help\n" ++
  "  -V, --version            Print version\n"

def usageText : String :=
  "Usage: synacor [OPTIONS] [IMAGE]\n\nFor more information, try '--help'.\n"

/-- What a session leaves behind: its exit status, what it printed, the files, and what it has
not read of its input. -/
structure Outcome where
  status : Nat
  output : List UInt8
  errors : String
  store : FileStore
  unread : List UInt8

def keep (o : Options) (m : Machine) (store : FileStore) : List Notice × FileStore :=
  match o.save with
  | none => ([], store)
  | some path =>
    let saved := m.snapshot.save path store
    match saved.result with
    | .ok store => (saved.log, store)
    | .error e => (saved.log ++ [.failed e], store)

/-- Runs a session for at most so many instructions; `none` if that is not enough. -/
def Options.execute (o : Options) (fuel : Nat) (store : FileStore) (input : List UInt8) :
    Option Outcome :=
  let started := o.machine (store.read o.source)
  match started.result with
  | .error e => some {
      status := 1
      output := []
      errors := logText o (started.log ++ [.failed e])
      store := store
      unread := input }
  | .ok m =>
    let listed := (o.listing m).toUTF8.toList
    (m.run o.shows fuel (Stream.ofInput input) #[]).map fun r =>
      let kept := keep o r.machine store
      let last := verdict o r.result
      { status := last.2
        output := listed ++ r.console.emitted.toList
        errors := logText o (started.log ++ r.log.toList ++ kept.1) ++ last.1
        store := kept.2
        unread := r.console.unread }

def execute (fuel : Nat) (args : List String) (store : FileStore) (input : List UInt8) :
    Option Outcome :=
  match request Options.initial args with
  | .run o => o.execute fuel store input
  | .version => some {
      status := 0
      output := versionText.toUTF8.toList
      errors := ""
      store := store
      unread := input }
  | .help => some {
      status := 0
      output := helpText.toUTF8.toList
      errors := ""
      store := store
      unread := input }
  | .misuse => some {
      status := 2
      output := []
      errors := usageText
      store := store
      unread := input }

end FifteenBit.CommandLine
