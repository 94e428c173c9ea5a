/-! The arguments of the command line. They are taken in order, and the first fault
or request to print something decides. -/

namespace FifteenBit.CommandLine

structure Options where
  image : Option String
  resume : Option String
  save : Option String
  strict : Bool
  dumpMemory : Bool
  verbosity : Nat
  deriving DecidableEq, Repr

namespace Options

def initial : Options :=
  ⟨none, none, none, false, false, 0⟩

/-- The file that a machine is made from. -/
def source (o : Options) : String :=
  o.resume.getD (o.image.getD "challenge.bin")

end Options

inductive Request where
  | run (o : Options)
  | version
  | help
  | misuse
  deriving DecidableEq, Repr

inductive Argument where
  /-- Two dashes alone: no option follows. -/
  | separator
  /-- A long option, with the value after its equals sign if it has one. -/
  | long (name : String) (value : Option String)
  | short (letters : List Char)
  | text (s : String)
  deriving DecidableEq, Repr

namespace Argument

def ofChars : List Char → Argument
  | ['-', '-'] => .separator
  | '-' :: '-' :: s =>
    match s.dropWhile (· != '=') with
    | [] => .long (String.ofList s) none
    | _ :: value => .long (String.ofList (s.takeWhile (· != '='))) (some (String.ofList value))
  | '-' :: c :: s => .short (c :: s)
  | s => .text (String.ofList s)

def ofString (s : String) : Argument :=
  ofChars s.toList

end Argument

namespace Options

/-- Adds the image, which is given once and has a name. -/
def addImage? (o : Options) (s : String) : Option Options :=
  if s = "" ∨ o.image.isSome then none else some { o with image := some s }

def addResume? (o : Options) (s : String) : Option Options :=
  if s = "" ∨ o.resume.isSome then none else some { o with resume := some s }

def addSave? (o : Options) (s : String) : Option Options :=
  if s = "" ∨ o.save.isSome then none else some { o with save := some s }

def addLetters (o : Options) : List Char → Except Request Options
  | [] => .ok o
  | 'v' :: letters => { o with verbosity := o.verbosity + 1 }.addLetters letters
  | 'V' :: _ => .error .version
  | 'h' :: _ => .error .help
  | _ :: _ => .error .misuse

def addTexts (o : Options) : List String → Request
  | [] => .run o
  | s :: args => match o.addImage? s with
    | some o => o.addTexts args
    | none => .misuse

end Options

/-- Goes on with the options if there are any. -/
def proceed (o : Option Options) (next : Options → Request) : Request :=
  match o with
  | some o => next o
  | none => .misuse

/-- Reads the arguments that are left. An option with a value takes the next argument
for it, which does not look like an option. -/
def request (o : Options) : List String → Request
  | [] => .run o
  | arg :: args =>
    match Argument.ofString arg with
    | .separator => o.addTexts args
    | .text s => proceed (o.addImage? s) (request · args)
    | .short letters => match o.addLetters letters with
      | .ok o => request o args
      | .error r => r
    | .long "resume" (some s) => proceed (o.addResume? s) (request · args)
    | .long "save" (some s) => proceed (o.addSave? s) (request · args)
    | .long "resume" none => match args with
      | [] => .misuse
      | next :: args => match Argument.ofString next with
        | .text s => proceed (o.addResume? s) (request · args)
        | _ => .misuse
    | .long "save" none => match args with
      | [] => .misuse
      | next :: args => match Argument.ofString next with
        | .text s => proceed (o.addSave? s) (request · args)
        | _ => .misuse
    | .long "strict" none =>
      if o.strict then .misuse else request { o with strict := true } args
    | .long "dump-memory" none =>
      if o.dumpMemory then .misuse else request { o with dumpMemory := true } args
    | .long "verbose" none => request { o with verbosity := o.verbosity + 1 } args
    | .long "version" none => .version
    | .long "help" none => .help
    | .long _ _ => .misuse

end FifteenBit.CommandLine
