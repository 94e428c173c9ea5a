import FifteenBit.FileStore.Error
import FifteenBit.Json.Problem
import FifteenBit.Word

/-! Why an image or a snapshot cannot be read, used or kept. -/

namespace FifteenBit

/-- What a snapshot has that no machine has. -/
inductive Flaw where
  | version (version : UInt32)
  | memory (cells : Nat)
  | registers (count : Nat)
  | value (value : Word)
  deriving DecidableEq, Repr

def Flaw.message : Flaw → String
  | .version v => "unsupported version " ++ toString v
  | .memory n => "memory holds " ++ toString n ++ " cells"
  | .registers n => toString n ++ " registers"
  | .value w => "value " ++ toString w ++ " out of range"

inductive StorageError where
  /-- An image whose bytes do not pair up. -/
  | oddLength (bytes : Nat)
  | tooLarge (words : Nat)
  | file (error : FileError)
  | json (problem : Json.Problem)
  | invalidSnapshot (flaw : Flaw)
  deriving DecidableEq, Repr

def StorageError.message : StorageError → String
  | .oddLength n => "image has an odd number of bytes (" ++ toString n ++ ")"
  | .tooLarge n =>
    "image holds " ++ toString n ++ " words, memory has room for " ++ toString memorySize
  | .file error => "io error: " ++ error.message
  | .json problem => "snapshot encoding error: " ++ problem.message
  | .invalidSnapshot flaw => "invalid snapshot: " ++ flaw.message

end FifteenBit
