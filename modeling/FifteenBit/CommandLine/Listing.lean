import FifteenBit.Column
import FifteenBit.Machine.Basic

/-! The listing of memory: ten cells a row, each row under the address of its first
cell and the one after its tenth. -/

namespace FifteenBit.CommandLine.Listing

def cellsPerRow : Nat := 10

def row (start : Nat) (cells : List Word) : List Char :=
  [' ', ' '] ++ Column.number 5 start ++ ['-'] ++ Column.number 5 (start + cellsPerRow) ++ [':']
    ++ cells.flatMap (fun w => [' ', ' '] ++ Column.number 7 w.toNat) ++ ['\n']

def rows (start : Nat) : List Word → List (List Char)
  | [] => []
  | w :: ws =>
    row start (w :: ws.take (cellsPerRow - 1)) ::
      rows (start + cellsPerRow) (ws.drop (cellsPerRow - 1))
termination_by ws => ws.length
decreasing_by simp only [List.length_drop, List.length_cons]; omega

def text (memory : Memory) : String :=
  String.ofList (rows 0 memory.toList).flatten

end FifteenBit.CommandLine.Listing
