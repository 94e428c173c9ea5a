import FifteenBit.Console
import FifteenBit.Line

/-! A console in memory: lines are given beforehand or added later, and what is
written is kept. -/

namespace FifteenBit

structure Recorder where
  lines : List String
  written : Array Word

namespace Recorder

def ofLines (lines : List String) : Recorder where
  lines := lines
  written := #[]

def addLine (c : Recorder) (line : String) : Recorder :=
  { c with lines := c.lines ++ [line] }

def text (c : Recorder) : String :=
  String.ofList (c.written.toList.map Line.character)

def read (c : Recorder) : Reading × Recorder :=
  match c.lines with
  | [] => (.endOfInput, c)
  | line :: lines => (.line (Line.codes line), { c with lines := lines })

theorem read_ne_blank (c : Recorder) : (read c).1 ≠ .line [] := by
  unfold read
  split <;> simp [Line.codes]

instance : Console Recorder where
  read := read
  write c code := (.ok (), { c with written := c.written.push code })
  blanks _ := 0
  blanks_read c h := absurd h (read_ne_blank c)

end Recorder

end FifteenBit
