import FifteenBit.Console
import FifteenBit.Line

/-! A console over two byte streams in UTF-8. A line goes up to its line feed, or
to the end of what is unread; a line that is not UTF-8 is a failure. -/

namespace FifteenBit

structure Stream where
  unread : List UInt8
  emitted : Array UInt8

namespace Stream

def ofInput (bytes : List UInt8) : Stream where
  unread := bytes
  emitted := #[]

/-- The first line with its line feed, and what follows it. -/
def splitLine (bytes : List UInt8) : List UInt8 × List UInt8 :=
  (bytes.takeWhile (· != 10) ++ (bytes.dropWhile (· != 10)).take 1,
    (bytes.dropWhile (· != 10)).drop 1)

def read (c : Stream) : Reading × Stream :=
  if c.unread.isEmpty then (.endOfInput, c)
  else
    let (line, rest) := splitLine c.unread
    match String.fromUTF8? ⟨line.toArray⟩ with
    | some text => (.line (Line.codes text), { c with unread := rest })
    | none => (.failed "stream did not contain valid UTF-8", { c with unread := rest })

theorem read_ne_blank (c : Stream) : (read c).1 ≠ .line [] := by
  unfold read
  split
  · simp
  · split
    split <;> simp [Line.codes]

instance : Console Stream where
  read := read
  write c code :=
    (.ok (), { c with
      emitted := c.emitted ++ String.utf8EncodeChar (Line.character code) })
  blanks _ := 0
  blanks_read c h := absurd h (read_ne_blank c)

end Stream

end FifteenBit
