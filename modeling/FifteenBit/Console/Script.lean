import FifteenBit.Console

/-! A console that follows a script: each attempt to read takes the next reading,
and after the last one the input has ended. It may take only so many codes. -/

namespace FifteenBit

structure Script where
  readings : List Reading
  /-- How many more codes are taken, if that is limited. -/
  room : Option Nat
  written : Array Word

namespace Script

def ofReadings (readings : List Reading) (room : Option Nat) : Script where
  readings := readings
  room := room
  written := #[]

def read (c : Script) : Reading × Script :=
  match c.readings with
  | [] => (.endOfInput, c)
  | reading :: readings => (reading, { c with readings := readings })

def write (c : Script) (code : Word) : Except String Unit × Script :=
  match c.room with
  | none => (.ok (), { c with written := c.written.push code })
  | some 0 => (.error "write refused", c)
  | some (n + 1) => (.ok (), { c with room := some n, written := c.written.push code })

theorem length_read (c : Script) (h : (read c).1 = .line []) :
    (read c).2.readings.length < c.readings.length := by
  unfold read at h ⊢
  split at h
  · simp at h
  · rename_i hc
    simp [hc]

instance : Console Script where
  read := read
  write := write
  blanks c := c.readings.length
  blanks_read := length_read

end Script

end FifteenBit
