/-! Numbers and names in columns: flush right, or flush left. -/

namespace FifteenBit.Column

def text (width : Nat) (s : List Char) : List Char :=
  s.leftpad width ' '

def number (width n : Nat) : List Char :=
  text width (Nat.toDigits 10 n)

def left (width : Nat) (s : List Char) : List Char :=
  s.rightpad width ' '

def row (columns : List (List Char)) : List Char :=
  [' '].intercalate columns

end FifteenBit.Column
