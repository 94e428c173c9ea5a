import FifteenBit.Word

/-! Lines of text as codes. A line loses the carriage returns and line feeds it
ends with, is written in UTF-16, and gets one line feed at its end. A code is
shown as its character, a surrogate as the replacement character. -/

namespace FifteenBit.Line

def isTerminator (c : Char) : Bool :=
  c == '\n' || c == '\r'

/-- The text without the terminators at its end. -/
def trim (text : List Char) : List Char :=
  (text.reverse.dropWhile isTerminator).reverse

/-- The UTF-16 code units of a character: one up to U+FFFF, else two surrogates. -/
def units (c : Char) : List Word :=
  if c.toNat < 0x10000 then [c.toNat.toUInt16]
  else
    [(0xD800 + (c.toNat - 0x10000) / 0x400).toUInt16,
      (0xDC00 + (c.toNat - 0x10000) % 0x400).toUInt16]

def codes (text : String) : List Word :=
  (trim text.toList).flatMap units ++ [10]

/-- The character with a code, unless that is a surrogate. -/
def character? (code : Word) : Option Char :=
  if h : code.toUInt32.isValidChar then some ⟨code.toUInt32, h⟩ else none

/-- The character that is shown for a code. -/
def character (code : Word) : Char :=
  (character? code).getD '\uFFFD'

end FifteenBit.Line
