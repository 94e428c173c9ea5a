import FifteenBit.Json.Problem

/-! The bytes between the tokens of a document, and the three words of JSON. -/

namespace FifteenBit.Json

def isBlank (b : UInt8) : Bool :=
  b == 0x20 || b == 0x0A || b == 0x0D || b == 0x09

def skipBlanks (s : List UInt8) : List UInt8 :=
  s.dropWhile isBlank

theorem length_skipBlanks_le (s : List UInt8) : (skipBlanks s).length ≤ s.length :=
  (List.dropWhile_sublist isBlank).length_le

def pass : List UInt8 → List UInt8 → Except Problem (List UInt8)
  | [], s => .ok s
  | _ :: _, [] => .error .truncated
  | e :: expected, b :: s => if b = e then pass expected s else .error .malformed

theorem length_pass_le {expected s r : List UInt8} (h : pass expected s = .ok r) :
    r.length ≤ s.length := by
  induction expected generalizing s with
  | nil => simp_all [pass]
  | cons e expected ih =>
    cases s with
    | nil => simp [pass] at h
    | cons b s =>
      simp only [pass] at h
      split at h
      · have hle := ih h
        simp only [List.length_cons]
        omega
      · simp at h

/-- What follows the first letter of `null`, `true` and `false`. -/
def wordTail? (first : UInt8) : Option (List UInt8) :=
  if first = 0x6E then some [0x75, 0x6C, 0x6C]
  else if first = 0x74 then some [0x72, 0x75, 0x65]
  else if first = 0x66 then some [0x61, 0x6C, 0x73, 0x65]
  else none

end FifteenBit.Json
