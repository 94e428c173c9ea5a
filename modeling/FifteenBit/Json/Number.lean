import FifteenBit.Json.Problem

/-! Numbers of a document: their parts, the natural numbers among them, and those
too big for a double, which no document may hold where a number is looked at. -/

namespace FifteenBit.Json

def isDigit (b : UInt8) : Bool :=
  0x30 ≤ b && b ≤ 0x39

def digit (b : UInt8) : Nat :=
  b.toNat - 0x30

structure Number where
  negative : Bool
  integer : List UInt8
  fraction : Option (List UInt8)
  exponent : Option Int
  deriving DecidableEq, Repr

namespace Number

def begins (b : UInt8) : Bool :=
  b == 0x2D || isDigit b

def digits : List UInt8 → Except Problem (List UInt8 × List UInt8)
  | [] => .error .truncated
  | b :: s =>
    if isDigit b then .ok (b :: s.takeWhile isDigit, s.dropWhile isDigit)
    else .error .malformed

/-- The digits before the point, which begin with a zero only if it stands alone. -/
def integerPart : List UInt8 → Except Problem (List UInt8 × List UInt8)
  | 0x30 :: s => if s.head?.any isDigit then .error .malformed else .ok ([0x30], s)
  | s => digits s

def fractionPart : List UInt8 → Except Problem (Option (List UInt8) × List UInt8)
  | 0x2E :: s => do
    let (ds, rest) ← digits s
    .ok (some ds, rest)
  | s => .ok (none, s)

def ofDigits (ds : List UInt8) : Nat :=
  ds.foldl (fun n b => n * 10 + digit b) 0

def dropSign : List UInt8 → List UInt8
  | 0x2B :: s | 0x2D :: s => s
  | s => s

/-- The exponent after its letter, with its sign if it has one. -/
def signedDigits (s : List UInt8) : Except Problem (Int × List UInt8) := do
  let (ds, rest) ← digits (dropSign s)
  .ok (if s.head? = some 0x2D then -(ofDigits ds : Int) else ofDigits ds, rest)

def exponentPart : List UInt8 → Except Problem (Option Int × List UInt8)
  | 0x65 :: s | 0x45 :: s => do
    let (e, rest) ← signedDigits s
    .ok (some e, rest)
  | s => .ok (none, s)

def unsigned (negative : Bool) (s : List UInt8) : Except Problem (Number × List UInt8) := do
  let (integer, s) ← integerPart s
  let (fraction, s) ← fractionPart s
  let (exponent, s) ← exponentPart s
  .ok (⟨negative, integer, fraction, exponent⟩, s)

def read : List UInt8 → Except Problem (Number × List UInt8)
  | 0x2D :: s => unsigned true s
  | s => unsigned false s

/-- Takes digits as long as the number made of them is below 2^64; the rest of the
digits is left. -/
def significand : Nat → List UInt8 → Nat × List UInt8
  | n, [] => (n, [])
  | n, b :: s =>
    if n * 10 + digit b < Nat.pow 2 64 then significand (n * 10 + digit b) s else (n, b :: s)

/-- The value of a natural number below 2^64 written with digits alone. -/
def natural? (n : Number) : Option Nat :=
  if n.negative || n.fraction.isSome || n.exponent.isSome then none
  else match significand 0 n.integer with
    | (value, []) => some value
    | _ => none

/-- The nearest number of at most 53 significant bits; of two nearest ones the even. -/
def roundDouble (n : Nat) : Nat :=
  let unit := Nat.pow 2 (n.log2 - 52)
  let q := n / unit
  let r := n % unit
  if unit < 2 * r ∨ 2 * r = unit ∧ q % 2 = 1 then (q + 1) * unit else q * unit

/-- Whether `m * 10 ^ e` is beyond the doubles. The factors are rounded before they
are multiplied. -/
def overflows (m : Nat) (e : Int) : Bool :=
  m != 0 &&
    (308 < e ||
      0 ≤ e && Nat.pow 2 1024 - Nat.pow 2 970 ≤
        roundDouble m * roundDouble (Nat.pow 10 e.toNat))

/-- Whether a double has no room for the number. As many digits are taken into its
significand as fit into 64 bits, those of the fraction after those before the point. -/
def tooBig (n : Number) : Bool :=
  let whole := significand 0 n.integer
  let fraction := n.fraction.getD []
  let all := significand whole.1 fraction
  let taken := fraction.length - all.2.length
  overflows all.1 (whole.2.length - taken + n.exponent.getD 0)

theorem length_digits_lt {s ds r : List UInt8} (h : digits s = .ok (ds, r)) :
    r.length < s.length := by
  cases s with
  | nil => simp [digits] at h
  | cons b s =>
    simp only [digits] at h
    split at h
    · simp only [Except.ok.injEq, Prod.mk.injEq] at h
      have hle := (List.dropWhile_sublist isDigit (l := s)).length_le
      simp only [← h.2, List.length_cons]
      omega
    · simp at h

theorem length_integerPart_lt {s ds r : List UInt8} (h : integerPart s = .ok (ds, r)) :
    r.length < s.length := by
  unfold integerPart at h
  split at h
  · split at h
    · simp at h
    · simp only [Except.ok.injEq, Prod.mk.injEq] at h
      simp [h.2]
  · exact length_digits_lt h

theorem length_fractionPart_le {s r : List UInt8} {ds : Option (List UInt8)}
    (h : fractionPart s = .ok (ds, r)) : r.length ≤ s.length := by
  unfold fractionPart at h
  split at h
  · obtain ⟨⟨ds', t⟩, hd, h⟩ := bind_eq_ok.1 h
    simp only [Except.ok.injEq, Prod.mk.injEq] at h
    have hlt := length_digits_lt hd
    simp only [← h.2, List.length_cons]
    omega
  · simp only [Except.ok.injEq, Prod.mk.injEq] at h
    simp [h.2]

theorem length_dropSign_le (s : List UInt8) : (dropSign s).length ≤ s.length := by
  unfold dropSign
  split <;> simp

theorem length_signedDigits_lt {s r : List UInt8} {e : Int}
    (h : signedDigits s = .ok (e, r)) : r.length < s.length := by
  obtain ⟨⟨ds, t⟩, hd, h⟩ := bind_eq_ok.1 h
  simp only [Except.ok.injEq, Prod.mk.injEq] at h
  have hlt := length_digits_lt hd
  have hle := length_dropSign_le s
  rw [← h.2]
  omega

theorem length_exponentPart_le {s r : List UInt8} {e : Option Int}
    (h : exponentPart s = .ok (e, r)) : r.length ≤ s.length := by
  unfold exponentPart at h
  split at h
  · obtain ⟨⟨e', t⟩, hd, h⟩ := bind_eq_ok.1 h
    simp only [Except.ok.injEq, Prod.mk.injEq] at h
    have hlt := length_signedDigits_lt hd
    simp only [← h.2, List.length_cons]
    omega
  · obtain ⟨⟨e', t⟩, hd, h⟩ := bind_eq_ok.1 h
    simp only [Except.ok.injEq, Prod.mk.injEq] at h
    have hlt := length_signedDigits_lt hd
    simp only [← h.2, List.length_cons]
    omega
  · simp only [Except.ok.injEq, Prod.mk.injEq] at h
    simp [h.2]

theorem length_unsigned_lt {negative : Bool} {s r : List UInt8} {n : Number}
    (h : unsigned negative s = .ok (n, r)) : r.length < s.length := by
  obtain ⟨⟨ds, t⟩, hi, h⟩ := bind_eq_ok.1 h
  obtain ⟨⟨fs, u⟩, hf, h⟩ := bind_eq_ok.1 h
  obtain ⟨⟨e, v⟩, he, h⟩ := bind_eq_ok.1 h
  simp only [Except.ok.injEq, Prod.mk.injEq] at h
  have ht := length_integerPart_lt hi
  have hu := length_fractionPart_le hf
  have hv := length_exponentPart_le he
  rw [← h.2]
  omega

theorem length_read_lt {s r : List UInt8} {n : Number} (h : read s = .ok (n, r)) :
    r.length < s.length := by
  unfold read at h
  split at h
  · have hlt := length_unsigned_lt h
    simp only [List.length_cons]
    omega
  · exact length_unsigned_lt h

end Number

end FifteenBit.Json
