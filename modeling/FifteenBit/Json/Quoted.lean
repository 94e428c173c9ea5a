import FifteenBit.Json.Blank

/-! Strings of a document, read after their opening quote. A string that is kept is
decoded and has to be UTF-8 with paired surrogates; one that is skipped has only to
be well formed. -/

namespace FifteenBit.Json.Quoted

def hexDigit? (b : UInt8) : Option Nat :=
  if 0x30 ≤ b ∧ b ≤ 0x39 then some (b.toNat - 0x30)
  else if 0x41 ≤ b ∧ b ≤ 0x46 then some (b.toNat - 0x41 + 10)
  else if 0x61 ≤ b ∧ b ≤ 0x66 then some (b.toNat - 0x61 + 10)
  else none

def hexNumber : List UInt8 → Except Problem (Nat × List UInt8)
  | a :: b :: c :: d :: s =>
    match hexDigit? a, hexDigit? b, hexDigit? c, hexDigit? d with
    | some a, some b, some c, some d => .ok (((a * 16 + b) * 16 + c) * 16 + d, s)
    | _, _, _, _ => .error .malformed
  | _ => .error .truncated

/-- What a backslash and a byte other than `u` stand for. -/
def plainEscape? (b : UInt8) : Option UInt8 :=
  if b = 0x22 ∨ b = 0x5C ∨ b = 0x2F then some b
  else if b = 0x62 then some 0x08
  else if b = 0x66 then some 0x0C
  else if b = 0x6E then some 0x0A
  else if b = 0x72 then some 0x0D
  else if b = 0x74 then some 0x09
  else none

def isLeading (n : Nat) : Bool :=
  0xD800 ≤ n && n < 0xDC00

def isTrailing (n : Nat) : Bool :=
  0xDC00 ≤ n && n < 0xE000

def utf8 (n : Nat) : List UInt8 :=
  String.utf8EncodeChar (Char.ofNat n)

/-- The bytes that a numbered escape stands for, read after its `u`. -/
def numberedEscape (s : List UInt8) : Except Problem (List UInt8 × List UInt8) := do
  let (n, s) ← hexNumber s
  if isTrailing n then .error .malformed
  else if isLeading n then do
    let s ← pass [0x5C, 0x75] s
    let (m, s) ← hexNumber s
    if isTrailing m then .ok (utf8 (0x10000 + (n - 0xD800) * 0x400 + (m - 0xDC00)), s)
    else .error .malformed
  else .ok (utf8 n, s)

/-- The bytes that an escape stands for, read after its backslash. -/
def escape : List UInt8 → Except Problem (List UInt8 × List UInt8)
  | [] => .error .truncated
  | b :: s =>
    if b = 0x75 then numberedEscape s
    else match plainEscape? b with
      | some c => .ok ([c], s)
      | none => .error .malformed

def skipEscape : List UInt8 → Except Problem (List UInt8)
  | [] => .error .truncated
  | b :: s =>
    if b = 0x75 then (hexNumber s).map Prod.snd
    else match plainEscape? b with
      | some _ => .ok s
      | none => .error .malformed

theorem length_hexNumber_lt {s r : List UInt8} {n : Nat} (h : hexNumber s = .ok (n, r)) :
    r.length < s.length := by
  unfold hexNumber at h
  split at h
  · split at h
    · simp only [Except.ok.injEq, Prod.mk.injEq] at h
      simp only [h.2, List.length_cons]
      omega
    · simp at h
  · simp at h

theorem length_numberedEscape_lt {s r bytes : List UInt8}
    (h : numberedEscape s = .ok (bytes, r)) : r.length < s.length := by
  obtain ⟨⟨n, t⟩, hn, h⟩ := bind_eq_ok.1 h
  have ht := length_hexNumber_lt hn
  simp only at h
  split at h
  · simp at h
  · split at h
    · obtain ⟨u, hp, h⟩ := bind_eq_ok.1 h
      obtain ⟨⟨m, v⟩, hm, h⟩ := bind_eq_ok.1 h
      have hu := length_pass_le hp
      have hv := length_hexNumber_lt hm
      simp only at h
      split at h
      · simp only [Except.ok.injEq, Prod.mk.injEq] at h
        rw [← h.2]
        omega
      · simp at h
    · simp only [Except.ok.injEq, Prod.mk.injEq] at h
      rw [← h.2]
      omega

theorem length_escape_lt {s r bytes : List UInt8} (h : escape s = .ok (bytes, r)) :
    r.length < s.length := by
  unfold escape at h
  split at h
  · simp at h
  · split at h
    · have hlt := length_numberedEscape_lt h
      simp only [List.length_cons]
      omega
    · split at h
      · simp only [Except.ok.injEq, Prod.mk.injEq] at h
        simp [← h.2]
      · simp at h

theorem length_skipEscape_lt {s r : List UInt8} (h : skipEscape s = .ok r) :
    r.length < s.length := by
  unfold skipEscape at h
  split at h
  · simp at h
  · rename_i b t
    split at h
    · cases hn : hexNumber t with
      | error p => simp [hn, Except.map] at h
      | ok x =>
        have hlt := length_hexNumber_lt (n := x.1) (r := x.2) hn
        simp only [hn, Except.map, Except.ok.injEq] at h
        simp only [← h, List.length_cons]
        omega
    · split at h
      · simp only [Except.ok.injEq] at h
        simp [h]
      · simp at h

/-- Decodes up to the closing quote; `decoded` holds the bytes so far, the last one
first. -/
def decode (s decoded : List UInt8) : Except Problem (List UInt8 × List UInt8) :=
  match s with
  | [] => .error .truncated
  | b :: s =>
    if b = 0x22 then .ok (decoded.reverse, s)
    else if b = 0x5C then
      match h : escape s with
      | .error p => .error p
      | .ok (bytes, rest) =>
        have := length_escape_lt h
        decode rest (bytes.reverse ++ decoded)
    else if b < 0x20 then .error .malformed
    else decode s (b :: decoded)
termination_by s.length

def read (s : List UInt8) : Except Problem (List UInt8 × List UInt8) := do
  let (bytes, rest) ← decode s []
  if (ByteArray.mk bytes.toArray).validateUTF8 then .ok (bytes, rest)
  else .error .malformed

def skip (s : List UInt8) : Except Problem (List UInt8) :=
  match s with
  | [] => .error .truncated
  | b :: s =>
    if b = 0x22 then .ok s
    else if b = 0x5C then
      match h : skipEscape s with
      | .error p => .error p
      | .ok rest =>
        have := length_skipEscape_lt h
        skip rest
    else if b < 0x20 then .error .malformed
    else skip s
termination_by s.length

theorem length_decode_lt {s decoded bytes r : List UInt8}
    (h : decode s decoded = .ok (bytes, r)) : r.length < s.length := by
  fun_induction decode s decoded with
  | case1 => simp at h
  | case2 decoded s =>
    simp only [Except.ok.injEq, Prod.mk.injEq] at h
    simp [h.2]
  | case3 => simp at h
  | case4 decoded s _ bytes rest he hlt ih =>
    have hr := ih h
    simp only [List.length_cons]
    omega
  | case5 => simp at h
  | case6 decoded b s _ _ _ ih =>
    have hr := ih h
    simp only [List.length_cons]
    omega

theorem length_read_lt {s bytes r : List UInt8} (h : read s = .ok (bytes, r)) :
    r.length < s.length := by
  obtain ⟨⟨b, t⟩, hd, h⟩ := bind_eq_ok.1 h
  simp only at h
  split at h
  · simp only [Except.ok.injEq, Prod.mk.injEq] at h
    rw [← h.2]
    exact length_decode_lt hd
  · simp at h

theorem length_skip_lt {s r : List UInt8} (h : skip s = .ok r) : r.length < s.length := by
  fun_induction skip s with
  | case1 => simp at h
  | case2 s =>
    simp only [Except.ok.injEq] at h
    simp [h]
  | case3 => simp at h
  | case4 s _ rest he hlt ih =>
    have hr := ih h
    simp only [List.length_cons]
    omega
  | case5 => simp at h
  | case6 b s _ _ _ ih =>
    have hr := ih h
    simp only [List.length_cons]
    omega

end FifteenBit.Json.Quoted
