import FifteenBit.Word

/-! Where a program reads lines and writes characters. A console may hand out
lines without a code, but only finitely many before a line with one, the end of
the input or a failure. So a reader that skips them comes to an end. -/

namespace FifteenBit

inductive Reading where
  | line (codes : List Word)
  | endOfInput
  | failed (reason : String)
  deriving DecidableEq, Repr

class Console (σ : Type) where
  read : σ → Reading × σ
  /-- Writes one code, or gives the reason why it is refused. -/
  write : σ → Word → Except String Unit × σ
  /-- A bound on the lines without a code that are still to come. -/
  blanks : σ → Nat
  blanks_read : ∀ c : σ, (read c).1 = .line [] → blanks (read c).2 < blanks c

inductive Call where
  | read (reading : Reading)
  | wrote (code : Word)
  | refused (code : Word) (reason : String)
  deriving DecidableEq, Repr

namespace Console

/-- What comes after the lines without a code: a line with a first code and the
rest of its codes, or nothing more. -/
inductive Supply where
  | codes (first : Word) (rest : List Word)
  | endOfInput
  | failed (reason : String)
  deriving DecidableEq, Repr

/-- Reads until a line has a code, the input ends or the console fails. The
readings are those made, in order. -/
def refill {σ : Type} [Console σ] (c : σ) : Supply × List Reading × σ :=
  match h : read c with
  | (.line (first :: rest), c') => (.codes first rest, [.line (first :: rest)], c')
  | (.endOfInput, c') => (.endOfInput, [.endOfInput], c')
  | (.failed reason, c') => (.failed reason, [.failed reason], c')
  | (.line [], c') =>
    have hlt : blanks c' < blanks c := by simpa [h] using blanks_read c
    let (supply, readings, c'') := refill c'
    (supply, .line [] :: readings, c'')
termination_by blanks c

/-- Two kinds of console are one kind, whichever of them is at hand. -/
instance {σ τ : Type} [Console σ] [Console τ] : Console (σ ⊕ τ) where
  read
    | .inl c => let (reading, c) := read c; (reading, .inl c)
    | .inr c => let (reading, c) := read c; (reading, .inr c)
  write
    | .inl c, code => let (result, c) := write c code; (result, .inl c)
    | .inr c, code => let (result, c) := write c code; (result, .inr c)
  blanks
    | .inl c => blanks c
    | .inr c => blanks c
  blanks_read
    | .inl c, h => blanks_read c h
    | .inr c, h => blanks_read c h

end Console

end FifteenBit
