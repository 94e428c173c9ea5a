import FifteenBit.Console

/-! The uses that are made of a console, and what it answers to them. -/

namespace FifteenBit

/-- Lines without a code. -/
def Call.blanks (n : Nat) : List Call :=
  List.replicate n (.read (.line []))

namespace Console

variable {σ : Type} [Console σ]

/-- From the first state the console answers the calls as they are recorded, and comes
to the second state. -/
inductive Answers : σ → List Call → σ → Prop
  | nil (c : σ) : Answers c [] c
  | read {c d : σ} {calls : List Call} (h : Answers (Console.read c).2 calls d) :
    Answers c (.read (Console.read c).1 :: calls) d
  | wrote {c d : σ} {code : Word} {calls : List Call} (hw : (Console.write c code).1 = .ok ())
      (h : Answers (Console.write c code).2 calls d) :
    Answers c (.wrote code :: calls) d
  | refused {c d : σ} {code : Word} {reason : String} {calls : List Call}
      (hw : (Console.write c code).1 = .error reason)
      (h : Answers (Console.write c code).2 calls d) :
    Answers c (.refused code reason :: calls) d

theorem Answers.single_read {c d : σ} {reading : Reading} (h : Console.read c = (reading, d)) :
    Answers c [.read reading] d := by
  have ha := Answers.read (c := c) (.nil _)
  rwa [h] at ha

theorem Answers.unique {c d d' : σ} {calls : List Call} (h : Answers c calls d)
    (h' : Answers c calls d') : d = d' := by
  induction h with
  | nil => cases h'; rfl
  | read _ ih => cases h' with | read h' => exact ih h'
  | wrote _ _ ih => cases h' with | wrote _ h' => exact ih h'
  | refused _ _ ih => cases h' with | refused _ h' => exact ih h'

theorem answers_read_cons {c d : σ} {reading : Reading} {calls : List Call} :
    Answers c (.read reading :: calls) d ↔
      (Console.read c).1 = reading ∧ Answers (Console.read c).2 calls d := by
  constructor
  · intro h
    cases h with
    | read h => exact ⟨rfl, h⟩
  · rintro ⟨rfl, h⟩
    exact .read h

/-- A console has one next line with a code, after lines without. -/
theorem Answers.line_unique {c d d' : σ} {n n' : Nat} {code code' : Word} {rest rest' : List Word}
    (h : Answers c (Call.blanks n ++ [.read (.line (code :: rest))]) d)
    (h' : Answers c (Call.blanks n' ++ [.read (.line (code' :: rest'))]) d') :
    n = n' ∧ code = code' ∧ rest = rest' := by
  induction n generalizing c n' with
  | zero =>
    have hr := (answers_read_cons.1 h).1
    cases n' with
    | zero =>
      have hr' := (answers_read_cons.1 h').1
      obtain ⟨rfl, rfl⟩ : code = code' ∧ rest = rest' := by simpa [hr] using hr'
      exact ⟨rfl, rfl, rfl⟩
    | succ n' =>
      have hr' := (answers_read_cons.1 h').1
      simp [hr] at hr'
  | succ n ih =>
    have hr := answers_read_cons.1 h
    cases n' with
    | zero =>
      have hr' := (answers_read_cons.1 h').1
      simp [hr.1] at hr'
    | succ n' =>
      obtain ⟨rfl, hcode⟩ := ih hr.2 (answers_read_cons.1 h').2
      exact ⟨rfl, hcode⟩

def Supply.reading : Supply → Reading
  | .codes first rest => .line (first :: rest)
  | .endOfInput => .endOfInput
  | .failed reason => .failed reason

theorem refill_calls {c d : σ} {supply : Supply} {readings : List Reading}
    (h : refill c = (supply, readings, d)) :
    ∃ n, readings.map Call.read = Call.blanks n ++ [.read supply.reading] := by
  fun_induction refill c generalizing supply readings d with
  | case1 => cases h; exact ⟨0, rfl⟩
  | case2 => cases h; exact ⟨0, rfl⟩
  | case3 => cases h; exact ⟨0, rfl⟩
  | case4 c d h hlt supply readings d' hr ih =>
    cases h
    obtain ⟨n, hn⟩ := ih hr
    exact ⟨n + 1, congrArg (Call.read (.line []) :: ·) hn⟩

theorem answers_refill (c : σ) : Answers c ((refill c).2.1.map .read) (refill c).2.2 := by
  fun_induction refill c with
  | case1 c first rest d h => exact .single_read h
  | case2 c d h => exact .single_read h
  | case3 c reason d h => exact .single_read h
  | case4 c d h hlt supply readings d' hr ih =>
    have ha : Answers (Console.read c).2 (readings.map .read) d' := by
      rw [hr] at ih
      rwa [h]
    have hh := Answers.read ha
    rwa [h] at hh

end Console

end FifteenBit
