import FifteenBit.Proofs.Alike

/-! A console that plays back recorded answers and then hands over to another console. -/

namespace FifteenBit

structure Replay (τ : Type) where
  recorded : List Call
  rest : τ

namespace Replay

variable {τ : Type} [Console τ]

/-- Where what is asked is not what was recorded, the other console takes over. -/
def read (c : Replay τ) : Reading × Replay τ :=
  match c.recorded with
  | .read reading :: calls => (reading, ⟨calls, c.rest⟩)
  | _ => ((Console.read c.rest).1, ⟨[], (Console.read c.rest).2⟩)

def write (c : Replay τ) (code : Word) : Except String Unit × Replay τ :=
  match c.recorded with
  | .wrote _ :: calls => (.ok (), ⟨calls, c.rest⟩)
  | .refused _ reason :: calls => (.error reason, ⟨calls, c.rest⟩)
  | _ => ((Console.write c.rest code).1, ⟨[], (Console.write c.rest code).2⟩)

def blanks (c : Replay τ) : Nat :=
  c.recorded.length + Console.blanks c.rest

theorem blanks_read (c : Replay τ) (h : (read c).1 = .line []) :
    blanks (read c).2 < blanks c := by
  unfold read at h ⊢
  split
  · rename_i reading calls hc
    simp only [blanks, hc, List.length_cons]
    omega
  · split at h
    · rename_i hc
      simp_all
    · have hlt := Console.blanks_read c.rest h
      simp only [blanks, List.length_nil]
      omega

instance : Console (Replay τ) where
  read := read
  write := write
  blanks := blanks
  blanks_read := blanks_read

theorem alike_rest (c : τ) : Console.Alike (⟨[], c⟩ : Replay τ) c := by
  have hk : Console.Keeps fun (x : Replay τ) y => x = ⟨[], y⟩ := by
    constructor
    · rintro _ d rfl
      exact ⟨rfl, rfl⟩
    · rintro _ d rfl code
      exact ⟨rfl, rfl⟩
  exact hk.alike rfl

/-- Whatever one console has answered, there is a console that answers so and then like another. -/
theorem answersThen (calls : List Call) (c : τ) :
    Console.AnswersThen (⟨calls, c⟩ : Replay τ) calls c := by
  refine ⟨⟨[], c⟩, ?_, alike_rest c⟩
  induction calls with
  | nil => exact .nil _
  | cons call calls ih =>
    cases call with
    | read reading => exact Console.answers_read_cons.2 ⟨rfl, ih⟩
    | wrote code => exact .wrote rfl ih
    | refused code reason => exact .refused rfl ih

end Replay

end FifteenBit
