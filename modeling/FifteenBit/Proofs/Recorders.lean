import FifteenBit.Console.Recorder
import FifteenBit.Proofs.Interruption

/-! Consoles in memory. What was written before makes no difference to them, and of all
uses only a reading without a line is not served. -/

namespace FifteenBit.Recorder

theorem keeps_written (w : Array Word) :
    Console.Keeps fun c d : Recorder => d = ⟨c.lines, w ++ c.written⟩ where
  read := by
    rintro ⟨lines, v⟩ _ rfl
    cases lines <;> exact ⟨rfl, rfl⟩
  write := by
    rintro ⟨lines, v⟩ _ rfl code
    exact ⟨rfl, congrArg (Recorder.mk lines) (Array.push_append ..)⟩

theorem answers_append {c d : Recorder} {calls : List Call} (h : Console.Answers c calls d)
    (hs : ∀ call ∈ calls, call.Served) (lines : List String) :
    Console.Answers (⟨c.lines ++ lines, c.written⟩ : Recorder) calls
      ⟨d.lines ++ lines, d.written⟩ := by
  induction h with
  | nil => exact .nil _
  | @read c d calls h ih =>
    have ih := ih fun call hm => hs call (List.mem_cons_of_mem _ hm)
    have hr := hs _ List.mem_cons_self
    obtain ⟨_ | ⟨line, rest⟩, w⟩ := c
    · cases hr
    · exact Console.answers_read_cons.2 ⟨rfl, ih⟩
  | wrote _ _ ih =>
    exact .wrote rfl (ih fun call hm => hs call (List.mem_cons_of_mem _ hm))
  | refused hw => cases hw

theorem exhausted_of_not_served {c d : Recorder} {failing : Call}
    (h : Console.Answers c [failing] d) (hn : ¬ failing.Served) : c.lines = [] ∧ d = c := by
  cases failing with
  | wrote code => exact absurd trivial hn
  | refused code reason => cases (Console.answers_refused_cons.1 h).1
  | read reading =>
    obtain ⟨rfl, hd⟩ := Console.answers_read_cons.1 h
    obtain ⟨_ | ⟨line, rest⟩, w⟩ := c
    · exact ⟨rfl, hd.unique (.nil _)⟩
    · exact absurd trivial hn

end FifteenBit.Recorder
