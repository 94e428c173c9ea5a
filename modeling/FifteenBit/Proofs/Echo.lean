import FifteenBit.Console.Recorder
import FifteenBit.Proofs.Alike
import FifteenBit.Proofs.Stopping

/-! A program that writes each code that it reads. It comes to the end of a line with all codes of
it written, and is stopped when there is no other line. -/

namespace FifteenBit.Echo

open Machine

def image : List Word :=
  [20, 32768, -- 0: in
    19, 32768, -- 2: out
    6, 0] -- 4

/-- The program at some address, with what it has in its registers and has still to read. -/
def machine (ip : UInt64) (registers : RegisterFile) (pending : List Word) : Machine where
  memory := Memory.ofImage image (by decide)
  registers := registers
  stack := []
  ip := ip
  pending := pending
  running := true
  policy := .wrap

abbrev r0 : Register := ⟨⟨0, by decide⟩⟩

variable {ip : UInt64} {regs : RegisterFile} {pending : List Word} {code : Word}
  {c c' d : Recorder} {e : Ending}

theorem holds {i : Instruction} (h : i.words <+: image.drop ip.toNat) :
    (machine ip regs pending).Holds i := by
  have hl : image.length ≤ memorySize := by decide
  have hm : (machine ip regs pending).memory = Memory.ofImage image hl := rfl
  exact holds_of_image hm h

theorem ends_out (hcode : regs.read r0 = code)
    (h : (machine 0 regs pending).Ends { c with written := c.written.push code } e d) :
    (machine 2 regs pending).Ends c (e.after [.wrote code]) d := by
  subst hcode
  have hjmp := Ends.of_effect (m := machine 4 regs pending) (i := .jmp 0) h rfl
    (holds (by decide)) rfl rfl
  exact hjmp.of_effect (i := .out 32768) rfl (holds (by decide)) rfl rfl

theorem ends_in
    (h : (machine 0 (regs.write r0 (wrap code.toUInt32)) pending).Ends
      { c with written := c.written.push (wrap code.toUInt32) } e d) :
    (machine 0 regs (code :: pending)).Ends c (e.after [.wrote (wrap code.toUInt32)]) d := by
  have hout := ends_out (regs.read_write_same r0 _) h
  exact hout.of_effect (m := machine 0 regs (code :: pending)) (i := .input 32768) rfl
    (holds (by decide)) rfl rfl

theorem ends_in_line (hc : Console.read c = (.line (code :: pending), c'))
    (h : (machine 0 (regs.write r0 (wrap code.toUInt32)) pending).Ends
      { c' with written := c'.written.push (wrap code.toUInt32) } e d) :
    (machine 0 regs []).Ends c
      (e.after [.read (.line (code :: pending)), .wrote (wrap code.toUInt32)]) d := by
  have hp : (machine 0 regs []).perform c 2 (.read (.register r0)) =
      ⟨machine 2 (regs.write r0 (wrap code.toUInt32)) pending, c', .ok .running, [],
        [.read (.line (code :: pending))]⟩ := by
    simp only [perform, machine, Console.refill_of_line hc]
    rfl
  have hout := ends_out (regs.read_write_same r0 _) h
  exact hout.of_effect (m := machine 0 regs []) (i := .input 32768) rfl (holds (by decide)) rfl hp

theorem ends_exhausted (hc : Console.read c = (.endOfInput, c)) :
    (machine 0 regs []).Ends c
      ⟨(machine 0 regs []).abort, .error (.inputExhausted 0), [.read .endOfInput]⟩ c := by
  have hp : (machine 0 regs []).perform c 2 (.read (.register r0)) =
      (machine 0 regs []).fail c [.read .endOfInput] (.inputExhausted 0) := by
    simp only [perform, machine, Console.refill_of_endOfInput hc]
    rfl
  exact Ends.of_stop (m := machine 0 regs []) (i := .input 32768) rfl (holds (by decide)) rfl hp rfl

/-- All codes that are left of a line are written, and then another line is asked for. -/
theorem ends_pending (regs : RegisterFile) (pending : List Word) (w : Array Word) :
    ∃ regs' e d, (machine 0 regs pending).Ends (⟨[], w⟩ : Recorder) e d ∧
      e.machine = (machine 0 regs' []).abort ∧ e.result = .error (.inputExhausted 0) ∧
      e.calls = (pending.map fun code => .wrote (wrap code.toUInt32)) ++ [.read .endOfInput] ∧
      d.written.toList = w.toList ++ pending.map fun code => wrap code.toUInt32 := by
  induction pending generalizing regs w with
  | nil => exact ⟨regs, _, _, ends_exhausted rfl, rfl, rfl, rfl, (List.append_nil _).symm⟩
  | cons code pending ih =>
    obtain ⟨regs', e, d, h, hm, hres, hcalls, hwritten⟩ :=
      ih (regs.write r0 (wrap code.toUInt32)) (w.push (wrap code.toUInt32))
    have hin : (machine 0 regs (code :: pending)).Ends (⟨[], w⟩ : Recorder) _ d := ends_in h
    refine ⟨regs', _, d, hin, hm, hres, congrArg (List.cons _) hcalls, ?_⟩
    rw [hwritten, Array.toList_push, List.append_assoc]
    rfl

theorem ends_line (regs : RegisterFile) (line : String) :
    ∃ regs' e d, (machine 0 regs []).Ends (Recorder.ofLines [line]) e d ∧
      e.machine = (machine 0 regs' []).abort ∧ e.result = .error (.inputExhausted 0) ∧
      e.calls = .read (.line (Line.codes line)) ::
        ((Line.codes line).map fun code => .wrote (wrap code.toUInt32)) ++ [.read .endOfInput] ∧
      d.written.toList = (Line.codes line).map fun code => wrap code.toUInt32 := by
  obtain ⟨code, pending, hline⟩ : ∃ code pending, Line.codes line = code :: pending :=
    List.exists_cons_of_ne_nil (by simp [Line.codes])
  have hread : Console.read (Recorder.ofLines [line]) =
      (.line (code :: pending), Recorder.ofLines []) := by
    rw [← hline]
    rfl
  obtain ⟨regs', e, d, h, hm, hres, hcalls, hwritten⟩ :=
    ends_pending (regs.write r0 (wrap code.toUInt32)) pending #[wrap code.toUInt32]
  rw [hline]
  exact ⟨regs', _, d, ends_in_line hread h, hm, hres, congrArg (List.append [_, _]) hcalls,
    hwritten⟩

end FifteenBit.Echo
