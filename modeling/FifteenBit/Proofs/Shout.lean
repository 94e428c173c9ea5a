import FifteenBit.Console.Recorder
import FifteenBit.Proofs.Alike
import FifteenBit.Proofs.EffectCases
import FifteenBit.Proofs.Stopping
import FifteenBit.Proofs.WellFormed

/-! A program that writes its input in upper case. It takes one code in each round of its loop,
passes over the ends of lines, and stops when the input is used up. -/

namespace FifteenBit.Shout

open Machine

/-- Reads a code into the first register. A line feed is passed over, else 32 is taken from a code
above 96, and the code is written. -/
def image : List Word :=
  [20, 32768, -- 0: in
    4, 32769, 32768, 10, -- 2: is it a line feed?
    7, 32769, 22, -- 6
    5, 32770, 32768, 96, -- 9: is it above the grave accent?
    8, 32770, 20, -- 13
    9, 32768, 32768, 32736, -- 16: take 32 from it
    19, 32768, -- 20: out
    6, 0] -- 22

/-- The program at some address, with what it has in its registers and has still to read. -/
def machine (policy : Policy) (ip : UInt64) (registers : RegisterFile) (pending : List Word) :
    Machine where
  memory := Memory.ofImage image (by decide)
  registers := registers
  stack := []
  ip := ip
  pending := pending
  running := true
  policy := policy

abbrev r0 : Register := ⟨0⟩
abbrev r1 : Register := ⟨1⟩
abbrev r2 : Register := ⟨2⟩

section Steps

variable {policy : Policy} {ip : UInt64} {regs : RegisterFile} {pending : List Word} {c : Recorder}
  {n : Nat} {P : Run Recorder → Prop}

theorem holds {i : Instruction} (h : i.words <+: image.drop ip.toNat) :
    (machine policy ip regs pending).Holds i := by
  have hl : image.length ≤ memorySize := by decide
  have hm : (machine policy ip regs pending).memory = Memory.ofImage image hl := rfl
  exact holds_of_image hm h

theorem step_in {code : Word}
    (h : StopsWithin n (machine policy 2 (regs.write r0 (wrap code.toUInt32)) pending) c P) :
    StopsWithin (n + 1) (machine policy 0 regs (code :: pending)) c P :=
  h.of_effect (i := .input 32768) rfl (holds (by decide)) rfl rfl

theorem step_in_line {code : Word} {c' : Recorder}
    (hc : Console.read c = (.line (code :: pending), c'))
    (h : StopsWithin n (machine policy 2 (regs.write r0 (wrap code.toUInt32)) pending) c' P) :
    StopsWithin (n + 1) (machine policy 0 regs []) c P := by
  have hp : (machine policy 0 regs []).perform c 2 (.read (.register r0)) =
      ⟨machine policy 2 (regs.write r0 (wrap code.toUInt32)) pending, c', .ok .running, [],
        [.read (.line (code :: pending))]⟩ := by
    simp only [perform, machine, Console.refill_of_line hc]
    rfl
  exact h.of_effect (i := .input 32768) rfl (holds (by decide)) rfl hp

theorem step_in_exhausted (hc : Console.read c = (.endOfInput, c))
    (hP : ∀ m log, P ⟨m, c, .error (.inputExhausted 0), log⟩) :
    StopsWithin 1 (machine policy 0 regs []) c P := by
  have hp : (machine policy 0 regs []).perform c 2 (.read (.register r0)) =
      (machine policy 0 regs []).fail c [.read .endOfInput] (.inputExhausted 0) := by
    simp only [perform, machine, Console.refill_of_endOfInput hc]
    rfl
  exact .of_fault (i := .input 32768) rfl (holds (by decide)) rfl hp hP

theorem step_eq
    (h : StopsWithin n (machine policy 6 (regs.write r1
      (wrap (if (regs.read r0).toUInt32 = 10 then 1 else 0))) pending) c P) :
    StopsWithin (n + 1) (machine policy 2 regs pending) c P :=
  h.of_effect (i := .eq 32769 32768 10) rfl (holds (by decide)) rfl rfl

theorem step_jt
    (h : StopsWithin n (machine policy (if regs.read r1 = 0 then 9 else 22) regs pending) c P) :
    StopsWithin (n + 1) (machine policy 6 regs pending) c P := by
  by_cases hx : regs.read r1 = 0
  · rw [if_pos hx] at h
    exact h.of_effect (i := .jt 32769 22) rfl (holds (by decide))
      (branch_passed (x := regs.read r1) rfl (by simp [hx])) rfl
  · rw [if_neg hx] at h
    exact h.of_effect (i := .jt 32769 22) rfl (holds (by decide))
      (branch_taken rfl (bne_iff_ne.2 hx) rfl) rfl

theorem step_gt
    (h : StopsWithin n (machine policy 13 (regs.write r2
      (wrap (if (regs.read r0).toUInt32 > 96 then 1 else 0))) pending) c P) :
    StopsWithin (n + 1) (machine policy 9 regs pending) c P :=
  h.of_effect (i := .gt 32770 32768 96) rfl (holds (by decide)) rfl rfl

theorem step_jf
    (h : StopsWithin n (machine policy (if regs.read r2 = 0 then 20 else 16) regs pending) c P) :
    StopsWithin (n + 1) (machine policy 13 regs pending) c P := by
  by_cases hx : regs.read r2 = 0
  · rw [if_pos hx] at h
    exact h.of_effect (i := .jf 32770 20) rfl (holds (by decide))
      (branch_taken (x := regs.read r2) rfl (by simp [hx]) rfl) rfl
  · rw [if_neg hx] at h
    exact h.of_effect (i := .jf 32770 20) rfl (holds (by decide))
      (branch_passed (x := regs.read r2) rfl (by simp [hx])) rfl

theorem step_add
    (h : StopsWithin n (machine policy 20 (regs.write r0 (wrap ((regs.read r0).toUInt32 + 32736)))
      pending) c P) :
    StopsWithin (n + 1) (machine policy 16 regs pending) c P :=
  h.of_effect (i := .add 32768 32768 32736) rfl (holds (by decide)) rfl rfl

theorem step_out
    (h : StopsWithin n (machine policy 22 regs pending)
      { c with written := c.written.push (regs.read r0) } P) :
    StopsWithin (n + 1) (machine policy 20 regs pending) c P :=
  h.of_effect (i := .out 32768) rfl (holds (by decide)) rfl rfl

theorem step_jmp (h : StopsWithin n (machine policy 0 regs pending) c P) :
    StopsWithin (n + 1) (machine policy 22 regs pending) c P :=
  h.of_effect (i := .jmp 0) rfl (holds (by decide)) rfl rfl

end Steps

section Rounds

variable {policy : Policy} {regs : RegisterFile} {pending : List Word} {c : Recorder} {n k : Nat}
  {P : Run Recorder → Prop}

theorem wrap_truth (p : Prop) [Decidable p] : wrap (if p then 1 else 0) = 0 ↔ ¬p := by
  by_cases hp : p
  · rw [if_pos hp]
    exact iff_of_false (by decide) (not_not_intro hp)
  · rw [if_neg hp]
    exact iff_of_true rfl hp

/-- The sum wraps around, so adding 32736 takes 32 away. -/
theorem toNat_wrap_subtract {w : Word} (hge : 32 ≤ w.toNat) (hlt : w.toNat < 32768) :
    (wrap (w.toUInt32 + 32736)).toNat = w.toNat - 32 := by
  have hsum : (w.toUInt32 + 32736).toNat = w.toNat + 32736 := by
    rw [UInt32.toNat_add, UInt16.toNat_toUInt32]
    exact Nat.mod_eq_of_lt (Nat.lt_of_lt_of_le (Nat.add_lt_add_right hlt _) (by decide))
  rw [toNat_wrap, hsum]
  omega

theorem line_feed (hk : (regs.read r0).toNat = 10)
    (h : ∀ regs', StopsWithin n (machine policy 0 regs' pending) c P) :
    StopsWithin (n + 3) (machine policy 2 regs pending) c P := by
  have heq : (regs.read r0).toUInt32 = 10 := by
    apply UInt32.toNat_inj.1
    rw [UInt16.toNat_toUInt32, hk]
    rfl
  refine step_eq (step_jt ?_)
  rw [RegisterFile.read_write_same, if_neg (mt (wrap_truth _).1 (not_not_intro heq))]
  exact step_jmp (h _)

theorem letter (hk : (regs.read r0).toNat = k) (hlt : k < 32768)
    (h : ∀ regs', (regs'.read r0).toNat = (if 96 < k then k - 32 else k) →
      StopsWithin n (machine policy 20 regs' pending) c P) :
    StopsWithin (n + 3) (machine policy 9 regs pending) c P := by
  have habove : (regs.read r0).toUInt32 > 96 ↔ 96 < k := by
    rw [← hk]
    exact UInt32.lt_iff_toNat_lt
  have hkept (w : Word) : (regs.write r2 w).read r0 = regs.read r0 :=
    RegisterFile.read_write_of_ne regs w (by decide)
  by_cases hletter : 96 < k
  · refine step_gt (step_jf ?_)
    rw [RegisterFile.read_write_same,
      if_neg (mt (wrap_truth _).1 (not_not_intro (habove.2 hletter)))]
    refine step_add (h _ ?_)
    rw [RegisterFile.read_write_same, hkept, toNat_wrap_subtract (by omega) (by omega), hk,
      if_pos hletter]
  · refine step_gt (step_jf ?_)
    rw [RegisterFile.read_write_same, if_pos ((wrap_truth _).2 (mt habove.1 hletter))]
    refine (h _ ?_).mono (Nat.le_succ n)
    rw [hkept, hk, if_neg hletter]

theorem character (hk : (regs.read r0).toNat = k) (hlt : k < 32768) (hfeed : k ≠ 10)
    (h : ∀ regs' code, code.toNat = (if 96 < k then k - 32 else k) →
      StopsWithin n (machine policy 0 regs' pending) { c with written := c.written.push code } P) :
    StopsWithin (n + 7) (machine policy 2 regs pending) c P := by
  have hne : (regs.read r0).toUInt32 ≠ 10 := by
    intro he
    have hten := congrArg UInt32.toNat he
    rw [UInt16.toNat_toUInt32, hk] at hten
    exact hfeed hten
  have hkept (w : Word) : (regs.write r1 w).read r0 = regs.read r0 :=
    RegisterFile.read_write_of_ne regs w (by decide)
  refine step_eq (step_jt ?_)
  rw [RegisterFile.read_write_same, if_pos ((wrap_truth _).2 hne)]
  refine letter (by rw [hkept, hk]) hlt fun regs' hupper => ?_
  exact step_out (step_jmp (h regs' _ hupper))

/-- What the program writes for some codes. -/
def shouted (codes : List Word) : List Nat :=
  ((codes.map fun code => code.toNat % 32768).filter (· ≠ 10)).map fun n =>
    if 96 < n then n - 32 else n

theorem shouted_cons (code : Word) (codes : List Word) :
    shouted (code :: codes) = shouted [code] ++ shouted codes := by
  rw [shouted, shouted, shouted, ← List.map_append, ← List.filter_append, ← List.map_append,
    List.singleton_append]

/-- The rest of a round, after its code has been taken. -/
theorem round (code : Word)
    (h : ∀ regs' written, written.toList.map UInt16.toNat =
        c.written.toList.map UInt16.toNat ++ shouted [code] →
      StopsWithin n (machine policy 0 regs' pending) { c with written := written } P) :
    StopsWithin (n + 7) (machine policy 2 (regs.write r0 (wrap code.toUInt32)) pending) c P := by
  have hk : ((regs.write r0 (wrap code.toUInt32)).read r0).toNat = code.toNat % 32768 := by
    rw [RegisterFile.read_write_same, toNat_wrap, UInt16.toNat_toUInt32]
  by_cases hfeed : code.toNat % 32768 = 10
  · have hnone : shouted [code] = [] := by simp [shouted, hfeed]
    refine (line_feed (hk.trans hfeed) fun regs' => h regs' c.written ?_).mono (by omega)
    rw [hnone, List.append_nil]
  · refine character hk (Nat.mod_lt _ (by decide)) hfeed fun regs' upper hupper => ?_
    refine h regs' _ ?_
    simp [shouted, hfeed, hupper]

end Rounds

theorem stops (policy : Policy) {codes pending : List Word} {lines : List String}
    {written : Array Word} {expected : List Nat} {regs : RegisterFile}
    (hcodes : pending ++ lines.flatMap Line.codes = codes)
    (hexpected : written.toList.map UInt16.toNat ++ shouted codes = expected) :
    StopsWithin (8 * codes.length + 1) (machine policy 0 regs pending) (⟨lines, written⟩ : Recorder)
      fun r => r.result = .error (.inputExhausted 0) ∧
        r.console.written.toList.map UInt16.toNat = expected := by
  -- The codes that are left may be pending or in lines that are still to be read.
  induction codes generalizing pending lines written regs with
  | nil =>
    obtain ⟨rfl, hlines⟩ := List.append_eq_nil_iff.1 hcodes
    cases lines with
    | cons line lines => simp [Line.codes] at hlines
    | nil =>
      refine step_in_exhausted rfl fun m log => ⟨rfl, ?_⟩
      rw [← hexpected]
      exact (List.append_nil _).symm
  | cons code codes ih =>
    rw [shouted_cons, ← List.append_assoc] at hexpected
    have hround {pending' : List Word} {lines' : List String}
        (hrest : pending' ++ lines'.flatMap Line.codes = codes) :
        StopsWithin (8 * codes.length + 8)
          (machine policy 2 (regs.write r0 (wrap code.toUInt32)) pending')
          (⟨lines', written⟩ : Recorder) fun r => r.result = .error (.inputExhausted 0) ∧
            r.console.written.toList.map UInt16.toNat = expected := by
      refine round code fun regs' written' hwritten => ih hrest ?_
      rw [hwritten]
      exact hexpected
    cases pending with
    | cons first pending =>
      obtain ⟨rfl, hrest⟩ := List.cons.inj hcodes
      exact step_in (hround hrest)
    | nil =>
      cases lines with
      | nil => cases hcodes
      | cons line lines =>
        obtain ⟨first, rest, hline⟩ : ∃ first rest, Line.codes line = first :: rest :=
          List.exists_cons_of_ne_nil (by simp [Line.codes])
        rw [List.flatMap_cons, hline, List.nil_append, List.cons_append] at hcodes
        obtain ⟨rfl, hrest⟩ := List.cons.inj hcodes
        have hread : Console.read (⟨line :: lines, written⟩ : Recorder) =
            (.line (first :: rest), ⟨lines, written⟩) := by
          rw [← hline]
          rfl
        exact step_in_line hread (hround hrest)

/-- On all lines the program stops when they are used up. It has then written their codes, reduced
to values, in upper case and without the ends of lines. -/
theorem shout_upper_cases (lines : List String) (policy : Policy) :
    ∃ m, (boot image policy).result = .ok m ∧ ∀ keep log extra, ∃ r,
      m.run keep (8 * (lines.flatMap Line.codes).length + 1 + extra) (Recorder.ofLines lines) log =
        some r ∧
      r.result = .error (.inputExhausted 0) ∧
      r.console.written.toList.map UInt16.toNat =
        (((lines.flatMap Line.codes).map fun code => code.toNat % 32768).filter (· ≠ 10)).map
          fun n => if 96 < n then n - 32 else n :=
  ⟨_, boot_result (by decide) policy, stops policy rfl rfl⟩

end FifteenBit.Shout
