import FifteenBit.Proofs.Resolution

/-! All that an instruction can come to when its operands are resolved. Later proofs take an
effect apart by these cases and do not look at its definition again. -/

namespace FifteenBit

def Instruction.binary? :
    Instruction → Option (Word × Word × Word × (UInt32 → UInt32 → UInt32))
  | .eq a b c => some (a, b, c, fun x y => if x = y then 1 else 0)
  | .gt a b c => some (a, b, c, fun x y => if x > y then 1 else 0)
  | .add a b c => some (a, b, c, fun x y => x + y)
  | .mult a b c => some (a, b, c, fun x y => x * y)
  | .mod a b c => some (a, b, c, fun x y => x % y)
  | .and a b c => some (a, b, c, fun x y => x &&& y)
  | .or a b c => some (a, b, c, fun x y => x ||| y)
  | _ => none

namespace Machine

inductive Resolves (m : Machine) : Instruction → Effect → Prop
  | halt : m.Resolves .halt .halt
  | set {a b x : Word} {r : Register} (ha : (m.operand a).result = .ok (.register r))
      (hb : (m.value b).result = .ok x) :
    m.Resolves (.set a b) (.store (.register r) x.toUInt32)
  | push {a x : Word} (ha : (m.value a).result = .ok x) : m.Resolves (.push a) (.push x)
  | pop {a : Word} {t : Target} (ha : (m.target a).result = .ok t) : m.Resolves (.pop a) (.pop t)
  | binary {i : Instruction} {a b c x y : Word} {f : UInt32 → UInt32 → UInt32} {t : Target}
      (hi : i.binary? = some (a, b, c, f)) (ha : (m.target a).result = .ok t)
      (hb : (m.value b).result = .ok x) (hc : (m.value c).result = .ok y)
      (hz : i.opcode = .mod → y ≠ 0) :
    m.Resolves i (.store t (f x.toUInt32 y.toUInt32))
  | jmp {a x : Word} (ha : (m.value a).result = .ok x) : m.Resolves (.jmp a) (.jump x)
  | jtTaken {a b x y : Word} (ha : (m.value a).result = .ok x) (hx : x ≠ 0)
      (hb : (m.value b).result = .ok y) : m.Resolves (.jt a b) (.jump y)
  | jtPassed {a b : Word} (ha : (m.value a).result = .ok 0) : m.Resolves (.jt a b) .next
  | jfTaken {a b y : Word} (ha : (m.value a).result = .ok 0)
      (hb : (m.value b).result = .ok y) : m.Resolves (.jf a b) (.jump y)
  | jfPassed {a b x : Word} (ha : (m.value a).result = .ok x) (hx : x ≠ 0) :
    m.Resolves (.jf a b) .next
  | not {a b x : Word} {t : Target} (ha : (m.target a).result = .ok t)
      (hb : (m.value b).result = .ok x) :
    m.Resolves (.not a b) (.store t (~~~x &&& 0x7FFF).toUInt32)
  | rmem {a b x w : Word} {t : Target} (ha : (m.target a).result = .ok t)
      (hb : (m.value b).result = .ok x) (hw : m.cell x.toUInt64 = .ok w) :
    m.Resolves (.rmem a b) (.store t w.toUInt32)
  | wmem {a b x y : Word} (ha : (m.value a).result = .ok x) (hb : (m.value b).result = .ok y) :
    m.Resolves (.wmem a b) (.store (.memory x) y.toUInt32)
  | call {a x : Word} (ha : (m.value a).result = .ok x) : m.Resolves (.call a) (.call x)
  | ret : m.Resolves .ret .ret
  | out {a x : Word} (ha : (m.value a).result = .ok x) : m.Resolves (.out a) (.write x)
  | input {a : Word} {t : Target} (ha : (m.target a).result = .ok t) :
    m.Resolves (.input a) (.read t)
  | noop : m.Resolves .noop .next

/-- The instruction, if it is carried out, sets the instruction pointer by a value. -/
def Jumps (m : Machine) : Instruction → Prop
  | .jmp _ | .call _ | .ret => True
  | .jt a _ => ∃ x, (m.value a).result = .ok x ∧ x ≠ 0
  | .jf a _ => (m.value a).result = .ok 0
  | .halt | .set .. | .push _ | .pop _ | .eq .. | .gt .. | .add .. | .mult .. | .mod .. | .and ..
  | .or .. | .not .. | .rmem .. | .wmem .. | .out _ | .input _ | .noop => False

variable {m : Machine} {e : Effect} {a b c : Word}

theorem combine_eq_ok {f : UInt32 → UInt32 → UInt32} (h : (m.combine a b c f).result = .ok e) :
    ∃ t x y, (m.target a).result = .ok t ∧ (m.value b).result = .ok x ∧
      (m.value c).result = .ok y ∧ e = .store t (f x.toUInt32 y.toUInt32) := by
  obtain ⟨t, ht, h⟩ := Logged.result_bind_eq_ok.1 h
  obtain ⟨x, hx, h⟩ := Logged.result_bind_eq_ok.1 h
  obtain ⟨y, hy, h⟩ := Logged.result_bind_eq_ok.1 h
  exact ⟨t, x, y, ht, hx, hy, (Except.ok.inj h).symm⟩

theorem Resolves.of_combine {i : Instruction} {f : UInt32 → UInt32 → UInt32}
    (hi : i.binary? = some (a, b, c, f)) (hm : i.opcode ≠ .mod)
    (h : (m.combine a b c f).result = .ok e) : m.Resolves i e := by
  obtain ⟨t, x, y, ht, hx, hy, rfl⟩ := combine_eq_ok h
  exact .binary hi ht hx hy fun he => absurd he hm

theorem branch_eq_ok {wanted : Bool} (h : (m.branch a b wanted).result = .ok e) :
    ∃ x, (m.value a).result = .ok x ∧
      ((x != 0) = wanted ∧ (∃ y, (m.value b).result = .ok y ∧ e = .jump y) ∨
        (x != 0) ≠ wanted ∧ e = .next) := by
  obtain ⟨x, hx, h⟩ := Logged.result_bind_eq_ok.1 h
  refine ⟨x, hx, ?_⟩
  by_cases hw : (x != 0) = wanted
  · rw [if_pos (beq_iff_eq.2 hw)] at h
    obtain ⟨y, hy, h⟩ := Logged.result_bind_eq_ok.1 h
    exact .inl ⟨hw, y, hy, (Except.ok.inj h).symm⟩
  · rw [if_neg (mt beq_iff_eq.1 hw)] at h
    exact .inr ⟨hw, (Except.ok.inj h).symm⟩

theorem branch_taken {x y : Word} {wanted : Bool} (hx : (m.value a).result = .ok x)
    (hw : (x != 0) = wanted) (hy : (m.value b).result = .ok y) :
    (m.branch a b wanted).result = .ok (.jump y) := by
  refine Logged.result_bind_eq_ok.2 ⟨x, hx, ?_⟩
  rw [if_pos (beq_iff_eq.2 hw)]
  exact Logged.result_bind_eq_ok.2 ⟨y, hy, rfl⟩

theorem branch_passed {x : Word} {wanted : Bool} (hx : (m.value a).result = .ok x)
    (hw : (x != 0) ≠ wanted) : (m.branch a b wanted).result = .ok .next := by
  refine Logged.result_bind_eq_ok.2 ⟨x, hx, ?_⟩
  rw [if_neg (mt beq_iff_eq.1 hw)]
  rfl

theorem resolves_of_effect {i : Instruction} (h : (m.effect i).result = .ok e) :
    m.Resolves i e := by
  cases i with
  | halt => cases h; exact .halt
  | set a b =>
    obtain ⟨o, ho, h⟩ := Logged.result_bind_eq_ok.1 h
    cases o with
    | literal v => cases h
    | register r =>
      obtain ⟨x, hx, h⟩ := Logged.result_bind_eq_ok.1 h
      cases h
      exact .set ho hx
  | push a =>
    obtain ⟨x, hx, h⟩ := Logged.result_bind_eq_ok.1 h
    cases h
    exact .push hx
  | pop a =>
    obtain ⟨t, ht, h⟩ := Logged.result_bind_eq_ok.1 h
    cases h
    exact .pop ht
  | eq a b c => exact .of_combine rfl nofun h
  | gt a b c => exact .of_combine rfl nofun h
  | jmp a =>
    obtain ⟨x, hx, h⟩ := Logged.result_bind_eq_ok.1 h
    cases h
    exact .jmp hx
  | jt a b =>
    obtain ⟨x, hx, ⟨hw, y, hy, rfl⟩ | ⟨hw, rfl⟩⟩ := branch_eq_ok h
    · exact .jtTaken hx (bne_iff_ne.1 hw) hy
    · obtain rfl : x = 0 := by simpa using hw
      exact .jtPassed hx
  | jf a b =>
    obtain ⟨x, hx, ⟨hw, y, hy, rfl⟩ | ⟨hw, rfl⟩⟩ := branch_eq_ok h
    · obtain rfl : x = 0 := by simpa using hw
      exact .jfTaken hx hy
    · exact .jfPassed hx (by simpa using hw)
  | add a b c => exact .of_combine rfl nofun h
  | mult a b c => exact .of_combine rfl nofun h
  | mod a b c =>
    -- The divisor is resolved once for the test and again for the division.
    obtain ⟨z, hz, h⟩ := Logged.result_bind_eq_ok.1 h
    by_cases h0 : z = 0
    · rw [if_pos h0] at h
      cases h
    · rw [if_neg h0] at h
      obtain ⟨t, x, y, ht, hx, hy, rfl⟩ := combine_eq_ok h
      obtain rfl : z = y := Except.ok.inj (hz.symm.trans hy)
      exact .binary rfl ht hx hy fun _ => h0
  | and a b c => exact .of_combine rfl nofun h
  | or a b c => exact .of_combine rfl nofun h
  | not a b =>
    obtain ⟨t, ht, h⟩ := Logged.result_bind_eq_ok.1 h
    obtain ⟨x, hx, h⟩ := Logged.result_bind_eq_ok.1 h
    cases h
    exact .not ht hx
  | rmem a b =>
    obtain ⟨t, ht, h⟩ := Logged.result_bind_eq_ok.1 h
    obtain ⟨x, hx, h⟩ := Logged.result_bind_eq_ok.1 h
    obtain ⟨w, hw, h⟩ := Logged.result_bind_eq_ok.1 h
    cases h
    exact .rmem ht hx hw
  | wmem a b =>
    obtain ⟨x, hx, h⟩ := Logged.result_bind_eq_ok.1 h
    obtain ⟨y, hy, h⟩ := Logged.result_bind_eq_ok.1 h
    cases h
    exact .wmem hx hy
  | call a =>
    obtain ⟨x, hx, h⟩ := Logged.result_bind_eq_ok.1 h
    cases h
    exact .call hx
  | ret => cases h; exact .ret
  | out a =>
    obtain ⟨x, hx, h⟩ := Logged.result_bind_eq_ok.1 h
    cases h
    exact .out hx
  | input a =>
    obtain ⟨t, ht, h⟩ := Logged.result_bind_eq_ok.1 h
    cases h
    exact .input ht
  | noop => cases h; exact .noop

end Machine

end FifteenBit
