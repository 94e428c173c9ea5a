import FifteenBit.Proofs.Tightening

/-! The warnings of an instruction. The wrapping policy warns of each word that it reduces, as
often as the word is resolved and in that order. The strict policy warns of nothing. -/

namespace FifteenBit.Machine

variable {m : Machine}

/-- What an operand word counts for; `none` if the policy refuses it. -/
def valueOf? (m : Machine) (raw : Word) : Option Word :=
  (Operand.ofWord? m.policy raw).map m.valueOf

/-- The operand words that are resolved if none is refused, in that order. A `set` looks at its
second word only if the first names a register, a conditional jump only if it is taken. A `mod`
looks at its divisor first, and once more if that is not zero. -/
def resolved (m : Machine) : Instruction → List Word
  | .halt | .ret | .noop => []
  | .push a | .pop a | .jmp a | .call a | .out a | .input a => [a]
  | .not a b | .rmem a b | .wmem a b => [a, b]
  | .eq a b c | .gt a b c | .add a b c | .mult a b c | .and a b c | .or a b c => [a, b, c]
  | .set a b => if 32768 ≤ a.toNat ∧ a.toNat < 32776 then [a, b] else [a]
  | .jt a b => if m.valueOf? a = some 0 then [a] else [a, b]
  | .jf a b => if m.valueOf? a = some 0 then [a, b] else [a]
  | .mod a b c => if m.valueOf? c = some 0 then [c] else [c, a, b, c]

/-- The words above the registers that an instruction resolves and the policy reduces. -/
def reduced (m : Machine) (i : Instruction) : List Word :=
  if m.policy = .wrap then (m.resolved i).filter fun raw => 32776 ≤ raw.toNat else []

/-- One warning for each word above the registers. -/
def warned (m : Machine) (raws : List Word) : List Notice :=
  (raws.filter fun raw => 32776 ≤ raw.toNat).map fun raw =>
    .normalized raw m.ip (.literal (raw % 32768))

theorem warned_cons (m : Machine) (raw : Word) (raws : List Word) :
    m.warned (raw :: raws) = m.warned [raw] ++ m.warned raws := by
  rw [warned, warned, warned, ← List.map_append, ← List.filter_append, List.singleton_append]

theorem wrap_eq_mod (raw : Word) : FifteenBit.wrap raw.toUInt32 = raw % 32768 := by
  apply UInt16.toNat_inj.1
  rw [toNat_wrap, UInt16.toNat_toUInt32, UInt16.toNat_mod]
  rfl

section Wrapping

variable (hp : m.policy = .wrap)
include hp

theorem exists_operand (raw : Word) : ∃ o, Operand.ofWord? m.policy raw = some o := by
  refine Option.ne_none_iff_exists'.1 fun hnone => ?_
  have hstrict := ((Operand.ofWord?_eq_none_iff m.policy raw).1 hnone).1
  rw [hp] at hstrict
  cases hstrict

theorem operand_log (raw : Word) : (m.operand raw).log = m.warned [raw] := by
  obtain ⟨o, ho⟩ := exists_operand hp raw
  by_cases hr : 32776 ≤ raw.toNat
  · have hout : Operand.outOfRange raw = true := (Operand.outOfRange_iff raw).2 hr
    have hreduced := Operand.ofWord?_above m.policy hr
    rw [if_pos hp, ho, wrap_eq_mod] at hreduced
    cases hreduced
    simp [operand, warned, ho, hout, hr]
  · have hout : Operand.outOfRange raw = false := by
      rw [← Bool.not_eq_true, Operand.outOfRange_iff]
      exact hr
    simp [operand, warned, ho, hout, hr]

theorem value_log (raw : Word) : (m.value raw).log = m.warned [raw] := by
  rw [value, Logged.log_bind_pure, operand_log hp]

theorem target_log (raw : Word) : (m.target raw).log = m.warned [raw] := by
  rw [target, Logged.log_bind_pure, operand_log hp]

theorem exists_value (raw : Word) :
    ∃ x, m.valueOf? raw = some x ∧ (m.value raw).result = .ok x := by
  obtain ⟨o, ho⟩ := exists_operand hp raw
  exact ⟨m.valueOf o, by rw [valueOf?, ho]; rfl, value_eq_ok.2 ⟨o, ho, rfl⟩⟩

theorem exists_target (raw : Word) : ∃ t, (m.target raw).result = .ok t := by
  obtain ⟨o, ho⟩ := exists_operand hp raw
  exact ⟨o.target, target_eq_ok.2 ⟨o, ho, rfl⟩⟩

section Bind

variable {α : Type} {raws : List Word} (raw : Word)

theorem value_bind_log {f : Word → Logged Fault α}
    (hf : ∀ x, m.valueOf? raw = some x → (f x).log = m.warned raws) :
    (m.value raw >>= f).log = m.warned (raw :: raws) := by
  obtain ⟨x, hx, hv⟩ := exists_value hp raw
  rw [Logged.log_bind_of_ok hv, value_log hp, hf x hx, ← warned_cons]

theorem target_bind_log {f : Target → Logged Fault α} (hf : ∀ t, (f t).log = m.warned raws) :
    (m.target raw >>= f).log = m.warned (raw :: raws) := by
  obtain ⟨t, ht⟩ := exists_target hp raw
  rw [Logged.log_bind_of_ok ht, target_log hp, hf t, ← warned_cons]

end Bind

theorem combine_log (a b c : Word) (f : UInt32 → UInt32 → UInt32) :
    (m.combine a b c f).log = m.warned [a, b, c] :=
  target_bind_log hp a fun _ => value_bind_log hp b fun _ _ => value_bind_log hp c fun _ _ => rfl

theorem set_log (a b : Word) : (m.effect (.set a b)).log = m.warned (m.resolved (.set a b)) := by
  simp only [effect, resolved]
  by_cases ha : 32768 ≤ a.toNat ∧ a.toNat < 32776
  · have ho := Operand.ofWord?_register m.policy ha.1 ha.2
    rw [if_pos ha, Logged.log_bind_of_ok (operand_eq_ok.2 ho), operand_log hp, warned_cons m a [b]]
    exact congrArg _ (value_bind_log hp b fun _ _ => rfl)
  · obtain ⟨v, ho⟩ : ∃ v, Operand.ofWord? m.policy a = some (.literal v) := by
      by_cases hlt : a.toNat < 32768
      · exact ⟨a, Operand.ofWord?_of_lt m.policy hlt⟩
      · exact ⟨_, (Operand.ofWord?_above m.policy (by omega)).trans (if_pos hp)⟩
    rw [if_neg ha, Logged.log_bind_of_ok (operand_eq_ok.2 ho), operand_log hp]
    exact List.append_nil _

/-- The destination is looked at if the condition has the wanted truth. -/
theorem branch_log (a b : Word) (wanted : Bool) :
    (m.branch a b wanted).log =
      m.warned (if decide (m.valueOf? a = some 0) = wanted then [a] else [a, b]) := by
  rw [branch]
  by_cases hw : decide (m.valueOf? a = some 0) = wanted
  · rw [if_pos hw]
    refine value_bind_log hp a fun x hx => ?_
    rw [hx] at hw
    have hpassed : ¬((x != 0) == wanted) = true := by cases wanted <;> simpa using hw
    rw [if_neg hpassed]
    rfl
  · rw [if_neg hw]
    refine value_bind_log hp a fun x hx => ?_
    rw [hx] at hw
    have htaken : ((x != 0) == wanted) = true := by cases wanted <;> simpa using hw
    rw [if_pos htaken]
    exact value_bind_log hp b fun _ _ => rfl

theorem divide_log (a b c : Word) :
    (m.effect (.mod a b c)).log = m.warned (m.resolved (.mod a b c)) := by
  simp only [effect, resolved]
  by_cases hz : m.valueOf? c = some 0
  · rw [if_pos hz]
    refine value_bind_log hp c fun x hx => ?_
    obtain rfl : x = 0 := Option.some.inj (hx.symm.trans hz)
    rfl
  · rw [if_neg hz]
    refine value_bind_log hp c fun x hx => ?_
    have hx0 : x ≠ 0 := fun h => hz (hx.trans (congrArg some h))
    rw [if_neg hx0]
    exact combine_log hp a b c _

theorem effect_log_of_wrap (i : Instruction) : (m.effect i).log = m.warned (m.resolved i) := by
  cases i with
  | set a b => exact set_log hp a b
  | mod a b c => exact divide_log hp a b c
  | halt | ret | noop => rfl
  | push a | jmp a | call a | out a =>
    simp only [effect, resolved]
    exact value_bind_log hp a fun _ _ => rfl
  | pop a | input a =>
    simp only [effect, resolved]
    exact target_bind_log hp a fun _ => rfl
  | eq a b c | gt a b c | add a b c | mult a b c | and a b c | or a b c =>
    simp only [effect, resolved]
    exact combine_log hp a b c _
  | jt a b =>
    simp only [effect, resolved]
    rw [branch_log hp]
    simp only [decide_eq_true_eq]
  | jf a b =>
    simp only [effect, resolved]
    rw [branch_log hp]
    simp only [decide_eq_false_iff_not, ite_not]
  | not a b =>
    simp only [effect, resolved]
    exact target_bind_log hp a fun _ => value_bind_log hp b fun _ _ => rfl
  | wmem a b =>
    simp only [effect, resolved]
    exact value_bind_log hp a fun _ _ => value_bind_log hp b fun _ _ => rfl
  | rmem a b =>
    simp only [effect, resolved]
    exact target_bind_log hp a fun _ => value_bind_log hp b fun _ _ => Logged.log_bind_pure _ _

end Wrapping

theorem effect_log (m : Machine) (i : Instruction) : (m.effect i).log =
    (m.reduced i).map fun raw => .normalized raw m.ip (.literal (raw % 32768)) := by
  cases hp : m.policy with
  | wrap =>
    rw [effect_log_of_wrap hp, reduced, if_pos hp]
    rfl
  | strict =>
    have hw : m.policy ≠ .wrap := by rw [hp]; decide
    rw [effect_silent hp, reduced, if_neg hw]
    rfl

end FifteenBit.Machine
