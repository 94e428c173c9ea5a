import FifteenBit.Proofs.StepSequence
import FifteenBit.Proofs.WellFormed

/-! Where a step stores something. It does so at one place at most, which an operand of the
instruction denotes. All other cells and registers keep what they hold, also over many steps. -/

namespace FifteenBit

def Effect.target? : Effect → Option Target
  | .store t _ | .pop t | .read t => some t
  | .next | .halt | .jump _ | .call _ | .ret | .push _ | .write _ => none

namespace Machine

/-- The place where an instruction stores its result. For `wmem` it is the cell whose address is
the value of the operand, for the others what the operand denotes. -/
def destination? (m : Machine) : Instruction → Option Target
  | .set a _ | .pop a | .eq a _ _ | .gt a _ _ | .add a _ _ | .mult a _ _ | .mod a _ _
  | .and a _ _ | .or a _ _ | .not a _ | .rmem a _ | .input a =>
    (Operand.ofWord? m.policy a).map Operand.target
  | .wmem a _ => (Operand.ofWord? m.policy a).map fun o => .memory (m.valueOf o)
  | .halt | .push _ | .jmp _ | .jt .. | .jf .. | .call _ | .ret | .out _ | .noop => none

/-- What stands in a cell or a register; `none` if there is no such cell. -/
def contentOf? (m : Machine) : Target → Option Word
  | .memory address => m.readMemory? address
  | .register r => some (m.register r)

/-- The step is carried out, and its instruction stores a result there. -/
def Overwrites {σ : Type} [Console σ] (m : Machine) (c : σ) (t : Target) : Prop :=
  (m.step c).result = .ok .running ∧ ∃ i, m.fetch = .ok i ∧ m.destination? i = some t

section Content

variable {m m' : Machine} {t t' : Target}

theorem contentOf?_of_eq (hm : m'.memory = m.memory) (hr : m'.registers = m.registers)
    (t : Target) : m'.contentOf? t = m.contentOf? t := by
  cases t with
  | memory address => rw [contentOf?, contentOf?, readMemory?, readMemory?, hm]
  | register r => rw [contentOf?, contentOf?, register, register, hr]

theorem contentOf?_store_same (m : Machine) (ht : t.Exists) (n : UInt32) :
    (m.store t n).contentOf? t = some (wrap n) := by
  cases t with
  | memory address =>
    have hlt : address.toNat < memorySize := UInt16.lt_iff_toNat_lt.1 ht
    exact Vector.getElem?_setIfInBounds_self_of_lt hlt
  | register r => exact congrArg some (RegisterFile.read_write_same m.registers r (wrap n))

theorem contentOf?_store_of_ne (m : Machine) (h : t ≠ t') (n : UInt32) :
    (m.store t n).contentOf? t' = m.contentOf? t' := by
  cases t with
  | memory address =>
    cases t' with
    | memory address' =>
      have hne : address.toNat ≠ address'.toNat :=
        fun he => h (congrArg Target.memory (UInt16.toNat_inj.1 he))
      exact Vector.getElem?_setIfInBounds_ne hne
    | register r => rfl
  | register r =>
    cases t' with
    | memory address => rfl
    | register r' =>
      have hne : r ≠ r' := fun he => h (congrArg Target.register he)
      exact congrArg some (RegisterFile.read_write_of_ne m.registers (wrap n) hne)

end Content

section Step

variable {σ : Type} [Console σ] {m : Machine} {c : σ} {t t' : Target}

theorem target?_of_resolves {i : Instruction} {e : Effect} (h : m.Resolves i e) :
    e.target? = m.destination? i := by
  have htarget {a : Word} {t : Target} (ha : (m.target a).result = .ok t) :
      (Operand.ofWord? m.policy a).map Operand.target = some t := by
    obtain ⟨o, ho, rfl⟩ := target_eq_ok.1 ha
    rw [ho]
    rfl
  cases h with
  | set ha =>
    rw [destination?, operand_eq_ok.1 ha]
    rfl
  | pop ha | not ha | rmem ha | input ha => exact (htarget ha).symm
  | @binary i a b c x y f t hi ha =>
    have hd : m.destination? i = (Operand.ofWord? m.policy a).map Operand.target := by
      cases i with
      | eq | gt | add | mult | mod | and | or =>
        cases hi
        rfl
      | _ => cases hi
    exact (hd.trans (htarget ha)).symm
  | wmem ha =>
    obtain ⟨o, ho, rfl⟩ := value_eq_ok.1 ha
    rw [destination?, ho]
    rfl
  | _ => rfl

/-- One result is stored at the target, or there is none and nothing is. -/
theorem Performs.storage_cases {next : UInt64} {e : Effect} {s : Step σ}
    (h : m.Performs c next e s) :
    (∃ t n, s.result = .ok .running ∧ e.target? = some t ∧
      s.machine.memory = (m.store t n).memory ∧ s.machine.registers = (m.store t n).registers) ∨
    ((s.result = .ok .running → e.target? = none) ∧
      s.machine.memory = m.memory ∧ s.machine.registers = m.registers) := by
  cases h with
  | @store t n => exact .inl ⟨t, n, rfl, rfl, rfl, rfl⟩
  | @pop t x | @pending t x | @line t x =>
    left
    refine ⟨t, x.toUInt32, rfl, rfl, ?_⟩
    cases t <;> exact ⟨rfl, rfl⟩
  | next | jump | call | ret | push | wrote => exact .inr ⟨fun _ => rfl, rfl, rfl⟩
  | halt | emptyReturn | underflow | refused | exhausted | failed => exact .inr ⟨nofun, rfl, rfl⟩

theorem Overwrites.unique (h : m.Overwrites c t) (h' : m.Overwrites c t') : t = t' := by
  obtain ⟨_, i, hf, hd⟩ := h
  obtain ⟨_, i', hf', hd'⟩ := h'
  obtain rfl : i = i' := Except.ok.inj (hf.symm.trans hf')
  exact Option.some.inj (hd.symm.trans hd')

theorem overwrites_iff {i : Instruction} {e : Effect} (hr : m.running = true)
    (hf : m.fetch = .ok i) (he : (m.effect i).result = .ok e) :
    m.Overwrites c t ↔
      (m.perform c (m.ip + i.size.toUInt64) e).result = .ok .running ∧ e.target? = some t := by
  have hs := step_of_effect hr hf he c
  rw [target?_of_resolves (resolves_of_effect he)]
  constructor
  · rintro ⟨hrun, i', hf', hd⟩
    obtain rfl : i = i' := Except.ok.inj (hf.symm.trans hf')
    rw [hs] at hrun
    exact ⟨hrun, hd⟩
  · rintro ⟨hrun, hd⟩
    refine ⟨?_, i, hf, hd⟩
    rw [hs]
    exact hrun

theorem Overwrites.exists_target (hw : m.WellFormed) (h : m.Overwrites c t) : t.Exists := by
  obtain ⟨i, e, hr, hf, he, _⟩ := performed_of_ok h.1
  have hb := hw.effect_bounded he
  have ht := ((overwrites_iff hr hf he).1 h).2
  cases e with
  | store | pop | read =>
    obtain rfl := Option.some.inj ht
    exact hb
  | _ => cases ht

/-- A step that overwrites something stores one result there, and another one stores nothing. -/
theorem step_storage_cases (m : Machine) (c : σ) :
    (∃ t n, m.Overwrites c t ∧ (m.step c).machine.memory = (m.store t n).memory ∧
      (m.step c).machine.registers = (m.store t n).registers) ∨
    ((∀ t, ¬ m.Overwrites c t) ∧ (m.step c).machine.memory = m.memory ∧
      (m.step c).machine.registers = m.registers) := by
  by_cases hrun : (m.step c).result = .ok .running
  · obtain ⟨i, e, hr, hf, he, hs⟩ := performed_of_ok hrun
    have ho {t : Target} := overwrites_iff (t := t) (c := c) hr hf he
    rw [hs]
    rcases (performs m c (m.ip + i.size.toUInt64) e).storage_cases with
      ⟨t, n, hdone, ht, hm, hregs⟩ | ⟨hnone, hm, hregs⟩
    · exact .inl ⟨t, n, ho.2 ⟨hdone, ht⟩, hm, hregs⟩
    · refine .inr ⟨fun t h => ?_, hm, hregs⟩
      have hdone := ho.1 h
      rw [hnone hdone.1] at hdone
      cases hdone.2
  · have hm := machine_of_stopped hrun
    rw [hm]
    exact .inr ⟨fun t h => hrun h.1, rfl, rfl⟩

/-- A place that is overwritten holds a value. -/
theorem step_content_of_overwrites (hw : m.WellFormed) (h : m.Overwrites c t) :
    ∃ x < 32768, (m.step c).machine.contentOf? t = some x := by
  rcases step_storage_cases m c with ⟨t', n, ho, hm, hregs⟩ | ⟨hnone, _⟩
  · obtain rfl := ho.unique h
    refine ⟨wrap n, wrap_lt n, ?_⟩
    rw [contentOf?_of_eq hm hregs]
    exact contentOf?_store_same m (h.exists_target hw) n
  · exact absurd h (hnone t)

theorem step_content_of_not_overwrites (h : ¬ m.Overwrites c t) :
    (m.step c).machine.contentOf? t = m.contentOf? t := by
  rcases step_storage_cases m c with ⟨t', n, ho, hm, hregs⟩ | ⟨_, hm, hregs⟩
  · have hne : t' ≠ t := fun he => h (he ▸ ho)
    rw [contentOf?_of_eq hm hregs]
    exact contentOf?_store_of_ne m hne n
  · exact contentOf?_of_eq hm hregs t

theorem step_content_of_store {i : Instruction} {n : UInt32} (hr : m.running = true)
    (hf : m.fetch = .ok i) (he : (m.effect i).result = .ok (.store t n)) (ht : t.Exists) (c : σ) :
    (m.step c).machine.contentOf? t = some (wrap n) := by
  rw [step_of_effect hr hf he c]
  exact (contentOf?_of_eq rfl rfl t).trans (contentOf?_store_same m ht n)

end Step

section After

variable {σ : Type} [Console σ] {m : Machine} {c : σ} {t : Target} {k n : Nat}

/-- One of the steps from the number `k` up to but not including `n` has overwritten the place. -/
def OverwrittenIn (m : Machine) (c : σ) (t : Target) (k n : Nat) : Prop :=
  ∃ j, k ≤ j ∧ j < n ∧ (m.after j c).1.Overwrites (m.after j c).2 t

theorem after_wellFormed (hm : m.WellFormed) (n : Nat) (c : σ) : (m.after n c).1.WellFormed :=
  after_preserves (fun _ c h => h.step c) hm n c

theorem OverwrittenIn.succ (h : m.OverwrittenIn c t k n) : m.OverwrittenIn c t k (n + 1) := by
  obtain ⟨j, hk, hn, ho⟩ := h
  exact ⟨j, hk, Nat.lt_succ_of_lt hn, ho⟩

theorem content_of_not_overwritten (hk : k ≤ n) (h : ¬ m.OverwrittenIn c t k n) :
    (m.after n c).1.contentOf? t = (m.after k c).1.contentOf? t := by
  induction hk with
  | refl => rfl
  | @step n hk ih =>
    have hstep : ¬ (m.after n c).1.Overwrites (m.after n c).2 t :=
      fun ho => h ⟨n, hk, Nat.lt_succ_self n, ho⟩
    have hbefore := ih fun ho => h ho.succ
    exact (step_content_of_not_overwrites hstep).trans hbefore

theorem content_of_overwritten (hm : m.WellFormed) (h : m.OverwrittenIn c t k n) :
    ∃ x < 32768, (m.after n c).1.contentOf? t = some x := by
  induction n with
  | zero =>
    obtain ⟨j, _, hj, _⟩ := h
    exact absurd hj (Nat.not_lt_zero j)
  | succ n ih =>
    by_cases hstep : (m.after n c).1.Overwrites (m.after n c).2 t
    · exact step_content_of_overwrites (after_wellFormed hm n c) hstep
    · obtain ⟨j, hk, hj, ho⟩ := h
      have hne : j ≠ n := fun he => hstep (he ▸ ho)
      have hkept : (m.after (n + 1) c).1.contentOf? t = (m.after n c).1.contentOf? t :=
        step_content_of_not_overwrites hstep
      rw [hkept]
      exact ih ⟨j, hk, by omega, ho⟩

end After

end Machine

end FifteenBit
