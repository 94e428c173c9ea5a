import FifteenBit.Console.Recorder
import FifteenBit.Proofs.OpcodeTable
import FifteenBit.Proofs.WellFormed

/-! A step that does not fail has the effect of the opcode table. The machine computes with
words of sixteen and thirty-two bits; within bounds their results are the exact ones. -/

namespace FifteenBit

open OpcodeTable (State Denotation)

def Target.denotation : Target → Denotation
  | .memory address => .plain address.toNat
  | .register r => .register r.index

namespace Machine

def numbers (m : Machine) : State where
  memory a := m.memory[a]?.map UInt16.toNat
  registers i := (m.register ⟨i⟩).toNat
  stack := m.stack.map UInt16.toNat
  ip := m.ip.toNat
  pending := m.pending.map UInt16.toNat
  running := m.running
  policy := m.policy

/-- Nothing of a machine is lost in its numbers. -/
theorem numbers_injective {m m' : Machine} (h : m.numbers = m'.numbers) : m = m' := by
  obtain ⟨memory, registers, stack, ip, pending, running, policy⟩ := m
  obtain ⟨memory', registers', stack', ip', pending', running', policy'⟩ := m'
  simp only [numbers, State.mk.injEq] at h
  obtain ⟨hm, hr, hs, hi, hp, rfl, rfl⟩ := h
  have hword : Function.Injective UInt16.toNat := fun _ _ => UInt16.toNat_inj.1
  have hm : memory = memory' := by
    apply Vector.ext
    intro k hk
    have hget := congrFun hm k
    rw [Vector.getElem?_eq_getElem hk, Vector.getElem?_eq_getElem hk] at hget
    exact hword (Option.some.inj hget)
  have hr : registers = registers' := by
    apply Vector.ext
    intro k hk
    exact hword (congrFun hr ⟨k, hk⟩)
  have hs : stack = stack' := (List.map_inj_right fun _ _ h => hword h).1 hs
  have hp : pending = pending' := (List.map_inj_right fun _ _ h => hword h).1 hp
  rw [hm, hr, hs, hp, UInt64.toNat_inj.1 hi]

variable {m : Machine} {i : Instruction} {raw a b c x : Word} {t : Target}

theorem numbers_reads (h : m.fetch = .ok i) : m.numbers.Reads (i.words.map UInt16.toNat) := by
  intro k n hk
  rw [List.getElem?_map, Option.map_eq_some_iff] at hk
  obtain ⟨w, hw, rfl⟩ := hk
  show (m.memory[m.ip.toNat + k]?).map UInt16.toNat = some w.toNat
  rw [fetch_words h hw]
  rfl

theorem numbers_denotes {o : Operand} (h : Operand.ofWord? m.policy raw = some o) :
    m.numbers.denotes? raw.toNat = some o.target.denotation := by
  rw [State.denotes?]
  by_cases hlt : raw.toNat < 32768
  · rw [Operand.ofWord?_of_lt _ hlt] at h
    cases h
    rw [if_pos hlt]
    rfl
  · rw [if_neg hlt]
    by_cases hr : raw.toNat - 32768 < 8
    · rw [Operand.ofWord?_register _ (by omega) (by omega)] at h
      cases h
      rw [dif_pos hr]
      rfl
    · rw [Operand.ofWord?_above _ (by omega)] at h
      rw [dif_neg hr]
      by_cases hp : m.policy = .wrap
      · rw [if_pos hp] at h
        cases h
        rw [if_pos (show m.numbers.policy = .wrap from hp)]
        simp only [Operand.target, Target.denotation, toNat_wrap, UInt16.toNat_toUInt32]
      · rw [if_neg hp] at h
        cases h

theorem numbers_value (h : (m.value raw).result = .ok x) :
    m.numbers.value? raw.toNat = some x.toNat := by
  obtain ⟨o, ho, rfl⟩ := value_eq_ok.1 h
  rw [State.value?, numbers_denotes ho]
  cases o <;> rfl

theorem numbers_target (h : (m.target raw).result = .ok t) :
    m.numbers.denotes? raw.toNat = some t.denotation := by
  obtain ⟨o, ho, rfl⟩ := target_eq_ok.1 h
  exact numbers_denotes ho

theorem numbers_store (m : Machine) (ht : t.Exists) (n : UInt32) :
    (m.store t n).numbers = m.numbers.put t.denotation n.toNat := by
  cases t with
  | memory address =>
    have hlt : address.toNat < 32768 := UInt16.lt_iff_toNat_lt.1 ht
    simp only [numbers, store, State.put, Target.denotation, State.mk.injEq, and_true]
    refine ⟨funext fun k => ?_, rfl⟩
    by_cases hk : k = address.toNat
    · subst hk
      simp [hlt, toNat_wrap]
    · rw [Function.update_of_ne hk, Vector.getElem?_setIfInBounds_ne (Ne.symm hk)]
  | register r =>
    simp only [numbers, store, State.put, Target.denotation, State.mk.injEq, true_and, and_true]
    refine funext fun k => ?_
    show ((m.registers.write r (wrap n)).read ⟨k⟩).toNat = _
    rw [RegisterFile.read_write]
    by_cases hk : r = ⟨k⟩
    · subst hk
      rw [if_pos rfl, Function.update_self, toNat_wrap]
    · have hne : k ≠ r.index := fun he => hk (by cases r; simp_all)
      rw [if_neg hk, Function.update_of_ne hne]
      rfl

/-- Words are too small for a sum or a product of two of them to wrap. -/
theorem binary_numbers {f : UInt32 → UInt32 → UInt32} (hi : i.binary? = some (a, b, c, f)) :
    i.words = [i.opcode.word, a, b, c] ∧
      ∃ g, OpcodeTable.binary? i.opcode.word.toNat = some g ∧
        ∀ x y : Word, (f x.toUInt32 y.toUInt32).toNat = g x.toNat y.toNat := by
  cases i with
  | eq =>
    cases hi
    refine ⟨rfl, _, rfl, fun x y => ?_⟩
    have he : x.toUInt32 = y.toUInt32 ↔ x.toNat = y.toNat := by
      rw [← UInt32.toNat_inj, UInt16.toNat_toUInt32, UInt16.toNat_toUInt32]
    show (if x.toUInt32 = y.toUInt32 then (1 : UInt32) else 0).toNat = _
    by_cases h : x.toNat = y.toNat
    · rw [if_pos (he.2 h), if_pos h]
      rfl
    · rw [if_neg (mt he.1 h), if_neg h]
      rfl
  | gt =>
    cases hi
    refine ⟨rfl, _, rfl, fun x y => ?_⟩
    have he : x.toUInt32 > y.toUInt32 ↔ y.toNat < x.toNat := by
      rw [gt_iff_lt, UInt32.lt_iff_toNat_lt, UInt16.toNat_toUInt32, UInt16.toNat_toUInt32]
    show (if x.toUInt32 > y.toUInt32 then (1 : UInt32) else 0).toNat = _
    by_cases h : y.toNat < x.toNat
    · rw [if_pos (he.2 h), if_pos h]
      rfl
    · rw [if_neg (mt he.1 h), if_neg h]
      rfl
  | add =>
    cases hi
    refine ⟨rfl, _, rfl, fun x y => ?_⟩
    have hx := x.toNat_lt
    have hy := y.toNat_lt
    rw [UInt32.toNat_add, UInt16.toNat_toUInt32, UInt16.toNat_toUInt32]
    exact Nat.mod_eq_of_lt (by omega)
  | mult =>
    cases hi
    refine ⟨rfl, _, rfl, fun x y => ?_⟩
    have hlt : x.toNat * y.toNat < 2 ^ 16 * 2 ^ 16 := Nat.mul_lt_mul'' x.toNat_lt y.toNat_lt
    rw [UInt32.toNat_mul, UInt16.toNat_toUInt32, UInt16.toNat_toUInt32]
    exact Nat.mod_eq_of_lt hlt
  | mod =>
    cases hi
    refine ⟨rfl, _, rfl, fun x y => ?_⟩
    rw [UInt32.toNat_mod, UInt16.toNat_toUInt32, UInt16.toNat_toUInt32]
  | and =>
    cases hi
    refine ⟨rfl, _, rfl, fun x y => ?_⟩
    rw [UInt32.toNat_and, UInt16.toNat_toUInt32, UInt16.toNat_toUInt32]
  | or =>
    cases hi
    refine ⟨rfl, _, rfl, fun x y => ?_⟩
    rw [UInt32.toNat_or, UInt16.toNat_toUInt32, UInt16.toNat_toUInt32]
  | _ => cases hi

theorem toNat_complement (h : x < 32768) : (~~~x &&& 0x7FFF).toNat = 32767 - x.toNat := by
  have hlt : x.toNat < 32768 := UInt16.lt_iff_toNat_lt.1 h
  have hand : (~~~x &&& 0x7FFF).toNat = (65535 - x.toNat) % 2 ^ 15 := by
    rw [UInt16.toNat_and, UInt16.toNat_not]
    exact Nat.and_two_pow_sub_one_eq_mod _ 15
  rw [hand]
  omega

theorem toNat_ne_zero (h : x ≠ 0) : x.toNat ≠ 0 :=
  fun h0 => h (UInt16.toNat_inj.1 h0)

theorem toNat_wrap_ip (h : m.fetch = .ok i) :
    (wrap (m.ip.toUInt32 + 2)).toNat = (m.ip.toNat + 2) % 32768 := by
  have hle := fetch_end_le h
  rw [toNat_wrap, UInt32.toNat_add, UInt64.toNat_toUInt32]
  show (m.ip.toNat % 4294967296 + 2) % 4294967296 % 32768 = _
  omega

variable {σ : Type} {c d : σ} {calls : List Call} {next : UInt64}

theorem numbers_advance : (m.advance d calls next).machine.numbers =
    { m.numbers with ip := next.toNat } := rfl

theorem numbers_jump : (m.advance d calls x.toUInt64).machine.numbers =
    { m.numbers with ip := x.toNat } := by
  rw [numbers_advance, UInt16.toNat_toUInt64]

theorem numbers_stored {n : Nat} (m : Machine) (hn : next.toNat = n) (ht : t.Exists) (w : Word) :
    ((m.store t w.toUInt32).advance d calls next).machine.numbers =
      { m.numbers.put t.denotation w.toNat with ip := n } := by
  rw [numbers_advance, hn, numbers_store m ht, UInt16.toNat_toUInt32]

theorem row_of_input [Console σ] (hf : m.fetch = .ok (.input a))
    (ha : (m.target a).result = .ok t) {s : Step σ}
    (hp : m.Performs c (m.ip + (Instruction.input a).size.toUInt64) (.read t) s)
    {status : Status} (hs : s.result = .ok status) :
    OpcodeTable.Row m.numbers ((Instruction.input a).words.map UInt16.toNat) s.calls status
      s.machine.numbers := by
  have hn := toNat_next hf
  have ht : t.Exists := target_exists ha
  have hrest (rest : List Word) : ({ m with pending := rest } : Machine).numbers =
      { m.numbers with pending := rest.map UInt16.toNat } := rfl
  cases hp with
  | @pending _ x rest hpe =>
    cases hs
    rw [numbers_stored _ hn ht, hrest rest, State.put_pending]
    exact .inPending (numbers_target ha) (congrArg (List.map UInt16.toNat) hpe)
  | @line _ x rest readings d hpe hc =>
    cases hs
    obtain ⟨k, hk⟩ := Console.refill_calls hc
    rw [numbers_stored _ hn ht, hrest rest, State.put_pending]
    exact .inLine (numbers_target ha) (congrArg (List.map UInt16.toNat) hpe) hk
  | exhausted => cases hs
  | failed => cases hs

/-- Each way in which an instruction is resolved and put into force is a row of the table. -/
theorem row_of_performs [Console σ] (hw : m.WellFormed) (hf : m.fetch = .ok i) {e : Effect}
    (he : (m.effect i).result = .ok e) {s : Step σ}
    (hp : m.Performs c (m.ip + i.size.toUInt64) e s) {status : Status}
    (hs : s.result = .ok status) :
    OpcodeTable.Row m.numbers (i.words.map UInt16.toNat) s.calls status s.machine.numbers := by
  have hn : (m.ip + i.size.toUInt64).toNat = m.numbers.ip + i.size := toNat_next hf
  have hb := hw.effect_bounded he
  cases resolves_of_effect he with
  | halt => cases hp; cases hs; exact .halt
  | @set a b x r ha hv =>
    cases hp
    cases hs
    have ht : (Target.register r).Exists := trivial
    rw [numbers_stored m hn ht]
    exact .set (numbers_denotes (operand_eq_ok.1 ha)) (numbers_value hv)
  | push ha =>
    cases hp
    cases hs
    rw [numbers_advance, hn]
    exact .push (numbers_value ha)
  | @pop a t ha =>
    cases hp with
    | underflow => cases hs
    | @pop _ x rest hst =>
      cases hs
      have ht : t.Exists := hb
      have hpop : ({ m with stack := rest } : Machine).numbers =
          { m.numbers with stack := rest.map UInt16.toNat } := rfl
      rw [numbers_stored _ hn ht, hpop, State.put_stack]
      exact .pop (numbers_target ha) (congrArg (List.map UInt16.toNat) hst)
  | @binary i a b c x y f t hi ha hx hy hz =>
    obtain ⟨hws, g, hg, hf⟩ := binary_numbers hi
    have hz' : i.opcode.word.toNat = 11 → y.toNat ≠ 0 := by
      intro h11
      refine toNat_ne_zero (hz ?_)
      cases i <;> simp_all [Instruction.opcode, Opcode.word]
    have h4 : i.size = 4 := by
      rw [← i.length_words, hws]
      rfl
    cases hp
    cases hs
    have ht : t.Exists := hb
    rw [numbers_advance, hn, numbers_store m ht, hf, hws, h4]
    exact .binary hg (numbers_target ha) (numbers_value hx) (numbers_value hy) hz'
  | jmp ha =>
    cases hp
    cases hs
    rw [numbers_jump]
    exact .jmp (numbers_value ha)
  | jtTaken ha hx hv =>
    cases hp
    cases hs
    rw [numbers_jump]
    exact .jtTaken (numbers_value ha) (toNat_ne_zero hx) (numbers_value hv)
  | jtPassed ha =>
    cases hp
    cases hs
    rw [numbers_advance, hn]
    exact .jtPassed (numbers_value ha)
  | jfTaken ha hv =>
    cases hp
    cases hs
    rw [numbers_jump]
    exact .jfTaken (numbers_value ha) (numbers_value hv)
  | jfPassed ha hx =>
    cases hp
    cases hs
    rw [numbers_advance, hn]
    exact .jfPassed (numbers_value ha) (toNat_ne_zero hx)
  | @not a b x t ha hv =>
    cases hp
    cases hs
    have ht : t.Exists := hb
    rw [numbers_stored m hn ht, toNat_complement (hw.value_lt hv)]
    exact .not (numbers_target ha) (numbers_value hv)
  | @rmem a b x w t ha hv hc =>
    cases hp
    cases hs
    have hm : m.numbers.memory x.toNat = some w.toNat := by
      have hc := cell_eq_ok.1 hc
      rw [UInt16.toNat_toUInt64] at hc
      exact congrArg (Option.map UInt16.toNat) hc
    have ht : t.Exists := hb
    rw [numbers_stored m hn ht]
    exact .rmem (numbers_target ha) (numbers_value hv) hm
  | @wmem a b x y ha hv =>
    cases hp
    cases hs
    have ht : (Target.memory x).Exists := hb
    rw [numbers_stored m hn ht]
    exact .wmem (numbers_value ha) (numbers_value hv)
  | @call a x ha =>
    cases hp
    cases hs
    have hpush : ({ m with stack := wrap (m.ip.toUInt32 + 2) :: m.stack } : Machine).numbers =
        { m.numbers with stack := (m.ip.toNat + 2) % 32768 :: m.numbers.stack } := by
      rw [← toNat_wrap_ip hf]
      rfl
    rw [numbers_jump, hpush]
    exact .call (numbers_value ha)
  | ret =>
    cases hp with
    | emptyReturn hst =>
      cases hs
      exact .emptyReturn (congrArg (List.map UInt16.toNat) hst)
    | ret hst =>
      cases hs
      rw [numbers_jump]
      exact .ret (congrArg (List.map UInt16.toNat) hst)
  | out ha =>
    cases hp with
    | refused => cases hs
    | wrote =>
      cases hs
      rw [numbers_advance, hn]
      exact .out (numbers_value ha)
  | input ha => exact row_of_input hf ha hp hs
  | noop =>
    cases hp
    cases hs
    rw [numbers_advance, hn]
    exact .noop

/-- What a step does, unless it fails, is the one thing that the table has for it on its console. -/
theorem step_effect [Console σ] {status : Status} (hw : m.WellFormed)
    (h : (m.step c).result = .ok status) (calls : List Call) (status' : Status) (t : State)
    (d : σ) :
    OpcodeTable.Effect m.numbers calls status' t ∧ Console.Answers c calls d ↔
      calls = (m.step c).calls ∧ status' = status ∧ t = (m.step c).machine.numbers ∧
        d = (m.step c).console := by
  have hrow : OpcodeTable.Effect m.numbers (m.step c).calls status (m.step c).machine.numbers := by
    obtain ⟨i, e, _, hf, he, hs⟩ := performed_of_ok h
    rw [hs] at h ⊢
    exact ⟨_, numbers_reads hf, row_of_performs hw hf he (performs m c _ e) h⟩
  have ha := step_answers m c
  constructor
  · rintro ⟨ht, hd⟩
    exact ht.unique hrow hd ha
  · rintro ⟨rfl, rfl, rfl, rfl⟩
    exact ⟨hrow, ha⟩

theorem step_effect_own_operand :
    ∃ m t, (boot [9, 1, 32768, 5, 0] .wrap).result = .ok m ∧ m.WellFormed ∧
      (m.step (Recorder.ofLines [])).result = .ok .running ∧
      OpcodeTable.Effect m.numbers [] .running t ∧ t.memory 1 = some 5 ∧ t.ip = 4 := by
  obtain ⟨m, hb, hr, hf, he, hip⟩ : ∃ m, (boot [9, 1, 32768, 5, 0] .wrap).result = .ok m ∧
      m.running = true ∧ m.fetch = .ok (.add 1 32768 5) ∧
      (m.effect (.add 1 32768 5)).result = .ok (.store (.memory 1) 5) ∧ m.ip = 0 :=
    ⟨_, rfl, rfl, rfl, rfl, rfl⟩
  have hw := boot_wellFormed hb
  have hs := step_of_effect hr hf he (Recorder.ofLines [])
  have h : (m.step (Recorder.ofLines [])).result = .ok .running := by rw [hs]; rfl
  have hc : (m.step (Recorder.ofLines [])).calls = [] := by rw [hs]; rfl
  have ht := (step_effect hw h _ _ _ _).2 ⟨rfl, rfl, rfl, rfl⟩
  rw [hc] at ht
  refine ⟨m, _, hb, hw, h, ht.1, ?_, ?_⟩
  · rw [hs]
    show ((m.memory.setIfInBounds 1 (wrap 5))[1]?).map UInt16.toNat = some 5
    rw [Vector.getElem?_setIfInBounds_self_of_lt (by decide)]
    rfl
  · rw [hs]
    show (m.ip + _).toNat = 4
    rw [hip]
    rfl

end Machine

end FifteenBit
