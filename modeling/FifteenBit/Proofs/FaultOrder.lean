import FifteenBit.Console.Recorder
import FifteenBit.Proofs.Alike
import FifteenBit.Proofs.Checks
import FifteenBit.Proofs.FetchCases
import FifteenBit.Proofs.WellFormed

/-! Which fault a step ends with. The checks of a step are listed in the order in which they are
made; several may be due at once, and the first of them is reported. -/

namespace FifteenBit

open Check (First Guards)

namespace Console

variable {σ : Type} [Console σ] {c : σ}

/-- After lines without a code the console answers with such a reading. -/
def Reads (c : σ) (reading : Reading) : Prop :=
  ∃ n d, Answers c (Call.blanks n ++ [.read reading]) d

theorem reads_iff (supply : Supply) : Reads c supply.reading ↔ (refill c).1 = supply := by
  constructor
  · rintro ⟨n, d, h⟩
    obtain ⟨c', hblanks, hlast⟩ := h.of_append
    have hread : Console.read c' = (supply.reading, (Console.read c').2) :=
      Prod.ext (answers_read_cons.1 hlast).1 rfl
    rw [refill_of_blanks hblanks]
    cases supply with
    | codes => rw [refill_of_line hread]
    | endOfInput => rw [refill_of_endOfInput hread]
    | failed => rw [refill_of_failed hread]
  · rintro rfl
    obtain ⟨n, hn⟩ := refill_calls (c := c) rfl
    have h := answers_refill c
    rw [hn] at h
    exact ⟨n, _, h⟩

theorem reads_endOfInput : Reads c .endOfInput ↔ (refill c).1 = .endOfInput :=
  reads_iff .endOfInput

theorem reads_failed {reason : String} : Reads c (.failed reason) ↔ (refill c).1 = .failed reason :=
  reads_iff (.failed reason)

end Console

namespace Machine

variable {σ : Type} [Console σ]

/-- The policy has no value for the word. -/
def Refused (m : Machine) (raw : Word) : Prop :=
  m.policy = .strict ∧ 32776 ≤ raw.toNat

def refuses (m : Machine) (raw : Word) : Check Fault :=
  .when (m.Refused raw) (.invalidOperand m.ip raw)

def fetchChecks (m : Machine) : List (Check Fault) :=
  [.when (32768 ≤ m.ip.toNat) (.invalidAddress m.ip),
    fun fault => ∃ raw, m.memory[m.ip.toNat]? = some raw ∧ 21 < raw.toNat ∧
      fault = .invalidOpcode m.ip raw,
    .when (∃ raw op, m.memory[m.ip.toNat]? = some raw ∧ Opcode.ofWord? raw = some op ∧
      32768 ≤ m.ip.toNat + op.arity) (.invalidAddress 32768)]

/-- The operands are resolved in order. But a divisor comes first, and what is no register is not
written to by a `set`. Where a jump goes is looked at when it is taken. -/
def operandChecks (m : Machine) : Instruction → List (Check Fault)
  | .halt | .ret | .noop => []
  | .push a | .pop a | .jmp a | .call a | .out a | .input a => [m.refuses a]
  | .not a b | .rmem a b | .wmem a b => [m.refuses a, m.refuses b]
  | .eq a b c | .gt a b c | .add a b c | .mult a b c | .and a b c | .or a b c =>
    [m.refuses a, m.refuses b, m.refuses c]
  | .mod a b c =>
    [m.refuses c, .when ((m.value c).result = .ok 0) (.divisionByZero m.ip), m.refuses a,
      m.refuses b]
  | .set a b =>
    [m.refuses a, .when (∃ v, (m.operand a).result = .ok (.literal v)) (.invalidWriteTarget m.ip a),
      m.refuses b]
  | .jt a b =>
    [m.refuses a, .when (m.Jumps (.jt a b) ∧ m.Refused b) (.invalidOperand m.ip b)]
  | .jf a b =>
    [m.refuses a, .when (m.Jumps (.jf a b) ∧ m.Refused b) (.invalidOperand m.ip b)]

/-- What an instruction needs of the stack or of the console. -/
def supplyChecks (m : Machine) (c : σ) : Instruction → List (Check Fault)
  | .pop _ => [.when (m.stack = []) (.stackUnderflow m.ip)]
  | .out a =>
    [fun fault => ∃ x reason, (m.value a).result = .ok x ∧
      (Console.write c x).1 = .error reason ∧ fault = .console reason]
  | .input _ =>
    [.when (m.pending = [] ∧ Console.Reads c .endOfInput) (.inputExhausted m.ip),
      fun fault => m.pending = [] ∧ ∃ reason, Console.Reads c (.failed reason) ∧
        fault = .console reason]
  | _ => []

/-- All checks of a step. Those of the instruction come after those that are made to fetch it. -/
def checks (m : Machine) (c : σ) : List (Check Fault) :=
  .when (m.running = false) .machineHalted :: (m.fetchChecks ++
    match m.fetch with
    | .ok i => m.operandChecks i ++ m.supplyChecks c i
    | .error _ => [])

section Operands

variable {m : Machine} {a b c raw : Word}

theorem refused_iff : m.Refused raw ↔ Operand.ofWord? m.policy raw = none := by
  rw [Operand.ofWord?_eq_none_iff, Operand.outOfRange_iff, Refused]

theorem operand_guarded (m : Machine) (raw : Word) :
    Guards [m.refuses raw] (m.operand raw).result := by
  intro fault
  rw [operand_eq_error, ← refused_iff, Check.first_singleton]
  exact Iff.rfl

theorem value_guarded (m : Machine) (raw : Word) : Guards [m.refuses raw] (m.value raw).result :=
  (m.operand_guarded raw).map_logged _

theorem target_guarded (m : Machine) (raw : Word) : Guards [m.refuses raw] (m.target raw).result :=
  (m.operand_guarded raw).map_logged _

theorem combine_guarded (m : Machine) (a b c : Word) (f : UInt32 → UInt32 → UInt32) :
    Guards [m.refuses a, m.refuses b, m.refuses c] (m.combine a b c f).result :=
  (m.target_guarded a).bind_logged fun _ _ =>
    (m.value_guarded b).bind_logged fun _ _ => (m.value_guarded c).map_logged _

theorem divide_guarded (m : Machine) (a b c : Word) :
    Guards (m.operandChecks (.mod a b c)) (m.effect (.mod a b c)).result := by
  refine (m.value_guarded c).bind_logged fun z hz => ?_
  by_cases h0 : z = 0
  · subst h0
    rw [if_pos rfl]
    exact Check.guards_when _ hz
  · rw [if_neg h0]
    have hnot : ¬ (m.value c).result = .ok 0 := by simpa [hz] using h0
    refine Check.Guards.cons_when ?_ hnot
    -- The divisor is resolved again, and is not refused then.
    have hcombine : Guards ([m.refuses a, m.refuses b] ++ [m.refuses c]) _ :=
      m.combine_guarded a b c fun x y => x % y
    exact hcombine.append_of_passed ((m.value_guarded c).all_passed hz)

theorem set_guarded (m : Machine) (a b : Word) :
    Guards (m.operandChecks (.set a b)) (m.effect (.set a b)).result := by
  refine (m.operand_guarded a).bind_logged fun o ho => ?_
  cases o with
  | literal v => exact Check.guards_when _ ⟨v, ho⟩
  | register r =>
    have hnot : ¬ ∃ v, (m.operand a).result = .ok (.literal v) := by simp [ho]
    exact ((m.value_guarded b).map_logged _).cons_when hnot

theorem branch_guarded (m : Machine) {a b : Word} {wanted : Bool} {taken : Prop}
    (ht : taken ↔ ∃ x, (m.value a).result = .ok x ∧ (x != 0) = wanted) :
    Guards [m.refuses a, .when (taken ∧ m.Refused b) (.invalidOperand m.ip b)]
      (m.branch a b wanted).result := by
  refine (m.value_guarded a).bind_logged fun x hx => ?_
  have htaken : taken ↔ (x != 0) = wanted := by simp [ht, hx]
  by_cases hw : (x != 0) = wanted
  · rw [if_pos (beq_iff_eq.2 hw)]
    have h := (m.value_guarded b).map_logged Effect.jump
    rwa [refuses, ← and_iff_right (htaken.2 hw) (b := m.Refused b)] at h
  · rw [if_neg (mt beq_iff_eq.1 hw)]
    have hnot : ¬ (taken ∧ m.Refused b) := fun h => hw (htaken.1 h.1)
    exact (Check.guards_ok _).cons_when hnot

/-- Reading a cell does not fail: its address is a value. -/
theorem WellFormed.load_guarded (hw : m.WellFormed) (a b : Word) :
    Guards (m.operandChecks (.rmem a b)) (m.effect (.rmem a b)).result := by
  refine (m.target_guarded a).bind_logged fun t _ => ?_
  have h (x : Word) (hx : (m.value b).result = .ok x) :
      Guards [] (Logged.ofExcept (m.cell x.toUInt64) >>= fun w =>
        Pure.pure (Effect.store t w.toUInt32)).result := by
    obtain ⟨w, hcell⟩ := cell_of_lt (m := m) (toNat_toUInt64_lt (hw.value_lt hx))
    rw [hcell]
    exact Check.guards_ok _
  exact (m.value_guarded b).bind_logged h

theorem WellFormed.effect_guarded (hw : m.WellFormed) (i : Instruction) :
    Guards (m.operandChecks i) (m.effect i).result := by
  cases i with
  | halt | ret | noop => exact Check.guards_ok _
  | set a b => exact m.set_guarded a b
  | push a | jmp a | call a | out a => exact (m.value_guarded a).map_logged _
  | pop a | input a => exact (m.target_guarded a).map_logged _
  | eq a b c | gt a b c | add a b c | mult a b c | and a b c | or a b c =>
    rw [effect]
    exact m.combine_guarded a b c _
  | jt a b => exact m.branch_guarded (by simp [Jumps])
  | jf a b => exact m.branch_guarded (by simp [Jumps])
  | mod a b c => exact m.divide_guarded a b c
  | not a b =>
    exact (m.target_guarded a).bind_logged fun _ _ => (m.value_guarded b).map_logged _
  | rmem a b => exact hw.load_guarded a b
  | wmem a b =>
    exact (m.value_guarded a).bind_logged fun _ _ => (m.value_guarded b).map_logged _

end Operands

section Step

variable {m : Machine} {c : σ}

theorem fetch_guarded (m : Machine) : Guards m.fetchChecks m.fetch := by
  rcases fetch_cases m with ⟨hge, hf⟩ | ⟨raw, hraw, hor⟩
  · rw [hf]
    exact Check.guards_when _ hge
  have hip : ¬ 32768 ≤ m.ip.toNat := Nat.not_le.2 (Vector.getElem?_eq_some_iff.1 hraw).1
  refine Check.Guards.cons_when ?_ hip
  rcases hor with ⟨hop, hf⟩ | ⟨op, hop, hor⟩
  · rw [hf]
    refine Check.guards_error fun fault => ?_
    simp [hraw, (Opcode.ofWord?_eq_none_iff raw).1 hop]
  have hknown : ¬ 21 < raw.toNat := by simp [← Opcode.ofWord?_eq_none_iff, hop]
  refine Check.Guards.cons_of_passed ?_ fun fault => by simp [hraw, hknown]
  rcases hor with ⟨hge, hf⟩ | ⟨i, hlt, _, hf⟩
  · rw [hf]
    exact Check.guards_when _ ⟨raw, op, hraw, hop, hge⟩
  · rw [hf]
    have hinside : ¬ 32768 ≤ m.ip.toNat + op.arity := Nat.not_le.2 hlt
    refine (Check.guards_ok i).cons_when ?_
    simp [hraw, hop, hinside]

theorem Performs.read_guarded {next : UInt64} {a : Word} {t : Target} {s : Step σ}
    (h : m.Performs c next (.read t) s) : Guards (m.supplyChecks c (.input a)) s.result := by
  cases h with
  | pending hp =>
    have hnot : m.pending ≠ [] := by simp [hp]
    refine Check.Guards.cons_when ?_ fun h => hnot h.1
    exact (Check.guards_ok _).cons_of_passed fun _ h => hnot h.1
  | line hp hc =>
    have hended : ¬ Console.Reads c .endOfInput := by simp [Console.reads_endOfInput, hc]
    refine Check.Guards.cons_when ?_ fun h => hended h.2
    exact (Check.guards_ok _).cons_of_passed fun fault => by simp [Console.reads_failed, hc]
  | exhausted hp hc =>
    have hended : Console.Reads c .endOfInput := by rw [Console.reads_endOfInput, hc]
    exact Check.guards_when _ ⟨hp, hended⟩
  | failed hp hc =>
    have hended : ¬ Console.Reads c .endOfInput := by simp [Console.reads_endOfInput, hc]
    refine Check.Guards.cons_when ?_ fun h => hended h.2
    exact Check.guards_error fun fault => by simp [hp, Console.reads_failed, hc]

theorem Performs.supply_guarded {next : UInt64} {i : Instruction} {e : Effect} {s : Step σ}
    (h : m.Performs c next e s) (hi : m.Resolves i e) : Guards (m.supplyChecks c i) s.result := by
  cases hi with
  | pop =>
    cases h with
    | underflow hs => exact Check.guards_when _ hs
    | pop hs => exact (Check.guards_ok _).cons_when (by simp [hs])
  | out ha =>
    cases h with
    | wrote hc => exact (Check.guards_ok _).cons_of_passed fun fault => by simp [ha, hc]
    | refused hc => exact Check.guards_error fun fault => by simp [ha, hc]
  | input => exact h.read_guarded
  | @binary i a b c x y f t hi =>
    cases i with
    | eq | gt | add | mult | mod | and | or =>
      cases h
      exact Check.guards_ok _
    | _ => cases hi
  | ret => cases h <;> exact Check.guards_ok _
  | _ =>
    cases h
    exact Check.guards_ok _

theorem step_result (hr : m.running = true) (c : σ) :
    (m.step c).result = m.fetch >>= fun i => (m.effect i).result >>= fun e =>
      (m.perform c (m.ip + i.size.toUInt64) e).result := by
  cases hf : m.fetch with
  | error fault =>
    rw [step_of_fetch_error hr hf c]
    rfl
  | ok i =>
    show _ = (m.effect i).result >>= _
    cases he : (m.effect i).result with
    | error fault =>
      rw [step_of_effect_error hr hf he c]
      rfl
    | ok e =>
      rw [step_of_effect hr hf he c]
      rfl

theorem WellFormed.step_guarded (hw : m.WellFormed) (c : σ) :
    Guards (m.checks c) (m.step c).result := by
  cases hr : m.running with
  | false =>
    rw [step_of_not_running hr]
    exact Check.guards_when _ hr
  | true =>
    have hrunning : ¬ m.running = false := by simp [hr]
    refine Check.Guards.cons_when ?_ hrunning
    rw [step_result hr c]
    refine m.fetch_guarded.bind fun i hf => ?_
    rw [hf]
    refine (hw.effect_guarded i).bind fun e he => ?_
    exact (performs m c _ e).supply_guarded (resolves_of_effect he)

/-- A step of a well-formed machine fails if one of its checks is not passed, and only so; the
fault is that of the first one. The instruction that is checked is the one that stands in memory
at the instruction pointer. -/
theorem first_fault (hw : m.WellFormed) (c : σ) :
    (∀ fault, (m.step c).result = .error fault ↔ First (m.checks c) fault) ∧
    ((∃ fault, (m.step c).result = .error fault) ↔ ∃ k ∈ m.checks c, ∃ fault, k fault) ∧
    ∀ i, m.fetch = .ok i ↔ m.Holds i := by
  have hguarded := hw.step_guarded c
  refine ⟨hguarded, ?_, fun i => fetch_eq_ok⟩
  rw [← Check.exists_first_iff]
  exact exists_congr hguarded

/-- The other operands are out of range, but the divisor is looked at before them. -/
theorem first_fault_divisor :
    ∃ m : Machine, (boot [11, 40000, 40001, 0] .strict).result = .ok m ∧
      m.Refused 40000 ∧ m.Refused 40001 ∧
      ∀ c : Recorder, (m.step c).result = .error (.divisionByZero 0) := by
  obtain ⟨m, hb, hr, hp, hf, hz⟩ : ∃ m : Machine,
      (boot [11, 40000, 40001, 0] .strict).result = .ok m ∧ m.running = true ∧
      m.policy = .strict ∧ m.fetch = .ok (.mod 40000 40001 0) ∧ (m.value 0).result = .ok 0 :=
    ⟨_, rfl, rfl, rfl, rfl, rfl⟩
  refine ⟨m, hb, ⟨hp, by decide⟩, ⟨hp, by decide⟩, fun c => ?_⟩
  have hrunning : ¬ m.running = false := by simp [hr]
  have hdivisor : First (m.operandChecks (.mod 40000 40001 0)) (.divisionByZero m.ip) :=
    .inr ⟨Check.when_passed.2 fun h => absurd h.2 (by decide), .inl ⟨hz, rfl⟩⟩
  have hfirst : First (m.checks c) (.divisionByZero m.ip) := by
    refine .inr ⟨Check.when_passed.2 hrunning, ?_⟩
    rw [Check.first_append, hf]
    exact .inr ⟨m.fetch_guarded.all_passed hf, Check.first_append.2 (.inl hdivisor)⟩
  have hip : m.ip = 0 := (boot_eq_ok hb).2.2
  rw [← hip]
  exact ((first_fault (boot_wellFormed hb) c).1 _).2 hfirst

end Step

end Machine

end FifteenBit
