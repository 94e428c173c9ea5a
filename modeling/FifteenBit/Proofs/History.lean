import FifteenBit.Proofs.FetchCases
import FifteenBit.Proofs.Output
import FifteenBit.Proofs.Warnings

/-! The log is a history. A step of a running machine adds the line of its instruction as the
machine is before it, the warnings about the words that it reduces, and how it stops the machine.
The line of an `out` shows the character that the console is asked to write. -/

namespace FifteenBit

variable {σ : Type}

theorem Notice.shown_at_trace (n : Notice) : n.isShownAt .trace = true := by
  cases n <;> rfl

namespace Step

/-- How the step stops the machine, if it does. -/
def ending (s : Step σ) (ip : UInt64) : List Notice :=
  match s.outcome? with
  | none => []
  | some (.ok reason) => [.halted ip reason]
  | some (.error fault) => [.faulted fault]

/-- The last record of the step as it is written. -/
def closing (s : Step σ) (ip : UInt64) : List (Level × String) :=
  match s.outcome? with
  | none => []
  | some (.ok reason) => [(.info, "halted at ip " ++ toString ip ++ ": " ++ reason.name)]
  | some (.error fault) => [(.error, fault.message ++ ", halting")]

/-- The codes that a console is asked to write, whether it does so or not. -/
def offered (s : Step σ) : List Word :=
  s.calls.filterMap Call.offered?

end Step

namespace Machine

/-- The records of a step, and their levels and texts: lines of instructions, then warnings about
words that are reduced, then how the step stops the machine. -/
structure Records (m : Machine) (s : Step σ) (lines : List TraceLine) (raws : List Word) :
    Prop where
  log : s.log = lines.map .executing ++
    raws.map (fun raw => .normalized raw m.ip (.literal (raw % 32768))) ++ s.ending m.ip
  entries : s.log.map (fun n => (n.level, n.text)) =
    lines.map (fun line => (.trace, line.text)) ++
    raws.map (fun raw => (.warn, "operand " ++ toString raw ++ " at ip " ++ toString m.ip ++
      " normalized to " ++ ("Literal(" ++ toString (raw % 32768) ++ ")"))) ++ s.closing m.ip

/-- The step is recorded faithfully. Its instruction has a line if all of it stands in memory. The
printed character belongs to the code that is offered to the console, and is blank for a control
character and where no code is offered. -/
structure Recounts (m : Machine) (s : Step σ) : Prop where
  unfetched : (∀ i, ¬m.Holds i) → m.Records s [] []
  fetched : ∀ i, m.Holds i → ∃ printed,
    m.Records s [⟨m.ip, i.opcode, i.operands, printed, m.registers, m.stack⟩] (m.reduced i) ∧
    (∀ code ∈ s.offered, ∃ ch : Char, ch.toNat = code.toNat ∧
      printed = if code.toNat < 32 ∨ 127 ≤ code.toNat ∧ code.toNat < 160 then ' ' else ch) ∧
    (s.offered = [] → printed = ' ')

theorem Records.of_log {m : Machine} {s : Step σ} {lines : List TraceLine} {raws : List Word}
    (h : s.log = lines.map .executing ++
      raws.map (fun raw => .normalized raw m.ip (.literal (raw % 32768))) ++ s.ending m.ip) :
    m.Records s lines raws := by
  have hclosing : (s.ending m.ip).map (fun n => (n.level, n.text)) = s.closing m.ip := by
    rw [Step.ending, Step.closing]
    rcases s.outcome? with _ | _ | _ <;> rfl
  refine ⟨h, ?_⟩
  rw [h, List.map_append, List.map_append, List.map_map, List.map_map, hclosing]
  rfl

section Step

variable [Console σ] {m : Machine} {i : Instruction} {c : σ} {next : UInt64} {e : Effect}
  {s : Step σ}

theorem Performs.log_eq (h : m.Performs c next e s) : s.log = s.ending m.ip := by
  cases h <;> rfl

theorem Performs.offered_eq (h : m.Performs c next e s) :
    s.offered = match e with | .write code => [code] | _ => [] := by
  have hreadings (readings : List Reading) :
      (readings.map Call.read).filterMap Call.offered? = [] := by
    rw [List.filterMap_eq_nil_iff]
    intro call hm
    obtain ⟨reading, _, rfl⟩ := List.mem_map.1 hm
    rfl
  cases h with
  | line | exhausted | failed => exact hreadings _
  | _ => rfl

theorem step_log (hr : m.running = true) (hf : m.fetch = .ok i) (c : σ) :
    (m.step c).log = m.preface i ++ (m.step c).ending m.ip := by
  cases he : (m.effect i).result with
  | error fault =>
    rw [step_of_effect_error hr hf he]
    rfl
  | ok e =>
    have hp := (performs m c (m.ip + i.size.toUInt64) e).log_eq
    rw [step_of_effect hr hf he, hp]
    rfl

/-- A code is offered by an `out` with an operand that is not refused, and by nothing else. -/
theorem step_offered (hr : m.running = true) (hf : m.fetch = .ok i) (c : σ) :
    (∃ a code, i = .out a ∧ (m.value a).result = .ok code ∧ (m.step c).offered = [code]) ∨
    (m.step c).offered = [] ∧ ∀ a, i = .out a → ∃ fault, (m.value a).result = .error fault := by
  cases he : (m.effect i).result with
  | error fault =>
    refine .inr ⟨by rw [step_of_effect_error hr hf he]; rfl, ?_⟩
    rintro a rfl
    exact ⟨fault, Logged.result_bind_pure_eq_error.1 he⟩
  | ok e =>
    have hoffered := (performs m c (m.ip + i.size.toUInt64) e).offered_eq
    have hstep : (m.step c).offered = (m.perform c (m.ip + i.size.toUInt64) e).offered := by
      rw [step_of_effect hr hf he]
      rfl
    rw [hstep, hoffered]
    cases resolves_of_effect he with
    | out ha => exact .inl ⟨_, _, rfl, ha, rfl⟩
    | binary hi =>
      refine .inr ⟨rfl, ?_⟩
      rintro a rfl
      cases hi
    | _ => exact .inr ⟨rfl, nofun⟩

theorem printed_out (hw : m.WellFormed) {a code : Word} (hv : (m.value a).result = .ok code) :
    ∃ ch : Char, ch.toNat = code.toNat ∧ m.printed .out [a] = TraceLine.visible ch := by
  obtain ⟨ch, hch, hn⟩ := Line.character?_of_lt (hw.value_lt hv)
  obtain ⟨o, ho, rfl⟩ := value_eq_ok.1 hv
  refine ⟨ch, hn, ?_⟩
  simp only [printed, ho, Option.bind_some, hch]

theorem printed_blank (h : ∀ a, i = .out a → ∃ fault, (m.value a).result = .error fault) :
    m.printed i.opcode i.operands = ' ' := by
  cases i with
  | out a =>
    obtain ⟨fault, hv⟩ := h a rfl
    obtain ⟨ho, _⟩ := value_eq_error.1 hv
    show m.printed .out [a] = ' '
    simp only [printed, ho, Option.bind_none]
  | _ => rfl

theorem step_recounts (hw : m.WellFormed) (hr : m.running = true) (c : σ) :
    m.Recounts (m.step c) := by
  constructor
  · intro hnone
    cases hf : m.fetch with
    | ok i => exact absurd (fetch_eq_ok.1 hf) (hnone i)
    | error fault =>
      rw [step_of_fetch_error hr hf]
      exact .of_log rfl
  · intro i hi
    have hf := fetch_eq_ok.2 hi
    have hlog := step_log hr hf c
    rw [preface, effect_log] at hlog
    refine ⟨m.printed i.opcode i.operands, .of_log hlog, ?_⟩
    rcases step_offered hr hf c with ⟨a, code, rfl, hv, hoffered⟩ | ⟨hoffered, hrefused⟩
    · rw [hoffered]
      refine ⟨fun code' hm => ?_, fun hnil => absurd hnil (List.cons_ne_nil code [])⟩
      obtain rfl := List.mem_singleton.1 hm
      obtain ⟨ch, hn, hprinted⟩ := printed_out hw hv
      refine ⟨ch, hn, ?_⟩
      rw [← hn]
      exact hprinted
    · rw [hoffered]
      exact ⟨fun code hm => absurd hm List.not_mem_nil, fun _ => printed_blank hrefused⟩

end Step

section Run

variable [Console σ] {m : Machine} {c : σ} {log : Array Notice} {r : Run σ}

/-- The records of so many steps. -/
def logOf (n : Nat) (m : Machine) (c : σ) : List Notice :=
  (List.range n).flatMap fun k => (m.nthStep k c).log

theorem logOf_step (n : Nat) (m : Machine) (c : σ) : m.logOf (n + 1) c =
    (m.step c).log ++ (m.step c).machine.logOf n (m.step c).console :=
  flatMap_nthStep Step.log n m c

/-- A run that keeps all records has those of its steps. Up to the last step the machine runs. -/
theorem run_log {n : Nat} (h : m.run (Notice.isShownAt .trace) n c log = some r) : ∃ k < n,
    m.after (k + 1) c = (r.machine, r.console) ∧
    (m.running = true → ∀ j ≤ k, (m.after j c).1.running = true) ∧
    r.log.toList = log.toList ++ m.logOf (k + 1) c := by
  have hkept (s : Step σ) : s.log.filter (Notice.isShownAt .trace) = s.log :=
    List.filter_eq_self.2 fun n _ => n.shown_at_trace
  induction n generalizing m c log with
  | zero => cases h
  | succ n ih =>
    cases ho : (m.step c).outcome? with
    | some result =>
      rw [run_of_stopped ho, hkept] at h
      cases h
      refine ⟨0, Nat.succ_pos n, rfl, fun hr j hj => ?_, ?_⟩
      · rw [Nat.le_zero.1 hj]
        exact hr
      · rw [logOf_step]
        simp [logOf]
    | none =>
      rw [run_of_running ho, hkept] at h
      obtain ⟨k, hk, hafter, hrunning, hlog⟩ := ih h
      have hnext := step_running (Step.outcome?_eq_none_iff.1 ho)
      refine ⟨k + 1, Nat.succ_lt_succ hk, ?_, fun hr j hj => ?_, ?_⟩
      · rw [after_step]
        exact hafter
      · cases j with
        | zero => exact hr
        | succ j =>
          rw [after_step]
          exact hrunning hnext j (Nat.le_of_succ_le_succ hj)
      · rw [hlog, logOf_step (k + 1) m c]
        simp

/-- In every step of a run that keeps all records the log tells what the machine does: the line of
the instruction, the warnings in the order of resolution, and the error or the halt. -/
theorem log_is_history (hw : m.WellFormed) (c : σ) :
    (∀ n, (m.after n c).1.running = true → (m.after n c).1.Recounts (m.nthStep n c)) ∧
    (∀ n, (m.after n c).1.running = false → (m.nthStep n c).log = []) ∧
    ∀ n log r, m.run (Notice.isShownAt .trace) n c log = some r → ∃ k < n,
      m.after (k + 1) c = (r.machine, r.console) ∧
      (m.running = true → ∀ j ≤ k, (m.after j c).1.running = true) ∧
      r.log.toList = log.toList ++ (List.range (k + 1)).flatMap fun j => (m.nthStep j c).log := by
  refine ⟨fun n hr => ?_, fun n hr => ?_, fun n log r h => run_log h⟩
  · exact step_recounts (after_wellFormed hw n c) hr _
  · rw [nthStep, step_of_not_running hr]

/-- An `out` of a word above the registers, which is reduced to the code of a letter. -/
theorem log_is_history_reduced :
    ∃ m : Machine, (boot [19, 32833] .wrap).result = .ok m ∧ m.WellFormed ∧ ∀ c : Recorder,
      (m.nthStep 0 c).log =
        [.executing ⟨0, .out, [32833], 'A', RegisterFile.zero, []⟩,
          .normalized 32833 0 (.literal 65)] ∧
      ∃ r, m.run (Notice.isShownAt .trace) 2 c #[] = some r ∧ ∃ k < 2,
        m.after (k + 1) c = (r.machine, r.console) ∧
        r.log.toList = (List.range (k + 1)).flatMap fun j => (m.nthStep j c).log := by
  obtain ⟨m, hb, hr, hip, hf, he, hreduced, hrun⟩ : ∃ m : Machine,
      (boot [19, 32833] .wrap).result = .ok m ∧ m.running = true ∧ m.ip = 0 ∧
      m.fetch = .ok (.out 32833) ∧ (m.effect (.out 32833)).result = .ok (.write 65) ∧
      m.reduced (.out 32833) = [32833] ∧
      ∀ c : Recorder, ∃ r, m.run (Notice.isShownAt .trace) 2 c #[] = some r :=
    ⟨_, rfl, rfl, rfl, rfl, rfl, rfl, fun _ => ⟨_, rfl⟩⟩
  have hw := boot_wellFormed hb
  obtain ⟨hregisters, hstack, _⟩ := boot_eq_ok hb
  refine ⟨m, hb, hw, fun c => ?_⟩
  have hs := step_of_effect hr hf he c
  obtain ⟨r, hrun⟩ := hrun c
  obtain ⟨k, hk, hafter, _, hlog⟩ := (log_is_history hw c).2.2 2 #[] r hrun
  refine ⟨?_, r, hrun, k, hk, hafter, hlog⟩
  obtain ⟨printed, hrecords, hprinted, _⟩ :=
    ((log_is_history hw c).1 0 hr).fetched _ (fetch_eq_ok.1 hf)
  have hoffered : (65 : Word) ∈ (m.nthStep 0 c).offered := by
    rw [nthStep, after, hs]
    exact List.mem_singleton.2 rfl
  obtain ⟨ch, hn, hch⟩ := hprinted 65 hoffered
  have hletter : ch = 'A' := Char.toNat_inj.1 hn
  have hending : (m.nthStep 0 c).ending m.ip = [] := by
    rw [nthStep, after, hs]
    rfl
  rw [hrecords.log, after, hreduced, hending, hregisters, hstack, hip, hch, hletter]
  rfl

end Run

end Machine

end FifteenBit
