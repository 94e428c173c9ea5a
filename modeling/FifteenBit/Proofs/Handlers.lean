import FifteenBit.Machine.Handlers
import FifteenBit.Proofs.StepCases

/-! Handlers that work in place do what a step does. An instruction reads all of its operands
before it changes the machine, so what may fail comes first. -/

namespace FifteenBit

namespace Handler

variable {σ α β : Type}

section Context

@[simp] theorem noted_nil (s : Context σ) : s.noted [] = s :=
  congrArg (fun log => { s with log := log }) (List.append_nil s.log)

@[simp] theorem noted_noted (s : Context σ) (log log' : List Notice) :
    (s.noted log).noted log' = s.noted (log ++ log') :=
  congrArg (fun log => { s with log := log }) (List.append_assoc s.log log log')

@[simp] theorem called_nil (s : Context σ) : s.called s.console [] = s :=
  congrArg (fun calls => { s with calls := calls }) (List.append_nil s.calls)

@[simp] theorem called_called (s : Context σ) (c d : σ) (calls calls' : List Call) :
    (s.called c calls).called d calls' = s.called d (calls ++ calls') :=
  congrArg (fun calls => { s with console := d, calls := calls })
    (List.append_assoc s.calls calls calls')

end Context

section Ask

variable {f : Machine → Logged Fault α} {s : Context σ}

theorem run_ask_of_ok {a : α} (h : (f s.machine).result = .ok a) (k : α → Handler σ β) :
    (ask f >>= k).run s = (k a).run (s.noted (f s.machine).log) := by
  rw [EStateM.run_bind]
  simp only [EStateM.run, ask, h]

theorem run_ask_of_error {fault : Fault} (h : (f s.machine).result = .error fault)
    (k : α → Handler σ β) :
    (ask f >>= k).run s = .error fault (s.noted (f s.machine).log) := by
  rw [EStateM.run_bind]
  simp only [EStateM.run, ask, h]

theorem ask_pure (a : α) : (ask fun _ => pure a : Handler σ α) = pure a :=
  funext fun s => congrArg (EStateM.Result.ok a) (noted_nil s)

theorem ask_error_bind (fault : UInt64 → Fault) (k : α → Handler σ β) :
    (ask fun m => Logged.error (fault m.ip)) >>= k = raise fault :=
  funext fun s => congrArg (EStateM.Result.error (fault s.machine.ip)) (noted_nil s)

/-- Nothing is changed between two questions, so they are one question. -/
theorem ask_bind (f : Machine → Logged Fault α) (g : α → Machine → Logged Fault β) :
    (ask fun m => f m >>= fun a => g a m : Handler σ β) = ask f >>= fun a => ask (g a) := by
  funext s
  cases hf : (f s.machine).result with
  | error fault =>
    refine Eq.trans ?_ (run_ask_of_error hf _).symm
    simp only [ask, Bind.bind, Logged.bind, hf]
  | ok a =>
    refine Eq.trans ?_ (run_ask_of_ok hf _).symm
    simp only [ask, Bind.bind, Logged.bind, hf, EStateM.run, noted_noted]
    rfl

theorem ask_ite (p : Prop) [Decidable p] (f g : Machine → Logged Fault α) :
    (ask fun m => if p then f m else g m : Handler σ α) = if p then ask f else ask g := by
  by_cases hp : p
  · simp only [if_pos hp]
  · simp only [if_neg hp]

end Ask

section Refill

variable [Console σ] {s : Context σ} {c d : σ}

/-- What comes of reading lines when no code is pending. -/
def supplied (s : Context σ) :
    Console.Supply × List Reading × σ → EStateM.Result Fault (Context σ) Unit
  | (.codes x rest, readings, c) =>
    .ok () { s.called c (readings.map .read) with
      machine := { s.machine with pending := x :: rest } }
  | (.endOfInput, readings, c) =>
    .error (.inputExhausted s.machine.ip) (s.called c (readings.map .read))
  | (.failed reason, readings, c) => .error (.console reason) (s.called c (readings.map .read))

theorem refill_of_pending (hp : s.machine.pending ≠ []) : refill s = .ok () s := by
  rw [refill, dif_neg hp]

theorem refill_of_line {codes : List Word} (hp : s.machine.pending = [])
    (h : Console.read s.console = (.line codes, d)) :
    refill s = refill { s.called d [.read (.line codes)] with
      machine := { s.machine with pending := codes } } := by
  rw [refill, dif_pos hp]
  split <;> simp_all

theorem refill_of_endOfInput (hp : s.machine.pending = [])
    (h : Console.read s.console = (.endOfInput, d)) :
    refill s = .error (.inputExhausted s.machine.ip) (s.called d [.read .endOfInput]) := by
  rw [refill, dif_pos hp]
  split <;> simp_all

theorem refill_of_failed {reason : String} (hp : s.machine.pending = [])
    (h : Console.read s.console = (.failed reason, d)) :
    refill s = .error (.console reason) (s.called d [.read (.failed reason)]) := by
  rw [refill, dif_pos hp]
  split <;> simp_all

/-- A line without a code adds nothing to the pending input, so all that is left of the lines
before the last one is that they were read. -/
theorem refill_eq (hp : s.machine.pending = []) (hc : s.console = c) :
    refill s = supplied s (Console.refill c) := by
  fun_induction Console.refill c generalizing s with
  | case1 c first rest d hr =>
    rw [← hc] at hr
    rw [refill_of_line hp hr]
    exact refill_of_pending (List.cons_ne_nil first rest)
  | case2 c d hr =>
    rw [← hc] at hr
    exact refill_of_endOfInput hp hr
  | case3 c reason d hr =>
    rw [← hc] at hr
    exact refill_of_failed hp hr
  | case4 c d hr hlt supply readings e hs ih =>
    rw [← hc] at hr
    have hm : { s.machine with pending := [] } = s.machine := by rw [← hp]
    rw [refill_of_line hp hr, hm]
    have hrest := ih (s := s.called d [.read (.line [])]) hp rfl
    rw [hs] at hrest
    refine Eq.trans hrest ?_
    cases supply <;> simp only [supplied, called_called] <;> rfl

end Refill

section Leave

/-- The context in which a step leaves its instruction. The machine is as before unless it runs
on. -/
def leave (s : Context σ) (t : Step σ) : EStateM.Result Fault (Context σ) Status :=
  match t.result with
  | .ok .running => .ok .running { s.called t.console t.calls with machine := t.machine }
  | .ok (.halted reason) => .ok (.halted reason) (s.called t.console t.calls)
  | .error fault => .error fault (s.called t.console t.calls)

variable (s : Context σ)

theorem leave_advance (m : Machine) (ip : UInt64) :
    leave s (m.advance s.console [] ip) =
      .ok .running { s with machine := { m with ip := ip } } := by
  simp only [leave, Machine.advance, called_nil]

theorem leave_halt (reason : HaltReason) :
    leave s (s.machine.halt s.console reason) = .ok (.halted reason) s := by
  simp only [leave, Machine.halt, called_nil]

theorem leave_fail (fault : Fault) :
    leave s (s.machine.fail s.console [] fault) = .error fault s := by
  simp only [leave, Machine.fail, called_nil]

/-- The machine is left as it was, unless it runs on. -/
def AllOrNothing (m : Machine) : EStateM.Result Fault (Context σ) Status → Prop
  | .ok .running _ => True
  | .ok (.halted _) s | .error _ s => s.machine = m

theorem leave_allOrNothing (t : Step σ) : AllOrNothing s.machine (leave s t) := by
  unfold leave
  split
  · trivial
  · rfl
  · rfl

end Leave

section Effect

variable [Console σ]

/-- Puts an effect into force. -/
def apply : Effect → Handler σ Flow
  | .next => return .next
  | .halt => return .halt .opcode
  | .jump x => return .jump x
  | .call x => call x
  | .ret => ret
  | .store target n => do
    store target n
    return .next
  | .push x => do
    push x
    return .next
  | .pop target => pop target
  | .write x => do
    write x
    return .next
  | .read target => input target

theorem ask_combine (a b c : Word) (f : UInt32 → UInt32 → UInt32) :
    ask (Machine.combine · a b c f) >>= apply = (combine a b c f : Handler σ Flow) := by
  simp only [Machine.combine, ask_bind, ask_pure, bind_assoc, pure_bind]
  rfl

theorem ask_branch (a b : Word) (wanted : Bool) :
    ask (Machine.branch · a b wanted) >>= apply = (branch a b wanted : Handler σ Flow) := by
  simp only [Machine.branch, ask_bind, ask_ite, ask_pure, bind_assoc]
  refine congrArg (value a >>= ·) (funext fun x => ?_)
  split
  · simp only [bind_assoc, pure_bind]
    rfl
  · rfl

/-- A handler asks for the effect of its instruction, and then puts it into force. -/
theorem handle_eq (i : Instruction) :
    handle i = (ask (Machine.effect · i) >>= apply : Handler σ Flow) := by
  cases i with
  | set a b =>
    simp only [Machine.effect, ask_bind, bind_assoc]
    refine congrArg (ask (Machine.operand · a) >>= ·) (funext fun operand => ?_)
    cases operand with
    | literal x => exact (ask_error_bind (.invalidWriteTarget · a) apply).symm
    | register r =>
      simp only [ask_bind, ask_pure, bind_assoc, pure_bind]
      rfl
  | mod a b c =>
    -- The divisor is asked for before the target, and then once more.
    simp only [Machine.effect, ask_bind, ask_ite, bind_assoc]
    refine congrArg (value c >>= ·) (funext fun x => ?_)
    split
    · exact (ask_error_bind .divisionByZero apply).symm
    · exact (ask_combine a b c _).symm
  | eq a b c => exact (ask_combine a b c fun x y => if x = y then 1 else 0).symm
  | gt a b c => exact (ask_combine a b c fun x y => if x > y then 1 else 0).symm
  | add a b c => exact (ask_combine a b c fun x y => x + y).symm
  | mult a b c => exact (ask_combine a b c fun x y => x * y).symm
  | and a b c => exact (ask_combine a b c fun x y => x &&& y).symm
  | or a b c => exact (ask_combine a b c fun x y => x ||| y).symm
  | jt a b | jf a b => exact (ask_branch a b _).symm
  | _ =>
    simp only [Machine.effect, ask_bind, ask_pure, bind_assoc, pure_bind]
    rfl

theorem run_ret (next : UInt64) (s : Context σ) :
    (apply .ret >>= follow next).run s = leave s (s.machine.perform s.console next .ret) := by
  obtain ⟨⟨memory, registers, stack, ip, pending, running, policy⟩, c, log, calls⟩ := s
  cases stack with
  | nil => exact (leave_halt _ _).symm
  | cons x stack => exact (leave_advance _ _ _).symm

theorem run_pop (target : Target) (next : UInt64) (s : Context σ) :
    (apply (.pop target) >>= follow next).run s =
      leave s (s.machine.perform s.console next (.pop target)) := by
  obtain ⟨⟨memory, registers, stack, ip, pending, running, policy⟩, c, log, calls⟩ := s
  cases stack with
  | nil => exact (leave_fail _ _).symm
  | cons x stack => exact (leave_advance _ _ _).symm

theorem run_write (x : Word) (next : UInt64) (s : Context σ) :
    (apply (.write x) >>= follow next).run s =
      leave s (s.machine.perform s.console next (.write x)) := by
  rw [apply, bind_assoc, EStateM.run_bind]
  rcases hc : Console.write s.console x with ⟨_ | _, d⟩ <;>
    simp only [Machine.perform, hc, EStateM.run, write] <;> rfl

theorem run_read (target : Target) (next : UInt64) (s : Context σ) :
    (apply (.read target) >>= follow next).run s =
      leave s (s.machine.perform s.console next (.read target)) := by
  obtain ⟨⟨memory, registers, stack, ip, pending, running, policy⟩, c, log, calls⟩ := s
  rw [apply, input, bind_assoc, EStateM.run_bind]
  simp only [EStateM.run]
  cases pending with
  | nil =>
    rw [refill_eq rfl rfl]
    rcases hc : Console.refill c with ⟨_ | _ | _, readings, d⟩ <;>
      simp only [Machine.perform, hc] <;> rfl
  | cons x pending =>
    rw [refill_of_pending (List.cons_ne_nil x pending)]
    exact (leave_advance _ _ _).symm

theorem run_apply (e : Effect) (next : UInt64) (s : Context σ) :
    (apply e >>= follow next).run s = leave s (s.machine.perform s.console next e) := by
  cases e with
  | write x => exact run_write x next s
  | read target => exact run_read target next s
  | ret => exact run_ret next s
  | pop target => exact run_pop target next s
  | halt => exact (leave_halt s _).symm
  | next | jump x | call x | store target n | push x => exact (leave_advance s _ _).symm

section Next

variable {s : Context σ} {i : Instruction} {fault : Fault} {e : Effect}

theorem run_execute (i : Instruction) (s : Context σ) :
    (execute i).run s =
      (ask (Machine.effect · i) >>= fun e =>
        apply e >>= follow (s.machine.ip + i.size.toUInt64)).run
        (s.noted [.executing (s.machine.traceLine i.opcode i.operands)]) := by
  rw [← bind_assoc, ← handle_eq]
  rfl

theorem run_next_of_fetch_error (hf : s.machine.fetch = .error fault) :
    next.run s = .error fault s := by
  have hask := run_ask_of_error (f := fun m => Logged.ofExcept m.fetch) (s := s) hf execute
  exact hask.trans (congrArg (EStateM.Result.error fault) (noted_nil s))

theorem run_next_of_fetch (hf : s.machine.fetch = .ok i) : next.run s = (execute i).run s := by
  have hask := run_ask_of_ok (f := fun m => Logged.ofExcept m.fetch) (s := s) hf execute
  exact hask.trans (congrArg (execute i).run (noted_nil s))

theorem run_next_of_effect_error (hf : s.machine.fetch = .ok i)
    (he : (s.machine.effect i).result = .error fault) :
    next.run s = .error fault (s.noted (s.machine.preface i)) := by
  rw [run_next_of_fetch hf, run_execute, run_ask_of_error he, noted_noted]
  rfl

theorem run_next_of_effect (hf : s.machine.fetch = .ok i)
    (he : (s.machine.effect i).result = .ok e) :
    next.run s = leave (s.noted (s.machine.preface i))
      (s.machine.perform s.console (s.machine.ip + i.size.toUInt64) e) := by
  rw [run_next_of_fetch hf, run_execute, run_ask_of_ok he, noted_noted, run_apply]
  rfl

end Next

/-- An instruction that fails or halts the machine has not changed it by then. -/
theorem next_allOrNothing (s : Context σ) : AllOrNothing s.machine (next.run s) := by
  cases hf : s.machine.fetch with
  | error fault =>
    rw [run_next_of_fetch_error hf]
    rfl
  | ok i =>
    cases he : (s.machine.effect i).result with
    | error fault =>
      rw [run_next_of_effect_error hf he]
      rfl
    | ok e =>
      rw [run_next_of_effect hf he]
      exact leave_allOrNothing _ _

end Effect

end Handler

namespace Machine

open Handler

variable {σ : Type} [Console σ]

theorem Performs.conclude_leave {s : Context σ} {next : UInt64} {e : Effect} {t : Step σ}
    (h : s.machine.Performs s.console next e t) :
    conclude (leave s t) =
      ⟨t.machine, t.console, t.result, s.log ++ t.log, s.calls ++ t.calls⟩ := by
  have hlog : s.log ++ [] = s.log := List.append_nil s.log
  -- A step that stops has the machine from before, and so has the context that it is left in.
  cases h with
  | halt | emptyReturn | underflow | refused | exhausted | failed => rfl
  | _ => simp only [leave, conclude, advance, hlog]; rfl

/-- A step in place is a step. -/
theorem stepInPlace_eq (m : Machine) (c : σ) : m.stepInPlace c = m.step c := by
  let s : Context σ := ⟨m, c, [], []⟩
  cases hr : m.running with
  | false => rw [step_of_not_running hr, stepInPlace, hr, if_neg Bool.false_ne_true]
  | true =>
    rw [stepInPlace, if_pos hr]
    cases hf : m.fetch with
    | error fault =>
      have hnext := run_next_of_fetch_error (s := s) hf
      rw [step_of_fetch_error hr hf]
      exact congrArg conclude hnext
    | ok i =>
      cases he : (m.effect i).result with
      | error fault =>
        have hnext := run_next_of_effect_error (s := s) hf he
        rw [step_of_effect_error hr hf he]
        exact congrArg conclude hnext
      | ok e =>
        have hnext := run_next_of_effect (s := s) hf he
        have hperform := performs m c (m.ip + i.size.toUInt64) e
        rw [step_of_effect hr hf he]
        exact (congrArg conclude hnext).trans
          (hperform.conclude_leave (s := s.noted (m.preface i)))

end Machine

end FifteenBit
