import FifteenBit.Machine.Run

/-! Runs step by step. A step either ends a run or leaves the rest of it to the machine
and the console that it leaves behind. -/

namespace FifteenBit

variable {σ : Type}

def Step.outcome? (s : Step σ) : Option (Except Fault HaltReason) :=
  match s.result with
  | .ok .running => none
  | .ok (.halted reason) => some (.ok reason)
  | .error fault => some (.error fault)

theorem Step.outcome?_eq_none_iff {s : Step σ} :
    s.outcome? = none ↔ s.result = .ok .running := by
  rcases hs : s.result with _ | _ | _ <;> simp [outcome?, hs]

theorem Step.outcome?_eq_error_iff {s : Step σ} {fault : Fault} :
    s.outcome? = some (.error fault) ↔ s.result = .error fault := by
  rcases hs : s.result with _ | _ | _ <;> simp [outcome?, hs]

structure Ending where
  machine : Machine
  result : Except Fault HaltReason
  calls : List Call

def Ending.after (e : Ending) (calls : List Call) : Ending :=
  { e with calls := calls ++ e.calls }

namespace Machine

variable [Console σ] {keep : Notice → Bool} {n : Nat} {m : Machine} {c : σ} {log : Array Notice}
  {result : Except Fault HaltReason} {e : Ending} {d : σ}

def steps : Nat → Machine → σ → List (Step σ)
  | 0, _, _ => []
  | n + 1, m, c =>
    let s := m.step c
    match s.outcome? with
    | none => s :: steps n s.machine s.console
    | some _ => [s]

def calls (n : Nat) (m : Machine) (c : σ) : List Call :=
  (m.steps n c).flatMap Step.calls

/-- A run of the machine on the first console comes to such an end, and to the second console. -/
def Ends (m : Machine) (c : σ) (e : Ending) (d : σ) : Prop :=
  ∃ keep n log r, m.run keep n c log = some r ∧ e = ⟨r.machine, r.result, m.calls n c⟩ ∧
    d = r.console

theorem run_of_running (h : (m.step c).outcome? = none) :
    m.run keep (n + 1) c log =
      run keep n (m.step c).machine (m.step c).console (log ++ (m.step c).log.filter keep) := by
  rw [Step.outcome?_eq_none_iff] at h
  simp only [run, h]

theorem run_of_stopped (h : (m.step c).outcome? = some result) :
    m.run keep (n + 1) c log =
      some ⟨(m.step c).machine, (m.step c).console, result,
        log ++ (m.step c).log.filter keep⟩ := by
  rcases hs : (m.step c).result with _ | _ | _ <;>
    simp only [Step.outcome?, hs, reduceCtorEq, Option.some.injEq] at h <;>
    simp only [run, hs, h]

/-- Which records are kept, and where, makes no difference to how a run ends. -/
theorem run_ends {r : Run σ} (h : m.run keep n c log = some r) (keep' : Notice → Bool)
    (log' : Array Notice) : ∃ kept, m.run keep' n c log' = some { r with log := kept } := by
  induction n generalizing m c log log' with
  | zero => cases h
  | succ n ih =>
    cases ho : (m.step c).outcome? with
    | none =>
      rw [run_of_running ho] at h
      rw [run_of_running ho]
      exact ih h _
    | some result =>
      rw [run_of_stopped ho] at h
      rw [run_of_stopped ho, ← Option.some.inj h]
      exact ⟨_, rfl⟩

theorem calls_of_running (h : (m.step c).outcome? = none) :
    m.calls (n + 1) c = (m.step c).calls ++ (m.step c).machine.calls n (m.step c).console := by
  simp only [calls, steps, h, List.flatMap_cons]

theorem calls_of_stopped (h : (m.step c).outcome? = some result) :
    m.calls (n + 1) c = (m.step c).calls := by
  simp only [calls, steps, h, List.flatMap_cons, List.flatMap_nil, List.append_nil]

theorem ends_of_stopped (h : (m.step c).outcome? = some result) :
    m.Ends c e d ↔
      e = ⟨(m.step c).machine, result, (m.step c).calls⟩ ∧ d = (m.step c).console := by
  constructor
  · rintro ⟨keep, n, log, r, hr, rfl, rfl⟩
    cases n with
    | zero => cases hr
    | succ n =>
      rw [run_of_stopped h] at hr
      rw [calls_of_stopped h, ← Option.some.inj hr]
      exact ⟨rfl, rfl⟩
  · rintro ⟨rfl, rfl⟩
    refine ⟨fun _ => true, 1, #[], _, run_of_stopped h, ?_, rfl⟩
    rw [calls_of_stopped h]

theorem ends_of_running (h : (m.step c).outcome? = none) :
    m.Ends c e d ↔ ∃ e', (m.step c).machine.Ends (m.step c).console e' d ∧
      e = e'.after (m.step c).calls := by
  constructor
  · rintro ⟨keep, n, log, r, hr, rfl, rfl⟩
    cases n with
    | zero => cases hr
    | succ n =>
      rw [run_of_running h] at hr
      rw [calls_of_running h]
      exact ⟨_, ⟨keep, n, _, r, hr, rfl, rfl⟩, rfl⟩
  · rintro ⟨_, ⟨keep, n, log, r, hr, rfl, rfl⟩, rfl⟩
    obtain ⟨kept, hr⟩ := run_ends hr keep ((#[] : Array Notice) ++ (m.step c).log.filter keep)
    rw [← run_of_running h] at hr
    refine ⟨keep, n + 1, #[], _, hr, ?_, rfl⟩
    rw [calls_of_running h, Ending.after]

@[elab_as_elim]
theorem Ends.induction {P : ∀ (m : Machine) (c : σ) (e : Ending) (d : σ), m.Ends c e d → Prop}
    (stopped : ∀ m c result (ho : (m.step c).outcome? = some result),
      P m c ⟨(m.step c).machine, result, (m.step c).calls⟩ (m.step c).console
        ((ends_of_stopped ho).2 ⟨rfl, rfl⟩))
    (running : ∀ m c e d (ho : (m.step c).outcome? = none)
      (h : (m.step c).machine.Ends (m.step c).console e d), P _ _ e d h →
      P m c (e.after (m.step c).calls) d ((ends_of_running ho).2 ⟨e, h, rfl⟩))
    (h : m.Ends c e d) : P m c e d h := by
  obtain ⟨keep, n, log, r, hr, he, hd⟩ := h
  induction n generalizing m c e log with
  | zero => cases hr
  | succ n ih =>
    cases ho : (m.step c).outcome? with
    | none =>
      rw [run_of_running ho] at hr
      rw [calls_of_running ho] at he
      subst he
      exact running m c _ _ ho _ (ih _ hr rfl)
    | some result =>
      rw [run_of_stopped ho] at hr
      rw [calls_of_stopped ho, ← Option.some.inj hr] at he
      rw [← Option.some.inj hr] at hd
      subst he hd
      exact stopped m c result ho

theorem run_preserves {P : Machine → Prop} (hp : ∀ m (c : σ), P m → P (m.step c).machine)
    {r : Run σ} (h : m.run keep n c log = some r) (hm : P m) : P r.machine := by
  induction n generalizing m c log with
  | zero => cases h
  | succ n ih =>
    cases ho : (m.step c).outcome? with
    | none =>
      rw [run_of_running ho] at h
      exact ih h (hp m c hm)
    | some result =>
      rw [run_of_stopped ho] at h
      rw [← Option.some.inj h]
      exact hp m c hm

theorem Ends.preserves {P : Machine → Prop} (hp : ∀ m (c : σ), P m → P (m.step c).machine)
    (h : m.Ends c e d) (hm : P m) : P e.machine := by
  obtain ⟨_, _, _, _, hr, rfl, _⟩ := h
  exact run_preserves hp hr hm

end Machine

end FifteenBit
