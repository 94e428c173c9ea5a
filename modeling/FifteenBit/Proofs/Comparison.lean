import FifteenBit.Proofs.Logged
import FifteenBit.Proofs.Recoding

/-! Two machines that carry out the same instruction on recoded words. How their computations are
compared is left open here. It only has to go along with putting one after the other. -/

namespace FifteenBit

section Parallel

variable {α β γ δ : Type} {g : Fault → Fault} {R : α → β → Prop} {S : γ → δ → Prop}

/-- Two results that are related, or a fault and what it is mapped to. -/
inductive Parallel (g : Fault → Fault) (R : α → β → Prop) :
    Except Fault α → Except Fault β → Prop
  | ok {a : α} {b : β} (h : R a b) : Parallel g R (.ok a) (.ok b)
  | error (fault : Fault) : Parallel g R (.error fault) (.error (g fault))

theorem Parallel.refl {R : α → α → Prop} (h : ∀ a, R a a) (x : Except Fault α) :
    Parallel id R x x := by
  cases x with
  | error fault => exact .error fault
  | ok a => exact .ok (h a)

theorem Parallel.of_error {fault : Fault} {y : Except Fault β}
    (h : Parallel g R (.error fault) y) : y = .error (g fault) := by
  cases h
  rfl

theorem Parallel.of_ok {a : α} {y : Except Fault β} (h : Parallel g R (.ok a) y) :
    ∃ b, y = .ok b ∧ R a b := by
  cases h with
  | ok hb => exact ⟨_, rfl, hb⟩

theorem Parallel.imp {R' : α → β → Prop} {x : Except Fault α} {y : Except Fault β}
    (h : Parallel g R x y) (hr : ∀ a b, R a b → R' a b) : Parallel g R' x y := by
  cases h with
  | ok hb => exact .ok (hr _ _ hb)
  | error fault => exact .error fault

theorem Parallel.bind {x : Except Fault α} {y : Except Fault β} {u : α → Except Fault γ}
    {v : β → Except Fault δ} (h : Parallel g R x y)
    (hs : ∀ a b, x = .ok a → R a b → Parallel g S (u a) (v b)) :
    Parallel g S (x >>= u) (y >>= v) := by
  cases h with
  | ok ha => exact hs _ _ rfl ha
  | error fault => exact .error fault

end Parallel

namespace Instruction

def mapOperands (f : Word → Word) : Instruction → Instruction
  | .halt => .halt
  | .set a b => .set (f a) (f b)
  | .push a => .push (f a)
  | .pop a => .pop (f a)
  | .eq a b c => .eq (f a) (f b) (f c)
  | .gt a b c => .gt (f a) (f b) (f c)
  | .jmp a => .jmp (f a)
  | .jt a b => .jt (f a) (f b)
  | .jf a b => .jf (f a) (f b)
  | .add a b c => .add (f a) (f b) (f c)
  | .mult a b c => .mult (f a) (f b) (f c)
  | .mod a b c => .mod (f a) (f b) (f c)
  | .and a b c => .and (f a) (f b) (f c)
  | .or a b c => .or (f a) (f b) (f c)
  | .not a b => .not (f a) (f b)
  | .rmem a b => .rmem (f a) (f b)
  | .wmem a b => .wmem (f a) (f b)
  | .call a => .call (f a)
  | .ret => .ret
  | .out a => .out (f a)
  | .input a => .input (f a)
  | .noop => .noop

theorem size_mapOperands (f : Word → Word) (i : Instruction) :
    (i.mapOperands f).size = i.size := by
  cases i <;> rfl

theorem mapOperands_id (i : Instruction) : i.mapOperands id = i := by
  cases i <;> rfl

/-- Operand cells that are recoded make an instruction with recoded operands. -/
theorem assemble_parallel {g : Fault → Fault} {f : Word → Word}
    {cell cell' : Nat → Except Fault Word}
    (h : ∀ k, Parallel g (fun w w' => w' = f w) (cell k) (cell' k)) (op : Opcode) :
    Parallel g (fun i i' => i' = mapOperands f i) (assemble cell op) (assemble cell' op) := by
  cases op
  case halt | ret | noop => exact .ok rfl
  case push | pop | jmp | call | out | input =>
    refine (h 1).bind fun a _ _ ha => ?_
    subst ha
    exact .ok rfl
  case set | jt | jf | not | rmem | wmem =>
    refine (h 1).bind fun a _ _ ha => (h 2).bind fun b _ _ hb => ?_
    subst ha hb
    exact .ok rfl
  case eq | gt | add | mult | mod | and | or =>
    refine (h 1).bind fun a _ _ ha => (h 2).bind fun b _ _ hb => (h 3).bind fun c _ _ hc => ?_
    subst ha hb hc
    exact .ok rfl

end Instruction

/-- Effects that store the same value. -/
abbrev Effect.Same (e e' : Effect) : Prop :=
  e'.reduced = e.reduced

/-- A comparison of computations that goes along with putting one after the other. -/
structure Comparison where
  Holds : ∀ {α β : Type}, (α → β → Prop) → Logged Fault α → Logged Fault β → Prop
  pure : ∀ {α β : Type} {R : α → β → Prop} {a : α} {b : β}, R a b →
    Holds R (Pure.pure a) (Pure.pure b)
  bind : ∀ {α β γ δ : Type} {R : α → β → Prop} {S : γ → δ → Prop} {x : Logged Fault α}
    {y : Logged Fault β} {u : α → Logged Fault γ} {v : β → Logged Fault δ}, Holds R x y →
    (∀ a b, x.result = .ok a → R a b → Holds S (u a) (v b)) → Holds S (x >>= u) (y >>= v)

/-- Only the results are compared. -/
def Comparison.results (g : Fault → Fault) : Comparison where
  Holds R x y := Parallel g R x.result y.result
  pure h := .ok h
  bind h hs := by
    rw [Logged.result_bind, Logged.result_bind]
    exact h.bind hs

namespace Machine

/-- What has to hold of two machines for an instruction to have the same effect on both. -/
structure Compares (L : Comparison) (f : Word → Word) (m m' : Machine) (i : Instruction) :
    Prop where
  registers : m'.registers = m.registers
  operand : ∀ raw, L.Holds Eq (m.operand raw) (m'.operand (f raw))
  literal : ∀ raw, L.Holds Effect.Same (Logged.error (.invalidWriteTarget m.ip raw))
    (Logged.error (.invalidWriteTarget m'.ip (f raw)))
  divisor : L.Holds Effect.Same (Logged.error (.divisionByZero m.ip))
    (Logged.error (.divisionByZero m'.ip))
  loaded : ∀ a b x, i = .rmem a b → (m.value b).result = .ok x →
    L.Holds (fun w w' => wrap w'.toUInt32 = wrap w.toUInt32)
      (Logged.ofExcept (m.cell x.toUInt64)) (Logged.ofExcept (m'.cell x.toUInt64))

namespace Compares

variable {L : Comparison} {f : Word → Word} {m m' : Machine} {i : Instruction}

theorem value (h : Compares L f m m' i) (raw : Word) :
    L.Holds Eq (m.value raw) (m'.value (f raw)) := by
  refine L.bind (h.operand raw) fun o _ _ ho => ?_
  subst ho
  cases o with
  | literal v => exact L.pure rfl
  | register r =>
    refine L.pure ?_
    rw [valueOf, valueOf, register, register, h.registers]

theorem target (h : Compares L f m m' i) (raw : Word) :
    L.Holds Eq (m.target raw) (m'.target (f raw)) := by
  refine L.bind (h.operand raw) fun o _ _ ho => ?_
  subst ho
  exact L.pure rfl

theorem combine (h : Compares L f m m' i) (a b c : Word) (op : UInt32 → UInt32 → UInt32) :
    L.Holds Effect.Same (m.combine a b c op) (m'.combine (f a) (f b) (f c) op) := by
  refine L.bind (h.target a) fun t _ _ ht => ?_
  refine L.bind (h.value b) fun x _ _ hx => ?_
  refine L.bind (h.value c) fun y _ _ hy => ?_
  subst ht hx hy
  exact L.pure rfl

theorem branch (h : Compares L f m m' i) (a b : Word) (wanted : Bool) :
    L.Holds Effect.Same (m.branch a b wanted) (m'.branch (f a) (f b) wanted) := by
  refine L.bind (h.value a) fun x _ _ hx => ?_
  subst hx
  by_cases hw : (x != 0) == wanted
  · simp only [hw, if_true]
    refine L.bind (h.value b) fun y _ _ hy => ?_
    subst hy
    exact L.pure rfl
  · simp only [hw]
    exact L.pure rfl

theorem effect (h : Compares L f m m' i) :
    L.Holds Effect.Same (m.effect i) (m'.effect (i.mapOperands f)) := by
  cases i with
  | halt | ret | noop => exact L.pure rfl
  | set a b =>
    refine L.bind (h.operand a) fun o _ _ ho => ?_
    subst ho
    cases o with
    | literal v => exact h.literal a
    | register r =>
      refine L.bind (h.value b) fun x _ _ hx => ?_
      subst hx
      exact L.pure rfl
  | push a | jmp a | call a | out a =>
    refine L.bind (h.value a) fun x _ _ hx => ?_
    subst hx
    exact L.pure rfl
  | pop a | input a =>
    refine L.bind (h.target a) fun t _ _ ht => ?_
    subst ht
    exact L.pure rfl
  | eq a b c | gt a b c | add a b c | mult a b c | and a b c | or a b c =>
    rw [Instruction.mapOperands, Machine.effect, Machine.effect]
    exact h.combine a b c _
  | jt a b | jf a b =>
    rw [Instruction.mapOperands, Machine.effect, Machine.effect]
    exact h.branch a b _
  | mod a b c =>
    refine L.bind (h.value c) fun z _ _ hz => ?_
    subst hz
    by_cases h0 : z = 0
    · simp only [h0, if_true]
      exact h.divisor
    · simp only [h0, if_false]
      exact h.combine a b c _
  | not a b =>
    refine L.bind (h.target a) fun t _ _ ht => ?_
    refine L.bind (h.value b) fun x _ _ hx => ?_
    subst ht hx
    exact L.pure rfl
  | rmem a b =>
    refine L.bind (h.target a) fun t _ _ ht => ?_
    refine L.bind (h.value b) fun x _ hb hx => ?_
    subst ht hx
    -- The cells may differ, but what is stored of them is reduced.
    refine L.bind (h.loaded a b x rfl hb) fun w _ _ hw => ?_
    refine L.pure ?_
    simp only [Effect.Same, Effect.reduced, hw]
  | wmem a b =>
    refine L.bind (h.value a) fun x _ _ hx => ?_
    refine L.bind (h.value b) fun y _ _ hy => ?_
    subst hx hy
    exact L.pure rfl

end Compares

end Machine

/-- The second step comes to what the first one comes to, on recoded words. -/
structure Step.Recodes {σ : Type} (g : Fault → Fault) (f : Word → Word) (policy : Policy)
    (s t : Step σ) : Prop where
  result : t.result = s.result.mapError g
  calls : t.calls = s.calls
  console : t.console = s.console
  machine : t.machine = s.machine.recode f policy

namespace Machine

variable {σ : Type} [Console σ] {m : Machine} {f : Word → Word} {g : Fault → Fault}
  {policy : Policy}

/-- Only the operand of a write may be another in a fault of the second machine. -/
theorem Performs.mapError_result {c : σ} {next : UInt64} {e : Effect} {s : Step σ}
    (hg : ∀ fault, (∀ ip raw, fault ≠ .invalidWriteTarget ip raw) → g fault = fault)
    (h : m.Performs c next e s) : s.result.mapError g = s.result := by
  cases h with
  | underflow | refused | exhausted | failed => exact congrArg Except.error (hg _ nofun)
  | _ => rfl

/-- Machines that fetch the same instruction, with the same effect, take the same step. -/
theorem step_recodes (hf : ∀ n, f (wrap n) = wrap n)
    (hg : ∀ fault, (∀ ip raw, fault ≠ .invalidWriteTarget ip raw) → g fault = fault)
    (hfetch : m.running = true →
      Parallel g (fun i i' => i' = i.mapOperands f) m.fetch (m.recode f policy).fetch)
    (heffect : ∀ i, m.running = true → m.fetch = .ok i →
      Parallel g Effect.Same (m.effect i).result
        ((m.recode f policy).effect (i.mapOperands f)).result) (c : σ) :
    (m.step c).Recodes g f policy ((m.recode f policy).step c) := by
  have hrun : (m.recode f policy).running = m.running := rfl
  cases hr : m.running with
  | false =>
    rw [step_of_not_running hr, step_of_not_running (hrun.trans hr)]
    exact ⟨congrArg Except.error (hg .machineHalted nofun).symm, rfl, rfl, rfl⟩
  | true =>
    have hfetch := hfetch hr
    cases hi : m.fetch with
    | error fault =>
      rw [hi] at hfetch
      rw [step_of_fetch_error hr hi, step_of_fetch_error (hrun.trans hr) hfetch.of_error]
      exact ⟨rfl, rfl, rfl, rfl⟩
    | ok i =>
      rw [hi] at hfetch
      obtain ⟨i', hi', rfl⟩ := hfetch.of_ok
      have heffect := heffect i hr hi
      cases he : (m.effect i).result with
      | error fault =>
        rw [he] at heffect
        rw [step_of_effect_error hr hi he,
          step_of_effect_error (hrun.trans hr) hi' heffect.of_error]
        exact ⟨rfl, rfl, rfl, rfl⟩
      | ok e =>
        rw [he] at heffect
        obtain ⟨e', he', hsame⟩ := heffect.of_ok
        have hip : (m.recode f policy).ip = m.ip := rfl
        have hresult := (performs m c (m.ip + i.size.toUInt64) e).mapError_result hg
        rw [step_of_effect hr hi he, step_of_effect (hrun.trans hr) hi' he', hip,
          i.size_mapOperands, perform_recode hf hsame]
        exact ⟨hresult.symm, rfl, rfl, rfl⟩

end Machine

end FifteenBit
