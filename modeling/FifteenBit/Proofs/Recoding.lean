import FifteenBit.Proofs.StepCases

/-! Machines that differ in their policy and in how the words of their cells are recoded. Once
operands are resolved there is no difference in what such machines do, if values keep their
code: of a result only its reduced value is stored. -/

namespace FifteenBit

theorem wrap_wrap (n : UInt32) : wrap (wrap n).toUInt32 = wrap n :=
  wrap_of_lt (wrap_lt n)

/-- The effect with the value in place of the result that is reduced to it. -/
def Effect.reduced : Effect → Effect
  | .store target result => .store target (wrap result).toUInt32
  | e => e

namespace Machine

def recode (f : Word → Word) (policy : Policy) (m : Machine) : Machine :=
  { m with memory := m.memory.map f, policy := policy }

def withPolicy (m : Machine) (policy : Policy) : Machine :=
  { m with policy := policy }

theorem recode_id (policy : Policy) (m : Machine) : m.recode id policy = m.withPolicy policy := by
  rw [recode, Vector.map_id, withPolicy]

end Machine

def Step.recode {σ : Type} (f : Word → Word) (policy : Policy) (s : Step σ) : Step σ :=
  { s with machine := s.machine.recode f policy }

namespace Machine

variable {f : Word → Word} {policy : Policy}

theorem store_reduced (m : Machine) (t : Target) (n : UInt32) :
    m.store t (wrap n).toUInt32 = m.store t n := by
  cases t <;> simp only [store, wrap_wrap]

theorem store_recode (hf : ∀ n, f (wrap n) = wrap n) (m : Machine) (t : Target) (n : UInt32) :
    (m.recode f policy).store t n = (m.store t n).recode f policy := by
  cases t with
  | register r => rfl
  | memory address =>
    have hset : (m.memory.map f).setIfInBounds address.toNat (wrap n) =
        (m.memory.setIfInBounds address.toNat (wrap n)).map f := by
      rw [Vector.map_setIfInBounds, hf]
    simp only [store, recode, hset]

variable {σ : Type}

theorem advance_store_recode (hf : ∀ n, f (wrap n) = wrap n) (m : Machine) (t : Target)
    (n : UInt32) (c : σ) (calls : List Call) (next : UInt64) :
    ((m.recode f policy).store t n).advance c calls next =
      ((m.store t n).advance c calls next).recode f policy := by
  rw [store_recode hf]
  rfl

variable [Console σ] {m : Machine} {c : σ} {next : UInt64} {e : Effect} {s : Step σ}

theorem perform_reduced (m : Machine) (c : σ) (next : UInt64) (e : Effect) :
    m.perform c next e.reduced = m.perform c next e := by
  cases e with
  | store t n => simp only [Effect.reduced, perform, store_reduced]
  | _ => rfl

theorem Performs.recode (hf : ∀ n, f (wrap n) = wrap n) (h : m.Performs c next e s) :
    (m.recode f policy).perform c next e = s.recode f policy := by
  have hstack : (m.recode f policy).stack = m.stack := rfl
  have hpending : (m.recode f policy).pending = m.pending := rfl
  cases h with
  | next | halt | jump | call | push => rfl
  | store => exact advance_store_recode hf m _ _ c [] next
  | emptyReturn hs | ret hs | underflow hs =>
    simp only [perform, hstack, hs]
    rfl
  | @pop t x rest hs =>
    simp only [perform, hstack, hs]
    exact advance_store_recode hf { m with stack := rest } t _ c [] next
  | wrote hc | refused hc =>
    simp only [perform, hc]
    rfl
  | @pending t x rest hp =>
    simp only [perform, hpending, hp]
    exact advance_store_recode hf { m with pending := rest } t _ c [] next
  | @line t x rest readings d hp hc =>
    simp only [perform, hpending, hp, hc]
    exact advance_store_recode hf { m with pending := rest } t _ d _ next
  | exhausted hp hc | failed hp hc =>
    simp only [perform, hpending, hp, hc]
    rfl

/-- Effects that store the same value have the same outcome on machines that are recoded. -/
theorem perform_recode (hf : ∀ n, f (wrap n) = wrap n) {e' : Effect} (he : e'.reduced = e.reduced)
    (m : Machine) (c : σ) (next : UInt64) :
    (m.recode f policy).perform c next e' = (m.perform c next e).recode f policy := by
  rw [← perform_reduced, he, perform_reduced]
  exact (performs m c next e).recode hf

end Machine

end FifteenBit
