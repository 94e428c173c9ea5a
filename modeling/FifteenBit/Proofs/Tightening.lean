import FifteenBit.Proofs.Comparison
import FifteenBit.Proofs.FaultCases

/-! What the strict policy makes of the resolution of operands. Where the wrapping policy has
nothing to warn of, the strict one comes to the same, and else it refuses the word of the first
warning. -/

namespace FifteenBit

section Tightens

variable {α β γ δ : Type} {ip : UInt64} {R : α → β → Prop} {S : γ → δ → Prop}

/-- The second computation is the strict one that belongs to the first. The first one refuses no
operand. -/
inductive Tightens (ip : UInt64) (R : α → β → Prop) : Logged Fault α → Logged Fault β → Prop
  | silent {r : Except Fault α} {r' : Except Fault β} (h : Parallel id R r r')
      (ht : ∀ ip' raw, r ≠ .error (.invalidOperand ip' raw)) : Tightens ip R ⟨[], r⟩ ⟨[], r'⟩
  | warned {r : Except Fault α} {r' : Except Fault β} {raw : Word} {o : Operand}
      {more : List Notice} (h : Parallel id R r r')
      (ht : ∀ ip' raw, r ≠ .error (.invalidOperand ip' raw)) :
    Tightens ip R ⟨.normalized raw ip o :: more, r⟩ (Logged.error (.invalidOperand ip raw))

variable {x : Logged Fault α} {y : Logged Fault β}

theorem Tightens.tolerant (h : Tightens ip R x y) (ip' : UInt64) (raw : Word) :
    x.result ≠ .error (.invalidOperand ip' raw) := by
  cases h with
  | silent _ ht | warned _ ht => exact ht ip' raw

/-- What the strict computation would come to if it refused nothing. -/
theorem Tightens.exists_parallel (h : Tightens ip R x y) : ∃ r, Parallel id R x.result r := by
  cases h with
  | silent h | warned h => exact ⟨_, h⟩

theorem Tightens.log_eq_nil (h : Tightens ip R x y) : y.log = [] := by
  cases h <;> rfl

theorem Tightens.log_cases (h : Tightens ip R x y) :
    (x.log = [] ∧ Parallel id R x.result y.result) ∨
    ∃ raw o more, x.log = .normalized raw ip o :: more ∧
      y.result = .error (.invalidOperand ip raw) := by
  cases h with
  | silent h => exact .inl ⟨rfl, h⟩
  | warned => exact .inr ⟨_, _, _, rfl, rfl⟩

theorem Tightens.bind {u : α → Logged Fault γ} {v : β → Logged Fault δ} (h : Tightens ip R x y)
    (hs : ∀ a b, x.result = .ok a → R a b → Tightens ip S (u a) (v b)) :
    Tightens ip S (x >>= u) (y >>= v) := by
  cases h with
  | silent h ht =>
    cases h with
    | ok hab => exact hs _ _ rfl hab
    | error fault => exact .silent (.error fault) fun ip' raw he => ht ip' raw (by cases he; rfl)
  | warned h ht =>
    cases h with
    | ok hab =>
      have hu := hs _ _ rfl hab
      obtain ⟨r, hr⟩ := hu.exists_parallel
      exact .warned hr hu.tolerant
    | error fault => exact .warned (.error fault) fun ip' raw he => ht ip' raw (by cases he; rfl)

def tightening (ip : UInt64) : Comparison where
  Holds := Tightens ip
  pure h := .silent (.ok h) nofun
  bind := Tightens.bind

end Tightens

namespace Machine

variable {m : Machine}

theorem operand_tightens (hp : m.policy = .wrap) (raw : Word) :
    Tightens m.ip Eq (m.operand raw) ((m.withPolicy .strict).operand raw) := by
  by_cases hr : 32776 ≤ raw.toNat
  · -- Both tests of the range are passed: the word is reduced with a warning, or refused.
    have hwrap := Operand.ofWord?_above .wrap hr
    have hstrict := Operand.ofWord?_above .strict hr
    have hout : Operand.outOfRange raw = true := (Operand.outOfRange_iff raw).2 hr
    rw [if_pos rfl] at hwrap
    rw [if_neg (by decide)] at hstrict
    simp only [operand, withPolicy, hp, hwrap, hstrict, hout, if_true]
    exact .warned (.ok rfl) fun _ _ h => by cases h
  · have hout : Operand.outOfRange raw = false := by
      rw [← Bool.not_eq_true, Operand.outOfRange_iff]
      exact hr
    obtain ⟨o, ho⟩ : ∃ o, ∀ policy, Operand.ofWord? policy raw = some o := by
      by_cases hlt : raw.toNat < 32768
      · exact ⟨_, fun policy => Operand.ofWord?_of_lt policy hlt⟩
      · have hge : 32768 ≤ raw.toNat := Nat.le_of_not_lt hlt
        exact ⟨_, fun policy => Operand.ofWord?_register policy hge (Nat.lt_of_not_le hr)⟩
    simp only [operand, ho, hout]
    exact .silent (.ok rfl) fun _ _ h => by cases h

theorem effect_tightens (hp : m.policy = .wrap) (i : Instruction) :
    Tightens m.ip Effect.Same (m.effect i) ((m.withPolicy .strict).effect i) := by
  have hfault (fault : Fault) (h : ∀ ip raw, fault ≠ .invalidOperand ip raw) :
      Tightens m.ip Effect.Same (Logged.error fault) (Logged.error fault) :=
    .silent (.error fault) fun ip raw he => h ip raw (Except.error.inj he)
  have hcompare : Compares (tightening m.ip) id m (m.withPolicy .strict) i := by
    refine ⟨rfl, operand_tightens hp, fun raw => hfault _ nofun, hfault _ nofun, ?_⟩
    intro a b x _ _
    refine .silent (.refl (fun w => ?_) _) fun ip raw he => ?_
    · rfl
    · have hinvalid : Fault.invalidOperand ip raw = .invalidAddress x.toUInt64 := cell_eq_error he
      cases hinvalid
  have heffect := hcompare.effect
  rwa [i.mapOperands_id] at heffect

theorem effect_silent (hp : m.policy = .strict) (i : Instruction) : (m.effect i).log = [] := by
  have hm : m = (m.withPolicy .wrap).withPolicy .strict := by
    rw [withPolicy, withPolicy, ← hp]
  have hl := (effect_tightens (m := m.withPolicy .wrap) rfl i).log_eq_nil
  rwa [← hm] at hl

end Machine

end FifteenBit
