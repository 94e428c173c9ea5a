import FifteenBit.Machine.Step
import FifteenBit.Proofs.Answers
import Mathlib.Logic.Function.Basic

/-! The table of the twenty-two operations, in natural numbers. Each row says what stands
in memory, what its operand words are resolved to in the state before the instruction, and
what the state is after it. Results are exact; only storing them reduces them. -/

namespace FifteenBit.OpcodeTable

/-- The state of a machine in natural numbers. Outside of memory there are no cells. -/
structure State where
  memory : Nat → Option Nat
  registers : Fin 8 → Nat
  /-- The top comes first. -/
  stack : List Nat
  ip : Nat
  pending : List Nat
  running : Bool
  policy : Policy

/-- What an operand word denotes. As a value a plain number is itself, as a place for
a result it is the cell with that address. -/
inductive Denotation where
  | plain (n : Nat)
  | register (i : Fin 8)

namespace State

def Reads (s : State) (ws : List Nat) : Prop :=
  ∀ k w, ws[k]? = some w → s.memory (s.ip + k) = some w

def denotes? (s : State) (w : Nat) : Option Denotation :=
  if w < 32768 then some (.plain w)
  else if h : w - 32768 < 8 then some (.register ⟨w - 32768, h⟩)
  else if s.policy = .wrap then some (.plain (w % 32768))
  else none

def content (s : State) : Denotation → Nat
  | .plain n => n
  | .register i => s.registers i

def value? (s : State) (w : Nat) : Option Nat :=
  (s.denotes? w).map s.content

def put (s : State) (d : Denotation) (n : Nat) : State :=
  match d with
  | .plain a => { s with memory := Function.update s.memory a (some (n % 32768)) }
  | .register i => { s with registers := Function.update s.registers i (n % 32768) }

theorem put_stack (s : State) (d : Denotation) (n : Nat) (stack : List Nat) :
    { s with stack := stack }.put d n = { s.put d n with stack := stack } := by
  cases d <;> rfl

theorem put_pending (s : State) (d : Denotation) (n : Nat) (pending : List Nat) :
    { s with pending := pending }.put d n = { s.put d n with pending := pending } := by
  cases d <;> rfl

end State

def binary? : Nat → Option (Nat → Nat → Nat)
  | 4 => some fun x y => if x = y then 1 else 0
  | 5 => some fun x y => if y < x then 1 else 0
  | 9 => some fun x y => x + y
  | 10 => some fun x y => x * y
  | 11 => some fun x y => x % y
  | 12 => some fun x y => x &&& y
  | 13 => some fun x y => x ||| y
  | _ => none

/-- The rows of the table: the words of an instruction, the uses of the console, the status,
and the state afterwards. Lines without a code are passed over. -/
inductive Row (s : State) : List Nat → List Call → Status → State → Prop
  | halt : Row s [0] [] (.halted .opcode) { s with running := false }
  | set {a b x : Nat} {i : Fin 8} (ha : s.denotes? a = some (.register i))
      (hb : s.value? b = some x) :
    Row s [1, a, b] [] .running { s.put (.register i) x with ip := s.ip + 3 }
  | push {a x : Nat} (ha : s.value? a = some x) :
    Row s [2, a] [] .running { s with stack := x :: s.stack, ip := s.ip + 2 }
  | pop {a x : Nat} {d : Denotation} {rest : List Nat} (ha : s.denotes? a = some d)
      (hs : s.stack = x :: rest) :
    Row s [3, a] [] .running { s.put d x with stack := rest, ip := s.ip + 2 }
  | binary {op a b c x y : Nat} {d : Denotation} {f : Nat → Nat → Nat} (hf : binary? op = some f)
      (ha : s.denotes? a = some d) (hb : s.value? b = some x) (hc : s.value? c = some y)
      (hz : op = 11 → y ≠ 0) :
    Row s [op, a, b, c] [] .running { s.put d (f x y) with ip := s.ip + 4 }
  | jmp {a x : Nat} (ha : s.value? a = some x) : Row s [6, a] [] .running { s with ip := x }
  | jtTaken {a b x y : Nat} (ha : s.value? a = some x) (hx : x ≠ 0) (hb : s.value? b = some y) :
    Row s [7, a, b] [] .running { s with ip := y }
  | jtPassed {a b : Nat} (ha : s.value? a = some 0) :
    Row s [7, a, b] [] .running { s with ip := s.ip + 3 }
  | jfTaken {a b y : Nat} (ha : s.value? a = some 0) (hb : s.value? b = some y) :
    Row s [8, a, b] [] .running { s with ip := y }
  | jfPassed {a b x : Nat} (ha : s.value? a = some x) (hx : x ≠ 0) :
    Row s [8, a, b] [] .running { s with ip := s.ip + 3 }
  | not {a b x : Nat} {d : Denotation} (ha : s.denotes? a = some d) (hb : s.value? b = some x) :
    Row s [14, a, b] [] .running { s.put d (32767 - x) with ip := s.ip + 3 }
  | rmem {a b x w : Nat} {d : Denotation} (ha : s.denotes? a = some d) (hb : s.value? b = some x)
      (hw : s.memory x = some w) :
    Row s [15, a, b] [] .running { s.put d w with ip := s.ip + 3 }
  | wmem {a b x y : Nat} (ha : s.value? a = some x) (hb : s.value? b = some y) :
    Row s [16, a, b] [] .running { s.put (.plain x) y with ip := s.ip + 3 }
  | call {a x : Nat} (ha : s.value? a = some x) :
    Row s [17, a] [] .running { s with stack := (s.ip + 2) % 32768 :: s.stack, ip := x }
  | ret {x : Nat} {rest : List Nat} (hs : s.stack = x :: rest) :
    Row s [18] [] .running { s with stack := rest, ip := x }
  | emptyReturn (hs : s.stack = []) :
    Row s [18] [] (.halted .emptyReturn) { s with running := false }
  | out {a : Nat} {code : Word} (ha : s.value? a = some code.toNat) :
    Row s [19, a] [.wrote code] .running { s with ip := s.ip + 2 }
  | inPending {a x : Nat} {d : Denotation} {rest : List Nat} (ha : s.denotes? a = some d)
      (hs : s.pending = x :: rest) :
    Row s [20, a] [] .running { s.put d x with pending := rest, ip := s.ip + 2 }
  | inLine {a n : Nat} {d : Denotation} {code : Word} {rest : List Word} {calls : List Call}
      (ha : s.denotes? a = some d) (hs : s.pending = [])
      (hc : calls = Call.blanks n ++ [.read (.line (code :: rest))]) :
    Row s [20, a] calls .running
      { s.put d code.toNat with pending := rest.map UInt16.toNat, ip := s.ip + 2 }
  | noop : Row s [21] [] .running { s with ip := s.ip + 1 }

/-- The effect that the table has for the instruction at the instruction pointer. -/
def Effect (s : State) (calls : List Call) (status : Status) (t : State) : Prop :=
  ∃ ws, s.Reads ws ∧ Row s ws calls status t

def arity : Nat → Nat
  | 0 | 18 | 21 => 0
  | 2 | 3 | 6 | 17 | 19 | 20 => 1
  | 1 | 7 | 8 | 14 | 15 | 16 => 2
  | _ => 3

theorem State.Reads.eq_of_length_eq {s : State} {ws vs : List Nat} (h : s.Reads ws)
    (h' : s.Reads vs) (hl : ws.length = vs.length) : ws = vs := by
  apply List.ext_getElem hl
  intro k hk hk'
  have hw := h k _ (List.getElem?_eq_getElem hk)
  rw [h' k _ (List.getElem?_eq_getElem hk')] at hw
  exact (Option.some.inj hw).symm

namespace Row

variable {s t t' : State} {ws : List Nat} {calls calls' : List Call} {status status' : Status}

theorem length_words (h : Row s ws calls status t) : ws.length = 1 + arity (ws.headD 0) := by
  cases h with
  | @binary op a b c x y d f hf =>
    have ha : arity op = 3 := by
      revert hf
      unfold binary? arity
      split <;> simp
    simp [ha]
  | _ => rfl

theorem words_unique {vs : List Nat} (h : Row s ws calls status t)
    (h' : Row s vs calls' status' t') (hr : s.Reads ws) (hr' : s.Reads vs) : ws = vs := by
  have hh : ws.headD 0 = vs.headD 0 := by
    cases ws with
    | nil => cases h
    | cons w ws =>
      cases vs with
      | nil => cases h'
      | cons v vs =>
        have h0 := hr 0 w rfl
        rw [hr' 0 v rfl] at h0
        exact (Option.some.inj h0).symm
  have hl : ws.length = vs.length := by rw [h.length_words, h'.length_words, hh]
  exact hr.eq_of_length_eq hr' hl

theorem calls_unique {σ : Type} [Console σ] {c d d' : σ} (h : Row s ws calls status t)
    (h' : Row s ws calls' status' t') (ha : Console.Answers c calls d)
    (ha' : Console.Answers c calls' d') : calls = calls' := by
  cases h with
  | out hv =>
    cases h' with
    | out hv' =>
      have hcode := Option.some.inj (hv.symm.trans hv')
      rw [UInt16.toNat_inj.1 hcode]
  | inPending _ hs =>
    cases h' with
    | inPending => rfl
    | inLine _ hs' => simp [hs] at hs'
  | inLine _ hs hc =>
    cases h' with
    | inPending _ hs' => simp [hs] at hs'
    | inLine _ _ hc' =>
      subst hc hc'
      obtain ⟨rfl, rfl, rfl⟩ := ha.line_unique ha'
      rfl
  | _ => cases h' <;> rfl

theorem unique (h : Row s ws calls status t) (h' : Row s ws calls status' t') :
    status = status' ∧ t = t' := by
  cases h with
  | halt => cases h'; exact ⟨rfl, rfl⟩
  | inLine ha hs hc =>
    cases h' with
    | inPending => simp_all
    | inLine ha' hs' hc' =>
      have hl := List.append_inj' (hc.symm.trans hc') rfl
      simp_all
  | _ => cases h' <;> simp_all

end Row

theorem Effect.unique {σ : Type} [Console σ] {c d d' : σ} {s t t' : State}
    {calls calls' : List Call} {status status' : Status} (h : Effect s calls status t)
    (h' : Effect s calls' status' t') (ha : Console.Answers c calls d)
    (ha' : Console.Answers c calls' d') :
    calls = calls' ∧ status = status' ∧ t = t' ∧ d = d' := by
  obtain ⟨ws, hr, hw⟩ := h
  obtain ⟨vs, hr', hv⟩ := h'
  obtain rfl := hw.words_unique hv hr hr'
  obtain rfl := hw.calls_unique hv ha ha'
  obtain ⟨hs, ht⟩ := hw.unique hv
  exact ⟨rfl, hs, ht, ha.unique ha'⟩

end FifteenBit.OpcodeTable
