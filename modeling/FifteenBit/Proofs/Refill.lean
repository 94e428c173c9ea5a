import FifteenBit.Proofs.Alike
import FifteenBit.Proofs.InputStream

/-! The loop of an `in`. On a console whose readings are a script, the loop comes to the first one
that is not a blank line and makes no reading after it. The script alone bounds its rounds. -/

namespace FifteenBit

namespace Console

variable {σ : Type} [Console σ] {c d : σ}

/-- The loop of `refill`, broken off after so many rounds. -/
def rounds : Nat → σ → Option (Supply × List Reading × σ)
  | 0, _ => none
  | n + 1, c =>
    match read c with
    | (.line (first :: rest), d) => some (.codes first rest, [.line (first :: rest)], d)
    | (.endOfInput, d) => some (.endOfInput, [.endOfInput], d)
    | (.failed reason, d) => some (.failed reason, [.failed reason], d)
    | (.line [], d) => (rounds n d).map fun r => (r.1, .line [] :: r.2.1, r.2.2)

theorem rounds_of_supply {supply : Supply} (h : read c = (supply.reading, d)) (n : Nat) :
    rounds (n + 1) c = some (supply, [supply.reading], d) := by
  cases supply <;> simp only [Supply.reading] at h ⊢ <;> rw [rounds, h]

theorem rounds_of_blank (h : read c = (.line [], d)) (n : Nat) :
    rounds (n + 1) c = (rounds n d).map fun r => (r.1, .line [] :: r.2.1, r.2.2) := by
  rw [rounds, h]

theorem refill_of_supply {supply : Supply} (h : read c = (supply.reading, d)) :
    refill c = (supply, [supply.reading], d) := by
  cases supply with
  | codes first rest => exact refill_of_line h
  | endOfInput => exact refill_of_endOfInput h
  | failed reason => exact refill_of_failed h

theorem reading_cases (r : Reading) : r = .line [] ∨ ∃ supply : Supply, r = supply.reading := by
  cases r with
  | line codes =>
    cases codes with
    | nil => exact .inl rfl
    | cons first rest => exact .inr ⟨.codes first rest, rfl⟩
  | endOfInput => exact .inr ⟨.endOfInput, rfl⟩
  | failed reason => exact .inr ⟨.failed reason, rfl⟩

/-- If the loop is over after some rounds, it is over. -/
theorem refill_of_rounds {n : Nat} {r : Supply × List Reading × σ} (h : rounds n c = some r) :
    refill c = r := by
  induction n generalizing c r with
  | zero => cases h
  | succ n ih =>
    rcases reading_cases (read c).1 with hr | ⟨supply, hr⟩
    · rw [rounds_of_blank (Prod.ext hr rfl), Option.map_eq_some_iff] at h
      obtain ⟨r', hr', rfl⟩ := h
      rw [refill_of_blank (Prod.ext hr rfl), ih hr']
    · rw [rounds_of_supply (Prod.ext hr rfl)] at h
      rw [refill_of_supply (Prod.ext hr rfl)]
      exact Option.some.inj h

/-- The readings of a console that has such lines left and then ends or fails. -/
def script (lines : List (List Word)) (last : Reading) : List Reading :=
  lines.map .line ++ [last]

theorem answers_ofReadings (readings : List Reading) (room : Option Nat) :
    Answers (Script.ofReadings readings room) (readings.map .read) (.ofReadings [] room) := by
  induction readings with
  | nil => exact .nil _
  | cons reading readings ih => exact .read ih

/-- On a script the loop needs no more rounds than there are readings. -/
theorem rounds_of_script {lines : List (List Word)} {last : Reading}
    (hlast : ∀ codes, last ≠ .line codes) (h : Answers c ((script lines last).map .read) d) :
    ∃ n supply later e, script lines last =
        List.replicate n (Reading.line []) ++ supply.reading :: later ∧
      rounds (lines.length + 1) c =
        some (supply, List.replicate n (Reading.line []) ++ [supply.reading], e) := by
  -- The lines that are left bound the rounds: each blank one costs a round and is gone.
  induction lines generalizing c with
  | nil =>
    obtain ⟨hr, -⟩ := answers_read_cons.1 h
    obtain rfl | ⟨supply, rfl⟩ := reading_cases last
    · exact absurd rfl (hlast [])
    · exact ⟨0, supply, [], _, rfl, rounds_of_supply (Prod.ext hr rfl) 0⟩
  | cons codes lines ih =>
    obtain ⟨hr, h⟩ := answers_read_cons.1 h
    obtain hb | ⟨supply, hs⟩ := reading_cases (.line codes)
    · obtain ⟨n, supply, later, e, hscript, hrounds⟩ := ih h
      rw [hb] at hr
      refine ⟨n + 1, supply, later, e, ?_, ?_⟩
      · show Reading.line codes :: script lines last = _
        rw [hb, hscript]
        rfl
      · rw [List.length_cons, rounds_of_blank (Prod.ext hr rfl), hrounds]
        rfl
    · rw [hs] at hr
      exact ⟨0, supply, script lines last, _, congrArg (· :: script lines last) hs,
        rounds_of_supply (Prod.ext hr rfl) _⟩

end Console

namespace Machine

variable {σ : Type}

/-- The step takes a code to its target and goes on behind the instruction, with the rest of the
input pending. -/
structure Takes (m : Machine) (t : Target) (code : Word) (rest : List Word) (s : Step σ) :
    Prop where
  result : s.result = .ok .running
  running : s.machine.running = m.running
  stored : ∃ x, s.machine.contentOf? t = some x ∧ x.toNat = code.toNat % 32768
  kept : ∀ t', t ≠ t' → s.machine.contentOf? t' = m.contentOf? t'
  stack : s.machine.stack = m.stack
  pending : s.machine.pending = rest
  ip : s.machine.ip.toNat = m.ip.toNat + 2

/-- The step stops the machine, which stays as it is but for that. -/
structure StopsWith (m : Machine) (fault : Fault) (s : Step σ) : Prop where
  result : s.result = .error fault
  machine : s.machine = m.abort

/-- What an `in` does with what the loop has come to. -/
def Handles (m : Machine) (t : Target) (s : Step σ) : Console.Supply → Prop
  | .codes code rest => m.Takes t code rest s
  | .endOfInput => m.StopsWith (.inputExhausted m.ip) s
  | .failed reason => m.StopsWith (.console reason) s

variable {m : Machine} {a : Word} {t : Target}

theorem takes_advance {next : UInt64} (ht : t.Exists) (hn : next.toNat = m.ip.toNat + 2)
    (code : Word) (rest : List Word) (c : σ) (calls : List Call) (log : List Notice) :
    m.Takes t code rest
      { ({ m with pending := rest }.store t code.toUInt32).advance c calls next with log := log } := by
  have hsame := contentOf?_store_same { m with pending := rest } ht code.toUInt32
  constructor
  · rfl
  · cases t <;> rfl
  · refine ⟨_, (contentOf?_of_eq rfl rfl t).trans hsame, ?_⟩
    rw [toNat_wrap, UInt16.toNat_toUInt32]
  · intro t' hne
    have hother := contentOf?_store_of_ne { m with pending := rest } hne code.toUInt32
    exact (contentOf?_of_eq rfl rfl t').trans (hother.trans (contentOf?_of_eq rfl rfl t'))
  · cases t <;> rfl
  · exact store_pending { m with pending := rest } t code.toUInt32
  · exact hn

theorem toNat_behind_input (hf : m.fetch = .ok (.input a)) :
    (m.ip + 2).toNat = m.ip.toNat + 2 := by
  have hnext := toNat_next hf
  have hsize : (Instruction.input a).size = 2 := rfl
  rw [hsize] at hnext
  exact hnext

section Input

variable [Console σ] (hr : m.running = true) (hf : m.fetch = .ok (.input a))

include hr hf

theorem step_of_input (ht : (m.target a).result = .ok t) (c : σ) :
    m.step c = { m.perform c (m.ip + 2) (.read t) with
      log := m.preface (.input a) ++ (m.perform c (m.ip + 2) (.read t)).log } := by
  have he : (m.effect (.input a)).result = .ok (.read t) := by
    rw [effect, Logged.result_bind, ht]
    rfl
  exact step_of_effect hr hf he c

theorem step_of_unresolved {fault : Fault} (ht : (m.target a).result = .error fault) (c : σ) :
    m.policy = .strict ∧ fault = .invalidOperand m.ip a ∧ (m.step c).calls = [] ∧
      (m.step c).console = c ∧ m.StopsWith fault (m.step c) := by
  have he : (m.effect (.input a)).result = .error fault := by
    rw [effect, Logged.result_bind, ht]
    rfl
  obtain ⟨hnone, hfault⟩ := target_eq_error.1 ht
  rw [step_of_effect_error hr hf he c]
  exact ⟨((Operand.ofWord?_eq_none_iff _ _).1 hnone).1, hfault, rfl, rfl, rfl, rfl⟩

theorem step_of_pending (ht : (m.target a).result = .ok t) {code : Word} {rest : List Word}
    (hp : m.pending = code :: rest) (c : σ) :
    (m.step c).calls = [] ∧ (m.step c).console = c ∧ m.Takes t code rest (m.step c) := by
  have hnext := toNat_behind_input hf
  rw [step_of_input hr hf ht]
  simp only [perform, hp]
  exact ⟨rfl, rfl, takes_advance (target_exists ht) hnext code rest c _ _⟩

/-- With nothing pending, the step comes to what the loop comes to. -/
theorem step_of_refill (ht : (m.target a).result = .ok t) (hp : m.pending = []) {c d : σ}
    {supply : Console.Supply} {readings : List Reading}
    (hc : Console.refill c = (supply, readings, d)) :
    (m.step c).calls = readings.map .read ∧ m.Handles t (m.step c) supply := by
  have hnext := toNat_behind_input hf
  rw [step_of_input hr hf ht]
  cases supply with
  | codes code rest =>
    simp only [perform, hp, hc]
    exact ⟨rfl, takes_advance (target_exists ht) hnext code rest d _ _⟩
  | endOfInput | failed =>
    simp only [perform, hp, hc]
    exact ⟨rfl, rfl, rfl⟩

end Input

/-- An `in` reads nothing if there is a code pending or its target does not resolve. Otherwise it
reads up to and including the first line with a code, the end or the failure, whatever the script,
and either takes a code to its target or stops. -/
theorem input_refilled [Console σ] (m : Machine) (c : σ) (hr : m.running = true) (a : Word)
    (hf : m.fetch = .ok (.input a)) :
    (∀ t, (m.target a).result = .ok t →
      (∀ code rest, m.pending = code :: rest →
        (m.step c).calls = [] ∧ (m.step c).console = c ∧ m.Takes t code rest (m.step c)) ∧
      (m.pending = [] → ∀ (lines : List (List Word)) (last : Reading) (d : σ),
        (∀ codes, last ≠ .line codes) →
        Console.Answers c ((Console.script lines last).map .read) d →
          ∃ (n : Nat) (supply : Console.Supply) (later : List Reading),
            Console.script lines last =
              List.replicate n (Reading.line []) ++ supply.reading :: later ∧
            Console.rounds (lines.length + 1) c = some (Console.refill c) ∧
            (m.step c).calls = Call.blanks n ++ [Call.read supply.reading] ∧
            Console.Answers c (m.step c).calls (m.step c).console ∧
            m.Handles t (m.step c) supply)) ∧
    ∀ fault, (m.target a).result = .error fault →
      m.policy = .strict ∧ fault = .invalidOperand m.ip a ∧ (m.step c).calls = [] ∧
        (m.step c).console = c ∧ m.StopsWith fault (m.step c) := by
  refine ⟨fun t ht => ⟨?_, ?_⟩, ?_⟩
  · intro code rest hp
    exact step_of_pending hr hf ht hp c
  · intro hp lines last d hlast hanswers
    obtain ⟨n, supply, later, e, hscript, hrounds⟩ := Console.rounds_of_script hlast hanswers
    have hrefill := Console.refill_of_rounds hrounds
    obtain ⟨hcalls, hhandles⟩ := step_of_refill hr hf ht hp hrefill
    refine ⟨n, supply, later, hscript, ?_, ?_, step_answers m c, hhandles⟩
    · rw [hrounds, hrefill]
    · rw [hcalls, List.map_append, List.map_replicate]
      rfl
  · intro fault ht
    exact step_of_unresolved hr hf ht c

theorem input_refilled_after_blank :
    ∃ (m : Machine) (c : Script), (boot [20, 32768] .strict).result = .ok m ∧
      c = .ofReadings (Console.script [[], [40000, 10], [7]] .endOfInput) none ∧
      (m.step c).calls = [.read (.line []), .read (.line [40000, 10])] ∧
      m.Takes (.register ⟨0⟩) 40000 [10] (m.step c) := by
  obtain ⟨m, hb, hr, hf, ht, hp⟩ : ∃ m : Machine, (boot [20, 32768] .strict).result = .ok m ∧
      m.running = true ∧ m.fetch = .ok (.input 32768) ∧
      (m.target 32768).result = .ok (.register ⟨0⟩) ∧ m.pending = [] :=
    ⟨_, rfl, rfl, rfl, rfl, rfl⟩
  refine ⟨m, _, hb, rfl, ?_⟩
  have hlast (codes : List Word) : Reading.endOfInput ≠ .line codes := by
    rintro ⟨⟩
  obtain ⟨n, supply, later, hscript, -, hcalls, -, hhandles⟩ :=
    ((input_refilled m _ hr 32768 hf).1 _ ht).2 hp [[], [40000, 10], [7]] .endOfInput _ hlast
      (Console.answers_ofReadings _ none)
  -- The script says how many blank lines there are, and what comes after them.
  obtain ⟨rfl, rfl⟩ : n = 1 ∧ supply = .codes 40000 [10] := by
    cases n with
    | zero => cases supply <;> simp [Console.script, Console.Supply.reading] at hscript
    | succ n =>
      cases n with
      | zero => cases supply <;> simp_all [Console.script, Console.Supply.reading]
      | succ n => simp [Console.script, List.replicate_succ] at hscript
  exact ⟨hcalls, hhandles⟩

end Machine

end FifteenBit
