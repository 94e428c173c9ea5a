import FifteenBit.Console.Script
import FifteenBit.Proofs.Footprint
import FifteenBit.Proofs.SnapshotRestore

/-! The input is a stream. What was pending and what is read comes out of it in order, one code for
each `in`, and the rest is pending. Nothing else looks at the pending input. -/

namespace FifteenBit

def Call.codes : Call → List Word
  | .read (.line codes) => codes
  | _ => []

/-- The codes of all lines that were read, one line after the other. -/
def Call.delivered (calls : List Call) : List Word :=
  calls.flatMap Call.codes

namespace Call

theorem delivered_append (calls calls' : List Call) :
    delivered (calls ++ calls') = delivered calls ++ delivered calls' :=
  List.flatMap_append

theorem delivered_blanks (n : Nat) : delivered (blanks n) = [] := by
  induction n with
  | zero => rfl
  | succ n ih => exact ih

/-- Lines without a code come before the last reading, and nothing else does. -/
theorem delivered_before {before later : List Call} {call last : Call} {n : Nat}
    (h : blanks n ++ [last] = before ++ call :: later) : delivered before = [] := by
  induction n generalizing before with
  | zero =>
    cases before with
    | nil => rfl
    | cons first before =>
      have hlen := congrArg List.length h
      simp only [blanks, List.replicate_zero, List.nil_append, List.length_cons, List.length_nil,
        List.length_append] at hlen
      omega
  | succ n ih =>
    cases before with
    | nil => rfl
    | cons first before =>
      obtain ⟨rfl, hrest⟩ := List.cons.inj h
      show delivered before = []
      exact ih hrest

end Call

namespace Machine

def withPending (m : Machine) (codes : List Word) : Machine :=
  { m with pending := codes }

end Machine

def Step.withPending {σ : Type} (s : Step σ) (codes : List Word) : Step σ :=
  { s with machine := s.machine.withPending codes }

namespace Machine

section Step

variable {σ : Type} [Console σ] {m : Machine} {c : σ} {next : UInt64} {e : Effect} {s : Step σ}

/-- The step is carried out, and its instruction is an `in`. -/
def CompletesInput (m : Machine) (c : σ) : Prop :=
  (m.step c).result = .ok .running ∧ ∃ a, m.fetch = .ok (.input a)

theorem store_pending (m : Machine) (t : Target) (n : UInt32) :
    (m.store t n).pending = m.pending := by
  cases t <;> rfl

theorem store_withPending (m : Machine) (t : Target) (n : UInt32) (codes : List Word) :
    (m.withPending codes).store t n = (m.store t n).withPending codes := by
  cases t <;> rfl

/-- A code is taken from the pending input or from a line, or there is none to be had. -/
theorem Performs.input_cases (h : m.Performs c next e s) :
    (∃ t code, e = .read t ∧ s.result = .ok .running ∧
      m.pending ++ Call.delivered s.calls = code :: s.machine.pending ∧
      (t.Exists → s.machine.contentOf? t = some (wrap code.toUInt32))) ∨
    ((∀ t, e = .read t → s.result ≠ .ok .running) ∧ s.machine.pending = m.pending ∧
      Call.delivered s.calls = []) := by
  have hstored (t : Target) (code : Word) (rest : List Word) (ht : t.Exists) :
      (({ m with pending := rest } : Machine).store t code.toUInt32).contentOf? t =
        some (wrap code.toUInt32) :=
    contentOf?_store_same _ ht _
  cases h with
  | @pending t code rest hp =>
    refine .inl ⟨t, code, rfl, rfl, ?_, fun ht => ?_⟩
    · have hrest : (({ m with pending := rest } : Machine).store t code.toUInt32).pending = rest :=
        store_pending ..
      rw [hp]
      exact (List.append_nil _).trans (congrArg (code :: ·) hrest.symm)
    · exact (contentOf?_of_eq rfl rfl t).trans (hstored t code rest ht)
  | @line t code rest readings d hp hc =>
    refine .inl ⟨t, code, rfl, rfl, ?_, fun ht => ?_⟩
    · obtain ⟨n, hn⟩ := Console.refill_calls hc
      have hrest : (({ m with pending := rest } : Machine).store t code.toUInt32).pending = rest :=
        store_pending ..
      have hread : Call.delivered (readings.map Call.read) = code :: rest := by
        rw [hn, Call.delivered_append, Call.delivered_blanks]
        exact List.append_nil _
      rw [hp]
      exact hread.trans (congrArg (code :: ·) hrest.symm)
    · exact (contentOf?_of_eq rfl rfl t).trans (hstored t code rest ht)
  | exhausted hp hc | failed hp hc =>
    obtain ⟨n, hn⟩ := Console.refill_calls hc
    refine .inr ⟨fun _ _ => nofun, rfl, ?_⟩
    refine (congrArg Call.delivered hn).trans ?_
    rw [Call.delivered_append, Call.delivered_blanks]
    rfl
  | store | pop => exact .inr ⟨nofun, store_pending .., rfl⟩
  | _ => exact .inr ⟨nofun, rfl, rfl⟩

theorem Performs.withPending (h : m.Performs c next e s) (he : ∀ t, e ≠ .read t)
    (codes : List Word) : (m.withPending codes).perform c next e = s.withPending codes := by
  have hstack : (m.withPending codes).stack = m.stack := rfl
  cases h with
  | next | halt | jump | call | push => rfl
  | emptyReturn hs | ret hs | underflow hs =>
    rw [perform, hstack, hs]
    rfl
  | store =>
    rw [perform, store_withPending]
    rfl
  | @pop t x rest hs =>
    have hstore := store_withPending { m with stack := rest } t x.toUInt32 codes
    rw [perform, hstack, hs]
    exact congrArg (fun m : Machine => m.advance c [] next) hstore
  | wrote hc | refused hc =>
    rw [perform, hc]
    rfl
  | pending | line | exhausted | failed => exact absurd rfl (he _)

/-- Unless the instruction is an `in`, the pending input is not looked at, and stays. -/
theorem step_withPending (h : ∀ a, m.fetch ≠ .ok (.input a)) (c : σ) (codes : List Word) :
    (m.withPending codes).step c = (m.step c).withPending codes := by
  rcases step_cases m c with ⟨hr, hs⟩ | ⟨fault, hr, hf, hs⟩ | ⟨i, fault, hr, hf, he, hs⟩ |
    ⟨i, e, hr, hf, he, hs⟩
  · rw [hs]
    exact step_of_not_running (m := m.withPending codes) hr c
  · rw [hs]
    exact step_of_fetch_error (m := m.withPending codes) hr hf c
  · rw [hs]
    exact step_of_effect_error (m := m.withPending codes) hr hf he c
  · have hread (t : Target) : e ≠ .read t := by
      rintro rfl
      cases resolves_of_effect he with
      | input => exact h _ hf
    have hip : (m.withPending codes).ip = m.ip := rfl
    have hp := (performs m c (m.ip + i.size.toUInt64) e).withPending hread codes
    rw [hs, step_of_effect (m := m.withPending codes) hr hf he c, hip, hp]
    rfl

theorem Performs.calls_of_read (h : m.Performs c next e s) {reading : Reading}
    (hr : .read reading ∈ s.calls) :
    (∃ t, e = .read t) ∧ m.pending = [] ∧ ∃ n last, s.calls = Call.blanks n ++ [last] := by
  cases h with
  | line hp hc | exhausted hp hc | failed hp hc =>
    obtain ⟨n, hn⟩ := Console.refill_calls hc
    exact ⟨⟨_, rfl⟩, hp, n, _, hn⟩
  | wrote | refused => cases List.mem_singleton.1 hr
  | _ => cases hr

/-- Only an `in` reads, while nothing is pending and no line that it has read had a code. -/
theorem read_of_calls {before later : List Call} {reading : Reading}
    (h : (m.step c).calls = before ++ .read reading :: later) :
    (∃ a, m.fetch = .ok (.input a)) ∧ m.pending = [] ∧ Call.delivered before = [] := by
  have hmem : .read reading ∈ (m.step c).calls := by
    rw [h]
    exact List.mem_append_right before List.mem_cons_self
  rcases refused_or_performed m c with ⟨_, _, hs⟩ | ⟨i, e, _, hf, he, hs⟩
  · rw [hs] at hmem
    cases hmem
  · rw [hs] at hmem h
    obtain ⟨⟨t, rfl⟩, hp, n, last, hn⟩ := (performs m c _ e).calls_of_read hmem
    refine ⟨?_, hp, Call.delivered_before (hn.symm.trans h)⟩
    cases resolves_of_effect he with
    | input => exact ⟨_, hf⟩

/-- An `in` that is completed takes the first code of the stream to its target. -/
theorem step_takes (h : m.CompletesInput c) : ∃ t code, m.Overwrites c t ∧
    m.pending ++ Call.delivered (m.step c).calls = code :: (m.step c).machine.pending ∧
    (m.step c).machine.contentOf? t = some (wrap code.toUInt32) := by
  obtain ⟨hrun, a, ha⟩ := h
  obtain ⟨i, e, hr, hf, he, hs⟩ := performed_of_ok hrun
  obtain rfl : Instruction.input a = i := Except.ok.inj (ha.symm.trans hf)
  obtain ⟨t, ht, rfl⟩ : ∃ t, (m.target a).result = .ok t ∧ e = .read t := by
    cases resolves_of_effect he with
    | input ht => exact ⟨_, ht, rfl⟩
    | binary hi => cases hi
  rw [hs] at hrun ⊢
  have hover : m.Overwrites c t := (overwrites_iff hr hf he).2 ⟨hrun, rfl⟩
  rcases (performs m c _ (.read t)).input_cases with ⟨t', code, ht', _, hstream, hstored⟩ | ⟨hno, _⟩
  · cases ht'
    exact ⟨t, code, hover, hstream, hstored (target_exists ht)⟩
  · exact absurd hrun (hno t rfl)

theorem step_keeps (h : ¬ m.CompletesInput c) :
    (m.step c).machine.pending = m.pending ∧ Call.delivered (m.step c).calls = [] := by
  rcases refused_or_performed m c with ⟨_, _, hs⟩ | ⟨i, e, _, hf, he, hs⟩
  · rw [hs]
    exact ⟨rfl, rfl⟩
  · rcases (performs m c (m.ip + i.size.toUInt64) e).input_cases with
      ⟨t, code, rfl, hrun, _⟩ | ⟨_, hp, hd⟩
    · refine absurd ⟨?_, ?_⟩ h
      · rw [hs]
        exact hrun
      · cases resolves_of_effect he with
        | input => exact ⟨_, hf⟩
    · rw [hs]
      exact ⟨hp, hd⟩

end Step

section Stream

/-- A machine goes on by steps on any consoles, and by snapshots of it that are restored. With it
go the uses of the consoles and, for each `in` that was completed, what was left at its target. -/
inductive Proceeds : Machine → List Call → List (Target × Word) → Machine → Prop
  | refl (m : Machine) : m.Proceeds [] [] m
  | input {σ : Type} [Console σ] {m m' : Machine} {c : σ} {t : Target} {x : Word}
      {calls : List Call} {taken : List (Target × Word)} (hi : m.CompletesInput c)
      (ht : m.Overwrites c t) (hx : (m.step c).machine.contentOf? t = some x)
      (h : (m.step c).machine.Proceeds calls taken m') :
    m.Proceeds ((m.step c).calls ++ calls) ((t, x) :: taken) m'
  | other {σ : Type} [Console σ] {m m' : Machine} {c : σ} {calls : List Call}
      {taken : List (Target × Word)} (hi : ¬ m.CompletesInput c)
      (h : (m.step c).machine.Proceeds calls taken m') :
    m.Proceeds ((m.step c).calls ++ calls) taken m'
  | restored {m m₁ m' : Machine} {running : Bool} {policy : Policy} {calls : List Call}
      {taken : List (Target × Word)}
      (hr : (restore { m.snapshot with running := running } policy).result = .ok m₁)
      (h : m₁.Proceeds calls taken m') : m.Proceeds calls taken m'

variable {m m' m'' : Machine} {calls calls' : List Call} {taken taken' : List (Target × Word)}

theorem Proceeds.trans (h : m.Proceeds calls taken m') (h' : m'.Proceeds calls' taken' m'') :
    m.Proceeds (calls ++ calls') (taken ++ taken') m'' := by
  induction h with
  | refl => exact h'
  | input hi ht hx _ ih =>
    rw [List.append_assoc]
    exact .input hi ht hx (ih h')
  | other hi _ ih =>
    rw [List.append_assoc]
    exact .other hi (ih h')
  | restored hr _ ih => exact .restored hr (ih h')

variable {σ : Type} [Console σ]

theorem proceeds_step (m : Machine) (c : σ) :
    ∃ taken, m.Proceeds (m.step c).calls taken (m.step c).machine := by
  rw [← List.append_nil (m.step c).calls]
  by_cases hi : m.CompletesInput c
  · obtain ⟨t, code, ht, _, hx⟩ := step_takes hi
    exact ⟨_, .input hi ht hx (.refl _)⟩
  · exact ⟨_, .other hi (.refl _)⟩

/-- The uses of the console by so many steps. -/
def callsOf (n : Nat) (m : Machine) (c : σ) : List Call :=
  (List.range n).flatMap fun k => (m.nthStep k c).calls

theorem callsOf_succ (n : Nat) (m : Machine) (c : σ) :
    m.callsOf (n + 1) c = m.callsOf n c ++ (m.nthStep n c).calls := by
  rw [callsOf, List.range_succ, List.flatMap_append, List.flatMap_singleton]
  rfl

theorem proceeds_after (n : Nat) (m : Machine) (c : σ) :
    ∃ taken, m.Proceeds (m.callsOf n c) taken (m.after n c).1 := by
  induction n with
  | zero => exact ⟨_, .refl m⟩
  | succ n ih =>
    obtain ⟨taken, h⟩ := ih
    obtain ⟨taken', h'⟩ := proceeds_step (m.after n c).1 (m.after n c).2
    rw [callsOf_succ]
    exact ⟨_, h.trans h'⟩

theorem restore_pending {running : Bool} {policy : Policy}
    (h : (restore { m.snapshot with running := running } policy).result = .ok m') (codes : List Word) :
    m'.pending = m.pending ∧
      (restore { m.snapshot with running := running, input := codes } policy).result =
        .ok (m'.withPending codes) := by
  obtain ⟨hw, hs, hp⟩ := restore_eq_ok.1 h
  refine ⟨congrArg Snapshot.input hs, restore_eq_ok.2 ⟨hw.of_eq rfl rfl, ?_, hp⟩⟩
  have hinput := congrArg (fun s : Snapshot => { s with input := codes }) hs
  exact hinput

/-- What was pending and what has been read since is what has been taken and what is pending. -/
theorem Proceeds.conserved (h : m.Proceeds calls taken m') :
    ∃ codes, m.pending ++ Call.delivered calls = codes ++ m'.pending ∧
      taken.map (fun p => p.2.toNat) = codes.map fun code => code.toNat % 32768 := by
  induction h with
  | refl m => exact ⟨[], List.append_nil _, rfl⟩
  | @input σ _ m m' c t x calls taken hi ht hx _ ih =>
    obtain ⟨codes, hcodes, htaken⟩ := ih
    obtain ⟨t', code, ht', hstream, hx'⟩ := step_takes hi
    obtain rfl := ht'.unique ht
    have hvalue : x.toNat = code.toNat % 32768 := by
      rw [Option.some.inj (hx.symm.trans hx'), toNat_wrap, UInt16.toNat_toUInt32]
    refine ⟨code :: codes, ?_, ?_⟩
    · rw [Call.delivered_append, ← List.append_assoc, hstream, List.cons_append, hcodes,
        List.cons_append]
    · rw [List.map_cons, List.map_cons, htaken, hvalue]
  | @other σ _ m m' c calls taken hi _ ih =>
    obtain ⟨hp, hd⟩ := step_keeps hi
    rw [Call.delivered_append, hd, List.nil_append, ← hp]
    exact ih
  | @restored m m₁ m' running policy calls taken hr _ ih =>
    rw [← (restore_pending hr []).1]
    exact ih

/-- Over steps and saves the input is conserved: each `in` that is completed has taken one code, in
order, and left its value at the target. The console is read while nothing is pending. Where a
step stops the machine, for another instruction and for a restored snapshot the pending input
stays, and the latter two do not look at it. -/
theorem input_conserved (m : Machine) :
    (∀ calls taken m', m.Proceeds calls taken m' →
      ∃ codes, m.pending ++ Call.delivered calls = codes ++ m'.pending ∧
        taken.map (fun p => p.2.toNat) = codes.map fun code => code.toNat % 32768) ∧
    (∀ {σ : Type} [Console σ] (c : σ),
      (∀ n, ∃ taken, m.Proceeds (m.callsOf n c) taken (m.after n c).1) ∧
      (∀ before reading later, (m.step c).calls = before ++ .read reading :: later →
        (∃ a, m.fetch = .ok (.input a)) ∧ m.pending = [] ∧ Call.delivered before = []) ∧
      ((m.step c).result ≠ .ok .running → (m.step c).machine.pending = m.pending) ∧
      ((∀ a, m.fetch ≠ .ok (.input a)) →
        ∀ codes, (m.withPending codes).step c = (m.step c).withPending codes)) ∧
    ∀ running policy m',
      (restore { m.snapshot with running := running } policy).result = .ok m' →
        ∀ codes, m'.pending = m.pending ∧
          (restore { m.snapshot with running := running, input := codes } policy).result =
            .ok (m'.withPending codes) := by
  refine ⟨fun _ _ _ h => h.conserved, fun c => ⟨fun n => proceeds_after n m c, ?_, ?_, ?_⟩, ?_⟩
  · intro before reading later h
    exact read_of_calls h
  · intro h
    rw [machine_of_stopped h]
    rfl
  · intro h codes
    exact step_withPending h c codes
  · intro running policy m' h codes
    exact restore_pending h codes

theorem input_conserved_restored :
    ∃ m m' : Machine, (boot [20, 32768, 20, 100] .wrap).result = .ok m ∧
      m.Proceeds [.read (.line []), .read (.line [40000, 10])] [(.register ⟨0⟩, 7232)] m' ∧
      m'.policy = .strict ∧ m'.pending = [10] ∧
      ∃ codes, [40000, 10] = codes ++ m'.pending ∧
        codes.map (fun code => code.toNat % 32768) = [7232] := by
  obtain ⟨m, hb, hr, hp, hip, hf, he, hd⟩ : ∃ m : Machine,
      (boot [20, 32768, 20, 100] .wrap).result = .ok m ∧ m.running = true ∧ m.pending = [] ∧
      m.ip = 0 ∧ m.fetch = .ok (.input 32768) ∧
      (m.effect (.input 32768)).result = .ok (.read (.register ⟨0⟩)) ∧
      m.destination? (.input 32768) = some (.register ⟨0⟩) := ⟨_, rfl, rfl, rfl, rfl, rfl, rfl, rfl⟩
  let c := Script.ofReadings [.line [], .line [40000, 10]] none
  have hrefill : Console.refill c =
      (.codes 40000 [10], [.line [], .line [40000, 10]], Script.ofReadings [] none) := by
    have hblank : Console.read c = (.line [], Script.ofReadings [.line [40000, 10]] none) := rfl
    have hline : Console.read (Script.ofReadings [.line [40000, 10]] none) =
        (.line [40000, 10], Script.ofReadings [] none) := rfl
    rw [Console.refill_of_blank hblank, Console.refill_of_line hline]
  have hs := step_of_effect hr hf he c
  simp only [perform, hp, hrefill] at hs
  have hi : m.CompletesInput c := by
    refine ⟨?_, _, hf⟩
    rw [hs]
    rfl
  have hpending : (m.step c).machine.pending = [10] := by
    rw [hs]
    rfl
  have hreg : (m.step c).machine.contentOf? (.register ⟨0⟩) = some 7232 := by
    rw [hs]
    exact congrArg some (RegisterFile.read_write_same ..)
  let m' : Machine := { (m.step c).machine with running := true, policy := .strict }
  have hw : m'.WellFormed := ((boot_wellFormed hb).step c).of_eq rfl rfl
  have hrestored :
      (restore { (m.step c).machine.snapshot with running := true } .strict).result = .ok m' :=
    restore_eq_ok.2 ⟨hw, rfl, rfl⟩
  have h := Proceeds.input hi ⟨hi.1, _, hf, hd⟩ hreg (.restored hrestored (.refl m'))
  rw [hs] at h
  obtain ⟨codes, hcodes, htaken⟩ := (input_conserved m).1 _ _ _ h
  rw [hp] at hcodes
  exact ⟨m, m', hb, h, rfl, hpending, codes, hcodes, htaken.symm⟩

end Stream

end Machine

end FifteenBit
