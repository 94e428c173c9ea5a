import FifteenBit.Console.Recorder
import FifteenBit.Proofs.FetchCases
import FifteenBit.Proofs.Footprint
import Mathlib.Data.Set.Defs

/-! Cells that are not read. What stands in them makes no difference until they are overwritten,
and then it is gone. -/

namespace FifteenBit

theorem Instruction.assemble_congr {ε : Type} {cell cell' : Nat → Except ε Word} {op : Opcode}
    (h : ∀ k < op.arity, cell' (k + 1) = cell (k + 1)) :
    assemble cell' op = assemble cell op := by
  cases op
  case halt | ret | noop => rfl
  case push | pop | jmp | call | out | input =>
    have h1 : cell' 1 = cell 1 := h 0 Nat.one_pos
    rw [assemble, assemble, h1]
  case set | jt | jf | not | rmem | wmem =>
    have h1 : cell' 1 = cell 1 := h 0 Nat.two_pos
    have h2 : cell' 2 = cell 2 := h 1 Nat.one_lt_two
    rw [assemble, assemble, h1, h2]
  case eq | gt | add | mult | mod | and | or =>
    have h1 : cell' 1 = cell 1 := h 0 (by decide)
    have h2 : cell' 2 = cell 2 := h 1 (by decide)
    have h3 : cell' 3 = cell 3 := h 2 (by decide)
    rw [assemble, assemble, h1, h2, h3]

namespace Machine

def withMemory (m : Machine) (memory : Memory) : Machine :=
  { m with memory := memory }

/-- The addresses that the next instruction looks up in memory: that of its opcode, those of its
operand words, which are all fetched, and that of the word it loads. -/
inductive Fetches (m : Machine) : UInt64 → Prop
  | opcode : m.Fetches m.ip
  | operand {raw : Word} {op : Opcode} {k : Nat} (hc : m.cell m.ip = .ok raw)
      (hop : Opcode.ofWord? raw = some op) (hk : k < op.arity) :
    m.Fetches (m.ip + (k + 1).toUInt64)
  | source {a b x : Word} {t : Target} (hf : m.fetch = .ok (.rmem a b))
      (ha : (m.target a).result = .ok t) (hb : (m.value b).result = .ok x) :
    m.Fetches x.toUInt64

/-- There is such a cell, and the next step reads it. -/
def Reads (m : Machine) (address : Word) : Prop :=
  m.running = true ∧ address.toNat < memorySize ∧ m.Fetches address.toUInt64

/-- Machines that are the same, but for the words of some cells. -/
structure AgreeOff (X : Set Word) (m m' : Machine) : Prop where
  rest : ∃ memory, m' = m.withMemory memory
  cells : ∀ address ∉ X, m'.readMemory? address = m.readMemory? address

namespace AgreeOff

variable {m m' : Machine} {X Y : Set Word}

theorem mono (h : m.AgreeOff X m') (hXY : X ⊆ Y) : m.AgreeOff Y m' :=
  ⟨h.rest, fun address ha => h.cells address fun hx => ha (hXY hx)⟩

/-- What is done to the rest of the machines leaves the cells as they are. -/
theorem map (h : m.AgreeOff X m') (f : Machine → Machine)
    (hf : ∀ memory, f (m.withMemory memory) = (f m).withMemory memory) :
    (f m).AgreeOff X (f m') := by
  obtain ⟨⟨memory, rfl⟩, hcells⟩ := h
  have hkept : f m = (f m).withMemory m.memory := hf m.memory
  refine ⟨⟨memory, hf memory⟩, fun address ha => ?_⟩
  rw [hf, hkept]
  exact hcells address ha

theorem store (h : m.AgreeOff X m') (t : Target) (n : UInt32) :
    (m.store t n).AgreeOff {address ∈ X | t ≠ .memory address} (m'.store t n) := by
  constructor
  · obtain ⟨memory, rfl⟩ := h.rest
    cases t with
    | register r => exact ⟨memory, rfl⟩
    | memory address => exact ⟨memory.setIfInBounds address.toNat (wrap n), rfl⟩
  · intro address ha
    by_cases ht : t = .memory address
    · -- Whatever stood there before, it is the result now.
      subst ht
      simp only [readMemory?, Machine.store, Vector.getElem?_setIfInBounds_self]
    · have hcell : m'.contentOf? (.memory address) = m.contentOf? (.memory address) :=
        h.cells address fun hx => ha ⟨hx, ht⟩
      have hkept := contentOf?_store_of_ne m' ht n
      exact hkept.trans (hcell.trans (contentOf?_store_of_ne m ht n).symm)

section Reading

variable {address : UInt64} (h : m.AgreeOff X m') (hr : m.running = true)
  (hread : ∀ address ∈ X, ¬ m.Reads address)

include h hr hread

theorem cell (hf : m.Fetches address) : m'.cell address = m.cell address := by
  by_cases hlt : address.toNat < 32768
  · have hn : address.toUInt16.toNat = address.toNat := by
      rw [UInt64.toNat_toUInt16]
      omega
    have ha : address.toUInt16.toUInt64 = address := by
      apply UInt64.toNat_inj.1
      rw [UInt16.toNat_toUInt64, hn]
    have hx : address.toUInt16 ∉ X := by
      intro hx
      refine hread _ hx ⟨hr, ?_, ?_⟩
      · rw [hn]
        exact hlt
      · rw [ha]
        exact hf
    have hcell : m'.memory[address.toNat]? = m.memory[address.toNat]? := by
      rw [← hn]
      exact h.cells _ hx
    rw [Machine.cell, Machine.cell, hcell]
  · -- Beyond the end of memory both machines fail alike.
    have hge := Nat.le_of_not_lt hlt
    rw [cell_of_ge hge, cell_of_ge hge]

theorem fetch : m'.fetch = m.fetch := by
  have hcell {address : UInt64} (hf : m.Fetches address) : m'.cell address = m.cell address :=
    h.cell hr hread hf
  obtain ⟨memory, rfl⟩ := h.rest
  have hfirst : (m.withMemory memory).cell (m.withMemory memory).ip = m.cell m.ip := hcell .opcode
  cases hc : m.cell m.ip with
  | error fault => rw [fetch_of_cell_error hc, fetch_of_cell_error (hfirst.trans hc)]
  | ok raw =>
    cases hop : Opcode.ofWord? raw with
    | none =>
      rw [fetch_of_no_opcode hc hop, fetch_of_no_opcode (hfirst.trans hc) hop]
      rfl
    | some op =>
      rw [fetch_of_opcode hc hop, fetch_of_opcode (hfirst.trans hc) hop]
      exact Instruction.assemble_congr fun k hk => hcell (.operand hc hop hk)

theorem effect {i : Instruction} (hf : m.fetch = .ok i) : m'.effect i = m.effect i := by
  have hcell {address : UInt64} (hf : m.Fetches address) : m'.cell address = m.cell address :=
    h.cell hr hread hf
  obtain ⟨memory, rfl⟩ := h.rest
  cases i with
  | rmem a b =>
    refine Logged.bind_congr fun t ha => Logged.bind_congr fun x hb => ?_
    rw [hcell (.source hf ha hb)]
  | _ => rfl

end Reading

end AgreeOff

end Machine

/-- Steps that cannot be told apart, but for the words of some cells that they leave behind. -/
structure Step.AgreeOff {σ : Type} (X : Set Word) (s s' : Step σ) : Prop where
  result : s'.result = s.result
  log : s'.log = s.log
  calls : s'.calls = s.calls
  console : s'.console = s.console
  machine : s.machine.AgreeOff X s'.machine

theorem Step.AgreeOff.mono {σ : Type} {X Y : Set Word} {s s' : Step σ} (h : s.AgreeOff X s')
    (hXY : X ⊆ Y) : s.AgreeOff Y s' :=
  { h with machine := h.machine.mono hXY }

namespace Machine

section Step

variable {σ : Type} {m m' : Machine} {X : Set Word} {c : σ}

theorem AgreeOff.advance (h : m.AgreeOff X m') (c : σ) (calls : List Call) (ip : UInt64) :
    (m.advance c calls ip).AgreeOff X (m'.advance c calls ip) :=
  ⟨rfl, rfl, rfl, rfl, h.map (fun m => { m with ip := ip }) fun _ => rfl⟩

theorem AgreeOff.halt (h : m.AgreeOff X m') (c : σ) (reason : HaltReason) :
    (m.halt c reason).AgreeOff X (m'.halt c reason) := by
  have habort := h.map abort fun _ => rfl
  obtain ⟨memory, rfl⟩ := h.rest
  exact ⟨rfl, rfl, rfl, rfl, habort⟩

theorem AgreeOff.fail (h : m.AgreeOff X m') (c : σ) (calls : List Call) (fault : Fault) :
    (m.fail c calls fault).AgreeOff X (m'.fail c calls fault) :=
  ⟨rfl, rfl, rfl, rfl, h.map abort fun _ => rfl⟩

variable [Console σ] {next : UInt64} {e : Effect} {s : Step σ}

/-- After its result is stored the cell for it is the same on both machines. -/
theorem Performs.agreeOff (hp : m.Performs c next e s) (h : m.AgreeOff X m') :
    s.AgreeOff {address ∈ X | s.result = .ok .running → e.target? ≠ some (.memory address)}
      (m'.perform c next e) := by
  have hstored {m m' : Machine} (h : m.AgreeOff X m') (t : Target) (n : UInt32) :
      (m.store t n).AgreeOff
        {address ∈ X | (.ok .running : Except Fault Status) = .ok .running →
          some t ≠ some (.memory address)} (m'.store t n) :=
    (h.store t n).mono fun address ha => ⟨ha.1, fun _ he => ha.2 (Option.some.inj he)⟩
  have hnone {e : Effect} (he : e.target? = none) {s : Step σ} :
      X ⊆ {address ∈ X | s.result = .ok .running → e.target? ≠ some (.memory address)} := by
    intro address ha
    refine ⟨ha, fun _ ht => ?_⟩
    rw [he] at ht
    cases ht
  have hstopped {s : Step σ} (hs : s.result ≠ .ok .running) {e : Effect} :
      X ⊆ {address ∈ X | s.result = .ok .running → e.target? ≠ some (.memory address)} :=
    fun address ha => ⟨ha, fun hr => absurd hr hs⟩
  have hstack (stack : List Word) := h.map (fun m => { m with stack := stack }) fun _ => rfl
  have hpending (codes : List Word) := h.map (fun m => { m with pending := codes }) fun _ => rfl
  obtain ⟨memory, rfl⟩ := h.rest
  have hs : (m.withMemory memory).stack = m.stack := rfl
  have hi : (m.withMemory memory).pending = m.pending := rfl
  cases hp with
  | next | jump => exact (h.advance c [] _).mono (hnone rfl)
  | call | push => exact ((hstack _).advance c [] _).mono (hnone rfl)
  | halt => exact (h.halt c _).mono (hnone rfl)
  | store => exact (hstored h _ _).advance c [] next
  | emptyReturn hm =>
    rw [perform, hs, hm]
    exact (h.halt c _).mono (hnone rfl)
  | ret hm =>
    rw [perform, hs, hm]
    exact ((hstack _).advance c [] _).mono (hnone rfl)
  | underflow hm =>
    rw [perform, hs, hm]
    exact (h.fail c [] _).mono (hstopped fun hr => by cases hr)
  | pop hm =>
    rw [perform, hs, hm]
    exact (hstored (hstack _) _ _).advance c [] next
  | wrote hc =>
    rw [perform, hc]
    exact (h.advance _ _ next).mono (hnone rfl)
  | refused hc =>
    rw [perform, hc]
    exact (h.fail _ _ _).mono (hnone rfl)
  | pending hm =>
    rw [perform, hi, hm]
    exact (hstored (hpending _) _ _).advance c [] next
  | line hm hc =>
    simp only [perform, hi, hm, hc]
    exact (hstored (hpending _) _ _).advance _ _ next
  | exhausted hm hc | failed hm hc =>
    simp only [perform, hi, hm, hc]
    exact (h.fail _ _ _).mono (hstopped fun hr => by cases hr)

theorem AgreeOff.preface {i : Instruction} (h : m.AgreeOff X m') (he : m'.effect i = m.effect i) :
    m'.preface i = m.preface i := by
  obtain ⟨memory, rfl⟩ := h.rest
  rw [Machine.preface, Machine.preface, he]
  rfl

/-- If the step reads none of the cells, the other machine takes it as well. -/
theorem AgreeOff.step (h : m.AgreeOff X m') (hread : ∀ address ∈ X, ¬ m.Reads address) (c : σ) :
    (m.step c).AgreeOff {address ∈ X | ¬ m.Overwrites c (.memory address)} (m'.step c) := by
  have hstopped (hs : (m.step c).result ≠ .ok .running) :
      X ⊆ {address ∈ X | ¬ m.Overwrites c (.memory address)} :=
    fun address ha => ⟨ha, fun ho => hs ho.1⟩
  obtain ⟨memory, rfl⟩ := h.rest
  have hrun : (m.withMemory memory).running = m.running := rfl
  have hip : (m.withMemory memory).ip = m.ip := rfl
  cases hr : m.running with
  | false =>
    have hs := step_of_not_running hr c
    have hX := hstopped fun hs' => by rw [hs] at hs'; cases hs'
    rw [hs, step_of_not_running (hrun.trans hr) c]
    exact ⟨rfl, rfl, rfl, rfl, h.mono hX⟩
  | true =>
    have hfetch := h.fetch hr hread
    cases hf : m.fetch with
    | error fault =>
      have hs := step_of_fetch_error hr hf c
      have hX := hstopped fun hs' => by rw [hs] at hs'; cases hs'
      rw [hs, step_of_fetch_error (hrun.trans hr) (hfetch.trans hf) c]
      exact (h.fail c [] fault).mono hX
    | ok i =>
      have heffect := h.effect hr hread hf
      have hpreface := h.preface heffect
      cases he : (m.effect i).result with
      | error fault =>
        have hs := step_of_effect_error hr hf he c
        have hX := hstopped fun hs' => by rw [hs] at hs'; cases hs'
        rw [hs, step_of_effect_error (hrun.trans hr) (hfetch.trans hf) (heffect ▸ he) c, hpreface]
        exact { (h.fail c [] fault).mono hX with log := rfl }
      | ok e =>
        have hperform := (performs m c (m.ip + i.size.toUInt64) e).agreeOff h
        have hX := hperform.mono (Y := {address ∈ X | ¬ m.Overwrites c (.memory address)}) <| by
          rintro address ⟨ha, hkept⟩
          refine ⟨ha, fun ho => ?_⟩
          obtain ⟨hdone, ht⟩ := (overwrites_iff hr hf he).1 ho
          exact hkept hdone ht
        rw [step_of_effect hr hf he c,
          step_of_effect (hrun.trans hr) (hfetch.trans hf) (heffect ▸ he) c, hip, hpreface]
        exact { hX with log := congrArg (m.preface i ++ ·) hX.log }

end Step

section After

variable {σ : Type} [Console σ] {m m' : Machine} {X : Set Word} {n : Nat}

/-- Some of the cells have been overwritten, and the machines differ in the others only. -/
theorem AgreeOff.after (h : m.AgreeOff X m') (c : σ)
    (hread : ∀ k < n, ∀ address ∈ X, (m.after k c).1.Reads address →
      m.OverwrittenIn c (.memory address) 0 k) :
    (m.after n c).1.AgreeOff {address ∈ X | ¬ m.OverwrittenIn c (.memory address) 0 n}
      (m'.after n c).1 ∧ (m'.after n c).2 = (m.after n c).2 := by
  induction n with
  | zero => exact ⟨h.mono fun address ha => ⟨ha, fun ⟨_, _, hj, _⟩ => Nat.not_lt_zero _ hj⟩, rfl⟩
  | succ n ih =>
    obtain ⟨hm, hc⟩ := ih fun k hk => hread k (Nat.lt_succ_of_lt hk)
    have hstep := hm.step (fun address ha hr => ha.2 (hread n (Nat.lt_succ_self n) address ha.1 hr))
      (m.after n c).2
    rw [after_succ, after_succ, nthStep, nthStep, hc]
    refine ⟨hstep.machine.mono ?_, hstep.console⟩
    rintro address ⟨⟨ha, hbefore⟩, ho⟩
    refine ⟨ha, ?_⟩
    rintro ⟨j, hj, hlt, hover⟩
    obtain hlt | rfl := Nat.lt_succ_iff_lt_or_eq.1 hlt
    · exact hbefore ⟨j, hj, hlt, hover⟩
    · exact ho hover

/-- Machines are the same, but for the words of some cells, and in its first steps the one reads
such a cell only if it has overwritten it. Then the other takes the same steps, and the cells that
have been overwritten are the same as well. -/
theorem unread_memory_irrelevant (h : m.AgreeOff X m') (c : σ)
    (hread : ∀ k < n, ∀ address ∈ X, (m.after k c).1.Reads address →
      m.OverwrittenIn c (.memory address) 0 k) :
    (∀ k < n, (m'.nthStep k c).result = (m.nthStep k c).result ∧
      (m'.nthStep k c).log = (m.nthStep k c).log ∧
      (m'.nthStep k c).calls = (m.nthStep k c).calls) ∧
    ∀ k ≤ n, (m'.after k c).2 = (m.after k c).2 ∧
      (m.after k c).1.AgreeOff {address ∈ X | ¬ m.OverwrittenIn c (.memory address) 0 k}
        (m'.after k c).1 := by
  have hafter (k : Nat) (hk : k ≤ n) := h.after c fun j hj => hread j (Nat.lt_of_lt_of_le hj hk)
  refine ⟨fun k hk => ?_, fun k hk => (hafter k hk).symm⟩
  obtain ⟨hm, hc⟩ := hafter k (Nat.le_of_lt hk)
  have hstep := hm.step (fun address ha hr => ha.2 (hread k hk address ha.1 hr)) (m.after k c).2
  rw [nthStep, nthStep, hc]
  exact ⟨hstep.result, hstep.log, hstep.calls⟩

theorem unread_memory_irrelevant_overwritten :
    ∃ m : Machine, (boot [16, 9, 7, 15, 32768, 9, 0, 0, 0, 100] .wrap).result = .ok m ∧
      m.readMemory? 9 = some 100 ∧
      ∃ m' : Machine, m.AgreeOff {9} m' ∧ m'.readMemory? 9 = some 200 ∧
        ∀ c : Recorder, m.OverwrittenIn c (.memory 9) 0 1 ∧
          (m'.after 2 c).1.registers = (m.after 2 c).1.registers ∧
          (m'.after 2 c).1.readMemory? 9 = (m.after 2 c).1.readMemory? 9 := by
  obtain ⟨m, hb, hr, hip, hcell, hf, he, hd, h9⟩ : ∃ m : Machine,
      (boot [16, 9, 7, 15, 32768, 9, 0, 0, 0, 100] .wrap).result = .ok m ∧ m.running = true ∧
      m.ip = 0 ∧ m.cell m.ip = .ok 16 ∧ m.fetch = .ok (.wmem 9 7) ∧
      (m.effect (.wmem 9 7)).result = .ok (.store (.memory 9) 7) ∧
      m.destination? (.wmem 9 7) = some (.memory 9) ∧ m.readMemory? 9 = some 100 :=
    ⟨_, rfl, rfl, rfl, rfl, rfl, rfl, rfl, rfl⟩
  let m' : Machine := m.withMemory (m.memory.set 9 200)
  have hother : m'.readMemory? 9 = some 200 := Vector.getElem?_set_self (by decide)
  have hagree : m.AgreeOff {9} m' := by
    refine ⟨⟨_, rfl⟩, fun address ha => Vector.getElem?_set_ne (by decide) fun he => ha ?_⟩
    exact UInt16.toNat_inj.1 he.symm
  refine ⟨m, hb, h9, m', hagree, hother, fun c => ?_⟩
  have hover : m.OverwrittenIn c (.memory 9) 0 1 := by
    refine ⟨0, Nat.le_refl 0, Nat.zero_lt_one, ?_, _, hf, hd⟩
    show (m.step c).result = .ok .running
    rw [step_of_effect hr hf he c]
    rfl
  -- The first instruction stands in the cells 0 to 2, and loads nothing.
  have hfirst : ¬ m.Reads 9 := by
    rintro ⟨_, _, hreads⟩
    generalize ha : (9 : Word).toUInt64 = address at hreads
    cases hreads with
    | opcode =>
      rw [hip] at ha
      cases ha
    | @operand raw op k hc hop hk =>
      obtain rfl : 16 = raw := Except.ok.inj (hcell.symm.trans hc)
      obtain rfl : Opcode.wmem = op := Option.some.inj hop
      rw [hip] at ha
      obtain rfl | rfl : k = 0 ∨ k = 1 := by
        have hk : k < 2 := hk
        omega
      · cases ha
      · cases ha
    | source hf' => cases hf.symm.trans hf'
  obtain ⟨_, hafter⟩ := unread_memory_irrelevant (n := 2) hagree c fun k hk address ha hreads => by
    obtain rfl : address = 9 := ha
    obtain rfl | rfl : k = 0 ∨ k = 1 := by omega
    · exact absurd hreads hfirst
    · exact hover
  obtain ⟨_, hm⟩ := hafter 2 (Nat.le_refl 2)
  obtain ⟨memory, hrest⟩ := hm.rest
  refine ⟨hover, ?_, hm.cells 9 fun ha => ha.2 hover.succ⟩
  rw [hrest]
  rfl

end After

end Machine

end FifteenBit
