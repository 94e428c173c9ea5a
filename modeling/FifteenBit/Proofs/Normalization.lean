import FifteenBit.Console.Recorder
import FifteenBit.Proofs.Comparison
import FifteenBit.Proofs.Resolution
import FifteenBit.Proofs.StepSequence

/-! Words that are normalized ahead of time. A machine whose words above the registers are
reduced before it starts goes under the strict policy as the machine with the raw words goes
under the wrapping one, as long as no raw word is met as an opcode. -/

namespace FifteenBit

/-- Words that stand for a value or a register are kept, those above are reduced. -/
def normalize (w : Word) : Word :=
  if w ≤ 32775 then w else w - 32768

theorem toNat_normalize (w : Word) :
    (normalize w).toNat = if w.toNat < 32776 then w.toNat else w.toNat - 32768 := by
  have hlt := w.toNat_lt
  rw [normalize]
  by_cases h : w.toNat < 32776
  · have hle : w ≤ 32775 := UInt16.le_iff_toNat_le.2 (Nat.le_of_lt_succ h)
    rw [if_pos hle, if_pos h]
  · have hle : ¬ w ≤ 32775 := fun hle => h (Nat.lt_succ_of_le (UInt16.le_iff_toNat_le.1 hle))
    rw [if_neg hle, if_neg h, UInt16.toNat_sub_of_le _ _ (UInt16.le_iff_toNat_le.2 ?_)]
    · rfl
    · show 32768 ≤ w.toNat
      omega

theorem normalize_of_lt {w : Word} (h : w.toNat < 32776) : normalize w = w := by
  apply UInt16.toNat_inj.1
  rw [toNat_normalize, if_pos h]

theorem normalize_wrap (n : UInt32) : normalize (wrap n) = wrap n := by
  apply normalize_of_lt
  rw [toNat_wrap]
  omega

theorem wrap_normalize (w : Word) : wrap (normalize w).toUInt32 = wrap w.toUInt32 := by
  apply UInt16.toNat_inj.1
  rw [toNat_wrap, toNat_wrap, UInt16.toNat_toUInt32, UInt16.toNat_toUInt32, toNat_normalize]
  split <;> omega

theorem Operand.ofWord?_normalize (raw : Word) :
    ofWord? .strict (normalize raw) = ofWord? .wrap raw := by
  by_cases hr : raw.toNat < 32776
  · rw [normalize_of_lt hr]
    by_cases hlt : raw.toNat < 32768
    · rw [ofWord?_of_lt .strict hlt, ofWord?_of_lt .wrap hlt]
    · have hge : 32768 ≤ raw.toNat := Nat.le_of_not_lt hlt
      rw [ofWord?_register .strict hge hr, ofWord?_register .wrap hge hr]
  · have hge : 32776 ≤ raw.toNat := Nat.le_of_not_lt hr
    have hn : (normalize raw).toNat < 32768 := by
      have hlt := raw.toNat_lt
      rw [toNat_normalize, if_neg hr]
      omega
    have hw : wrap raw.toUInt32 = normalize raw := by
      rw [← wrap_normalize]
      exact wrap_of_lt (UInt16.lt_iff_toNat_lt.2 hn)
    rw [ofWord?_of_lt .strict hn, ofWord?_above .wrap hge, if_pos rfl, hw]

def Fault.normalized : Fault → Fault
  | .invalidWriteTarget ip operand => .invalidWriteTarget ip (normalize operand)
  | fault => fault

theorem Memory.ofImage_map (f : Word → Word) (h0 : f 0 = 0) (image : List Word)
    (h : image.length ≤ memorySize) (h' : (image.map f).length ≤ memorySize) :
    ofImage (image.map f) h' = (ofImage image h).map f := by
  apply Vector.toArray_inj.1
  simp only [ofImage, Vector.toArray_map, List.map_toArray, List.map_append, List.map_replicate,
    List.length_map, h0]

namespace Machine

/-- The machine with its words normalized, under the strict policy. -/
def normalized (m : Machine) : Machine :=
  m.recode normalize .strict

end Machine

/-- The second step comes to what the first one comes to, on normalized words. -/
structure Step.Normalizes {σ : Type} (s t : Step σ) : Prop where
  result : t.result = s.result.mapError Fault.normalized
  calls : t.calls = s.calls
  console : t.console = s.console
  machine : t.machine = s.machine.normalized

/-- The step has come upon a word above the registers where an opcode should be. -/
def Step.MeetsRawOpcode {σ : Type} (s : Step σ) : Prop :=
  ∃ ip raw, s.result = .error (.invalidOpcode ip raw) ∧ 32776 ≤ raw.toNat

namespace Machine

variable {m : Machine}

theorem cell_parallel (m : Machine) (address : UInt64) :
    Parallel Fault.normalized (fun w w' => w' = normalize w) (m.cell address)
      (m.normalized.cell address) := by
  have hget : m.normalized.memory[address.toNat]? = m.memory[address.toNat]?.map normalize :=
    Vector.getElem?_map
  cases hw : m.memory[address.toNat]? with
  | none =>
    simp only [cell, hget, hw, Option.map_none]
    exact .error (.invalidAddress address)
  | some w =>
    simp only [cell, hget, hw, Option.map_some]
    exact .ok rfl

/-- A word above the registers is no opcode. Only what it is reduced to may be one. -/
theorem fetch_parallel (m : Machine) :
    (∃ raw, 32776 ≤ raw.toNat ∧ m.fetch = .error (.invalidOpcode m.ip raw)) ∨
      Parallel Fault.normalized (fun i i' => i' = i.mapOperands normalize) m.fetch
        m.normalized.fetch := by
  by_cases h : ∃ raw, m.cell m.ip = .ok raw ∧ 32776 ≤ raw.toNat
  · obtain ⟨raw, hraw, hge⟩ := h
    have hop : Opcode.ofWord? raw = none := (Opcode.ofWord?_eq_none_iff raw).2 (by omega)
    left
    refine ⟨raw, hge, except_bind_eq_error.2 (.inr ⟨raw, hraw, ?_⟩)⟩
    rw [hop]
  · right
    refine (cell_parallel m m.ip).bind fun raw raw' hraw hn => ?_
    have hlt : raw.toNat < 32776 := Nat.lt_of_not_le fun hge => h ⟨raw, hraw, hge⟩
    obtain rfl : raw' = raw := hn.trans (normalize_of_lt hlt)
    cases Opcode.ofWord? raw' with
    | none => exact .error (.invalidOpcode m.ip raw')
    | some op => exact Instruction.assemble_parallel (fun k => cell_parallel m _) op

theorem operand_parallel (hp : m.policy = .wrap) (raw : Word) :
    Parallel Fault.normalized Eq (m.operand raw).result
      (m.normalized.operand (normalize raw)).result := by
  cases ho : Operand.ofWord? .wrap raw with
  | none =>
    have hn := (Operand.ofWord?_eq_none_iff _ _).1 ho
    cases hn.1
  | some o =>
    have hraw : (m.operand raw).result = .ok o := operand_eq_ok.2 (by rw [hp, ho])
    have hnormal : (m.normalized.operand (normalize raw)).result = .ok o :=
      operand_eq_ok.2 ((Operand.ofWord?_normalize raw).trans ho)
    rw [hraw, hnormal]
    exact .ok rfl

theorem effect_parallel (hp : m.policy = .wrap) (i : Instruction) :
    Parallel Fault.normalized Effect.Same (m.effect i).result
      (m.normalized.effect (i.mapOperands normalize)).result := by
  have hcompare : Compares (.results Fault.normalized) normalize m m.normalized i := by
    refine ⟨rfl, operand_parallel hp, fun raw => .error (.invalidWriteTarget m.ip raw),
      .error (.divisionByZero m.ip), ?_⟩
    intro a b x _ _
    exact (cell_parallel m x.toUInt64).imp fun w w' hw => by rw [hw, wrap_normalize]
  exact hcompare.effect

variable {σ : Type} [Console σ]

theorem step_normalized (hp : m.policy = .wrap) (c : σ) :
    (m.step c).MeetsRawOpcode ∨ (m.step c).Normalizes (m.normalized.step c) := by
  have hg (fault : Fault) (h : ∀ ip raw, fault ≠ .invalidWriteTarget ip raw) :
      fault.normalized = fault := by
    cases fault with
    | invalidWriteTarget ip raw => exact absurd rfl (h ip raw)
    | _ => rfl
  by_cases h : m.running = true ∧ ∃ raw, 32776 ≤ raw.toNat ∧
      m.fetch = .error (.invalidOpcode m.ip raw)
  · obtain ⟨hr, raw, hraw, hf⟩ := h
    left
    rw [step_of_fetch_error hr hf]
    exact ⟨m.ip, raw, rfl, hraw⟩
  · right
    have hs : (m.step c).Recodes Fault.normalized normalize .strict (m.normalized.step c) := by
      refine step_recodes normalize_wrap hg (fun hr => ?_) (fun i _ _ => effect_parallel hp i) c
      exact (fetch_parallel m).resolve_left fun hraw => h ⟨hr, hraw⟩
    exact ⟨hs.result, hs.calls, hs.console, hs.machine⟩

theorem after_normalized (hp : m.policy = .wrap) (c : σ) {n : Nat}
    (h : ∀ k < n, ¬ (m.nthStep k c).MeetsRawOpcode) :
    m.normalized.after n c = ((m.after n c).1.normalized, (m.after n c).2) := by
  refine after_map normalized fun k hk => ?_
  have hpk : (m.after k c).1.policy = .wrap := (after_policy k m c).trans hp
  have hn := (step_normalized hpk (m.after k c).2).resolve_left (h k hk)
  exact ⟨hn.machine, hn.console⟩

theorem boot_normalized (image : List Word) (h : image.length ≤ memorySize) :
    ∃ m, (boot image .wrap).result = .ok m ∧ m.policy = .wrap ∧
      (boot (image.map normalize) .strict).result = .ok m.normalized := by
  have h' : (image.map normalize).length ≤ memorySize := by rwa [List.length_map]
  refine ⟨_, by rw [boot, dif_pos h]; rfl, rfl, ?_⟩
  rw [boot, dif_pos h', Memory.ofImage_map normalize rfl image h h']
  rfl

/-- Until a word above the registers is met as an opcode, an image under the wrapping policy and
its normalized words under the strict one take the same steps. -/
theorem normalized_in_step (image : List Word) (h : image.length ≤ memorySize) :
    ∃ m, (boot image .wrap).result = .ok m ∧
      (boot (image.map normalize) .strict).result = .ok m.normalized ∧
      ∀ {σ : Type} [Console σ] (c : σ) (n : Nat),
        (∃ k ≤ n, (m.nthStep k c).MeetsRawOpcode) ∨
          (m.nthStep n c).Normalizes (m.normalized.nthStep n c) := by
  obtain ⟨m, hb, hp, hb'⟩ := boot_normalized image h
  refine ⟨m, hb, hb', fun c n => ?_⟩
  by_cases hraw : ∃ k ≤ n, (m.nthStep k c).MeetsRawOpcode
  · exact .inl hraw
  · right
    have hbefore (k : Nat) (hk : k ≤ n) : ¬ (m.nthStep k c).MeetsRawOpcode :=
      fun hm => hraw ⟨k, hk, hm⟩
    have hpn : (m.after n c).1.policy = .wrap := (after_policy n m c).trans hp
    rw [nthStep, nthStep, after_normalized hp c fun k hk => hbefore k (Nat.le_of_lt hk)]
    exact (step_normalized hpn _).resolve_left (hbefore n (Nat.le_refl n))

theorem normalized_in_step_rmem :
    ∃ m : Machine, (boot [15, 32768, 3, 40000] .wrap).result = .ok m ∧ ∀ c : Recorder,
      (m.nthStep 0 c).machine.register ⟨0⟩ = 7232 ∧
      (m.nthStep 0 c).Normalizes (m.normalized.nthStep 0 c) := by
  obtain ⟨m, hb, _, hsteps⟩ := normalized_in_step [15, 32768, 3, 40000] (by decide)
  obtain ⟨m', hb', hr, hf, he⟩ : ∃ m : Machine,
      (boot [15, 32768, 3, 40000] .wrap).result = .ok m ∧ m.running = true ∧
      m.fetch = .ok (.rmem 32768 3) ∧
      (m.effect (.rmem 32768 3)).result = .ok (.store (.register ⟨0⟩) 40000) :=
    ⟨_, rfl, rfl, rfl, rfl⟩
  obtain rfl : m = m' := Except.ok.inj (hb.symm.trans hb')
  refine ⟨m, hb, fun c => ?_⟩
  have hs := step_of_effect hr hf he c
  constructor
  · rw [nthStep, after, hs]
    exact RegisterFile.read_write_same ..
  · refine (hsteps c 0).resolve_left ?_
    rintro ⟨k, hk, ip, raw, hresult, _⟩
    obtain rfl : k = 0 := Nat.le_zero.1 hk
    rw [nthStep, after, hs] at hresult
    cases hresult

end Machine

end FifteenBit
