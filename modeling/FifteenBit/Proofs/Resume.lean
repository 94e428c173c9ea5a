import FifteenBit.Proofs.Atomicity
import FifteenBit.Proofs.Echo
import FifteenBit.Proofs.Recorders
import FifteenBit.Proofs.Replay

/-! Runs that are broken off by the console and taken up again. The instruction that failed
is run once more as a whole, and in between nothing is lost and nothing comes twice. -/

namespace FifteenBit.Machine

section Again

variable {σ τ υ : Type} [Console σ] [Console τ] [Console υ] {m : Machine} {c : σ}

/-- A run whose first step comes to the same as that of another run, after more uses of the
console, comes to the same end after them. -/
theorem ends_after {u : υ} {u' : υ} {d : τ} {calls : List Call}
    (hstep : m.step u = ((m.step d).on u').after calls)
    (hl : Console.Alike (m.step d).console u') (e : Ending) :
    (∃ v, m.Ends u e v) ↔ ∃ e' d', m.Ends d e' d' ∧ e = e'.after calls := by
  have hou : (m.step u).outcome? = (m.step d).outcome? := by
    rw [hstep]
    rfl
  cases ho : (m.step d).outcome? with
  | some result =>
    simp only [ends_of_stopped (hou.trans ho), ends_of_stopped ho, hstep]
    constructor
    · rintro ⟨v, rfl, _⟩
      exact ⟨_, _, ⟨rfl, rfl⟩, rfl⟩
    · rintro ⟨_, _, ⟨rfl, rfl⟩, rfl⟩
      exact ⟨_, rfl, rfl⟩
  | none =>
    simp only [ends_of_running (hou.trans ho), ends_of_running ho, hstep]
    constructor
    · rintro ⟨v, e', he, rfl⟩
      obtain ⟨d', hd⟩ := Ends.of_alike he hl.symm
      refine ⟨_, d', ⟨e', hd, rfl⟩, ?_⟩
      exact congrArg (Ending.mk _ _) (List.append_assoc ..)
    · rintro ⟨_, d', ⟨e', hd, rfl⟩, rfl⟩
      obtain ⟨v, hv⟩ := Ends.of_alike hd hl
      refine ⟨v, e', hv, ?_⟩
      exact congrArg (Ending.mk _ _) (List.append_assoc ..).symm

def restarted (m : Machine) : Machine :=
  { m with running := true }

theorem Ends.again {e₁ e : Ending} {d₁ : σ} {d : τ} {u : υ} (h : m.Ends c e₁ d₁)
    (hr : m.running = true) (hf : e₁.OfConsole)
    (hu : Console.AnswersThen u e₁.calls.dropLast d) :
    (∃ v, m.Ends u e v) ↔
      ∃ e₂ d₂, e₁.machine.restarted.Ends d e₂ d₂ ∧ e = e₂.after e₁.calls.dropLast := by
  induction h using Ends.induction generalizing u e with
  | stopped m c result ho =>
    -- The step that failed is made once more; the machine is as it was before it.
    obtain ⟨fault, hres, hf⟩ := hf
    obtain rfl : result = .error fault := hres
    have hs : (m.step c).result = .error fault := Step.outcome?_eq_error_iff.1 ho
    have hm : (m.step c).machine.restarted = m := by
      rw [machine_of_stopped (by rw [hs]; nofun), restarted, abort, ← hr]
    obtain ⟨u', hu', hl⟩ := step_again hs hf hu
    rw [hm]
    exact ends_after hu' hl e
  | running m c e₁ d₁ ho h ih =>
    -- All calls of this step come before the failing one, so both consoles answer them alike.
    have hs := Step.outcome?_eq_none_iff.1 ho
    obtain ⟨served, failing, hc, _⟩ := h.calls_of_console hf
    have hdrop : (e₁.after (m.step c).calls).calls.dropLast =
        (m.step c).calls ++ e₁.calls.dropLast := by
      rw [Ending.after, hc, ← List.append_assoc, List.dropLast_concat, List.dropLast_concat]
    rw [hdrop] at hu ⊢
    obtain ⟨u', hu', hrest⟩ := hu.of_append
    have hstep : m.step u = (m.step c).on u' := step_of_answers hu'
    have ho' : (m.step u).outcome? = none := by rw [hstep, Step.outcome?_on, ho]
    simp only [ends_of_running ho', hstep]
    constructor
    · rintro ⟨v, e', he, rfl⟩
      obtain ⟨e₂, d₂, h₂, rfl⟩ := (ih (step_running hs) hf hrest).1 ⟨v, he⟩
      refine ⟨e₂, d₂, h₂, ?_⟩
      exact congrArg (Ending.mk _ _) (List.append_assoc ..).symm
    · rintro ⟨e₂, d₂, h₂, rfl⟩
      obtain ⟨v, he⟩ := (ih (step_running hs) hf hrest).2 ⟨e₂, d₂, h₂, rfl⟩
      refine ⟨v, _, he, ?_⟩
      exact congrArg (Ending.mk _ _) (List.append_assoc ..)

end Again

variable {m : Machine}

theorem Ends.restore_restarted {σ : Type} [Console σ] {c d : σ} {e : Ending} (h : m.Ends c e d)
    (hw : m.WellFormed) :
    (restore { e.machine.snapshot with running := true } m.policy).result =
      .ok e.machine.restarted := by
  have hwe : e.machine.WellFormed := h.preserves (fun _ c hw => hw.step c) hw
  have hp : e.machine.policy = m.policy := h.preserves (P := fun m' => m'.policy = m.policy)
    (fun m' c hp => (step_policy m' c).trans hp) rfl
  exact restore_eq_ok.2 ⟨hwe.of_eq rfl rfl, rfl, hp⟩

theorem Ends.written_eq {σ : Type} [Console σ] {c d : σ} {e₁ e e₂ : Ending} (h : m.Ends c e₁ d)
    (hf : e₁.OfConsole) (hc : e.calls = e₁.calls.dropLast ++ e₂.calls) :
    e.written = e₁.written ++ e₂.written := by
  obtain ⟨served, failing, hs, _, hn⟩ := h.calls_of_console hf
  have hw : e₁.written = e₁.calls.dropLast.filterMap Call.written? := by
    rw [Ending.written, hs, List.dropLast_concat, List.filterMap_append]
    simp [Call.written?_of_not_served hn]
  rw [hw, Ending.written, hc, List.filterMap_append]
  rfl

/-- The resumed machine, on the second of two consoles, comes to the ends to which the
machine comes on a console that goes on as the second one after the first. -/
theorem Ends.resumed {σ τ υ : Type} [Console σ] [Console τ] [Console υ] {c d : σ} {c₂ : τ} {u : υ}
    {e₁ : Ending} (h : m.Ends c e₁ d) (hr : m.running = true) (hf : e₁.OfConsole)
    (hu : Console.AnswersThen u e₁.calls.dropLast c₂) (e : Ending) :
    (∃ v, m.Ends u e v) ↔ ∃ e₂ d₂, e₁.machine.restarted.Ends c₂ e₂ d₂ ∧
      e.machine = e₂.machine ∧ e.result = e₂.result ∧ e.calls = e₁.calls.dropLast ++ e₂.calls := by
  rw [h.again hr hf hu]
  constructor
  · rintro ⟨e₂, d₂, h₂, rfl⟩
    exact ⟨e₂, d₂, h₂, rfl, rfl, rfl⟩
  · rintro ⟨e₂, d₂, h₂, hm, hres, hcalls⟩
    refine ⟨e₂, d₂, h₂, ?_⟩
    cases e
    simp_all [Ending.after]

theorem Ends.answersThen_lines {A : List String} {e₁ : Ending} {d₁ : Recorder}
    (h : m.Ends (Recorder.ofLines A) e₁ d₁) (hf : e₁.OfConsole) (B : List String) :
    Console.Answers (Recorder.ofLines (A ++ B)) e₁.calls.dropLast ⟨B, d₁.written⟩ ∧
      Console.AnswersThen (Recorder.ofLines (A ++ B)) e₁.calls.dropLast (Recorder.ofLines B) := by
  obtain ⟨served, failing, hc, hs, hn⟩ := h.calls_of_console hf
  have ha := h.answers
  rw [hc] at ha ⊢
  obtain ⟨c', hserved, hfailing⟩ := ha.of_append
  obtain ⟨hlines, rfl⟩ := Recorder.exhausted_of_not_served hfailing hn
  have hab := Recorder.answers_append hserved hs B
  rw [hlines] at hab
  rw [List.dropLast_concat]
  have hl : Console.Alike (Recorder.ofLines B) (⟨B, d₁.written⟩ : Recorder) :=
    (Recorder.keeps_written d₁.written).alike (by simp [Recorder.ofLines])
  exact ⟨hab, _, hab, hl.symm⟩

theorem Ends.recorder_eq {m' : Machine} {A B : List String} {e₁ e e₂ : Ending}
    {d₁ d d₂ : Recorder} (h : m.Ends (Recorder.ofLines A) e₁ d₁) (hf : e₁.OfConsole)
    (he : m.Ends (Recorder.ofLines (A ++ B)) e d) (h₂ : m'.Ends (Recorder.ofLines B) e₂ d₂)
    (hc : e.calls = e₁.calls.dropLast ++ e₂.calls) : d = ⟨d₂.lines, d₁.written ++ d₂.written⟩ := by
  have hserved := (h.answersThen_lines hf B).1
  obtain ⟨d', hd, rfl⟩ := (Recorder.keeps_written d₁.written).answers rfl h₂.answers
  have hnew : d₁.written ++ (Recorder.ofLines B).written = d₁.written := by
    simp [Recorder.ofLines]
  rw [hnew] at hd
  have hall := hserved.append hd
  rw [← hc] at hall
  exact he.answers.unique hall

/-- A run that the console breaks off and that is resumed from its snapshot on a second one
is one run on a console that goes on as the second where the first has failed. -/
theorem resume_exactly_once (hw : m.WellFormed) (hr : m.running = true) :
    (∀ {σ τ υ : Type} [Console σ] [Console τ] [Console υ] (c₁ d₁ : σ) (c₂ : τ) (e₁ : Ending),
      m.Ends c₁ e₁ d₁ → e₁.OfConsole →
      ∃ m', (Machine.restore { e₁.machine.snapshot with running := true } m.policy).result =
          .ok m' ∧
        Console.AnswersThen (⟨e₁.calls.dropLast, c₂⟩ : Replay τ) e₁.calls.dropLast c₂ ∧
        ∀ u : υ, Console.AnswersThen u e₁.calls.dropLast c₂ → ∀ e,
          (∃ v, m.Ends u e v) ↔ ∃ e₂ d₂, m'.Ends c₂ e₂ d₂ ∧ e.machine = e₂.machine ∧
            e.result = e₂.result ∧ e.calls = e₁.calls.dropLast ++ e₂.calls ∧
            e.written = e₁.written ++ e₂.written) ∧
    ∀ (A B : List String) (e₁ : Ending) (d₁ : Recorder),
      m.Ends (Recorder.ofLines A) e₁ d₁ → e₁.OfConsole →
      ∃ m', (Machine.restore { e₁.machine.snapshot with running := true } m.policy).result =
          .ok m' ∧
        ∀ e d, m.Ends (Recorder.ofLines (A ++ B)) e d ↔
          ∃ e₂ d₂, m'.Ends (Recorder.ofLines B) e₂ d₂ ∧ e.machine = e₂.machine ∧
            e.result = e₂.result ∧ e.calls = e₁.calls.dropLast ++ e₂.calls ∧
            d.written = d₁.written ++ d₂.written ∧ d.lines = d₂.lines := by
  constructor
  · intro σ τ υ _ _ _ c₁ d₁ c₂ e₁ h hf
    refine ⟨_, h.restore_restarted hw, Replay.answersThen _ c₂, fun u hu e => ?_⟩
    rw [h.resumed hr hf hu e]
    constructor
    · rintro ⟨e₂, d₂, h₂, hm, hres, hc⟩
      exact ⟨e₂, d₂, h₂, hm, hres, hc, h.written_eq hf hc⟩
    · rintro ⟨e₂, d₂, h₂, hm, hres, hc, _⟩
      exact ⟨e₂, d₂, h₂, hm, hres, hc⟩
  · intro A B e₁ d₁ h hf
    refine ⟨_, h.restore_restarted hw, fun e d => ?_⟩
    have hresumed := h.resumed hr hf (h.answersThen_lines hf B).2
    constructor
    · intro he
      obtain ⟨e₂, d₂, h₂, hm, hres, hc⟩ := (hresumed e).1 ⟨d, he⟩
      have hd := h.recorder_eq hf he h₂ hc
      exact ⟨e₂, d₂, h₂, hm, hres, hc, by rw [hd], by rw [hd]⟩
    · rintro ⟨e₂, d₂, h₂, hm, hres, hc, hwritten, hlines⟩
      obtain ⟨v, hv⟩ := (hresumed e).2 ⟨e₂, d₂, h₂, hm, hres, hc⟩
      have hd : d = v := by
        rw [h.recorder_eq hf hv h₂ hc, ← hwritten, ← hlines]
      rwa [hd]

theorem resume_exactly_once_line :
    ∃ (m m' : Machine) (e₁ : Ending) (d₁ : Recorder),
      (boot [20, 32768, 19, 32768, 6, 0] .wrap).result = .ok m ∧
      m.Ends (Recorder.ofLines ["x"]) e₁ d₁ ∧ e₁.result = .error (.inputExhausted 0) ∧
      e₁.calls = [.read (.line [120, 10]), .wrote 120, .wrote 10, .read .endOfInput] ∧
      (Machine.restore { e₁.machine.snapshot with running := true } .wrap).result = .ok m' ∧
      (∀ e d, m.Ends (Recorder.ofLines ["x", "y"]) e d ↔
        ∃ e₂ d₂, m'.Ends (Recorder.ofLines ["y"]) e₂ d₂ ∧ e.machine = e₂.machine ∧
          e.result = e₂.result ∧ e.calls = e₁.calls.dropLast ++ e₂.calls ∧
          d.written = #[120, 10] ++ d₂.written ∧ d.lines = d₂.lines) ∧
      ∃ e d, m.Ends (Recorder.ofLines ["x", "y"]) e d ∧ d.written = #[120, 10, 121, 10] := by
  have hl : Echo.image.length ≤ memorySize := by decide
  have hb := boot_result hl .wrap
  obtain ⟨regs₁, e₁, d₁, h₁, hm₁, hres, hcalls, hw₁⟩ := Echo.ends_line RegisterFile.zero "x"
  obtain ⟨regs₂, e₂, d₂, h₂, -, -, -, hw₂⟩ := Echo.ends_line regs₁ "y"
  obtain ⟨m', hm', h⟩ := (resume_exactly_once (boot_wellFormed hb) rfl).2 ["x"] ["y"] _ _ h₁
    ⟨_, hres, trivial⟩
  obtain rfl : Echo.machine 0 regs₁ [] = m' := by
    have hrestarted : e₁.machine.restarted = Echo.machine 0 regs₁ [] := by
      rw [hm₁]
      rfl
    rw [← hrestarted]
    exact Except.ok.inj ((h₁.restore_restarted (boot_wellFormed hb)).symm.trans hm')
  replace hw₁ : d₁.written = #[120, 10] := Array.ext' hw₁
  replace hw₂ : d₂.written = #[121, 10] := Array.ext' hw₂
  rw [hw₁] at h
  have hall := (h ⟨e₂.machine, e₂.result, e₁.calls.dropLast ++ e₂.calls⟩
    ⟨d₂.lines, #[120, 10] ++ d₂.written⟩).2 ⟨e₂, d₂, h₂, rfl, rfl, rfl, rfl, rfl⟩
  exact ⟨_, _, _, _, hb, h₁, hres, hcalls, hm', h, _, _, hall, congrArg (#[120, 10] ++ ·) hw₂⟩

end FifteenBit.Machine
