import FifteenBit.Proofs.FaultCases
import FifteenBit.Proofs.StepAnswers

/-! Runs that the console breaks off. All but the last use of it was served, and on a
console that goes on otherwise the instruction comes out as if it had not been begun. -/

namespace FifteenBit

/-- The input has ended, or the console has failed. -/
def Fault.OfConsole : Fault → Prop
  | .inputExhausted _ | .console _ => True
  | _ => False

def Call.Served : Call → Prop
  | .read (.line _) | .wrote _ => True
  | _ => False

def Call.written? : Call → Option Word
  | .wrote code => some code
  | _ => none

def Ending.written (e : Ending) : List Word :=
  e.calls.filterMap Call.written?

def Ending.OfConsole (e : Ending) : Prop :=
  ∃ fault, e.result = .error fault ∧ fault.OfConsole

def Step.after {σ : Type} (s : Step σ) (calls : List Call) : Step σ :=
  { s with calls := calls ++ s.calls }

theorem Call.served_of_mem_blanks {n : Nat} {call : Call} (h : call ∈ blanks n) :
    call.Served := by
  rw [List.eq_of_mem_replicate h]
  trivial

theorem Call.written?_of_not_served {call : Call} (h : ¬ call.Served) : call.written? = none := by
  cases call with
  | wrote code => exact absurd trivial h
  | read reading => rfl
  | refused code reason => rfl

namespace Machine

theorem Rejects.not_ofConsole {m : Machine} {fault : Fault} (h : m.Rejects fault) :
    ¬ fault.OfConsole := by
  cases h <;> exact id

variable {σ τ υ : Type} [Console σ] [Console τ] [Console υ] {m : Machine} {c : σ} {next : UInt64}
  {e : Effect} {s : Step σ} {fault : Fault}

theorem Performs.served (h : m.Performs c next e s) (hs : s.result = .ok .running) :
    ∀ call ∈ s.calls, call.Served := by
  cases h with
  | wrote =>
    intro call hc
    rw [List.mem_singleton.1 hc]
    trivial
  | @line t x rest readings d _ hc =>
    intro call hm
    obtain ⟨n, hn⟩ := Console.refill_calls hc
    have hm : call ∈ readings.map Call.read := hm
    rw [hn] at hm
    rcases List.mem_append.1 hm with hm | hm
    · exact Call.served_of_mem_blanks hm
    · rw [List.mem_singleton.1 hm]
      trivial
  | halt | emptyReturn | underflow | refused | exhausted | failed => cases hs
  | _ => nofun

theorem Performs.calls_of_console (h : m.Performs c next e s) (hs : s.result = .error fault)
    (hf : fault.OfConsole) : ∃ n failing, s.calls = Call.blanks n ++ [failing] ∧ ¬ failing.Served ∧
      (n = 0 ∨ m.pending = [] ∧ ∃ t, e = .read t) := by
  cases h with
  | underflow =>
    cases hs
    cases hf
  | refused => exact ⟨0, _, rfl, id, .inl rfl⟩
  | exhausted hp hc =>
    obtain ⟨n, hn⟩ := Console.refill_calls hc
    exact ⟨n, _, hn, id, .inr ⟨hp, _, rfl⟩⟩
  | failed hp hc =>
    obtain ⟨n, hn⟩ := Console.refill_calls hc
    exact ⟨n, _, hn, id, .inr ⟨hp, _, rfl⟩⟩
  | _ => cases hs

theorem perform_after_blanks {t : Target} {n : Nat} {d : σ} (hp : m.pending = [])
    (h : Console.Answers c (Call.blanks n) d) :
    m.perform c next (.read t) = (m.perform d next (.read t)).after (Call.blanks n) := by
  have hr := Console.refill_of_blanks h
  rcases hd : Console.refill d with ⟨supply, readings, d'⟩
  rw [hd] at hr
  have hmap : (List.replicate n (Reading.line []) ++ readings).map Call.read =
      Call.blanks n ++ readings.map .read := by
    rw [List.map_append, List.map_replicate, Call.blanks]
  cases supply with
  | codes x rest | endOfInput | failed reason =>
    simp only [perform, hp, hr, hd, hmap]
    rfl

theorem performed_of_console (h : (m.step c).result = .error fault) (hf : fault.OfConsole) :
    ∃ i e, m.running = true ∧ m.fetch = .ok i ∧ (m.effect i).result = .ok e ∧
      ∃ n failing, (m.step c).calls = Call.blanks n ++ [failing] ∧ ¬ failing.Served ∧
        (n = 0 ∨ m.pending = [] ∧ ∃ t, e = .read t) := by
  rcases step_cases m c with ⟨_, hs⟩ | ⟨_, _, hfe, hs⟩ | ⟨_, _, _, _, he, hs⟩ |
    ⟨i, e, hr, hfe, he, hs⟩
  · rw [hs] at h
    cases h
    cases hf
  · rw [hs] at h
    cases h
    exact absurd hf (rejects_of_fetch hfe).not_ofConsole
  · rw [hs] at h
    cases h
    exact absurd hf (rejects_of_effect he).not_ofConsole
  · rw [hs] at h ⊢
    exact ⟨i, e, hr, hfe, he, (performs m c _ e).calls_of_console h hf⟩

/-- An instruction that the console makes fail comes to the same on a console that first
answers as this one did and then like another, as it does on that other console. -/
theorem step_again {u : υ} {d : τ} (h : (m.step c).result = .error fault) (hf : fault.OfConsole)
    (hu : Console.AnswersThen u (m.step c).calls.dropLast d) :
    ∃ u', m.step u = ((m.step d).on u').after (m.step c).calls.dropLast ∧
      Console.Alike (m.step d).console u' := by
  obtain ⟨i, e, hr, hfe, he, n, failing, hc, _, hor⟩ := performed_of_console h hf
  rw [hc, List.dropLast_concat] at hu ⊢
  obtain ⟨v, hv, hl⟩ := hu
  obtain ⟨u', hu', hl'⟩ := step_of_alike (m := m) hl.symm
  have hstep : m.step u = (m.step v).after (Call.blanks n) := by
    rcases hor with rfl | ⟨hp, t, rfl⟩
    · cases hv
      rfl
    · rw [step_of_effect hr hfe he u, step_of_effect hr hfe he v, perform_after_blanks hp hv]
      rfl
  rw [hstep, hu']
  exact ⟨u', rfl, hl'⟩

theorem step_served (h : (m.step c).result = .ok .running) :
    ∀ call ∈ (m.step c).calls, call.Served := by
  obtain ⟨i, e, _, _, _, hs⟩ := performed_of_ok h
  rw [hs] at h ⊢
  exact (performs m c _ e).served h

theorem Ends.calls_of_console {e : Ending} {d : σ} (h : m.Ends c e d) (hf : e.OfConsole) :
    ∃ served failing, e.calls = served ++ [failing] ∧ (∀ call ∈ served, call.Served) ∧
      ¬ failing.Served := by
  induction h using Ends.induction with
  | stopped m c result ho =>
    obtain ⟨fault, hr, hf⟩ := hf
    obtain rfl : result = .error fault := hr
    obtain ⟨_, _, _, _, _, n, failing, hc, hn, _⟩ :=
      performed_of_console (Step.outcome?_eq_error_iff.1 ho) hf
    exact ⟨_, _, hc, fun _ => Call.served_of_mem_blanks, hn⟩
  | running m c e d ho _ ih =>
    obtain ⟨served, failing, hc, hs, hn⟩ := ih hf
    refine ⟨(m.step c).calls ++ served, failing, ?_, ?_, hn⟩
    · rw [Ending.after, hc, List.append_assoc]
    · intro call hm
      rcases List.mem_append.1 hm with hm | hm
      · exact step_served (Step.outcome?_eq_none_iff.1 ho) call hm
      · exact hs call hm

end Machine

end FifteenBit
