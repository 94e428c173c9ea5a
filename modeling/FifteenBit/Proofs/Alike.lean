import FifteenBit.Proofs.Answers

/-! Consoles are alike if they answer all uses alike. A console can answer as another one
did for a while, and then be like a third one. -/

namespace FifteenBit.Console

variable {σ τ : Type} [Console σ] [Console τ]

theorem answers_wrote_cons {c d : σ} {code : Word} {calls : List Call} :
    Answers c (.wrote code :: calls) d ↔
      (Console.write c code).1 = .ok () ∧ Answers (Console.write c code).2 calls d := by
  constructor
  · intro h
    cases h with
    | wrote hw h => exact ⟨hw, h⟩
  · rintro ⟨hw, h⟩
    exact .wrote hw h

theorem answers_refused_cons {c d : σ} {code : Word} {reason : String} {calls : List Call} :
    Answers c (.refused code reason :: calls) d ↔
      (Console.write c code).1 = .error reason ∧ Answers (Console.write c code).2 calls d := by
  constructor
  · intro h
    cases h with
    | refused hw h => exact ⟨hw, h⟩
  · rintro ⟨hw, h⟩
    exact .refused hw h

theorem Answers.append {c d d' : σ} {calls calls' : List Call} (h : Answers c calls d)
    (h' : Answers d calls' d') : Answers c (calls ++ calls') d' := by
  induction h with
  | nil => exact h'
  | read _ ih => exact .read (ih h')
  | wrote hw _ ih => exact .wrote hw (ih h')
  | refused hw _ ih => exact .refused hw (ih h')

theorem Answers.of_append {c d : σ} {calls calls' : List Call}
    (h : Answers c (calls ++ calls') d) : ∃ c', Answers c calls c' ∧ Answers c' calls' d := by
  induction calls generalizing c with
  | nil => exact ⟨c, .nil c, h⟩
  | cons call calls ih =>
    rw [List.cons_append] at h
    cases h with
    | read h =>
      obtain ⟨c', hc, hd⟩ := ih h
      exact ⟨c', .read hc, hd⟩
    | wrote hw h =>
      obtain ⟨c', hc, hd⟩ := ih h
      exact ⟨c', .wrote hw hc, hd⟩
    | refused hw h =>
      obtain ⟨c', hc, hd⟩ := ih h
      exact ⟨c', .refused hw hc, hd⟩

def Alike (c : σ) (d : τ) : Prop :=
  ∀ calls, (∃ c', Answers c calls c') ↔ ∃ d', Answers d calls d'

theorem Alike.symm {c : σ} {d : τ} (h : Alike c d) : Alike d c :=
  fun calls => (h calls).symm

theorem Alike.answers {c c' : σ} {d : τ} {calls : List Call} (h : Alike c d)
    (hc : Answers c calls c') : ∃ d', Answers d calls d' ∧ Alike c' d' := by
  obtain ⟨d', hd⟩ := (h calls).1 ⟨c', hc⟩
  refine ⟨d', hd, fun later => ?_⟩
  constructor
  · rintro ⟨c'', hc''⟩
    obtain ⟨d'', hd''⟩ := (h _).1 ⟨c'', hc.append hc''⟩
    obtain ⟨e, he, hl⟩ := hd''.of_append
    rw [hd.unique he]
    exact ⟨d'', hl⟩
  · rintro ⟨d'', hd''⟩
    obtain ⟨c'', hc''⟩ := (h _).2 ⟨d'', hd.append hd''⟩
    obtain ⟨e, he, hl⟩ := hc''.of_append
    rw [hc.unique he]
    exact ⟨c'', hl⟩

/-- All uses of two related consoles have the same answers and keep up the relation. -/
structure Keeps (R : σ → τ → Prop) : Prop where
  read : ∀ {c d}, R c d → (Console.read c).1 = (Console.read d).1 ∧
    R (Console.read c).2 (Console.read d).2
  write : ∀ {c d}, R c d → ∀ code, (Console.write c code).1 = (Console.write d code).1 ∧
    R (Console.write c code).2 (Console.write d code).2

variable {R : σ → τ → Prop}

theorem Keeps.flip (h : Keeps R) : Keeps fun d c => R c d where
  read hr := (h.read hr).imp Eq.symm id
  write hr code := (h.write hr code).imp Eq.symm id

theorem Keeps.answers (hk : Keeps R) {c c' : σ} {d : τ} {calls : List Call} (h : R c d)
    (hc : Answers c calls c') : ∃ d', Answers d calls d' ∧ R c' d' := by
  induction hc generalizing d with
  | nil => exact ⟨d, .nil d, h⟩
  | read _ ih =>
    obtain ⟨he, hr⟩ := hk.read h
    obtain ⟨d', hd, hr'⟩ := ih hr
    exact ⟨d', answers_read_cons.2 ⟨he.symm, hd⟩, hr'⟩
  | wrote hw _ ih =>
    obtain ⟨he, hr⟩ := hk.write h _
    obtain ⟨d', hd, hr'⟩ := ih hr
    exact ⟨d', .wrote (he.symm.trans hw) hd, hr'⟩
  | refused hw _ ih =>
    obtain ⟨he, hr⟩ := hk.write h _
    obtain ⟨d', hd, hr'⟩ := ih hr
    exact ⟨d', .refused (he.symm.trans hw) hd, hr'⟩

theorem Keeps.alike (hk : Keeps R) {c : σ} {d : τ} (h : R c d) : Alike c d := by
  intro calls
  constructor
  · rintro ⟨c', hc⟩
    obtain ⟨d', hd, _⟩ := hk.answers h hc
    exact ⟨d', hd⟩
  · rintro ⟨d', hd⟩
    obtain ⟨c', hc, _⟩ := hk.flip.answers h hd
    exact ⟨c', hc⟩

/-- The first console answers the calls as they are recorded, and then like the second one. -/
def AnswersThen (c : σ) (calls : List Call) (d : τ) : Prop :=
  ∃ c', Answers c calls c' ∧ Alike c' d

theorem AnswersThen.of_append {c : σ} {calls calls' : List Call} {d : τ}
    (h : AnswersThen c (calls ++ calls') d) :
    ∃ c', Answers c calls c' ∧ AnswersThen c' calls' d := by
  obtain ⟨e, he, h⟩ := h
  obtain ⟨c', hc, hl⟩ := he.of_append
  exact ⟨c', hc, e, hl, h⟩

section Refill

theorem refill_of_line {c d : σ} {code : Word} {rest : List Word}
    (h : Console.read c = (.line (code :: rest), d)) :
    refill c = (.codes code rest, [.line (code :: rest)], d) := by
  rw [refill]
  split <;> simp_all

theorem refill_of_endOfInput {c d : σ} (h : Console.read c = (.endOfInput, d)) :
    refill c = (.endOfInput, [.endOfInput], d) := by
  rw [refill]
  split <;> simp_all

theorem refill_of_failed {c d : σ} {reason : String}
    (h : Console.read c = (.failed reason, d)) :
    refill c = (.failed reason, [.failed reason], d) := by
  rw [refill]
  split <;> simp_all

theorem refill_of_blank {c d : σ} (h : Console.read c = (.line [], d)) :
    refill c = ((refill d).1, .line [] :: (refill d).2.1, (refill d).2.2) := by
  rw [refill]
  split <;> simp_all

theorem refill_of_blanks {c d : σ} {n : Nat}
    (h : Answers c (Call.blanks n) d) :
    refill c =
      ((refill d).1, List.replicate n (.line []) ++ (refill d).2.1, (refill d).2.2) := by
  induction n generalizing c with
  | zero =>
    cases h
    rfl
  | succ n ih =>
    obtain ⟨hr, h⟩ := answers_read_cons.1 h
    rw [refill_of_blank (Prod.ext hr rfl), ih h]
    rfl

theorem refill_of_answers {c : σ} {d d' : τ}
    (h : Answers d ((refill c).2.1.map .read) d') :
    refill d = ((refill c).1, (refill c).2.1, d') := by
  fun_induction refill c generalizing d with
  | case1 c first rest c' hc =>
    obtain ⟨hr, h⟩ := answers_read_cons.1 h
    cases h
    exact refill_of_line (Prod.ext hr rfl)
  | case2 c c' hc =>
    obtain ⟨hr, h⟩ := answers_read_cons.1 h
    cases h
    exact refill_of_endOfInput (Prod.ext hr rfl)
  | case3 c reason c' hc =>
    obtain ⟨hr, h⟩ := answers_read_cons.1 h
    cases h
    exact refill_of_failed (Prod.ext hr rfl)
  | case4 c c' hc hlt supply readings c'' hr ih =>
    obtain ⟨hd, h⟩ := answers_read_cons.1 h
    rw [hr] at ih
    rw [refill_of_blank (Prod.ext hd rfl), ih h]

end Refill

end FifteenBit.Console
