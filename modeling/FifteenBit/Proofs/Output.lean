import FifteenBit.Proofs.InputStream
import FifteenBit.Proofs.Interruption
import FifteenBit.Proofs.StandardInput

/-! What a program writes. Only values are written, and a value is the code of a character. So the
text that a console shows tells which codes were written, whichever of the consoles it is. -/

namespace FifteenBit

/-- The code that a console is asked to write, whether it does so or not. -/
def Call.offered? : Call → Option Word
  | .wrote code | .refused code _ => some code
  | .read _ => none

theorem Call.offered?_of_written? {call : Call} {code : Word} (h : call.written? = some code) :
    call.offered? = some code := by
  cases call with
  | wrote => exact h
  | read | refused => cases h

namespace Line

/-- Values lie below the surrogates. -/
theorem character?_of_lt {code : Word} (h : code < 32768) :
    ∃ ch, character? code = some ch ∧ ch.toNat = code.toNat := by
  have hlt : code.toNat < 32768 := UInt16.lt_iff_toNat_lt.1 h
  have hvalid : code.toUInt32.isValidChar := by
    left
    rw [UInt16.toNat_toUInt32]
    omega
  exact ⟨⟨code.toUInt32, hvalid⟩, dif_pos hvalid, UInt16.toNat_toUInt32 code⟩

theorem toNat_character {code : Word} (h : code < 32768) :
    (character code).toNat = code.toNat := by
  obtain ⟨ch, hch, hn⟩ := character?_of_lt h
  rw [character, hch]
  exact hn

section Shown

variable {codes codes' : List Word}

theorem map_toNat_character (h : ∀ code ∈ codes, code < 32768) :
    (codes.map character).map Char.toNat = codes.map UInt16.toNat := by
  rw [List.map_map]
  exact List.map_congr_left fun code hm => toNat_character (h code hm)

theorem replacement_not_shown (h : ∀ code ∈ codes, code < 32768) :
    '\uFFFD' ∉ codes.map character := by
  intro hmem
  obtain ⟨code, hm, hch⟩ := List.mem_map.1 hmem
  have hlt : code.toNat < 32768 := UInt16.lt_iff_toNat_lt.1 (h code hm)
  rw [← toNat_character (h code hm), hch] at hlt
  exact absurd hlt (by decide)

theorem map_character_inj (h : ∀ code ∈ codes, code < 32768) (h' : ∀ code ∈ codes', code < 32768) :
    codes.map character = codes'.map character ↔ codes = codes' := by
  constructor
  · intro he
    have hn := congrArg (List.map Char.toNat) he
    rw [map_toNat_character h, map_toNat_character h'] at hn
    exact (List.map_inj_right fun _ _ => UInt16.toNat_inj.1).1 hn
  · rintro rfl
    rfl

end Shown

end Line

theorem Recorder.written_of_answers {c d : Recorder} {calls : List Call}
    (h : Console.Answers c calls d) :
    d.written.toList = c.written.toList ++ calls.filterMap Call.written? := by
  induction h with
  | nil => simp
  | @read c d calls _ ih =>
    have hkept : (Recorder.read c).2.written = c.written := by
      unfold Recorder.read
      split <;> rfl
    exact ih.trans (by rw [← hkept]; rfl)
  | @wrote c d code calls _ _ ih =>
    have hpushed : (c.written.push code).toList = c.written.toList ++ [code] := Array.toList_push ..
    refine ih.trans ?_
    show (c.written.push code).toList ++ _ = _
    rw [hpushed, List.append_assoc]
    rfl
  | refused hw => cases hw

theorem Recorder.text_of_answers {c d : Recorder} {calls : List Call}
    (h : Console.Answers c calls d) : d.text.toList =
      c.text.toList ++ (calls.filterMap Call.written?).map Line.character := by
  rw [text, text, String.toList_ofList, String.toList_ofList, written_of_answers h, List.map_append]

theorem Stream.emitted_of_answers {c d : Stream} {calls : List Call}
    (h : Console.Answers c calls d) : d.emitted.toList =
      c.emitted.toList ++ utf8 ((calls.filterMap Call.written?).map Line.character) := by
  induction h with
  | nil => simp [utf8]
  | @read c d calls _ ih =>
    have hkept : (Stream.read c).2.emitted = c.emitted := by
      unfold Stream.read
      split
      · rfl
      · split
        split <;> rfl
    exact ih.trans (by rw [← hkept]; rfl)
  | @wrote c d code calls _ _ ih =>
    have happended : (c.emitted ++ String.utf8EncodeChar (Line.character code)).toList =
        c.emitted.toList ++ String.utf8EncodeChar (Line.character code) := by simp
    refine ih.trans ?_
    show (c.emitted ++ String.utf8EncodeChar (Line.character code)).toList ++ _ = _
    rw [happended, List.append_assoc]
    rfl
  | refused hw => cases hw

namespace Machine

variable {σ τ : Type} [Console σ] [Console τ] {m : Machine} {c : σ} {d : τ}

/-- The codes that so many steps write. -/
def written (n : Nat) (m : Machine) (c : σ) : List Word :=
  (m.callsOf n c).filterMap Call.written?

section Offered

theorem Performs.offered_lt {next : UInt64} {e : Effect} {s : Step σ} (h : m.Performs c next e s)
    (he : e.Bounded) {call : Call} (hm : call ∈ s.calls) {code : Word}
    (hc : call.offered? = some code) : code < 32768 := by
  cases h with
  | wrote | refused =>
    obtain rfl := List.mem_singleton.1 hm
    cases hc
    exact he
  | line | exhausted | failed =>
    obtain ⟨reading, _, rfl⟩ := List.mem_map.1 hm
    cases hc
  | _ => cases hm

theorem WellFormed.offered_lt (hw : m.WellFormed) (c : σ) {call : Call}
    (hm : call ∈ (m.step c).calls) {code : Word} (hc : call.offered? = some code) :
    code < 32768 := by
  rcases refused_or_performed m c with ⟨_, _, hs⟩ | ⟨i, e, _, _, he, hs⟩
  · rw [hs] at hm
    cases hm
  · rw [hs] at hm
    exact (performs m c _ e).offered_lt (hw.effect_bounded he) hm hc

theorem WellFormed.callsOf_offered_lt (hw : m.WellFormed) {n : Nat} {call : Call}
    (hm : call ∈ m.callsOf n c) {code : Word} (hc : call.offered? = some code) : code < 32768 := by
  obtain ⟨k, _, hm⟩ := List.mem_flatMap.1 hm
  exact (after_wellFormed hw k c).offered_lt _ hm hc

theorem WellFormed.written_lt (hw : m.WellFormed) {n : Nat} :
    ∀ code ∈ m.written n c, code < 32768 := by
  intro code hm
  obtain ⟨call, hm, hc⟩ := List.mem_filterMap.1 hm
  exact hw.callsOf_offered_lt hm (Call.offered?_of_written? hc)

end Offered

section Runs

theorem after_answers (n : Nat) (m : Machine) (c : σ) :
    Console.Answers c (m.callsOf n c) (m.after n c).2 := by
  induction n with
  | zero => exact .nil c
  | succ n ih =>
    rw [callsOf_succ]
    exact ih.append (step_answers _ _)

theorem callsOf_of_alike (h : Console.Alike c d) (n : Nat) : m.callsOf n d = m.callsOf n c := by
  have hcalls : (fun k => (m.nthStep k d).calls) = fun k => (m.nthStep k c).calls := by
    funext k
    obtain ⟨d', hd⟩ := nthStep_of_alike (m := m) h k
    rw [hd]
    rfl
  rw [callsOf, hcalls, callsOf]

theorem after_step (n : Nat) (m : Machine) (c : σ) :
    m.after (n + 1) c = (m.step c).machine.after n (m.step c).console := by
  induction n with
  | zero => rfl
  | succ n ih => rw [after_succ, nthStep, ih, after_succ, nthStep]

theorem nthStep_succ (n : Nat) (m : Machine) (c : σ) :
    m.nthStep (n + 1) c = (m.step c).machine.nthStep n (m.step c).console := by
  rw [nthStep, after_step, nthStep]

theorem flatMap_nthStep {α : Type} (f : Step σ → List α) (n : Nat) (m : Machine) (c : σ) :
    (List.range (n + 1)).flatMap (fun k => f (m.nthStep k c)) = f (m.step c) ++
      (List.range n).flatMap fun k => f ((m.step c).machine.nthStep k (m.step c).console) := by
  rw [List.range_succ_eq_map, List.flatMap_cons, List.flatMap_map]
  simp only [Nat.succ_eq_add_one, nthStep_succ]
  rfl

theorem callsOf_step (n : Nat) (m : Machine) (c : σ) : m.callsOf (n + 1) c =
    (m.step c).calls ++ (m.step c).machine.callsOf n (m.step c).console :=
  flatMap_nthStep Step.calls n m c

/-- A run to the end is so many steps. -/
theorem Ends.exists_after {e : Ending} {c' : σ} (h : m.Ends c e c') :
    ∃ n, m.after n c = (e.machine, c') ∧ m.callsOf n c = e.calls := by
  induction h using Ends.induction with
  | stopped m c result ho =>
    refine ⟨1, rfl, ?_⟩
    rw [callsOf_step]
    exact List.append_nil _
  | running m c e c' ho _ ih =>
    obtain ⟨n, hafter, hcalls⟩ := ih
    refine ⟨n + 1, ?_, ?_⟩
    · rw [after_step, hafter]
      rfl
    · rw [callsOf_step, hcalls]
      rfl

end Runs

section Consoles

theorem recorder_written (n : Nat) (m : Machine) (c : Recorder) :
    (m.after n c).2.written.toList = c.written.toList ++ m.written n c :=
  Recorder.written_of_answers (m.after_answers n c)

theorem recorder_text (n : Nat) (m : Machine) (c : Recorder) :
    (m.after n c).2.text.toList = c.text.toList ++ (m.written n c).map Line.character :=
  Recorder.text_of_answers (m.after_answers n c)

theorem stream_emitted (n : Nat) (m : Machine) (d : Stream) : (m.after n d).2.emitted.toList =
    d.emitted.toList ++ Stream.utf8 ((m.written n d).map Line.character) :=
  Stream.emitted_of_answers (m.after_answers n d)

theorem stream_emits_text {c : Recorder} {d : Stream} (h : Console.Alike c d)
    (he : d.emitted.toList = c.text.toUTF8.toList) (n : Nat) :
    (m.after n d).2.emitted.toList = (m.after n c).2.text.toUTF8.toList := by
  have hwritten : m.written n d = m.written n c := by rw [written, callsOf_of_alike h, written]
  rw [stream_emitted, he, hwritten, Stream.toList_toUTF8, Stream.toList_toUTF8, recorder_text,
    Stream.utf8_append]

/-- A well-formed machine writes only values, on any console and in any run. In memory the text of
a console is that of the codes, one character for each, and tells them apart; on a stream it is
the same text in UTF-8. -/
theorem output_lossless (hm : m.WellFormed) :
    (∀ {σ : Type} [Console σ] (c : σ),
      (∀ n, ∀ call ∈ m.callsOf n c, ∀ code, call.offered? = some code →
        code < 32768 ∧ ∃ ch, Line.character? code = some ch ∧ ch.toNat = code.toNat) ∧
      ∀ e c', m.Ends c e c' → ∃ n, m.after n c = (e.machine, c') ∧ m.callsOf n c = e.calls) ∧
    (∀ (c : Recorder) (n : Nat),
      (m.after n c).2.written.toList = c.written.toList ++ m.written n c ∧
      ∃ shown, (m.after n c).2.text.toList = c.text.toList ++ shown ∧
        shown.map Char.toNat = (m.written n c).map UInt16.toNat ∧ '\uFFFD' ∉ shown) ∧
    (∀ (m' : Machine) (c c' : Recorder) (n n' : Nat), m'.WellFormed → c.text = c'.text →
      ((m.after n c).2.text = (m'.after n' c').2.text ↔ m.written n c = m'.written n' c')) ∧
    (∀ (d : Stream) (n : Nat), ∃ shown : String,
      (m.after n d).2.emitted.toList = d.emitted.toList ++ shown.toUTF8.toList ∧
      shown.toList.map Char.toNat = (m.written n d).map UInt16.toNat) ∧
    (∀ (c : Recorder) (d : Stream) (n : Nat), Console.Alike c d →
      d.emitted.toList = c.text.toUTF8.toList →
        (m.after n d).2.emitted.toList = (m.after n c).2.text.toUTF8.toList) ∧
    ∀ text : String,
      Console.Alike (Recorder.ofLines (Line.ofText text)) (Stream.ofInput text.toUTF8.toList) := by
  refine ⟨fun c => ⟨?_, fun e c' => Ends.exists_after⟩, ?_, ?_, ?_, ?_, ?_⟩
  · intro n call hcall code hc
    have hlt := hm.callsOf_offered_lt hcall hc
    exact ⟨hlt, Line.character?_of_lt hlt⟩
  · intro c n
    exact ⟨recorder_written n m c, _, recorder_text n m c, Line.map_toNat_character hm.written_lt,
      Line.replacement_not_shown hm.written_lt⟩
  · intro m' c c' n n' hm' htext
    rw [← String.toList_inj, recorder_text, recorder_text, htext, List.append_cancel_left_eq]
    exact Line.map_character_inj hm.written_lt hm'.written_lt
  · intro d n
    refine ⟨String.ofList ((m.written n d).map Line.character), ?_, ?_⟩
    · rw [stream_emitted, Stream.toList_toUTF8, String.toList_ofList]
    · rw [String.toList_ofList]
      exact Line.map_toNat_character hm.written_lt
  · intro c d n halike
    exact fun he => stream_emits_text halike he n
  · intro text
    exact Stream.mirrors_keeps.alike (Stream.mirrors_ofText text)

/-- What is read is a surrogate, and what is written is not. -/
theorem output_lossless_surrogate :
    ∃ m : Machine, (boot [20, 32768, 19, 32768] .wrap).result = .ok m ∧
      (after 2 { m with pending := [55357, 56832] } (Recorder.ofLines [])).2.text.toList.map
        Char.toNat = [22589] := by
  obtain ⟨m, hb, hwritten⟩ : ∃ m : Machine, (boot [20, 32768, 19, 32768] .wrap).result = .ok m ∧
      written 2 { m with pending := [55357, 56832] } (Recorder.ofLines []) = [22589] :=
    ⟨_, rfl, rfl⟩
  have hm : ({ m with pending := [55357, 56832] } : Machine).WellFormed :=
    (boot_wellFormed hb).of_eq rfl rfl
  obtain ⟨_, shown, htext, hshown, _⟩ := (output_lossless hm).2.1 (Recorder.ofLines []) 2
  refine ⟨m, hb, ?_⟩
  rw [htext, List.map_append, hshown, hwritten]
  rfl

end Consoles

end Machine

end FifteenBit
