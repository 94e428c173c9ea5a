import FifteenBit.Console.Recorder
import FifteenBit.Proofs.StepAnswers
import Mathlib.Data.List.DropRight

/-! The codes of a line. They are those of its text up to the last character that is no terminator,
and a line feed; the text can be read back from them. So lines that differ in nothing but the
terminators at their ends are the same to every program. -/

namespace FifteenBit

namespace Line

def Terminators (t : List Char) : Prop :=
  ∀ c ∈ t, isTerminator c = true

/-- The last character, if there is one, is no terminator. -/
def EndsPlainly (cs : List Char) : Prop :=
  ∀ c ∈ cs.getLast?, isTerminator c = false

section Trim

variable {cs ds p q t : List Char}

theorem trim_append (ht : Terminators t) (p : List Char) : trim (p ++ t) = trim p := by
  have hreverse : ∀ c ∈ t.reverse, isTerminator c = true :=
    fun c hc => ht c (List.mem_reverse.1 hc)
  rw [trim, trim, List.reverse_append, List.dropWhile_append_of_pos hreverse]

theorem trim_of_endsPlainly (h : EndsPlainly p) : trim p = p := by
  refine List.rdropWhile_eq_self_iff.2 fun hn => ?_
  simp [h _ (List.getLast?_eq_some_getLast hn)]

theorem endsPlainly_trim (cs : List Char) : EndsPlainly (trim cs) := by
  intro c hc
  have hn : trim cs ≠ [] := by
    intro he
    rw [he] at hc
    cases hc
  rw [List.getLast?_eq_some_getLast hn] at hc
  obtain rfl := Option.some.inj hc
  exact Bool.eq_false_iff.2 (List.rdropWhile_last_not isTerminator cs hn)

theorem exists_terminators (cs : List Char) : ∃ t, Terminators t ∧ cs = trim cs ++ t :=
  ⟨cs.rtakeWhile isTerminator, fun _ => List.mem_rtakeWhile_imp,
    (List.rdropWhile_append_rtakeWhile ..).symm⟩

/-- No longer prefix ends plainly. -/
theorem prefix_trim (hq : q <+: cs) (h : EndsPlainly q) : q <+: trim cs := by
  obtain ⟨t, ht, hcs⟩ := exists_terminators cs
  have hp : trim cs <+: cs := ⟨t, hcs.symm⟩
  rcases List.prefix_or_prefix_of_prefix hq hp with hle | ⟨u, rfl⟩
  · exact hle
  · -- What is longer ends inside the terminators that are cut off.
    have hq : trim cs ++ u <+: trim cs ++ t := by rwa [← hcs]
    rw [List.prefix_append_right_inj] at hq
    have hu : Terminators u := fun c hc => ht c (hq.subset hc)
    have he : trim cs ++ u = trim cs := by
      calc trim cs ++ u = trim (trim cs ++ u) := (trim_of_endsPlainly h).symm
        _ = trim (trim cs) := trim_append hu _
        _ = trim cs := trim_of_endsPlainly (endsPlainly_trim cs)
    exact ⟨[], (List.append_nil _).trans he⟩

theorem trim_eq_iff : trim cs = trim ds ↔
    ∃ p t u, Terminators t ∧ Terminators u ∧ cs = p ++ t ∧ ds = p ++ u := by
  constructor
  · intro h
    obtain ⟨t, ht, hcs⟩ := exists_terminators cs
    obtain ⟨u, hu, hds⟩ := exists_terminators ds
    rw [← h] at hds
    exact ⟨trim cs, t, u, ht, hu, hcs, hds⟩
  · rintro ⟨p, t, u, ht, hu, rfl, rfl⟩
    rw [trim_append ht, trim_append hu]

end Trim

section Units

variable {c : Char} {cs ds : List Char} {us : List Word}

/-- The character of two surrogates. -/
def pair? (high low : Word) : Option Char :=
  if 0xD800 ≤ high ∧ high < 0xDC00 ∧ 0xDC00 ≤ low ∧ low < 0xE000 then
    some (Char.ofNat (0x10000 + (high.toNat - 0xD800) * 0x400 + (low.toNat - 0xDC00)))
  else none

/-- The text in UTF-16, if it is one. -/
def ofUnits? : List Word → Option (List Char)
  | [] => some []
  | [u] => (character? u).map fun c => [c]
  | u :: v :: us =>
    match character? u with
    | some c => (ofUnits? (v :: us)).map (c :: ·)
    | none => (pair? u v).bind fun c => (ofUnits? us).map (c :: ·)

theorem ofUnits?_of_character {u : Word} (h : character? u = some c) (us : List Word) :
    ofUnits? (u :: us) = (ofUnits? us).map (c :: ·) := by
  cases us with
  | nil => simp [ofUnits?, h]
  | cons v us => simp [ofUnits?, h]

theorem ofUnits?_of_pair {u v : Word} (hu : character? u = none) (h : pair? u v = some c)
    (us : List Word) : ofUnits? (u :: v :: us) = (ofUnits? us).map (c :: ·) := by
  simp [ofUnits?, hu, h]

/-- A character has one unit, its number, or two surrogates that make up the number. -/
theorem units_cases (c : Char) :
    (∃ w : Word, units c = [w] ∧ w.toNat = c.toNat) ∨
    ∃ (high low : Word) (i j : Nat), units c = [high, low] ∧ i < 0x400 ∧ j < 0x400 ∧
      high.toNat = 0xD800 + i ∧ low.toNat = 0xDC00 + j ∧
      c.toNat = 0x10000 + i * 0x400 + j := by
  by_cases hc : c.toNat < 0x10000
  · refine .inl ⟨c.toNat.toUInt16, ?_, ?_⟩
    · rw [units, if_pos hc]
    · simpa using Nat.mod_eq_of_lt hc
  · have hvalid : c.toNat < 0xD800 ∨ 0xDFFF < c.toNat ∧ c.toNat < 0x110000 := c.valid
    have hsurrogate (base n : Nat) (hb : base ≤ 0xDC00) (hn : n < 0x400) :
        (base + n).toUInt16.toNat = base + n := by
      simp
      omega
    refine .inr ⟨_, _, (c.toNat - 0x10000) / 0x400, (c.toNat - 0x10000) % 0x400, ?_, ?_, ?_,
      hsurrogate 0xD800 _ ?_ ?_, hsurrogate 0xDC00 _ ?_ ?_, ?_⟩
    · rw [units, if_neg hc]
    all_goals omega

theorem character?_of_toNat {w : Word} (h : w.toNat = c.toNat) : character? w = some c := by
  have hcode : w.toUInt32 = c.val := UInt32.toNat_inj.1 h
  rw [character?]
  simp only [hcode]
  exact dif_pos c.valid

theorem character?_of_surrogate {w : Word} (h : 0xD800 ≤ w.toNat) (h' : w.toNat < 0xE000) :
    character? w = none := by
  refine dif_neg ?_
  simp only [UInt32.isValidChar, Nat.isValidChar, UInt16.toNat_toUInt32]
  omega

theorem pair?_of_surrogates {high low : Word} {i j : Nat} (hi : i < 0x400) (hj : j < 0x400)
    (hhigh : high.toNat = 0xD800 + i) (hlow : low.toNat = 0xDC00 + j)
    (hc : c.toNat = 0x10000 + i * 0x400 + j) : pair? high low = some c := by
  have hbounds : 0xD800 ≤ high ∧ high < 0xDC00 ∧ 0xDC00 ≤ low ∧ low < 0xE000 := by
    simp only [UInt16.le_iff_toNat_le, UInt16.lt_iff_toNat_lt, UInt16.reduceToNat]
    omega
  rw [pair?, if_pos hbounds, hhigh, hlow, Nat.add_sub_cancel_left, Nat.add_sub_cancel_left, ← hc,
    Char.ofNat_toNat]

theorem ofUnits?_units (c : Char) (us : List Word) :
    ofUnits? (units c ++ us) = (ofUnits? us).map (c :: ·) := by
  rcases units_cases c with ⟨w, hu, hw⟩ | ⟨high, low, i, j, hu, hi, hj, hhigh, hlow, hc⟩
  · rw [hu]
    exact ofUnits?_of_character (character?_of_toNat hw) us
  · have hnone : character? high = none := character?_of_surrogate (by omega) (by omega)
    rw [hu]
    exact ofUnits?_of_pair hnone (pair?_of_surrogates hi hj hhigh hlow hc) us

theorem ofUnits?_flatMap (cs : List Char) : ofUnits? (cs.flatMap units) = some cs := by
  induction cs with
  | nil => rfl
  | cons c cs ih => rw [List.flatMap_cons, ofUnits?_units, ih, Option.map_some]

theorem flatMap_units_inj (h : cs.flatMap units = ds.flatMap units) : cs = ds := by
  rw [← Option.some_inj, ← ofUnits?_flatMap, h, ofUnits?_flatMap]

/-- A character that is no terminator has no unit of one. -/
theorem ne_of_mem_units (hc : isTerminator c = false) {w : Word} (hw : w ∈ units c) :
    w ≠ 10 ∧ w ≠ 13 := by
  have hcodes : '\n'.toNat = 10 ∧ '\r'.toNat = 13 := ⟨rfl, rfl⟩
  simp only [isTerminator, Bool.or_eq_false_iff, beq_eq_false_iff_ne, ne_eq,
    ← Char.toNat_inj] at hc
  simp only [ne_eq, ← UInt16.toNat_inj, UInt16.reduceToNat]
  rcases units_cases c with ⟨v, hu, hv⟩ | ⟨high, low, i, j, hu, hi, hj, hhigh, hlow, -⟩
  · rw [hu, List.mem_singleton] at hw
    subst hw
    omega
  · rw [hu, List.mem_pair] at hw
    rcases hw with rfl | rfl <;> omega

end Units

section Codes

variable {cs : List Char}

theorem codes_eq (s : String) : codes s = (trim s.toList ++ ['\n']).flatMap units := by
  rw [List.flatMap_append]
  rfl

theorem codes_eq_iff {s s' : String} : codes s = codes s' ↔ trim s.toList = trim s'.toList := by
  constructor
  · intro h
    rw [codes_eq, codes_eq] at h
    exact List.append_cancel_right (flatMap_units_inj h)
  · intro h
    rw [codes_eq, codes_eq, h]

theorem codes_append {t : String} (ht : Terminators t.toList) (s : String) :
    codes (s ++ t) = codes s := by
  rw [codes_eq_iff, String.toList_append, trim_append ht]

theorem last_before_newline (s : String) :
    ∀ w ∈ ((trim s.toList).flatMap units).getLast?, w ≠ 10 ∧ w ≠ 13 := by
  intro w hw
  have hplain := endsPlainly_trim s.toList
  rcases List.eq_nil_or_concat' (trim s.toList) with hnil | ⟨cs, c, hcs⟩
  · rw [hnil] at hw
    cases hw
  · have hc : isTerminator c = false := hplain c (by simp [hcs])
    have hunits : units c ≠ [] := by
      rcases units_cases c with ⟨w, hu, -⟩ | ⟨high, low, i, j, hu, -⟩ <;> simp [hu]
    rw [hcs, List.flatMap_append, List.flatMap_singleton, List.getLast?_append_of_ne_nil _ hunits]
      at hw
    exact ne_of_mem_units hc (List.mem_of_getLast? hw)

end Codes

end Line

namespace Recorder

open Line (codes)

/-- The consoles are read as the same codes from now on, and the same has been written to them. -/
structure SameInput (c d : Recorder) : Prop where
  lines : c.lines.map codes = d.lines.map codes
  written : c.written = d.written

variable {c d : Recorder} {s t : String}

theorem SameInput.refl (c : Recorder) : SameInput c c :=
  ⟨rfl, rfl⟩

theorem SameInput.addLine (h : SameInput c d) (hs : codes s = codes t) :
    SameInput (c.addLine s) (d.addLine t) where
  lines := by
    simp only [Recorder.addLine, List.map_append, h.lines, List.map_cons, hs, List.map_nil]
  written := h.written

theorem SameInput.read (h : SameInput c d) :
    (Recorder.read c).1 = (Recorder.read d).1 ∧ SameInput (Recorder.read c).2 (Recorder.read d).2 := by
  have hlines := h.lines
  cases hc : c.lines with
  | nil =>
    cases hd : d.lines with
    | nil =>
      rw [Recorder.read, Recorder.read, hc, hd]
      exact ⟨rfl, h⟩
    | cons line lines => simp [hc, hd] at hlines
  | cons line lines =>
    cases hd : d.lines with
    | nil => simp [hc, hd] at hlines
    | cons line' lines' =>
      rw [hc, hd, List.map_cons, List.map_cons] at hlines
      obtain ⟨hline, hlines⟩ := List.cons.inj hlines
      rw [Recorder.read, Recorder.read, hc, hd]
      exact ⟨congrArg Reading.line hline, hlines, h.written⟩

theorem sameInput_keeps : Console.Keeps SameInput where
  read := SameInput.read
  write h code := ⟨rfl, h.lines, congrArg (Array.push · code) h.written⟩

/-- A program takes a step, or its console is given a line. -/
inductive Act where
  | step
  | line (text : String)

def act (p : Machine × Recorder) : Act → Machine × Recorder
  | .step => ((p.1.step p.2).machine, (p.1.step p.2).console)
  | .line text => (p.1, p.2.addLine text)

def played (acts : List Act) (m : Machine) (c : Recorder) : Machine × Recorder :=
  acts.foldl act (m, c)

/-- The step that comes after what has happened. -/
def nextStep (acts : List Act) (m : Machine) (c : Recorder) : Step Recorder :=
  (played acts m c).1.step (played acts m c).2

theorem act_sameInput (h : SameInput c d) (m : Machine) (a : Act) :
    (act (m, d) a).1 = (act (m, c) a).1 ∧ SameInput (act (m, c) a).2 (act (m, d) a).2 := by
  cases a with
  | step =>
    obtain ⟨d', hd, hsame⟩ := Machine.step_of_keeps (m := m) sameInput_keeps h
    rw [act, act, hd]
    exact ⟨rfl, hsame⟩
  | line text => exact ⟨rfl, h.addLine rfl⟩

theorem played_sameInput (h : SameInput c d) (acts : List Act) (m : Machine) :
    (played acts m d).1 = (played acts m c).1 ∧
      SameInput (played acts m c).2 (played acts m d).2 := by
  induction acts generalizing m c d with
  | nil => exact ⟨rfl, h⟩
  | cons a acts ih =>
    obtain ⟨hm, hsame⟩ := act_sameInput h m a
    have hrest := ih hsame (act (m, c) a).1
    simp only [played, List.foldl_cons] at hrest ⊢
    rw [← Prod.eta (act (m, d) a), hm]
    exact hrest

theorem nextStep_sameInput (h : SameInput c d) (acts : List Act) (m : Machine) :
    ∃ d', nextStep acts m d = (nextStep acts m c).on d' ∧
      (nextStep acts m c).console.written = d'.written := by
  obtain ⟨hm, hsame⟩ := played_sameInput h acts m
  obtain ⟨d', hd, hsame'⟩ :=
    Machine.step_of_keeps (m := (played acts m c).1) sameInput_keeps hsame
  refine ⟨d', ?_, hsame'.written⟩
  rw [nextStep, hm, hd]
  rfl

end Recorder

namespace Line

/-- A line is read as the units of its longest prefix that does not end in a terminator, and a line
feed. Its terminators are all that cannot be told from the codes; so no program notices which of
them it had. -/
theorem lines_normalized (s : String) :
    (∀ (c : Recorder) (lines : List String), c.lines = s :: lines →
      Console.read c = (.line (codes s), { c with lines := lines })) ∧
    (∃ p, p <+: s.toList ∧ EndsPlainly p ∧
      (∀ q, q <+: s.toList → EndsPlainly q → q <+: p) ∧ codes s = p.flatMap units ++ [10] ∧
      ofUnits? (p.flatMap units) = some p ∧
      ∀ w ∈ (p.flatMap units).getLast?, w ≠ 10 ∧ w ≠ 13) ∧
    (∀ s', codes s = codes s' ↔ ∃ p t u, Terminators t ∧ Terminators u ∧
      s.toList = p ++ t ∧ s'.toList = p ++ u) ∧
    (∃ text, ofUnits? (codes s) = some text ∧ codes (String.ofList text) = codes s) ∧
    codes (s ++ "\n") = codes s ∧ codes (s ++ "\r\n") = codes s ∧
    ∀ s', codes s = codes s' → ∀ (acts : List Recorder.Act) (m : Machine) (c : Recorder), ∃ d,
      Recorder.nextStep acts m (c.addLine s') =
        (Recorder.nextStep acts m (c.addLine s)).on d ∧
      (Recorder.nextStep acts m (c.addLine s)).console.written = d.written := by
  refine ⟨?_, ?_, ?_, ?_, ?_, ?_, ?_⟩
  · intro c lines hc
    show Recorder.read c = _
    rw [Recorder.read, hc]
  · obtain ⟨t, -, hs⟩ := exists_terminators s.toList
    exact ⟨trim s.toList, ⟨t, hs.symm⟩, endsPlainly_trim _, fun _ => prefix_trim, rfl,
      ofUnits?_flatMap _, last_before_newline s⟩
  · intro s'
    rw [codes_eq_iff, trim_eq_iff]
  · refine ⟨trim s.toList ++ ['\n'], ?_, ?_⟩
    · rw [codes_eq, ofUnits?_flatMap]
    · have hnewline : Terminators ['\n'] := List.forall_mem_singleton.2 rfl
      rw [codes_eq_iff, String.toList_ofList, trim_append hnewline,
        trim_of_endsPlainly (endsPlainly_trim _)]
  · exact codes_append (List.all_eq_true.1 rfl) s
  · exact codes_append (List.all_eq_true.1 rfl) s
  · intro s' hs acts m c
    exact Recorder.nextStep_sameInput ((Recorder.SameInput.refl c).addLine hs) acts m

theorem lines_normalized_inside :
    codes "a\rb\n\r" = [97, 13, 98, 10] ∧ codes "a\rb\n\r" = codes "a\rb" ∧
      ∃ m, (Machine.boot [20, 32768] .strict).result = .ok m ∧
        ∃ d, m.step ((Recorder.ofLines []).addLine "go") =
          (m.step ((Recorder.ofLines []).addLine ("go" ++ "\r\n"))).on d := by
  obtain ⟨m, hb⟩ : ∃ m, (Machine.boot [20, 32768] .strict).result = .ok m := ⟨_, rfl⟩
  have hsame := ((lines_normalized "a\rb\n\r").2.2.1 "a\rb").2
    ⟨['a', '\r', 'b'], ['\n', '\r'], [], List.all_eq_true.1 rfl, List.all_eq_true.1 rfl, rfl, rfl⟩
  have hgo := (lines_normalized "go").2.2.2.2.2.1
  obtain ⟨d, hd, -⟩ :=
    (lines_normalized ("go" ++ "\r\n")).2.2.2.2.2.2 "go" hgo [] m (.ofLines [])
  exact ⟨by decide, hsame, m, hb, d, hd⟩

end Line

end FifteenBit
