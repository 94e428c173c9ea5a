import FifteenBit.Console.Recorder
import FifteenBit.Console.Stream
import FifteenBit.Proofs.Alike

/-! The streams of a session as a console in memory. If the input is a text in UTF-8, the lines
that are read from it are the pieces of the text up to a line feed each; what is written comes out
as the text that a console in memory has kept. -/

namespace FifteenBit

namespace Line

/-- A text cut after each line feed. -/
def cut : List Char → List (List Char)
  | [] => []
  | c :: cs =>
    if c = '\n' then [c] :: cut cs
    else match cut cs with
      | [] => [[c]]
      | line :: lines => (c :: line) :: lines

/-- The lines of a text, each with its line feed; the last one may have none. -/
def ofText (text : String) : List String :=
  (cut text.toList).map String.ofList

theorem flatten_cut (cs : List Char) : (cut cs).flatten = cs := by
  induction cs with
  | nil => rfl
  | cons c cs ih =>
    by_cases hc : c = '\n'
    · simp [cut, hc, ih]
    · cases h : cut cs with
      | nil =>
        rw [h] at ih
        simp [cut, hc, ← ih]
      | cons line lines =>
        rw [cut, if_neg hc, h]
        rw [h] at ih
        simpa using ih

example : cut ['a', '\n', '\n', 'b'] = [['a', '\n'], ['\n'], ['b']] := by decide

theorem cut_eq_nil_iff {cs : List Char} : cut cs = [] ↔ cs = [] := by
  constructor
  · intro h
    rw [← flatten_cut cs, h, List.flatten_nil]
  · rintro rfl
    rfl

end Line

namespace Stream

/-- The bytes of a text in UTF-8. -/
def utf8 (cs : List Char) : List UInt8 :=
  cs.flatMap String.utf8EncodeChar

theorem utf8_ne_nil {cs : List Char} (h : cs ≠ []) : utf8 cs ≠ [] := by
  obtain ⟨c, cs, rfl⟩ := List.exists_cons_of_ne_nil h
  simp [utf8, String.utf8EncodeChar_ne_nil]

theorem utf8_append (cs ds : List Char) : utf8 (cs ++ ds) = utf8 cs ++ utf8 ds :=
  List.flatMap_append

theorem toList_loop (bytes : ByteArray) (i : Nat) (taken : List UInt8) :
    ByteArray.toList.loop bytes i taken = taken.reverse ++ bytes.data.toList.drop i := by
  fun_induction ByteArray.toList.loop bytes i taken with
  | case1 i taken h ih =>
    have hi : i < bytes.data.toList.length := by simpa using h
    rw [ih, List.drop_eq_getElem_cons hi]
    simp [ByteArray.get!, h]
  | case2 i taken h =>
    have hi : bytes.data.toList.length ≤ i := by simpa using h
    rw [List.drop_eq_nil_of_le hi, List.append_nil]

theorem toList_toUTF8 (text : String) : text.toUTF8.toList = utf8 text.toList := by
  have hbytes : text.toUTF8 = text.toList.utf8Encode := String.utf8Encode_toList.symm
  rw [ByteArray.toList, toList_loop, hbytes, List.utf8Encode, List.toList_data_toByteArray]
  rfl

theorem mk_utf8 (cs : List Char) : (⟨(utf8 cs).toArray⟩ : ByteArray) = cs.utf8Encode := by
  apply ByteArray.ext
  apply Array.toList_inj.1
  rw [List.utf8Encode, List.toList_data_toByteArray]
  rfl

theorem fromUTF8?_utf8 (cs : List Char) :
    String.fromUTF8? ⟨(utf8 cs).toArray⟩ = some (String.ofList cs) := by
  rw [mk_utf8, String.fromUTF8?, dif_pos ByteArray.isValidUTF8_utf8Encode]
  rfl

/-- A byte of a character in UTF-8 is all of it, or stands for no character by itself. -/
theorem toNat_of_mem_utf8EncodeChar {c : Char} {b : UInt8} (hb : b ∈ String.utf8EncodeChar c) :
    b.toNat = c.toNat ∨ 128 ≤ b.toNat := by
  have hhigh (x y : UInt8) (hy : 128 ≤ y.toNat) : 128 ≤ (x ||| y).toNat := by
    rw [UInt8.toNat_or]
    exact Nat.le_trans hy Nat.right_le_or
  rcases Char.utf8Size_eq c with h | h | h | h
  · left
    rw [String.utf8EncodeChar_eq_singleton h, List.mem_singleton] at hb
    have hle : c.val.toNat ≤ 127 := Char.utf8Size_eq_one_iff.1 h
    have hmod : b.toNat = c.val.toNat % 256 := congrArg UInt8.toNat hb
    have hval : c.val.toNat = c.toNat := rfl
    omega
  · right
    simp only [String.utf8EncodeChar_eq_cons_cons h, List.mem_cons, List.not_mem_nil,
      or_false] at hb
    rcases hb with rfl | rfl <;> exact hhigh _ _ (by decide)
  · right
    simp only [String.utf8EncodeChar_eq_cons_cons_cons h, List.mem_cons, List.not_mem_nil,
      or_false] at hb
    rcases hb with rfl | rfl | rfl <;> exact hhigh _ _ (by decide)
  · right
    simp only [String.utf8EncodeChar_eq_cons_cons_cons_cons h, List.mem_cons, List.not_mem_nil,
      or_false] at hb
    rcases hb with rfl | rfl | rfl | rfl <;> exact hhigh _ _ (by decide)

theorem ne_of_mem_utf8EncodeChar {c : Char} (hc : c ≠ '\n') {b : UInt8}
    (hb : b ∈ String.utf8EncodeChar c) : b ≠ 10 := by
  rintro rfl
  rcases toNat_of_mem_utf8EncodeChar hb with h | h
  · exact hc (Char.toNat_inj.1 h.symm)
  · exact absurd h (by decide)

theorem splitLine_append {bytes : List UInt8} (h : ∀ b ∈ bytes, b ≠ 10) (rest : List UInt8) :
    splitLine (bytes ++ rest) = (bytes ++ (splitLine rest).1, (splitLine rest).2) := by
  have hall : ∀ b ∈ bytes, (b != 10) = true := fun b hb => bne_iff_ne.2 (h b hb)
  simp only [splitLine, List.takeWhile_append_of_pos hall, List.dropWhile_append_of_pos hall,
    List.append_assoc]

/-- The first line of the bytes is the first piece of the text. -/
theorem splitLine_utf8 {cs line : List Char} {lines : List (List Char)}
    (h : Line.cut cs = line :: lines) :
    ∃ rest, splitLine (utf8 cs) = (utf8 line, utf8 rest) ∧ Line.cut rest = lines := by
  induction cs generalizing line with
  | nil => cases h
  | cons c cs ih =>
    by_cases hc : c = '\n'
    · subst hc
      obtain ⟨rfl, rfl⟩ : ['\n'] = line ∧ Line.cut cs = lines := by simpa [Line.cut] using h
      exact ⟨cs, rfl, rfl⟩
    · have hbytes : splitLine (utf8 (c :: cs)) =
          (String.utf8EncodeChar c ++ (splitLine (utf8 cs)).1, (splitLine (utf8 cs)).2) :=
        splitLine_append (fun b hb => ne_of_mem_utf8EncodeChar hc hb) (utf8 cs)
      cases hcut : Line.cut cs with
      | nil =>
        obtain rfl := Line.cut_eq_nil_iff.1 hcut
        obtain ⟨rfl, rfl⟩ : [c] = line ∧ [] = lines := by simpa [Line.cut, hc] using h
        exact ⟨[], hbytes, rfl⟩
      | cons first others =>
        obtain ⟨rfl, rfl⟩ : c :: first = line ∧ others = lines := by
          simpa [Line.cut, hc, hcut] using h
        obtain ⟨rest, hs, hr⟩ := ih hcut
        rw [hs] at hbytes
        exact ⟨rest, hbytes, hr⟩

/-- What the stream has still to read is the text of the lines that the recorder has, and it
has emitted what the recorder has kept. -/
structure Mirrors (c : Recorder) (d : Stream) : Prop where
  unread : ∃ cs, d.unread = utf8 cs ∧ c.lines = (Line.cut cs).map String.ofList
  emitted : d.emitted.toList = utf8 (c.written.toList.map Line.character)

theorem mirrors_ofText (text : String) :
    Mirrors (Recorder.ofLines (Line.ofText text)) (ofInput text.toUTF8.toList) where
  unread := ⟨text.toList, toList_toUTF8 text, rfl⟩
  emitted := rfl

theorem Mirrors.read {c : Recorder} {d : Stream} (h : Mirrors c d) :
    (Recorder.read c).1 = (Stream.read d).1 ∧ Mirrors (Recorder.read c).2 (Stream.read d).2 := by
  obtain ⟨⟨cs, hunread, hlines⟩, hemitted⟩ := h
  cases hcut : Line.cut cs with
  | nil =>
    obtain rfl := Line.cut_eq_nil_iff.1 hcut
    have hempty : d.unread.isEmpty = true := by rw [hunread]; rfl
    rw [Recorder.read, hlines, Stream.read, if_pos hempty]
    exact ⟨rfl, ⟨[], hunread, hlines⟩, hemitted⟩
  | cons line lines =>
    have hempty : d.unread.isEmpty = false := by
      rw [hunread, List.isEmpty_eq_false_iff]
      apply utf8_ne_nil
      rintro rfl
      cases hcut
    obtain ⟨rest, hs, rfl⟩ := splitLine_utf8 hcut
    rw [Recorder.read, hlines, hcut, Stream.read, hempty, hunread, hs]
    simp only [fromUTF8?_utf8]
    exact ⟨rfl, ⟨rest, rfl, rfl⟩, hemitted⟩

theorem mirrors_keeps : Console.Keeps Mirrors where
  read := Mirrors.read
  write := by
    rintro c d h code
    refine ⟨rfl, h.unread, ?_⟩
    show (d.emitted ++ String.utf8EncodeChar (Line.character code)).toList =
      utf8 ((c.written.push code).toList.map Line.character)
    simp [h.emitted, utf8]

end Stream

end FifteenBit
