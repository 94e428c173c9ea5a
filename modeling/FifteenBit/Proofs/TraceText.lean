import FifteenBit.Proofs.Columns
import FifteenBit.Proofs.Fetch

/-! The columns of a trace line stand at fixed places, since every item fits its column. A
reader that only looks at these places gets the whole line back, so the printed character may be
any character, also one that stands elsewhere in the line. -/

namespace FifteenBit

open Column

theorem Opcode.mnemonic_length_le (o : Opcode) : o.mnemonic.toList.length ≤ 4 := by
  cases o <;> decide

theorem Opcode.blank_not_mem_mnemonic (o : Opcode) : ' ' ∉ o.mnemonic.toList := by
  cases o <;> decide

def Opcode.ofMnemonic? (name : List Char) : Option Opcode :=
  ((List.range 22).filterMap fun n => Opcode.ofWord? n.toUInt16).find? fun o =>
    o.mnemonic.toList == name

theorem Opcode.ofMnemonic?_mnemonic (o : Opcode) : ofMnemonic? o.mnemonic.toList = some o := by
  cases o <;> decide

namespace TraceLine

/-- The address of the instruction fits its column, and the opcode has the operands that it
takes. -/
structure Fits (line : TraceLine) : Prop where
  ip : line.ip.toNat ≤ 99999
  operands : line.operands.length = line.opcode.arity

/-- Where a text shows the items of a line. Only the length of the text depends on the line. -/
structure Shows (line : TraceLine) (cs : List Char) : Prop where
  ip : slice 0 5 cs = number 5 line.ip.toNat
  mnemonic : slice 5 7 cs = [' '] ++ Column.text 4 line.opcode.mnemonic.toList ++ [':', ' ']
  operands : HasRow 12 (operandColumns line.operands) cs
  printed : slice 29 7 cs = [' ', line.printed, ' ', ' ', '|', ' ', ' ']
  registers : HasRow 36 (line.registers.toList.map word) cs
  bar : slice 83 5 cs = [' ', ' ', '|', ' ', ' ']
  stack : HasRow 88 (line.stack.reverse.map word) cs
  length : cs.length = 88 + (6 * line.stack.length - 1)

/-- The parts of a line from left to right. -/
def segments (line : TraceLine) : List (List Char) :=
  [number 5 line.ip.toNat,
    [' '] ++ Column.text 4 line.opcode.mnemonic.toList ++ [':', ' '],
    row (operandColumns line.operands),
    [' ', line.printed, ' ', ' ', '|', ' ', ' '],
    row (line.registers.toList.map word),
    [' ', ' ', '|', ' ', ' '],
    row (line.stack.reverse.map word)]

/-- The word in a column of a row that begins at some place. -/
def wordAt (start : Nat) (cs : List Char) (k : Nat) : Word :=
  (readNumber (slice (start + 6 * k) 5 cs)).toUInt16

/-- Reads a line off its text. -/
def ofChars? (cs : List Char) : Option TraceLine := do
  let opcode ← Opcode.ofMnemonic? (content (slice 6 4 cs))
  let printed ← cs[30]?
  return {
    ip := (readNumber (slice 0 5 cs)).toUInt64
    opcode := opcode
    operands := (List.range opcode.arity).map (wordAt 12 cs)
    printed := printed
    registers := Vector.ofFn fun k => wordAt 36 cs k
    stack := ((List.range ((cs.length - 87) / 6)).map (wordAt 88 cs)).reverse }

section Showing

variable {line : TraceLine} {cs : List Char}

theorem length_word (w : Word) : (word w).length = 5 := by
  have hw : w.toNat < 65536 := w.toNat_lt
  exact length_number (by omega)

theorem length_of_mem_words (ws : List Word) : ∀ c ∈ ws.map word, c.length = 5 := by
  intro c hc
  obtain ⟨w, _, rfl⟩ := List.mem_map.1 hc
  exact length_word w

theorem length_operandColumns (operands : List Word) : (operandColumns operands).length = 3 := by
  simp [operandColumns]

theorem length_of_mem_operandColumns (operands : List Word) :
    ∀ c ∈ operandColumns operands, c.length = 5 := by
  intro c hc
  rcases List.mem_append.1 (List.mem_of_mem_take hc) with hc | hc
  · exact length_of_mem_words operands c hc
  · rw [List.eq_of_mem_replicate hc]
    exact length_text (Nat.zero_le 5)

theorem chars_eq_flatten (line : TraceLine) : line.chars = line.segments.flatten := by
  simp [chars, segments]

theorem length_segments (hline : line.Fits) :
    line.segments.map List.length = [5, 7, 17, 7, 47, 5, 6 * line.stack.length - 1] := by
  have hip : (number 5 line.ip.toNat).length = 5 :=
    length_number (Nat.lt_succ_of_le hline.ip)
  have hname := length_text line.opcode.mnemonic_length_le
  have hoperands := length_row (length_of_mem_operandColumns line.operands)
  have hregisters := length_row (length_of_mem_words line.registers.toList)
  have hstack := length_row (length_of_mem_words line.stack.reverse)
  rw [length_operandColumns] at hoperands
  rw [List.length_map, Vector.length_toList] at hregisters
  rw [List.length_map, List.length_reverse] at hstack
  simp only [segments, List.map_cons, List.map_nil, List.length_append, List.length_cons,
    List.length_nil, hip, hname, hoperands, hregisters, hstack]

theorem chars_shows (hline : line.Fits) : line.Shows line.chars := by
  have hlengths := length_segments hline
  have hat {k start width : Nat} {part : List Char} (hpart : line.segments[k]? = some part)
      (hwidth : (line.segments.map List.length)[k]? = some width)
      (hstart : ((line.segments.map List.length).take k).sum = start) :
      slice start width line.chars = part := by
    rw [List.getElem?_map, hpart] at hwidth
    rw [← List.map_take, ← List.length_flatten] at hstart
    rw [chars_eq_flatten, ← hstart, ← Option.some.inj hwidth]
    exact slice_flatten hpart
  rw [hlengths] at hat
  exact {
    ip := hat (k := 0) rfl rfl rfl
    mnemonic := hat (k := 1) rfl rfl rfl
    operands := hasRow_of_slice (length_of_mem_operandColumns _) (by rw [length_operandColumns])
      (hat (k := 2) rfl rfl rfl)
    printed := hat (k := 3) rfl rfl rfl
    registers := hasRow_of_slice (length_of_mem_words _) (by simp) (hat (k := 4) rfl rfl rfl)
    bar := hat (k := 5) rfl rfl rfl
    stack := hasRow_of_slice (length_of_mem_words _) (by simp; omega) (hat (k := 6) rfl rfl rfl)
    length := by
      rw [chars_eq_flatten, List.length_flatten, hlengths]
      simp only [List.sum_cons, List.sum_nil]
      omega }

end Showing

section Reading

variable {line : TraceLine} {cs : List Char} {start k : Nat} {ws : List Word}

theorem wordAt_of_hasRow (h : HasRow start (ws.map word) cs) (hk : k < ws.length) :
    wordAt start cs k = ws[k] := by
  have hcolumn := h.column k (by simpa using hk)
  rw [List.getElem_map] at hcolumn
  rw [wordAt, hcolumn, word, readNumber_number]
  exact UInt16.ofNat_toNat

theorem words_of_hasRow (h : HasRow start (ws.map word) cs) :
    (List.range ws.length).map (wordAt start cs) = ws := by
  refine List.ext_getElem (by simp) fun k _ hk => ?_
  simpa using wordAt_of_hasRow h hk

theorem operandColumns_eq (h : ws.length ≤ 3) :
    operandColumns ws = ws.map word ++ List.replicate (3 - ws.length) (Column.text 5 []) := by
  rw [operandColumns, List.take_append, List.take_replicate, List.length_map,
    List.take_of_length_le (by simpa using h), Nat.min_eq_left (Nat.sub_le 3 _)]

theorem Shows.opcode_eq (h : line.Shows cs) :
    Opcode.ofMnemonic? (content (slice 6 4 cs)) = some line.opcode := by
  have hname : slice 6 4 cs = Column.text 4 line.opcode.mnemonic.toList := by
    have hlength := length_text line.opcode.mnemonic_length_le
    have hinner : slice 1 4 (slice 5 7 cs) = slice 6 4 cs := slice_slice (by decide)
    rw [← hinner, h.mnemonic, List.append_assoc]
    exact (slice_skip [' '] _ 0 4).trans (slice_append hlength _)
  rw [hname, content_text line.opcode.blank_not_mem_mnemonic, Opcode.ofMnemonic?_mnemonic]

theorem Shows.printed_eq (h : line.Shows cs) : cs[30]? = some line.printed := by
  have hprinted := congrArg (·[1]?) h.printed
  simpa [slice, List.getElem?_take, List.getElem?_drop] using hprinted

theorem Shows.operands_eq (h : line.Shows cs) (hline : line.Fits) :
    (List.range line.opcode.arity).map (wordAt 12 cs) = line.operands := by
  have hlength : line.operands.length ≤ 3 := hline.operands ▸ line.opcode.arity_le
  have hrow := h.operands
  rw [operandColumns_eq hlength] at hrow
  rw [← hline.operands]
  exact words_of_hasRow hrow.left

theorem Shows.registers_eq (h : line.Shows cs) :
    (Vector.ofFn fun k : Fin 8 => wordAt 36 cs k) = line.registers := by
  refine Vector.ext fun k hk => ?_
  have hlength : k < line.registers.toList.length := by rwa [Vector.length_toList]
  rw [Vector.getElem_ofFn, ← Vector.getElem_toList hlength]
  exact wordAt_of_hasRow h.registers hlength

theorem Shows.stack_eq (h : line.Shows cs) :
    ((List.range ((cs.length - 87) / 6)).map (wordAt 88 cs)).reverse = line.stack := by
  have hdepth : (cs.length - 87) / 6 = line.stack.reverse.length := by
    rw [h.length, List.length_reverse]
    omega
  rw [hdepth, words_of_hasRow h.stack, List.reverse_reverse]

theorem Shows.ofChars?_eq (h : line.Shows cs) (hline : line.Fits) : ofChars? cs = some line := by
  have hip : (readNumber (slice 0 5 cs)).toUInt64 = line.ip := by
    rw [h.ip, readNumber_number]
    exact UInt64.ofNat_toNat
  simp [ofChars?, h.opcode_eq, h.printed_eq, hip, h.operands_eq hline, h.registers_eq, h.stack_eq]

end Reading

/-- A line whose address has at most five digits is shown at fixed places and is read back from
them, with any printed character. So two machines have the same line only for the same address,
instruction, registers and stack. -/
theorem text_determines_line :
    (∀ line : TraceLine, line.Fits →
      line.Shows line.text.toList ∧ ofChars? line.text.toList = some line) ∧
    ∀ (m m' : Machine) (opcode opcode' : Opcode) (operands operands' : List Word),
      m.ip.toNat ≤ 99999 → m'.ip.toNat ≤ 99999 →
      operands.length = opcode.arity → operands'.length = opcode'.arity →
      (m.traceLine opcode operands).text = (m'.traceLine opcode' operands').text →
      m.ip = m'.ip ∧ opcode = opcode' ∧ operands = operands' ∧ m.registers = m'.registers ∧
        m.stack = m'.stack := by
  have hread (line : TraceLine) (hline : line.Fits) : ofChars? line.text.toList = some line := by
    rw [text, String.toList_ofList]
    exact (chars_shows hline).ofChars?_eq hline
  refine ⟨fun line hline => ⟨?_, hread line hline⟩, ?_⟩
  · rw [text, String.toList_ofList]
    exact chars_shows hline
  · intro m m' opcode opcode' operands operands' hip hip' ha ha' htext
    have hline := hread (m.traceLine opcode operands) ⟨hip, ha⟩
    rw [htext, hread (m'.traceLine opcode' operands') ⟨hip', ha'⟩] at hline
    have heq : m'.traceLine opcode' operands' = m.traceLine opcode operands :=
      Option.some.inj hline
    simp only [Machine.traceLine, TraceLine.mk.injEq] at heq
    obtain ⟨hip, hopcode, hoperands, _, hregisters, hstack⟩ := heq
    exact ⟨hip.symm, hopcode.symm, hoperands.symm, hregisters.symm, hstack.symm⟩

/-- An `out` that prints the bar, above two words on the stack. -/
theorem text_determines_bar :
    let m : Machine :=
      ⟨Vector.replicate 32768 0, RegisterFile.zero, [7, 60000], 19, [], true, .wrap⟩
    let m' : Machine := { m with policy := .strict }
    (m.traceLine .out [124]).Fits ∧ (m.traceLine .out [124]).printed = '|' ∧
      ofChars? (m.traceLine .out [124]).text.toList = some (m.traceLine .out [124]) ∧
      (m.traceLine .out [124]).text = (m'.traceLine .out [124]).text ∧ m.stack = m'.stack := by
  intro m m'
  have hline : m.traceLine .out [124] = m'.traceLine .out [124] := by rfl
  have hfits : (m.traceLine .out [124]).Fits := ⟨by decide, rfl⟩
  have htext := congrArg text hline
  have hequal := text_determines_line.2 m m' .out .out [124] [124] (by decide) (by decide)
    rfl rfl htext
  exact ⟨hfits, rfl, (text_determines_line.1 _ hfits).2, htext, hequal.2.2.2.2⟩

end TraceLine

end FifteenBit
