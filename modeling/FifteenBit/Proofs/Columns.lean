import FifteenBit.Column
import Mathlib.Data.List.TakeWhile

/-! Columns that are flush right, and rows of them. A number is read back from its column, and a
column of a row from its place, wherever the row stands in a text. -/

namespace FifteenBit

namespace Column

def slice (start width : Nat) (cs : List Char) : List Char :=
  (cs.drop start).take width

/-- What is written in a column that is flush right. -/
def content (column : List Char) : List Char :=
  column.dropWhile (· == ' ')

def readNumber (column : List Char) : Nat :=
  Nat.ofDigitChars 10 (content column) 0

/-- Columns of five characters that begin at a place, with one blank between two of them. -/
structure HasRow (start : Nat) (columns : List (List Char)) (cs : List Char) : Prop where
  column : ∀ k (hk : k < columns.length), slice (start + 6 * k) 5 cs = columns[k]
  gap : ∀ k, k + 1 < columns.length → slice (start + 6 * k + 5) 1 cs = [' ']

theorem HasRow.left {start : Nat} {columns more : List (List Char)} {cs : List Char}
    (h : HasRow start (columns ++ more) cs) : HasRow start columns cs where
  column k hk := by
    rw [h.column k (by simp; omega), List.getElem_append_left hk]
  gap k hk := h.gap k (by simp; omega)

section Text

theorem length_text {width : Nat} {s : List Char} (hs : s.length ≤ width) :
    (text width s).length = width := by
  rw [text, List.length_leftpad, Nat.max_eq_left hs]

theorem length_number {n : Nat} (hn : n < 100000) : (number 5 n).length = 5 :=
  length_text ((Nat.length_toDigits_le_iff (by decide) (by decide)).2 hn)

theorem content_text {s : List Char} (hs : ' ' ∉ s) (width : Nat) :
    content (text width s) = s := by
  have hpadding : ∀ c ∈ List.replicate (width - s.length) ' ', (c == ' ') = true := by
    intro c hc
    simp [List.eq_of_mem_replicate hc]
  rw [content, text, List.leftpad, List.dropWhile_append_of_pos hpadding,
    List.dropWhile_eq_self_iff]
  intro hpos hblank
  exact hs (beq_iff_eq.1 hblank ▸ List.getElem_mem hpos)

theorem readNumber_number (width n : Nat) : readNumber (number width n) = n := by
  have hdigits : ' ' ∉ Nat.toDigits 10 n := fun hc =>
    absurd (Nat.isDigit_of_mem_toDigits (by decide) (by decide) hc) (by decide)
  rw [readNumber, number, content_text hdigits, Nat.ofDigitChars_ten_toDigits]

end Text

section Slices

variable {a b cs : List Char} {start width : Nat}

theorem slice_append (ha : a.length = width) (b : List Char) : slice 0 width (a ++ b) = a :=
  List.take_left' ha

theorem slice_skip (a b : List Char) (start width : Nat) :
    slice (a.length + start) width (a ++ b) = slice start width b := by
  rw [slice, List.drop_length_add_append, slice]

theorem slice_slice {i n : Nat} (h : i + n ≤ width) :
    slice i n (slice start width cs) = slice (start + i) n cs := by
  rw [slice, slice, slice, List.drop_take, List.drop_drop, List.take_take]
  congr 1
  omega

theorem slice_flatten {segments : List (List Char)} {part : List Char} {k : Nat}
    (hpart : segments[k]? = some part) :
    slice (segments.take k).flatten.length part.length segments.flatten = part := by
  obtain ⟨hk, rfl⟩ := List.getElem?_eq_some_iff.1 hpart
  have hsplit : segments.flatten
      = (segments.take k).flatten ++ (segments[k] ++ (segments.drop (k + 1)).flatten) := by
    rw [← List.flatten_cons, ← List.flatten_append, ← List.drop_eq_getElem_cons hk,
      List.take_append_drop]
  have hslice := slice_skip (segments.take k).flatten
    (segments[k] ++ (segments.drop (k + 1)).flatten) 0 segments[k].length
  rw [← hsplit] at hslice
  exact hslice.trans (slice_append rfl _)

end Slices

section Rows

variable {columns : List (List Char)} {cs : List Char} {start : Nat}

theorem row_cons_cons (c d : List Char) (columns : List (List Char)) :
    row (c :: d :: columns) = (c ++ [' ']) ++ row (d :: columns) :=
  List.intercalate_cons_cons

theorem length_row (hc : ∀ c ∈ columns, c.length = 5) :
    (row columns).length = 6 * columns.length - 1 := by
  induction columns with
  | nil => rfl
  | cons c rest ih =>
    cases rest with
    | nil => simpa [row] using hc c
    | cons d rest =>
      have hrest := ih fun x hx => hc x (List.mem_cons_of_mem c hx)
      have hfirst := hc c List.mem_cons_self
      rw [row_cons_cons, List.length_append, hrest]
      simp only [List.length_append, List.length_cons, List.length_nil, hfirst]
      omega

/-- Past the first column and its blank the rest of the row begins. -/
theorem slice_row {c : List Char} (hc : c.length = 5) (d : List Char) (rest : List (List Char))
    (i n : Nat) : slice (6 + i) n (row (c :: d :: rest)) = slice i n (row (d :: rest)) := by
  have hlength : (c ++ [' ']).length = 6 := by simp [hc]
  rw [row_cons_cons, ← hlength]
  exact slice_skip _ _ i n

theorem row_hasRow (hc : ∀ c ∈ columns, c.length = 5) : HasRow 0 columns (row columns) := by
  induction columns with
  | nil => exact ⟨fun _ hk => absurd hk (Nat.not_lt_zero _), fun _ hk => absurd hk (by simp)⟩
  | cons c rest ih =>
    have hfirst := hc c List.mem_cons_self
    have hrest := ih fun x hx => hc x (List.mem_cons_of_mem c hx)
    cases rest with
    | nil =>
      constructor
      · intro k hk
        obtain rfl : k = 0 := by simpa using hk
        simpa [row] using slice_append hfirst []
      · intro k hk
        simp at hk
    | cons d rest =>
      constructor
      · intro k hk
        cases k with
        | zero =>
          rw [row_cons_cons, List.append_assoc]
          exact slice_append hfirst _
        | succ k =>
          have hplace : 0 + 6 * (k + 1) = 6 + (0 + 6 * k) := by omega
          rw [hplace, slice_row hfirst]
          exact hrest.column k (Nat.lt_of_succ_lt_succ hk)
      · intro k hk
        cases k with
        | zero =>
          have hblank := slice_skip c ([' '] ++ row (d :: rest)) 0 1
          rw [row_cons_cons, List.append_assoc]
          rw [hfirst] at hblank
          exact hblank.trans (slice_append (a := [' ']) rfl _)
        | succ k =>
          have hplace : 0 + 6 * (k + 1) + 5 = 6 + (0 + 6 * k + 5) := by omega
          rw [hplace, slice_row hfirst]
          exact hrest.gap k (Nat.lt_of_succ_lt_succ hk)

/-- A row may be a part of a longer text. -/
theorem hasRow_of_slice {width : Nat} (hc : ∀ c ∈ columns, c.length = 5)
    (hw : 6 * columns.length ≤ width + 1) (hs : slice start width cs = row columns) :
    HasRow start columns cs := by
  have hrow := row_hasRow hc
  constructor
  · intro k hk
    rw [← hrow.column k hk, ← hs, Nat.zero_add]
    exact (slice_slice (by omega)).symm
  · intro k hk
    rw [← hrow.gap k hk, ← hs, Nat.zero_add, Nat.add_assoc]
    exact (slice_slice (by omega)).symm

end Rows

end Column

end FifteenBit
