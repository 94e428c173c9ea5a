import FifteenBit.Proofs.Decimal
import Mathlib.Data.List.DropRight

/-! The grammar of JSON. Values hold values to any depth, and blanks may stand between all tokens.
To pass over a value takes all of it and goes on with what follows. -/

namespace FifteenBit.Json

def Blanks (w : List UInt8) : Prop :=
  ∀ b ∈ w, isBlank b = true

/-- The second text is the first one with blanks around it. -/
def Padded (t u : List UInt8) : Prop :=
  ∃ v w, Blanks v ∧ Blanks w ∧ u = v ++ (t ++ w)

section Blanks

variable {w s rest : List UInt8} {b : UInt8}

theorem Blanks.nil : Blanks [] := by
  intro b hb
  cases hb

theorem Blanks.cons (hb : isBlank b = true) (hw : Blanks w) : Blanks (b :: w) := by
  intro c hc
  rcases List.mem_cons.1 hc with rfl | hc
  · exact hb
  · exact hw c hc

theorem skipBlanks_append (hw : Blanks w) (s : List UInt8) :
    skipBlanks (w ++ s) = skipBlanks s :=
  List.dropWhile_append_of_pos hw

theorem skipBlanks_eq_cons (hw : Blanks w) (hb : isBlank b = false) :
    skipBlanks (w ++ b :: s) = b :: s := by
  rw [skipBlanks_append hw, skipBlanks_of_not_blank hb]

theorem goesOn_of_blank (h : isBlank b = true) : Number.goesOn b = false := by
  simp only [isBlank, Bool.or_eq_true, beq_iff_eq] at h
  rcases h with ((rfl | rfl) | rfl) | rfl <;> rfl

theorem endsBefore_blanks (hw : Blanks w) (hs : Number.EndsBefore s) :
    Number.EndsBefore (w ++ s) := by
  cases w with
  | nil => exact hs
  | cons b w => exact .cons (goesOn_of_blank (hw b List.mem_cons_self))

end Blanks

namespace Number

inductive Integer : List UInt8 → Prop
  | zero : Integer [0x30]
  | digits {b : UInt8} {ds : List UInt8} (h0 : b ≠ 0x30)
      (hd : ∀ c ∈ b :: ds, isDigit c = true) : Integer (b :: ds)

inductive Fraction : List UInt8 → Prop
  | none : Fraction []
  | digits {ds : List UInt8} (hn : ds ≠ []) (hd : ∀ b ∈ ds, isDigit b = true) :
    Fraction (0x2E :: ds)

inductive Exponent : List UInt8 → Prop
  | none : Exponent []
  | digits {e : UInt8} {sign ds : List UInt8} (he : e = 0x65 ∨ e = 0x45)
      (hs : sign = [] ∨ sign = [0x2B] ∨ sign = [0x2D]) (hn : ds ≠ [])
      (hd : ∀ b ∈ ds, isDigit b = true) : Exponent (e :: (sign ++ ds))

/-- The numbers of JSON, as they are written. -/
inductive Form : List UInt8 → Prop
  | mk {sign i f e : List UInt8} (hs : sign = [] ∨ sign = [0x2D]) (hi : Integer i)
      (hf : Fraction f) (he : Exponent e) : Form (sign ++ (i ++ (f ++ e)))

variable {i f e t rest : List UInt8}

theorem Exponent.head (he : Exponent e) (hr : EndsBefore rest) :
    ∀ b ∈ (e ++ rest).head?, isDigit b = false ∧ b ≠ 0x2E := by
  intro b hb
  cases he with
  | none =>
    have hgoes := hr b hb
    simp only [goesOn, Bool.or_eq_false_iff, beq_eq_false_iff_ne] at hgoes
    exact hgoes.1.1
  | digits he =>
    obtain rfl := Option.some.inj hb
    rcases he with rfl | rfl <;> exact ⟨rfl, by decide⟩

theorem Fraction.head (hf : Fraction f) (hr : ∀ b ∈ rest.head?, isDigit b = false ∧ b ≠ 0x2E) :
    ∀ b ∈ (f ++ rest).head?, isDigit b = false := by
  intro b hb
  cases hf with
  | none => exact (hr b hb).1
  | digits =>
    obtain rfl := Option.some.inj hb
    rfl

theorem integerPart_append (hi : Integer i) (hr : ∀ b ∈ rest.head?, isDigit b = false) :
    integerPart (i ++ rest) = .ok (i, rest) := by
  cases hi with
  | zero =>
    have hany : rest.head?.any isDigit = false := by
      cases hh : rest.head? with
      | none => rfl
      | some b => exact hr b hh
    simp [integerPart, hany]
  | digits h0 hd =>
    unfold integerPart
    split
    · rename_i hs
      exact absurd (List.cons.inj hs).1 h0
    · exact digits_append (List.cons_ne_nil _ _) hd hr

theorem fractionPart_append (hf : Fraction f)
    (hr : ∀ b ∈ rest.head?, isDigit b = false ∧ b ≠ 0x2E) :
    ∃ ds, fractionPart (f ++ rest) = .ok (ds, rest) := by
  cases hf with
  | none =>
    refine ⟨none, ?_⟩
    unfold fractionPart
    split
    · rename_i hs
      exact absurd rfl (hr 0x2E (congrArg List.head? hs)).2
    · rfl
  | @digits ds hn hd =>
    have hdigits := digits_append hn hd fun b hb => (hr b hb).1
    exact ⟨some ds, by simp [fractionPart, hdigits, bind, Except.bind]⟩

theorem dropSign_of_digit {b : UInt8} (hb : isDigit b = true) (s : List UInt8) :
    dropSign (b :: s) = b :: s := by
  unfold dropSign
  split
  · rename_i hs
    obtain ⟨rfl, -⟩ := List.cons.inj hs
    cases hb
  · rename_i hs
    obtain ⟨rfl, -⟩ := List.cons.inj hs
    cases hb
  · rfl

theorem signedDigits_append {sign ds : List UInt8}
    (hs : sign = [] ∨ sign = [0x2B] ∨ sign = [0x2D]) (hn : ds ≠ [])
    (hd : ∀ b ∈ ds, isDigit b = true) (hr : EndsBefore rest) :
    ∃ x, signedDigits (sign ++ (ds ++ rest)) = .ok (x, rest) := by
  have hdigits := digits_append hn hd hr.not_digit
  have hdrop : dropSign (sign ++ (ds ++ rest)) = ds ++ rest := by
    rcases hs with rfl | rfl | rfl
    · obtain ⟨b, ds, rfl⟩ := List.exists_cons_of_ne_nil hn
      exact dropSign_of_digit (hd b List.mem_cons_self) (ds ++ rest)
    · rfl
    · rfl
  rw [signedDigits, hdrop, hdigits]
  exact ⟨_, rfl⟩

theorem exponentPart_append (he : Exponent e) (hr : EndsBefore rest) :
    ∃ x, exponentPart (e ++ rest) = .ok (x, rest) := by
  cases he with
  | none => exact ⟨none, exponentPart_of_endsBefore hr⟩
  | @digits e sign ds he hs hn hd =>
    obtain ⟨x, hx⟩ := signedDigits_append hs hn hd hr
    refine ⟨some x, ?_⟩
    rcases he with rfl | rfl <;> simp [exponentPart, hx, bind, Except.bind]

theorem unsigned_append (negative : Bool) (hi : Integer i) (hf : Fraction f) (he : Exponent e)
    (hr : EndsBefore rest) :
    ∃ n, unsigned negative (i ++ (f ++ (e ++ rest))) = .ok (n, rest) := by
  have hhead := he.head hr
  obtain ⟨ds, hfraction⟩ := fractionPart_append hf hhead
  obtain ⟨x, hexponent⟩ := exponentPart_append he hr
  refine ⟨⟨negative, i, ds, x⟩, ?_⟩
  simp only [unsigned, integerPart_append hi (hf.head hhead), hfraction, hexponent, bind,
    Except.bind]

theorem Integer.exists_cons (hi : Integer i) : ∃ b t, i = b :: t ∧ isDigit b = true := by
  cases hi with
  | zero => exact ⟨0x30, [], rfl, rfl⟩
  | digits _ hd => exact ⟨_, _, rfl, hd _ List.mem_cons_self⟩

/-- A number is read to its end, if what follows does not go on with it. -/
theorem read_append (h : Form t) (hr : EndsBefore rest) :
    ∃ n, read (t ++ rest) = .ok (n, rest) := by
  obtain ⟨hs, hi, hf, he⟩ := h
  simp only [List.append_assoc]
  rcases hs with rfl | rfl
  · obtain ⟨n, hn⟩ := unsigned_append false hi hf he hr
    obtain ⟨b, u, rfl, hb⟩ := hi.exists_cons
    refine ⟨n, ?_⟩
    rw [List.nil_append]
    unfold read
    split
    · rename_i hs
      obtain ⟨rfl, -⟩ := List.cons.inj hs
      cases hb
    · exact hn
  · exact unsigned_append true hi hf he hr

theorem Form.exists_cons (h : Form t) : ∃ b u, t = b :: u ∧ begins b = true := by
  obtain ⟨hs, hi, -, -⟩ := h
  rcases hs with rfl | rfl
  · obtain ⟨b, u, rfl, hb⟩ := hi.exists_cons
    exact ⟨b, _, rfl, by simp [begins, hb]⟩
  · exact ⟨0x2D, _, rfl, rfl⟩

theorem begins_bounds {b : UInt8} (h : begins b = true) : 0x2D ≤ b.toNat ∧ b.toNat ≤ 0x39 := by
  simp only [begins, isDigit, Bool.or_eq_true, beq_iff_eq, Bool.and_eq_true, decide_eq_true_eq,
    UInt8.le_iff_toNat_le, UInt8.reduceToNat] at h
  rcases h with rfl | h
  · decide
  · omega

theorem not_blank_of_begins {b : UInt8} (h : begins b = true) : isBlank b = false := by
  have hbounds := begins_bounds h
  simp only [isBlank, Bool.or_eq_false_iff, beq_eq_false_iff_ne, ne_eq, ← UInt8.toNat_inj,
    UInt8.reduceToNat]
  omega

end Number

namespace Quoted

/-- A byte that stands for itself between quotes. -/
def isPlain (b : UInt8) : Bool :=
  b != 0x22 && b != 0x5C && 0x20 ≤ b

/-- A digit in base sixteen, with its value. -/
def HexDigit (b : UInt8) (k : Nat) : Prop :=
  k < 10 ∧ b.toNat = 0x30 + k ∨
    10 ≤ k ∧ k < 16 ∧ (b.toNat = 0x41 + (k - 10) ∨ b.toNat = 0x61 + (k - 10))

inductive Hex : Nat → List UInt8 → Prop
  | mk {a b c d : UInt8} {i j k l : Nat} (ha : HexDigit a i) (hb : HexDigit b j)
      (hc : HexDigit c k) (hd : HexDigit d l) :
    Hex (i * 0x1000 + j * 0x100 + k * 0x10 + l) [a, b, c, d]

/-- What may stand behind a backslash for one byte, and that byte. -/
def escapes : List (UInt8 × UInt8) :=
  [(0x22, 0x22), (0x5C, 0x5C), (0x2F, 0x2F), (0x62, 0x08), (0x66, 0x0C), (0x6E, 0x0A),
    (0x72, 0x0D), (0x74, 0x09)]

/-- What JSON allows between two quotes. -/
inductive Form : List UInt8 → Prop
  | nil : Form []
  | plain {b : UInt8} {t : List UInt8} (hb : isPlain b = true) (h : Form t) : Form (b :: t)
  | escape {b x : UInt8} {t : List UInt8} (hb : (b, x) ∈ escapes) (h : Form t) :
    Form (0x5C :: b :: t)
  | numbered {n : Nat} {ds t : List UInt8} (hn : Hex n ds) (h : Form t) :
    Form (0x5C :: 0x75 :: (ds ++ t))

variable {b x : UInt8} {k n : Nat} {t : List UInt8}

theorem HexDigit.hexDigit? (h : HexDigit b k) : hexDigit? b = some k := by
  simp only [Quoted.hexDigit?, UInt8.le_iff_toNat_le, UInt8.reduceToNat]
  rcases h with ⟨hk, hb⟩ | ⟨hk, hlt, hb | hb⟩
  · rw [if_pos (by omega), hb]
    simp
  · rw [if_neg (by omega), if_pos (by omega), hb]
    simp
    omega
  · rw [if_neg (by omega), if_neg (by omega), if_pos (by omega), hb]
    simp
    omega

theorem hexNumber_append (h : Hex n t) (rest : List UInt8) :
    hexNumber (t ++ rest) = .ok (n, rest) := by
  obtain ⟨ha, hb, hc, hd⟩ := h
  simp only [List.cons_append, List.nil_append, hexNumber, ha.hexDigit?, hb.hexDigit?,
    hc.hexDigit?, hd.hexDigit?]
  congr 2
  omega

theorem plainEscape?_of_mem (h : (b, x) ∈ escapes) : plainEscape? b = some x ∧ b ≠ 0x75 := by
  have hall : escapes.all (fun p => plainEscape? p.1 == some p.2 && p.1 != 0x75) = true := rfl
  have hp := List.all_eq_true.1 hall _ h
  simpa using hp

theorem skip_append (h : Form t) (rest : List UInt8) : skip (t ++ 0x22 :: rest) = .ok rest := by
  induction h with
  | nil =>
    rw [List.nil_append, skip]
    rfl
  | plain hb _ ih =>
    simp only [isPlain, Bool.and_eq_true, bne_iff_ne, decide_eq_true_eq] at hb
    rw [List.cons_append, skip, if_neg hb.1.1, if_neg hb.1.2, if_neg (UInt8.not_lt.2 hb.2), ih]
  | @escape b x t hb _ ih =>
    obtain ⟨he, hu⟩ := plainEscape?_of_mem hb
    have hskip : skipEscape (b :: (t ++ 0x22 :: rest)) = .ok (t ++ 0x22 :: rest) := by
      simp only [skipEscape, if_neg hu, he]
    rw [List.cons_append, List.cons_append, skip, if_neg (by decide), if_pos rfl]
    split <;> simp_all
  | @numbered n ds t hn _ ih =>
    have hskip : skipEscape (0x75 :: (ds ++ (t ++ 0x22 :: rest))) = .ok (t ++ 0x22 :: rest) := by
      simp only [skipEscape, if_pos, hexNumber_append hn]
      rfl
    rw [List.cons_append, List.cons_append, List.append_assoc, skip, if_neg (by decide),
      if_pos rfl]
    split <;> simp_all

end Quoted

/-- What the grammar has rules for: a value, and the items between two brackets. -/
inductive Symbol where
  | value
  | items (bracket : Bracket)

def Bracket.opening : Bracket → UInt8
  | .square => 0x5B
  | .curly => 0x7B

/-- What stands before the value of an item: in an object, the name of the member. -/
inductive Label : Bracket → List UInt8 → Prop
  | square {w : List UInt8} (hw : Blanks w) : Label .square w
  | curly {u t v w : List UInt8} (hu : Blanks u) (ht : Quoted.Form t) (hv : Blanks v)
      (hw : Blanks w) : Label .curly (u ++ 0x22 :: (t ++ 0x22 :: (v ++ 0x3A :: w)))

/-- The texts of a symbol. -/
inductive Derives : Symbol → List UInt8 → Prop
  | word {b : UInt8} {t : List UInt8} (h : wordTail? b = some t) : Derives .value (b :: t)
  | number {t : List UInt8} (h : Number.Form t) : Derives .value t
  | quoted {t : List UInt8} (h : Quoted.Form t) : Derives .value (0x22 :: (t ++ [0x22]))
  | empty {w : List UInt8} (k : Bracket) (hw : Blanks w) :
    Derives .value (k.opening :: (w ++ [k.closing]))
  | bracketed {t : List UInt8} (k : Bracket) (h : Derives (.items k) t) :
    Derives .value (k.opening :: (t ++ [k.closing]))
  | last {k : Bracket} {l t w : List UInt8} (hl : Label k l) (h : Derives .value t)
      (hw : Blanks w) : Derives (.items k) (l ++ (t ++ w))
  | more {k : Bracket} {l t w u : List UInt8} (hl : Label k l) (h : Derives .value t)
      (hw : Blanks w) (hu : Derives (.items k) u) :
    Derives (.items k) (l ++ (t ++ (w ++ 0x2C :: u)))

theorem wordTail?_cases {b : UInt8} {t : List UInt8} (h : wordTail? b = some t) :
    b = 0x6E ∨ b = 0x74 ∨ b = 0x66 := by
  by_contra hne
  simp only [not_or] at hne
  simp [wordTail?, hne] at h

section First

variable {k : Bracket} {l t : List UInt8}

/-- A value does not begin with a blank, and not with the end of a bracket. -/
theorem Derives.exists_cons (h : Derives .value t) :
    ∃ b u, t = b :: u ∧ isBlank b = false ∧ ∀ k : Bracket, b ≠ k.closing := by
  cases h with
  | word h =>
    refine ⟨_, _, rfl, ?_⟩
    rcases wordTail?_cases h with rfl | rfl | rfl <;>
      exact ⟨rfl, fun k => by cases k <;> decide⟩
  | number h =>
    obtain ⟨b, u, rfl, hb⟩ := h.exists_cons
    refine ⟨b, u, rfl, Number.not_blank_of_begins hb, fun k => ?_⟩
    rintro rfl
    cases k <;> exact absurd hb (by decide)
  | quoted h => exact ⟨_, _, rfl, rfl, fun k => by cases k <;> decide⟩
  | empty k | bracketed k =>
    refine ⟨_, _, rfl, ?_⟩
    cases k <;> exact ⟨rfl, fun k => by cases k <;> decide⟩

theorem Label.skipBlanks_append (hl : Label k l) (ht : Derives .value t) (s : List UInt8) :
    ∃ b u, skipBlanks (l ++ (t ++ s)) = b :: u ∧ b ≠ k.closing := by
  cases hl with
  | square hw =>
    obtain ⟨b, u, rfl, hb, hk⟩ := ht.exists_cons
    exact ⟨b, u ++ s, skipBlanks_eq_cons hw hb, hk .square⟩
  | @curly u t v w hu =>
    have hquote (s : List UInt8) : skipBlanks (u ++ 0x22 :: s) = 0x22 :: s :=
      skipBlanks_eq_cons hu rfl
    rw [List.append_assoc, List.cons_append, hquote]
    exact ⟨_, _, rfl, by decide⟩

theorem Derives.skipBlanks_items (h : Derives (.items k) t) (s : List UInt8) :
    ∃ b u, skipBlanks (t ++ s) = b :: u ∧ b ≠ k.closing := by
  cases h with
  | last hl h =>
    rw [List.append_assoc, List.append_assoc]
    exact hl.skipBlanks_append h _
  | more hl h =>
    rw [List.append_assoc, List.append_assoc]
    exact hl.skipBlanks_append h _

end First

namespace Skip

def proceed : Progress → Except Problem (List UInt8)
  | .done s => .ok s
  | .value opened s => value opened s

/-- What is done behind a value. -/
def resume (opened : List Bracket) (s : List UInt8) : Except Problem (List UInt8) :=
  closing opened s >>= proceed

variable {opened : List Bracket} {k : Bracket} {b : UInt8} {l s t u w rest : List UInt8}

theorem value_eq (opened : List Bracket) (s : List UInt8) :
    value opened s = step opened s >>= proceed := by
  rw [value]
  split <;> simp_all [proceed, bind, Except.bind]

theorem value_blanks (hw : Blanks w) (opened : List Bracket) (s : List UInt8) :
    value opened (w ++ s) = value opened s := by
  rw [value_eq, value_eq, step, step, skipBlanks_append hw]

theorem value_of_scalar (hb : isBlank b = false) (hn : Bracket.ofOpening? b = none)
    (hs : scalar (b :: t) = .ok rest) : value opened (b :: t) = resume opened rest := by
  rw [value_eq, step, skipBlanks_of_not_blank hb]
  simp only [hn, hs]
  rfl

theorem ofOpening?_opening (k : Bracket) : Bracket.ofOpening? k.opening = some k ∧
    isBlank k.opening = false := by
  cases k <;> exact ⟨rfl, rfl⟩

theorem value_empty (hs : skipBlanks s = k.closing :: u) (opened : List Bracket) :
    value opened (k.opening :: s) = resume opened u := by
  obtain ⟨hk, hb⟩ := ofOpening?_opening k
  rw [value_eq, step, skipBlanks_of_not_blank hb]
  simp only [hk, hs, if_true]
  rfl

theorem value_bracketed (hs : skipBlanks s = b :: u) (hb : b ≠ k.closing)
    (opened : List Bracket) :
    value opened (k.opening :: s) = item k (b :: u) >>= value (k :: opened) := by
  obtain ⟨hk, hblank⟩ := ofOpening?_opening k
  rw [value_eq, step, skipBlanks_of_not_blank hblank]
  simp only [hk, hs, if_neg hb]
  cases item k (b :: u) <;> rfl

theorem resume_closing (hw : Blanks w) (k : Bracket) (opened : List Bracket) (s : List UInt8) :
    resume (k :: opened) (w ++ k.closing :: s) = resume opened s := by
  have hk : isBlank k.closing = false ∧ k.closing ≠ 0x2C := by
    cases k <;> exact ⟨rfl, by decide⟩
  simp only [resume, closing, skipBlanks_eq_cons hw hk.1, if_neg hk.2, if_true]

theorem resume_comma (hw : Blanks w) (k : Bracket) (opened : List Bracket) (s : List UInt8) :
    resume (k :: opened) (w ++ 0x2C :: s) = item k s >>= value (k :: opened) := by
  have hcomma : skipBlanks (w ++ 0x2C :: s) = 0x2C :: s := skipBlanks_eq_cons hw rfl
  simp only [resume, closing, hcomma, if_true]
  cases item k s <;> rfl

theorem pass_append (t rest : List UInt8) : pass t (t ++ rest) = .ok rest := by
  induction t with
  | nil => rfl
  | cons b t ih => rw [List.cons_append, pass, if_pos rfl, ih]

theorem scalar_word (h : wordTail? b = some t) (rest : List UInt8) :
    isBlank b = false ∧ Bracket.ofOpening? b = none ∧ scalar (b :: (t ++ rest)) = .ok rest := by
  have hpass := pass_append t rest
  rcases wordTail?_cases h with rfl | rfl | rfl <;>
    exact ⟨rfl, rfl, by simp [scalar, Number.begins, isDigit, h, hpass]⟩

theorem scalar_number (h : Number.Form (b :: t)) (hr : Number.EndsBefore rest) :
    isBlank b = false ∧ Bracket.ofOpening? b = none ∧ scalar (b :: (t ++ rest)) = .ok rest := by
  obtain ⟨c, u, hc, hb⟩ := h.exists_cons
  obtain ⟨rfl, rfl⟩ := List.cons.inj hc
  obtain ⟨n, hn⟩ := Number.read_append h hr
  have hnumber : number (b :: (t ++ rest)) = .ok rest := by
    rw [List.cons_append] at hn
    rw [number, hn]
  have hbounds := Number.begins_bounds hb
  have hquote : b ≠ 0x22 := by
    rintro rfl
    exact absurd hbounds (by decide)
  refine ⟨Number.not_blank_of_begins hb, ?_, ?_⟩
  · rw [Bracket.ofOpening?, if_neg, if_neg]
    · rintro rfl
      exact absurd hbounds (by decide)
    · rintro rfl
      exact absurd hbounds (by decide)
  · rw [scalar, if_neg hquote, if_pos hb, hnumber]

theorem scalar_quoted (h : Quoted.Form t) (rest : List UInt8) :
    scalar (0x22 :: (t ++ 0x22 :: rest)) = .ok rest := by
  rw [scalar, if_pos rfl, Quoted.skip_append h]

/-- The label of an item is passed, but for the blanks behind it. -/
theorem item_label (hl : Label k l) :
    ∃ w, Blanks w ∧ ∀ s, item k (l ++ s) = .ok (w ++ s) := by
  cases hl with
  | square hw => exact ⟨_, hw, fun _ => rfl⟩
  | @curly u t v w hu ht hv hw =>
    refine ⟨w, hw, fun s => ?_⟩
    have hquote (s : List UInt8) : skipBlanks (u ++ 0x22 :: s) = 0x22 :: s :=
      skipBlanks_eq_cons hu rfl
    have hcolon : skipBlanks (v ++ 0x3A :: (w ++ s)) = 0x3A :: (w ++ s) :=
      skipBlanks_eq_cons hv rfl
    simp only [item, memberName, List.append_assoc, List.cons_append, hquote, if_true,
      Quoted.skip_append ht, hcolon, bind, Except.bind]

theorem item_skipBlanks (k : Bracket) (opened : List Bracket) (s : List UInt8) :
    item k (skipBlanks s) >>= value opened = item k s >>= value opened := by
  have hskip : skipBlanks (skipBlanks s) = skipBlanks s := List.dropWhile_idempotent _ s
  cases k with
  | square =>
    show value opened (skipBlanks s) = value opened s
    rw [value_eq, value_eq, step, step, hskip]
  | curly => rw [item, item, memberName, memberName, hskip]

/-- What passing over a text of the grammar comes to. -/
def Passes : Symbol → List UInt8 → Prop
  | .value, t => ∀ opened rest, Number.EndsBefore rest →
      value opened (t ++ rest) = resume opened rest
  | .items k, t => ∀ opened rest,
      item k (t ++ k.closing :: rest) >>= value (k :: opened) = resume opened rest

theorem passes_item (hl : Label k l) (ht : Passes .value t) (hs : Number.EndsBefore s) :
    item k (l ++ (t ++ s)) >>= value (k :: opened) = resume (k :: opened) s := by
  obtain ⟨w, hw, hitem⟩ := item_label hl
  rw [hitem]
  exact (value_blanks hw _ _).trans (ht _ _ hs)

theorem passes_of_derives {a : Symbol} (h : Derives a t) : Passes a t := by
  -- The brackets that are open outside are arbitrary: inside a value there is one more.
  induction h with
  | word h =>
    intro opened rest _
    obtain ⟨hb, hn, hs⟩ := scalar_word h rest
    exact value_of_scalar hb hn hs
  | @number t h =>
    intro opened rest hr
    obtain ⟨b, u, rfl, _⟩ := h.exists_cons
    obtain ⟨hb, hn, hs⟩ := scalar_number h hr
    exact value_of_scalar hb hn hs
  | @quoted t h =>
    intro opened rest _
    rw [List.cons_append, List.append_assoc]
    exact value_of_scalar rfl rfl (scalar_quoted h rest)
  | @empty w k hw =>
    intro opened rest _
    rw [List.cons_append, List.append_assoc]
    refine value_empty (skipBlanks_eq_cons hw ?_) opened
    cases k <;> rfl
  | @bracketed t k h ih =>
    intro opened rest _
    rw [List.cons_append, List.append_assoc]
    obtain ⟨b, u, hs, hb⟩ := h.skipBlanks_items (k.closing :: rest)
    have hvalue := value_bracketed hs hb opened
    rw [← hs, item_skipBlanks] at hvalue
    exact hvalue.trans (ih opened rest)
  | @last k l t w hl _ hw ih =>
    intro opened rest
    have hs : Number.EndsBefore (w ++ k.closing :: rest) :=
      endsBefore_blanks hw (.cons (by cases k <;> rfl))
    simp only [List.append_assoc]
    rw [passes_item hl ih hs, resume_closing hw]
  | @more k l t w u hl _ hw _ ih ihu =>
    intro opened rest
    have hs : Number.EndsBefore (w ++ 0x2C :: (u ++ k.closing :: rest)) :=
      endsBefore_blanks hw (.cons rfl)
    simp only [List.append_assoc, List.cons_append]
    rw [passes_item hl ih hs, resume_comma hw]
    exact ihu opened rest

/-- A value is passed over whatever it holds, and the text behind it is left. -/
theorem value_append (h : Derives .value t) (hr : Number.EndsBefore rest) :
    value [] (t ++ rest) = .ok rest :=
  passes_of_derives h [] rest hr

end Skip

end FifteenBit.Json
