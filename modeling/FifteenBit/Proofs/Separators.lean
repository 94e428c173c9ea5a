import FifteenBit.Proofs.SpelledName

/-! Items between brackets, with commas between them and blanks between all tokens. A list of
words is read from any such text. -/

namespace FifteenBit.Json

open Snapshot (decimal truth)

/-- Texts of some items, with commas between them. -/
inductive Separated {α : Type} (R : α → List UInt8 → Prop) : List α → List UInt8 → Prop
  | last {a : α} {t : List UInt8} (h : R a t) : Separated R [a] t
  | more {a : α} {as : List α} {t u : List UInt8} (h : R a t) (hs : Separated R as u) :
    Separated R (a :: as) (t ++ 0x2C :: u)

/-- Texts of some items between two brackets. -/
inductive Bracketed {α : Type} (k : Bracket) (R : α → List UInt8 → Prop) :
    List α → List UInt8 → Prop
  | empty {w : List UInt8} (hw : Blanks w) : Bracketed k R [] (k.opening :: (w ++ [k.closing]))
  | items {as : List α} {t : List UInt8} (h : Separated R as t) :
    Bracketed k R as (k.opening :: (t ++ [k.closing]))

def WordList : List Word → List UInt8 → Prop :=
  Bracketed .square fun w => Padded (decimal w.toNat)

/-- What stands before an item: a comma, unless the item is the first one. -/
def lead (first : Bool) : List UInt8 :=
  if first then [] else [0x2C]

variable {first : Bool} {bound : Nat} {b : UInt8} {s t u w rest : List UInt8}

section Blanks

theorem natural_blanks (hw : Blanks w) (s : List UInt8) :
    natural bound (w ++ s) = natural bound s := by
  rw [natural, natural, skipBlanks_append hw]

theorem boolean_blanks (hw : Blanks w) (s : List UInt8) : boolean (w ++ s) = boolean s := by
  rw [boolean, boolean, skipBlanks_append hw]

theorem words_blanks (hw : Blanks w) (s : List UInt8) : words (w ++ s) = words s := by
  rw [words, words, skipBlanks_append hw]

theorem colon_append (hw : Blanks w) (s : List UInt8) : colon (w ++ 0x3A :: s) = .ok s := by
  have hcolon : skipBlanks (w ++ 0x3A :: s) = 0x3A :: s := skipBlanks_eq_cons hw rfl
  rw [colon, hcolon]
  rfl

theorem nextItem_blanks (hw : Blanks w) (s : List UInt8) :
    nextItem first (w ++ s) = nextItem first s := by
  rw [nextItem, nextItem, skipBlanks_append hw]

theorem nextItem_closing (hw : Blanks w) (first : Bool) (s : List UInt8) :
    nextItem first (w ++ 0x5D :: s) = .ok (.closed s) := by
  have hclosing : skipBlanks (w ++ 0x5D :: s) = 0x5D :: s := skipBlanks_eq_cons hw rfl
  rw [nextItem, hclosing]
  rfl

theorem nextItem_lead (hw : Blanks w) (hb : isBlank b = false) (hne : b ≠ 0x5D) (first : Bool)
    (s : List UInt8) : nextItem first (lead first ++ (w ++ b :: s)) = .ok (.item (b :: s)) := by
  have hskip : skipBlanks (w ++ b :: s) = b :: s := skipBlanks_eq_cons hw hb
  cases first with
  | true => simp [nextItem, lead, hskip, hne]
  | false =>
    have hcomma (t : List UInt8) : skipBlanks (0x2C :: t) = 0x2C :: t :=
      skipBlanks_of_not_blank rfl
    simp [nextItem, lead, hcomma, hskip, hne]

theorem nextMember_blanks (hw : Blanks w) (s : List UInt8) :
    nextMember first (w ++ s) = nextMember first s := by
  rw [nextMember, nextMember, skipBlanks_append hw]

theorem nextMember_closing (hw : Blanks w) (first : Bool) (s : List UInt8) :
    nextMember first (w ++ 0x7D :: s) = .ok (.closed s) := by
  have hclosing : skipBlanks (w ++ 0x7D :: s) = 0x7D :: s := skipBlanks_eq_cons hw rfl
  rw [nextMember, hclosing]
  rfl

theorem nextMember_lead (hw : Blanks w) (first : Bool) (s : List UInt8) :
    nextMember first (lead first ++ (w ++ 0x22 :: s)) = .ok (.item s) := by
  have hskip : skipBlanks (w ++ 0x22 :: s) = 0x22 :: s := skipBlanks_eq_cons hw rfl
  cases first with
  | true => simp [nextMember, lead, hskip]
  | false =>
    have hcomma (t : List UInt8) : skipBlanks (0x2C :: t) = 0x2C :: t :=
      skipBlanks_of_not_blank rfl
    simp [nextMember, lead, hcomma, hskip]

end Blanks

section Words

variable {taken : Array Word} {x : Word} {ws : List Word}

def takeItem (taken : Array Word) : Next → Except Problem (List Word × List UInt8)
  | .closed rest => .ok (taken.toList, rest)
  | .item t => natural 65536 t >>= fun r => items false (taken.push r.1.toUInt16) r.2

theorem items_eq (first : Bool) (taken : Array Word) (s : List UInt8) :
    items first taken s = nextItem first s >>= takeItem taken := by
  rw [items]
  split
  · simp_all [bind, Except.bind]
  · simp_all [takeItem, bind, Except.bind]
  · split <;> simp_all [takeItem, bind, Except.bind]

theorem decimal_cons (n : Nat) :
    ∃ b t, decimal n = b :: t ∧ isBlank b = false ∧ b ≠ 0x5D := by
  obtain ⟨b, t, ht⟩ := List.exists_cons_of_ne_nil (Snapshot.decimal_ne_nil n)
  have hb : isDigit b = true := Snapshot.isDigit_of_mem_decimal (ht ▸ List.mem_cons_self)
  refine ⟨b, t, ht, not_blank_of_isDigit hb, ?_⟩
  rintro rfl
  cases hb

theorem nextItem_decimal (hw : Blanks w) (first : Bool) (n : Nat) (s : List UInt8) :
    nextItem first (lead first ++ (w ++ (decimal n ++ s))) = .ok (.item (decimal n ++ s)) := by
  obtain ⟨b, u, hu, hb, hne⟩ := decimal_cons n
  rw [hu]
  exact nextItem_lead hw hb hne first (u ++ s)

theorem items_padded (hx : Padded (decimal x.toNat) t) (first : Bool) (taken : Array Word)
    (hs : Number.EndsBefore s) :
    items first taken (lead first ++ (t ++ s)) = items false (taken.push x) s := by
  obtain ⟨v, w, hv, hw, rfl⟩ := hx
  have hread := Snapshot.natural_decimal x.toNat_lt (by decide) (endsBefore_blanks hw hs)
  simp only [List.append_assoc, items_eq first, nextItem_decimal hv, takeItem, hread, bind,
    Except.bind, UInt16.ofNat_toNat]
  rw [items_eq, items_eq, nextItem_blanks hw]

theorem items_closing (hw : Blanks w) (first : Bool) (taken : Array Word) (rest : List UInt8) :
    items first taken (w ++ 0x5D :: rest) = .ok (taken.toList, rest) := by
  rw [items_eq, nextItem_closing hw]
  rfl

theorem items_separated (h : Separated (fun w => Padded (decimal w.toNat)) ws t) (first : Bool)
    (taken : Array Word) (rest : List UInt8) :
    items first taken (lead first ++ (t ++ 0x5D :: rest)) = .ok (taken.toList ++ ws, rest) := by
  -- Only the first item has no comma before it, so the claim is about both values of `first`.
  induction h generalizing first taken with
  | @last x t h =>
    have hs : Number.EndsBefore (0x5D :: rest) := .cons rfl
    rw [items_padded h first taken hs]
    simpa using items_closing .nil false (taken.push x) rest
  | @more x ws t u h _ ih =>
    have hs : Number.EndsBefore (0x2C :: (u ++ 0x5D :: rest)) := .cons rfl
    rw [List.append_assoc, List.cons_append, items_padded h first taken hs]
    simpa [lead] using ih false (taken.push x)

theorem words_opening (t : List UInt8) : words (0x5B :: t) = items true #[] t := by
  rw [words, skipBlanks_of_not_blank rfl]
  rfl

theorem words_append (h : WordList ws t) (rest : List UInt8) :
    words (t ++ rest) = .ok (ws, rest) := by
  cases h with
  | @empty w hw =>
    have hclosing := items_closing hw true #[] rest
    simpa [Bracket.opening, Bracket.closing, words_opening] using hclosing
  | @items ws t h =>
    have hitems := items_separated h true #[] rest
    simpa [Bracket.opening, Bracket.closing, words_opening, lead] using hitems

end Words

theorem boolean_append (b : Bool) (rest : List UInt8) :
    boolean (truth b ++ rest) = .ok (b, rest) := by
  cases b with
  | false =>
    show boolean (0x66 :: 0x61 :: 0x6C :: 0x73 :: 0x65 :: rest) = _
    rw [boolean, skipBlanks_of_not_blank rfl]
    rfl
  | true =>
    show boolean (0x74 :: 0x72 :: 0x75 :: 0x65 :: rest) = _
    rw [boolean, skipBlanks_of_not_blank rfl]
    rfl

end FifteenBit.Json
