import FifteenBit.Proofs.Grammar
import FifteenBit.Proofs.StandardInput

/-! Names of members. A character may stand for itself or be escaped, by one letter, by its number
or by two surrogates; the reader gets the same name from all of them. -/

namespace FifteenBit.Json.Quoted

/-- The ways to write a character between quotes. -/
inductive Spells (c : Char) : List UInt8 → Prop
  | plain (hq : c ≠ '"') (hb : c ≠ '\\') (hc : 0x20 ≤ c.toNat) :
    Spells c (String.utf8EncodeChar c)
  | escape {b x : UInt8} (h : (b, x) ∈ escapes) (hc : c.toNat = x.toNat) : Spells c [0x5C, b]
  | numbered {ds : List UInt8} (h : Hex c.toNat ds) : Spells c (0x5C :: 0x75 :: ds)
  | paired {high low : Nat} {ds es : List UInt8} (hh : Hex (0xD800 + high) ds)
      (hl : Hex (0xDC00 + low) es) (hhigh : high < 0x400) (hlow : low < 0x400)
      (hc : c.toNat = 0x10000 + (high * 0x400 + low)) :
    Spells c (0x5C :: 0x75 :: (ds ++ 0x5C :: 0x75 :: es))

inductive Name : List Char → List UInt8 → Prop
  | nil : Name [] []
  | cons {c : Char} {cs : List Char} {t u : List UInt8} (hc : Spells c t) (h : Name cs u) :
    Name (c :: cs) (t ++ u)

variable {c : Char} {cs : List Char} {b : UInt8} {s t rest decoded : List UInt8}

theorem decode_append (h : ∀ b ∈ t, isPlain b = true) (decoded rest : List UInt8) :
    decode (t ++ rest) decoded = decode rest (t.reverse ++ decoded) := by
  induction t generalizing decoded with
  | nil => rfl
  | cons b t ih =>
    have hb := h b List.mem_cons_self
    simp only [isPlain, Bool.and_eq_true, bne_iff_ne, decide_eq_true_eq] at hb
    rw [List.cons_append, decode, if_neg hb.1.1, if_neg hb.1.2, if_neg (UInt8.not_lt.2 hb.2),
      ih fun b hm => h b (List.mem_cons_of_mem _ hm)]
    simp

theorem decode_quote (decoded rest : List UInt8) :
    decode (0x22 :: rest) decoded = .ok (decoded.reverse, rest) := by
  rw [decode, if_pos rfl]

theorem isPlain_of_mem (hq : c ≠ '"') (hs : c ≠ '\\') (hc : 0x20 ≤ c.toNat)
    (hb : b ∈ String.utf8EncodeChar c) : isPlain b = true := by
  have hne (d : Char) (hd : c ≠ d) : c.toNat ≠ d.toNat := fun h => hd (Char.toNat_inj.1 h)
  have hquote : c.toNat ≠ 0x22 := hne '"' hq
  have hslash : c.toNat ≠ 0x5C := hne '\\' hs
  simp only [isPlain, Bool.and_eq_true, bne_iff_ne, ne_eq, decide_eq_true_eq,
    UInt8.le_iff_toNat_le, ← UInt8.toNat_inj, UInt8.reduceToNat]
  rcases Stream.toNat_of_mem_utf8EncodeChar hb with h | h <;> omega

theorem utf8EncodeChar_of_lt {x : UInt8} (hc : c.toNat = x.toNat) (hx : x.toNat < 128) :
    String.utf8EncodeChar c = [x] := by
  have hsize : c.utf8Size = 1 := by
    rw [Char.utf8Size_eq_one_iff, UInt32.le_iff_toNat_le]
    show c.toNat ≤ 127
    omega
  rw [String.utf8EncodeChar_eq_singleton hsize]
  congr 1
  apply UInt8.toNat_inj.1
  show c.toNat % 256 = x.toNat
  omega

theorem utf8_toNat (c : Char) : Quoted.utf8 c.toNat = String.utf8EncodeChar c := by
  rw [Quoted.utf8, Char.ofNat_toNat]

theorem decode_escape (h : escape s = .ok (t, rest)) (decoded : List UInt8) :
    decode (0x5C :: s) decoded = decode rest (t.reverse ++ decoded) := by
  rw [decode, if_neg (by decide), if_pos rfl]
  split <;> simp_all

theorem escape_numbered {ds : List UInt8} (h : Hex c.toNat ds) (rest : List UInt8) :
    escape (0x75 :: (ds ++ rest)) = .ok (String.utf8EncodeChar c, rest) := by
  have hvalid : c.toNat < 0xD800 ∨ 0xDFFF < c.toNat ∧ c.toNat < 0x110000 := c.valid
  have htrailing : isTrailing c.toNat = false := by
    simp only [isTrailing, Bool.and_eq_false_iff, decide_eq_false_iff_not]
    omega
  have hleading : isLeading c.toNat = false := by
    simp only [isLeading, Bool.and_eq_false_iff, decide_eq_false_iff_not]
    omega
  simp [escape, numberedEscape, hexNumber_append h, htrailing, hleading, utf8_toNat, bind,
    Except.bind]

theorem escape_paired {high low : Nat} {ds es : List UInt8} (hh : Hex (0xD800 + high) ds)
    (hl : Hex (0xDC00 + low) es) (hhigh : high < 0x400) (hlow : low < 0x400)
    (hc : c.toNat = 0x10000 + (high * 0x400 + low)) (rest : List UInt8) :
    escape (0x75 :: (ds ++ 0x5C :: 0x75 :: (es ++ rest))) =
      .ok (String.utf8EncodeChar c, rest) := by
  have hfirst : isTrailing (0xD800 + high) = false ∧ isLeading (0xD800 + high) = true := by
    simp only [isTrailing, isLeading, Bool.and_eq_false_iff, Bool.and_eq_true,
      decide_eq_false_iff_not, decide_eq_true_eq]
    omega
  have hsecond : isTrailing (0xDC00 + low) = true := by
    simp only [isTrailing, Bool.and_eq_true, decide_eq_true_eq]
    omega
  have hpass : pass [0x5C, 0x75] (0x5C :: 0x75 :: (es ++ rest)) = .ok (es ++ rest) := rfl
  have hn : 0x10000 + (0xD800 + high - 0xD800) * 0x400 + (0xDC00 + low - 0xDC00) = c.toNat := by
    omega
  simp only [escape, numberedEscape, hexNumber_append hh, hexNumber_append hl, hfirst, hsecond,
    hpass, hn, utf8_toNat, bind, Except.bind, if_true, Bool.false_eq_true, if_false]

/-- Whichever way a character is written, it is decoded. -/
theorem decode_spells (h : Spells c t) (decoded rest : List UInt8) :
    decode (t ++ rest) decoded =
      decode rest ((String.utf8EncodeChar c).reverse ++ decoded) := by
  cases h with
  | plain hq hb hc => exact decode_append (fun b => isPlain_of_mem hq hb hc) decoded rest
  | @escape b x h hc =>
    obtain ⟨he, hu⟩ := plainEscape?_of_mem h
    have hx : x.toNat < 128 := by
      have hall : escapes.all (fun p => p.2.toNat < 128) = true := rfl
      exact of_decide_eq_true (List.all_eq_true.1 hall _ h)
    rw [utf8EncodeChar_of_lt hc hx]
    have hescape : Quoted.escape (b :: rest) = .ok ([x], rest) := by
      simp only [Quoted.escape, if_neg hu, he]
    exact decode_escape hescape decoded
  | numbered h => exact decode_escape (escape_numbered h rest) decoded
  | paired hh hl hhigh hlow hc =>
    simp only [List.cons_append, List.append_assoc]
    exact decode_escape (escape_paired hh hl hhigh hlow hc rest) decoded

theorem decode_name (h : Name cs t) (decoded rest : List UInt8) :
    decode (t ++ rest) decoded = decode rest ((Stream.utf8 cs).reverse ++ decoded) := by
  induction h generalizing decoded with
  | nil => rfl
  | cons hc _ ih =>
    rw [List.append_assoc, decode_spells hc, ih]
    simp [Stream.utf8]

theorem validateUTF8_utf8 (cs : List Char) :
    (ByteArray.mk (Stream.utf8 cs).toArray).validateUTF8 = true := by
  rw [ByteArray.validateUTF8_eq_true_iff, Stream.mk_utf8]
  exact ByteArray.isValidUTF8_utf8Encode

theorem read_name (h : Name cs t) (rest : List UInt8) :
    read (t ++ 0x22 :: rest) = .ok (Stream.utf8 cs, rest) := by
  simp only [read, decode_name h, decode_quote, List.append_nil, List.reverse_reverse,
    validateUTF8_utf8, if_true, bind, Except.bind]

end FifteenBit.Json.Quoted
