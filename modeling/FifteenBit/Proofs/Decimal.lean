import FifteenBit.Json.Value
import FifteenBit.Snapshot.Text
import Mathlib.Tactic.IntervalCases

/-! Natural numbers in decimal. They are read back as they are written, whatever follows that
does not go on with the number. -/

namespace FifteenBit

open Json

namespace Json

theorem skipBlanks_of_not_blank {b : UInt8} {s : List UInt8} (h : isBlank b = false) :
    skipBlanks (b :: s) = b :: s := by
  simp [skipBlanks, h]

theorem not_blank_of_isDigit {b : UInt8} (h : isDigit b = true) : isBlank b = false := by
  simp only [isDigit, Bool.and_eq_true, decide_eq_true_eq, UInt8.le_iff_toNat_le] at h
  simp only [isBlank, Bool.or_eq_false_iff, beq_eq_false_iff_ne, ne_eq, ← UInt8.toNat_inj]
  simp only [UInt8.reduceToNat] at h ⊢
  omega

namespace Number

/-- What a byte may do to a number that it follows. -/
def goesOn (b : UInt8) : Bool :=
  isDigit b || b == 0x2E || b == 0x65 || b == 0x45

/-- A number ends where such bytes follow it. -/
def EndsBefore (rest : List UInt8) : Prop :=
  ∀ b ∈ rest.head?, goesOn b = false

theorem EndsBefore.cons {b : UInt8} {rest : List UInt8} (h : goesOn b = false) :
    EndsBefore (b :: rest) := by
  intro c hc
  cases hc
  exact h

theorem EndsBefore.not_digit {rest : List UInt8} (h : EndsBefore rest) :
    ∀ b ∈ rest.head?, isDigit b = false := by
  intro b hb
  have hgoes := h b hb
  simp only [goesOn, Bool.or_eq_false_iff] at hgoes
  exact hgoes.1.1.1

theorem digits_append {ds rest : List UInt8} (hn : ds ≠ []) (hd : ∀ b ∈ ds, isDigit b = true)
    (hr : ∀ b ∈ rest.head?, isDigit b = false) : digits (ds ++ rest) = .ok (ds, rest) := by
  have hstop : rest.takeWhile isDigit = [] ∧ rest.dropWhile isDigit = rest := by
    cases rest with
    | nil => exact ⟨rfl, rfl⟩
    | cons b rest => simp [hr b rfl]
  obtain ⟨b, t, rfl⟩ := List.exists_cons_of_ne_nil hn
  have ht : ∀ c ∈ t, isDigit c = true := fun c hc => hd c (List.mem_cons_of_mem b hc)
  simp only [List.cons_append, digits, hd b List.mem_cons_self, if_true,
    List.takeWhile_append_of_pos ht, List.dropWhile_append_of_pos ht, hstop, List.append_nil]

theorem fractionPart_of_endsBefore {rest : List UInt8} (h : EndsBefore rest) :
    fractionPart rest = .ok (none, rest) := by
  unfold fractionPart
  split
  · simpa [goesOn] using h 0x2E rfl
  · rfl

theorem exponentPart_of_endsBefore {rest : List UInt8} (h : EndsBefore rest) :
    exponentPart rest = .ok (none, rest) := by
  unfold exponentPart
  split
  · simpa [goesOn] using h 0x65 rfl
  · simpa [goesOn] using h 0x45 rfl
  · rfl

theorem significand_append {a k : Nat} {xs : List UInt8} (h : significand a xs = (k, []))
    (ys : List UInt8) : significand a (xs ++ ys) = significand k ys := by
  induction xs generalizing a with
  | nil =>
    cases h
    rfl
  | cons b xs ih =>
    simp only [significand, List.cons_append] at h ⊢
    split
    · rename_i hlt
      rw [if_pos hlt] at h
      exact ih h
    · rename_i hlt
      rw [if_neg hlt] at h
      cases h

end Number

end Json

namespace Snapshot

/-- The byte of a digit. -/
def digitByte (d : Nat) : UInt8 :=
  (Nat.digitChar d).toNat.toUInt8

theorem digitByte_spec {d : Nat} (h : d < 10) :
    isDigit (digitByte d) = true ∧ digit (digitByte d) = d ∧ (digitByte d = 0x30 → d = 0) := by
  interval_cases d <;> decide

/-- The last digit comes after those of the tenth part. -/
theorem decimal_eq (n : Nat) :
    decimal n = (if n < 10 then [] else decimal (n / 10)) ++ [digitByte (n % 10)] := by
  rw [decimal, Nat.toDigits_eq_if (by decide)]
  split
  · rename_i h
    simp [Nat.mod_eq_of_lt h, digitByte]
  · simp [decimal, digitByte]

theorem decimal_ne_nil (n : Nat) : decimal n ≠ [] := by
  rw [decimal_eq]
  simp

theorem isDigit_of_mem_decimal {n : Nat} {b : UInt8} (h : b ∈ decimal n) : isDigit b = true := by
  induction n using Nat.strongRecOn with
  | _ n ih =>
    rw [decimal_eq, List.mem_append, List.mem_singleton] at h
    rcases h with h | rfl
    · split at h
      · cases h
      · exact ih (n / 10) (by omega) h
    · exact (digitByte_spec (Nat.mod_lt n (by decide))).1

/-- Only zero is written with a zero in front. -/
theorem decimal_leading_zero {n : Nat} {t : List UInt8} (h : decimal n = 0x30 :: t) :
    n = 0 ∧ t = [] := by
  induction n using Nat.strongRecOn generalizing t with
  | _ n ih =>
    rw [decimal_eq] at h
    split at h
    · rename_i hlt
      obtain ⟨hd, rfl⟩ := List.cons.inj h
      rw [Nat.mod_eq_of_lt hlt] at hd
      exact ⟨(digitByte_spec hlt).2.2 hd, rfl⟩
    · rename_i hge
      obtain ⟨b, u, hu⟩ := List.exists_cons_of_ne_nil (decimal_ne_nil (n / 10))
      rw [hu] at h
      obtain ⟨rfl, -⟩ := List.cons.inj h
      have h0 := (ih (n / 10) (by omega) hu).1
      omega

theorem significand_decimal {n : Nat} (h : n < 2 ^ 64) :
    Number.significand 0 (decimal n) = (n, []) := by
  induction n using Nat.strongRecOn with
  | _ n ih =>
    have hd := (digitByte_spec (Nat.mod_lt n (by decide : 0 < 10))).2.1
    have hlast (k : Nat) (hk : k * 10 + n % 10 = n) :
        Number.significand k [digitByte (n % 10)] = (n, []) := by
      simp only [Number.significand, hd, hk]
      exact if_pos h
    rw [decimal_eq]
    split
    · rename_i hlt
      exact hlast 0 (by omega)
    · rw [Number.significand_append (ih (n / 10) (by omega) (by omega))]
      exact hlast (n / 10) (by omega)

variable {n bound : Nat} {rest : List UInt8}

theorem integerPart_decimal (n : Nat) (hr : Number.EndsBefore rest) :
    Number.integerPart (decimal n ++ rest) = .ok (decimal n, rest) := by
  have hds := Number.digits_append (decimal_ne_nil n) (fun _ => isDigit_of_mem_decimal) hr.not_digit
  unfold Number.integerPart
  split
  · rename_i s hs
    obtain ⟨b, t, ht⟩ := List.exists_cons_of_ne_nil (decimal_ne_nil n)
    rw [ht, List.cons_append] at hs
    obtain ⟨rfl, rfl⟩ := List.cons.inj hs
    obtain ⟨rfl, rfl⟩ := decimal_leading_zero ht
    cases rest with
    | nil => simp [ht]
    | cons b rest => simp [ht, hr.not_digit b rfl]
  · exact hds

theorem read_decimal (n : Nat) (hr : Number.EndsBefore rest) :
    Number.read (decimal n ++ rest) = .ok (⟨false, decimal n, none, none⟩, rest) := by
  have hu : Number.unsigned false (decimal n ++ rest) =
      .ok (⟨false, decimal n, none, none⟩, rest) := by
    simp only [Number.unsigned, integerPart_decimal n hr, Number.fractionPart_of_endsBefore hr,
      Number.exponentPart_of_endsBefore hr, bind, Except.bind]
  unfold Number.read
  split
  · -- No digit is a sign.
    rename_i s hs
    obtain ⟨b, t, ht⟩ := List.exists_cons_of_ne_nil (decimal_ne_nil n)
    have hb : isDigit b = true := isDigit_of_mem_decimal (ht ▸ List.mem_cons_self)
    rw [ht, List.cons_append] at hs
    obtain ⟨rfl, -⟩ := List.cons.inj hs
    cases hb
  · exact hu

theorem natural_decimal (hn : n < bound) (hb : bound ≤ 2 ^ 64) (hr : Number.EndsBefore rest) :
    natural bound (decimal n ++ rest) = .ok (n, rest) := by
  obtain ⟨b, t, ht⟩ := List.exists_cons_of_ne_nil (decimal_ne_nil n)
  have hdigit : isDigit b = true := isDigit_of_mem_decimal (ht ▸ List.mem_cons_self)
  have hread := read_decimal n hr
  have hvalue : Number.natural? ⟨false, decimal n, none, none⟩ = some n := by
    simp [Number.natural?, significand_decimal (Nat.lt_of_lt_of_le hn hb)]
  rw [ht, List.cons_append] at hread ⊢
  rw [ht] at hvalue
  simp only [natural, skipBlanks_of_not_blank (not_blank_of_isDigit hdigit), Number.begins, hdigit,
    Bool.or_true, if_true, hread, bind, Except.bind, hvalue, if_pos hn]

end Snapshot

end FifteenBit
