/-! A memory cell holds a word of sixteen bits. Registers, the stack and the
results of instructions hold values, the words below 32768. -/

namespace FifteenBit

abbrev Word := UInt16

/-- The number of memory cells, and the number of values. -/
abbrev memorySize : Nat := 32768

/-- Reduces a result into the range of values. -/
def wrap (n : UInt32) : Word :=
  (n % 32768).toUInt16

def Word.ofSigned (n : Int16) : Word :=
  n.toUInt16

theorem toNat_wrap (n : UInt32) : (wrap n).toNat = n.toNat % 32768 := by
  simp only [wrap, UInt32.toNat_toUInt16, UInt32.toNat_mod, UInt32.reduceToNat]
  omega

theorem wrap_lt (n : UInt32) : wrap n < 32768 := by
  rw [UInt16.lt_iff_toNat_lt, toNat_wrap]
  exact Nat.mod_lt _ (by decide)

theorem wrap_of_lt {w : Word} (h : w < 32768) : wrap w.toUInt32 = w := by
  rw [UInt16.lt_iff_toNat_lt] at h
  apply UInt16.toNat_inj.1
  rw [toNat_wrap, UInt16.toNat_toUInt32]
  exact Nat.mod_eq_of_lt h

namespace Word

/-- The low byte comes first. -/
def bytes (w : Word) : List UInt8 :=
  [(w % 256).toUInt8, (w / 256).toUInt8]

def ofBytes (low high : UInt8) : Word :=
  low.toUInt16 + 256 * high.toUInt16

theorem ofBytes_bytes (w : Word) :
    ofBytes (w % 256).toUInt8 (w / 256).toUInt8 = w := by
  apply UInt16.toNat_inj.1
  have h := w.toNat_lt
  simp [ofBytes, UInt16.toNat_add, UInt16.toNat_mul, UInt16.toNat_mod, UInt16.toNat_div]
  omega

theorem bytes_ofBytes (low high : UInt8) : (ofBytes low high).bytes = [low, high] := by
  have hl := low.toNat_lt
  have hh := high.toNat_lt
  simp only [bytes, List.cons.injEq, and_true, ← UInt8.toNat_inj]
  simp [ofBytes, UInt16.toNat_add, UInt16.toNat_mul, UInt16.toNat_mod, UInt16.toNat_div]
  omega

end Word

end FifteenBit
