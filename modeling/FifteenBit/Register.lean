import FifteenBit.Word

/-! The eight registers, and the operand words 32768 to 32775 that name them. -/

namespace FifteenBit

structure Register where
  index : Fin 8
  deriving DecidableEq, Repr

structure NoSuchRegister where
  index : Word
  deriving DecidableEq, Repr

def NoSuchRegister.message (e : NoSuchRegister) : String :=
  "register index out of bound: " ++ toString e.index

namespace Register

def ofIndex (n : Word) : Except NoSuchRegister Register :=
  if h : n.toNat < 8 then .ok ⟨⟨n.toNat, h⟩⟩ else .error ⟨n⟩

def ofOperand? (raw : Word) : Option Register :=
  if h : 32768 ≤ raw.toNat ∧ raw.toNat < 32776 then
    some ⟨⟨raw.toNat - 32768, by omega⟩⟩
  else none

def operand (r : Register) : Word :=
  32768 + r.index.val.toUInt16

def name (r : Register) : String :=
  "_" ++ toString r.index.val

theorem ofOperand?_eq_none_iff (raw : Word) :
    ofOperand? raw = none ↔ ¬(32768 ≤ raw.toNat ∧ raw.toNat < 32776) := by
  unfold ofOperand?
  split <;> simp_all

theorem ofOperand?_operand (r : Register) : ofOperand? r.operand = some r := by
  obtain ⟨i⟩ := r
  revert i
  decide

end Register

abbrev RegisterFile := Vector Word 8

namespace RegisterFile

def zero : RegisterFile :=
  Vector.replicate 8 0

def read (f : RegisterFile) (r : Register) : Word :=
  f[r.index]

def write (f : RegisterFile) (r : Register) (w : Word) : RegisterFile :=
  f.set r.index.val w r.index.isLt

theorem read_write_same (f : RegisterFile) (r : Register) (w : Word) :
    (f.write r w).read r = w := by
  simp [read, write]

theorem read_write_of_ne (f : RegisterFile) {r r' : Register} (w : Word) (h : r ≠ r') :
    (f.write r w).read r' = f.read r' := by
  have hi : r.index.val ≠ r'.index.val := by
    intro he
    apply h
    cases r
    cases r'
    simp_all [Fin.ext_iff]
  simp [read, write, Vector.getElem_set_ne _ _ hi]

end RegisterFile

end FifteenBit
