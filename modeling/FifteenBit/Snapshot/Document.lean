import FifteenBit.Json.Value
import FifteenBit.Snapshot.Text

/-! Reading a snapshot. The document is an object with the fields as members, each
once and in any order, among members of other names that are passed over; or an
array of the fields in their order. Only the input may be missing. -/

namespace FifteenBit.Snapshot

open Json

structure Draft where
  version : Option UInt32
  memory : Option (List Word)
  registers : Option (List Word)
  stack : Option (List Word)
  ip : Option UInt64
  running : Option Bool
  input : Option (List Word)

namespace Draft

def empty : Draft :=
  ⟨none, none, none, none, none, none, none⟩

def has (d : Draft) : Field → Bool
  | .version => d.version.isSome
  | .memory => d.memory.isSome
  | .registers => d.registers.isSome
  | .stack => d.stack.isSome
  | .ip => d.ip.isSome
  | .running => d.running.isSome
  | .input => d.input.isSome

def read (d : Draft) (f : Field) (s : List UInt8) : Except Problem (Draft × List UInt8) :=
  match f with
  | .version => do
    let (n, s) ← natural (Nat.pow 2 32) s
    .ok ({ d with version := some n.toUInt32 }, s)
  | .memory => do
    let (ws, s) ← words s
    .ok ({ d with memory := some ws }, s)
  | .registers => do
    let (ws, s) ← words s
    .ok ({ d with registers := some ws }, s)
  | .stack => do
    let (ws, s) ← words s
    .ok ({ d with stack := some ws }, s)
  | .ip => do
    let (n, s) ← natural (Nat.pow 2 64) s
    .ok ({ d with ip := some n.toUInt64 }, s)
  | .running => do
    let (b, s) ← boolean s
    .ok ({ d with running := some b }, s)
  | .input => do
    let (ws, s) ← words s
    .ok ({ d with input := some ws }, s)

/-- The snapshot, if no field is missing but the input. -/
def finish? (d : Draft) : Option Snapshot :=
  return {
    version := ← d.version
    memory := ← d.memory
    registers := ← d.registers
    stack := ← d.stack
    ip := ← d.ip
    running := ← d.running
    input := d.input.getD [] }

theorem length_read_le {d d' : Draft} {f : Field} {s r : List UInt8}
    (h : d.read f s = .ok (d', r)) : r.length ≤ s.length := by
  cases f <;> obtain ⟨⟨x, t⟩, hx, h⟩ := bind_eq_ok.1 h <;>
    simp only [Except.ok.injEq, Prod.mk.injEq] at h <;> rw [← h.2]
  · exact Nat.le_of_lt (length_natural_lt hx)
  · exact length_words_le hx
  · exact length_words_le hx
  · exact length_words_le hx
  · exact Nat.le_of_lt (length_natural_lt hx)
  · exact length_boolean_le hx
  · exact length_words_le hx

end Draft

/-- Reads a member after the opening quote of its name. -/
def readMember (d : Draft) (s : List UInt8) : Except Problem (Draft × List UInt8) := do
  let (name, s) ← Quoted.read s
  match Field.ofName? name with
  | none => do
    let s ← colon s
    let s ← Skip.value [] s
    .ok (d, s)
  | some f =>
    if d.has f then .error .mismatched
    else do
      let s ← colon s
      d.read f s

theorem length_readMember_le {d d' : Draft} {s r : List UInt8}
    (h : readMember d s = .ok (d', r)) : r.length ≤ s.length := by
  obtain ⟨⟨name, t⟩, hn, h⟩ := bind_eq_ok.1 h
  have ht := Quoted.length_read_lt hn
  simp only at h
  split at h
  · obtain ⟨u, hu, h⟩ := bind_eq_ok.1 h
    obtain ⟨v, hv, h⟩ := bind_eq_ok.1 h
    have hc := length_colon_lt hu
    have hs := Skip.length_value_lt hv
    simp only [Except.ok.injEq, Prod.mk.injEq] at h
    rw [← h.2]
    omega
  · split at h
    · simp at h
    · obtain ⟨u, hu, h⟩ := bind_eq_ok.1 h
      have hc := length_colon_lt hu
      have hr := Draft.length_read_le h
      omega

/-- Reads the members of an object up to its closing bracket. -/
def readMembers (first : Bool) (d : Draft) (s : List UInt8) :
    Except Problem (Draft × List UInt8) :=
  match hn : nextMember first s with
  | .error p => .error p
  | .ok (.closed rest) => .ok (d, rest)
  | .ok (.item t) =>
    match hm : readMember d t with
    | .error p => .error p
    | .ok (d, rest) =>
      have := length_nextMember_lt hn
      have := length_readMember_le hm
      readMembers false d rest
termination_by s.length
decreasing_by simp only [Next.rest] at *; omega

/-- Reads the items of an array as the given fields, up to its closing bracket. -/
def readItems (first : Bool) (d : Draft) (fields : List Field) (s : List UInt8) :
    Except Problem (Draft × List UInt8) :=
  match fields with
  | [] =>
    match skipBlanks s with
    | [] => .error .truncated
    | b :: rest => if b = 0x5D then .ok (d, rest) else .error .malformed
  | f :: fields => do
    match ← nextItem first s with
    | .closed rest => .ok (d, rest)
    | .item t => do
      let (d, rest) ← d.read f t
      readItems false d fields rest

def readDraft (s : List UInt8) : Except Problem (Draft × List UInt8) :=
  match skipBlanks s with
  | [] => .error .truncated
  | b :: t =>
    if b = 0x7B then readMembers true .empty t
    else if b = 0x5B then readItems true .empty Field.all t
    else .error (unwanted (b :: t))

def ofBytes (s : List UInt8) : Except Problem Snapshot := do
  let (d, rest) ← readDraft s
  match d.finish? with
  | none => .error .mismatched
  | some snapshot => if (skipBlanks rest).isEmpty then .ok snapshot else .error .malformed

end FifteenBit.Snapshot
