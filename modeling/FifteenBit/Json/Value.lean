import FifteenBit.Json.Skip
import FifteenBit.Word

/-! Values of a wanted kind: natural numbers below a bound, truth values, and lists
of words; and the separators of arrays and objects. -/

namespace FifteenBit.Json

/-- The problem with a number that is looked at in vain. -/
def Number.problem (n : Number) : Problem :=
  if n.tooBig then .malformed else .mismatched

/-- The problem with a value of an unwanted kind. What is wrong inside it comes before
its kind. -/
def unwanted : List UInt8 → Problem
  | [] => .truncated
  | b :: s =>
    if b = 0x22 then .ofUnwanted (Quoted.read s)
    else if Number.begins b then
      match Number.read (b :: s) with
      | .error p => p
      | .ok (n, _) => n.problem
    else if b = 0x5B ∨ b = 0x7B then .mismatched
    else match wordTail? b with
      | some tail => .ofUnwanted (pass tail s)
      | none => .malformed

def natural (bound : Nat) (s : List UInt8) : Except Problem (Nat × List UInt8) :=
  match skipBlanks s with
  | [] => .error .truncated
  | b :: t =>
    if Number.begins b then do
      let (n, rest) ← Number.read (b :: t)
      match n.natural? with
      | some k => if k < bound then .ok (k, rest) else .error .mismatched
      | none => .error n.problem
    else .error (unwanted (b :: t))

def boolean (s : List UInt8) : Except Problem (Bool × List UInt8) :=
  match skipBlanks s with
  | [] => .error .truncated
  | b :: t =>
    if b = 0x74 then do
      let rest ← pass [0x72, 0x75, 0x65] t
      .ok (true, rest)
    else if b = 0x66 then do
      let rest ← pass [0x61, 0x6C, 0x73, 0x65] t
      .ok (false, rest)
    else .error (unwanted (b :: t))

inductive Next where
  | item (s : List UInt8)
  | closed (s : List UInt8)

def Next.rest : Next → List UInt8
  | .item s => s
  | .closed s => s

/-- Goes to the next item of an array. -/
def nextItem (first : Bool) (s : List UInt8) : Except Problem Next :=
  match skipBlanks s with
  | [] => .error .truncated
  | b :: t =>
    if b = 0x5D then .ok (.closed t)
    else if first then .ok (.item (b :: t))
    else if b = 0x2C then
      match skipBlanks t with
      | [] => .error .truncated
      | c :: u => if c = 0x5D then .error .malformed else .ok (.item (c :: u))
    else .error .malformed

/-- Goes to the name of the next member of an object, after its opening quote. -/
def nextMember (first : Bool) (s : List UInt8) : Except Problem Next :=
  match skipBlanks s with
  | [] => .error .truncated
  | b :: t =>
    if b = 0x7D then .ok (.closed t)
    else if first then
      if b = 0x22 then .ok (.item t) else .error .malformed
    else if b = 0x2C then
      match skipBlanks t with
      | [] => .error .truncated
      | c :: u => if c = 0x22 then .ok (.item u) else .error .malformed
    else .error .malformed

def colon (s : List UInt8) : Except Problem (List UInt8) :=
  match skipBlanks s with
  | [] => .error .truncated
  | b :: t => if b = 0x3A then .ok t else .error .malformed

theorem length_natural_lt {bound : Nat} {s r : List UInt8} {k : Nat}
    (h : natural bound s = .ok (k, r)) : r.length < s.length := by
  have hs := length_skipBlanks_le s
  unfold natural at h
  split at h
  · simp at h
  · rename_i b t ht
    split at h
    · obtain ⟨⟨n, u⟩, hn, h⟩ := bind_eq_ok.1 h
      have hlt := Number.length_read_lt hn
      simp only at h
      split at h
      · split at h
        · simp only [Except.ok.injEq, Prod.mk.injEq] at h
          rw [← ht] at hlt
          rw [← h.2]
          omega
        · simp at h
      · simp at h
    · simp at h

theorem length_boolean_le {s r : List UInt8} {x : Bool} (h : boolean s = .ok (x, r)) :
    r.length ≤ s.length := by
  have hs := length_skipBlanks_le s
  unfold boolean at h
  split at h
  · simp at h
  · rename_i b t ht
    simp only [ht, List.length_cons] at hs
    split at h
    · obtain ⟨u, hu, h⟩ := bind_eq_ok.1 h
      have hle := length_pass_le hu
      simp only [Except.ok.injEq, Prod.mk.injEq] at h
      rw [← h.2]
      omega
    · split at h
      · obtain ⟨u, hu, h⟩ := bind_eq_ok.1 h
        have hle := length_pass_le hu
        simp only [Except.ok.injEq, Prod.mk.injEq] at h
        rw [← h.2]
        omega
      · simp at h

theorem length_nextItem_le {first : Bool} {s : List UInt8} {n : Next}
    (h : nextItem first s = .ok n) : n.rest.length ≤ s.length := by
  have hs := length_skipBlanks_le s
  unfold nextItem at h
  split at h
  · simp at h
  · rename_i b t ht
    simp only [ht, List.length_cons] at hs
    split at h
    · simp only [Except.ok.injEq] at h
      subst h
      simp only [Next.rest]
      omega
    · split at h
      · simp only [Except.ok.injEq] at h
        subst h
        simp only [Next.rest, List.length_cons]
        omega
      · split at h
        · have hb := length_skipBlanks_le t
          split at h
          · simp at h
          · rename_i c u hu
            simp only [hu, List.length_cons] at hb
            split at h
            · simp at h
            · simp only [Except.ok.injEq] at h
              subst h
              simp only [Next.rest, List.length_cons]
              omega
        · simp at h

theorem length_nextMember_lt {first : Bool} {s : List UInt8} {n : Next}
    (h : nextMember first s = .ok n) : n.rest.length < s.length := by
  have hs := length_skipBlanks_le s
  unfold nextMember at h
  split at h
  · simp at h
  · rename_i b t ht
    simp only [ht, List.length_cons] at hs
    split at h
    · simp only [Except.ok.injEq] at h
      subst h
      simp only [Next.rest]
      omega
    · split at h
      · split at h
        · simp only [Except.ok.injEq] at h
          subst h
          simp only [Next.rest]
          omega
        · simp at h
      · split at h
        · have hb := length_skipBlanks_le t
          split at h
          · simp at h
          · rename_i c u hu
            simp only [hu, List.length_cons] at hb
            split at h
            · simp only [Except.ok.injEq] at h
              subst h
              simp only [Next.rest]
              omega
            · simp at h
        · simp at h

theorem length_colon_lt {s r : List UInt8} (h : colon s = .ok r) : r.length < s.length := by
  have hs := length_skipBlanks_le s
  unfold colon at h
  split at h
  · simp at h
  · rename_i b t ht
    simp only [ht, List.length_cons] at hs
    split at h
    · simp only [Except.ok.injEq] at h
      subst h
      omega
    · simp at h

/-- Reads the items of an array of words; `taken` holds those before. -/
def items (first : Bool) (taken : Array Word) (s : List UInt8) :
    Except Problem (List Word × List UInt8) :=
  match hn : nextItem first s with
  | .error p => .error p
  | .ok (.closed rest) => .ok (taken.toList, rest)
  | .ok (.item t) =>
    match hk : natural 65536 t with
    | .error p => .error p
    | .ok (k, rest) =>
      have := length_nextItem_le hn
      have := length_natural_lt hk
      items false (taken.push k.toUInt16) rest
termination_by s.length
decreasing_by simp only [Next.rest] at *; omega

def words (s : List UInt8) : Except Problem (List Word × List UInt8) :=
  match skipBlanks s with
  | [] => .error .truncated
  | b :: t => if b = 0x5B then items true #[] t else .error (unwanted (b :: t))

theorem length_items_le {first : Bool} {taken : Array Word} {s r : List UInt8}
    {ws : List Word} (h : items first taken s = .ok (ws, r)) : r.length ≤ s.length := by
  fun_induction items first taken s with
  | case1 => simp at h
  | case2 first taken s rest hn =>
    have hle := length_nextItem_le hn
    simp only [Except.ok.injEq, Prod.mk.injEq] at h
    exact h.2 ▸ hle
  | case3 => simp at h
  | case4 first taken s t hn k rest hk _ _ ih =>
    have hle := length_nextItem_le hn
    have hlt := length_natural_lt hk
    have hr := ih h
    simp only [Next.rest] at hle
    omega

theorem length_words_le {s r : List UInt8} {ws : List Word} (h : words s = .ok (ws, r)) :
    r.length ≤ s.length := by
  have hs := length_skipBlanks_le s
  unfold words at h
  split at h
  · simp at h
  · rename_i b t ht
    simp only [ht, List.length_cons] at hs
    split at h
    · have hle := length_items_le h
      omega
    · simp at h

end FifteenBit.Json
