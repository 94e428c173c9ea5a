import FifteenBit.Json.Number
import FifteenBit.Json.Quoted

/-! Passing over a value of any kind and depth. The brackets that are open are kept
in a list, the innermost first. Numbers need only their form, strings only theirs. -/

namespace FifteenBit.Json

inductive Bracket where
  | square
  | curly
  deriving DecidableEq, Repr

def Bracket.ofOpening? (b : UInt8) : Option Bracket :=
  if b = 0x5B then some .square
  else if b = 0x7B then some .curly
  else none

def Bracket.closing : Bracket → UInt8
  | .square => 0x5D
  | .curly => 0x7D

namespace Skip

/-- Passes a number; one that breaks off is malformed. -/
def number (s : List UInt8) : Except Problem (List UInt8) :=
  match Number.read s with
  | .ok (_, rest) => .ok rest
  | .error _ => .error .malformed

def scalar : List UInt8 → Except Problem (List UInt8)
  | [] => .error .truncated
  | b :: s =>
    if b = 0x22 then Quoted.skip s
    else if Number.begins b then number (b :: s)
    else match wordTail? b with
      | some tail => pass tail s
      | none => .error .malformed

/-- Passes the name of a member and the colon. -/
def memberName (s : List UInt8) : Except Problem (List UInt8) :=
  match skipBlanks s with
  | [] => .error .truncated
  | b :: s =>
    if b = 0x22 then do
      let s ← Quoted.skip s
      match skipBlanks s with
      | [] => .error .truncated
      | c :: s => if c = 0x3A then .ok s else .error .malformed
    else .error .malformed

/-- Goes to the value of the next item in a bracket. -/
def item (bracket : Bracket) (s : List UInt8) : Except Problem (List UInt8) :=
  match bracket with
  | .square => .ok s
  | .curly => memberName s

theorem length_number_lt {s r : List UInt8} (h : number s = .ok r) : r.length < s.length := by
  unfold number at h
  split at h
  · rename_i n rest hn
    simp only [Except.ok.injEq] at h
    exact h ▸ Number.length_read_lt hn
  · simp at h

theorem length_scalar_lt {s r : List UInt8} (h : scalar s = .ok r) : r.length < s.length := by
  unfold scalar at h
  split at h
  · simp at h
  · rename_i b t
    split at h
    · have hlt := Quoted.length_skip_lt h
      simp only [List.length_cons]
      omega
    · split at h
      · exact length_number_lt h
      · split at h
        · have hle := length_pass_le h
          simp only [List.length_cons]
          omega
        · simp at h

theorem length_memberName_lt {s r : List UInt8} (h : memberName s = .ok r) :
    r.length < s.length := by
  have hs := length_skipBlanks_le s
  unfold memberName at h
  split at h
  · simp at h
  · rename_i b t ht
    split at h
    · obtain ⟨u, hu, h⟩ := bind_eq_ok.1 h
      have hlt := Quoted.length_skip_lt hu
      have hb := length_skipBlanks_le u
      split at h
      · simp at h
      · rename_i c v hv
        split at h
        · simp only [Except.ok.injEq] at h
          subst h
          simp only [ht, hv, List.length_cons] at hs hb
          omega
        · simp at h
    · simp at h

theorem length_item_le {bracket : Bracket} {s r : List UInt8} (h : item bracket s = .ok r) :
    r.length ≤ s.length := by
  cases bracket with
  | square => simp_all [item]
  | curly => exact Nat.le_of_lt (length_memberName_lt h)

inductive Progress where
  | done (s : List UInt8)
  | value (opened : List Bracket) (s : List UInt8)

def Progress.rest : Progress → List UInt8
  | .done s => s
  | .value _ s => s

/-- What follows a value: brackets are closed, up to a comma or the last of them. -/
def closing : List Bracket → List UInt8 → Except Problem Progress
  | [], s => .ok (.done s)
  | bracket :: opened, s =>
    match skipBlanks s with
    | [] => .error .truncated
    | b :: t =>
      if b = 0x2C then do
        let rest ← item bracket t
        .ok (.value (bracket :: opened) rest)
      else if b = bracket.closing then closing opened t
      else .error .malformed

/-- Passes a value without items, or enters the bracket that begins it. -/
def step (opened : List Bracket) (s : List UInt8) : Except Problem Progress :=
  match skipBlanks s with
  | [] => .error .truncated
  | b :: t =>
    match Bracket.ofOpening? b with
    | none => do
      let rest ← scalar (b :: t)
      closing opened rest
    | some bracket =>
      match skipBlanks t with
      | [] => .error .truncated
      | c :: u =>
        if c = bracket.closing then closing opened u
        else do
          let rest ← item bracket (c :: u)
          .ok (.value (bracket :: opened) rest)

theorem length_closing_le {opened : List Bracket} {s : List UInt8} {p : Progress}
    (h : closing opened s = .ok p) : p.rest.length ≤ s.length := by
  induction opened generalizing s with
  | nil =>
    simp only [closing, Except.ok.injEq] at h
    subst h
    exact Nat.le_refl _
  | cons bracket opened ih =>
    have hs := length_skipBlanks_le s
    simp only [closing] at h
    split at h
    · simp at h
    · rename_i b t ht
      simp only [ht, List.length_cons] at hs
      split at h
      · obtain ⟨rest, hi, h⟩ := bind_eq_ok.1 h
        have hle := length_item_le hi
        simp only [Except.ok.injEq] at h
        subst h
        simp only [Progress.rest]
        omega
      · split at h
        · have hle := ih h
          omega
        · simp at h

theorem length_step_lt {opened : List Bracket} {s : List UInt8} {p : Progress}
    (h : step opened s = .ok p) : p.rest.length < s.length := by
  have hs := length_skipBlanks_le s
  unfold step at h
  split at h
  · simp at h
  · rename_i b t ht
    simp only [ht, List.length_cons] at hs
    split at h
    · obtain ⟨rest, hr, h⟩ := bind_eq_ok.1 h
      have hlt := length_scalar_lt hr
      have hle := length_closing_le h
      simp only [List.length_cons] at hlt
      omega
    · have hb := length_skipBlanks_le t
      split at h
      · simp at h
      · rename_i c u hu
        simp only [hu, List.length_cons] at hb
        split at h
        · have hle := length_closing_le h
          omega
        · obtain ⟨rest, hi, h⟩ := bind_eq_ok.1 h
          have hle := length_item_le hi
          simp only [Except.ok.injEq] at h
          subst h
          simp only [Progress.rest, List.length_cons] at hle ⊢
          omega

/-- Passes a value and what is left in the open brackets. -/
def value (opened : List Bracket) (s : List UInt8) : Except Problem (List UInt8) :=
  match h : step opened s with
  | .error p => .error p
  | .ok (.done rest) => .ok rest
  | .ok (.value opened rest) =>
    have : rest.length < s.length := length_step_lt h
    value opened rest
termination_by s.length

theorem length_value_lt {opened : List Bracket} {s r : List UInt8}
    (h : value opened s = .ok r) : r.length < s.length := by
  fun_induction value opened s with
  | case1 => simp at h
  | case2 opened s rest hd =>
    simp only [Except.ok.injEq] at h
    exact h ▸ length_step_lt hd
  | case3 opened s inner rest hv hlt ih =>
    have hr := ih h
    omega

end Skip

end FifteenBit.Json
