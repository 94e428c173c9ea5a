import FifteenBit.Proofs.SavedFile
import Mathlib.Data.String.Basic

/-! Paths that are a name alone. They lead to that name in the working folder. -/

namespace FifteenBit

section Slash

open String (utf8Len ofList)

theorem splitOnAux_of_no_slash (before after : List Char) (h : '/' ∉ after) :
    (ofList (before ++ after)).splitOnAux "/" 0 ⟨utf8Len before⟩ 0 [] =
      [ofList (before ++ after)] := by
  -- The position is behind the characters that were read, so what is still to be read gets shorter.
  induction after generalizing before with
  | nil =>
    have hend := (String.atEnd_of_valid before []).2 rfl
    have hall := String.extract_of_valid [] before []
    rw [List.nil_append, String.utf8Len_nil, Nat.zero_add] at hall
    rw [String.splitOnAux, if_pos hend]
    exact congrArg (fun s => [s]) (hall.trans (congrArg ofList (List.append_nil before).symm))
  | cons c after ih =>
    rw [List.mem_cons, not_or] at h
    have hend := mt (String.atEnd_of_valid before (c :: after)).1 (List.cons_ne_nil c after)
    have hget : String.Pos.Raw.get (ofList (before ++ c :: after)) ⟨utf8Len before⟩ = c :=
      String.get_of_valid before (c :: after)
    have hne : ¬ (c == String.Pos.Raw.get "/" 0) = true := fun he => h.1 (beq_iff_eq.1 he).symm
    have hnext := String.next_of_valid before c after
    have hrest := ih (before ++ [c]) h.2
    rw [List.append_assoc, List.singleton_append, String.utf8Len_append, String.utf8Len_cons,
      String.utf8Len_nil, Nat.zero_add] at hrest
    rw [String.splitOnAux, if_neg hend, hget, if_neg hne]
    exact Eq.trans (congrArg (String.splitOnAux _ "/" 0 · 0 []) hnext) hrest

theorem splitOn_of_no_slash {name : String} (h : '/' ∉ name.toList) :
    name.splitOn "/" = [name] := by
  have hs := splitOnAux_of_no_slash [] name.toList h
  rw [List.nil_append, String.ofList_toList] at hs
  rw [String.splitOn, if_neg (by decide)]
  exact hs

theorem startsWith_of_no_slash {name : String} (h : '/' ∉ name.toList) :
    name.startsWith "/" = false := by
  rw [String.startsWith_string_eq_false_iff]
  exact fun hp => h (hp.subset (List.mem_singleton.2 rfl))

end Slash

/-- A name as it stands for a file of the working folder. -/
structure Path.IsPlain (name : String) : Prop where
  is_name : Path.isName name = true
  not_up : name ≠ ".."
  no_slash : '/' ∉ name.toList
  no_nul : '\x00' ∉ name.toList
  short : name.utf8ByteSize ≤ 255

namespace Path

instance (name : String) : Decidable (IsPlain name) :=
  decidable_of_iff (isName name = true ∧ name ≠ ".." ∧ '/' ∉ name.toList ∧ '\x00' ∉ name.toList ∧
      name.utf8ByteSize ≤ 255)
    ⟨fun ⟨h₁, h₂, h₃, h₄, h₅⟩ => ⟨h₁, h₂, h₃, h₄, h₅⟩,
      fun ⟨h₁, h₂, h₃, h₄, h₅⟩ => ⟨h₁, h₂, h₃, h₄, h₅⟩⟩

theorem IsPlain.ofString {name : String} (h : IsPlain name) :
    Path.ofString name = ⟨false, [], some name, false⟩ := by
  have hne : name ≠ "" := by
    rintro rfl
    exact absurd h.is_name (by decide)
  have hnames : [name].filter isName = [name] := by rw [List.filter_singleton, h.is_name, cond_true]
  have hparts : [name].filter (· != "") = [name] := by simp [hne]
  simp only [Path.ofString, splitOn_of_no_slash h.no_slash, startsWith_of_no_slash h.no_slash,
    hnames, hparts]
  simp [h.not_up, hne]

end Path

namespace FileStore

variable {store : FileStore} {name : String}

theorem locate_of_isPlain (h : Path.IsPlain name) (store : FileStore) :
    store.locate name = .ok (.name store.working name false) := by
  have hnul : name.contains '\x00' = false := by
    rw [String.contains_char_eq]
    exact decide_eq_false h.no_nul
  have hlong : ¬ 4096 ≤ name.utf8ByteSize := by
    have hs := h.short
    omega
  rw [locate, hnul, if_neg Bool.false_ne_true, if_neg hlong]
  simp only [h.ofString]
  rfl

theorem read_of_isPlain {bytes : List UInt8} (h : Path.IsPlain name)
    (he : store.entry? (store.working ++ [name]) = some (.file bytes)) :
    store.read name = .ok bytes := by
  have hlook : store.look store.working name = .ok (some (.file bytes)) := by
    rw [look, if_neg (Nat.not_lt.2 h.short), he]
  rw [read, locate_of_isPlain h]
  simp only [bind, Except.bind, hlook]
  rfl

theorem writable_of_isPlain (h : Path.IsPlain name)
    (he : store.entry? (store.working ++ [name]) ≠ some .folder) : store.Writable name :=
  ⟨[], _, write_of_locate (locate_of_isPlain h store) h.short he []⟩

end FileStore

end FifteenBit
