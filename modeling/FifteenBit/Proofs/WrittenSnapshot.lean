import FifteenBit.Proofs.Members

/-! A written snapshot is read back. It is one of the objects with the members of the snapshot:
the one with all of them in their order and without a blank. -/

namespace FifteenBit

namespace Json

open Snapshot (decimal commas wordList)

theorem Padded.refl (t : List UInt8) : Padded t t :=
  ⟨[], [], .nil, .nil, (List.append_nil t).symm⟩

theorem separated_commas {α : Type} {R : α → List UInt8 → Prop} {as : List α}
    {ts : List (List UInt8)} (h : List.Forall₂ R as ts) (hn : as ≠ []) :
    Separated R as (commas ts) := by
  induction h with
  | nil => exact absurd rfl hn
  | @cons a t as ts ha hs ih =>
    cases hs with
    | nil => simpa [commas] using Separated.last ha
    | cons hb hs => simpa [commas] using Separated.more ha (ih (List.cons_ne_nil _ _))

theorem wordList_wordList (ws : List Word) : WordList ws (wordList ws) := by
  by_cases hn : ws = []
  · subst hn
    exact .empty .nil
  · have hitems : List.Forall₂ (fun w => Padded (decimal w.toNat)) ws
        (ws.map fun w => decimal w.toNat) :=
      List.forall₂_map_right_iff.2 (List.forall₂_same.2 fun w _ => .refl _)
    exact .items (separated_commas hitems hn)

/-- Characters that need no escape are a way to write themselves. -/
theorem Quoted.name_utf8 {cs : List Char}
    (h : ∀ c ∈ cs, c ≠ '"' ∧ c ≠ '\\' ∧ 0x20 ≤ c.toNat) : Name cs (Stream.utf8 cs) := by
  induction cs with
  | nil => exact .nil
  | cons c cs ih =>
    obtain ⟨hq, hb, hc⟩ := h c List.mem_cons_self
    exact .cons (.plain hq hb hc) (ih fun d hd => h d (List.mem_cons_of_mem c hd))

end Json

namespace Snapshot

open Json

variable {s : Snapshot}

theorem Field.exists_name (f : Field) : ∃ cs, Stream.utf8 cs = f.name ∧ Quoted.Name cs f.name := by
  have hname : Stream.utf8 (f.name.map fun b => Char.ofNat b.toNat) = f.name := by
    cases f <;> decide
  have hplain : (f.name.map fun b => Char.ofNat b.toNat).all
      (fun c => c != '"' && c != '\\' && 0x20 ≤ c.toNat) = true := by
    cases f <;> decide
  refine ⟨_, hname, ?_⟩
  have hn := Quoted.name_utf8 fun c hc => by simpa [and_assoc] using List.all_eq_true.1 hplain c hc
  rwa [hname] at hn

theorem lays_value (s : Snapshot) (f : Field) : s.Lays f (s.value f) := by
  cases f with
  | version | ip | running => rfl
  | memory | registers | stack | input => exact wordList_wordList _

theorem member_member (s : Snapshot) (f : Field) : Member (some (s, f)) (s.member f) := by
  obtain ⟨cs, hcs, hn⟩ := f.exists_name
  refine .field hcs (s.lays_value f) ⟨[], f.name, [], s.value f, .nil, hn, .nil, .refl _, ?_⟩
  simp [member]

theorem bracketed_bytes (s : Snapshot) :
    Bracketed .curly Member (Field.all.map fun f => some (s, f)) s.bytes := by
  have hmembers : List.Forall₂ Member (Field.all.map fun f => some (s, f))
      (Field.all.map s.member) := by
    rw [List.forall₂_map_left_iff, List.forall₂_map_right_iff]
    exact List.forall₂_same.2 fun f _ => s.member_member f
  exact .items (separated_commas hmembers (List.cons_ne_nil _ _))

/-- What follows a written snapshot is looked at last. -/
theorem ofBytes_append (s : Snapshot) (rest : List UInt8) :
    ofBytes (s.bytes ++ rest) =
      if (skipBlanks rest).isEmpty then .ok s else .error .malformed := by
  rw [ofBytes, readDraft_object s.bracketed_bytes]
  rfl

/-- What is written is read back, whatever the snapshot holds. -/
theorem ofBytes_bytes (s : Snapshot) : ofBytes s.bytes = .ok s := by
  have happend := ofBytes_append s []
  rwa [List.append_nil] at happend

end Snapshot

end FifteenBit
