import FifteenBit.Proofs.Separators
import FifteenBit.Snapshot.Document
import Mathlib.Data.List.Perm.Basic
import Mathlib.Data.List.ReduceOption

/-! Members of an object and items of an array. A member fills its part of the draft, wherever it
stands, and one of another name changes nothing. Only a field that comes again is noticed. -/

namespace FifteenBit

namespace Snapshot

open Json

/-- The ways to lay out the value of a field. -/
def Lays (s : Snapshot) (f : Field) (t : List UInt8) : Prop :=
  match f with
  | .version => t = decimal s.version.toNat
  | .memory => WordList s.memory t
  | .registers => WordList s.registers t
  | .stack => WordList s.stack t
  | .ip => t = decimal s.ip.toNat
  | .running => t = truth s.running
  | .input => WordList s.input t

/-- A member is a name between quotes, a colon and a value. The name is any one that spells the
given characters. -/
def MemberText (cs : List Char) (x t : List UInt8) : Prop :=
  ∃ u n v y, Blanks u ∧ Quoted.Name cs n ∧ Blanks v ∧ Padded x y ∧
    t = u ++ 0x22 :: (n ++ 0x22 :: (v ++ 0x3A :: y))

/-- A member is a field of some snapshot, or it has another name and any value. -/
inductive Member : Option (Snapshot × Field) → List UInt8 → Prop
  | field {s : Snapshot} {f : Field} {cs : List Char} {x t : List UInt8}
      (hn : Stream.utf8 cs = f.name) (hx : s.Lays f x) (h : MemberText cs x t) :
    Member (some (s, f)) t
  | other {cs : List Char} {x t : List UInt8} (hn : ∀ f : Field, Stream.utf8 cs ≠ f.name)
      (hx : Derives .value x) (h : MemberText cs x t) : Member none t

/-- An object that has these fields, in this order, each with its value in the snapshot beside
it, and has any members of other names among them. -/
def Document (fields : List (Snapshot × Field)) (doc : List UInt8) : Prop :=
  ∃ members t, Bracketed .curly Member members t ∧ Padded t doc ∧ members.reduceOption = fields

/-- An array of the values of these fields. -/
def Row (s : Snapshot) (fields : List Field) (doc : List UInt8) : Prop :=
  ∃ t, Bracketed .square (fun f u => ∃ x, s.Lays f x ∧ Padded x u) fields t ∧ Padded t doc

namespace Draft

def fill (d : Draft) (s : Snapshot) : Field → Draft
  | .version => { d with version := some s.version }
  | .memory => { d with memory := some s.memory }
  | .registers => { d with registers := some s.registers }
  | .stack => { d with stack := some s.stack }
  | .ip => { d with ip := some s.ip }
  | .running => { d with running := some s.running }
  | .input => { d with input := some s.input }

/-- What a member does to a draft. -/
def add (d : Draft) (p : Snapshot × Field) : Except Problem Draft :=
  if d.has p.2 then .error .mismatched else .ok (d.fill p.1 p.2)

def fillAll (d : Draft) (fields : List (Snapshot × Field)) : Draft :=
  fields.foldl (fun d p => d.fill p.1 p.2) d

variable {d : Draft} {s s' : Snapshot} {f g : Field} {t u w rest : List UInt8}

theorem has_empty (f : Field) : empty.has f = false := by
  cases f <;> rfl

theorem has_fill (d : Draft) (s : Snapshot) (f g : Field) :
    (d.fill s f).has g = (d.has g || decide (f = g)) := by
  cases f <;> cases g <;> simp [fill, has]

theorem fill_comm (d : Draft) (s : Snapshot) (f g : Field) :
    (d.fill s f).fill s g = (d.fill s g).fill s f := by
  cases f <;> cases g <;> rfl

theorem read_blanks (hw : Blanks w) (d : Draft) (f : Field) (t : List UInt8) :
    d.read f (w ++ t) = d.read f t := by
  cases f with
  | version | ip => simp only [read, natural_blanks hw]
  | running => simp only [read, boolean_blanks hw]
  | memory | registers | stack | input => simp only [read, words_blanks hw]

theorem read_lays (h : s.Lays f t) (d : Draft) (hr : Number.EndsBefore rest) :
    d.read f (t ++ rest) = .ok (d.fill s f, rest) := by
  cases f with
  | version =>
    have hread : natural (Nat.pow 2 32) (decimal s.version.toNat ++ rest) =
        .ok (s.version.toNat, rest) := natural_decimal s.version.toNat_lt (by decide) hr
    simp only [Lays] at h
    simp [read, h, hread, bind, Except.bind, fill]
  | ip =>
    have hread : natural (Nat.pow 2 64) (decimal s.ip.toNat ++ rest) = .ok (s.ip.toNat, rest) :=
      natural_decimal s.ip.toNat_lt (by decide) hr
    simp only [Lays] at h
    simp [read, h, hread, bind, Except.bind, fill]
  | running =>
    simp only [Lays] at h
    simp [read, h, boolean_append, bind, Except.bind, fill]
  | memory | registers | stack | input => simp [read, words_append h, bind, Except.bind, fill]

theorem read_padded (hx : s.Lays f t) (h : Padded t u) (d : Draft) (hr : Number.EndsBefore rest) :
    ∃ w, Blanks w ∧ d.read f (u ++ rest) = .ok (d.fill s f, w ++ rest) := by
  obtain ⟨v, w, hv, hw, rfl⟩ := h
  refine ⟨w, hw, ?_⟩
  rw [List.append_assoc, List.append_assoc, read_blanks hv]
  exact read_lays hx d (endsBefore_blanks hw hr)

theorem addAll_of_nodup {fields : List (Snapshot × Field)} (hn : (fields.map Prod.snd).Nodup)
    (hd : ∀ p ∈ fields, d.has p.2 = false) : fields.foldlM add d = .ok (d.fillAll fields) := by
  induction fields generalizing d with
  | nil => rfl
  | cons p fields ih =>
    rw [List.map_cons, List.nodup_cons] at hn
    have hp : d.has p.2 = false := hd p List.mem_cons_self
    have hrest : ∀ q ∈ fields, (d.fill p.1 p.2).has q.2 = false := by
      intro q hq
      have hne : p.2 ≠ q.2 := fun he => hn.1 (he ▸ List.mem_map_of_mem hq)
      simp [has_fill, hd q (List.mem_cons_of_mem p hq), hne]
    simpa [List.foldlM_cons, add, hp, bind, Except.bind, fillAll] using ih hn.2 hrest

/-- A field that comes again is refused, wherever it stands. -/
theorem addAll_of_repeated {fields : List (Snapshot × Field)}
    (h : ¬ (fields.map Prod.snd).Nodup ∨ ∃ p ∈ fields, d.has p.2 = true) :
    fields.foldlM add d = .error .mismatched := by
  induction fields generalizing d with
  | nil => simp at h
  | cons p fields ih =>
    by_cases hp : d.has p.2 = true
    · simp [List.foldlM_cons, add, hp, bind, Except.bind]
    · -- The later fields repeat one among them, or `p`, or one of the draft.
      have hrest : ¬ (fields.map Prod.snd).Nodup ∨
          ∃ q ∈ fields, (d.fill p.1 p.2).has q.2 = true := by
        rcases h with h | ⟨q, hq, hh⟩
        · rw [List.map_cons, List.nodup_cons, not_and_or, not_not, List.mem_map] at h
          rcases h with ⟨q, hq, he⟩ | h
          · exact .inr ⟨q, hq, by simp [has_fill, he]⟩
          · exact .inl h
        · rcases List.mem_cons.1 hq with rfl | hq
          · exact absurd hh hp
          · exact .inr ⟨q, hq, by simp [has_fill, hh]⟩
      simpa [List.foldlM_cons, add, hp, bind, Except.bind] using ih hrest

theorem has_fillAll (d : Draft) (fields : List (Snapshot × Field)) (f : Field) :
    (d.fillAll fields).has f = true ↔ d.has f = true ∨ f ∈ fields.map Prod.snd := by
  induction fields generalizing d with
  | nil => simp [fillAll]
  | cons p fields ih =>
    have hfirst := ih (d.fill p.1 p.2)
    simp only [has_fill, Bool.or_eq_true, decide_eq_true_eq] at hfirst
    rw [List.map_cons, List.mem_cons, eq_comm (a := f), ← or_assoc, ← hfirst]
    rfl

theorem fillAll_perm {fields fields' : List Field} (h : fields.Perm fields') (d : Draft)
    (s : Snapshot) : d.fillAll (fields.map fun f => (s, f)) =
      d.fillAll (fields'.map fun f => (s, f)) := by
  rw [fillAll, fillAll, List.foldl_map, List.foldl_map]
  exact h.foldl_eq' (fun f _ g _ d => fill_comm d s f g) d

theorem finish?_of_missing (hf : f ≠ .input) (h : d.has f = false) : d.finish? = none := by
  cases f with
  | input => exact absurd rfl hf
  | _ =>
    simp only [has, Option.isSome_eq_false_iff, Option.isNone_iff_eq_none] at h
    simp [finish?, h]

end Draft

section Members

variable {first : Bool} {d : Draft} {m : Option (Snapshot × Field)} {s t u w rest : List UInt8}

theorem Field.ofName?_name (f : Field) : Field.ofName? f.name = some f := by
  cases f <;> decide

theorem Field.ofName?_of_other {name : List UInt8} (h : ∀ f : Field, name ≠ f.name) :
    Field.ofName? name = none := by
  rw [Field.ofName?, List.find?_eq_none]
  intro f _ hf
  exact h f (beq_iff_eq.1 hf).symm

def takeMember (d : Draft) : Next → Except Problem (Draft × List UInt8)
  | .closed rest => .ok (d, rest)
  | .item t => readMember d t >>= fun r => readMembers false r.1 r.2

theorem readMembers_eq (first : Bool) (d : Draft) (t : List UInt8) :
    readMembers first d t = nextMember first t >>= takeMember d := by
  rw [readMembers]
  split
  · simp_all [bind, Except.bind]
  · simp_all [takeMember, bind, Except.bind]
  · split <;> simp_all [takeMember, bind, Except.bind]

theorem readMembers_blanks (hw : Blanks w) (d : Draft) (s : List UInt8) :
    readMembers first d (w ++ s) = readMembers first d s := by
  rw [readMembers_eq, readMembers_eq, nextMember_blanks hw]

theorem readMembers_closing (hw : Blanks w) (first : Bool) (d : Draft) (rest : List UInt8) :
    readMembers first d (w ++ 0x7D :: rest) = .ok (d, rest) := by
  rw [readMembers_eq, nextMember_closing hw]
  rfl

theorem readMember_of_other {cs : List Char} {n v : List UInt8} (hn : Quoted.Name cs n)
    (hv : Blanks v) (hf : ∀ f : Field, Stream.utf8 cs ≠ f.name) (d : Draft) (y : List UInt8) :
    readMember d (n ++ 0x22 :: (v ++ 0x3A :: y)) = Skip.value [] y >>= fun s => .ok (d, s) := by
  simp only [readMember, Quoted.read_name hn, Field.ofName?_of_other hf, colon_append hv, bind,
    Except.bind]

theorem readMember_of_name {f : Field} {cs : List Char} {n v : List UInt8}
    (hn : Quoted.Name cs n) (hv : Blanks v) (hf : Stream.utf8 cs = f.name) (d : Draft)
    (y : List UInt8) : readMember d (n ++ 0x22 :: (v ++ 0x3A :: y)) =
      if d.has f then .error .mismatched else d.read f y := by
  simp only [readMember, Quoted.read_name hn, hf, Field.ofName?_name, colon_append hv, bind,
    Except.bind]

/-- The name of a member is found between the blanks before it and those behind it. -/
theorem readMembers_text {cs : List Char} {x : List UInt8} (h : MemberText cs x t) :
    ∃ n v y, Quoted.Name cs n ∧ Blanks v ∧ Padded x y ∧ ∀ first d s,
      readMembers first d (lead first ++ (t ++ s)) =
        readMember d (n ++ 0x22 :: (v ++ 0x3A :: (y ++ s))) >>=
          fun r => readMembers false r.1 r.2 := by
  obtain ⟨u, n, v, y, hu, hn, hv, hy, rfl⟩ := h
  refine ⟨n, v, y, hn, hv, hy, fun first d s => ?_⟩
  simp only [List.append_assoc, List.cons_append]
  rw [readMembers_eq, nextMember_lead hu]
  rfl

/-- A member of another name leaves nothing behind, whatever its value. -/
theorem readMembers_member (h : Member m t) (first : Bool) (d : Draft)
    (hs : Number.EndsBefore s) : readMembers first d (lead first ++ (t ++ s)) =
      m.toList.foldlM Draft.add d >>= fun d => readMembers false d s := by
  cases h with
  | @field s' f cs x t hname hx h =>
    obtain ⟨n, v, y, hn, hv, hy, hread⟩ := readMembers_text h
    obtain ⟨w, hw, hvalue⟩ := Draft.read_padded hx hy d hs
    rw [hread, readMember_of_name hn hv hname, Option.toList_some, List.foldlM_cons, Draft.add]
    by_cases hf : d.has f = true
    · simp only [hf, if_true]
      rfl
    · simp only [hf, hvalue]
      exact readMembers_blanks hw _ s
  | other hname hx h =>
    obtain ⟨n, v, y, hn, hv, ⟨u, w, hu, hw, rfl⟩, hread⟩ := readMembers_text h
    have hskip := Skip.value_append hx (endsBefore_blanks hw hs)
    rw [hread, readMember_of_other hn hv hname, List.append_assoc, List.append_assoc,
      Skip.value_blanks hu, hskip]
    exact readMembers_blanks hw d s

theorem reduceOption_cons (m : Option (Snapshot × Field))
    (members : List (Option (Snapshot × Field))) :
    (m :: members).reduceOption = m.toList ++ members.reduceOption := by
  cases m <;> rfl

theorem readMembers_separated {members : List (Option (Snapshot × Field))}
    (h : Separated Member members t) (first : Bool) (d : Draft) (rest : List UInt8) :
    readMembers first d (lead first ++ (t ++ 0x7D :: rest)) =
      members.reduceOption.foldlM Draft.add d >>= fun d => .ok (d, rest) := by
  induction h generalizing first d with
  | @last m t h =>
    have hs : Number.EndsBefore (0x7D :: rest) := .cons rfl
    have hclosing (d : Draft) := readMembers_closing .nil false d rest
    simp only [List.nil_append] at hclosing
    simp only [readMembers_member h first d hs, hclosing, reduceOption_cons,
      List.reduceOption_nil, List.append_nil]
  | @more m members t u h _ ih =>
    have hs : Number.EndsBefore (0x2C :: (u ++ 0x7D :: rest)) := .cons rfl
    have hrest (d : Draft) := ih false d
    simp only [lead, Bool.false_eq_true, if_false, List.singleton_append] at hrest
    rw [List.append_assoc, List.cons_append]
    simp only [readMembers_member h first d hs, hrest, reduceOption_cons, List.foldlM_append,
      bind_assoc]

theorem readDraft_object {members : List (Option (Snapshot × Field))}
    (h : Bracketed .curly Member members t) (rest : List UInt8) : readDraft (t ++ rest) =
      members.reduceOption.foldlM Draft.add .empty >>= fun d => .ok (d, rest) := by
  have hopening (t : List UInt8) : readDraft (0x7B :: t) = readMembers true .empty t := by
    rw [readDraft, skipBlanks_of_not_blank rfl]
    rfl
  cases h with
  | @empty w hw =>
    have hclosing := readMembers_closing hw true .empty rest
    simpa [Bracket.opening, Bracket.closing, hopening] using hclosing
  | @items _ t h =>
    have hmembers := readMembers_separated h true .empty rest
    simpa [Bracket.opening, Bracket.closing, hopening, lead] using hmembers

end Members

section Items

variable {s : Snapshot} {f : Field} {fields : List Field} {t x w rest : List UInt8}

theorem Lays.exists_cons (h : s.Lays f x) : ∃ b t, x = b :: t ∧ isBlank b = false ∧ b ≠ 0x5D := by
  have hlist {ws : List Word} (h : WordList ws x) :
      ∃ b t, x = b :: t ∧ isBlank b = false ∧ b ≠ 0x5D := by
    cases h <;> exact ⟨_, _, rfl, rfl, by decide⟩
  cases f with
  | version =>
    simp only [Lays] at h
    rw [h]
    exact decimal_cons s.version.toNat
  | ip =>
    simp only [Lays] at h
    rw [h]
    exact decimal_cons s.ip.toNat
  | running =>
    simp only [Lays] at h
    rw [h]
    cases s.running <;> exact ⟨_, _, rfl, rfl, by decide⟩
  | memory | registers | stack | input => exact hlist h

theorem readItems_closing (hw : Blanks w) (first : Bool) (d : Draft) (fields : List Field)
    (rest : List UInt8) : readItems first d fields (w ++ 0x5D :: rest) = .ok (d, rest) := by
  cases fields with
  | nil =>
    have hskip : skipBlanks (w ++ 0x5D :: rest) = 0x5D :: rest := skipBlanks_eq_cons hw rfl
    simp [readItems, hskip]
  | cons f fields => simp [readItems, nextItem_closing hw, bind, Except.bind]

theorem readItems_blanks (hw : Blanks w) (d : Draft) (fields : List Field) (t : List UInt8) :
    readItems false d fields (w ++ t) = readItems false d fields t := by
  cases fields with
  | nil => rw [readItems, readItems, skipBlanks_append hw]
  | cons f fields => rw [readItems, readItems, nextItem_blanks hw]

theorem readItems_field (hx : s.Lays f x) (h : Padded x t) (first : Bool) (d : Draft)
    (hr : Number.EndsBefore rest) :
    readItems first d (f :: fields) (lead first ++ (t ++ rest)) =
      readItems false (d.fill s f) fields rest := by
  obtain ⟨v, w, hv, hw, rfl⟩ := h
  obtain ⟨b, u, rfl, hb, hne⟩ := Lays.exists_cons hx
  have hnext := nextItem_lead hv hb hne first (u ++ (w ++ rest))
  have hread := Draft.read_lays hx d (endsBefore_blanks hw hr)
  simp only [List.append_assoc, List.cons_append] at hread ⊢
  simp only [readItems, hnext, hread, bind, Except.bind]
  exact readItems_blanks hw _ _ _

theorem readItems_separated (h : Separated (fun f u => ∃ x, s.Lays f x ∧ Padded x u) fields t)
    (more : List Field) (first : Bool) (d : Draft) (rest : List UInt8) :
    readItems first d (fields ++ more) (lead first ++ (t ++ 0x5D :: rest)) =
      .ok (d.fillAll (fields.map fun f => (s, f)), rest) := by
  induction h generalizing first d with
  | @last f t h =>
    obtain ⟨x, hx, ht⟩ := h
    rw [List.singleton_append, readItems_field hx ht first d (.cons rfl)]
    exact readItems_closing .nil false _ more rest
  | @more f fields t u h _ ih =>
    obtain ⟨x, hx, ht⟩ := h
    rw [List.cons_append, List.append_assoc, List.cons_append,
      readItems_field hx ht first d (.cons rfl)]
    exact ih false _

theorem readDraft_array {more : List Field}
    (h : Bracketed .square (fun f u => ∃ x, s.Lays f x ∧ Padded x u) fields t)
    (hm : fields ++ more = Field.all) (rest : List UInt8) : readDraft (t ++ rest) =
      .ok (Draft.empty.fillAll (fields.map fun f => (s, f)), rest) := by
  have hopening (t : List UInt8) :
      readDraft (0x5B :: t) = readItems true .empty Field.all t := by
    rw [readDraft, skipBlanks_of_not_blank rfl]
    rfl
  cases h with
  | @empty w hw =>
    have hclosing := readItems_closing hw true .empty Field.all rest
    simpa [Bracket.opening, Bracket.closing, hopening, Draft.fillAll] using hclosing
  | @items _ t h =>
    have hitems := readItems_separated h more true .empty rest
    rw [hm] at hitems
    simpa [Bracket.opening, Bracket.closing, hopening, lead] using hitems

end Items

end Snapshot

end FifteenBit
