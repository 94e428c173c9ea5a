import FifteenBit.Proofs.WrittenSnapshot

/-! Texts that are broken off. A reader that is given the first part of a written snapshot
comes to its end and wants more, wherever the text breaks off: also inside a number, where what
is left is a number too. -/

namespace FifteenBit

/-- The first bytes of a text, but not all of them. -/
def BrokenOff (p t : List UInt8) : Prop :=
  p <+: t ∧ p ≠ t

namespace BrokenOff

variable {b : UInt8} {p s t : List UInt8}

theorem ne_nil (h : BrokenOff p t) : t ≠ [] := by
  rintro rfl
  exact h.2 (List.prefix_nil.1 h.1)

theorem cons_iff : BrokenOff p (b :: t) ↔ p = [] ∨ ∃ q, p = b :: q ∧ BrokenOff q t := by
  constructor
  · rintro ⟨hp, hne⟩
    rcases List.prefix_cons_iff.1 hp with rfl | ⟨q, rfl, hq⟩
    · exact .inl rfl
    · exact .inr ⟨q, rfl, hq, fun he => hne (he ▸ rfl)⟩
  · rintro (rfl | ⟨q, rfl, hq, hne⟩)
    · exact ⟨List.nil_prefix, (List.cons_ne_nil b t).symm⟩
    · exact ⟨(List.cons_prefix_cons).2 ⟨rfl, hq⟩, fun he => hne (List.cons.inj he).2⟩

theorem singleton_iff : BrokenOff p [b] ↔ p = [] := by
  rw [cons_iff]
  constructor
  · rintro (rfl | ⟨q, -, hq⟩)
    · rfl
    · exact absurd rfl hq.ne_nil
  · exact .inl

theorem append_cases (h : BrokenOff p (s ++ t)) :
    BrokenOff p s ∨ ∃ q, p = s ++ q ∧ BrokenOff q t := by
  induction s generalizing p with
  | nil => exact .inr ⟨p, rfl, h⟩
  | cons b s ih =>
    rcases cons_iff.1 h with rfl | ⟨q, rfl, hq⟩
    · exact .inl (cons_iff.2 (.inl rfl))
    · rcases ih hq with hs | ⟨r, rfl, hr⟩
      · exact .inl (cons_iff.2 (.inr ⟨q, rfl, hs⟩))
      · exact .inr ⟨r, rfl, hr⟩

end BrokenOff

namespace Json

open Snapshot (decimal commas wordList truth)

/-- A reading that comes to the end of its text: it wants more, or it has taken all. -/
def RunsOut {α : Type} (r : Except Problem (α × List UInt8)) : Prop :=
  r = .error .truncated ∨ ∃ a, r = .ok (a, [])

theorem RunsOut.bind {α β : Type} {r : Except Problem (α × List UInt8)}
    {f : α × List UInt8 → Except Problem (β × List UInt8)} (h : RunsOut r)
    (hf : ∀ a, RunsOut (f (a, []))) : RunsOut (r >>= f) := by
  rcases h with rfl | ⟨a, rfl⟩
  · exact .inl rfl
  · exact hf a

theorem RunsOut.bind_truncated {α β : Type} {r : Except Problem (α × List UInt8)}
    {f : α × List UInt8 → Except Problem β} (h : RunsOut r)
    (hf : ∀ a, f (a, []) = .error .truncated) : (r >>= f) = .error .truncated := by
  rcases h with rfl | ⟨a, rfl⟩
  · rfl
  · exact hf a

variable {n bound : Nat} {p q t u : List UInt8}

theorem Number.EndsBefore.of_prefix (h : Number.EndsBefore t) (hp : p <+: t) :
    Number.EndsBefore p := by
  intro b hb
  obtain ⟨q, rfl⟩ := hp
  cases p with
  | nil => cases hb
  | cons c p => exact h b hb

/-- The first digits of a number are those of a number that is not greater. -/
theorem exists_decimal_of_prefix (hp : p <+: decimal n) (hne : p ≠ []) :
    ∃ m ≤ n, p = decimal m := by
  -- A prefix is all of the digits, or a prefix of those of the number without its last digit.
  induction n using Nat.strongRecOn with
  | _ n ih =>
    rw [Snapshot.decimal_eq, List.prefix_concat_iff] at hp
    rcases hp with hp | hp
    · exact ⟨n, Nat.le_refl n, by rw [hp, ← Snapshot.decimal_eq]⟩
    · by_cases hn : n < 10
      · rw [if_pos hn] at hp
        exact absurd (List.prefix_nil.1 hp) hne
      · rw [if_neg hn] at hp
        obtain ⟨m, hm, rfl⟩ := ih (n / 10) (by omega) hp
        exact ⟨m, by omega, rfl⟩

theorem natural_of_broken (hn : n < bound) (hb : bound ≤ 2 ^ 64) (h : BrokenOff p (decimal n)) :
    RunsOut (natural bound p) := by
  by_cases hp : p = []
  · subst hp
    exact .inl rfl
  · obtain ⟨m, hm, rfl⟩ := exists_decimal_of_prefix h.1 hp
    have hread : natural bound (decimal m ++ []) = .ok (m, []) :=
      Snapshot.natural_decimal (Nat.lt_of_le_of_lt hm hn) hb (by rintro _ ⟨⟩)
    rw [List.append_nil] at hread
    exact .inr ⟨m, hread⟩

theorem pass_of_broken (h : BrokenOff p t) : pass t p = .error .truncated := by
  induction t generalizing p with
  | nil => exact absurd rfl h.ne_nil
  | cons b t ih =>
    rcases BrokenOff.cons_iff.1 h with rfl | ⟨q, rfl, hq⟩
    · rfl
    · rw [pass, if_pos rfl, ih hq]

theorem boolean_of_broken {x : Bool} (h : BrokenOff p (truth x)) :
    boolean p = .error .truncated := by
  cases x with
  | false =>
    rcases BrokenOff.cons_iff.1 (show BrokenOff p [0x66, 0x61, 0x6C, 0x73, 0x65] from h) with
      rfl | ⟨q, rfl, hq⟩
    · rfl
    · rw [boolean, skipBlanks_of_not_blank rfl]
      simp [pass_of_broken hq, bind, Except.bind]
  | true =>
    rcases BrokenOff.cons_iff.1 (show BrokenOff p [0x74, 0x72, 0x75, 0x65] from h) with
      rfl | ⟨q, rfl, hq⟩
    · rfl
    · rw [boolean, skipBlanks_of_not_blank rfl]
      simp [pass_of_broken hq, bind, Except.bind]

/-- The items of a sequence that come after the first one. -/
def later (items : List (List UInt8)) : List UInt8 :=
  items.flatMap fun t => 0x2C :: t

theorem commas_cons (item : List UInt8) (items : List (List UInt8)) :
    commas (item :: items) = item ++ later items := by
  induction items generalizing item with
  | nil => simp [commas, later]
  | cons next items ih =>
    have hnext := ih next
    simp only [commas, later] at hnext ⊢
    simp [hnext]

theorem endsBefore_later (items : List (List UInt8)) {b : UInt8} (rest : List UInt8)
    (h : Number.goesOn b = false) : Number.EndsBefore (later items ++ b :: rest) := by
  cases items with
  | nil => exact .cons h
  | cons item items => exact .cons rfl

def wordItems (ws : List Word) : List (List UInt8) :=
  ws.map fun w => decimal w.toNat

section Items

variable {first : Bool} {taken : Array Word} {w : Word} {ws : List Word}

theorem items_of_no_item (hn : nextItem first t = .error .truncated) :
    items first taken t = .error .truncated := by
  rw [items_eq, hn]
  rfl

theorem items_of_runsOut (hn : nextItem first t = .ok (.item u))
    (h : RunsOut (natural 65536 u)) : items first taken t = .error .truncated := by
  rw [items_eq, hn]
  exact h.bind_truncated fun _ => items_of_no_item rfl

/-- Either the item is broken off or what follows it. -/
theorem items_of_broken_item (first : Bool) (hu : Number.EndsBefore u)
    (hlater : ∀ taken q, BrokenOff q u → items false taken q = .error .truncated)
    (h : BrokenOff q (decimal w.toNat ++ u)) :
    items first taken (lead first ++ q) = .error .truncated := by
  rcases h.append_cases with h | ⟨r, rfl, hr⟩
  · by_cases hq : q = []
    · subst hq
      apply items_of_no_item
      cases first <;> rfl
    · -- The digits that are left are read as an item, but nothing closes the list.
      obtain ⟨m, -, rfl⟩ := exists_decimal_of_prefix h.1 hq
      have hn := nextItem_decimal .nil first m []
      rw [List.append_nil] at hn
      exact items_of_runsOut hn (natural_of_broken w.toNat_lt (by decide) h)
  · rw [items_padded (.refl _) first taken (hu.of_prefix hr.1)]
    exact hlater _ r hr

theorem items_of_broken_later (h : BrokenOff q (later (wordItems ws) ++ [0x5D])) :
    items false taken q = .error .truncated := by
  induction ws generalizing taken q with
  | nil =>
    obtain rfl := BrokenOff.singleton_iff.1 h
    exact items_of_no_item rfl
  | cons w ws ih =>
    have hlater : later (wordItems (w :: ws)) ++ [0x5D] =
        0x2C :: (decimal w.toNat ++ (later (wordItems ws) ++ [0x5D])) := by
      simp [later, wordItems]
    rw [hlater] at h
    rcases BrokenOff.cons_iff.1 h with rfl | ⟨r, rfl, hr⟩
    · exact items_of_no_item rfl
    · exact items_of_broken_item false (endsBefore_later _ [] rfl)
        (fun _ _ hq => ih hq) hr

theorem words_of_broken (h : BrokenOff p (wordList ws)) : words p = .error .truncated := by
  rcases BrokenOff.cons_iff.1 (show BrokenOff p (0x5B :: _) from h) with rfl | ⟨q, rfl, hq⟩
  · rfl
  · rw [words_opening]
    cases ws with
    | nil =>
      obtain rfl := BrokenOff.singleton_iff.1 (show BrokenOff q [0x5D] from hq)
      exact items_of_no_item rfl
    | cons w ws =>
      have hitems : commas ((w :: ws).map fun w => decimal w.toNat) ++ [0x5D] =
          decimal w.toNat ++ (later (wordItems ws) ++ [0x5D]) := by
        simp [wordItems, commas_cons]
      have hq : BrokenOff q (commas ((w :: ws).map fun w => decimal w.toNat) ++ [0x5D]) := hq
      rw [hitems] at hq
      exact items_of_broken_item true (endsBefore_later _ [] rfl)
        (fun _ _ hq => items_of_broken_later hq) hq

end Items

theorem Quoted.decode_unclosed (hp : ∀ b ∈ p, isPlain b = true) (decoded : List UInt8) :
    decode p decoded = .error .truncated := by
  rw [← List.append_nil p, decode_append hp, decode]

end Json

namespace Snapshot

open Json

variable {s : Snapshot} {d : Draft} {f : Field} {p q : List UInt8}

theorem Draft.read_of_broken (h : BrokenOff p (s.value f)) : RunsOut (d.read f p) := by
  cases f with
  | version =>
    exact (natural_of_broken s.version.toNat_lt (by decide) h).bind fun _ => .inr ⟨_, rfl⟩
  | ip => exact (natural_of_broken s.ip.toNat_lt (by decide) h).bind fun _ => .inr ⟨_, rfl⟩
  | running => exact RunsOut.bind (.inl (boolean_of_broken h)) fun _ => .inr ⟨_, rfl⟩
  | memory | registers | stack | input =>
    exact RunsOut.bind (.inl (words_of_broken h)) fun _ => .inr ⟨_, rfl⟩

theorem Field.read_name (f : Field) (rest : List UInt8) :
    Quoted.read (f.name ++ 0x22 :: rest) = .ok (f.name, rest) := by
  obtain ⟨cs, hcs, hn⟩ := f.exists_name
  rw [Quoted.read_name hn, hcs]

theorem Field.read_of_broken_name (h : BrokenOff p (f.name ++ [0x22])) :
    Quoted.read p = .error .truncated := by
  have hp : p <+: f.name := (List.prefix_concat_iff.1 h.1).resolve_left h.2
  have hplain : f.name.all Quoted.isPlain = true := by cases f <;> rfl
  have hall : ∀ b ∈ p, Quoted.isPlain b = true :=
    fun b hb => List.all_eq_true.1 hplain b (hp.subset hb)
  simp only [Quoted.read, Quoted.decode_unclosed hall, bind, Except.bind]

/-- A member after the opening quote of its name. -/
def memberTail (s : Snapshot) (f : Field) : List UInt8 :=
  f.name ++ 0x22 :: 0x3A :: s.value f

theorem member_eq (s : Snapshot) (f : Field) : s.member f = 0x22 :: s.memberTail f := by
  simp [member, memberTail]

theorem readMember_of_broken (hd : d.has f = false) (h : BrokenOff p (s.memberTail f)) :
    RunsOut (readMember d p) := by
  have htail : s.memberTail f = (f.name ++ [0x22]) ++ 0x3A :: s.value f := by simp [memberTail]
  rw [htail] at h
  rcases h.append_cases with h | ⟨q, rfl, hq⟩
  · left
    simp only [readMember, Field.read_of_broken_name h, bind, Except.bind]
  · rw [List.append_assoc]
    simp only [readMember, List.singleton_append, Field.read_name, bind, Except.bind,
      Field.ofName?_name, hd, Bool.false_eq_true, if_false]
    rcases BrokenOff.cons_iff.1 hq with rfl | ⟨r, rfl, hr⟩
    · exact .inl rfl
    · rw [colon, skipBlanks_of_not_blank rfl]
      exact Draft.read_of_broken hr

section Members

variable {first : Bool} {t u : List UInt8}

theorem readMembers_of_no_member (hn : nextMember first t = .error .truncated) :
    readMembers first d t = .error .truncated := by
  rw [readMembers_eq, hn]
  rfl

theorem readMembers_of_runsOut (hn : nextMember first t = .ok (.item u))
    (h : RunsOut (readMember d u)) : readMembers first d t = .error .truncated := by
  rw [readMembers_eq, hn]
  exact h.bind_truncated fun _ => readMembers_of_no_member rfl

theorem readMembers_of_broken_member (first : Bool) (hd : d.has f = false)
    (hu : Number.EndsBefore u)
    (hlater : ∀ q, BrokenOff q u → readMembers false (d.fill s f) q = .error .truncated)
    (h : BrokenOff q (s.member f ++ u)) :
    readMembers first d (lead first ++ q) = .error .truncated := by
  rcases h.append_cases with h | ⟨v, rfl, hv⟩
  · rw [member_eq] at h
    rcases BrokenOff.cons_iff.1 h with rfl | ⟨r, rfl, hr⟩
    · apply readMembers_of_no_member
      cases first <;> rfl
    · exact readMembers_of_runsOut (nextMember_lead .nil first r) (readMember_of_broken hd hr)
  · rw [readMembers_member (s.member_member f) first d (hu.of_prefix hv.1), Option.toList_some,
      List.foldlM_cons, Draft.add, hd]
    exact hlater v hv

end Members

theorem Draft.not_has_fill {fs : List Field} (hf : f ∉ fs) (hd : ∀ g ∈ fs, d.has g = false) :
    ∀ g ∈ fs, (d.fill s f).has g = false := by
  intro g hg
  have hne : f ≠ g := fun he => hf (he ▸ hg)
  simp [has_fill, hd g hg, hne]

theorem readMembers_of_broken_later {fs : List Field} (hf : fs.Nodup)
    (hd : ∀ f ∈ fs, d.has f = false) (h : BrokenOff q (later (fs.map s.member) ++ [0x7D])) :
    readMembers false d q = .error .truncated := by
  induction fs generalizing d q with
  | nil =>
    obtain rfl := BrokenOff.singleton_iff.1 h
    exact readMembers_of_no_member rfl
  | cons f fs ih =>
    obtain ⟨hmem, hf⟩ := List.nodup_cons.1 hf
    have hlater : later ((f :: fs).map s.member) ++ [0x7D] =
        0x2C :: (s.member f ++ (later (fs.map s.member) ++ [0x7D])) := by
      simp [later]
    have hrest : ∀ g ∈ fs, (d.fill s f).has g = false :=
      Draft.not_has_fill hmem fun g hg => hd g (List.mem_cons_of_mem f hg)
    rw [hlater] at h
    rcases BrokenOff.cons_iff.1 h with rfl | ⟨r, rfl, hr⟩
    · exact readMembers_of_no_member rfl
    · exact readMembers_of_broken_member false (hd f List.mem_cons_self)
        (endsBefore_later _ [] rfl) (fun _ hq => ih hf hrest hq) hr

theorem ofBytes_of_broken (h : BrokenOff p s.bytes) : ofBytes p = .error .truncated := by
  have hdraft : readDraft p = .error .truncated := by
    rcases BrokenOff.cons_iff.1 (show BrokenOff p (0x7B :: _) from h) with rfl | ⟨q, rfl, hq⟩
    · rfl
    · have hq : BrokenOff q (commas (Field.all.map s.member) ++ [0x7D]) := hq
      have hmembers : commas (Field.all.map s.member) ++ [0x7D] =
          s.member .version ++ (later (Field.all.tail.map s.member) ++ [0x7D]) := by
        simp [Field.all, commas_cons]
      rw [hmembers] at hq
      have hrest : ∀ g ∈ Field.all.tail, (Draft.empty.fill s .version).has g = false :=
        Draft.not_has_fill (by decide) fun g _ => Draft.has_empty g
      rw [readDraft, skipBlanks_of_not_blank rfl]
      exact readMembers_of_broken_member true rfl (endsBefore_later _ [] rfl)
        (fun _ hr => readMembers_of_broken_later (by decide) hrest hr) hq
  simp only [ofBytes, hdraft, bind, Except.bind]

end Snapshot

end FifteenBit
