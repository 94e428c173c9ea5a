import FifteenBit.Proofs.WrittenSnapshot
import FifteenBit.Snapshot.Storage

/-! Snapshots laid out in any way. The members stand in any order, among members of other names,
with blanks between all tokens; what is loaded does not depend on it. -/

namespace FifteenBit.Snapshot

open Json

variable {s : Snapshot} {fields : List Field} {members : List (Snapshot × Field)}
  {t doc : List UInt8}

theorem ofBytes_padded {r : Except Problem Draft}
    (hr : ∀ rest, readDraft (t ++ rest) = r >>= fun d => .ok (d, rest)) (h : Padded t doc) :
    ofBytes doc = r >>= fun d => d.finish?.elim (.error .mismatched) .ok := by
  obtain ⟨v, w, hv, hw, rfl⟩ := h
  have hblanks : readDraft (v ++ (t ++ w)) = readDraft (t ++ w) := by
    rw [readDraft, readDraft, skipBlanks_append hv]
  have hend : (skipBlanks w).isEmpty = true := by
    rw [List.isEmpty_iff]
    exact List.dropWhile_eq_nil_iff.2 hw
  rw [ofBytes, hblanks, hr]
  cases r with
  | error p => rfl
  | ok d =>
    simp only [bind, Except.bind]
    cases d.finish? with
    | none => rfl
    | some s => simp [hend]

theorem ofBytes_document (h : Document members doc) :
    ofBytes doc = members.foldlM Draft.add .empty >>=
      fun d => d.finish?.elim (.error .mismatched) .ok := by
  obtain ⟨members, t, ht, hdoc, rfl⟩ := h
  exact ofBytes_padded (readDraft_object ht) hdoc

theorem ofBytes_row {more : List Field} (h : Row s fields doc)
    (hm : fields ++ more = Field.all) :
    ofBytes doc = (Draft.empty.fillAll (fields.map fun f => (s, f))).finish?.elim
      (.error .mismatched) .ok := by
  obtain ⟨t, ht, hdoc⟩ := h
  have hread (rest : List UInt8) := readDraft_array ht hm rest
  exact ofBytes_padded (r := .ok _) hread hdoc

/-- The order of the members does not matter, as long as none comes twice. -/
theorem ofBytes_of_perm {fields' : List Field} (h : fields.Perm fields') (hn : fields'.Nodup)
    (hdoc : Document (fields.map fun f => (s, f)) doc) :
    ofBytes doc = (Draft.empty.fillAll (fields'.map fun f => (s, f))).finish?.elim
      (.error .mismatched) .ok := by
  have hnames : ((fields.map fun f => (s, f)).map Prod.snd).Nodup := by
    simpa using h.nodup_iff.2 hn
  rw [ofBytes_document hdoc, Draft.addAll_of_nodup hnames fun p _ => Draft.has_empty p.2,
    Draft.fillAll_perm h]
  rfl

theorem ofBytes_of_repeated (h : Document members doc) (hn : ¬ (members.map Prod.snd).Nodup) :
    ofBytes doc = .error .mismatched := by
  rw [ofBytes_document h, Draft.addAll_of_repeated (.inl hn)]
  rfl

theorem ofBytes_of_missing {f : Field} (h : Document members doc) (hf : f ≠ .input)
    (hm : f ∉ members.map Prod.snd) : ofBytes doc = .error .mismatched := by
  by_cases hn : (members.map Prod.snd).Nodup
  · have hmissing : (Draft.empty.fillAll members).has f = false := by
      rw [Bool.eq_false_iff, ne_eq, Draft.has_fillAll, Draft.has_empty]
      simpa using hm
    rw [ofBytes_document h, Draft.addAll_of_nodup hn fun p _ => Draft.has_empty p.2]
    show (Draft.empty.fillAll members).finish?.elim _ _ = _
    rw [Draft.finish?_of_missing hf hmissing]
    rfl
  · exact ofBytes_of_repeated h hn

/-- However a snapshot is laid out, it is loaded. The input may be left out; any other field that
is left out, and any field that comes twice, makes the document unfit. -/
theorem layout_ignored (s : Snapshot) :
    (∀ (fields : List Field) (doc : List UInt8), fields.Perm Field.all →
      Document (fields.map fun f => (s, f)) doc → load (.ok doc) = .ok s) ∧
    (∀ doc, Row s Field.all doc → load (.ok doc) = .ok s) ∧
    (∀ (fields : List Field) (doc : List UInt8), fields.Perm (Field.all.erase .input) →
      Document (fields.map fun f => (s, f)) doc → load (.ok doc) = .ok { s with input := [] }) ∧
    (∀ doc, Row s (Field.all.erase .input) doc →
      load (.ok doc) = .ok { s with input := [] }) ∧
    ∀ (members : List (Snapshot × Field)) (doc : List UInt8), Document members doc →
      (∃ f, f ≠ .input ∧ f ∉ members.map Prod.snd) ∨ ¬ (members.map Prod.snd).Nodup →
        load (.ok doc) = .error (.json .mismatched) := by
  refine ⟨?_, ?_, ?_, ?_, ?_⟩
  · intro fields doc hp hdoc
    rw [load, ofBytes_of_perm hp (by decide) hdoc]
    rfl
  · intro doc hrow
    rw [load, ofBytes_row hrow (List.append_nil _)]
    rfl
  · intro fields doc hp hdoc
    rw [load, ofBytes_of_perm hp (by decide) hdoc]
    rfl
  · intro doc hrow
    have hm : Field.all.erase .input ++ [.input] = Field.all := by decide
    rw [load, ofBytes_row hrow hm]
    rfl
  · intro members doc hdoc h
    rcases h with ⟨f, hf, hm⟩ | hn
    · rw [load, ofBytes_of_missing hdoc hf hm]
      rfl
    · rw [load, ofBytes_of_repeated hdoc hn]
      rfl

theorem layout_ignored_shuffled :
    ∃ s : Snapshot, s = ⟨1, [], [7], [], 0, true, [5]⟩ ∧
      load (.ok (ascii ("\x7b \"x\" : [\x7b\"ip\":null\x7d ],\"input\":[5],\"\\u0069p\":0," ++
        "\"running\":true,\"stack\":[],\"memory\":[],\"registers\":[7],\"version\":1\x7d"))) =
          .ok s ∧
      load (.ok (ascii "[1,[], [7],[],0,true]")) = .ok { s with input := [] } ∧
      load (.ok (ascii "\x7b\"ip\":0,\"ip\":0\x7d")) = .error (.json .mismatched) := by
  have hl := layout_ignored ⟨1, [], [7], [], 0, true, [5]⟩
  have hmember := member_member ⟨1, [], [7], [], 0, true, [5]⟩
  have hblank : Blanks [0x20] := .cons rfl .nil
  refine ⟨_, rfl, ?_, ?_, ?_⟩
  · have hother : Member none (ascii " \"x\" : [\x7b\"ip\":null\x7d ]") := by
      have hnull : wordTail? 0x6E = some [0x75, 0x6C, 0x6C] := rfl
      have hip : Quoted.Form [0x69, 0x70] := .plain rfl (.plain rfl .nil)
      have hobject := Derives.bracketed .curly
        (.last (.curly .nil hip .nil .nil) (.word hnull) .nil)
      have harray := Derives.bracketed .square (.last (.square .nil) hobject hblank)
      have hx : Quoted.Name ['x'] [0x78] := Quoted.name_utf8 (List.forall_mem_singleton.2 (by decide))
      have hname : ∀ f : Field, Stream.utf8 ['x'] ≠ f.name := by
        intro f
        cases f <;> decide
      exact .other hname harray
        ⟨_, _, _, _, hblank, hx, hblank, ⟨_, _, hblank, .nil, rfl⟩, by decide +kernel⟩
    have hescaped : Member (some (⟨1, [], [7], [], 0, true, [5]⟩, .ip))
        (ascii "\"\\u0069p\":0") := by
      have hhex : Quoted.Hex (0 * 0x1000 + 0 * 0x100 + 6 * 0x10 + 9) [0x30, 0x30, 0x36, 0x39] :=
        .mk (.inl (by decide)) (.inl (by decide)) (.inl (by decide)) (.inl (by decide))
      have hi : Quoted.Spells 'i' _ := .numbered hhex
      have hp : Quoted.Name ['p'] [0x70] := Quoted.name_utf8 (List.forall_mem_singleton.2 (by decide))
      exact .field (by decide) (lays_value _ .ip)
        ⟨_, _, _, _, .nil, .cons hi hp, .nil, .refl _, by decide +kernel⟩
    have hmembers := separated_commas (.cons hother (.cons (hmember .input) (.cons hescaped
      (.cons (hmember .running) (.cons (hmember .stack) (.cons (hmember .memory)
        (.cons (hmember .registers) (.cons (hmember .version) .nil)))))))) (List.cons_ne_nil _ _)
    refine hl.1 [.input, .ip, .running, .stack, .memory, .registers, .version] _ (by decide)
      ⟨_, _, .items hmembers, ⟨[], [], .nil, .nil, by decide +kernel⟩, rfl⟩
  · have hitem (f : Field) {v : List UInt8} (hv : Blanks v) :
        ∃ x, Lays ⟨1, [], [7], [], 0, true, [5]⟩ f x ∧
          Padded x (v ++ (value ⟨1, [], [7], [], 0, true, [5]⟩ f ++ [])) :=
      ⟨_, lays_value _ f, v, [], hv, .nil, rfl⟩
    exact hl.2.2.2.1 _ ⟨_, .items (separated_commas (.cons (hitem .version .nil)
      (.cons (hitem .memory .nil) (.cons (hitem .registers hblank) (.cons (hitem .stack .nil)
        (.cons (hitem .ip .nil) (.cons (hitem .running .nil) .nil)))))) (List.cons_ne_nil _ _)),
          ⟨[], [], .nil, .nil, by decide +kernel⟩⟩
  · have hmembers := separated_commas (.cons (hmember .ip) (.cons (hmember .ip) .nil))
      (List.cons_ne_nil _ _)
    exact hl.2.2.2.2 _ _ ⟨_, _, .items hmembers, .refl _, rfl⟩ (.inr (by decide))

end FifteenBit.Snapshot
