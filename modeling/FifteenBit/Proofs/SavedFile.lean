import FifteenBit.FileStore.Basic
import FifteenBit.Proofs.Logged

/-! What is written to a file is found there afterwards. The way to the file leads through
folders, and writing the file replaces none of them. -/

namespace FifteenBit.FileStore

section Put

variable {key names : List String} {entry : Entry}

theorem lookup_cons_ite (e : List String × Entry) (entries : List (List String × Entry)) :
    (e :: entries).lookup names = if names = e.1 then some e.2 else entries.lookup names := by
  obtain ⟨key, entry⟩ := e
  by_cases h : names = key
  · simp [h]
  · have hb : (names == key) = false := beq_false_of_ne h
    simp [List.lookup_cons, hb, h]

theorem lookup_put (key names : List String) (entry : Entry)
    (entries : List (List String × Entry)) :
    (put key entry entries).lookup names =
      if names = key then some entry else entries.lookup names := by
  induction entries with
  | nil => exact lookup_cons_ite (key, entry) []
  | cons e entries ih =>
    by_cases he : e.1 = key
    · rw [put, if_pos he, lookup_cons_ite, lookup_cons_ite, he]
      by_cases hn : names = key
      · rw [if_pos hn, if_pos hn]
      · rw [if_neg hn, if_neg hn, if_neg hn]
    · rw [put, if_neg he, lookup_cons_ite, lookup_cons_ite, ih]
      by_cases hn : names = key
      · have hne : names ≠ e.1 := fun h => he (h.symm.trans hn)
        rw [if_neg hne, if_pos hn, if_pos hn]
      · rw [if_neg hn, if_neg hn]

end Put

variable {store : FileStore} {key folder start : List String} {bytes : List UInt8}

/-- The store after a file is written. -/
def withFile (store : FileStore) (key : List String) (bytes : List UInt8) : FileStore :=
  { store with entries := put key (.file bytes) store.entries }

theorem entry?_withFile (hk : key ≠ []) (names : List String) :
    entry? (store.withFile key bytes) names =
      if names = key then some (.file bytes) else store.entry? names := by
  cases names with
  | nil => simp [ entry?, Ne.symm hk]
  | cons name names => exact lookup_put key (name :: names) (.file bytes) store.entries

theorem look_withFile (hk : key ≠ []) (hf : store.entry? key ≠ some .folder) {name : String}
    (h : store.look folder name = .ok (some .folder)) :
    (store.withFile key bytes).look folder name = .ok (some .folder) := by
  unfold look at h ⊢
  split
  · rename_i hl
    rw [if_pos hl] at h
    cases h
  · rename_i hl
    rw [if_neg hl] at h
    have hentry := Except.ok.inj h
    have hne : folder ++ [name] ≠ key := by
      intro he
      apply hf
      rw [← he, hentry]
    rw [entry?_withFile hk, if_neg hne, hentry]

/-- Folders that could be entered can be entered still. -/
theorem enter_withFile (hk : key ≠ []) (hf : store.entry? key ≠ some .folder)
    {names : List String} (h : store.enter start names = .ok folder) :
    (store.withFile key bytes).enter start names = .ok folder := by
  induction names generalizing start with
  | nil => exact h
  | cons name names ih =>
    rw [enter] at h ⊢
    by_cases hup : name = ".."
    · rw [if_pos hup] at h ⊢
      exact ih h
    · rw [if_neg hup] at h ⊢
      rcases hl : store.look start name with e | _ | _ | _
      · simp [hl] at h
      · simp [hl] at h
      · simp [hl] at h
      · rw [hl] at h
        rw [look_withFile hk hf hl]
        exact ih h

variable {path : String}

theorem locate_withFile (hk : key ≠ []) (hf : store.entry? key ≠ some .folder) {place : Place}
    (h : store.locate path = .ok place) : (store.withFile key bytes).locate path = .ok place := by
  unfold locate at h ⊢
  split
  · rename_i hn
    rw [if_pos hn] at h
    cases h
  · rename_i hn
    rw [if_neg hn] at h
    split
    · rename_i hl
      rw [if_pos hl] at h
      cases h
    · rename_i hl
      rw [if_neg hl] at h
      obtain ⟨folder, he, h⟩ := except_bind_eq_ok.1 h
      exact except_bind_eq_ok.2 ⟨folder, enter_withFile hk hf he, h⟩

/-- A file is written where there was none or another file. -/
theorem write_eq_ok {store' : FileStore} (h : store.write path bytes = .ok store') :
    ∃ folder leaf, store.locate path = .ok (.name folder leaf false) ∧
      leaf.utf8ByteSize ≤ 255 ∧ store.entry? (folder ++ [leaf]) ≠ some .folder ∧
      store' = store.withFile (folder ++ [leaf]) bytes := by
  obtain ⟨place, hl, h⟩ := except_bind_eq_ok.1 h
  cases place with
  | folder => cases h
  | name folder leaf slash =>
    simp only at h
    split at h
    · cases h
    · rename_i hs
      obtain rfl : slash = false := by simpa using hs
      obtain ⟨entry, hlook, h⟩ := except_bind_eq_ok.1 h
      unfold look at hlook
      split at hlook
      · cases hlook
      · rename_i hsize
        have hentry := Except.ok.inj hlook
        split at h
        · cases h
        · rename_i hfolder
          refine ⟨folder, leaf, hl, Nat.le_of_not_lt hsize, ?_, (Except.ok.inj h).symm⟩
          rw [hentry]
          exact hfolder

theorem write_of_locate {leaf : String} (hl : store.locate path = .ok (.name folder leaf false))
    (hsize : leaf.utf8ByteSize ≤ 255) (hf : store.entry? (folder ++ [leaf]) ≠ some .folder)
    (bytes : List UInt8) :
    store.write path bytes = .ok (store.withFile (folder ++ [leaf]) bytes) := by
  have hlook : store.look folder leaf = .ok (store.entry? (folder ++ [leaf])) :=
    if_neg (Nat.not_lt.2 hsize)
  rw [write, hl]
  simp only [bind, Except.bind, Bool.false_eq_true, if_false, hlook]
  rfl

/-- A file can be written there. -/
def Writable (store : FileStore) (path : String) : Prop :=
  ∃ bytes store', store.write path bytes = .ok store'

/-- Whether a file can be written does not depend on what is written. -/
theorem Writable.write (h : store.Writable path) (bytes : List UInt8) :
    ∃ store', store.write path bytes = .ok store' := by
  obtain ⟨_, _, h⟩ := h
  obtain ⟨folder, leaf, hl, hsize, hf, -⟩ := write_eq_ok h
  exact ⟨_, write_of_locate hl hsize hf bytes⟩

theorem writable_of_write {store' : FileStore} (h : store.write path bytes = .ok store') :
    store'.Writable path := by
  obtain ⟨folder, leaf, hl, hsize, hf, rfl⟩ := write_eq_ok h
  have hk : folder ++ [leaf] ≠ [] := by simp
  have hfile : entry? (store.withFile (folder ++ [leaf]) bytes) (folder ++ [leaf]) ≠
      some .folder := by
    rw [entry?_withFile hk, if_pos rfl]
    nofun
  exact ⟨[], _, write_of_locate (locate_withFile hk hf hl) hsize hfile []⟩

theorem read_of_write {store' : FileStore} (h : store.write path bytes = .ok store') :
    store'.read path = .ok bytes := by
  obtain ⟨folder, leaf, hl, hsize, hf, rfl⟩ := write_eq_ok h
  have hk : folder ++ [leaf] ≠ [] := by simp
  have hlook : (store.withFile (folder ++ [leaf]) bytes).look folder leaf =
      .ok (some (.file bytes)) := by
    rw [look, if_neg (Nat.not_lt.2 hsize), entry?_withFile hk, if_pos rfl]
  rw [read, locate_withFile hk hf hl]
  simp only [bind, Except.bind, hlook]
  rfl

end FifteenBit.FileStore
