import FifteenBit.Proofs.BrokenText
import FifteenBit.Proofs.Paths
import FifteenBit.Proofs.Reload

/-! Files of snapshots. A file is read back as what was written to it, and a file that is cut
short or goes on is refused, unless it goes on with blanks. -/

namespace FifteenBit

namespace Snapshot

/-- Whatever a snapshot holds, its file holds that and no other snapshot. -/
theorem file_round_trip (s : Snapshot) : load (.ok s.bytes) = .ok s ∧
    (∀ (path : String) (store : FileStore), store.Writable path →
      ∃ store', (s.save path store).result = .ok store' ∧ store'.read path = .ok s.bytes ∧
        load (store'.read path) = .ok s) ∧
    ∀ t : Snapshot, t.bytes = s.bytes → t = s := by
  refine ⟨load_bytes s, ?_, ?_⟩
  · intro path store hw
    obtain ⟨store', hwrite⟩ := hw.write s.bytes
    have hsave : (s.save path store).result = .ok store' := by rw [save_of_write hwrite]
    exact ⟨store', hsave, FileStore.read_of_write hwrite, load_of_save hsave⟩
  · intro t hbytes
    have hload := load_bytes t
    rw [hbytes, load_bytes] at hload
    exact (Except.ok.inj hload).symm

theorem file_round_trip_refused :
    ∃ s : Snapshot, s = ⟨4294967295, [], [65535], [32768, 0], 18446744073709551615, true, []⟩ ∧
      s.flaw? = some (.version 4294967295) ∧ ∃ store : FileStore,
        (s.save "s" ⟨[], []⟩).result = .ok store ∧ load (store.read "s") = .ok s := by
  refine ⟨_, rfl, rfl, ?_⟩
  have hw : FileStore.Writable ⟨[], []⟩ "s" :=
    FileStore.writable_of_isPlain (by decide) (by decide)
  obtain ⟨store, hsave, -, hload⟩ := (file_round_trip _).2.1 "s" ⟨[], []⟩ hw
  exact ⟨store, hsave, hload⟩

/-- No file is loaded that was cut short, be it inside a number, and none that goes on with
anything but blanks. -/
theorem torn_file_refused (s : Snapshot) :
    (∀ p, p <+: s.bytes → p ≠ s.bytes → load (.ok p) = .error (.json .truncated)) ∧
    (∀ rest, (∃ b ∈ rest, Json.isBlank b = false) →
      load (.ok (s.bytes ++ rest)) = .error (.json .malformed)) ∧
    ∀ rest, (∀ b ∈ rest, Json.isBlank b = true) → load (.ok (s.bytes ++ rest)) = .ok s := by
  refine ⟨?_, ?_, ?_⟩
  · intro p hp hne
    rw [load, ofBytes_of_broken ⟨hp, hne⟩]
    rfl
  · rintro rest ⟨b, hb, hblank⟩
    have hleft : Json.skipBlanks rest ≠ [] := by
      intro hnil
      rw [List.dropWhile_eq_nil_iff.1 hnil b hb] at hblank
      cases hblank
    rw [load, ofBytes_append, List.isEmpty_eq_false_iff.2 hleft]
    rfl
  · intro rest hblank
    have hnone : Json.skipBlanks rest = [] := List.dropWhile_eq_nil_iff.2 hblank
    rw [load, ofBytes_append, hnone]
    rfl

theorem torn_file_refused_inside_number :
    ∃ s : Snapshot, s = ⟨12, [], [], [], 0, false, []⟩ ∧
      load (.ok (ascii "\x7b\"version\":1")) = .error (.json .truncated) ∧
      load (.ok (s.bytes ++ [0x0A, 0x7D])) = .error (.json .malformed) ∧
      load (.ok (s.bytes ++ [0x0A])) = .ok s := by
  have htorn := torn_file_refused ⟨12, [], [], [], 0, false, []⟩
  exact ⟨_, rfl, htorn.1 _ (by decide) (by decide), htorn.2.1 _ ⟨0x7D, by decide, rfl⟩,
    htorn.2.2 _ (List.forall_mem_singleton.2 rfl)⟩

end Snapshot

end FifteenBit
