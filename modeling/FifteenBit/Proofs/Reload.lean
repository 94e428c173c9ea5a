import FifteenBit.Console.Recorder
import FifteenBit.Proofs.Host
import FifteenBit.Proofs.SavedFile
import FifteenBit.Proofs.StepSequence
import FifteenBit.Proofs.WrittenSnapshot
import FifteenBit.Snapshot.Storage

/-! Machines that are saved and loaded again. All that a machine was used for before leaves it
with a snapshot that is accepted, and what is loaded is the machine that was saved. -/

namespace FifteenBit

theorem Snapshot.load_bytes (s : Snapshot) : load (.ok s.bytes) = .ok s := by
  rw [load, ofBytes_bytes]
  rfl

theorem Snapshot.save_of_write {s : Snapshot} {path : String} {store store' : FileStore}
    (h : store.write path s.bytes = .ok store') :
    s.save path store = ⟨[.saved path], .ok store'⟩ := by
  rw [save, h]
  rfl

theorem Snapshot.load_of_save {s : Snapshot} {path : String} {store store' : FileStore}
    (h : (s.save path store).result = .ok store') : load (store'.read path) = .ok s := by
  obtain ⟨written, hw, h⟩ := Logged.result_bind_eq_ok.1 h
  obtain ⟨_, _, h⟩ := Logged.result_bind_eq_ok.1 h
  obtain rfl : written = store' := Except.ok.inj h
  have hw : store.write path s.bytes = .ok written := except_mapError_eq_ok.1 hw
  rw [FileStore.read_of_write hw, load_bytes]

namespace Machine

variable {m : Machine} {ip : Option UInt64}

theorem Reached.restore_snapshot (h : Reached ip m) :
    (restore m.snapshot m.policy).result = .ok m :=
  restore_eq_ok.2 ⟨h.invariant.1, rfl, rfl⟩

/-- The text of a snapshot, and a file that it is saved in, give back the machine; and no
console can tell the machine that goes on from the one that was saved. -/
theorem Reached.reload (h : Reached ip m) :
    Snapshot.load (.ok m.snapshot.bytes) = .ok m.snapshot ∧
    (∀ path store store', (m.snapshot.save path store).result = .ok store' →
      Snapshot.load (store'.read path) = .ok m.snapshot) ∧
    ∃ m', (restore m.snapshot m.policy).result = .ok m' ∧ m' = m ∧
      ∀ {σ τ : Type} [Console σ] [Console τ] (c : σ) (d : τ), Console.Alike c d →
        ∀ n, ∃ d', m'.nthStep n d = (m.nthStep n c).on d' := by
  refine ⟨Snapshot.load_bytes _, fun _ _ _ => Snapshot.load_of_save, ?_⟩
  refine ⟨m, h.restore_snapshot, rfl, ?_⟩
  intro σ τ _ _ c d hl n
  exact nthStep_of_alike hl n

theorem Reached.reload_pending :
    ∃ m m' : Machine, Reached none m ∧ m.register ⟨0⟩ = 113 ∧ m.pending = [10] ∧
      Snapshot.load (.ok m.snapshot.bytes) = .ok m.snapshot ∧
      (restore m.snapshot .strict).result = .ok m' ∧ m' = m ∧
      ∀ n, ∃ d, m'.nthStep n (Recorder.ofLines ["q"]) =
        (m.nthStep n (Recorder.ofLines ["q"])).on d := by
  obtain ⟨b, hb, hr, hp, hf, he, hpol⟩ : ∃ b, (boot [20, 32768] .strict).result = .ok b ∧
      b.running = true ∧ b.pending = [] ∧ b.fetch = .ok (.input 32768) ∧
      (b.effect (.input 32768)).result = .ok (.read (.register ⟨0⟩)) ∧ b.policy = .strict :=
    ⟨_, rfl, rfl, rfl, rfl, rfl, rfl⟩
  have hq : Line.codes "q" = [113, 10] := by decide
  have hread : Console.read (Recorder.ofLines ["q"]) = (.line [113, 10], Recorder.ofLines []) := by
    rw [← hq]
    rfl
  have hs := step_of_effect hr hf he (Recorder.ofLines ["q"])
  simp only [perform, hp, Console.refill_of_line hread] at hs
  have hm : Reached none (b.step (Recorder.ofLines ["q"])).machine :=
    .used (.booted hb) (.step b (Recorder.ofLines ["q"]))
  obtain ⟨hload, _, m', hm', he, hsteps⟩ := Reached.reload hm
  rw [step_policy, hpol] at hm'
  refine ⟨_, m', hm, ?_, ?_, hload, hm', he, hsteps _ _ fun _ => Iff.rfl⟩
  · rw [hs]
    exact RegisterFile.read_write_same ..
  · rw [hs]
    rfl

end Machine

end FifteenBit
