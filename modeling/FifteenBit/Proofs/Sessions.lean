import FifteenBit.CommandLine.Session
import FifteenBit.Proofs.Atomicity
import FifteenBit.Proofs.Paths
import FifteenBit.Proofs.Reload
import FifteenBit.Proofs.StandardInput

/-! Sessions of the command line. A session comes to what the run of its machine comes to on a
console in memory with the same input, and what it saves is a machine that has stopped. -/

namespace FifteenBit.CommandLine

open Machine (restore boot)

namespace Options

/-- The machine that is made of the snapshot or the image that the options name. -/
def start (o : Options) (store : FileStore) : Except StorageError Machine :=
  match o.resume with
  | some path => do
    let snapshot ← Snapshot.load (store.read path)
    (restore snapshot o.policy).result
  | none => do
    let path := o.image.getD "challenge.bin"
    let image ← (Image.load path (store.read path)).result
    (boot image o.policy).result

variable {o : Options} {store : FileStore} {m : Machine}

theorem result_machine (o : Options) (store : FileStore) :
    (o.machine (store.read o.source)).result = o.start store := by
  cases h : o.resume with
  | none => simp only [machine, start, source, h, Logged.result_bind, Option.getD_none]
  | some path =>
    simp only [machine, start, source, h, Logged.result_bind, Logged.result_ofExcept,
      Option.getD_some]

theorem machine_of_resumed {path : String} {s : Snapshot} (hr : o.resume = some path)
    (hload : Snapshot.load (store.read path) = .ok s) :
    o.machine (store.read o.source) = restore s o.policy := by
  simp only [machine, source, hr, Option.getD_some, hload]
  rfl

theorem start_wellFormed (h : o.start store = .ok m) : m.WellFormed := by
  unfold start at h
  split at h
  · obtain ⟨s, -, hm⟩ := except_bind_eq_ok.1 h
    exact (Machine.restore_eq_ok.1 hm).1
  · obtain ⟨image, -, hm⟩ := except_bind_eq_ok.1 h
    exact Machine.boot_wellFormed hm

end Options

variable {o : Options} {store : FileStore} {m : Machine} {fuel : Nat} {input : List UInt8}
  {path : String}

theorem execute_of_run {args : List String} (h : request Options.initial args = .run o) :
    execute fuel args store input = o.execute fuel store input := by
  rw [execute, h]

theorem execute_of_started (h : o.start store = .ok m) (fuel : Nat) (input : List UInt8) :
    o.execute fuel store input = (m.run o.shows fuel (Stream.ofInput input) #[]).map fun r =>
      { status := (verdict o r.result).2
        output := (o.listing m).toUTF8.toList ++ r.console.emitted.toList
        errors := logText o ((o.machine (store.read o.source)).log ++ r.log.toList ++
          (keep o r.machine store).1) ++ (verdict o r.result).1
        store := (keep o r.machine store).2
        unread := r.console.unread } := by
  rw [← Options.result_machine] at h
  simp only [Options.execute, h]

theorem verdict_machineHalted (o : Options) :
    verdict o (.error .machineHalted) = ("error machine is halted, halting...\n", 1) := by
  have hwords : "error " ++ "machine is halted" ++ ", halting...\n" =
      "error machine is halted, halting...\n" := by decide
  exact congrArg (·, 1) hwords

section Keep

theorem keep_of_written (h : o.save = some path) {store' : FileStore}
    (hw : store.write path m.snapshot.bytes = .ok store') :
    keep o m store = ([.saved path], store') := by
  simp only [keep, h, Snapshot.save_of_write hw]

end Keep

/-- A session is a run on a console in memory that has the lines of the input. -/
theorem execute_of_text (hm : o.start store = .ok m) (text : String) {shown : Notice → Bool}
    {log : Array Notice} {r : Run Recorder}
    (hr : m.run shown fuel (Recorder.ofLines (Line.ofText text)) log = some r) :
    ∃ out, o.execute fuel store text.toUTF8.toList = some out ∧
      out.status = (verdict o r.result).2 ∧
      out.output = (o.listing m ++ r.console.text).toUTF8.toList ∧
      out.store = (keep o r.machine store).2 := by
  -- The session keeps other log records than the given run, which changes nothing else.
  obtain ⟨records, hr⟩ := Machine.run_ends hr o.shows #[]
  obtain ⟨d, hd, hmirrors⟩ :=
    Machine.run_of_keeps Stream.mirrors_keeps (Stream.mirrors_ofText text) hr
  have hemitted : d.emitted.toList = r.console.text.toUTF8.toList := by
    rw [hmirrors.emitted, Stream.toList_toUTF8, Recorder.text, String.toList_ofList]
  have hprinted : (o.listing m).toUTF8.toList ++ d.emitted.toList =
      (o.listing m ++ r.console.text).toUTF8.toList := by
    rw [hemitted, Stream.toList_toUTF8, Stream.toList_toUTF8, Stream.toList_toUTF8,
      String.toList_append, Stream.utf8_append]
  rw [execute_of_started hm, hd]
  exact ⟨_, rfl, rfl, hprinted, rfl⟩

/-- What a session saves is the machine at the end of its run. -/
theorem saved_of_execute (hs : o.save = some path) (hm : o.start store = .ok m)
    (hw : store.Writable path) {out : Outcome} (hx : o.execute fuel store input = some out) :
    ∃ r, m.run o.shows fuel (Stream.ofInput input) #[] = some r ∧
      out.store.read path = .ok r.machine.snapshot.bytes := by
  rw [execute_of_started hm] at hx
  obtain ⟨r, hrun, rfl⟩ := Option.map_eq_some_iff.1 hx
  obtain ⟨store', hwrite⟩ := hw.write r.machine.snapshot.bytes
  refine ⟨r, hrun, ?_⟩
  simp only [keep_of_written hs hwrite]
  exact FileStore.read_of_write hwrite

/-- The session of a machine that was restored and does not run. -/
theorem execute_of_not_running {path path' : String} {s : Snapshot} (hr : o.resume = some path)
    (hs : o.save = some path') (hload : Snapshot.load (store.read path) = .ok s)
    (hm : (restore s o.policy).result = .ok m) (hstopped : m.running = false)
    (hw : store.Writable path') (fuel : Nat) (input : List UInt8) :
    ∃ store', store'.read path' = .ok s.bytes ∧ o.execute (fuel + 1) store input = some {
      status := 1
      output := (o.listing m).toUTF8.toList
      errors := logText o [.resumed s.ip, .saved path'] ++ "error machine is halted, halting...\n"
      store := store'
      unread := input } := by
  obtain ⟨-, rfl, -⟩ := Machine.restore_eq_ok.1 hm
  have hstart : o.start store = .ok m := by
    simp only [Options.start, hr, hload, bind, Except.bind, hm]
  have hlog : (o.machine (store.read o.source)).log = [.resumed m.ip] := by
    rw [Options.machine_of_resumed hr hload]
    exact Machine.restore_log hm
  obtain ⟨store', hwrite⟩ := hw.write m.snapshot.bytes
  refine ⟨store', FileStore.read_of_write hwrite, ?_⟩
  rw [execute_of_started hstart, (Machine.run_of_not_running hstopped _ _ fuel _).1, hlog]
  simp only [Option.map_some, keep_of_written hs hwrite, verdict_machineHalted, Stream.ofInput,
    List.append_nil, List.cons_append, List.nil_append]
  rfl

/-- A saved machine has come to its end. Its file holds a snapshot that is accepted under every
policy, and a session that goes on from it runs no instruction, fails and saves the same
file again. -/
theorem saved_session_is_over {args : List String} {out : Outcome}
    (ho : request Options.initial args = .run o) (hs : o.save = some path)
    (hm : o.start store = .ok m) (hw : store.Writable path)
    (hx : execute fuel args store input = some out) :
    ∃ s : Snapshot, out.store.read path = .ok s.bytes ∧
      Snapshot.load (out.store.read path) = .ok s ∧ s.running = false ∧
      (∀ policy, ∃ m', (restore s policy).result = .ok m') ∧
      ∀ (args' : List String) (o' : Options) (path' : String) (store' : FileStore),
        request Options.initial args' = .run o' → o'.resume = some path →
        o'.save = some path' → store'.read path = out.store.read path → store'.Writable path' →
        ∃ m', (restore s o'.policy).result = .ok m' ∧ ∀ (fuel' : Nat) (input' : List UInt8),
          m'.steps (fuel' + 1) (Stream.ofInput input') =
            [⟨m', Stream.ofInput input', .error .machineHalted, [], []⟩] ∧
          ∃ out', execute (fuel' + 1) args' store' input' = some out' ∧
            out'.status = 1 ∧
            out'.output = (if o'.dumpMemory then Listing.text m'.memory else "").toUTF8.toList ∧
            out'.errors = logText o' [.resumed s.ip, .saved path'] ++
              "error machine is halted, halting...\n" ∧
            out'.unread = input' ∧ out'.store.read path' = out.store.read path := by
  rw [execute_of_run ho] at hx
  obtain ⟨r, hrun, hread⟩ := saved_of_execute hs hm hw hx
  have hstopped : r.machine.running = false := Machine.run_stopped hrun
  have hload : Snapshot.load (out.store.read path) = .ok r.machine.snapshot := by
    rw [hread, Snapshot.load_bytes]
  have hwf : r.machine.WellFormed :=
    Machine.run_preserves (fun _ c h => h.step c) hrun (Options.start_wellFormed hm)
  refine ⟨r.machine.snapshot, hread, hload, hstopped, fun policy => ⟨_, hwf.restore policy⟩, ?_⟩
  intro args' o' path' store' ho' hr' hs' hfile hw'
  obtain ⟨m', hm', hstopped'⟩ : ∃ m', (restore r.machine.snapshot o'.policy).result = .ok m' ∧
      m'.running = false := ⟨_, hwf.restore o'.policy, hstopped⟩
  rw [← hfile] at hload
  refine ⟨m', hm', fun fuel' input' => ⟨Machine.steps_of_not_running hstopped' _ fuel', ?_⟩⟩
  obtain ⟨store'', hsaved, hx'⟩ :=
    execute_of_not_running hr' hs' hload hm' hstopped' hw' fuel' input'
  rw [execute_of_run ho', hx']
  exact ⟨_, rfl, rfl, rfl, rfl, rfl, hsaved.trans hread.symm⟩

theorem saved_session_is_over_unread :
    ∃ out out', execute 1 ["p", "--save", "s"]
        ⟨[(["p"], .file [20, 0, 0, 128])], []⟩ "".toUTF8.toList = some out ∧ out.status = 1 ∧
      execute 1 ["--strict", "--resume", "s", "--save", "s"] out.store [65, 10] = some out' ∧
      out'.status = 1 ∧ out'.output = [] ∧ out'.unread = [65, 10] ∧
      out'.store.read "s" = out.store.read "s" := by
  let store : FileStore := ⟨[(["p"], .file [20, 0, 0, 128])], []⟩
  let o : Options := ⟨some "p", none, some "s", false, false, 0⟩
  let o' : Options := ⟨none, some "s", some "s", true, false, 0⟩
  have ho : request Options.initial ["p", "--save", "s"] = .run o := by decide
  have ho' : request Options.initial ["--strict", "--resume", "s", "--save", "s"] =
      .run o' := by decide
  have hread : store.read "p" = .ok [20, 0, 0, 128] :=
    FileStore.read_of_isPlain (by decide) rfl
  have hw : store.Writable "s" := FileStore.writable_of_isPlain (by decide) (by decide)
  obtain ⟨m, hb, hrun, hp, hf, he⟩ : ∃ m, (boot [20, 32768] .wrap).result = .ok m ∧
      m.running = true ∧ m.pending = [] ∧ m.fetch = .ok (.input 32768) ∧
      (m.effect (.input 32768)).result = .ok (.read (.register ⟨0⟩)) :=
    ⟨_, rfl, rfl, rfl, rfl, rfl⟩
  have hempty : Console.read (Recorder.ofLines (Line.ofText "")) =
      (.endOfInput, Recorder.ofLines []) := rfl
  have hs := Machine.step_of_effect hrun hf he (Recorder.ofLines (Line.ofText ""))
  simp only [Machine.perform, hp, Console.refill_of_endOfInput hempty] at hs
  have hend : (m.step (Recorder.ofLines (Line.ofText ""))).outcome? =
      some (.error (.inputExhausted m.ip)) := by
    rw [hs]
    rfl
  obtain ⟨r, hr, hresult⟩ : ∃ r, m.run (fun _ => false) 1 (Recorder.ofLines (Line.ofText "")) #[] =
      some r ∧ r.result = .error (.inputExhausted m.ip) := ⟨_, Machine.run_of_stopped hend, rfl⟩
  have hm : o.start store = .ok m := by
    simp only [Options.start, o, Option.getD_some, hread]
    exact hb
  obtain ⟨out, hx, hstatus, -, hstore⟩ := execute_of_text hm "" hr
  obtain ⟨store', hwrite⟩ := hw.write r.machine.snapshot.bytes
  rw [keep_of_written rfl hwrite] at hstore
  rw [hresult] at hstatus
  rw [← execute_of_run ho] at hx
  obtain ⟨s, -, -, -, -, hagain⟩ := saved_session_is_over ho rfl hm hw hx
  have hw' : out.store.Writable "s" := by
    rw [hstore]
    exact FileStore.writable_of_write hwrite
  obtain ⟨m', -, hruns⟩ := hagain _ o' "s" out.store ho' rfl rfl rfl hw'
  obtain ⟨-, out', hx', hstatus', houtput, -, hunread, hkept⟩ := hruns 0 [65, 10]
  have hnothing : "".toUTF8.toList = [] := Stream.toList_toUTF8 ""
  exact ⟨out, out', hx, hstatus, hx', hstatus', houtput.trans hnothing, hunread, hkept⟩

end FifteenBit.CommandLine
