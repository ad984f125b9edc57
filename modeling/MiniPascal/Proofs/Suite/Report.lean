import Mathlib
import MiniPascal.Proofs.Files.Rewrite
import MiniPascal.Proofs.Json.Roundtrip
import MiniPascal.Proofs.Suite.Cache

/-!
# What a run leaves for the next one

A run writes its report as JSON to a file, and the next run reads it from there. A report comes back
with the entries that it had, in the opposite order (`Report.parse?_text`), so the next run finds for
every file what was stored for it. That is what `Keeps` says of `Stored` reports, and with `run_eq` it
is said of the runs of a suite (`Stored.of_run`).
-/

open List

namespace MiniPascal

/-! ## Results as JSON -/

/-- The names of the fields of a command and of a result. -/
def fieldNames : List String :=
  ["stdout", "stderr", "exitCode", "duration", "timed_out", "file", "hash", "status", "message",
    "diff", "compile", "run"]

theorem sameName_eq : ∀ x ∈ fieldNames, ∀ y ∈ fieldNames, sameName x y = decide (x = y) := by
  decide +kernel

/-- An exit code has 64 bits. -/
def Execution.Fits (e : Execution) : Prop :=
  Int64.minValue.toInt ≤ e.exitCode ∧ e.exitCode ≤ Int64.maxValue.toInt

theorem readIntField_int {before n : Int} (least : Int64.minValue.toInt ≤ n)
    (most : n ≤ Int64.maxValue.toInt) : readIntField before (.int n) = some n := by
  have read : (toString n).toInt? = some n := Int.toInt?_repr n
  unfold readIntField JsonValue.int
  dsimp only
  rw [read]
  exact if_pos (by rw [decide_eq_true least, decide_eq_true most]; rfl)

theorem Execution.ofJson?_toJson (fits : e.Fits) :
    ofJson? none e.toJson = some (some e) := by
  have code := @readIntField_int 0 _ fits.1 fits.2
  have duration := @readIntField_int 0 e.duration.toInt (Int64.minValue_le_toInt _) (Int64.toInt_le _)
  simp (disch := decide) [toJson, ofJson?, readField, sameName_eq, readTextField, code, duration]

/-- A result that a report can hold: its verdict is known by its word, and exit codes have 64 bits. -/
structure TestResult.Fits (r : TestResult) : Prop where
  status : Status.ofText r.status.text = r.status
  compile : ∀ e ∈ r.compile, e.Fits
  run : ∀ e ∈ r.run, e.Fits

theorem TestResult.ofJson?_toJson (fits : r.Fits) :
    ofJson? r.toJson = some (some r) := by
  obtain ⟨file, hash, status, message, diff, compile, run⟩ := r
  obtain ⟨known, compiled, ran⟩ := fits
  by_cases silent : message = "" <;> by_cases same : diff = "" <;> cases compile <;> cases run <;>
    simp (disch := first | decide | exact compiled _ rfl | exact ran _ rfl) [toJson, ofJson?,
      readField, sameName_eq, readTextField, known, silent, same, Execution.ofJson?_toJson]

open JsonValue

theorem returns_execution (depth : Nat) (e : Execution) : Returns depth e.toJson := by
  intro fuel c rest enough _
  refine readValue_object (fun name v member => ?_) enough
  grind [returns_text, returns_int, returns_bool]

theorem returns_result (depth : Nat) (r : TestResult) : Returns depth r.toJson := by
  intro fuel c rest enough _
  refine readValue_object (fun name v member => ?_) enough
  simp only [mem_append] at member
  rcases member with (((first | message) | diff) | compiled) | ran <;>
    grind [returns_text, returns_execution]

/-- A report is read as it was written, the last entry first. -/
theorem Report.parse?_text {report : Report} (fits : ∀ x ∈ report, x.2.Fits) :
    Report.parse? report.text = some report.reverse := by
  have entries : (report.map fun x => JsonField.mk x.1 x.2.toJson).mapM readEntry =
      some (report.map some) := by
    induction report with
    | nil => rfl
    | cons x report ih =>
      obtain ⟨first, later⟩ := forall_mem_cons.mp fits
      rw [map_cons, mapM_cons, ih later, readEntry, TestResult.ofJson?_toJson first]
      rfl
  have returns (name : String) (v : JsonValue)
      (member : JsonField.mk name v ∈ report.map fun x => JsonField.mk x.1 x.2.toJson) :
      Returns 1 v := by
    obtain ⟨x, -, same⟩ := mem_map.mp member
    cases same
    exact returns_result 1 x.2
  have value : JsonValue.parse? report.text =
      some (.object (report.map fun x => .mk x.1 x.2.toJson)) := by
    rw [JsonValue.parse?, text, ← append_nil (String.toList _), readValue_object returns (by simp)]
    rfl
  rw [Report.parse?, value]
  simp [entries]

namespace Suite

variable {b : Bench} {o : Options} {previous : Report} {fs gs : Files} {file : String}
  {files : List String} {r : TestResult} {rs : List TestResult}

/-! ## Stored results -/

/-- In whatever order the entries of a report stand, that of a file is its last result. -/
theorem find?_of_same {l : Report} (same : ∀ x, x ∈ l ↔ x ∈ Report.ofResults rs) :
    l.find? file = (rs.reverse.map fun r => (r.file, r)).lookup file := by
  have entry (f : String) (r : TestResult) : (f, r) ∈ Report.ofResults rs ↔
      (rs.reverse.map fun r => (r.file, r)).lookup f = some r := by
    constructor
    · intro member
      obtain ⟨f', -, entry⟩ := mem_filterMap.mp member
      obtain ⟨r', listed, same⟩ := Option.map_eq_some_iff.mp entry
      cases same
      exact listed
    · intro listed
      refine mem_filterMap.mpr ⟨f, ?_, by rw [listed]; rfl⟩
      rw [mem_mergeSort, mem_eraseDups]
      exact mem_map_of_mem (Table.mem_of_lookup listed)
  cases found : l.find? file with
  | some r => exact ((entry file r).mp ((same _).mp (Table.mem_of_lookup found))).symm
  | none =>
    cases listed : (rs.reverse.map fun r => (r.file, r)).lookup file with
    | none => rfl
    | some r =>
      have member := (same _).mpr ((entry file r).mpr listed)
      exact absurd (mem_map_of_mem member) (lookup_eq_none_iff.mp found)

/-- What is read of a report that was written. -/
theorem previousReport_of_write {report : Report} (fits : ∀ x ∈ report, x.2.Fits)
    (written : fs.write o.report report.text = .ok gs) :
    (previousReport o gs).1 = report.reverse := by
  rw [previousReport, Files.read_of_write written]
  dsimp only
  rw [Report.parse?_text fits]

/-- What is read back keeps the report that was written. -/
theorem keeps_of_write (fits : ∀ r ∈ rs, r.Fits)
    (written : fs.write o.report (Report.ofResults rs).text = .ok gs) :
    Keeps (Report.ofResults rs) (previousReport o gs).1 := by
  rw [previousReport_of_write (fun x member => fits _ (mem_ofResults member).1) written]
  intro file r found
  refine ⟨r, ?_, rfl, rfl, rfl⟩
  rw [find?_of_same fun _ => Iff.rfl, ← find?_of_same fun _ => mem_reverse]
  exact found

/-! ## Results that can be stored -/

/-- The commands of a bench have exit codes of 64 bits. -/
def Bench.Fits (b : Bench) : Prop :=
  ∀ fs compiler args, (b.compile fs compiler args).1.execution.Fits ∧
    ∀ p ∈ (b.compile fs compiler args).2, ∀ input, (p input).execution.Fits

/-- A report as runs leave it: every entry names its file, and can be stored. -/
def Regular (report : Report) : Prop := ∀ f x, (f, x) ∈ report → x.file = f ∧ x.Fits

theorem fits_compileAndRun (codes : b.Fits) (fs : Files) (file hash input : String) :
    (compileAndRun b o fs file hash input).1.Fits ∧
      ∀ e ∈ (compileAndRun b o fs file hash input).2, e.Fits := by
  obtain ⟨compiled, ran⟩ := codes fs o.compiler (compileArgs o (Path.join b.tempDir hash) file)
  unfold compileAndRun
  dsimp only
  split
  · exact ⟨compiled, by simp⟩
  · refine ⟨compiled, fun e same => ?_⟩
    cases same
    split
    · next p found => exact ran p found input
    · exact (by decide : Int64.minValue.toInt ≤ -2 ∧ -2 ≤ Int64.maxValue.toInt)

theorem fits_testHashed (codes : b.Fits) (fs : Files) (file hash : String) :
    (testHashed b o fs file hash).result.Fits := by
  obtain ⟨compiled, ran⟩ :=
    fits_compileAndRun (o := o) codes fs file hash ((fs.read (inputPath file)).toOption.getD "")
  unfold testHashed
  dsimp only
  generalize compileAndRun b o fs file hash _ = made at compiled ran ⊢
  obtain ⟨c, run⟩ := made
  have verdict (expected : String) :
      Status.ofText (judge expected c run).1.text = (judge expected c run).1 := by
    unfold judge
    dsimp only
    split_ifs <;> rfl
  split
  · split <;> exact ⟨rfl, by simpa using compiled, ran⟩
  · split
    · exact ⟨rfl, by simpa using compiled, ran⟩
    · exact ⟨verdict _, by simpa using compiled, ran⟩

theorem regular_testFile (codes : b.Fits) (regular : Regular previous) (fs : Files) (file : String) :
    (testFile b o previous fs file).result.file = file ∧
      (testFile b o previous fs file).result.Fits := by
  rcases testFile_cases b o previous fs file with
    ⟨e, failed, -⟩ | ⟨hash, -, ⟨r, reused, same⟩ | ⟨-, fresh⟩⟩
  · rw [testFile, failed]
    exact ⟨rfl, rfl, by simp, by simp⟩
  · obtain ⟨named, fits⟩ := regular file r (Table.mem_of_lookup (reusable?_eq_some reused).2.1)
    rw [same]
    exact ⟨named, fits.status, fits.compile, fits.run⟩
  · rw [fresh]
    exact ⟨(testHashed_result b o fs file hash).1, fits_testHashed codes fs file hash⟩

theorem fits_testFiles (codes : b.Fits) (regular : Regular previous) (fs : Files)
    (files : List String) : ∀ r ∈ (testFiles b o previous fs files).1, r.Fits := by
  induction files generalizing fs with
  | nil => exact forall_mem_nil _
  | cons file files ih =>
    rw [testFiles]
    split
    · exact forall_mem_cons.mpr ⟨⟨rfl, by simp, by simp⟩, ih fs⟩
    · exact forall_mem_cons.mpr ⟨(regular_testFile codes regular fs file).2, ih _⟩

/-! ## Runs of a suite -/

/-- A run that finds files writes the report of their results. -/
theorem run_eq (expands : Glob.expand fs o.patterns = some files) (listed : files ≠ []) :
    ∃ d, run b o fs = some d ∧ d.files =
      (writeReport o (testFiles b o (previousReport o fs).1 fs files).2.1
        (reportOf b o (previousReport o fs).1 fs files)).1 := by
  unfold run
  rw [expands]
  dsimp only [bind, Option.bind]
  rw [if_neg (by simpa using listed)]
  exact ⟨_, rfl, rfl⟩

/-- If the report is written, what the next run reads is stored, with the tests of this run. -/
theorem Stored.of_run (stored : Stored ts (previousReport o fs).1)
    (codes : b.Fits) (regular : Regular (previousReport o fs).1)
    (expands : Glob.expand fs o.patterns = some files) (listed : files ≠ [])
    (written : (testFiles b o (previousReport o fs).1 fs files).2.1.write o.report
      (reportOf b o (previousReport o fs).1 fs files).text = .ok gs) :
    ∃ d, Suite.run b o fs = some d ∧
      Stored (ts ++ trials b o (previousReport o fs).1 fs files) (previousReport o d.files).1 := by
  obtain ⟨d, done, after⟩ := run_eq (b := b) expands listed
  refine ⟨d, done, (stored.run b o fs files).kept ?_⟩
  rw [after, writeReport, written]
  exact keeps_of_write (fun r member => fits_testFiles codes regular fs files r
    (mem_mergeSort.mp member)) written

end Suite

end MiniPascal
