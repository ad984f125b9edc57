import MiniPascal.Proofs.Suite.Report

/-!
# Results that are used again and again

A result that is used again is stored with a mark in its message, and the next run finds the mark in
the report and adds another. All else that is stored stays the same (`noted?_run`).

Between two runs nothing changes but the report, which a run writes over. So what a run tests, and the
hash of its files, are the same in the next run if the report is not one of these files
(`Tests.of_rewritten`).
-/

open List

namespace MiniPascal.Suite

variable {b : Bench} {o : Options} {previous : Report} {fs gs : Files} {file hash : String}
  {files : List String} {r : TestResult} {rs : List TestResult}

/-! ## One run -/

/-- What a run that leaves golden files alone stores for a file. -/
def resultOf (b : Bench) (o : Options) (previous : Report) (fs : Files) (file : String) : TestResult :=
  if (Text.fields o.skip).contains file then { file, status := .skip, message := "Explicitly skipped" }
  else (testFile b o previous fs file).result

theorem testFiles_eq (plain : o.update = false) (files : List String) :
    (testFiles b o previous fs files).1 = files.map (resultOf b o previous fs) ∧
      (testFiles b o previous fs files).2.1 = fs := by
  have unchanged (file : String) : (testFile b o previous fs file).files = fs := by
    unfold testFile testHashed
    rw [plain]
    dsimp only
    repeat' split
    all_goals first | rfl | contradiction
  induction files with
  | nil => exact ⟨rfl, rfl⟩
  | cons file files ih =>
    rw [testFiles, map_cons, resultOf]
    split
    · exact ⟨congrArg _ ih.1, ih.2⟩
    · dsimp only
      rw [unchanged]
      exact ⟨congrArg _ ih.1, ih.2⟩

theorem file_resultOf (codes : b.Fits) (regular : Regular previous) (fs : Files) (file : String) :
    (resultOf b o previous fs file).file = file := by
  unfold resultOf
  split
  · rfl
  · exact (regular_testFile codes regular fs file).1

/-- If a file has one result, then it is stored for the file, in whatever order. -/
theorem find?_of_only {l : Report} (same : ∀ x, x ∈ l ↔ x ∈ Report.ofResults rs) (member : r ∈ rs)
    (named : r.file = file) (only : ∀ x ∈ rs, x.file = file → x = r) : l.find? file = some r := by
  subst named
  have key : (r.file, r) ∈ rs.reverse.map fun r => (r.file, r) :=
    mem_map.mpr ⟨r, mem_reverse.mpr member, rfl⟩
  rw [find?_of_same same]
  cases listed : (rs.reverse.map fun r => (r.file, r)).lookup r.file with
  | none => exact absurd (mem_map_of_mem key) (lookup_eq_none_iff.mp listed)
  | some x =>
    obtain ⟨y, inside, entry⟩ := mem_map.mp (Table.mem_of_lookup listed)
    obtain ⟨named, rfl⟩ := Prod.mk.inj entry
    rw [only y (mem_reverse.mp inside) named]

/-- A cached run that leaves golden files alone tests a file under a hash, and the report is none of the
files that the hash is taken of. -/
structure Tests (o : Options) (fs : Files) (file hash : String) : Prop where
  plain : o.update = false
  cached : o.cached = true
  listed : ∃ files, Glob.expand fs o.patterns = some files ∧ file ∈ files
  notSkipped : file ∉ Text.fields o.skip
  hashed : inputsHash fs (inputPaths o file) = .ok hash
  apart : ∀ path ∈ inputPaths o file, fs.locate path ≠ fs.locate o.report

/-- A new report changes nothing for the test. -/
theorem Tests.of_rewritten (tests : Tests o fs file hash)
    (located : fs.locate o.report = .ok place) (same : Files.Rewritten place fs gs) :
    Tests o gs file hash := by
  have bytes (path : String) (input : path ∈ inputPaths o file) :
      fileBytes gs path = fileBytes fs path := by
    unfold fileBytes
    rw [same.read (located ▸ tests.apart path input)]
  have all (paths : List String) (inputs : paths ⊆ inputPaths o file) :
      allBytes gs paths = allBytes fs paths := by
    induction paths with
    | nil => rfl
    | cons path paths ih =>
      obtain ⟨input, inputs⟩ := cons_subset.mp inputs
      rw [allBytes, allBytes, bytes path input, ih inputs]
  refine { tests with listed := ?_, hashed := ?_, apart := fun path input => ?_ }
  · rw [same.expand]
    exact tests.listed
  · rw [inputsHash, all _ (Subset.refl _)]
    exact tests.hashed
  · rw [same.locate, same.locate]
    exact tests.apart path input

/-- The entry of a file in the stored report. -/
def noted? (o : Options) (fs : Files) (file : String) : Option TestResult :=
  (previousReport o fs).1.find? file

/-- A run that leaves golden files alone and writes its report stores the result of each file. -/
theorem noted?_of_write (codes : b.Fits) (regular : Regular (previousReport o fs).1)
    (plain : o.update = false) (expands : Glob.expand fs o.patterns = some files)
    (listed : file ∈ files)
    (written : fs.write o.report (reportOf b o (previousReport o fs).1 fs files).text = .ok gs) :
    ∃ d, run b o fs = some d ∧ d.files = gs ∧ Regular (previousReport o gs).1 ∧
      noted? o gs file = some (resultOf b o (previousReport o fs).1 fs file) := by
  obtain ⟨d, done, after⟩ := run_eq (b := b) expands (ne_nil_of_mem listed)
  obtain ⟨results, unchanged⟩ := testFiles_eq (b := b) plain files
  rw [unchanged, writeReport, written] at after
  have each (x : String × TestResult)
      (member : x ∈ reportOf b o (previousReport o fs).1 fs files) : x.2.file = x.1 ∧ x.2.Fits := by
    obtain ⟨inside, named⟩ := mem_ofResults member
    exact ⟨named, fits_testFiles codes regular fs files _ (mem_mergeSort.mp inside)⟩
  have read : (previousReport o gs).1 = (reportOf b o (previousReport o fs).1 fs files).reverse :=
    previousReport_of_write (fun x member => (each x member).2) written
  refine ⟨d, done, after, ?_, ?_⟩
  · rw [read]
    exact fun f x member => each (f, x) (mem_reverse.mp member)
  · rw [noted?, read]
    refine find?_of_only (fun _ => mem_reverse) ?_ (file_resultOf codes regular fs file) ?_
    · rw [mem_mergeSort, results]
      exact mem_map_of_mem listed
    · intro x member named
      rw [mem_mergeSort, results] at member
      obtain ⟨f, -, rfl⟩ := mem_map.mp member
      rw [← named, file_resultOf codes regular]

/-- A run uses a stored result that passed again, stores it with one more mark, and changes nothing
else that matters for the next run. -/
theorem noted?_run (codes : b.Fits) (regular : Regular (previousReport o fs).1)
    (tests : Tests o fs file r.hash) (stored : noted? o fs file = some r) (passed : r.status = .pass) :
    ∃ d, run b o fs = some d ∧ Regular (previousReport o d.files).1 ∧ Tests o d.files file r.hash ∧
      noted? o d.files file = some { r with message := r.message ++ " (cached)" } := by
  obtain ⟨files, expands, listed⟩ := tests.listed
  -- the report is there, so it is written over
  obtain ⟨old, there⟩ : ∃ old, fs.read o.report = .ok old := by
    unfold noted? previousReport at stored
    cases read : fs.read o.report with
    | error e =>
      rw [read] at stored
      cases stored
    | ok old => exact ⟨old, rfl⟩
  obtain ⟨place, gs, located, written, rewritten⟩ :=
    Files.exists_rewritten there (reportOf b o (previousReport o fs).1 fs files).text
  obtain ⟨d, done, rfl, regular', entry⟩ :=
    noted?_of_write codes regular tests.plain expands listed written
  refine ⟨d, done, regular', tests.of_rewritten located rewritten, ?_⟩
  have found : (previousReport o fs).1.find? file = some r := stored
  have reused : reusable? o (previousReport o fs).1 file r.hash = some r := by
    simp [reusable?, found, tests.cached, passed]
  rw [entry, resultOf, if_neg (by simpa using tests.notSkipped), testFile, tests.hashed]
  dsimp only
  rw [reused]

/-! ## Many runs -/

/-- The files after a number of runs of one suite. -/
def runs (b : Bench) (o : Options) : Nat → Files → Option Files
  | 0, fs => some fs
  | n + 1, fs => do
    let fs ← runs b o n fs
    let d ← run b o fs
    return d.files

/-- Each run stores the result with one more mark than the run before, and the next run can use it. -/
theorem noted?_runs (codes : b.Fits) (regular : Regular (previousReport o fs).1)
    (tests : Tests o fs file r.hash) (stored : noted? o fs file = some r) (passed : r.status = .pass)
    (n : Nat) :
    ∃ gs, runs b o n fs = some gs ∧ Regular (previousReport o gs).1 ∧ Tests o gs file r.hash ∧
      noted? o gs file =
        some { r with message := r.message ++ String.join (List.replicate n " (cached)") } := by
  induction n with
  | zero => exact ⟨fs, rfl, regular, tests, by simpa using stored⟩
  | succ n ih =>
    obtain ⟨gs, done, regular, tests, stored⟩ := ih
    obtain ⟨d, next, regular', tests', stored'⟩ :=
      noted?_run codes regular (by exact tests) stored (by exact passed)
    refine ⟨d.files, by simp [runs, done, next], regular', tests', ?_⟩
    rw [stored', replicate_succ', String.join_append, String.append_assoc]
    rfl

/-- Runs of a suite with the cache, one after the other, with nothing done in between. A result that
passed is found by each of them in the report of the one before, and stored as it was with one more mark
in its message. So no two runs store the same. -/
theorem rerun_marks {b : Bench} {o : Options} {fs : Files} {file : String} {r : TestResult}
    (codes : b.Fits) (regular : Regular (previousReport o fs).1) (tests : Tests o fs file r.hash)
    (stored : noted? o fs file = some r) (passed : r.status = .pass) (n : Nat) :
    ∃ gs, runs b o n fs = some gs ∧ noted? o gs file =
      some { r with message := r.message ++ String.join (List.replicate n " (cached)") } := by
  obtain ⟨gs, done, -, -, entry⟩ := noted?_runs codes regular tests stored passed n
  exact ⟨gs, done, entry⟩

/-- Options for cached runs of a suite of one file. -/
def again : Options := { compiler := "pasc", patterns := "t.pas", cached := true }

/-- The result of the first of them. -/
def firstResult : TestResult := resultOf echoBench again [] (suiteOf "ab" (some "ab")) "t.pas"

/-- The files after the first of them. -/
def tested : Files := ((runs echoBench again 1 (suiteOf "ab" (some "ab"))).getD {})

theorem fits_echoBench : echoBench.Fits := by
  intro fs compiler args
  have zero : Int64.minValue.toInt ≤ 0 ∧ 0 ≤ Int64.maxValue.toInt := by decide
  refine ⟨zero, fun p made input => ?_⟩
  cases made
  exact zero

theorem firstResult_eq : firstResult.status = .pass ∧ firstResult.message = "Output matches" := by
  decide +kernel

theorem noted?_tested : Regular (previousReport again tested).1 ∧
    noted? again tested "t.pas" = some firstResult := by
  have none : (previousReport again (suiteOf "ab" (some "ab"))).1 = [] := by decide +kernel
  have writes : ((suiteOf "ab" (some "ab")).write again.report
      (reportOf echoBench again [] (suiteOf "ab" (some "ab")) ["t.pas"]).text).toOption.isSome := by
    decide +kernel
  rw [← none] at writes
  cases written : (suiteOf "ab" (some "ab")).write again.report _ with
  | error e =>
    rw [written] at writes
    cases writes
  | ok gs =>
    have regular : Regular [] := fun f x member => nomatch member
    obtain ⟨d, done, rfl, after⟩ := noted?_of_write fits_echoBench (none ▸ regular) rfl
      (by decide +kernel) (mem_singleton_self "t.pas") written
    rw [none] at after
    have same : tested = d.files := by simp [tested, runs, done]
    rw [same]
    exact after

theorem tests_tested : Tests again tested "t.pas" firstResult.hash where
  plain := rfl
  cached := rfl
  listed := ⟨["t.pas"], by decide +kernel, mem_singleton_self _⟩
  notSkipped := by decide
  hashed := by
    have hash : (inputsHash tested (inputPaths again "t.pas")).toOption = some firstResult.hash := by
      decide +kernel
    cases hashed : inputsHash tested (inputPaths again "t.pas") <;> rw [hashed] at hash <;> cases hash
    rfl
  apart := by
    intro path input same
    have places : (inputPaths again "t.pas").all fun path =>
        (tested.locate path).toOption != (tested.locate again.report).toOption := by
      decide +kernel
    simpa [same] using all_eq_true.mp places path input

theorem rerun_marks_unchanged : ∃ gs, runs echoBench again 3 tested = some gs ∧
    (noted? again gs "t.pas").map (·.message) =
      some ("Output matches" ++ String.join (List.replicate 3 " (cached)")) := by
  obtain ⟨gs, done, entry⟩ := rerun_marks fits_echoBench noted?_tested.1 tests_tested
    noted?_tested.2 firstResult_eq.1 3
  exact ⟨gs, done, by rw [entry, ← firstResult_eq.2]; rfl⟩

/-- Two cached runs, one after the other, store different messages. -/
theorem rerun_differs :
    ((runs echoBench again 1 tested).bind (noted? again · "t.pas")).map (·.message) =
      some "Output matches (cached)" ∧
    ((runs echoBench again 2 tested).bind (noted? again · "t.pas")).map (·.message) =
      some "Output matches (cached) (cached)" := by
  have message (n : Nat) :
      ((runs echoBench again n tested).bind (noted? again · "t.pas")).map (·.message) =
        some ("Output matches" ++ String.join (List.replicate n " (cached)")) := by
    obtain ⟨gs, done, -, -, entry⟩ := noted?_runs fits_echoBench noted?_tested.1 tests_tested
      noted?_tested.2 firstResult_eq.1 n
    rw [done, Option.bind_some, entry, ← firstResult_eq.2]
    rfl
  exact ⟨message 1, message 2⟩

end MiniPascal.Suite
