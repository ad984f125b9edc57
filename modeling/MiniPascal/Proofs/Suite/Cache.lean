import MiniPascal.Proofs.Lower.Frame
import MiniPascal.Proofs.Qbe.Quoted
import MiniPascal.Suite.Run

/-!
# Results that are used again

In a cached run a test is not made if the stored report has a result that passed under the same hash. The hash
stands for the four files of the test, one behind the other. It does not say where one ends and the next
begins, it does not know a file that is missing from one that holds the mark for it, and it knows nothing of
the arguments of the compiler or of whether the golden file was then written by the run itself.

So a stored result is as good as a new one if these things are as they were, and each of them matters. What a
stored result is worth depends on the test that it came from, perhaps many runs ago: `Stored` keeps, with each
report, all tests that were made, and `Stored.traced` finds the one behind a result.
-/

open List

namespace MiniPascal

/-! ## Hashes -/

namespace Digest

theorem digitChar_inj : ∀ m < 16, ∀ n < 16, Nat.digitChar m = Nat.digitChar n → m = n := by decide

/-- A number of one digit has another form than a number of more. -/
theorem toDigits_ne_of_lt (small : m < 16) (large : 16 ≤ n) : Nat.toDigits 16 m ≠ Nat.toDigits 16 n := by
  intro same
  rw [Nat.toDigits_of_lt_base small, Nat.toDigits_of_base_le (by decide) large] at same
  have length := congrArg List.length same
  rw [length_append, length_singleton, length_singleton] at length
  have empty : (Nat.toDigits 16 (n / 16)).length = 0 := by omega
  exact Nat.toDigits_ne_nil (length_eq_zero_iff.mp empty)

theorem toDigits_inj (same : Nat.toDigits 16 m = Nat.toDigits 16 n) : m = n := by
  induction m using Nat.strong_induction_on generalizing n with
  | _ m ih =>
    by_cases small : m < 16 <;> by_cases small' : n < 16
    · rw [Nat.toDigits_of_lt_base small, Nat.toDigits_of_lt_base small'] at same
      exact digitChar_inj m small n small' (List.cons.inj same).1
    · exact absurd same (toDigits_ne_of_lt small (Nat.le_of_not_lt small'))
    · exact absurd same.symm (toDigits_ne_of_lt small' (Nat.le_of_not_lt small))
    · rw [Nat.toDigits_of_base_le (by decide) (Nat.le_of_not_lt small),
        Nat.toDigits_of_base_le (by decide) (Nat.le_of_not_lt small')] at same
      obtain ⟨front, last⟩ := append_inj' same rfl
      have upper := ih (m / 16) (by omega) front
      have lower := digitChar_inj _ (Nat.mod_lt m (by decide)) _ (Nat.mod_lt n (by decide))
        (List.cons.inj last).1
      omega

/-- The hexadecimal form of a digest determines it. -/
theorem text_inj (same : text x = text y) : x = y :=
  UInt64.toNat_inj.mp (toDigits_inj (String.ofList_injective same))

end Digest

namespace Suite

/-! ## Files behind a hash -/

/-- The content of a file that is there. -/
def content (fs : Files) (path : String) : Option String := (fs.read path).toOption

variable {fs : Files} {path file hash : String} {bs : List UInt8} {b : Bench} {o : Options} {previous : Report}
  {r : TestResult} {t : Trial} {ts : List Trial}

theorem fileBytes_cases (h : fileBytes fs path = .ok bs) : (∃ c, content fs path = some c ∧ bs = c.toUTF8.toList) ∨
      content fs path = none ∧ bs = ("\x00missing:" ++ Path.base path ++ "\x00").toUTF8.toList := by
  unfold fileBytes at h
  unfold content
  cases read : fs.read path with
  | ok c =>
    rw [read] at h
    cases h
    exact .inl ⟨c, rfl, rfl⟩
  | error e =>
    rw [read] at h
    dsimp only at h
    split at h
    · cases h
      exact .inr ⟨rfl, rfl⟩
    · cases h

theorem allBytes_cons (h : allBytes fs (path :: paths) = .ok bs) :
    ∃ first later, fileBytes fs path = .ok first ∧ allBytes fs paths = .ok later ∧ bs = first ++ later := by
  rw [allBytes] at h
  cases run : fileBytes fs path with
  | error e =>
    rw [run] at h
    cases h
  | ok first =>
    cases rest : allBytes fs paths with
    | error e =>
      rw [run, rest] at h
      cases h
    | ok later =>
      rw [run, rest] at h
      cases h
      exact ⟨first, later, rfl, rfl, rfl⟩

/-- The size of a file that is there, in bytes. -/
def size (fs : Files) (path : String) : Option Nat := (content fs path).map fun c => c.toUTF8.toList.length

/-- Of files of one size, the bytes at the front tell the content. -/
theorem content_of_bytes (read : fileBytes fs path = .ok bs)
    (read' : fileBytes gs path = .ok bs') (sizes : size fs path = size gs path)
    (same : bs ++ rest = bs' ++ rest') : content fs path = content gs path ∧ rest = rest' := by
  unfold size at sizes
  rcases fileBytes_cases read with ⟨c, there, rfl⟩ | ⟨missing, rfl⟩ <;>
    rcases fileBytes_cases read' with ⟨c', there', rfl⟩ | ⟨missing', rfl⟩
  · rw [there, there'] at sizes
    obtain ⟨bytes, rests⟩ := append_inj same (Option.some.inj sizes)
    rw [there, there', Qbe.toUTF8_toList_inj bytes]
    exact ⟨rfl, rests⟩
  · rw [there, missing'] at sizes
    cases sizes
  · rw [missing, there'] at sizes
    cases sizes
  · exact ⟨missing.trans missing'.symm, append_cancel_left same⟩

/-- Of two files of which both are there or none is, all bytes tell the content. -/
theorem content_of_allBytes (read : fileBytes fs path = .ok bs)
    (read' : fileBytes gs path' = .ok bs) (both : (content fs path).isSome = (content gs path').isSome) :
    content fs path = content gs path' := by
  rcases fileBytes_cases read with ⟨c, there, rfl⟩ | ⟨missing, rfl⟩ <;>
    rcases fileBytes_cases read' with ⟨c', there', same⟩ | ⟨missing', same⟩
  · rw [there, there', Qbe.toUTF8_toList_inj same]
  · rw [there, missing'] at both
    cases both
  · rw [missing, there'] at both
    cases both
  · exact missing.trans missing'.symm

/-! ## What a verdict depends on -/

/-- What came of running what a compiler made, if it made a program. -/
def ranOn (made : Outcome × Option (String → Outcome)) (input : String) : Option Execution :=
  let compiled := made.1.execution
  if compiled.exitCode ≠ 0 ∨ compiled.timedOut then none
  else
    match made.2 with
    | some p => some (p input).execution
    | none => some (Outcome.failed "").execution

/-- The verdict on what a compiler made, given the golden file and the input. -/
def verdict (made : Outcome × Option (String → Outcome)) (golden input : Option String) : Status :=
  match golden with
  | none => .skip
  | some expected => (judge expected made.1.execution (ranOn made (input.getD ""))).1

/-- Of a run the verdict takes what was printed, and whether there was an end to it. -/
theorem judge_congr
    (same : ran.map (fun r => (r.stdout, r.timedOut)) = ran'.map fun r => (r.stdout, r.timedOut)) :
    (judge expected compiled ran).1 = (judge expected compiled ran').1 := by
  have timedOut : ran.any (·.timedOut) = ran'.any (·.timedOut) := by
    cases ran <;> cases ran' <;> simp_all
  have printed : actual compiled ran = actual compiled ran' := by
    cases ran <;> cases ran' <;> simp_all [actual]
  unfold judge
  rw [timedOut, printed]

/-- Where a program that is not there was looked for does not matter. -/
theorem compileAndRun_eq (b : Bench) (o : Options) (fs : Files) (file hash input : String) :
    let made := b.compile fs o.compiler (compileArgs o (Path.join b.tempDir hash) file)
    (compileAndRun b o fs file hash input).1 = made.1.execution ∧
      (compileAndRun b o fs file hash input).2.map (fun r => (r.stdout, r.timedOut)) =
        (ranOn made input).map fun r => (r.stdout, r.timedOut) := by
  unfold compileAndRun ranOn
  dsimp only
  split
  · exact ⟨rfl, rfl⟩
  · split
    · next found => simp [found]
    · next missing => simp [missing, Outcome.execution]

/-- What the verdict of a test depends on. -/
theorem status_testHashed (plain : o.update = false) (fs : Files) (file hash : String) :
    (testHashed b o fs file hash).result.status =
      verdict (b.compile fs o.compiler (compileArgs o (Path.join b.tempDir hash) file))
        (content fs (goldenPath file)) (content fs (inputPath file)) := by
  have spec := compileAndRun_eq b o fs file hash ((fs.read (inputPath file)).toOption.getD "")
  unfold testHashed
  dsimp only at spec ⊢
  generalize compileAndRun b o fs file hash ((fs.read (inputPath file)).toOption.getD "") = made at spec ⊢
  obtain ⟨compiled, ran⟩ := made
  rw [plain]
  unfold verdict content
  cases golden : fs.read (goldenPath file) with
  | error e => rfl
  | ok expected =>
    rw [← spec.1]
    exact judge_congr spec.2

/-! ## One test -/

theorem testHashed_result (b : Bench) (o : Options) (fs : Files) (file hash : String) :
    (testHashed b o fs file hash).result.file = file ∧ (testHashed b o fs file hash).result.hash = hash := by
  unfold testHashed
  dsimp only
  split
  · split <;> exact ⟨rfl, rfl⟩
  · split <;> exact ⟨rfl, rfl⟩

/-- A result that is used again was stored, passed, and has the hash. -/
theorem reusable?_eq_some (h : reusable? o previous file hash = some r) :
    o.cached = true ∧ previous.find? file = some r ∧ r.hash = hash ∧ r.status = .pass := by
  obtain ⟨found, fits⟩ := Option.filter_eq_some_iff.mp h
  simp only [Bool.and_eq_true, beq_iff_eq] at fits
  exact ⟨fits.1.1, found, fits.1.2, fits.2⟩

/-- What a test can come to. -/
theorem testFile_cases (b : Bench) (o : Options) (previous : Report) (fs : Files) (file : String) :
    (∃ e, inputsHash fs (inputPaths o file) = .error e ∧ (testFile b o previous fs file).result.status = .error) ∨
    ∃ hash, inputsHash fs (inputPaths o file) = .ok hash ∧ ((∃ r, reusable? o previous file hash = some r ∧
        (testFile b o previous fs file).result = { r with message := r.message ++ " (cached)" }) ∨
      reusable? o previous file hash = none ∧ testFile b o previous fs file = testHashed b o fs file hash) := by
  unfold testFile
  cases inputsHash fs (inputPaths o file) with
  | error e => exact .inl ⟨e, rfl, rfl⟩
  | ok hash =>
    refine .inr ⟨hash, rfl, ?_⟩
    dsimp only
    cases reusable? o previous file hash with
    | some r => exact .inl ⟨r, rfl, rfl⟩
    | none => exact .inr ⟨rfl, rfl⟩

/-- Without the cache the test is made. -/
theorem testFile_uncached (hashed : inputsHash fs (inputPaths o file) = .ok hash) :
    testFile b { o with cached := false } previous fs file = testHashed b o fs file hash := by
  rcases testFile_cases b { o with cached := false } previous fs file with
    ⟨e, failed, -⟩ | ⟨hash', hashed', ⟨r, reused, -⟩ | ⟨-, fresh⟩⟩
  · cases failed.symm.trans hashed
  · cases (reusable?_eq_some reused).1
  · obtain rfl : hash' = hash := Except.ok.inj (hashed'.symm.trans hashed)
    have compiled (input : String) : compileAndRun b { o with cached := false } fs file hash' input =
        compileAndRun b o fs file hash' input := rfl
    rw [fresh, testHashed, testHashed, compiled]

/-! ## The tests behind a report -/

/-- A test that was made: with what, and with the files as they were then. -/
structure Trial where
  bench : Bench
  options : Options
  files : Files
  file : String

/-- The tests of a run, in order. -/
def trials (b : Bench) (o : Options) (previous : Report) : Files → List String → List Trial
  | _, [] => []
  | fs, file :: files =>
    if (Text.fields o.skip).contains file then trials b o previous fs files
    else ⟨b, o, fs, file⟩ :: trials b o previous (testFile b o previous fs file).files files

theorem bench_of_mem_trials (member : t ∈ trials b o previous fs files) : t.bench = b := by
  fun_induction trials b o previous fs files with
  | case1 => cases member
  | case2 fs file files _ ih => exact ih member
  | case3 fs file files _ ih =>
    rcases mem_cons.mp member with rfl | later
    · rfl
    · exact ih later

/-- The results of a run, as they are stored. -/
def reportOf (b : Bench) (o : Options) (previous : Report) (fs : Files) (files : List String) : Report :=
  Report.ofResults ((testFiles b o previous fs files).1.mergeSort fun x y => x.file ≤ y.file)

/-- A report was read back: its entries are old ones, as far as files, hashes and verdicts go. -/
def Keeps (old new : Report) : Prop :=
  ∀ file r, new.find? file = some r →
    ∃ r', old.find? file = some r' ∧ r'.file = r.file ∧ r'.hash = r.hash ∧ r'.status = r.status

/-- The reports that runs can leave, one after the other and with any options, each with all tests that were made
in these runs. -/
inductive Stored : List Trial → Report → Prop
  | nothing : Stored [] []
  | run {ts : List Trial} {previous : Report} (b : Bench) (o : Options) (fs : Files) (files : List String) :
    Stored ts previous → Stored (ts ++ trials b o previous fs files) (reportOf b o previous fs files)
  | kept {ts : List Trial} {old new : Report} : Stored ts old → Keeps old new → Stored ts new

/-- A test gave a result that passed. -/
structure Trial.Gave (t : Trial) (r : TestResult) : Prop where
  file : t.file = r.file
  hash : inputsHash t.files (inputPaths t.options t.file) = .ok r.hash
  status : (testHashed t.bench t.options t.files t.file r.hash).result.status = .pass

theorem Trial.Gave.congr (h : t.Gave r) (file : r.file = r'.file) (hash : r.hash = r'.hash) :
    t.Gave r' :=
  ⟨file ▸ h.file, hash ▸ h.hash, hash ▸ h.status⟩

/-- Every entry that passed is that of its file, and a test gave it. -/
def Traced (ts : List Trial) (report : Report) : Prop :=
  ∀ file r, report.find? file = some r → r.status = .pass → r.file = file ∧ ∃ t ∈ ts, t.Gave r

theorem exists_trial_of_testFile (traced : Traced ts previous)
    (passed : (testFile b o previous fs file).result.status = .pass) :
    ∃ t, (t ∈ ts ∨ t = ⟨b, o, fs, file⟩) ∧ t.Gave (testFile b o previous fs file).result := by
  rcases testFile_cases b o previous fs file with ⟨e, -, failed⟩ | ⟨hash, hashed, ⟨r, reused, same⟩ | ⟨-, fresh⟩⟩
  · rw [failed] at passed
    cases passed
  · obtain ⟨-, found, -, ok⟩ := reusable?_eq_some reused
    obtain ⟨-, t, member, gave⟩ := traced file r found ok
    rw [same]
    exact ⟨t, .inl member, gave.congr rfl rfl⟩
  · rw [fresh] at passed ⊢
    obtain ⟨named, stamped⟩ := testHashed_result b o fs file hash
    refine ⟨⟨b, o, fs, file⟩, .inr rfl, named.symm, ?_, ?_⟩
    · rw [stamped]
      exact hashed
    · rw [stamped]
      exact passed

/-- Every result of a run that passed was given by a test, of this run or of an earlier one. -/
theorem exists_trial_of_testFiles (traced : Traced ts previous) (fs : Files) (files : List String) :
    ∀ r ∈ (testFiles b o previous fs files).1, r.status = .pass →
      ∃ t ∈ ts ++ trials b o previous fs files, t.Gave r := by
  induction files generalizing fs with
  | nil => exact forall_mem_nil _
  | cons file files ih =>
    intro r member passed
    rw [testFiles] at member
    rw [trials]
    by_cases skipped : (Text.fields o.skip).contains file = true
    · rw [if_pos skipped] at member ⊢
      rcases mem_cons.mp member with rfl | later
      · cases passed
      · exact ih fs r later passed
    · rw [if_neg skipped] at member ⊢
      rcases mem_cons.mp member with rfl | later
      · obtain ⟨t, inside, gave⟩ := exists_trial_of_testFile traced passed
        refine ⟨t, ?_, gave⟩
        rw [mem_append, mem_cons]
        tauto
      · obtain ⟨t, inside, gave⟩ := ih _ r later passed
        refine ⟨t, ?_, gave⟩
        rw [mem_append] at inside ⊢
        tauto

/-- An entry of a report is one of its results, under its file. -/
theorem mem_ofResults (member : (file, r) ∈ Report.ofResults rs) : r ∈ rs ∧ r.file = file := by
  obtain ⟨f, -, entry⟩ := mem_filterMap.mp member
  obtain ⟨r', listed, same⟩ := Option.map_eq_some_iff.mp entry
  cases same
  obtain ⟨r', inside, same⟩ := mem_map.mp (Table.mem_of_lookup listed)
  cases same
  exact ⟨mem_reverse.mp inside, rfl⟩

/-- What passed in a stored report was given by a test. -/
theorem Stored.traced (stored : Stored ts report) : Traced ts report := by
  induction stored with
  | nothing => exact fun file r found => by cases found
  | @run ts previous b o fs files _ ih =>
    intro file r found passed
    obtain ⟨member, named⟩ := mem_ofResults (Table.mem_of_lookup found)
    rw [mem_mergeSort] at member
    exact ⟨named, exists_trial_of_testFiles ih fs files r member passed⟩
  | kept _ keeps ih =>
    intro file r found passed
    obtain ⟨r', found', named, hash, status⟩ := keeps file r found
    obtain ⟨named', t, member, gave⟩ := ih file r' found' (status.trans passed)
    exact ⟨named.symm.trans named', t, member, gave.congr named hash⟩

/-! ## Stored results and new ones -/

/-- What a compiler makes of a program, given the content of the compiler, that of the program, the arguments and
the name of the program. -/
abbrev Behaviour := Option String → Option String → List String → String → Outcome × Option (String → Outcome)

/-- Compilers and programs are deterministic. -/
def Bench.Follows (b : Bench) (d : Behaviour) : Prop :=
  ∀ (fs : Files) (o : Options) (binary file : String), b.compile fs o.compiler (compileArgs o binary file) =
    d (content fs o.compiler) (content fs file) (Text.fields o.compilerArgs) file

/-- The files of a test are told apart by their digest from those of an earlier one. -/
def Trial.Distinct (t : Trial) (o : Options) (fs : Files) : Prop :=
  ∀ bs bs', allBytes t.files (inputPaths t.options t.file) = .ok bs →
    allBytes fs (inputPaths o t.file) = .ok bs' → Digest.ofBytes bs = Digest.ofBytes bs' → bs = bs'

/-- An earlier test was made in a way that its hash does not tell: it left the golden file alone, the compiler had
the same arguments, and the files had the same sizes. -/
structure Trial.Alike (t : Trial) (o : Options) (fs : Files) : Prop where
  plain : t.options.update = false
  args : Text.fields t.options.compilerArgs = Text.fields o.compilerArgs
  source : size t.files t.file = size fs t.file
  golden : size t.files (goldenPath t.file) = size fs (goldenPath t.file)
  input : size t.files (inputPath t.file) = size fs (inputPath t.file)
  compiler : (content t.files t.options.compiler).isSome = (content fs o.compiler).isSome

theorem inputsHash_ok (h : inputsHash fs paths = .ok hash) :
    ∃ bs, allBytes fs paths = .ok bs ∧ hash = Digest.text (Digest.ofBytes bs) := by
  unfold inputsHash at h
  cases bytes : allBytes fs paths with
  | error e =>
    rw [bytes] at h
    cases h
  | ok bs =>
    rw [bytes] at h
    cases h
    exact ⟨bs, rfl, rfl⟩

/-- Under one hash, the files of an earlier test of the same sizes had the same contents. -/
theorem Trial.Alike.contents (alike : t.Alike o fs) (distinct : t.Distinct o fs)
    (hashed : inputsHash t.files (inputPaths t.options t.file) = .ok hash)
    (hashed' : inputsHash fs (inputPaths o t.file) = .ok hash) :
    content t.files t.file = content fs t.file ∧ content t.files (goldenPath t.file) = content fs (goldenPath t.file) ∧
      content t.files (inputPath t.file) = content fs (inputPath t.file) ∧
      content t.files t.options.compiler = content fs o.compiler := by
  obtain ⟨bs, bytes, rfl⟩ := inputsHash_ok hashed
  obtain ⟨bs', bytes', texts⟩ := inputsHash_ok hashed'
  obtain rfl := distinct bs bs' bytes bytes' (Digest.text_inj texts)
  -- The stream is cut file by file.
  obtain ⟨s, r₁, source, bytes₁, rfl⟩ := allBytes_cons bytes
  obtain ⟨s', r₁', source', bytes₁', same₁⟩ := allBytes_cons bytes'
  obtain ⟨sources, rfl⟩ := content_of_bytes source source' alike.source same₁
  obtain ⟨g, r₂, golden, bytes₂, rfl⟩ := allBytes_cons bytes₁
  obtain ⟨g', r₂', golden', bytes₂', same₂⟩ := allBytes_cons bytes₁'
  obtain ⟨goldens, rfl⟩ := content_of_bytes golden golden' alike.golden same₂
  obtain ⟨i, r₃, input, bytes₃, rfl⟩ := allBytes_cons bytes₂
  obtain ⟨i', r₃', input', bytes₃', same₃⟩ := allBytes_cons bytes₂'
  obtain ⟨inputs, rfl⟩ := content_of_bytes input input' alike.input same₃
  obtain ⟨c, _, compiler, ⟨⟩, rfl⟩ := allBytes_cons bytes₃
  obtain ⟨c', _, compiler', ⟨⟩, same₄⟩ := allBytes_cons bytes₃'
  obtain rfl := append_cancel_right same₄
  exact ⟨sources, goldens, inputs, content_of_allBytes compiler compiler' alike.compiler⟩

/-- A test is as good as an earlier one under the same hash. -/
theorem Trial.Alike.status (alike : t.Alike o fs) (plain : o.update = false)
    (distinct : t.Distinct o fs) (follows : b.Follows d) (follows' : t.bench.Follows d)
    (hashed : inputsHash t.files (inputPaths t.options t.file) = .ok hash)
    (hashed' : inputsHash fs (inputPaths o t.file) = .ok hash) :
    (testHashed t.bench t.options t.files t.file hash).result.status =
      (testHashed b o fs t.file hash).result.status := by
  obtain ⟨source, golden, input, compiler⟩ := alike.contents distinct hashed hashed'
  rw [status_testHashed alike.plain, status_testHashed plain, follows', follows, source, golden, input, compiler,
    alike.args]

/-- The verdict of a test in a cached run is that of the same test without the cache, after any earlier runs, as
long as the tests that gave the stored result under the same hash did not write the golden file, gave the compiler
the same arguments, and found files of the same sizes. -/
theorem cached_verdict {ts : List Trial} {previous : Report} (stored : Stored ts previous) {b : Bench} {o : Options}
    (plain : o.update = false) {fs : Files} {file : String} {d : Behaviour} (follows : b.Follows d)
    (deterministic : ∀ t ∈ ts, t.bench.Follows d) (distinct : ∀ t ∈ ts, t.file = file → t.Distinct o fs)
    (alike : ∀ r, previous.find? file = some r → inputsHash fs (inputPaths o file) = .ok r.hash →
      ∀ t ∈ ts, t.Gave r → t.Alike o fs) :
    (testFile b o previous fs file).result.status =
      (testFile b { o with cached := false } previous fs file).result.status := by
  rcases testFile_cases b o previous fs file with
    ⟨e, failed, status⟩ | ⟨hash, hashed, ⟨r, reused, same⟩ | ⟨-, fresh⟩⟩
  · rw [status, testFile, show inputPaths { o with cached := false } file = inputPaths o file from rfl, failed]
  · obtain ⟨-, found, rfl, passed⟩ := reusable?_eq_some reused
    obtain ⟨named, t, member, gave⟩ := stored.traced file r found passed
    obtain rfl := gave.file.trans named
    have like := alike r found hashed t member gave
    have renewed := like.status plain (distinct t member rfl) follows (deterministic t member) gave.hash hashed
    rw [testFile_uncached hashed, ← renewed, gave.status, same]
    exact passed
  · rw [fresh, testFile_uncached hashed]

/-! ## A compiler of one program -/

/-- Every program prints its input and the arguments of its compiler. -/
def echo : Behaviour := fun _ _ args _ =>
  (.exited "" "" 0, some fun input => .exited (input ++ String.join args) "" 0)

/-- A bench with this compiler. -/
def echoBench : Bench where
  tempDir := "tmp"
  compile _ _ args := echo none none (args.drop 5).dropLast ""

theorem follows_echo : echoBench.Follows echo := by
  intro fs o binary file
  simp [echoBench, echo, compileArgs]

/-- The files of a test; without an input there is no file for it. -/
def suiteOf (golden : String) (input : Option String) : Files :=
  { entries := [(["pasc"], .text "compiler"), (["t.pas"], .text "program"), (["t.expected"], .text golden)] ++
      (input.map fun content => (["t.in"], FileEntry.text content)).toList }

/-- A run of a suite of one file, and a later run. -/
structure Rerun where
  first : Options := { compiler := "pasc" }
  before : Files
  second : Options := { compiler := "./pasc", cached := true }
  after : Files

namespace Rerun

/-- The tests of the first run. -/
def made (q : Rerun) : List Trial := trials echoBench q.first [] q.before ["t.pas"]

/-- What the first run stores. -/
def report (q : Rerun) : Report := reportOf echoBench q.first [] q.before ["t.pas"]

/-- What comes of the test in the later run. -/
def result (q : Rerun) : TestResult := (testFile echoBench q.second q.report q.after "t.pas").result

/-- What would come of it without the cache. -/
def renewed (q : Rerun) : TestResult :=
  (testFile echoBench { q.second with cached := false } q.report q.after "t.pas").result

theorem stored (q : Rerun) : Stored q.made q.report := .run echoBench q.first q.before ["t.pas"] .nothing

theorem follows (q : Rerun) : ∀ t ∈ q.made, t.bench.Follows echo := by
  intro t member
  rw [bench_of_mem_trials member]
  exact follows_echo

end Rerun

/-- Nothing has changed. -/
def unchanged : Rerun where
  before := suiteOf "ab" (some "ab")
  after := suiteOf "ab" (some "ab")

theorem cached_verdict_unchanged : unchanged.result.message = "Output matches (cached)" ∧
    unchanged.result.status = unchanged.renewed.status := by
  have streams : (allBytes unchanged.before (inputPaths unchanged.first "t.pas")).toOption =
      (allBytes unchanged.after (inputPaths unchanged.second "t.pas")).toOption := by decide +kernel
  refine ⟨by decide +kernel, cached_verdict unchanged.stored rfl follows_echo unchanged.follows ?_ ?_⟩
  · intro t member _ bs bs' bytes bytes' _
    obtain rfl := mem_singleton.mp member
    exact Option.some.inj ((congrArg Except.toOption bytes).symm.trans
      (streams.trans (congrArg Except.toOption bytes')))
  · intro r _ _ t member _
    obtain rfl := mem_singleton.mp member
    exact ⟨rfl, rfl, rfl, rfl, rfl, by decide +kernel⟩

/-- The end of the golden file has moved. -/
def movedEnd : Rerun where
  before := suiteOf "ab" (some "ab")
  after := suiteOf "a" (some "bab")

/-- There was no input, and now it is the mark for that. -/
def marked : Rerun where
  before := suiteOf "" none
  after := suiteOf "" (some "\x00missing:t.in\x00")

/-- The compiler gets an argument. -/
def withArgument : Rerun where
  before := suiteOf "ab" (some "ab")
  second := { compiler := "pasc", compilerArgs := "-x", cached := true }
  after := suiteOf "ab" (some "ab")

/-- The first run wrote the golden file, and now the old one is back. -/
def restored : Rerun where
  first := { compiler := "pasc", update := true }
  before := suiteOf "zz" (some "ab")
  after := suiteOf "zz" (some "ab")

/-- The files of the test have the same bytes in both runs, and the test passes by its old result, though it would
fail if it were made. -/
def Rerun.Outdated (q : Rerun) : Prop :=
  q.second.update = false ∧
  (allBytes q.before (inputPaths q.first "t.pas")).toOption =
    (allBytes q.after (inputPaths q.second "t.pas")).toOption ∧
  q.result.status = .pass ∧ q.renewed.status = .fail

instance (q : Rerun) : Decidable q.Outdated := inferInstanceAs (Decidable (_ ∧ _))

/-- A stored result can be outdated without a trace in the hash. -/
theorem cached_verdict_outdated : echoBench.Follows echo ∧ (Stored movedEnd.made movedEnd.report ∧ movedEnd.Outdated) ∧
    (Stored marked.made marked.report ∧ marked.Outdated) ∧
    (Stored withArgument.made withArgument.report ∧ withArgument.Outdated) ∧
    Stored restored.made restored.report ∧ restored.Outdated := by
  refine ⟨follows_echo, ⟨movedEnd.stored, ?_⟩, ⟨marked.stored, ?_⟩, ⟨withArgument.stored, ?_⟩, restored.stored, ?_⟩
  · decide +kernel
  · decide +kernel
  · decide +kernel
  · decide +kernel

end Suite

end MiniPascal
