import MiniPascal.Command.Run
import MiniPascal.Proofs.Lower.Matched

/-!
# Warnings do not interfere

Lowering asks for a switch wherever it has something to remark on, and two runs with other switches stay
side by side (`Lower.lower_enabled`). The compiler adds to its console and never looks at it: a step
`Writes` if its result and what it adds are the same on every console. So two runs whose settings differ
in the switches read the same tree, make the same code and text, report the same failure and run the same
tools; each prints those of the remarks, in order, whose class is switched on.
-/

namespace MiniPascal

namespace Command

/-! ## Steps that only write -/

/-- A console with what a later one added to it. -/
def Console.append (k l : Console) : Console :=
  { stdout := k.stdout ++ l.stdout, stderr := k.stderr ++ l.stderr, commands := k.commands ++ l.commands }

theorem Console.append_assoc (k l m : Console) : (k.append l).append m = k.append (l.append m) := by
  simp [append, String.append_assoc]

theorem Console.append_empty (k : Console) : k.append {} = k := by
  simp [append]

/-- A step comes to `r` and adds `l` to the console, whatever is on it. -/
def Adds {α : Type} (m : Action α) (r : Except Failure α) (l : Console) : Prop :=
  ∀ k, m.run k = (r, k.append l)

/-- A step whose result, and what it adds, do not depend on the console. -/
def Writes {α : Type} (m : Action α) : Prop := ∃ r l, Adds m r l

section Steps

variable {α β : Type} {m : Action α} {f : α → Action β}

theorem adds_ofResult (r : Except Failure α) : Adds (ofResult r) r {} := fun k => by
  rw [Console.append_empty]
  rfl

theorem Adds.bind_ok (first : Adds m (.ok a) l)
    (next : Adds (f a) r l') : Adds (m >>= f) r (l.append l') := by
  intro k
  have run : (m >>= f).run k = (f a).run (m.run k).2 := by
    change (ExceptT.bindCont f (m.run k).1).run (m.run k).2 = _
    rw [first k]
    rfl
  rw [run, first k, next, Console.append_assoc]

theorem Adds.bind_error (first : Adds m (.error e) l) : Adds (m >>= f) (.error e) l := by
  intro k
  have run : (m >>= f).run k = (.error e, (m.run k).2) := by
    change (ExceptT.bindCont f (m.run k).1).run (m.run k).2 = _
    rw [first k]
    rfl
  rw [run, first k]

theorem Writes.bind (first : Writes m) (next : ∀ a, Writes (f a)) : Writes (m >>= f) := by
  obtain ⟨r, l, adds⟩ := first
  cases r with
  | error e => exact ⟨_, _, adds.bind_error⟩
  | ok a =>
    obtain ⟨r', l', adds'⟩ := next a
    exact ⟨_, _, adds.bind_ok adds'⟩

theorem adds_throw (e : Failure) : Adds (throw e : Action α) (.error e) {} := fun k => by
  rw [Console.append_empty]
  rfl

theorem writes_pure : Writes (pure a : Action α) := ⟨_, _, adds_ofResult (.ok a)⟩

theorem writes_throw : Writes (throw e : Action α) := ⟨_, _, adds_throw e⟩

theorem writes_ofResult {r : Except Failure α} : Writes (ofResult r) := ⟨r, {}, adds_ofResult r⟩

theorem adds_print : Adds (print text) (.ok ()) { stdout := text } := fun k => by
  simp [print, Console.append]
  rfl

theorem adds_printError : Adds (printError text) (.ok ()) { stderr := text } := fun k => by
  simp [printError, Console.append]
  rfl

end Steps

section Tools

variable (w : World) (c : Settings)

theorem adds_tell : Adds (tell c text) (.ok ()) { stderr := Display.info c.verbose text } :=
  adds_printError

theorem writes_runTool (name : String) (args : List String) : Writes (runTool w c name args) := by
  apply Writes.bind ⟨_, _, adds_tell c⟩
  intro _
  split
  · exact writes_throw
  · next tool _ =>
    have logged : Adds (modify fun k => { k with commands := k.commands ++ [name :: args] }) (.ok ())
        { commands := [name :: args] } := fun k => by
      simp [Console.append]
      rfl
    apply Writes.bind ⟨_, _, logged⟩
    intro _
    dsimp only
    split
    · exact writes_throw
    · exact writes_pure

theorem writes_runCommand : Writes (runCommand w c command) := by
  cases command with
  | nil => exact writes_pure
  | cons name args => exact writes_runTool w c name args

theorem writes_emitObject (b : Backend) (p : Ir.Program) : Writes (emitObject w c b p) := by
  apply writes_ofResult.bind
  intro text
  apply writes_ofResult.bind
  intro _
  exact writes_runCommand w c

/-- What is done with the code of a tree. -/
def deliver (o : Options) (code : Except Failure Ir.Program) : Action Unit := do
  let p ← ofResult code
  let b ← ofResult (Backend.select c.backend)
  if !o.quiet then print (← ofResult (b.render p))
  tell c ("writing " ++ c.output ++ " with the " ++ b.name ++ " backend (target " ++ c.target ++ ")")
  emitObject w c b p
  if !o.link.isEmpty then runCommand w c (linkCommand o.link c.output)

theorem generate_eq (o : Options) (v : Display) (t : Tree) : generate w c o v t = (do
    tell c "lowering to IR"
    printError (String.join ((lowerTree c t).remarks.map (Remark.render v)))
    deliver w c o (lowerTree c t).result : Action Unit) := rfl

theorem writes_deliver (o : Options) (code : Except Failure Ir.Program) : Writes (deliver w c o code) := by
  have linked : Writes (if !o.link.isEmpty then runCommand w c (linkCommand o.link c.output) else pure ()) := by
    split
    · exact writes_runCommand w c
    · exact writes_pure
  have written (b : Backend) (p : Ir.Program) : Writes (do
      tell c ("writing " ++ c.output ++ " with the " ++ b.name ++ " backend (target " ++ c.target ++ ")")
      emitObject w c b p
      if !o.link.isEmpty then runCommand w c (linkCommand o.link c.output)) := by
    apply Writes.bind ⟨_, _, adds_tell c⟩
    intro _
    apply (writes_emitObject w c b p).bind
    intro _
    exact linked
  apply writes_ofResult.bind
  intro p
  apply writes_ofResult.bind
  intro b
  dsimp only
  split
  · apply writes_ofResult.bind
    intro text
    apply Writes.bind ⟨_, _, adds_print⟩
    intro _
    exact written b p
  · exact written b p

end Tools

/-! ## Switching warnings -/

section Switching

variable (w : World) (c : Settings) (o : Options)

/-- A run that prints what is switched on of some remarks, between texts that are always the same. -/
def Filters {α : Type} (m : Switches Warning → Action α) (v : Display) (rs : List Remark) : Prop :=
  ∃ r, ∃ before after : Console, ∀ on, Adds (m on) r
    ((before.append { stderr := Remark.renderAll v on rs }).append after)

variable {l : Console} {v : Display} {path : String}

theorem filters_none {α : Type} {m : Switches Warning → Action α} {r : Except Failure α}
    (adds : ∀ on, Adds (m on) r l) (v : Display) : Filters m v [] := by
  refine ⟨r, l, {}, ?_⟩
  intro on k
  rw [Console.append_empty, Remark.renderAll, adds on k]
  simp [Remark.enabled, Console.append]

/-- The settings with all warnings switched on. -/
abbrev allOn : Settings := { c with warnings := fun _ => true }

/-- A tree that was read is lowered as with all warnings on, but for the remarks, which are filtered. -/
theorem lowerTree_enabled (parsed : parseSource c source = .ok t)
    (on : Switches Warning) : lowerTree { c with warnings := on } t =
      ⟨(lowerTree (allOn c) t).result, Remark.enabled on (lowerTree (allOn c) t).remarks⟩ := by
  have read : Tree.ofSource c.features source = .ok t := by
    unfold parseSource at parsed
    cases read : Tree.ofSource c.features source with
    | error e =>
      rw [read] at parsed
      cases parsed
    | ok t' =>
      rw [read] at parsed
      exact congrArg Except.ok (Except.ok.inj parsed)
  unfold lowerTree
  rw [Lower.lower_enabled (Tree.isProgram_of_ofSource read) (Tree.made_of_ofTokens read False)]

theorem filters_generate (v : Display) (parsed : parseSource c source = .ok t) :
    Filters (fun on => generate w { c with warnings := on } o v t) v (lowerTree (allOn c) t).remarks := by
  obtain ⟨r, after, adds⟩ := writes_deliver w c o (lowerTree (allOn c) t).result
  refine ⟨r, { stderr := Display.info c.verbose "lowering to IR" }, after, ?_⟩
  intro on
  dsimp only
  rw [generate_eq, lowerTree_enabled c parsed, Console.append_assoc]
  exact (adds_tell _).bind_ok (adds_printError.bind_ok adds)

theorem Filters.bind {α β : Type} {m : Action α} {f : Switches Warning → α → Action β}
    {a : α} (first : Adds m (.ok a) l) (next : Filters (f · a) v rs) : Filters (fun on => m >>= f on) v rs := by
  obtain ⟨r, before, after, adds⟩ := next
  refine ⟨r, l.append before, after, ?_⟩
  intro on
  rw [Console.append_assoc, Console.append_assoc, ← Console.append_assoc before]
  exact first.bind_ok (adds on)

/-- The remarks that a run on a source text makes with all warnings on: none if it only shows the tree. -/
def remarksOf (source : String) : List Remark :=
  if o.dumpTree || o.dumpFormat then [] else (compileSource (allOn c) source).remarks

theorem compileText_eq (on : Switches Warning) (path source : String) :
    compileText w { c with warnings := on } o path source = (do
      tell c ("parsing " ++ path ++ " (std " ++ c.dialect ++ ")")
      let t ← ofResult (parseSource c source)
      if o.dumpTree then print (t.dump ++ "\n")
      else if o.dumpFormat then print (t.format ++ "\n")
      else generate w { c with warnings := on } o (display w path source) t : Action Unit) := rfl

theorem filters_compileText (path source : String) :
    Filters (fun on => compileText w { c with warnings := on } o path source) (display w path source)
      (remarksOf c o source) := by
  simp only [compileText_eq]
  apply Filters.bind (adds_tell c)
  have same : parseSource (allOn c) source = parseSource c source := rfl
  unfold remarksOf compileSource lowerSource
  rw [same]
  cases parsed : parseSource c source with
  | error f =>
    dsimp only [Compilation.andThen]
    rw [ite_self]
    exact filters_none (fun _ => (adds_ofResult _).bind_error) _
  | ok t =>
    apply Filters.bind (adds_ofResult _)
    cases o.dumpTree with
    | true => exact filters_none (fun _ => adds_print) _
    | false =>
      cases o.dumpFormat with
      | true => exact filters_none (fun _ => adds_print) _
      | false => exact filters_generate w c o _ parsed

/-- Runs a step, and reports why it fails. -/
def conclude (v : Display) (path : String) (m : Action Unit) : StateM Console Nat := do
  match ← m.run with
  | .ok () => return 0
  | .error f =>
    modify fun k => { k with stdout := k.stdout ++ "Error while compiling " ++ path ++ "\n" ++ v.report f }
    return 2

/-- The exit code of a run, and what it reports. -/
def verdict (v : Display) (path : String) : Except Failure Unit → Nat × Console
  | .ok () => (0, {})
  | .error f => (2, { stdout := "Error while compiling " ++ path ++ "\n" ++ v.report f })

theorem conclude_run (adds : Adds m r l) (k : Console) :
    (conclude v path m).run k = ((verdict v path r).1, (k.append l).append (verdict v path r).2) := by
  have ran : StateT.run m.run k = (r, k.append l) := adds k
  unfold conclude
  rw [StateT.run_bind, ran]
  cases r with
  | ok =>
    rw [verdict, Console.append_empty]
    rfl
  | error f =>
    change (2, { k.append l with
      stdout := (k.append l).stdout ++ "Error while compiling " ++ path ++ "\n" ++ v.report f }) = _
    simp [verdict, Console.append, String.append_assoc]

theorem Filters.conclude {m : Switches Warning → Action Unit} (h : Filters m v rs)
    (v' : Display) (path : String) : ∃ code, ∃ before after : Console, ∀ on k, (Command.conclude v' path (m on)).run k =
        (code, k.append ((before.append { stderr := Remark.renderAll v on rs }).append after)) := by
  obtain ⟨r, before, after, adds⟩ := h
  refine ⟨(verdict v' path r).1, before, after.append (verdict v' path r).2, ?_⟩
  intro on k
  rw [conclude_run (adds on) k, Console.append_assoc, Console.append_assoc]

theorem compileFile_of_source (read : w.read path = .ok source) :
    compileFile w c o path = conclude (display w path source) path (compileText w c o path source) := by
  unfold compileFile
  rw [read]
  rfl

theorem compileFile_of_error (read : w.read path = .error e) :
    compileFile w c o path = conclude { color := w.color } path
      (throw (.context ("could not read file '" ++ path ++ "'") (.plain e.message))) := by
  unfold compileFile
  rw [read]
  rfl

/-- The remarks that a run on a file makes with all warnings on: none if it cannot be read. -/
def remarksOn (path : String) : List Remark :=
  match w.read path with
  | .error _ => []
  | .ok source => remarksOf c o source

/-- A run of the compiler on a file ends alike and adds the same to the console for all switches of
warnings, but for the remarks, of which it prints those that are switched on. -/
theorem compileFile_filters (path : String) : ∃ code, ∃ before after : Console, ∃ v, ∀ on k,
    (compileFile w { c with warnings := on } o path).run k =
      (code, k.append ((before.append { stderr := Remark.renderAll v on (remarksOn w c o path) }).append after)) := by
  unfold remarksOn
  cases read : w.read path with
  | error e =>
    have none := filters_none (fun _ => adds_throw (α := Unit)
      (.context ("could not read file '" ++ path ++ "'") (.plain e.message))) {}
    obtain ⟨code, before, after, run⟩ := none.conclude { color := w.color } path
    refine ⟨code, before, after, {}, ?_⟩
    intro on k
    rw [compileFile_of_error w _ o read]
    exact run on k
  | ok source =>
    obtain ⟨code, before, after, run⟩ := (filters_compileText w c o path source).conclude (display w path source) path
    refine ⟨code, before, after, display w path source, ?_⟩
    intro on k
    rw [compileFile_of_source w _ o read]
    exact run on k

end Switching

/-! ## Two runs -/

theorem lowerSource_enabled (c : Settings) (on : Switches Warning) (source : String) :
    lowerSource { c with warnings := on } source =
      ⟨(lowerSource (allOn c) source).result, (lowerSource (allOn c) source).remarks.filter (on ·.warning)⟩ := by
  have same : parseSource { c with warnings := on } source = parseSource c source := rfl
  have same' : parseSource (allOn c) source = parseSource c source := rfl
  unfold lowerSource
  rw [same, same']
  cases parsed : parseSource c source with
  | error e => rfl
  | ok t => exact lowerTree_enabled c parsed on

/-- Warnings never influence compilation. Under settings that differ only in which warnings are switched
on, a source text has the same tree or the same failure to be read, the same code or the same errors of
lowering, and the same text or the same failure to be compiled; its warnings are, in order, those of the
warnings with all of them on whose class is switched on. A run on a file has the same exit code, prints
the same to the standard output and runs the same tools. To the standard error it prints, between texts
that are the same, some warnings: in order, those of the warnings printed with all of them on whose class
is switched on. -/
theorem warnings_only_filter (c : Settings) :
    (∀ on on' source,
      parseSource { c with warnings := on } source = parseSource { c with warnings := on' } source ∧
      (lowerSource { c with warnings := on } source).result = (lowerSource { c with warnings := on' } source).result ∧
      (∀ p, renderProgram { c with warnings := on } p = renderProgram { c with warnings := on' } p) ∧
      (compileSource { c with warnings := on } source).result =
        (compileSource { c with warnings := on' } source).result ∧
      (compileSource { c with warnings := on } source).remarks =
        (compileSource { c with warnings := fun _ => true } source).remarks.filter (on ·.warning)) ∧
    ∀ w o path k, ∃ code stdout commands before after v, ∀ on, (compileFile w { c with warnings := on } o path).run k =
        (code, { stdout, commands
                 stderr := before ++ String.join (((remarksOn w c o path).filter
                   fun r => on r.warning).map (Remark.render v)) ++ after }) := by
  constructor
  · intro on on' source
    have lowered (on : Switches Warning) := congrArg Compilation.result (lowerSource_enabled c on source)
    refine ⟨rfl, (lowered on).trans (lowered on').symm, fun _ => rfl, ?_, ?_⟩
    · exact congrArg (Except.bind · (renderProgram c)) ((lowered on).trans (lowered on').symm)
    · exact congrArg Compilation.remarks (lowerSource_enabled c on source)
  · intro w o path k
    obtain ⟨code, before, after, v, run⟩ := compileFile_filters w c o path
    refine ⟨code, k.stdout ++ (before.stdout ++ after.stdout), k.commands ++ (before.commands ++ after.commands),
      k.stderr ++ before.stderr, after.stderr, v, ?_⟩
    intro on
    rw [run on k]
    simp [Console.append, String.append_assoc, Remark.renderAll, Remark.enabled]

end Command

end MiniPascal
