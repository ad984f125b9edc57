import MiniPascal.Proofs.Lower.Declaration

/-!
# Lowering whole programs

Lowering goes through the global declarations, the routines and the main body in order, and last
through the forward declarations that are still without a body. The result is `lower_outcome`: no
fault is reported exactly if the outline of the program is correct, and the code is then the one that
`Compiled` describes.
-/

open List

namespace MiniPascal.Lower

open Ir (Value Instr Ty plain)
open Static
open Tree (IsExpr IsStmt IsVarDecl IsDecl IsRoutine IsProgram)

@[simp] theorem forEach_nil (f : Tree → Lowering Unit) (s : State) : forEach f [] s = ((), s) := rfl

@[simp] theorem forEach_cons (f : Tree → Lowering Unit) (t : Tree) (ts : List Tree) (s : State) :
    forEach f (t :: ts) s = forEach f ts (f t s).2 := rfl

theorem grows_forEach {f : Tree → Lowering Unit} {ts : List Tree}
    (hf : ∀ t ∈ ts, ∀ s, Grows s (f t s).2) (s : State) : Grows s (forEach f ts s).2 := by
  induction ts generalizing s with
  | nil => exact .refl s
  | cons t ts ih =>
    obtain ⟨first, later⟩ := forall_mem_cons.mp hf
    exact (first s).trans (ih later _)

/-! ## Global declarations -/

/-- Some constants and global variables have been declared, and nothing else. -/
structure Globals (cs : List (String × Int64)) (gs : Vars) (s : State) : Prop where
  constants : ∀ x, s.constants.get? x = cs.reverse.lookup x
  globals : ∀ x, (s.globals.get? x).map (fun v => (v.type, v.address)) =
    (gs.lookup x).map fun type => (type, .global ("pasg_" ++ x))
  data : s.data = gs.map dataOf
  routines : s.routines = {}
  locals : s.locals = {}
  loopExits : s.loopExits = []
  strings : s.strings = []
  funcs : s.funcs = []

variable {s : State} {o : Outline}

theorem Globals.declared_iff (h : Globals cs gs s)
    (x : String) : s.globals.get? x = none ↔ x ∉ names gs := by
  rw [← lookup_eq_none_iff, ← Option.map_eq_none_iff, h.globals x, Option.map_eq_none_iff]

/-- A declaration adds to what is declared, and it is a fault exactly if a global variable of its name
is there. -/
structure DeclaresGlobal (cs cs' : List (String × Int64)) (gs gs' : Vars)
    (s s' : State) : Prop where
  grows : Grows s s'
  quiet : Globals cs gs s → (names gs).Nodup → (s'.faults = s.faults ↔ (names (gs ++ gs')).Nodup)
  globals : Globals cs gs s → s'.faults = s.faults → Globals (cs ++ cs') (gs ++ gs') s'

theorem DeclaresGlobal.trans
 (first : DeclaresGlobal cs cs₁ gs gs₁ s₁ s₂)
    (second : DeclaresGlobal (cs ++ cs₁) cs₂ (gs ++ gs₁) gs₂ s₂ s₃) :
    DeclaresGlobal cs (cs₁ ++ cs₂) gs (gs₁ ++ gs₂) s₁ s₃ where
  grows := first.grows.trans second.grows
  quiet before distinct := by
    rw [← append_assoc]
    constructor
    · intro same
      obtain ⟨same₁, same₂⟩ := first.grows.faults_eq second.grows same
      exact (second.quiet (first.globals before same₁) ((first.quiet before distinct).mp same₁)).mp same₂
    · intro distinct₂
      have distinct₁ : (names (gs ++ gs₁)).Nodup := by
        rw [names, map_append] at distinct₂
        exact (nodup_append.mp distinct₂).1
      have same₁ := (first.quiet before distinct).mpr distinct₁
      exact ((second.quiet (first.globals before same₁) distinct₁).mpr distinct₂).trans same₁
  globals before same := by
    obtain ⟨same₁, same₂⟩ := first.grows.faults_eq second.grows same
    rw [← append_assoc, ← append_assoc]
    exact second.globals (first.globals before same₁) same₂

theorem declareGlobal_constant (tok : Token) (x : String) (value : Int64) (s : State) : ∃ remarks,
    declareGlobal (.constDecl tok x value) s = ((), { s with constants := s.constants.insert x value, remarks }) := by
  unfold declareGlobal
  dsimp only
  rw [bind_apply, get_apply]
  split
  · exact ⟨_, rfl⟩
  · split
    · exact ⟨_, rfl⟩
    · exact ⟨_, rfl⟩

theorem declareGlobal_old (found : s.globals.get? x = some old)
    (tok typeTok : Token) (type : VarType) : declareGlobal (.varDecl tok x type typeTok) s =
      ((), { s with faults := s.faults ++ [(Fault.duplicateGlobal x old.tok.line).diagnostic tok] }) := by
  unfold declareGlobal
  dsimp only
  rw [bind_apply, get_apply, found]
  rfl

theorem declareGlobal_new (found : s.globals.get? x = none) (tok typeTok : Token)
    (type : VarType) : ∃ remarks, declareGlobal (.varDecl tok x type typeTok) s =
      ((), { s with data := s.data ++ [dataOf (x, type)], remarks
                    globals := s.globals.insert x
                      { role := .global, type, address := .global ("pasg_" ++ x), tok } }) := by
  unfold declareGlobal
  dsimp only
  rw [bind_apply, get_apply, found]
  split
  · exact ⟨_, rfl⟩
  · exact ⟨_, rfl⟩

theorem declaresGlobal_declareGlobal (ht : IsDecl t) (cs : List (String × Int64))
    (gs : Vars) (s : State) :
    DeclaresGlobal cs (constant? t).toList gs (declared? t).toList s (declareGlobal t s).2 := by
  cases ht with
  | @const x value tok =>
    obtain ⟨remarks, run⟩ := declareGlobal_constant tok x value s
    rw [run]
    refine ⟨.of_same rfl rfl rfl rfl, fun _ distinct => ?_, fun before _ => ?_⟩
    · simpa [declared?] using distinct
    · refine { before with constants := fun y => ?_, globals := ?_, data := ?_ }
      · change (s.constants.insert x value).get? y = _
        rw [Table.get?_insert, before.constants y]
        by_cases same : y = x
        · simp [constant?, same]
        · have differs : (y == x) = false := by simpa using same
          simp [constant?, lookup_cons, same, differs]
      · simpa [declared?] using before.globals
      · simpa [declared?] using before.data
  | var hvar =>
    cases hvar with
    | @mk x tok type typeTok =>
      cases found : s.globals.get? x with
      | some old =>
        rw [declareGlobal_old found]
        refine ⟨(keeps_fault tok rfl s).toGrows, fun before distinct => ?_, fun _ same => ?_⟩
        · change _ ↔ (names (gs ++ [(x, type)])).Nodup
          rw [names_snoc_nodup distinct, ← before.declared_iff, found]
          simp
        · simp at same
      | none =>
        obtain ⟨remarks, run⟩ := declareGlobal_new found tok typeTok type
        rw [run]
        refine ⟨.of_same rfl rfl rfl rfl, fun before distinct => ?_, fun before _ => ?_⟩
        · change _ ↔ (names (gs ++ [(x, type)])).Nodup
          rw [names_snoc_nodup distinct, ← before.declared_iff, found]
          simp
        · refine { before with constants := fun y => ?_, globals := fun y => ?_, data := ?_ }
          · simpa [constant?] using before.constants y
          · change ((s.globals.insert x _).get? y).map _ = ((gs ++ [(x, type)]).lookup y).map _
            rw [Table.get?_insert, lookup_snoc ((before.declared_iff x).mp found)]
            by_cases same : y = x
            · simp [same]
            · rw [if_neg same, if_neg same, before.globals y]
          · simp [declared?, before.data]

theorem declaresGlobal_forEach {ts : List Tree} (hts : ∀ t ∈ ts, IsDecl t) (cs : List (String × Int64))
    (gs : Vars) (s : State) :
    DeclaresGlobal cs (ts.filterMap constant?) gs (ts.filterMap declared?) s (forEach declareGlobal ts s).2 := by
  induction ts generalizing cs gs s with
  | nil =>
    refine ⟨.refl s, fun _ distinct => ?_, fun before _ => ?_⟩
    · simpa using distinct
    · simpa using before
  | cons t ts ih =>
    obtain ⟨first, later⟩ := forall_mem_cons.mp hts
    have both := (declaresGlobal_declareGlobal first cs gs s).trans (ih later _ _ _)
    have split {α : Type} (f : Tree → Option α) : (t :: ts).filterMap f = (f t).toList ++ ts.filterMap f := by
      rw [filterMap_cons]
      cases f t <;> rfl
    rw [split, split]
    exact both

theorem globals_start : Globals [] [] { enabled } :=
 
  ⟨fun _ => rfl, fun _ => rfl, rfl, rfl, rfl, rfl, rfl, rfl⟩

/-- Behind the global declarations no routine is known. -/
theorem Globals.stage (globals : Globals o.constants o.globals s) (proper : ∀ g ∈ o.globals, g.2.Proper) :
    Stage o [] s where
  tables :=
    { outside :=
        { constants := globals.constants
          globals := globals.globals
          routines := fun f => by rw [globals.routines]; rfl
          proper := proper
          loopExits := globals.loopExits }
      locals := fun x => by rw [globals.locals]; rfl
      unique := by rw [globals.routines]; exact Table.unique_empty
      defined := fun f r found => by rw [globals.routines] at found; cases found
      data := globals.data }
  funcs := fun _ _ => by rw [globals.funcs]; exact .nil

/-! ## Routines -/

/-- Headers can be added one after the other. -/
def AllAdmitted (o : Outline) (multi : Bool) : List Header → List Header → Prop
  | _, [] => True
  | done, h :: hs => Admits o multi done h ∧ AllAdmitted o multi (done ++ [h]) hs

theorem allAdmitted_iff : AllAdmitted o multi done hs ↔
      ∀ before h after, hs = before ++ h :: after → Admits o multi (done ++ before) h := by
  induction hs generalizing done with
  | nil => simp [AllAdmitted]
  | cons h hs ih =>
    constructor
    · rintro ⟨first, rest⟩ before h' after split
      cases before with
      | nil =>
        obtain ⟨rfl, rfl⟩ := List.cons.inj split
        simpa using first
      | cons b before =>
        obtain ⟨rfl, rfl⟩ := List.cons.inj split
        simpa using ih.mp rest before h' after rfl
    · intro all
      refine ⟨by simpa using all [] h hs rfl, ih.mpr fun before h' after split => ?_⟩
      simpa using all (h :: before) h' after (by rw [split, cons_append])

section Correct

variable {o : Outline} {multi : Bool}

/-- Every declaration agrees with the first one of its name. -/
theorem agree_first (admitted : ∀ before h after, o.headers = before ++ h :: after → Admits o multi before h)
    {h : Header} (member : h ∈ o.headers) :
    ∃ h₀, o.headers.find? (fun g => g.name == h.name) = some h₀ ∧ Outline.Agree h₀ h := by
  obtain ⟨before, after, split⟩ := append_of_mem member
  have fits := (admitted before h after split).fits
  rw [split, find?_append]
  cases first : before.find? fun g => g.name == h.name with
  | some h₀ => exact ⟨h₀, rfl, fits.agree h₀ first⟩
  | none => exact ⟨h, by simp, rfl, .rfl⟩

theorem agree_of_admitted (admitted : ∀ before h after, o.headers = before ++ h :: after → Admits o multi before h)
    {h : Header} (member : h ∈ o.headers) (member' : h' ∈ o.headers) (same : h.name = h'.name) :
    Outline.Agree h h' := by
  obtain ⟨h₀, found, params, result⟩ := agree_first admitted member
  obtain ⟨h₁, found', params', result'⟩ := agree_first admitted member'
  rw [same, found'] at found
  cases found
  exact ⟨params.symm.trans params', result.symm.trans result'⟩

theorem once_of_admitted (admitted : AllAdmitted o multi done hs)
    (before : done.Pairwise fun h h' => h.name = h'.name → h.body?.isSome = true → h'.body? = none) :
    (done ++ hs).Pairwise fun h h' => h.name = h'.name → h.body?.isSome = true → h'.body? = none := by
  induction hs generalizing done with
  | nil => simpa using before
  | cons h hs ih =>
    obtain ⟨first, rest⟩ := admitted
    have longer := ih rest (pairwise_append.mpr ⟨before, pairwise_singleton _ _, ?_⟩)
    · simpa using longer
    · intro g member h' last same bodied
      rw [mem_singleton.mp last] at same ⊢
      by_contra also
      rw [first.fits.once (Option.isSome_iff_ne_none.mpr also) g member same] at bodied
      cases bodied

/-- A program is correct if its headers can be added one after the other. -/
theorem correct_iff : o.Correct multi ↔ (names o.globals).Nodup ∧ AllAdmitted o multi [] o.headers ∧
    StmtTyped (o.scope o.headers []) multi false o.main := by
  constructor
  · intro correct
    refine ⟨correct.globals, allAdmitted_iff.mpr fun before h after split => ?_, correct.main⟩
    have member : h ∈ o.headers := by simp [split]
    have once := correct.once
    rw [split] at once
    have apart := (pairwise_append.mp once).2.2
    refine ⟨correct.results h member, ⟨fun h' found => ?_, fun bodied h' inside same => ?_⟩, ?_⟩
    · rw [nil_append] at found
      have inside : h' ∈ o.headers := by
        rw [split]
        exact mem_append_left _ (mem_of_find?_eq_some found)
      have same := find?_some found
      exact correct.agree h' inside h member (by simpa using same)
    · by_contra also
      rw [apart h' inside h (by simp) same (Option.isSome_iff_ne_none.mpr also)] at bodied
      cases bodied
    · intro body found
      exact ⟨correct.distinct h member (by rw [found]; rfl), correct.bodies before h after body split found⟩
  · rintro ⟨globals, admitted, main⟩
    have all := allAdmitted_iff.mp admitted
    have each {h : Header} (member : h ∈ o.headers) : ∃ before, Admits o multi before h := by
      obtain ⟨before, after, split⟩ := append_of_mem member
      exact ⟨before, all before h after split⟩
    exact
      { globals := globals
        results := fun h member => (each member).elim fun _ admits => admits.result
        agree := fun h member h' member' same => agree_of_admitted all member member' same
        once := once_of_admitted admitted .nil
        distinct := fun h member bodied => by
          obtain ⟨before, admits⟩ := each member
          obtain ⟨body, found⟩ := Option.isSome_iff_exists.mp bodied
          exact (admits.body body found).1
        bodies := fun before h after body split found => ((all before h after split).body body found).2
        main := main }

end Correct

section Routines

variable {o : Outline} {multi : Bool} {ts : List Tree} (hts : ∀ t ∈ ts, IsRoutine t)
  {done : List Header} {s : State}

include hts

variable (multi) in
theorem grows_routines (s : State) : Grows s (forEach (lowerRoutine multi) ts s).2 :=
  grows_forEach (fun t member s => by
    obtain ⟨tok, h, params, locals, body, rfl, -, declares⟩ := declares_of_isRoutine (hts t member)
    exact grows_lowerRoutine declares rfl) s

theorem admitted_of_quiet (tables : Tables o done s) (quiet : (forEach (lowerRoutine multi) ts s).2.faults = s.faults) :
    Tables o (done ++ ts.filterMap header?) (forEach (lowerRoutine multi) ts s).2 ∧
      ((∀ f, (forEach (lowerRoutine multi) ts s).2.Called f → o.Defined f) →
        AllAdmitted o multi done (ts.filterMap header?)) := by
  induction ts generalizing done s with
  | nil => exact ⟨by simpa using tables, fun _ => trivial⟩
  | cons t ts ih =>
    obtain ⟨first, later⟩ := forall_mem_cons.mp hts
    obtain ⟨tok, h, params, locals, body, rfl, header, declares⟩ := declares_of_isRoutine first
    have rest := grows_routines multi later (lowerRoutine multi (.routine tok h.name params h.result locals body) s).2
    obtain ⟨quiet₁, quiet₂⟩ := (grows_lowerRoutine declares rfl).faults_eq rest quiet
    obtain ⟨tables₁, admits⟩ := admits_of_quiet declares rfl tables quiet₁
    obtain ⟨tables₂, admitted⟩ := ih later tables₁ quiet₂
    rw [filterMap_cons_some header]
    refine ⟨by simpa using tables₂, fun called => ⟨admits fun f marked => ?_, admitted called⟩⟩
    exact called f (rest.called f marked)

theorem stage_of_admitted (stage : Stage o done s) (admitted : AllAdmitted o multi done (ts.filterMap header?)) :
    (forEach (lowerRoutine multi) ts s).2.faults = s.faults ∧
    (∀ f, (forEach (lowerRoutine multi) ts s).2.Called f → s.Called f ∨ o.Defined f) ∧
    Stage o (done ++ ts.filterMap header?) (forEach (lowerRoutine multi) ts s).2 := by
  induction ts generalizing done s with
  | nil => exact ⟨rfl, fun f marked => .inl marked, by simpa using stage⟩
  | cons t ts ih =>
    obtain ⟨first, later⟩ := forall_mem_cons.mp hts
    obtain ⟨tok, h, params, locals, body, rfl, header, declares⟩ := declares_of_isRoutine first
    rw [filterMap_cons_some header] at admitted ⊢
    obtain ⟨quiet₁, called₁, stage₁⟩ := stage_of_admits declares rfl stage admitted.1
    obtain ⟨quiet₂, called₂, stage₂⟩ := ih later stage₁ admitted.2
    refine ⟨quiet₂.trans quiet₁, fun f marked => ?_, by simpa using stage₂⟩
    exact (called₂ f marked).elim (called₁ f) .inr

end Routines

/-! ## The main body -/

/-- The function of a main body whose blocks are there. -/
def mainOf (blocks : List Ir.Block) : Ir.Func :=
  { name := "main", result := .word, exported := true, blocks }

theorem enters_nothing (s : State) : Enters [] [] [] s.opened ((return () : Lowering Unit) s.opened).2 where
  shell := ⟨rfl, rfl, rfl, rfl, rfl, rfl, rfl, rfl, rfl, rfl, rfl⟩
  grows := .refl _
  listing := (append_nil _).symm
  temps := rfl
  opened := rfl
  table before _ := before
  quiet _ distinct := ⟨fun _ => distinct, fun _ => rfl⟩

/-- The way out of the main body. -/
def leaveMain : Unit → Lowering Instr := fun _ => return { op := .ret, args := [zero] }

theorem leaves_leaveMain : Leaves (leaveMain a) fun _ => [{ op := .ret, args := [.const 0] }] :=
  fun _ n _ => ⟨n, exactly_close _⟩

section Main

variable {multi : Bool} {body : Tree} {s : State}

theorem lowerMain_apply (multi : Bool) (body : Tree) (s : State) {s' : State}
    (frame : s' = (lowerFrame multi (return ()) body leaveMain s).2) :
    lowerMain multi body s = ((), { s' with funcs := s'.funcs ++ [mainOf s'.blocks], blocks := [] }) := by
  subst frame
  rfl

variable (hbody : IsStmt body)

include hbody

variable (multi s) in
theorem outer_lowerMain : Outer s (lowerMain multi body s).2 := by
  rw [lowerMain_apply multi body s rfl]
  have outer : Outer s (lowerFrame multi (return ()) body leaveMain s).2 :=
    (lowerFrame_outer (enters_nothing s) hbody leaves_leaveMain).1
  exact { outer with toGrows := outer.toGrows.trans (.of_same rfl rfl rfl rfl) }

variable {o : Outline} {seen : List Header} (tables : Tables o seen s)

include tables

omit hbody in
theorem slots_opened : Slots [] s.opened := fun x => by
  rw [show s.opened.locals = s.locals from rfl, tables.locals]
  rfl

theorem typed_lowerMain (quiet : (lowerMain multi body s).2.faults = s.faults)
    (called : ∀ f, (lowerMain multi body s).2.Called f → o.Defined f) :
    StmtTyped (o.scope seen []) multi false body := by
  rw [lowerMain_apply multi body s rfl] at quiet called
  exact (lowerFrame_typed (enters_nothing s) hbody leaves_leaveMain tables.outside (by simp)
    (slots_opened tables) quiet called).2

/-- The main body is lowered to its code if it obeys the static rules. -/
theorem code_lowerMain (typed : StmtTyped (o.scope seen []) multi false body) :
    (lowerMain multi body s).2.faults = s.faults ∧
    (∀ f, (lowerMain multi body s).2.Called f → s.Called f ∨ o.Defined f) ∧
    ∃ blocks, (lowerMain multi body s).2.funcs = s.funcs ++ [mainOf blocks] ∧
      ∀ strings, (lowerMain multi body s).2.strings <+: strings →
        BodyCode (layout o seen []) strings 0 [] (fun _ => [{ op := .ret, args := [.const 0] }]) body
          blocks := by
  rw [lowerMain_apply multi body s rfl]
  have funcs : (lowerFrame multi (return ()) body leaveMain s).2.funcs = s.funcs :=
    (lowerFrame_outer (enters_nothing s) hbody leaves_leaveMain).2
  obtain ⟨quiet, called, -, code⟩ := lowerFrame_code (enters_nothing s) hbody leaves_leaveMain
    tables.outside (by simp) (slots_opened tables) nodup_nil typed
  exact ⟨quiet, called, _, congrArg (· ++ _) funcs, code⟩

end Main

/-! ## Forward declarations -/

theorem checkForward_cons (name : String) (rest : List String) (s : State) : ∃ remarks added,
    checkForward (name :: rest) s = checkForward rest { s with remarks, faults := s.faults ++ added } ∧
    (∀ d ∈ added, d.category = .semantic) ∧
    (added = [] ↔ ∀ r, s.routines.get? name = some r → r.call? = none) := by
  rw [checkForward, bind_apply, get_apply]
  cases found : s.routines.get? name with
  | none => exact ⟨s.remarks, [], by simp, by simp, by simp⟩
  | some r =>
    cases call : r.call? with
    | none =>
      refine ⟨s.remarks ++ Remark.enabled s.enabled [(Caution.undefinedForward name).remark r.tok], [], ?_, by simp, by simp [call]⟩
      simp [call]
    | some tok =>
      refine ⟨s.remarks, [(Fault.undefinedForward name).diagnostic tok], ?_, ?_, by simp [call]⟩
      · simp [call]
      · intro d member
        rw [mem_singleton.mp member]
        rfl

/-- Forward declarations are checked without complaint exactly if none of them is called. -/
theorem checkForward_apply (names : List String) (s : State) : ∃ remarks added,
    (checkForward names s).2 = { s with remarks, faults := s.faults ++ added } ∧
    (∀ d ∈ added, d.category = .semantic) ∧
    (added = [] ↔ ∀ f ∈ names, ∀ r, s.routines.get? f = some r → r.call? = none) := by
  induction names generalizing s with
  | nil => exact ⟨s.remarks, [], by simp [checkForward], by simp, by simp⟩
  | cons name rest ih =>
    obtain ⟨remarks₁, added₁, run₁, semantic₁, iff₁⟩ := checkForward_cons name rest s
    obtain ⟨remarks₂, added₂, run₂, semantic₂, iff₂⟩ := ih { s with remarks := remarks₁, faults := s.faults ++ added₁ }
    refine ⟨remarks₂, added₁ ++ added₂, ?_, ?_, ?_⟩
    · rw [run₁, run₂]
      simp
    · intro d member
      exact (mem_append.mp member).elim (semantic₁ d) (semantic₂ d)
    · rw [append_eq_nil_iff, iff₁, iff₂, forall_mem_cons]

/-- Checks the forward declarations of a state. -/
abbrev checkForwards : Lowering Unit := do
  checkForward ((← get).routines.namesWhere fun r => !r.defined)

theorem grows_checkForwards {s : State} : Grows s (checkForwards s).2 := by
  obtain ⟨remarks, added, run, semantic, -⟩ := checkForward_apply (s.routines.namesWhere fun r => !r.defined) s
  change Grows s (checkForward _ s).2
  rw [run]
  exact ⟨fun _ h => h, prefix_rfl, fun h => h, ⟨added, rfl, semantic⟩, rfl⟩

theorem checkForwards_apply (s : State) : ∃ remarks faults, (checkForwards s).2 = { s with remarks, faults } := by
  obtain ⟨remarks, added, run, -⟩ := checkForward_apply (s.routines.namesWhere fun r => !r.defined) s
  exact ⟨remarks, _, run⟩

theorem checkForwards_quiet (unique : s.routines.Unique) : (checkForwards s).2.faults = s.faults ↔
      ∀ f r, s.routines.get? f = some r → r.call?.isSome = true → r.defined = true := by
  obtain ⟨remarks, added, run, -, quiet⟩ := checkForward_apply (s.routines.namesWhere fun r => !r.defined) s
  change (checkForward _ s).2.faults = _ ↔ _
  rw [run, show s.faults ++ added = s.faults ↔ added = [] from append_right_eq_self, quiet]
  constructor
  · intro none f r found called
    by_contra undefined
    have listed := (Table.mem_namesWhere unique (fun r => !r.defined) f).mpr ⟨r, found, by simpa using undefined⟩
    rw [none f listed r found] at called
    cases called
  · intro all f listed r found
    obtain ⟨r', found', undefined⟩ := (Table.mem_namesWhere unique _ f).mp listed
    cases found.symm.trans found'
    by_contra called
    rw [all f r found (Option.isSome_iff_ne_none.mpr called)] at undefined
    cases undefined

/-- There is no complaint in the end exactly if every routine that is called has a body. -/
theorem quiet_iff_called_defined (tables : Tables o o.headers s) (outer : Outer s s') :
    (checkForwards s').2.faults = s'.faults ↔ ∀ f, s'.Called f → o.Defined f := by
  have defined {f : String} {r : Routine} (found : s'.routines.get? f = some r) : r.defined = true ↔ o.Defined f := by
    obtain ⟨r', found', same⟩ := outer.entry found
    rw [← same, tables.defined f r' found']
    rfl
  rw [checkForwards_quiet (outer.unique tables.unique)]
  constructor
  · rintro all f ⟨r, found, called⟩
    exact (defined found).mp (all f r found called)
  · intro all f r found called
    exact (defined found).mpr (all f ⟨r, found, called⟩)

/-! ## Programs -/

theorem lowerParts_apply (multi : Bool) (decls routines : List Tree) (main : Tree) (s : State) :
    lowerParts multi decls routines main s = checkForwards (lowerMain multi main
        (forEach (lowerRoutine multi) routines (forEach declareGlobal decls s).2).2).2 := rfl

section Parts

variable {multi : Bool} {decls routines : List Tree} {main : Tree} (hdecls : ∀ d ∈ decls, IsDecl d)
  (hroutines : ∀ r ∈ routines, IsRoutine r) (hmain : IsStmt main) {o : Outline}
  (outline : o = ⟨decls.filterMap constant?, decls.filterMap declared?, routines.filterMap header?, main⟩)

include hdecls hroutines hmain

variable (multi) in
theorem grows_lowerParts (s : State) : Grows s (lowerParts multi decls routines main s).2 := by
  have globals := (declaresGlobal_forEach hdecls [] [] s).grows
  have routines := grows_routines multi hroutines (forEach declareGlobal decls s).2
  exact ((globals.trans routines).trans (outer_lowerMain multi _ hmain).toGrows).trans grows_checkForwards

include outline

omit hroutines hmain in
theorem Parts.proper : ∀ g ∈ o.globals, g.2.Proper := by
  subst outline
  intro g member
  obtain ⟨t, inside, declared⟩ := mem_filterMap.mp member
  cases hdecls t inside with
  | const => cases declared
  | var hvar =>
    cases hvar with
    | mk _ proper =>
      cases declared
      exact proper

/-- A program that is lowered without complaint is correct. -/
theorem correct_of_quiet (enabled : Switches Warning)
    (quiet : (lowerParts multi decls routines main { enabled }).2.faults = []) : o.Correct multi := by
  have proper := Parts.proper hdecls outline
  have globals := declaresGlobal_forEach hdecls [] [] { enabled }
  have grows₂ := grows_routines multi hroutines (forEach declareGlobal decls { enabled }).2
  have outer := outer_lowerMain multi
    (forEach (lowerRoutine multi) routines (forEach declareGlobal decls { enabled }).2).2 hmain
  obtain ⟨quiet₁₂₃, quiet₄⟩ := ((globals.grows.trans grows₂).trans outer.toGrows).faults_eq grows_checkForwards quiet
  obtain ⟨quiet₁₂, quiet₃⟩ := (globals.grows.trans grows₂).faults_eq outer.toGrows quiet₁₂₃
  obtain ⟨quiet₁, quiet₂⟩ := globals.grows.faults_eq grows₂ quiet₁₂
  subst outline
  have tables := ((globals.globals globals_start quiet₁).stage proper).tables
  obtain ⟨tables₂, admitted⟩ := admitted_of_quiet hroutines tables quiet₂
  have called := (quiet_iff_called_defined tables₂ outer).mp quiet₄
  exact correct_iff.mpr ⟨(globals.quiet globals_start nodup_nil).mp quiet₁,
    admitted fun f marked => called f (outer.called f marked), typed_lowerMain hmain tables₂ quiet₃ called⟩

/-- A correct program is lowered without complaint, to its code. -/
theorem compiled_of_correct (correct : o.Correct multi) (enabled : Switches Warning) (wordSize : Int) :
    (lowerParts multi decls routines main { enabled }).2.faults = [] ∧
      Compiled o ((lowerParts multi decls routines main { enabled }).2.program wordSize) := by
  have proper := Parts.proper hdecls outline
  have globals := declaresGlobal_forEach hdecls [] [] { enabled }
  have outer := outer_lowerMain multi
    (forEach (lowerRoutine multi) routines (forEach declareGlobal decls { enabled }).2).2 hmain
  have interned := (grows_lowerParts multi hdecls hroutines hmain { enabled }).interned .nil
  subst outline
  obtain ⟨distinct, admitted, typed⟩ := correct_iff.mp correct
  have quiet₁ := (globals.quiet globals_start nodup_nil).mpr distinct
  have globals₁ := globals.globals globals_start quiet₁
  obtain ⟨quiet₂, called₂, stage⟩ := stage_of_admitted hroutines (globals₁.stage proper) admitted
  obtain ⟨quiet₃, called₃, blocks, funcs, code⟩ := code_lowerMain hmain stage.tables typed
  have quiet₄ := (quiet_iff_called_defined stage.tables outer).mpr fun f marked => by
    rcases called₃ f marked with marked | defined
    · rcases called₂ f marked with ⟨r, found, -⟩ | defined
      · rw [globals₁.routines] at found
        cases found
      · exact defined
    · exact defined
  obtain ⟨remarks, faults, run⟩ := checkForwards_apply (lowerMain multi main (forEach (lowerRoutine multi)
    routines (forEach declareGlobal decls { enabled }).2).2).2
  rw [lowerParts_apply] at interned ⊢
  refine ⟨quiet₄.trans (quiet₃.trans (quiet₂.trans quiet₁)), ?_⟩
  rw [run] at interned ⊢
  exact
    { globals := outer.data.trans stage.tables.data
      strings := interned
      externs := rfl
      funcs := by
        refine ⟨_, _, funcs, stage.funcs _ outer.strings, rfl, rfl, rfl, rfl, code _ prefix_rfl⟩ }

end Parts

/-- What lowering comes to: it is without a fault exactly if the program is correct, all faults are
faults of the program, and the code of a correct program is the one described. -/
theorem lower_outcome (ht : IsProgram t) (c : Settings) : ∃ o s,
    outline? t = some o ∧ lower c t = State.outcome s c.wordSize ∧
    (s.faults = [] ↔ o.Correct (c.features .multiWrite)) ∧ (∀ d ∈ s.faults, d.category = .semantic) ∧
    (o.Correct (c.features .multiWrite) → Compiled o (s.program c.wordSize)) := by
  cases ht with
  | mk hdecls hroutines hmain =>
    refine ⟨_, _, rfl, rfl, ⟨fun quiet => ?_, fun correct => ?_⟩, ?_, fun correct => ?_⟩
    · exact correct_of_quiet hdecls hroutines hmain rfl _ quiet
    · exact (compiled_of_correct hdecls hroutines hmain rfl correct c.warnings c.wordSize).1
    · obtain ⟨new, faults, semantic⟩ := (grows_lowerParts (c.features .multiWrite) hdecls hroutines hmain { enabled := c.warnings }).faults
      intro d member
      change d ∈ (lowerParts ..).2.faults at member
      rw [faults] at member
      exact semantic d member
    · exact (compiled_of_correct hdecls hroutines hmain rfl correct c.warnings c.wordSize).2

end MiniPascal.Lower
