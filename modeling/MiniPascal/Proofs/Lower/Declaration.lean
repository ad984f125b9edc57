import Mathlib.Data.List.Forall2
import MiniPascal.Proofs.Lower.Routine
import MiniPascal.Proofs.Tree.Reading

/-!
# Lowering declarations of routines

The declaration of a routine is compared with earlier ones of its name, and then its body is lowered
if it has one. `Stage o done s` says what the state holds once the headers `done` of the outline `o`
have been lowered without a fault: tables that say about every name what the outline says, and the
code of every body so far. A further declaration is lowered without complaint exactly if it keeps the
rules (`Admits`), and then it leads to the next stage.
-/

open List

namespace MiniPascal.Lower

open Ir (Value Instr Ty plain)
open Static
open Tree (IsExpr IsStmt IsVarDecl IsDecl IsRoutine IsProgram)

/-! ## Registered routines -/

/-- The tables say what an outline says, with some headers seen. -/
structure Tables (o : Outline) (seen : List Header) (s : State) : Prop where
  outside : Outside o seen s
  locals : ∀ x, s.locals.get? x = none
  unique : s.routines.Unique
  defined : ∀ f r, s.routines.get? f = some r → (r.defined = true ↔ ∃ h ∈ seen, h.name = f ∧ h.body?.isSome = true)
  data : s.data = o.globals.map dataOf

variable {s : State} {f : String} {r : Routine} {o : Outline} {done : List Header} {h : Header}

theorem Outer.entry (outer : Outer s s') (found : s'.routines.get? f = some r) :
    ∃ r', s.routines.get? f = some r' ∧ r'.defined = r.defined := by
  have same := outer.routines f
  rw [found] at same
  obtain ⟨r', found', bare⟩ := Option.map_eq_some_iff.mp same.symm
  exact ⟨r', found', show r'.bare.defined = r.bare.defined by rw [bare]⟩

theorem Tables.outer (tables : Tables o seen s) (outer : Outer s s')
    (locals : s'.locals = s.locals) : Tables o seen s' := by
  have outside := tables.outside
  exact
    { outside :=
        { constants := fun x => by rw [outer.constants, outside.constants]
          globals := fun x => by
            rw [map_eq_of_map_eq (f := Variable.bare) (fun _ => rfl) (outer.globals x), outside.globals]
          routines := fun f => by
            rw [map_eq_of_map_eq (f := Routine.bare) (fun _ => rfl) (outer.routines f), outside.routines]
          proper := outside.proper
          loopExits := by rw [outer.loopExits, outside.loopExits] }
      locals := fun x => by rw [locals, tables.locals]
      unique := outer.unique tables.unique
      defined := fun f r found => by
        obtain ⟨r', found', defined⟩ := outer.entry found
        rw [← defined, tables.defined f r' found']
      data := by rw [outer.data, tables.data] }

/-- The entry of a routine, and its first declaration. -/
theorem Tables.entry (tables : Tables o seen s) (f : String) :
    (s.routines.get? f = none ∧ seen.find? (fun h => h.name == f) = none) ∨
    ∃ r h, s.routines.get? f = some r ∧ seen.find? (fun h => h.name == f) = some h ∧
      r.params = h.signature.params ∧ r.result = h.result ∧ r.symbol = "pas_" ++ f := by
  have same := tables.outside.routines f
  cases entry : s.routines.get? f with
  | none =>
    rw [entry] at same
    exact .inl ⟨rfl, Option.map_eq_none_iff.mp same.symm⟩
  | some r =>
    rw [entry] at same
    obtain ⟨h, found, pair⟩ := Option.map_eq_some_iff.mp same.symm
    obtain ⟨signature, symbol⟩ := Prod.mk.inj pair
    obtain ⟨params, result⟩ := Signature.mk.inj signature
    exact .inr ⟨r, h, rfl, found, params.symm, result.symm, symbol.symm⟩

theorem sameSignature_iff (r : Routine) (params : List VarType) (result : VarType) :
    sameSignature r params result = true ↔ r.params = params ∧ (r.result = .void ↔ result = .void) := by
  have formats : r.params.map VarType.format = params.map VarType.format ↔ r.params = params :=
    (map_injective_iff.mpr fun _ _ => VarType.format_inj).eq_iff
  unfold sameSignature
  rw [Bool.and_eq_true, beq_iff_eq, formats, beq_iff_eq, Bool.eq_iff_iff, beq_iff_eq, beq_iff_eq]

/-- A header agrees with the first declaration of its routine, and it is the only one with a body. -/
structure Fits (done : List Header) (h : Header) : Prop where
  agree : ∀ h', done.find? (fun g => g.name == h.name) = some h' → Outline.Agree h' h
  once : h.body?.isSome = true → ∀ h' ∈ done, h'.name = h.name → h'.body? = none

/-- What registering a header comes to. -/
structure Registers (o : Outline) (done : List Header) (h : Header) (s : State)
    (result : Option Routine × State) : Prop where
  fits : result.2.faults = s.faults ↔ Fits done h
  tables : result.2.faults = s.faults → Tables o (done ++ [h]) result.2
  called : ∀ f, result.2.Called f → s.Called f
  strings : result.2.strings = s.strings
  funcs : result.2.funcs = s.funcs
  routine : result.2.faults = s.faults → h.body?.isSome = true → ∃ r, result.1 = some r ∧ r.symbol = "pas_" ++ h.name

/-- Only the entry of the routine itself has to be looked at. -/
theorem Tables.snoc (tables : Tables o done s) (table : Table Routine) (unique : table.Unique)
    (others : ∀ f, f ≠ h.name → table.get? f = s.routines.get? f) (entry : table.get? h.name = some r)
    (symbol : r.symbol = "pas_" ++ h.name)
    (signature : ((done ++ [h]).find? fun g => g.name == h.name).map Header.signature = some ⟨r.params, r.result⟩)
    (defined : r.defined = true ↔ ∃ g ∈ done ++ [h], g.name = h.name ∧ g.body?.isSome = true) :
    Tables o (done ++ [h]) { s with routines := table } := by
  have outside := tables.outside
  refine
    { outside :=
        { constants := outside.constants
          globals := outside.globals
          routines := fun f => ?_
          proper := outside.proper
          loopExits := outside.loopExits }
      locals := tables.locals
      unique := unique
      defined := fun f g found => ?_
      data := tables.data }
  · by_cases same : f = h.name
    · subst same
      obtain ⟨g, found, same⟩ := Option.map_eq_some_iff.mp signature
      rw [found]
      exact (congrArg _ entry).trans (by simp [same, symbol])
    · have other : [h].find? (fun g => g.name == f) = none := by simpa using Ne.symm same
      rw [find?_append, other, Option.or_none, ← outside.routines f]
      exact congrArg _ (others f same)
  · by_cases same : f = h.name
    · subst same
      cases entry.symm.trans found
      exact defined
    · rw [tables.defined f g ((others f same).symm.trans found)]
      simp [Ne.symm same]

theorem called_iff : s.Called f ↔ ((s.routines.get? f).bind Routine.call?).isSome = true := by
  unfold State.Called
  cases s.routines.get? f <;> simp

/-- Replacing an entry keeps the marks of calls, if the new one has the mark of the old. -/
theorem called_insert (same : (s.routines.get? f).bind Routine.call? = r.call?) (g : String) :
    ({ s with routines := s.routines.insert f r } : State).Called g ↔ s.Called g := by
  rw [called_iff, called_iff]
  simp only [Table.get?_insert]
  by_cases h : g = f
  · rw [if_pos h, h, same, Option.bind_some]
  · rw [if_neg h]

theorem grows_insert (same : (s.routines.get? f).bind Routine.call? = r.call?) :
    Grows s { s with routines := s.routines.insert f r } where
  called g h := (called_insert same g).mpr h
  strings := prefix_rfl
  interned h := h
  faults := ⟨[], by simp, by simp⟩
  enabled := rfl

theorem grows_register (tok : Token) (name : String) (params : List VarType) (result : VarType)
    (hasBody : Bool) (s : State) : Grows s (register tok name params result hasBody s).2 := by
  unfold register
  rw [bind_apply, get_apply]
  cases entry : s.routines.get? name with
  | none => exact grows_insert (by rw [entry]; rfl)
  | some r =>
    dsimp only
    split
    · exact (keeps_fault tok rfl s).toGrows
    · split
      · exact (keeps_fault tok rfl s).toGrows
      · split
        · exact grows_insert (by rw [entry]; rfl)
        · exact .refl s

/-- A forward declaration leaves no body to lower. -/
theorem register_forward (tok : Token) (name : String) (params : List VarType) (result : VarType)
    (s : State) : (register tok name params result false s).1 = none := by
  unfold register
  rw [bind_apply, get_apply]
  cases s.routines.get? name with
  | none => rfl
  | some r =>
    dsimp only
    cases sameSignature r params result with
    | false => rfl
    | true =>
      rw [Bool.and_false]
      rfl

/-- Registers a header. -/
abbrev registerHeader (tok : Token) (h : Header) : Lowering (Option Routine) :=
  register tok h.name h.signature.params h.result h.body?.isSome

/-- A fault is reported where a header does not fit. -/
theorem Registers.of_fault (unfit : ¬ Fits done h) (s : State) (tok : Token) (f : Fault) :
    Registers o done h s (none, (fault tok f s).2) where
  fits := ⟨fun same => by simp at same, fun fits => absurd fits unfit⟩
  tables same := by simp at same
  called _ marked := marked
  strings := rfl
  funcs := rfl
  routine same := by simp at same

theorem registers_register (tables : Tables o done s) (tok : Token) :
    Registers o done h s (registerHeader tok h s) := by
  unfold registerHeader register
  rw [bind_apply, get_apply]
  rcases tables.entry h.name with ⟨entry, first⟩ | ⟨r, h', entry, first, params, result, symbol⟩
  · -- the first declaration of its name
    have nothing : ∀ g ∈ done, g.name ≠ h.name := by simpa using find?_eq_none.mp first
    have fits : Fits done h :=
      ⟨fun g found => (nomatch first.symm.trans found), fun _ g member same => absurd same (nothing g member)⟩
    simp only [entry]
    exact
      { fits := ⟨fun _ => fits, fun _ => rfl⟩
        tables := fun _ => tables.snoc _ (tables.unique.insert _ _)
          (fun f differs => Table.get?_insert_of_ne _ _ differs) (Table.get?_insert_self _ _ _) rfl
          (by rw [find?_append, first]; simp [Header.signature])
          (by
            constructor
            · exact fun body => ⟨h, by simp, rfl, body⟩
            · rintro ⟨g, member, same, body⟩
              rcases mem_append.mp member with before | last
              · exact absurd same (nothing g before)
              · rw [mem_singleton.mp last] at body
                exact body)
        called := fun f marked => (called_insert (by rw [entry]; rfl) f).mp marked
        strings := rfl
        funcs := rfl
        routine := fun _ bodied => by
          rw [bodied]
          exact ⟨_, rfl, rfl⟩ }
  · have defined := tables.defined h.name r entry
    have signature : ((done ++ [h]).find? fun g => g.name == h.name).map Header.signature =
        some ⟨r.params, r.result⟩ := by
      rw [find?_append, first, params, result]
      rfl
    simp only [entry]
    cases same : sameSignature r h.signature.params h.result with
    | false =>
      refine Registers.of_fault (fun fits => ?_) s tok _
      have agree := fits.agree h' first
      unfold Outline.Agree at agree
      rw [← params, ← result, ← sameSignature_iff, same] at agree
      cases agree
    | true =>
      have agree : Outline.Agree h' h := by
        have := (sameSignature_iff _ _ _).mp same
        rwa [params, result] at this
      have agrees : ∀ g, done.find? (fun g => g.name == h.name) = some g → Outline.Agree g h := by
        intro g found
        cases first.symm.trans found
        exact agree
      cases body : h.body?.isSome with
      | false =>
        simp only [Bool.not_true, Bool.false_eq_true, if_false, Bool.and_false]
        refine
          { fits := ⟨fun _ => ⟨agrees, fun bodied => ?_⟩, fun _ => rfl⟩
            tables := fun _ => tables.snoc _ tables.unique (fun _ _ => rfl) entry symbol signature ?_
            called := fun _ marked => marked
            strings := rfl
            funcs := rfl
            routine := fun _ bodied => (nomatch body.symm.trans bodied) }
        · rw [body] at bodied
          cases bodied
        · rw [defined]
          simp [body]
      | true =>
        cases was : r.defined with
        | true =>
          refine Registers.of_fault (fun fits => ?_) s tok _
          obtain ⟨g, member, name, bodied⟩ := defined.mp was
          rw [fits.once body g member name] at bodied
          cases bodied
        | false =>
          simp only [Bool.not_true, Bool.false_eq_true, if_false, Bool.and_true, if_true]
          have once : ∀ g ∈ done, g.name = h.name → g.body? = none := by
            intro g member name
            by_contra bodied
            have := defined.mpr ⟨g, member, name, Option.isSome_iff_ne_none.mpr bodied⟩
            rw [was] at this
            cases this
          exact
            { fits := ⟨fun _ => ⟨agrees, fun _ => once⟩, fun _ => rfl⟩
              tables := fun _ => tables.snoc _ (tables.unique.insert _ _)
                (fun f differs => Table.get?_insert_of_ne _ _ differs) (Table.get?_insert_self _ _ _)
                symbol signature ⟨fun _ => ⟨h, by simp, rfl, body⟩, fun _ => rfl⟩
              called := fun f marked => (called_insert (by rw [entry]; rfl) f).mp marked
              strings := rfl
              funcs := rfl
              routine := fun _ _ => ⟨_, rfl, symbol⟩ }

/-! ## Bodies of routines -/

/-- What is read off a declaration is read off the name and the type that it declares. -/
theorem map_declared {β : Type} {f : Tree → β} {g : String × VarType → β}
    (read : ∀ tok x type typeTok, f (.varDecl tok x type typeTok) = g (x, type)) {params : List Tree}
    (h : ∀ p ∈ params, IsVarDecl p) : params.map f = (params.filterMap declared?).map g := by
  induction params with
  | nil => rfl
  | cons p params ih =>
    obtain ⟨first, later⟩ := forall_mem_cons.mp h
    cases first with
    | mk =>
      rw [map_cons, ih later, read]
      rfl

/-- Trees make up the declaration of a routine. -/
structure Declares (h : Header) (params locals : List Tree) (body : Tree) : Prop where
  header : h = ⟨h.name, params.filterMap declared?, h.result, locals.filterMap declared?,
    if body.isAbsent then none else some body⟩
  isParam : ∀ p ∈ params, IsVarDecl p
  isLocal : ∀ l ∈ locals, IsVarDecl l
  isStmt : body.isAbsent = false → IsStmt body

section Body

variable {multi : Bool} {tok : Token} {r : Routine} {params locals : List Tree} {body : Tree}
  {h : Header} (declares : Declares h params locals body) (isStmt : IsStmt body) {s : State}
  {x : Unit × State} (run : lowerBody multi tok h.name r params h.result locals body s = x)

include declares

variable (tok s) in
/-- The way into the routine, and the way out. -/
theorem Declares.frame :
    Enters [] h.slots (Code.enter h) s.entering.opened
      (enterRoutine tok h.name params locals h.result s.entering.opened).2 ∧
    Leaves (leaveRoutine (enterRoutine tok h.name params locals h.result s.entering.opened).1)
      (Code.leave h) := by
  obtain ⟨enters, slot⟩ := enters_enterRoutine tok declares.isParam declares.isLocal
    declares.header (s := s.entering.opened) rfl rfl
  exact ⟨enters, leaves_leaveRoutine slot⟩

include isStmt run

/-- What is around a routine is as it was found, and its function is added. -/
theorem outer_lowerBody : ∃ blocks, Outer s x.2 ∧ x.2.locals = s.locals ∧
    x.2.funcs = s.funcs ++ [functionOf r params h.result blocks] := by
  obtain ⟨enters, leaves⟩ := declares.frame tok s
  obtain ⟨remarks, rfl⟩ := lowerBody_apply run rfl
  obtain ⟨outer, funcs⟩ := lowerFrame_outer enters isStmt leaves
  have start : Grows s s.entering := .of_same rfl rfl rfl rfl
  refine ⟨_, ⟨start.trans (outer.toGrows.trans (.of_same rfl rfl rfl rfl)), outer.constants, outer.globals,
    outer.routines, outer.unique, ?_, rfl, outer.returnTargets, outer.data⟩, ?_, congrArg (· ++ _) funcs⟩
  · exact congrArg List.tail outer.scopes
  · exact congrArg (List.headD · {}) outer.scopes

variable {o : Outline} {seen : List Header} (tables : Tables o seen s)
  (proper : ∀ v ∈ h.slots, v.2.Proper)

include tables proper

omit declares isStmt run proper in
theorem outside_entering : Outside o seen s.entering :=
  { tables.outside with loopExits := rfl }

/-- A routine that is lowered without complaint obeys the static rules. -/
theorem typed_lowerBody (quiet : x.2.faults = s.faults) (called : ∀ f, x.2.Called f → o.Defined f) :
    (names h.slots).Nodup ∧ StmtTyped (o.scope seen h.slots) multi false body := by
  obtain ⟨enters, leaves⟩ := declares.frame tok s
  obtain ⟨remarks, rfl⟩ := lowerBody_apply run rfl
  exact lowerFrame_typed enters isStmt leaves (outside_entering tables) proper (fun _ => rfl) quiet called

/-- A routine that obeys the static rules is lowered to its code. -/
theorem code_lowerBody (symbol : r.symbol = "pas_" ++ h.name) (distinct : (names h.slots).Nodup)
    (typed : StmtTyped (o.scope seen h.slots) multi false body) :
    x.2.faults = s.faults ∧ (∀ f, x.2.Called f → s.Called f ∨ o.Defined f) ∧
    ∃ f, x.2.funcs = s.funcs ++ [f] ∧
      ∀ strings, x.2.strings <+: strings → RoutineCode o strings ⟨seen, h, body⟩ f := by
  obtain ⟨enters, leaves⟩ := declares.frame tok s
  obtain ⟨remarks, rfl⟩ := lowerBody_apply run rfl
  have funcs : (lowerFrame multi (enterRoutine tok h.name params locals h.result) body leaveRoutine
      s.entering).2.funcs = s.funcs := (lowerFrame_outer enters isStmt leaves).2
  obtain ⟨quiet, called, -, code⟩ := lowerFrame_code enters isStmt leaves (outside_entering tables) proper
    (fun _ => rfl) distinct typed
  refine ⟨quiet, called, _, congrArg (· ++ _) funcs, fun strings later => ?_⟩
  exact
    { name := symbol
      params := by rw [declares.header]; exact map_declared (fun _ _ _ _ => rfl) declares.isParam
      result := rfl
      exported := rfl
      blocks := code strings later }

end Body

/-! ## Declarations of routines -/

theorem declares_of_isRoutine (ht : IsRoutine t) : ∃ tok h params locals body,
    t = .routine tok h.name params h.result locals body ∧ header? t = some h ∧ Declares h params locals body := by
  cases ht with
  | forward _ params =>
    exact ⟨_, _, _, _, _, rfl, rfl, rfl, params, by simp, nofun⟩
  | defined _ params _ locals body =>
    exact ⟨_, _, _, _, _, rfl, rfl, rfl, params, locals, fun _ => body⟩

theorem proper_of_declared {ts : List Tree} (h : ∀ t ∈ ts, IsVarDecl t) : ∀ v ∈ ts.filterMap declared?, v.2.Proper := by
  intro v member
  obtain ⟨t, inside, declared⟩ := mem_filterMap.mp member
  cases h t inside with
  | mk _ proper =>
    cases declared
    exact proper

theorem proper_of_own (own : v ∈ h.own) : v.2.Proper := by
  unfold Header.own at own
  split at own
  · simp at own
  · rw [mem_singleton.mp own]
    exact .integer

/-- A header can be added behind others. -/
structure Admits (o : Outline) (multi : Bool) (done : List Header) (h : Header) : Prop where
  result : h.result.isArray = false
  fits : Fits done h
  body : ∀ b, h.body? = some b → (names h.slots).Nodup ∧ StmtTyped (o.scope (done ++ [h]) h.slots) multi false b

/-- Some headers have been lowered. -/
structure Stage (o : Outline) (done : List Header) (s : State) : Prop where
  tables : Tables o done s
  funcs : ∀ strings, s.strings <+: strings → Forall₂ (RoutineCode o strings) (definitions [] done) s.funcs

section Routines

variable {multi : Bool} {tok : Token} {h : Header} {params locals : List Tree} {body : Tree}
  (declares : Declares h params locals body)

include declares

theorem Declares.proper : ∀ v ∈ h.slots, v.2.Proper := by
  have inParams := proper_of_declared declares.isParam
  have inLocals := proper_of_declared declares.isLocal
  have params_eq := congrArg Header.params declares.header
  have locals_eq := congrArg Header.locals declares.header
  intro v member
  unfold Header.slots at member
  rw [params_eq, locals_eq] at member
  rcases mem_append.mp member with member | own
  · rcases mem_append.mp member with param | localVar
    · exact inParams v param
    · exact inLocals v localVar
  · exact proper_of_own own

theorem Declares.signature : params.map declaredType = h.signature.params := by
  rw [map_declared (g := Prod.snd) (fun _ _ _ _ => rfl) declares.isParam, declares.header]
  rfl

theorem Declares.hasBody : (!body.isAbsent) = h.body?.isSome := by
  rw [declares.header]
  cases body.isAbsent <;> rfl

theorem Declares.eq_body (found : h.body? = some b) : b = body := by
  rw [declares.header] at found
  split at found
  · cases found
  · exact (Option.some.inj found).symm

omit declares in
theorem lowerRoutine_array (array : h.result.isArray = true) (s : State) :
    lowerRoutine multi (.routine tok h.name params h.result locals body) s = fault tok (.arrayResult h.name) s := by
  unfold lowerRoutine
  dsimp only
  rw [if_pos array]

/-- Lowers the body of a routine that was registered. -/
def lowerRegistered (multi : Bool) (tok : Token) (h : Header) (params locals : List Tree) (body : Tree)
    (r? : Option Routine) : Lowering Unit :=
  r?.elim (pure ()) fun r => lowerBody multi tok h.name r params h.result locals body

/-- A declaration is registered, and then its body is lowered if it has one. -/
theorem lowerRoutine_scalar (scalar : h.result.isArray = false) (s : State) : ∃ remarks, ∀ multi,
    lowerRoutine multi (.routine tok h.name params h.result locals body) s =
      (registerHeader tok h >>= lowerRegistered multi tok h params locals body) { s with remarks } := by
  unfold registerHeader
  rw [← declares.signature, ← declares.hasBody]
  have either (multi : Bool) (m : Lowering (Option Routine)) (s : State) {k : Option Routine → Lowering Unit}
      (absent : k none = pure ()) (present : ∀ r, k (some r) = lowerBody multi tok h.name r params h.result locals body) :
      (m >>= k) s = (m >>= lowerRegistered multi tok h params locals body) s := by
    obtain rfl : k = lowerRegistered multi tok h params locals body := by
      funext r?
      cases r? with
      | none => exact absent
      | some r => exact present r
    rfl
  cases builtin : (Builtin.ofName? h.name).isSome with
  | true =>
    refine ⟨s.remarks ++ Remark.enabled s.enabled [(Caution.routineHidden h.name).remark tok], ?_⟩
    intro multi
    unfold lowerRoutine
    dsimp only
    rw [scalar, if_neg Bool.false_ne_true, builtin, if_pos rfl, bind_apply, caution_apply]
    exact either multi _ _ rfl fun _ => rfl
  | false =>
    refine ⟨s.remarks, ?_⟩
    intro multi
    unfold lowerRoutine
    dsimp only
    rw [scalar, if_neg Bool.false_ne_true, builtin, if_neg Bool.false_ne_true]
    exact either multi _ s rfl fun _ => rfl

omit declares in
theorem registerHeader_forward (forward : h.body? = none) (s : State) : (registerHeader tok h s).1 = none := by
  unfold registerHeader
  rw [forward]
  exact register_forward ..

theorem Declares.isStmt_of_register {s : State} {r : Routine}
    (found : (registerHeader tok h s).1 = some r) : IsStmt body := by
  refine declares.isStmt ?_
  by_contra absent
  have forward : h.body? = none := by
    rw [declares.header]
    exact if_pos (Bool.eq_true_of_not_eq_false absent)
  rw [registerHeader_forward forward] at found
  cases found

theorem grows_lowerRegistered {s : State} : Grows (registerHeader tok h s).2
    (lowerRegistered multi tok h params locals body (registerHeader tok h s).1 (registerHeader tok h s).2).2 := by
  cases found : (registerHeader tok h s).1 with
  | none => exact .refl _
  | some r =>
    obtain ⟨_, outer, -⟩ := outer_lowerBody declares (declares.isStmt_of_register found) rfl
    exact outer.toGrows

variable {s : State} {x : Unit × State}
  (run : lowerRoutine multi (.routine tok h.name params h.result locals body) s = x)

include run

theorem grows_lowerRoutine : Grows s x.2 := by
  subst run
  cases array : h.result.isArray with
  | true =>
    rw [lowerRoutine_array array]
    exact (keeps_fault tok rfl s).toGrows
  | false =>
    obtain ⟨remarks, run⟩ := lowerRoutine_scalar declares array s
    rw [run, bind_apply]
    have start : Grows s { s with remarks } := .of_same rfl rfl rfl rfl
    exact (start.trans (grows_register ..)).trans (grows_lowerRegistered declares)

variable {o : Outline} {done : List Header}

omit declares run in
theorem Tables.remarks (tables : Tables o done s) (remarks : List Remark) : Tables o done { s with remarks } :=
  { tables with outside := { tables.outside with } }

/-- A declaration that is lowered without complaint keeps the rules. -/
theorem admits_of_quiet (tables : Tables o done s) (quiet : x.2.faults = s.faults) :
    Tables o (done ++ [h]) x.2 ∧ ((∀ f, x.2.Called f → o.Defined f) → Admits o multi done h) := by
  subst run
  cases array : h.result.isArray with
  | true =>
    rw [lowerRoutine_array array] at quiet
    simp at quiet
  | false =>
    obtain ⟨remarks, run⟩ := lowerRoutine_scalar declares array s
    rw [run, bind_apply] at quiet ⊢
    have registers := registers_register (h := h) (tables.remarks remarks) tok
    obtain ⟨quiet₁, quiet₂⟩ := (grows_register ..).faults_eq (grows_lowerRegistered declares) quiet
    have tables₁ := registers.tables quiet₁
    have fits := registers.fits.mp quiet₁
    cases bodied : h.body? with
    | none =>
      rw [registerHeader_forward bodied]
      exact ⟨tables₁, fun _ => ⟨array, fits, fun _ found => (nomatch bodied.symm.trans found)⟩⟩
    | some b =>
      obtain ⟨r, found, -⟩ := registers.routine quiet₁ (by rw [bodied]; rfl)
      have isStmt := declares.isStmt_of_register found
      rw [found] at quiet₂ ⊢
      obtain ⟨_, outer, locals_eq, -⟩ := outer_lowerBody declares isStmt rfl
      refine ⟨tables₁.outer outer locals_eq, fun called => ⟨array, fits, fun b' found' => ?_⟩⟩
      rw [declares.eq_body found']
      exact typed_lowerBody declares isStmt rfl tables₁ declares.proper quiet₂ called

/-- A declaration that keeps the rules leads to the next stage. -/
theorem stage_of_admits (stage : Stage o done s) (admits : Admits o multi done h) :
    x.2.faults = s.faults ∧ (∀ f, x.2.Called f → s.Called f ∨ o.Defined f) ∧
      Stage o (done ++ [h]) x.2 := by
  subst run
  obtain ⟨remarks, run⟩ := lowerRoutine_scalar declares admits.result s
  rw [run, bind_apply]
  have registers := registers_register (h := h) (stage.tables.remarks remarks) tok
  have quiet₁ := registers.fits.mpr admits.fits
  have tables₁ := registers.tables quiet₁
  have strings := registers.strings
  have funcs := registers.funcs
  cases bodied : h.body? with
  | none =>
    rw [registerHeader_forward bodied]
    refine ⟨quiet₁, fun f marked => .inl (registers.called f marked), tables₁, ?_⟩
    intro all later
    rw [definitions_snoc, bodied]
    change Forall₂ _ _ (registerHeader tok h { s with remarks }).2.funcs
    rw [funcs]
    simpa using stage.funcs all (strings ▸ later)
  | some b =>
    obtain ⟨r, found, symbol⟩ := registers.routine quiet₁ (by rw [bodied]; rfl)
    have isStmt := declares.isStmt_of_register found
    obtain ⟨distinct, typed⟩ := admits.body b bodied
    rw [declares.eq_body bodied] at typed
    rw [found]
    obtain ⟨_, outer, locals_eq, -⟩ := outer_lowerBody declares isStmt rfl
    obtain ⟨quiet₂, called₂, f, funcs₂, code⟩ :=
      code_lowerBody declares isStmt rfl tables₁ declares.proper symbol distinct typed
    refine ⟨quiet₂.trans quiet₁, ?_, tables₁.outer outer locals_eq, ?_⟩
    · intro g marked
      exact (called₂ g marked).imp_left (registers.called g)
    · intro all later
      have before := stage.funcs all (strings ▸ outer.strings.trans later)
      have own := code all later
      rw [← declares.eq_body bodied] at own
      rw [definitions_snoc, bodied]
      change Forall₂ _ _ (lowerBody ..).2.funcs
      rw [funcs₂, funcs]
      exact rel_append before (.cons own .nil)

end Routines

end MiniPascal.Lower
