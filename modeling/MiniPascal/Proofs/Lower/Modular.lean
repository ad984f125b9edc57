import MiniPascal.Proofs.Lower.Alike
import MiniPascal.Proofs.Lower.Linkage
import MiniPascal.Proofs.Tree.Reprint

/-!
# Functions are compiled apart

What a routine is compiled to depends on the declarations and headers of its program, and on its own
locals and body, but not on the locals and bodies of other routines. `Tree.without g` is a program
without the locals and the body of `g`: programs that agree in it, up to places, have functions that are
alike, apart from that of `g`.
-/

open List

namespace MiniPascal

open Tree

/-- What makes up a token, with its text as a list of characters. -/
def Token.fields (t : Token) : Kind × List Char × Int64 × List Int :=
  (t.kind, t.value.toList, t.number, [t.file, t.line, t.column, t.length])

theorem Token.fields_injective : Function.Injective Token.fields := by
  intro t t' same
  cases t
  cases t'
  simp only [Token.fields, Prod.mk.injEq, String.toList_inj, List.cons.injEq, and_true] at same
  obtain ⟨rfl, rfl, rfl, rfl, rfl, rfl, rfl⟩ := same
  rfl

namespace Tree

/-- A routine without its locals and its statements, if it is called `g`. -/
def emptyRoutine (g : String) : Tree → Tree
  | .routine tok f params result locals body =>
    if f = g then .routine tok f params result [] (if body.isAbsent then .absent else .block .nowhere [])
    else .routine tok f params result locals body
  | t => t

/-- A program without its name, and without the locals and statements of routine `g`: declarations,
headers and other bodies. -/
def without (g : String) : Tree → Tree
  | .program tok _ decls routines main => .program tok "" decls (routines.map (emptyRoutine g)) main
  | t => t

theorem bare_emptyRoutine (g : String) (tok : Token) (f : String) (params : List Tree) (result : VarType)
    (locals : List Tree) (body : Tree) : (emptyRoutine g (.routine tok f params result locals body)).bare =
      .routine .nowhere f (params.map bare) result (if f = g then [] else locals.map bare)
        (if f = g then (if body.isAbsent then .absent else .block .nowhere []) else body.bare) := by
  unfold emptyRoutine
  dsimp only
  split
  · rw [bare_routine]
    split <;> rfl
  · rw [bare_routine]

theorem IsRoutine.eq_routine (h : IsRoutine t) :
    ∃ tok f params result locals body, t = .routine tok f params result locals body := by
  cases h with
  | forward | defined => exact ⟨_, _, _, _, _, _, rfl⟩

theorem bare_program (tok : Token) (x : String) (decls routines : List Tree) (main : Tree) :
    (program tok x decls routines main).bare = .program .nowhere x (decls.map bare) (routines.map bare) main.bare := by
  rw [bare, bareEach_eq_map, bareEach_eq_map]

theorem fitsRoutine_emptyRoutine (g : String) (h : FitsRoutine t) : FitsRoutine (emptyRoutine g t) := by
  cases h with
  | forward params result =>
    unfold emptyRoutine
    dsimp only
    split
    · exact .forward params result
    · exact .forward params result
  | defined params result locals body =>
    unfold emptyRoutine
    dsimp only
    split
    · split
      · exact .forward params result
      · exact .defined params result (by simp) (.block (by simp))
    · exact .defined params result locals body

theorem wellFormed_without (g : String) (h : WellFormed t) : WellFormed (t.without g) := by
  cases h with
  | mk decls routines main =>
    refine .mk decls ?_ main
    rw [forall_mem_map]
    exact fun r member => fitsRoutine_emptyRoutine g (routines r member)

/-- Well-formed trees that are written alike are the same up to places. -/
theorem bare_eq_of_print (h : WellFormed t) (h' : WellFormed t') (same : t'.print = t.print) :
    t'.bare = t.bare := by
  obtain ⟨r, run, back⟩ := read_print h false .nowhere
  obtain ⟨r', run', back'⟩ := read_print h' false .nowhere
  rw [same, run] at run'
  cases run'
  exact back'.symm.trans back

end Tree

namespace Static

open Tree (IsRoutine IsProgram emptyRoutine)

@[simp] theorem constant?_bare (t : Tree) : constant? t.bare = constant? t := by
  cases t <;> rfl

@[simp] theorem declared?_bare (t : Tree) : declared? t.bare = declared? t := by
  cases t <;> rfl

theorem filterMap_bare {β : Type} {f : Tree → Option β} (blind : ∀ t : Tree, f t.bare = f t) {ts ts' : List Tree}
    (same : ts'.map bare = ts.map bare) : ts'.filterMap f = ts.filterMap f := by
  have through (us : List Tree) : us.filterMap f = (us.map bare).filterMap f := by
    rw [filterMap_map]
    exact filterMap_congr fun t _ => (blind t).symm
  rw [through ts', same, ← through]

/-- Headers that differ at most in the locals and the body of `g`. -/
structure SameHeader (g : String) (h h' : Header) : Prop where
  name : h'.name = h.name
  params : h'.params = h.params
  result : h'.result = h.result
  locals : h.name ≠ g → h'.locals = h.locals
  body : h.name ≠ g → h'.body?.map bare = h.body?.map bare

/-- Outlines that differ at most in the locals and the body of `g`. -/
structure SameOutline (g : String) (o o' : Outline) : Prop where
  constants : o'.constants = o.constants
  globals : o'.globals = o.globals
  headers : Forall₂ (SameHeader g) o.headers o'.headers
  main : o'.main.bare = o.main.bare

theorem map_bare_body {body body' : Tree} (same : body'.bare = body.bare) :
    (if body'.isAbsent then none else some body').map bare = (if body.isAbsent then none else some body).map bare := by
  rw [← isAbsent_bare body', same, isAbsent_bare]
  split
  · rfl
  · exact congrArg some same

theorem sameHeader_of_routine {g : String} {r r' : Tree} (hr : IsRoutine r) (hr' : IsRoutine r')
    (same : (emptyRoutine g r').bare = (emptyRoutine g r).bare) :
    ∃ h h', header? r = some h ∧ header? r' = some h' ∧ SameHeader g h h' := by
  obtain ⟨tok, f, params, result, locals, body, rfl⟩ := hr.eq_routine
  obtain ⟨tok', f', params', result', locals', body', rfl⟩ := hr'.eq_routine
  rw [bare_emptyRoutine, bare_emptyRoutine] at same
  obtain ⟨-, rfl, sameParams, rfl, sameLocals, sameBody⟩ := routine.inj same
  refine ⟨_, _, rfl, rfl, rfl, filterMap_bare declared?_bare sameParams, rfl, ?_, ?_⟩
  · intro other
    rw [if_neg other, if_neg other] at sameLocals
    exact filterMap_bare declared?_bare sameLocals
  · intro other
    rw [if_neg other, if_neg other] at sameBody
    exact map_bare_body sameBody

theorem sameHeaders_of_routines {rs rs' : List Tree} (hrs : ∀ r ∈ rs, IsRoutine r)
    (hrs' : ∀ r ∈ rs', IsRoutine r)
    (same : rs'.map (fun r => (emptyRoutine g r).bare) = rs.map fun r => (emptyRoutine g r).bare) :
    Forall₂ (SameHeader g) (rs.filterMap header?) (rs'.filterMap header?) := by
  induction rs generalizing rs' with
  | nil =>
    rw [map_eq_nil_iff.mp same]
    exact .nil
  | cons r rs ih =>
    cases rs' with
    | nil => cases same
    | cons r' rs' =>
      obtain ⟨first, later⟩ := forall_mem_cons.mp hrs
      obtain ⟨first', later'⟩ := forall_mem_cons.mp hrs'
      obtain ⟨same, sameRest⟩ := List.cons.inj same
      obtain ⟨h, h', header, header', alike⟩ := sameHeader_of_routine first first' same
      rw [filterMap_cons_some header, filterMap_cons_some header']
      exact .cons alike (ih later later' sameRest)

theorem sameOutline_of_without {g : String} {t t' : Tree} (ht : IsProgram t) (ht' : IsProgram t')
    (same : (t'.without g).bare = (t.without g).bare) {o o' : Outline} (outline : outline? t = some o)
    (outline' : outline? t' = some o') : SameOutline g o o' := by
  cases ht with
  | mk _ hroutines =>
    cases ht' with
    | mk _ hroutines' =>
      cases outline
      cases outline'
      unfold without at same
      rw [bare_program, bare_program, map_map, map_map] at same
      obtain ⟨-, -, decls, routines, main⟩ := program.inj same
      exact ⟨filterMap_bare constant?_bare decls, filterMap_bare declared?_bare decls,
        sameHeaders_of_routines hroutines hroutines' routines, main⟩

end Static

namespace Lower

open Ir (Value Instr Ty Line plain)
open Static

/-! ## Functions -/

theorem BodyCode.alike (steady : Steady S S' L.opened)
    (layouts : L'.opened = L.opened) {n : Nat} {enter : List Instr} {leave : Nat → List Instr}
    (henter : ∀ i ∈ enter, FixedInstr S S' i) (hleave : ∀ n, ∀ i ∈ leave n, FixedInstr S S' i)
 (same : body'.bare = body.bare)
    (h : BodyCode L S n enter leave body blocks) (h' : BodyCode L' S' n enter leave body' blocks') :
    ∃ d, Forall₂ (AlikeBlock d S S') blocks blocks' := by
  obtain ⟨r, ls, ends, n₁, k₁, lowers, lines⟩ := h
  obtain ⟨r', ls', ends', n₁', k₁', lowers', lines'⟩ := h'
  -- the first label of a body is its last: the shift is that of the return label
  have code := lowers.bare
  have code' := lowers'.bare
  rw [layouts, Piece.bare, same] at code'
  have returnLabel : Moved (r' - r) (retLabel r) (retLabel r') := .numbered (by omega)
  obtain ⟨body, rfl, rfl, -⟩ := code.alike steady returnLabel .none (by omega) code'
  refine ⟨r' - r, alike_blocks ?_⟩
  rw [lines, lines']
  apply Forall₂.cons (.label .start)
  apply alike_append (alike_plain (alike_of_fixed henter))
  apply alike_append body
  apply alike_append (alike_rejoin _ returnLabel)
  exact .cons (.label returnLabel) (alike_plain (alike_of_fixed (hleave _)))

section Frames

variable {S S' : List Ir.StringLit}

theorem fixed_each {f : Nat → String × VarType → List Instr}
    (each : ∀ i v, ∀ j ∈ f i v, FixedInstr S S' j) {i : Nat} {vs : Vars} :
    ∀ j ∈ Code.each f i vs, FixedInstr S S' j := by
  induction vs generalizing i with
  | nil => simp [Code.each]
  | cons v vs ih => exact forall_mem_append.mpr ⟨each i v, ih⟩

theorem fixed_enter (h : Header) : ∀ i ∈ Code.enter h, FixedInstr S S' i := by
  have alloc (x : String) (i : Nat) (type : VarType) : FixedInstr S S' (Code.alloc x i type) :=
    ⟨fixed_temp, by simp [Code.alloc]⟩
  unfold Code.enter
  rw [forall_mem_append, forall_mem_append]
  refine ⟨⟨fixed_each ?_, fixed_each ?_⟩, fixed_each ?_⟩
  · intro i v
    unfold Code.enterParam
    rw [forall_mem_cons, forall_mem_singleton]
    refine ⟨alloc _ _ _, ?_⟩
    split
    · exact ⟨fixed_missing, by simp [Code.copy, Code.slot]⟩
    · exact ⟨fixed_missing, by simp [Code.store, Code.slot]⟩
  · intro i v
    exact forall_mem_singleton.mpr (alloc _ _ _)
  · intro i v
    unfold Code.enterOwn
    rw [forall_mem_cons, forall_mem_singleton]
    exact ⟨alloc _ _ _, fixed_missing, by simp [Code.store, Code.slot]⟩

theorem fixed_leave (h : Header) (n : Nat) : ∀ i ∈ Code.leave h n, FixedInstr S S' i := by
  unfold Code.leave
  split
  · exact forall_mem_singleton.mpr ⟨fixed_missing, by simp⟩
  · rw [forall_mem_cons, forall_mem_singleton]
    exact ⟨fixed_load fixed_temp n, fixed_missing, by simp⟩

end Frames

section Programs

variable {g : String} {o o' : Outline} {S S' : List Ir.StringLit}

theorem find?_sameHeaders (same : Forall₂ (SameHeader g) hs hs') (f : String) :
    (hs'.find? fun h => h.name == f).map Header.signature = (hs.find? fun h => h.name == f).map Header.signature := by
  induction same with
  | nil => rfl
  | cons first _ ih =>
    rw [find?_cons, find?_cons, first.name]
    split
    · rw [Option.map_some, Option.map_some, Header.signature, first.params, first.result]
      rfl
    · exact ih

/-- A layout shows no more of the routines than their headers. -/
theorem layout_opened (same : SameOutline g o o')
    (headers : Forall₂ (SameHeader g) seen seen') (slots : Vars) :
    (layout o' seen' slots).opened = (layout o seen slots).opened := by
  have routines : (o'.scope seen' slots).routine? = (o.scope seen slots).routine? :=
    funext fun f => find?_sameHeaders headers f
  have constants : (o'.scope seen' slots).constant? = (o.scope seen slots).constant? := by
    unfold Outline.scope
    rw [same.constants]
  have types : (o'.scope seen' slots).type? = (o.scope seen slots).type? := by
    unfold Outline.scope
    rw [same.globals]
  unfold Layout.opened layout
  rw [routines, constants, types]

theorem fixed_global (hS : Interned S) (hS' : Interned S') {name : String}
    (apart : ¬ "str".toList <+: name.toList) : Fixed S S' (.global name) := by
  refine ⟨nofun, ?_⟩
  intro l member same
  apply apart
  rw [Value.global.inj same]
  rcases mem_append.mp member with member | member
  · exact hS.starts _ (mem_map_of_mem member)
  · exact hS'.starts _ (mem_map_of_mem member)

theorem steady_layout (hS : Interned S) (hS' : Interned S') (seen : List Header)
    (slots : Vars) : Steady S S' (layout o seen slots).opened where
  address x := by
    change Fixed S S' (if x ∈ slots.map Prod.fst then _ else _)
    split
    · exact fixed_temp
    · exact fixed_global hS hS' (by simp)
  routine f := fixed_global hS hS' (by simp)
  printf := fixed_global hS hS' (by decide)
  scanf := fixed_global hS hS' (by decide)

/-- Definitions of one routine in programs that differ at most in the locals and the body of `g`. -/
structure SameDefinition (g : String) (d d' : Definition) : Prop where
  seen : Forall₂ (SameHeader g) d.seen d'.seen
  header : SameHeader g d.header d'.header
  other : d.header.name ≠ g
  body : d'.body.bare = d.body.bare

/-- The definitions of routines other than `g`. -/
def othersOf (g : String) (ds : List Definition) : List Definition := ds.filter fun d => d.header.name ≠ g

theorem sameDefinitions (same : Forall₂ (SameHeader g) hs hs')
 (sameBefore : Forall₂ (SameHeader g) before before') :
    Forall₂ (SameDefinition g) (othersOf g (definitions before hs)) (othersOf g (definitions before' hs')) := by
  induction same generalizing before before' with
  | nil => exact .nil
  | @cons h h' hs hs' first _ ih =>
    have sameSeen : Forall₂ (SameHeader g) (before ++ [h]) (before' ++ [h']) := rel_append sameBefore (.cons first .nil)
    unfold definitions othersOf
    rw [filter_append, filter_append]
    refine rel_append ?_ (ih sameSeen)
    by_cases own : h.name = g
    · cases h.body? <;> cases h'.body? <;> simp [own, first.name]
    · have bodies := first.body own
      cases body : h.body? with
      | none =>
        rw [body, Option.map_none, Option.map_eq_none_iff] at bodies
        simp [bodies]
      | some b =>
        rw [body, Option.map_some, Option.map_eq_some_iff] at bodies
        obtain ⟨b', body', same⟩ := bodies
        simpa [body', own, first.name] using SameDefinition.mk sameSeen first own same

theorem RoutineCode.alike (same : SameOutline g o o') (hS : Interned S) (hS' : Interned S')
    (sameDefinition : SameDefinition g d d') (code : RoutineCode o S d f)
    (code' : RoutineCode o' S' d' f') : ∃ shift, AlikeFunc shift S S' f f' := by
  obtain ⟨seen, h, body⟩ := d
  obtain ⟨seen', ⟨_, _, _, _, body?'⟩, body'⟩ := d'
  obtain ⟨sameSeen, ⟨rfl, rfl, rfl, locals, -⟩, other, sameBody⟩ := sameDefinition
  cases locals other
  obtain ⟨shift, blocks⟩ := code.blocks.alike (steady_layout hS hS' seen h.slots)
    (layout_opened same sameSeen h.slots) (fixed_enter h) (fixed_leave h) sameBody code'.blocks
  exact ⟨shift, code'.name.trans code.name.symm, code'.params.trans code.params.symm,
    code'.result.trans code.result.symm, code'.exported.trans code.exported.symm, blocks⟩

theorem MainCode.alike (same : SameOutline g o o') (hS : Interned S) (hS' : Interned S')
    (code : MainCode o S f) (code' : MainCode o' S' f') : ∃ shift, AlikeFunc shift S S' f f' := by
  have leave : ∀ n : Nat, ∀ i ∈ (fun _ => [{ op := .ret, args := [.const 0] }] : Nat → List Instr) n,
      FixedInstr S S' i := fun _ => forall_mem_singleton.mpr ⟨fixed_missing, by simp⟩
  obtain ⟨shift, blocks⟩ := code.blocks.alike (steady_layout hS hS' o.headers [])
    (layout_opened same same.headers []) (by simp) leave same.main code'.blocks
  exact ⟨shift, code'.name.trans code.name.symm, code'.params.trans code.params.symm,
    code'.result.trans code.result.symm, code'.exported.trans code.exported.symm, blocks⟩

/-- The functions of a program other than that of routine `g`. -/
def functionsBut (g : String) (p : Ir.Program) : List Ir.Func := p.funcs.filter fun f => f.name ≠ "pas_" ++ g

theorem routineCodes_filter (h : Forall₂ (RoutineCode o S) ds fs) :
    Forall₂ (RoutineCode o S) (othersOf g ds) (fs.filter fun f => f.name ≠ "pas_" ++ g) := by
  apply rel_filter _ h
  intro d f code
  simp [code.name]

theorem forall₂_square {α α' β β' : Type} {R : α → β → Prop} {R' : α' → β' → Prop} {T : α → α' → Prop}
    {Q : β → β' → Prop} (side : ∀ a a' b b', T a a' → R a b → R' a' b' → Q b b') {as : List α} {as' : List α'}
    {bs : List β} {bs' : List β'} (top : Forall₂ T as as') (left : Forall₂ R as bs)
    (right : Forall₂ R' as' bs') : Forall₂ Q bs bs' := by
  induction top generalizing bs bs' with
  | nil =>
    cases left
    cases right
    exact .nil
  | cons first _ ih =>
    cases left with
    | cons code later =>
      cases right with
      | cons code' later' => exact .cons (side _ _ _ _ first code code') (ih later later')

theorem Compiled.alike (same : SameOutline g o o') (compiled : Compiled o p)
    (compiled' : Compiled o' p') : p'.globals = p.globals ∧ p'.externs = p.externs ∧
      Forall₂ (fun f f' => ∃ shift, AlikeFunc shift p.strings p'.strings f f') (functionsBut g p)
        (functionsBut g p') := by
  refine ⟨by rw [compiled'.globals, compiled.globals, same.globals],
    compiled'.externs.trans compiled.externs.symm, ?_⟩
  obtain ⟨fs, main, funcs, codes, mainCode⟩ := compiled.funcs
  obtain ⟨fs', main', funcs', codes', mainCode'⟩ := compiled'.funcs
  have others : Forall₂ (fun f f' => ∃ shift, AlikeFunc shift p.strings p'.strings f f')
      (fs.filter fun f => f.name ≠ "pas_" ++ g) (fs'.filter fun f => f.name ≠ "pas_" ++ g) := by
    apply forall₂_square _ (sameDefinitions same.headers .nil) (routineCodes_filter codes) (routineCodes_filter codes')
    intro d d' f f' sameDefinition code code'
    exact code.alike same compiled.strings compiled'.strings sameDefinition code'
  have mains := MainCode.alike same compiled.strings compiled'.strings mainCode mainCode'
  have notOwn : "main" ≠ "pas_" ++ g := by
    intro same
    simpa using congrArg (fun s : String => s.toList.head?) same
  unfold functionsBut
  rw [funcs, funcs', filter_append, filter_append]
  refine rel_append others ?_
  simpa [mainCode.name, mainCode'.name, notOwn] using mains

end Programs

/-- Lowering is modular. Take two programs that were read and lowered, under any settings, and that have
the same declarations and headers in the same order and the same bodies, but for the locals and the body
of a routine `g`. They have the same data and C functions, and every function but that of `g`, the main
function included, is in both the same up to one shift of the numbers of its labels and up to labels of
strings that stand for the same text. -/
theorem lower_modular {g : String} {on on' : Switches Feature} {source source' : String} {t t' : Tree}
    (read : ofSource on source = .ok t) (read' : ofSource on' source' = .ok t')
    (same : (t'.without g).bare = (t.without g).bare) {c c' : Settings} {p p' : Ir.Program}
    (lowered : (lower c t).code = .ok p) (lowered' : (lower c' t').code = .ok p') :
    p'.globals = p.globals ∧ p'.externs = p.externs ∧
      Forall₂ (fun f f' => ∃ shift, AlikeFunc shift p.strings p'.strings f f') (functionsBut g p)
        (functionsBut g p') := by
  have isProgram := isProgram_of_ofSource read
  have isProgram' := isProgram_of_ofSource read'
  obtain ⟨o, outline, -, compiled, -⟩ := compiled_of_ok isProgram lowered
  obtain ⟨o', outline', -, compiled', -⟩ := compiled_of_ok isProgram' lowered'
  exact compiled.alike (sameOutline_of_without isProgram isProgram' same outline outline') compiled'

/-- A procedure `h` behind a procedure `g`. -/
def shortBefore : String :=
  "program p; procedure g; begin end; procedure h; begin while 1 do write('b') end; begin h end."

/-- The same, where `g` takes labels and a string. -/
def longBefore : String :=
  "program p; procedure g; begin if 1 then write('c') end;
  procedure h; begin while 1 do write('b') end; begin h end."

theorem before_compiles : ∃ t p, ofSource Feature.strict shortBefore = .ok t ∧
    (lower {} t).code = .ok p ∧ (functionsBut "g" p).map (·.name) = ["pas_h", "main"] :=
  exists_compiled (by decide +kernel)

theorem before_without :
    (ofSource Feature.strict longBefore).toOption.map (fun t => (t.without "g").print.map Token.fields) =
      (ofSource Feature.strict shortBefore).toOption.map fun t => (t.without "g").print.map Token.fields := by
  decide +kernel

theorem lower_modular_before : ∃ t t' p p', ofSource Feature.strict shortBefore = .ok t ∧
    ofSource Feature.strict longBefore = .ok t' ∧ (t'.without "g").bare = (t.without "g").bare ∧
    (lower {} t).code = .ok p ∧ (lower {} t').code = .ok p' ∧
    (functionsBut "g" p).map (·.name) = ["pas_h", "main"] ∧
    Forall₂ (fun f f' => ∃ shift, AlikeFunc shift p.strings p'.strings f f') (functionsBut "g" p)
      (functionsBut "g" p') := by
  obtain ⟨t, p, read, lowered, names⟩ := before_compiles
  obtain ⟨t', p', read', lowered', -⟩ : ∃ t p, ofSource Feature.strict longBefore = .ok t ∧
      (lower {} t).code = .ok p ∧ () = () := exists_compiled (by decide +kernel)
  have print := before_without
  rw [read, read'] at print
  have fits := wellFormed_of_isProgram (isProgram_of_ofSource read)
  have fits' := wellFormed_of_isProgram (isProgram_of_ofSource read')
  have same := bare_eq_of_print (wellFormed_without "g" fits) (wellFormed_without "g" fits')
    (map_injective_iff.mpr Token.fields_injective (Option.some.inj print))
  obtain ⟨-, -, alike⟩ := lower_modular read read' same lowered lowered'
  exact ⟨t, t', p, p', read, read', same, lowered, lowered', names, alike⟩

end Lower

end MiniPascal
