import MiniPascal.Proofs.Lower.Acceptance
import MiniPascal.Proofs.Lower.Instructions

/-!
# Linkage

A program is closed: whatever its instructions name is there, under a name of its own, and a call
fits the function that it calls. A call is lowered from the first declaration of a routine and the
function from the one with the body, so the second part rests on the agreement of all declarations
of a routine.
-/

open List

namespace MiniPascal.Ir

/-- The arguments of an instruction, but for the callee of a call. -/
def Instr.operands (i : Instr) : List Value := if i.op = .call then i.args.tail else i.args

/-- Everything that an instruction names is part of a program, and a call fits the function that it
calls. -/
structure Program.Links (p : Program) (i : Instr) : Prop where
  operands : ∀ name, .global name ∈ i.operands → name ∈ p.globals.map (·.name) ∨ name ∈ p.strings.map (·.label)
  callee : i.op = .call → ∃ name args, i.args = .global name :: args ∧
    (name ∈ p.funcs.map (·.name) ∨ name ∈ p.externs.map (·.name))
  call : i.op = .call → ∀ f ∈ p.funcs, ∀ args, i.args = .global f.name :: args →
    args.length = f.params.length ∧ i.argTypes = f.params.map (·.type) ∧
    (i.result ≠ .missing ↔ f.result ≠ .none)

/-- A program is closed and consistently linked. A block copy may be compiled to a call of
`memcpy`. -/
structure Program.Linked (p : Program) : Prop where
  symbols : (p.globals.map (·.name) ++ p.strings.map (·.label) ++ p.funcs.map (·.name) ++
    p.externs.map (·.name) ++ ["memcpy"]).Nodup
  externs : p.externs.map (·.name) = ["printf", "scanf"]
  values : (p.strings.map (·.value)).Nodup
  labels : ∀ (i : Nat) (l : StringLit), p.strings[i]? = some l → l.label = "str" ++ toString i
  instrs : ∀ f ∈ p.funcs, ∀ i ∈ f.instrs, p.Links i

namespace Program.Links

variable {p : Program} {i : Instr}

/-- What an instruction names is data or a function. -/
theorem symbol (h : p.Links i) (arg : .global name ∈ i.args) : name ∈ p.symbols := by
  by_cases isCall : i.op = .call
  · obtain ⟨callee, args, form, declared⟩ := h.callee isCall
    have operands := h.operands name
    rw [Instr.operands, if_pos isCall, form] at operands
    rw [form, mem_cons] at arg
    rcases arg with same | later
    · cases same
      exact mem_append_right _ (mem_append.mpr declared)
    · exact mem_append_left _ (mem_append.mpr (operands later))
  · have operands := h.operands name
    rw [Instr.operands, if_neg isCall] at operands
    exact mem_append_left _ (mem_append.mpr (operands arg))

/-- Outside of calls it is enough to look at the arguments. -/
theorem of_args (noCall : (i.op == .call) = false)
    (named : ∀ name, .global name ∈ i.args → name ∈ p.globals.map (·.name)) : p.Links i where
  operands name member := by
    rw [Instr.operands, if_neg (beq_eq_false_iff_ne.mp noCall)] at member
    exact .inl (named name member)
  callee isCall := absurd isCall (beq_eq_false_iff_ne.mp noCall)
  call isCall := absurd isCall (beq_eq_false_iff_ne.mp noCall)

/-- A call of something that is no function of the program. -/
theorem of_foreign {callee : String} {args : List Value} (isCall : i.op = .call)
    (form : i.args = .global callee :: args) (declared : callee ∈ p.externs.map (·.name))
    (foreign : callee ∉ p.funcs.map (·.name)) (named : ∀ name, .global name ∈ args →
      name ∈ p.globals.map (·.name) ∨ name ∈ p.strings.map (·.label)) :
    p.Links i where
  operands name member := by
    rw [Instr.operands, if_pos isCall, form] at member
    exact named name member
  callee _ := ⟨callee, args, form, .inr declared⟩
  call _ f member args' form' := by
    obtain ⟨same, -⟩ := List.cons.inj (form.symm.trans form')
    rw [Value.global.inj same] at foreign
    exact absurd (mem_map_of_mem member) foreign

end Program.Links

end MiniPascal.Ir

namespace MiniPascal.Lower

open Ir (Value Instr Ty)
open Static (Signature Header Outline)

/-! ## Names -/

theorem nodup_map_append {α : Type} {f : α → String} {as : List α}
    (distinct : (as.map f).Nodup) : (as.map fun a => word ++ f a).Nodup := by
  have mapped : (as.map fun a => word ++ f a) = (as.map f).map (word ++ ·) := by simp
  rw [mapped]
  exact distinct.map fun x y same => (String.append_right_inj word).mp same

theorem starts_append {α : Type} {f : α → String} {as : List α} :
    ∀ x ∈ as.map fun a => word ++ f a, word.toList <+: x.toList := by
  intro x member
  obtain ⟨a, -, rfl⟩ := mem_map.mp member
  rw [String.toList_append]
  exact prefix_append ..

/-- Neither of two words starts with the other. -/
def Apart (v w : String) : Prop := ¬ v.toList <+: w.toList ∧ ¬ w.toList <+: v.toList

instance (v w : String) : Decidable (Apart v w) := inferInstanceAs (Decidable (_ ∧ _))

/-- Names are different if they are within their groups, and the groups start with words of their
own. -/
theorem nodup_of_starts (groups : List (String × List String))
    (apart : (groups.map Prod.fst).Pairwise Apart) (distinct : ∀ g ∈ groups, g.2.Nodup)
    (starts : ∀ g ∈ groups, ∀ x ∈ g.2, g.1.toList <+: x.toList) : (groups.flatMap Prod.snd).Nodup := by
  induction groups with
  | nil => exact nodup_nil
  | cons g groups ih =>
    rw [map_cons, pairwise_cons] at apart
    obtain ⟨first, later⟩ := forall_mem_cons.mp distinct
    obtain ⟨starting, startingLater⟩ := forall_mem_cons.mp starts
    refine List.Nodup.append first (ih apart.2 later startingLater) fun x here there => ?_
    obtain ⟨g', inside, member⟩ := mem_flatMap.mp there
    obtain ⟨notLeft, notRight⟩ := apart.1 g'.1 (mem_map_of_mem inside)
    rcases prefix_or_prefix_of_prefix (starting x here) (startingLater g' inside x member) with left | right
    · exact notLeft left
    · exact notRight right

theorem definitions_nodup
    (once : hs.Pairwise fun h h' => h.name = h'.name → h.body?.isSome = true → h'.body? = none) :
    ((definitions before hs).map (·.header.name)).Nodup := by
  induction hs generalizing before with
  | nil => exact nodup_nil
  | cons h hs ih =>
    obtain ⟨first, later⟩ := pairwise_cons.mp once
    cases bodied : h.body? with
    | none => simpa [definitions, bodied] using ih later
    | some body =>
      simp only [definitions, bodied, Option.map_some, Option.toList_some, singleton_append, map_cons]
      refine nodup_cons.mpr ⟨fun member => ?_, ih later⟩
      obtain ⟨d, inside, same⟩ := mem_map.mp member
      obtain ⟨pre, h', post, body', split, bodied', rfl⟩ := mem_definitions.mp inside
      have absent := first h' (by simp [split]) same.symm (by simp [bodied])
      rw [bodied'] at absent
      cases absent

variable {strings : List Ir.StringLit}

theorem map_name_of_codes
    (codes : Forall₂ (RoutineCode o strings) ds fs) : fs.map (·.name) = ds.map fun d => "pas_" ++ d.header.name := by
  induction codes with
  | nil => rfl
  | cons code _ ih => rw [map_cons, map_cons, code.name, ih]

theorem Interned.starts (h : Interned strings) : ∀ x ∈ strings.map (·.label), "str".toList <+: x.toList := by
  intro x member
  obtain ⟨l, inside, rfl⟩ := mem_map.mp member
  obtain ⟨i, here⟩ := getElem?_of_mem inside
  rw [h.label i l here, String.toList_append]
  exact prefix_append ..

theorem Interned.labels_nodup (h : Interned strings) : (strings.map (·.label)).Nodup := by
  rw [nodup_iff_getElem?_ne_getElem?]
  intro i j less bound same
  rw [length_map] at bound
  have first := getElem?_eq_getElem (Nat.lt_trans less bound)
  have second := getElem?_eq_getElem bound
  rw [getElem?_map, getElem?_map, first, second] at same
  have labels : strings[i].label = strings[j].label := Option.some.inj same
  rw [h.label i _ first, h.label j _ second, String.append_right_inj] at labels
  have := toString_nat_inj labels
  omega

section Program

variable {o : Outline} {p : Ir.Program} {multi : Bool} (compiled : Compiled o p)

include compiled

theorem Compiled.func_names : p.funcs.map (·.name) =
    ((definitions [] o.headers).map fun d => "pas_" ++ d.header.name) ++ ["main"] := by
  obtain ⟨fs, main, funcs, routines, code⟩ := compiled.funcs
  rw [funcs, map_append, map_name_of_codes routines, map_singleton, code.name]

theorem Compiled.extern_names : p.externs.map (·.name) = ["printf", "scanf"] := by
  rw [compiled.externs]
  rfl

theorem Compiled.printf : "printf" ∈ p.externs.map (·.name) := by simp [compiled.extern_names]

theorem Compiled.scanf : "scanf" ∈ p.externs.map (·.name) := by simp [compiled.extern_names]

variable (correct : o.Correct multi)

include correct

/-- No two symbols have the same name. -/
theorem Compiled.symbols_nodup : (p.symbols ++ ["memcpy"]).Nodup := by
  have globals : p.globals.map (·.name) = o.globals.map fun g => "pasg_" ++ g.1 := by
    rw [compiled.globals, map_map]
    rfl
  have apart : ["pasg_", "str", "pas_", "main", "printf", "scanf", "memcpy"].Pairwise Apart := by decide
  have grouped := nodup_of_starts [("pasg_", o.globals.map fun g => "pasg_" ++ g.1), ("str", p.strings.map (·.label)),
    ("pas_", (definitions [] o.headers).map fun d => "pas_" ++ d.header.name), ("main", ["main"]),
    ("printf", ["printf"]), ("scanf", ["scanf"]), ("memcpy", ["memcpy"])] apart ?_ ?_
  · rw [Ir.Program.symbols, globals, compiled.func_names, compiled.extern_names]
    simpa using grouped
  · simp only [forall_mem_cons]
    exact ⟨nodup_map_append correct.globals, compiled.strings.labels_nodup,
      nodup_map_append (definitions_nodup correct.once), by simp⟩
  · simp only [forall_mem_cons]
    exact ⟨starts_append, compiled.strings.starts, starts_append, by simp⟩

theorem Compiled.funcs_nodup : (p.funcs.map (·.name)).Nodup := by
  exact (compiled.symbols_nodup correct).of_append_left.of_append_right.of_append_left

theorem Compiled.foreign (declared : name ∈ p.externs.map (·.name)) : name ∉ p.funcs.map (·.name) := by
  have apart := (compiled.symbols_nodup correct).of_append_left.of_append_right
  exact fun member => disjoint_of_nodup_append apart member declared

/-- Two functions of one name are the same. -/
theorem Compiled.func_unique (hf : f ∈ p.funcs) (hg : g ∈ p.funcs) (same : f.name = g.name) : f = g :=
  inj_on_of_nodup_map (compiled.funcs_nodup correct) hf hg same

/-- What is called has a function, whose declaration agrees with the one in sight of the call. -/
theorem Compiled.callee {f : Ir.Func}
    (scene : Scene o f seen slots)
    (callable : (layout o seen slots).Callable g sig) :
    ∃ d ∈ definitions [] o.headers, ∃ f ∈ p.funcs, f.name = "pas_" ++ g ∧ RoutineCode o p.strings d f ∧
      d.header.params.map Prod.snd = sig.params ∧
      (d.header.result = .void ↔ sig.result = .void) := by
  obtain ⟨⟨h, declared, name, rfl⟩, h', declared', name', bodied⟩ := scene.callable_cases callable
  obtain ⟨body, hbody⟩ := Option.isSome_iff_exists.mp bodied
  obtain ⟨pre, post, split⟩ := append_of_mem declared'
  have member : ⟨[] ++ pre ++ [h'], h', body⟩ ∈ definitions [] o.headers :=
    mem_definitions.mpr ⟨pre, h', post, body, split, hbody, rfl⟩
  obtain ⟨f, inside, code⟩ := compiled.function member
  have agree := correct.agree h' declared' h declared (name'.trans name.symm)
  exact ⟨_, member, f, inside, by rw [code.name, name'], code, agree⟩

end Program

/-! ## Operands -/

theorem IsWord.ne_global {Has : Ir.Temp → Ty → Prop} (h : IsWord Has v)
    (name : String) : v ≠ .global name := by
  cases h <;> exact nofun

theorem Literal.mem_labels (h : Literal strings text v)
    (same : v = .global name) : name ∈ strings.map (·.label) := by
  obtain ⟨label, member, rfl⟩ := h
  cases same
  exact mem_map.mpr ⟨_, member, rfl⟩

section Links

variable {o : Outline} {p : Ir.Program} {multi : Bool} (compiled : Compiled o p) (correct : o.Correct multi)
  {f : Ir.Func} {seen : List Header} {slots : Vars}
  (scene : Scene o f seen slots)

include compiled

variable {name : String} {Has : Ir.Temp → Ty → Prop} {vs : List (Value × Ty)} {i : Instr}

theorem address_global (holds : (layout o seen slots).Holds x type)
    (same : (layout o seen slots).address x = .global name) : name ∈ p.globals.map (·.name) := by
  rcases Scene.address_cases o seen holds with ⟨i, slot, -⟩ | ⟨global, declared⟩
  · cases slot.symm.trans same
  · cases global.symm.trans same
    rw [compiled.globals, map_map]
    exact mem_map.mpr ⟨(x, type), declared, rfl⟩

theorem cell_global (cell : IsCell (layout o seen slots) Has v) (same : v = .global name) :
    name ∈ p.globals.map (·.name) := by
  cases cell with
  | var holds => exact address_global compiled holds same
  | element => cases same

theorem passed_global (passed : Forall₂ (Passed (layout o seen slots) Has) params vs)
    (member : .global name ∈ vs.map Prod.fst) : name ∈ p.globals.map (·.name) := by
  obtain ⟨⟨v, type⟩, inside, same⟩ := mem_map.mp member
  obtain ⟨param, -, h⟩ := exists_of_forall₂ passed.flip inside
  cases h with
  | word _ word => exact absurd same (word.ne_global name)
  | array _ holds => exact address_global compiled holds same

omit compiled in
theorem Passed.types (passed : Forall₂ (Passed L Has) params vs) :
    vs.map Prod.snd = params.map fun param => if param.isArray then Ty.address else .word := by
  induction passed with
  | nil => rfl
  | cons first _ ih =>
    rw [map_cons, map_cons, ih]
    cases first with
    | word isWord => simp [isWord]
    | array isArray => simp [isArray]

include correct scene

/-- A call fits the function that is called. -/
theorem links_call
    (callable : (layout o seen slots).Callable g sig) (result : result?.isSome = true ↔ sig.result ≠ .void)
    (passed : Forall₂ (Passed (layout o seen slots) Has) sig.params vs) : p.Links (Code.call g result? vs) := by
  obtain ⟨d, -, callee, inside, name, code, params, void⟩ := compiled.callee correct scene callable
  refine ⟨fun name member => .inl (passed_global compiled passed member), fun _ => ?_, fun _ f member args same => ?_⟩
  · exact ⟨_, _, rfl, .inl (mem_map.mpr ⟨callee, inside, name⟩)⟩
  · obtain ⟨sameName, rfl⟩ := List.cons.inj same
    obtain rfl : callee = f := compiled.func_unique correct inside member (name.trans (Value.global.inj sameName))
    have types : callee.params.map (·.type) = sig.params.map fun param =>
        if param.isArray then Ty.address else .word := by
      rw [code.params, ← params, map_map, map_map]
      rfl
    refine ⟨?_, ?_, ?_⟩
    · have length := congrArg List.length types
      rw [length_map, length_map] at length
      rw [length_map, length, passed.length_eq]
    · exact (Passed.types passed).trans types.symm
    · have kind : callee.result ≠ .none ↔ sig.result ≠ .void := by
        rw [code.result, ne_eq sig.result, ← void]
        split
        · next isVoid => simp [isVoid]
        · next function => simp [function]
      rw [kind, ← result]
      cases result? <;> simp [Code.call, Code.temp]

theorem links_issued (issued : Issued (layout o seen slots) p.strings f.Assigns i) : p.Links i := by
  cases issued with
  | load cell =>
    refine .of_args rfl fun name member => ?_
    exact cell_global compiled cell (mem_singleton.mp member).symm
  | store cell word =>
    refine .of_args rfl fun name member => ?_
    rcases mem_cons.mp member with same | last
    · exact absurd same.symm (word.ne_global name)
    · exact cell_global compiled cell (mem_singleton.mp last).symm
  | copy holds _ holds' =>
    refine .of_args rfl fun name member => ?_
    simp only [Code.copy, mem_cons, not_mem_nil, or_false, reduceCtorEq] at member
    rcases member with source | target
    · exact address_global compiled holds' source.symm
    · exact address_global compiled holds target.symm
  | compute known left right =>
    refine .of_args (beq_eq_false_iff_ne.mpr (operation?_simple known).noCall) fun name member => ?_
    rcases mem_cons.mp member with same | last
    · exact absurd same.symm (left.ne_global name)
    · exact absurd (mem_singleton.mp last).symm (right.ne_global name)
  | extend word =>
    refine .of_args rfl fun name member => ?_
    exact absurd (mem_singleton.mp member).symm (word.ne_global name)
  | scale => exact .of_args rfl fun name member => by simp [Code.compute] at member
  | shift holds =>
    refine .of_args rfl fun name member => ?_
    simp only [Code.compute, mem_cons, not_mem_nil, or_false, reduceCtorEq] at member
    exact address_global compiled holds member.symm
  | call callable result passed => exact links_call compiled correct scene callable result passed
  | print format values =>
    refine .of_foreign rfl rfl compiled.printf (compiled.foreign correct compiled.printf)
      fun name member => ?_
    rcases mem_cons.mp member with same | last
    · exact .inr (format.mem_labels same.symm)
    · obtain ⟨v, inside, same⟩ := mem_map.mp last
      cases values v (Option.mem_toList.mp inside) with
      | word word => exact absurd same (word.ne_global name)
      | text literal => exact .inr (literal.mem_labels same)
  | scan format cell =>
    refine .of_foreign rfl rfl compiled.scanf (compiled.foreign correct compiled.scanf)
      fun name member => ?_
    rcases mem_cons.mp member with same | last
    · exact .inr (format.mem_labels same.symm)
    · exact .inl (cell_global compiled cell (mem_singleton.mp last).symm)
  | jump => exact .of_args rfl fun name member => by simp [Code.jump] at member
  | branch word =>
    refine .of_args rfl fun name member => ?_
    simp only [Code.branch, mem_cons, not_mem_nil, or_false, reduceCtorEq] at member
    exact absurd member.symm (word.ne_global name)

omit compiled correct scene in
theorem links_entered (entered : Entered h i) : p.Links i := by
  cases entered with
  | alloc => exact .of_args rfl fun name member => by simp [Code.alloc] at member
  | array => exact .of_args rfl fun name member => by simp [Code.copy, Code.slot] at member
  | word | clear => exact .of_args rfl fun name member => by simp [Code.store, Code.slot] at member

omit compiled correct scene in
theorem links_left (left : Left h Has i) : p.Links i := by
  cases left with
  | plain => exact .of_args rfl fun name member => absurd member not_mem_nil
  | fetch => exact .of_args rfl fun name member => by simp [Code.load, Code.slot] at member
  | value => exact .of_args rfl fun name member => by simp at member

end Links

/-- The code of a correct program is closed and consistently linked. -/
theorem Compiled.linked (compiled : Compiled o p)
    (correct : o.Correct multi) : p.Linked where
  symbols := by simpa only [Ir.Program.symbols, append_assoc] using compiled.symbols_nodup correct
  externs := compiled.extern_names
  values := compiled.strings.distinct
  labels := compiled.strings.label
  instrs f member i inside := by
    rcases compiled.instr_cases member inside with
      ⟨_, _, scene, body⟩ | ⟨_, -, -, front | behind⟩ | ⟨-, rfl⟩
    · exact links_issued compiled correct scene body
    · exact links_entered front
    · exact links_left behind
    · exact .of_args rfl fun name member => by simp at member

/-- What lowering returns is closed and consistently linked. -/
theorem lower_linked {on : Switches Feature} {source : String} {t : Tree} {c : Settings}
    {p : Ir.Program} (read : Tree.ofSource on source = .ok t)
    (ok : (lower c t).code = .ok p) : p.Linked := by
  obtain ⟨o, -, correct, compiled, -⟩ := compiled_of_ok (Tree.isProgram_of_ofSource read) ok
  exact compiled.linked correct

theorem lower_linked_sample : ∃ t p, Tree.ofSource Feature.strict sample = .ok t ∧
    (lower {} t).code = .ok p ∧ p.funcs.map (·.name) = ["pas_g", "pas_f", "main"] ∧
    p.Linked := by
  obtain ⟨t, p, read, ok, names⟩ := sample_compiles
  exact ⟨t, p, read, ok, names, lower_linked read ok⟩

end MiniPascal.Lower
