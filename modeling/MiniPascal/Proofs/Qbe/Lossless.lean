import MiniPascal.Proofs.Lower.Acceptance
import MiniPascal.Proofs.Lower.Instructions
import MiniPascal.Proofs.Qbe.Lines

/-!
# Nothing is lost in QBE text

The code of a correct program is legible: names come from identifiers, hints and numbers, and each
operation has the types that its word and its result show. So two programs with the same QBE text
are the same.
-/

open List

namespace MiniPascal.Lower

open Ir (Value Instr Ty Line)
open Static (Signature Header Outline)
open Qbe (Unbroken LegibleTemp LegibleValue LegibleResult LegibleInstr LegibleRow Form forms IsPassed)

/-! ## Names -/

theorem unbroken_numbered (h : Unbroken hint) (n : Nat) : Unbroken (numbered hint n) :=
  Qbe.unbroken_append.mpr ⟨Qbe.unbroken_append.mpr ⟨h, by decide⟩, Qbe.unbroken_nat n⟩

theorem unbroken_prefixed (h : Unbroken word) (name : IsName x) : Unbroken (word ++ x) :=
  Qbe.unbroken_append.mpr ⟨h, Qbe.unbroken_of_isName name⟩

theorem unbroken_hints : ∀ hint ∈ hints, Unbroken hint := by
  decide

/-- Labels are words. -/
theorem BodyCode.unbroken_label {L : Layout} {strings : List Ir.StringLit} {n : Nat} {enter : List Instr}
    {leave : Nat → List Instr} {body : Tree} {f : Ir.Func} (code : BodyCode L strings n enter leave body f.blocks)
    {l : String} (member : l ∈ f.labels) : Unbroken l := by
  obtain ⟨r, ls, ends, n', k', lowers, listed⟩ := code
  have label : l ∈ "start" :: (labelsOf ls ++ [retLabel r]) := by
    rw [Ir.labels_eq, Ir.Func.lines, listed] at member
    exact labelsOf_framed _ _ _ ▸ member
  rcases mem_cons.mp label with rfl | behind
  · decide
  · rcases mem_append.mp behind with inside | atEnd
    · obtain ⟨hint, j, rfl, known, -⟩ := lowers.opens.2.2 _ inside
      exact unbroken_numbered (unbroken_hints hint known) j
    · rw [mem_singleton.mp atEnd]
      exact unbroken_numbered (by decide) r

/-- The slots of a routine are named. -/
theorem isName_slot {o : Outline} (written : o.Written) (named : ∀ h ∈ o.headers, IsName h.name) {d : Definition}
    (defined : d ∈ definitions [] o.headers) : ∀ v ∈ d.header.slots, IsName v.1 := by
  obtain ⟨pre, h, post, body, split, -, rfl⟩ := mem_definitions.mp defined
  have declared : h ∈ o.headers := by simp [split]
  intro v member
  rw [Header.slots, mem_append, mem_append] at member
  rcases member with (param | here) | own
  · exact (written.params h declared v param).1
  · exact (written.locals h declared v here).1
  · unfold Header.own at own
    split at own
    · cases own
    · rw [mem_singleton.mp own]
      exact named h declared

/-! ## Results -/

variable {i : Instr}

theorem Issued.result {Has : Ir.Temp → Ty → Prop}
    (h : Issued L strings Has i) : LegibleResult i.result := by
  cases h with
  | load | compute | extend | scale | shift => exact .inr ⟨_, rfl, .numbered _⟩
  | store | copy | print | scan | jump | branch => exact .inl rfl
  | @call _ _ _ result? =>
    cases result? with
    | none => exact .inl rfl
    | some n => exact .inr ⟨_, rfl, .numbered n⟩

section Program

variable {o : Outline} {p : Ir.Program} {f : Ir.Func} (compiled : Compiled o p) (written : o.Written)
  (named : ∀ h ∈ o.headers, IsName h.name) (member : f ∈ p.funcs)

include compiled written named member

theorem Compiled.legibleResult {i : Instr} (inside : i ∈ f.instrs) : LegibleResult i.result := by
  rcases compiled.instr_cases member inside with ⟨seen, slots, -, issued⟩ | ⟨d, defined, -, around⟩ | ⟨-, rfl⟩
  · exact issued.result
  · rcases around with front | behind
    · cases front with
      | @alloc j v here =>
        have name := isName_slot written named defined v (mem_of_getElem? here)
        exact .inr ⟨_, rfl, .slot j name⟩
      | array | word | clear => exact .inl rfl
    · cases behind with
      | fetch => exact .inr ⟨_, rfl, .numbered _⟩
      | plain | value => exact .inl rfl
  · exact .inl rfl

theorem Compiled.legibleTemp (assigned : f.Assigns t type) : LegibleTemp t := by
  obtain ⟨i, inside, result, -⟩ := assigned
  rcases compiled.legibleResult written named member inside with missing | ⟨t', same, legible⟩
  · rw [missing] at result
    cases result
  · rw [result] at same
    cases same
    exact legible

end Program

/-! ## Instructions -/

theorem form_of_operation (known : operation? kind = some op) :
    (⟨op, true, .word, .word, 0⟩ : Form) ∈ forms := by
  cases kind <;> cases known <;> decide

/-- An instruction that is no call is legible if its form is known and its operands are legible. -/
theorem legible_of_args (known : decide (Form.of i ∈ forms ∧ i.op ≠ .call) = true) (untyped : i.argTypes = [])
    (result : LegibleResult i.result) (args : ∀ v ∈ i.args, LegibleValue v) : LegibleInstr i := by
  obtain ⟨form, op⟩ := of_decide_eq_true known
  refine ⟨form, result, args, ?_, ?_, fun isCall => absurd isCall op⟩
  · rw [untyped]
    exact forall_mem_nil _
  · rw [untyped, if_neg op]
    rfl

/-- A call is legible if its form is known and its callee and its arguments are legible. -/
theorem legible_of_call (known : decide (Form.of i ∈ forms) = true) (isCall : i.op = .call) {callee : Value}
    (vs : List (Value × Ty)) (args : i.args = callee :: vs.map Prod.fst)
    (argTypes : i.argTypes = vs.map Prod.snd) (result : LegibleResult i.result)
    (legible : LegibleValue callee) (passed : ∀ v ∈ vs, LegibleValue v.1 ∧ IsPassed v.2) : LegibleInstr i := by
  refine ⟨of_decide_eq_true known, result, ?_, ?_, ?_, fun _ => by simp [args]⟩
  · rw [args]
    exact forall_mem_cons.mpr ⟨legible, forall_mem_map.mpr fun v member => (passed v member).1⟩
  · rw [argTypes]
    exact forall_mem_map.mpr fun v member => (passed v member).2
  · rw [args, argTypes, if_pos isCall, tail_cons, length_map, length_map]

section Operands

variable {o : Outline} {strings : List Ir.StringLit} {f : Ir.Func} {seen : List Header}
  {slots : Vars} (scene : Scene o f seen slots) (written : o.Written)
  (named : ∀ h ∈ o.headers, IsName h.name) (interned : Interned strings)
  (assigned : ∀ t type, f.Assigns t type → LegibleTemp t) {v : Value}

include assigned in
theorem IsWord.legible (h : IsWord f.Assigns v) : LegibleValue v := by
  cases h with
  | const => exact .const _
  | temp has => exact .temp (assigned _ _ has)

include interned in
theorem Literal.legible (h : Literal strings text v) : LegibleValue v := by
  obtain ⟨label, inside, rfl⟩ := h
  obtain ⟨i, here⟩ := getElem?_of_mem inside
  have same : label = "str" ++ toString i := interned.label i _ here
  rw [same]
  exact .global (Qbe.unbroken_append.mpr ⟨by decide, Qbe.unbroken_nat i⟩)

include scene written assigned

theorem legible_address (holds : (layout o seen slots).Holds x type) :
    LegibleValue ((layout o seen slots).address x) := by
  rcases Scene.address_cases o seen holds with ⟨i, slot, here⟩ | ⟨global, inside⟩
  · rw [slot]
    exact .temp (assigned _ _ ⟨_, scene.allocated i _ here, rfl, rfl⟩)
  · rw [global]
    exact .global (unbroken_prefixed (by decide) (written.globals _ inside).1)

theorem IsCell.legible (h : IsCell (layout o seen slots) f.Assigns v) : LegibleValue v := by
  cases h with
  | var holds => exact legible_address scene written assigned holds
  | element has => exact .temp (assigned _ _ has)

theorem Passed.legible {vs : List (Value × Ty)}
    (h : Forall₂ (Passed (layout o seen slots) f.Assigns) params vs) : ∀ v ∈ vs, LegibleValue v.1 ∧ IsPassed v.2 := by
  induction h with
  | nil => exact forall_mem_nil _
  | cons first _ ih =>
    refine forall_mem_cons.mpr ⟨?_, ih⟩
    cases first with
    | word _ word => exact ⟨word.legible assigned, .inl rfl⟩
    | array _ holds => exact ⟨legible_address scene written assigned holds, .inr rfl⟩

include named interned

/-- An instruction of a body is legible if its labels are. -/
theorem Issued.legible {i : Instr} (h : Issued (layout o seen slots) strings f.Assigns i)
    (labels : ∀ l, .label l ∈ i.args → Unbroken l) : LegibleInstr i := by
  have result := h.result
  have address {x : String} {type : VarType} (holds : (layout o seen slots).Holds x type) :=
    legible_address scene written assigned holds
  cases h with
  | load cell =>
    have cell := cell.legible scene written assigned
    exact legible_of_args rfl rfl result (forall_mem_singleton.mpr cell)
  | store cell word =>
    have cell := cell.legible scene written assigned
    have word := word.legible assigned
    exact legible_of_args rfl rfl result (by simp [Code.store, cell, word])
  | copy holds _ holds' =>
    exact legible_of_args rfl rfl result (by simp [Code.copy, address holds, address holds', LegibleValue.const])
  | @compute _ op _ _ _ known left right =>
    have form := form_of_operation known
    have noCall : op ≠ .call := by
      rintro rfl
      exact absurd form (by decide)
    have left := left.legible assigned
    have right := right.legible assigned
    exact legible_of_args (decide_eq_true ⟨form, noCall⟩) rfl result (by simp [Code.compute, left, right])
  | extend word =>
    have word := word.legible assigned
    exact legible_of_args rfl rfl result (forall_mem_singleton.mpr word)
  | scale has =>
    have index := LegibleValue.temp (assigned _ _ has)
    exact legible_of_args rfl rfl result (by simp [Code.compute, index, LegibleValue.const])
  | shift holds has =>
    have index := LegibleValue.temp (assigned _ _ has)
    exact legible_of_args rfl rfl result (by simp [Code.compute, index, address holds])
  | @call g _ vs result? callable _ passed =>
    obtain ⟨⟨h, declared, rfl, -⟩, -⟩ := scene.callable_cases callable
    have callee : LegibleValue (.global ("pas_" ++ h.name)) :=
      .global (unbroken_prefixed (by decide) (named h declared))
    have arguments := Passed.legible scene written assigned passed
    cases result? with
    | none | some n => exact legible_of_call rfl rfl vs rfl rfl result callee arguments
  | @print _ value format literal printed =>
    have arguments : ∀ v ∈ (format, Ty.address) :: value.toList, LegibleValue v.1 ∧ IsPassed v.2 := by
      refine forall_mem_cons.mpr ⟨⟨literal.legible interned, .inr rfl⟩, fun v inside => ?_⟩
      cases printed v (Option.mem_toList.mp inside) with
      | word word => exact ⟨word.legible assigned, .inl rfl⟩
      | text literal => exact ⟨literal.legible interned, .inr rfl⟩
    exact legible_of_call rfl rfl ((format, Ty.address) :: value.toList) rfl rfl result (.global (by decide)) arguments
  | @scan _ a format literal cell =>
    have arguments : ∀ v ∈ [(format, Ty.address), (a, Ty.address)], LegibleValue v.1 ∧ IsPassed v.2 :=
      forall_mem_cons.mpr ⟨⟨literal.legible interned, .inr rfl⟩,
        forall_mem_singleton.mpr ⟨cell.legible scene written assigned, .inr rfl⟩⟩
    exact legible_of_call rfl rfl [(format, Ty.address), (a, Ty.address)] rfl rfl result (.global (by decide)) arguments
  | @jump l =>
    have target := labels l (by simp [Code.jump])
    exact legible_of_args rfl rfl result (forall_mem_singleton.mpr (.label target))
  | @branch _ yes no word =>
    have word := word.legible assigned
    have target := labels yes (by simp [Code.branch])
    have other := labels no (by simp [Code.branch])
    exact legible_of_args rfl rfl result (by simp [Code.branch, word, LegibleValue.label, target, other])

end Operands

/-! ## Programs -/

section Programs

variable {o : Outline} {p : Ir.Program} (compiled : Compiled o p) (written : o.Written)
  (named : ∀ h ∈ o.headers, IsName h.name) {f : Ir.Func}

theorem Entered.legible {h : Header} (entered : Entered h i) (slots : ∀ v ∈ h.slots, IsName v.1) : LegibleInstr i := by
  have slot {j : Nat} {v : String × VarType} (here : h.slots[j]? = some v) : LegibleValue (Code.slot v.1 j) :=
    .temp (.slot j (slots v (mem_of_getElem? here)))
  have param {j : Nat} {v : String × VarType} (here : h.params[j]? = some v) :
      LegibleValue (.temp (parameterTemp v.1)) :=
    .temp (.parameter (slots v (mem_of_getElem? (slots_param here))))
  cases entered with
  | @alloc j v here =>
    exact legible_of_args rfl rfl
      (.inr ⟨_, rfl, .slot j (slots v (mem_of_getElem? here))⟩) (forall_mem_singleton.mpr (.const _))
  | array here =>
    exact legible_of_args rfl rfl (.inl rfl)
      (by simp [Code.copy, param here, slot (slots_param here), LegibleValue.const])
  | word here =>
    exact legible_of_args rfl rfl (.inl rfl) (by simp [Code.store, param here, slot (slots_param here)])
  | clear function =>
    exact legible_of_args rfl rfl (.inl rfl) (by simp [Code.store, slot (own_slot function), LegibleValue.const])

theorem legible_ret {args : List Value} (legible : ∀ v ∈ args, LegibleValue v) : LegibleInstr { op := .ret, args } :=
  legible_of_args rfl rfl (.inl rfl) legible

theorem Left.legible {h : Header} (left : Left h f.Assigns i) (slots : ∀ v ∈ h.slots, IsName v.1)
    (assigned : ∀ t type, f.Assigns t type → LegibleTemp t) : LegibleInstr i := by
  cases left with
  | plain => exact legible_ret (forall_mem_nil _)
  | fetch function =>
    have own : LegibleValue (Code.slot h.name (Code.ownIndex h)) :=
      .temp (.slot _ (slots _ (mem_of_getElem? (own_slot function))))
    exact legible_of_args rfl rfl (.inr ⟨_, rfl, .numbered _⟩) (forall_mem_singleton.mpr own)
  | value _ has => exact legible_ret (forall_mem_singleton.mpr (.temp (assigned _ _ has)))

include compiled

theorem Compiled.unbroken_label (member : f ∈ p.funcs) {l : String} (label : l ∈ f.labels) : Unbroken l := by
  rcases compiled.cases member with main | ⟨d, -, code⟩
  · exact main.blocks.unbroken_label label
  · exact code.blocks.unbroken_label label

include written named

theorem Compiled.legibleInstr (member : f ∈ p.funcs) (inside : i ∈ f.instrs) : LegibleInstr i := by
  -- an operand is assigned by some instruction, and it is legible as the result of that one
  have assigned (t : Ir.Temp) (type : Ty) (h : f.Assigns t type) : LegibleTemp t :=
    compiled.legibleTemp written named member h
  have labels (l : String) (target : .label l ∈ i.args) : Unbroken l :=
    compiled.unbroken_label member ((compiled.wellFormed written f member).targets i inside l target)
  rcases compiled.instr_cases member inside with ⟨seen, slots, scene, issued⟩ | ⟨d, defined, -, around⟩ | ⟨-, rfl⟩
  · exact issued.legible scene written named compiled.strings assigned labels
  · have slots := isName_slot written named defined
    rcases around with front | behind
    · exact front.legible slots
    · exact behind.legible slots assigned
  · exact legible_ret (forall_mem_singleton.mpr (.const 0))

theorem Compiled.legibleHead (member : f ∈ p.funcs) : LegibleRow (.head { f with blocks := [] }) := by
  rcases compiled.cases member with main | ⟨d, defined, code⟩
  · refine .head ?_ (.inr main.result) ?_ rfl
    · rw [main.name]
      decide
    · rw [main.params]
      exact forall_mem_nil _
  · obtain ⟨pre, h, post, body, split, -, rfl⟩ := mem_definitions.mp defined
    have declared : h ∈ o.headers := by simp [split]
    refine .head ?_ ?_ ?_ rfl
    · rw [code.name]
      exact unbroken_prefixed (by decide) (named h declared)
    · rw [code.result]
      split
      · exact .inl rfl
      · exact .inr rfl
    · rw [code.params]
      refine forall_mem_map.mpr fun v inside => ?_
      refine ⟨?_, v.1, (written.params h declared v inside).1, rfl⟩
      unfold paramOf IsPassed
      split
      · exact .inr rfl
      · exact .inl rfl

/-- The code of a correct program is known by its text. -/
theorem Compiled.legible (words : p.wordSize = 8) : Qbe.Legible p := by
  refine ⟨words, fun r member => ?_⟩
  rw [Qbe.rows, mem_append, mem_append] at member
  rcases member with data | text | code
  · obtain ⟨d, inside, rfl⟩ := mem_map.mp data
    rw [compiled.globals] at inside
    obtain ⟨g, declared, rfl⟩ := mem_map.mp inside
    exact .data (unbroken_prefixed (by decide) (written.globals g declared).1)
  · unfold Qbe.stringRows at text
    split at text
    · cases text
    · rcases mem_cons.mp text with rfl | text
      · exact .gap
      · obtain ⟨l, inside, rfl⟩ := mem_map.mp text
        obtain ⟨i, here⟩ := getElem?_of_mem inside
        refine .text ?_
        rw [compiled.strings.label i l here]
        exact Qbe.unbroken_append.mpr ⟨by decide, Qbe.unbroken_nat i⟩
  · obtain ⟨f, member, inside⟩ := mem_flatMap.mp code
    simp only [Qbe.funcRows, mem_cons, mem_append, mem_map, not_mem_nil, or_false] at inside
    rcases inside with rfl | rfl | ⟨l, listed, rfl⟩ | rfl
    · exact .gap
    · exact compiled.legibleHead written named member
    · cases l with
      | label l =>
        have label : l ∈ f.labels := by
          rw [Ir.labels_eq]
          exact mem_filterMap.mpr ⟨_, listed, rfl⟩
        exact .label (compiled.unbroken_label member label)
      | instr i =>
        have inside : i ∈ f.instrs := by
          rw [Ir.instrs_eq]
          exact mem_filterMap.mpr ⟨_, listed, rfl⟩
        exact .instr (compiled.legibleInstr written named member inside)
    · exact .close

end Programs

theorem wordSize_of_ok
    (ok : (lower c t).code = .ok p) : p.wordSize = c.wordSize := by
  unfold lower at ok
  split at ok
  · unfold State.outcome at ok
    dsimp only at ok
    split at ok
    · cases ok
    · split at ok
      · cases ok
      · cases ok
        rfl
  · cases ok

/-- QBE text is a lossless rendering of lowered programs. Two programs that were read, under any settings,
and lowered for words of eight bytes are the same if they are rendered to the same text. -/
theorem render_lossless {on on' : Switches Feature} {source source' : String} {t t' : Tree}
    (read : Tree.ofSource on source = .ok t) (read' : Tree.ofSource on' source' = .ok t') (c c' : Settings)
    {p p' : Ir.Program} (lowered : (lower { c with wordSize := 8 } t).code = .ok p)
    (lowered' : (lower { c' with wordSize := 8 } t').code = .ok p')
    (same : Qbe.render p = Qbe.render p') : p = p' := by
  have legible {on : Switches Feature} {source : String} {t : Tree} {c : Settings} {p : Ir.Program}
      (read : Tree.ofSource on source = .ok t) (lowered : (lower c t).code = .ok p) (words : c.wordSize = 8) :
      Qbe.Legible p ∧ p.externs = externs := by
    have isProgram := Tree.isProgram_of_ofSource read
    obtain ⟨o, outline, -, compiled, -⟩ := compiled_of_ok isProgram lowered
    have written := Static.written_of_isProgram isProgram outline
    have named := Static.isName_of_isProgram isProgram outline
    exact ⟨compiled.legible written named ((wordSize_of_ok lowered).trans words), compiled.externs⟩
  obtain ⟨first, declared⟩ := legible read lowered rfl
  obtain ⟨second, declared'⟩ := legible read' lowered' rfl
  exact Qbe.render_inj first second (declared.trans declared'.symm) same

/-- A program that comes to its end. -/
def plainEnd : String := "program p; var x: integer; begin write('a') end."

/-- Another program, which leaves there. -/
def exitEnd : String := "program q; var x: integer; begin write('a'); exit end."

/-- The text of both. -/
def endText : String :=
  "data $pasg_x = align 4 \x7b z 4 \x7d\n\ndata $str0 = \x7b b \"a\", b 0 \x7d\ndata $str1 = \x7b b \"%s\", b 0 \x7d
\nexport function w $main() \x7b\n@start\n\tcall $printf(l $str1, ..., l $str0)\n\tjmp @return.0
@return.0\n\tret 0\n\x7d\n"

theorem render_lossless_exit : ∃ t t' p p', Tree.ofSource Feature.strict plainEnd = .ok t ∧
    Tree.ofSource Feature.strict exitEnd = .ok t' ∧ (lower {} t).code = .ok p ∧
    (lower {} t').code = .ok p' ∧ Qbe.render p = endText ∧ Qbe.render p' = endText ∧ p = p' := by
  obtain ⟨t, p, read, lowered, text⟩ : ∃ t p, Tree.ofSource Feature.strict plainEnd = .ok t ∧
      (lower {} t).code = .ok p ∧ Qbe.render p = endText := exists_compiled (by decide +kernel)
  obtain ⟨t', p', read', lowered', text'⟩ : ∃ t p, Tree.ofSource Feature.strict exitEnd = .ok t ∧
      (lower {} t).code = .ok p ∧ Qbe.render p = endText := exists_compiled (by decide +kernel)
  have same := render_lossless read read' {} {} lowered lowered' (text.trans text'.symm)
  exact ⟨t, t', p, p', read, read', lowered, lowered', text, text', same⟩

end MiniPascal.Lower
