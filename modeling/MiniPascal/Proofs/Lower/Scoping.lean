import MiniPascal.Proofs.Lower.Acceptance

/-!
# Jumps are scoped

Lowering keeps the places to which a `break` or an `exit` jumps on stacks. They are as they were found behind every
statement and every routine, faults or not (`Keeps`, `outer_lowerBody`). So only the top of a stack is ever looked
at, and it is known from the text alone: the loops of a routine and the routine itself. `scopedStmt` is handed these
two places and never looks at the stacks; it does what `lowerStmt` does (`same_scopedStmt`).
-/

open List

namespace MiniPascal.Lower

open Ir (Value)
open Static (Header)
open Tree (IsExpr IsStmt IsVarDecl IsRoutine)

/-! ## Lowering with places in hand -/

/-- Where a `break` and an `exit` lead: behind the innermost loop of the routine, and to its return block. -/
structure Exits where
  brk? : Option String
  ret? : Option String

mutual

/-- Lowers a statement whose jumps lead to the given places. -/
def scopedStmt (multi : Bool) (e : Exits) : Tree → Lowering Bool
  | .block _ stmts => scopedStmts multi e false stmts
  | .branch _ cond yes no => do
    let yesLabel ← newLabel "if_then"
    let noLabel ← newLabel "if_else"
    let joinLabel ← newLabel "if_join"
    branch (← lowerWord cond) yesLabel noLabel
    startBlock yesLabel
    let yesEnds ← scopedStmt multi e yes
    if !yesEnds then jump joinLabel
    startBlock noLabel
    let noEnds ← scopedStmt multi e no
    if !noEnds then jump joinLabel
    if yesEnds && noEnds then
      return true
    else
      startBlock joinLabel
      return false
  | .count tok var start stop down body => do
    match ← controlAddress tok var with
    | none => return false
    | some address =>
      let first ← lowerWord start
      let last ← lowerWord stop
      store address first
      let condLabel ← newLabel "for_cond"
      let bodyLabel ← newLabel "for_body"
      let afterLabel ← newLabel "for_after"
      jump condLabel
      startBlock condLabel
      let value ← load address
      let more ← compute (if down then .cge else .cle) .word value last
      branch more bodyLabel afterLabel
      startBlock bodyLabel
      let ends ← insideLoop afterLabel (scopedStmt multi { e with brk? := some afterLabel } body)
      if !ends then
        let old ← load address
        let new ← compute (if down then .sub else .add) .word old (.const 1)
        store address new
        jump condLabel
      startBlock afterLabel
      return false
  | .loop _ cond body => do
    let condLabel ← newLabel "while_cond"
    let bodyLabel ← newLabel "while_body"
    let afterLabel ← newLabel "while_after"
    jump condLabel
    startBlock condLabel
    branch (← lowerWord cond) bodyLabel afterLabel
    startBlock bodyLabel
    let ends ← insideLoop afterLabel (scopedStmt multi { e with brk? := some afterLabel } body)
    if !ends then jump condLabel
    startBlock afterLabel
    return false
  | .leave tok => jumpOr (do fault tok .strayBreak; return false) e.brk?.toList
  | .exit _ => jumpOr (return false) e.ret?.toList
  | t => lowerStmt multi t

/-- Lowers statements in order, up to the first that always leaves. -/
def scopedStmts (multi : Bool) (e : Exits) (ends : Bool) : List Tree → Lowering Bool
  | [] => return ends
  | stmt :: stmts => do
    if ends then
      caution stmt.tok .unreachable
      return true
    else
      scopedStmts multi e (← scopedStmt multi e stmt) stmts

end

/-- Lowers a body from which an `exit` leads to the return block, and from which no `break` leads out. -/
def scopedFrame {α : Type} (multi : Bool) (enter : Lowering α) (body : Tree) (leave : α → Lowering Ir.Instr) :
    Lowering Unit := do
  modify fun s => { s with temps := 0, blocks := [], current? := none }
  let returnLabel ← newLabel "return"
  modify fun s => { s with returnTargets := returnLabel :: s.returnTargets }
  startBlock "start"
  let slot ← enter
  if !(← scopedStmt multi ⟨none, some returnLabel⟩ body) then jump returnLabel
  startBlock returnLabel
  emit (← leave slot)
  closeBlock
  modify fun s => { s with returnTargets := s.returnTargets.tail }

/-- Lowers the body of a registered routine. -/
def scopedBody (multi : Bool) (tok : Token) (name : String) (r : Routine) (params : List Tree) (result : VarType)
    (locals : List Tree) (body : Tree) : Lowering Unit := do
  insideRoutine do
    scopedFrame multi (enterRoutine tok name params locals result) body leaveRoutine
    let unused := (← get).locals.namesWhere fun v => v.role = .localVar && !v.used
    remarkUnused unused
  finishFunction (functionOf r params result [])

/-- Lowers the declaration of a routine. -/
def scopedRoutine (multi : Bool) : Tree → Lowering Unit
  | .routine tok name params result locals body => do
    if result.isArray then
      fault tok (.arrayResult name)
    else
      if (Builtin.ofName? name).isSome then caution tok (.routineHidden name)
      match ← register tok name (params.map declaredType) result (!body.isAbsent) with
      | none => return ()
      | some r => scopedBody multi tok name r params result locals body
  | _ => return ()

/-! ## Statements -/

section Statements

variable {α β : Type} {e : Exits} {s s' : State} {m m' : Lowering α} {f f' : α → Lowering β} {k k' : Lowering β}
  {multi : Bool} {t : Tree}

/-- The places at the tops of the stacks. -/
def State.exits (s : State) : Exits := ⟨s.loopExits.head?, s.returnTargets.head?⟩

theorem Frame.exits (frame : Frame s s') : s'.exits = s.exits := by
  rw [State.exits, frame.loopExits, frame.returnTargets, State.exits]

/-- Two steps do the same where jumps lead to the given places. -/
def Same (e : Exits) (m m' : Lowering α) : Prop := ∀ s, s.exits = e → m s = m' s

namespace Same

theorem refl (m : Lowering α) : Same e m m := fun _ _ => rfl

theorem bind (first : Same e m m') (keeps : Keeps m) (second : ∀ a, Same e (f a) (f' a)) :
    Same e (m >>= f) (m' >>= f') := by
  intro s inside
  rw [bind_apply, bind_apply, ← first s inside]
  exact second _ _ ((keeps s).exits.trans inside)

theorem after (keeps : Keeps m) (second : ∀ a, Same e (f a) (f' a)) : Same e (m >>= f) (m >>= f') :=
  (refl m).bind keeps second

theorem optional {c : Prop} [Decidable c] (keeps : Keeps m) (h : Same e k k') :
    Same e (if c then m >>= fun _ => k else k) (if c then m >>= fun _ => k' else k') := by
  split
  · exact .after keeps fun _ => h
  · exact h

theorem insideLoop {after : String} (h : Same { e with brk? := some after } body body') :
    Same e (Lower.insideLoop after body) (Lower.insideLoop after body') := by
  intro s inside
  have same := h { s with loopExits := after :: s.loopExits } (inside ▸ rfl)
  exact congrArg (fun r => (r.1, { r.2 with loopExits := r.2.loopExits.tail })) same

end Same

/-- A place at which nothing is known. -/
def Place.nowhere : Place :=
  ⟨⟨⟨fun _ => none, fun _ => none, fun _ => none, fun _ => False⟩, fun _ => .missing⟩, none, ""⟩

theorem keeps_lowerStmt (h : t = .absent ∨ IsStmt t) : Keeps (lowerStmt multi t) :=
  (meets_lowerStmt (P := .nowhere) (fun _ => h) rfl 0 0).keeps trivial

theorem keeps_lowerWord (h : IsExpr t) : Keeps (lowerWord t) :=
  (meets_lowerWord (P := .nowhere) (k := 0) (meets_lowerExpr (fun _ => h) 0)).keeps trivial

theorem keeps_branch {cond : Value} : Keeps (branch cond yes no) :=
  (keeps_emit _).bind fun _ => keeps_closeBlock

theorem keeps_load (address : Value) : Keeps (load address) :=
  keeps_newTemp.bind fun _ => (keeps_emit _).bind fun _ => .pure _

theorem same_scopedStmts {ts : List Tree} (hts : ∀ t ∈ ts, IsStmt t)
    (h : ∀ t ∈ ts, Same e (lowerStmt multi t) (scopedStmt multi e t)) (ends : Bool) :
    Same e (lowerStmts multi ends ts) (scopedStmts multi e ends ts) := by
  induction ts generalizing ends with
  | nil => exact .refl _
  | cons t ts ih =>
    obtain ⟨stmt, stmts⟩ := forall_mem_cons.mp hts
    obtain ⟨first, later⟩ := forall_mem_cons.mp h
    cases ends with
    | true => exact .refl _
    | false => exact first.bind (keeps_lowerStmt (.inr stmt)) fun ends => ih stmts later ends

/-- What the stacks are looked at for is known from the text. -/
theorem same_scopedStmt {t : Tree} (h : t = .absent ∨ IsStmt t) (e : Exits) :
    Same e (lowerStmt multi t) (scopedStmt multi e t) := by
  have parts := stmtParts h
  have loop {body : Tree} (hbody : IsStmt body) (after : String) : Keeps (insideLoop after (lowerStmt multi body)) :=
    (Meets.insideLoop
      (meets_lowerStmt (P := { Place.nowhere with brk := some after }) (fun _ => .inr hbody) rfl 0 0)).keeps
      trivial
  cases t with
  | block tok ts =>
    exact same_scopedStmts parts (fun t member => same_scopedStmt (.inr (parts t member)) e) false
  | branch tok cond yes no =>
    obtain ⟨hcond, hyes, hno⟩ := parts
    unfold lowerStmt scopedStmt
    refine .after keeps_newLabel fun _ => .after keeps_newLabel fun _ => .after keeps_newLabel fun _ => ?_
    refine .after (keeps_lowerWord hcond) fun _ => .after keeps_branch fun _ => .after keeps_startBlock fun _ => ?_
    refine (same_scopedStmt (.inr hyes) e).bind (keeps_lowerStmt (.inr hyes)) fun _ => ?_
    refine .optional keeps_jump <| .after keeps_startBlock fun _ => ?_
    exact (same_scopedStmt hno e).bind (keeps_lowerStmt hno) fun _ => .refl _
  | count tok x start stop down body =>
    obtain ⟨hstart, hstop, hbody⟩ := parts
    have control : Keeps (controlAddress tok x) :=
      (meets_scalar (P := .nowhere) (c := ⟨0, 0, true⟩) tok x rfl rfl rfl).keeps trivial
    unfold lowerStmt scopedStmt
    refine .after control fun a? => ?_
    cases a? with
    | none => exact .refl _
    | some address =>
      refine .after (keeps_lowerWord hstart) fun _ => .after (keeps_lowerWord hstop) fun _ => ?_
      refine .after (keeps_emit _) fun _ => ?_
      refine .after keeps_newLabel fun _ => .after keeps_newLabel fun _ => .after keeps_newLabel fun after => ?_
      refine .after keeps_jump fun _ => .after keeps_startBlock fun _ => .after (keeps_load _) fun _ => ?_
      refine .after keeps_compute fun _ => .after keeps_branch fun _ => .after keeps_startBlock fun _ => ?_
      exact (same_scopedStmt (.inr hbody) _).insideLoop.bind (loop hbody after) fun _ => .refl _
  | loop tok cond body =>
    obtain ⟨hcond, hbody⟩ := parts
    unfold lowerStmt scopedStmt
    refine .after keeps_newLabel fun _ => .after keeps_newLabel fun _ => .after keeps_newLabel fun after => ?_
    refine .after keeps_jump fun _ => .after keeps_startBlock fun _ => .after (keeps_lowerWord hcond) fun _ => ?_
    refine .after keeps_branch fun _ => .after keeps_startBlock fun _ => ?_
    exact (same_scopedStmt (.inr hbody) _).insideLoop.bind (loop hbody after) fun _ => .refl _
  | leave tok =>
    intro s inside
    unfold lowerStmt scopedStmt
    rw [← inside, bind_apply, get_apply]
    unfold State.exits
    cases s.loopExits <;> rfl
  | exit tok =>
    intro s inside
    unfold lowerStmt scopedStmt
    rw [← inside, bind_apply, get_apply]
    unfold State.exits
    cases s.returnTargets <;> rfl
  | _ =>
    exact .refl _

end Statements

/-! ## Routines and programs -/

section Routines

variable {multi : Bool} {body : Tree}

/-- A body is lowered with its own return label, outside of any loop. -/
theorem lowerFrame_eq_scoped {α : Type} {enter : Lowering α}
 (entered : Enters [] slots code s.opened (enter s.opened).2) (outside : s.loopExits = [])
    (hbody : body = .absent ∨ IsStmt body) (leave : α → Lowering Ir.Instr) :
    lowerFrame multi enter body leave s = scopedFrame multi enter body leave s := by
  have inside : (enter s.opened).2.exits = ⟨none, some (retLabel s.labels)⟩ := by
    rw [State.exits, entered.shell.loopExits, entered.shell.returnTargets, State.opened, outside]
    rfl
  exact congrArg (fun r : Bool × State => (do
    if !r.1 then jump (retLabel s.labels)
    startBlock (retLabel s.labels)
    emit (← leave (enter s.opened).1)
    closeBlock
    modify fun s => { s with returnTargets := s.returnTargets.tail } : Lowering Unit) r.2) (same_scopedStmt hbody _ _ inside)

theorem lowerBody_eq_scoped {params locals : List Tree}
    (hparams : ∀ p ∈ params, IsVarDecl p) (hlocals : ∀ l ∈ locals, IsVarDecl l) (hbody : body = .absent ∨ IsStmt body) :
    lowerBody multi tok name r params result locals body = scopedBody multi tok name r params result locals body := by
  funext s
  have enters := (enters_enterRoutine (s := s.entering.opened) (h := ⟨name, _, result, _, none⟩) tok hparams hlocals rfl
    rfl rfl).1
  exact congrArg (fun u : Unit × State => (do
    let unused := (← get).locals.namesWhere fun v => v.role = .localVar && !v.used
    remarkUnused unused
    modify fun t => { t with locals := t.scopes.headD {}, scopes := t.scopes.tail, loopExits := s.loopExits }
    finishFunction (functionOf r params result []) : Lowering Unit) u.2)
    (lowerFrame_eq_scoped enters rfl hbody leaveRoutine)

theorem lowerRoutine_eq_scoped (h : IsRoutine t) : lowerRoutine multi t = scopedRoutine multi t := by
  unfold lowerRoutine scopedRoutine
  cases h with
  | forward _ params => simp only [lowerBody_eq_scoped params (forall_mem_nil _) (.inl rfl)] <;> rfl
  | defined _ params _ locals body => simp only [lowerBody_eq_scoped params locals (.inr body)] <;> rfl

/-- The stacks of a state, and the locals that can be seen. -/
def State.stacks (s : State) : List (Table Variable) × List String × List String × Table Variable :=
  (s.scopes, s.loopExits, s.returnTargets, s.locals)

theorem stacks_register (tok : Token) (h : Header) (s : State) : (registerHeader tok h s).2.stacks = s.stacks := by
  unfold registerHeader register
  rw [bind_apply, get_apply]
  cases s.routines.get? h.name with
  | none => rfl
  | some r =>
    dsimp only
    split_ifs <;> rfl

/-- A routine leaves the stacks as it found them, whatever its faults. -/
theorem stacks_lowerRoutine (ht : IsRoutine t) (s : State) : (lowerRoutine multi t s).2.stacks = s.stacks := by
  obtain ⟨tok, h, params, locals, body, rfl, -, declares⟩ := declares_of_isRoutine ht
  cases array : h.result.isArray with
  | true =>
    rw [lowerRoutine_array array]
    rfl
  | false =>
    obtain ⟨remarks, run⟩ := lowerRoutine_scalar declares array s
    rw [run, bind_apply]
    refine Eq.trans ?_ (stacks_register tok h { s with remarks })
    cases found : (registerHeader tok h { s with remarks }).1 with
    | none => rfl
    | some r =>
      obtain ⟨_, outer, locals, -⟩ := outer_lowerBody declares (declares.isStmt_of_register found) rfl
      change (lowerBody ..).2.stacks = _
      unfold State.stacks
      rw [outer.scopes, outer.loopExits, outer.returnTargets, locals]

end Routines

/-- Statements and routines leave the stacks as they found them, whatever their faults, and are lowered as if every jump
were told its place: a `break` the label behind the innermost loop around it in its own routine, or that there is no
such loop, and an `exit` the return label of its own routine. So is the main program. -/
theorem jumps_scoped (multi : Bool) : (∀ t, IsStmt t → ∀ s, (lowerStmt multi t s).2.scopes = s.scopes ∧
      (lowerStmt multi t s).2.loopExits = s.loopExits ∧ (lowerStmt multi t s).2.returnTargets = s.returnTargets ∧
      lowerStmt multi t s = scopedStmt multi s.exits t s) ∧
    (∀ t, IsRoutine t → ∀ s, (lowerRoutine multi t s).2.stacks = s.stacks ∧
      lowerRoutine multi t s = scopedRoutine multi t s) ∧
    ∀ t, IsStmt t → ∀ s, s.loopExits = [] →
      lowerFrame multi (return ()) t leaveMain s = scopedFrame multi (return ()) t leaveMain s := by
  refine ⟨fun t h s => ?_, fun t h s => ?_, fun t h s outside => ?_⟩
  · have frame := @keeps_lowerStmt multi t (.inr h) s
    exact ⟨frame.scopes, frame.loopExits, frame.returnTargets, same_scopedStmt (.inr h) _ _ rfl⟩
  · exact ⟨stacks_lowerRoutine h s, congrFun (lowerRoutine_eq_scoped h) s⟩
  · exact lowerFrame_eq_scoped (enters_nothing _) outside (.inr h) leaveMain

/-- A loop that is left at once, and whose condition is at fault. -/
def leftLoop : Tree := .loop .nowhere (.text .nowhere "") (.block .nowhere [.leave .nowhere])

theorem jumps_scoped_leftLoop : (lowerStmt false leftLoop {}).2.loopExits = [] ∧
    lowerStmt false leftLoop {} = scopedStmt false ⟨none, none⟩ leftLoop {} := by
  have stmt : IsStmt leftLoop := .loop .text (.block fun _ h => mem_singleton.mp h ▸ .leave)
  obtain ⟨-, exits, -, same⟩ := (jumps_scoped false).1 leftLoop stmt {}
  exact ⟨exits, same⟩

end MiniPascal.Lower
