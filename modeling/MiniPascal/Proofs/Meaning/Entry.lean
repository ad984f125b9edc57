import MiniPascal.Proofs.Meaning.Statement

/-!
# The way into a routine and out of it

A call finds the function of a routine, and the code at the start of that function makes one slot
after the other and moves the arguments there. In between, the state of the machine is that of a
body which has only some of its variables yet (`Context.upTo`). A return gives up the slots, so that
the caller finds its own storage as it left it.
-/

open List

namespace MiniPascal.Meaning

open Ir.Machine
open Ir.Program
open Context
open Ir (Value Instr Ty Line plain Temps Val Machine)
open Static (Header)
open Lower

/-! ## The function of a routine -/

section Functions

variable {o : Static.Outline} {strings : List Ir.StringLit} {f : String} {h : Header} {body : Tree}

/-- The first declaration of a name with a body belongs to the first function of that name. -/
theorem find?_function {before : List Header} (rest : List Ir.Func)
    (codes : Forall₂ (RoutineCode o strings) (definitions before hs) fs)
    (found : hs.findSome? (fun h => if h.name = f then h.body?.map fun body =>
      (h, body) else none) =
      some (h, body)) :
    ∃ pre post func, hs = pre ++ h :: post ∧ h.name = f ∧ h.body? = some body ∧
      (fs ++ rest).find? (fun g => g.name == "pas_" ++ f) = some func ∧
      RoutineCode o strings ⟨before ++ pre ++ [h], h, body⟩ func := by
  induction hs generalizing before fs with
  | nil => cases found
  | cons h' hs ih =>
    rw [findSome?_cons] at found
    cases bodied : h'.body? with
    | none =>
      simp only [definitions, bodied, Option.map_none, Option.toList_none, nil_append] at codes
      simp only [bodied, Option.map_none, ite_self] at found
      obtain ⟨pre, post, func, split, rest⟩ := ih codes found
      exact ⟨h' :: pre, post, func, by rw [split]; rfl, by simpa using rest⟩
    | some body' =>
      simp only [definitions, bodied, Option.map_some, Option.toList_some, singleton_append] at codes
      cases codes with
      | @cons _ func _ fs code codes =>
        have name : func.name = "pas_" ++ h'.name := code.name
        by_cases same : h'.name = f
        · simp only [same, if_true, bodied, Option.map_some, Option.some.injEq, Prod.mk.injEq] at found
          obtain ⟨rfl, rfl⟩ := found
          refine ⟨[], hs, func, rfl, same, bodied, ?_, by simpa using code⟩
          rw [cons_append, find?_cons_of_pos (by rw [name, same]; exact beq_self_eq_true _)]
        · simp only [same, if_false] at found
          obtain ⟨pre, post, g, split, named, bodied', first, inside⟩ := ih codes found
          refine ⟨h' :: pre, post, g, by rw [split]; rfl, named, bodied', ?_, by simpa using inside⟩
          have other : func.name ≠ "pas_" ++ f := by
            rw [name]
            exact fun equal => same ((String.append_right_inj "pas_").mp equal)
          rw [cons_append, find?_cons_of_neg (by simpa using other)]
          exact first

end Functions

/-- A routine that can be called, and its function. -/
structure Callee (W : World) where
  definition : Definition
  func : Ir.Func
  code : RoutineCode W.outline W.program.strings definition func
  found : W.program.func? ("pas_" ++ definition.header.name) = some func
  known : ∀ h ∈ definition.seen, h ∈ W.outline.headers
  member : definition.header ∈ W.outline.headers
  distinct : (definition.header.slots.map Prod.fst).Nodup
  fits : ∀ v ∈ definition.header.slots, v.2.Fits

namespace Callee

variable {W : World} (F : Callee W)

abbrev header : Header := F.definition.header

theorem labels : (F.func.lines.filterMap Line.label?).Nodup := F.code.blocks.labels_nodup

/-- A routine that the evaluator calls has a function. -/
theorem exists_of_definition? {C : Context W} {f : String} {h : Header} {body : Tree}
    (found : C.env.definition? f = some (h, body)) (fits : ∀ v ∈ h.slots, v.2.Fits) :
    ∃ F : Callee W, F.header = h ∧ F.definition.body = body ∧ h.name = f := by
  obtain ⟨fs, main, funcs, routines, -⟩ := W.compiled.funcs
  unfold Env.definition? at found
  split at found
  · obtain ⟨pre, post, func, split, rfl, bodied, first, code⟩ :=
      find?_function [main] routines found
    refine ⟨⟨⟨pre ++ [h], h, body⟩, func, code, ?_, ?_, ?_, ?_, fits⟩, rfl, rfl, rfl⟩
    · rw [func?, funcs]
      exact first
    · intro h' member
      rw [split]
      exact append_cons pre h post ▸ mem_append_left post member
    · exact split ▸ mem_append_right pre mem_cons_self
    · exact W.correct.distinct h (split ▸ mem_append_right pre mem_cons_self) (by rw [bodied]; rfl)
  · cases found

end Callee

/-! ## Arguments -/

namespace Context

variable {W : World} (C : Context W)

/-- The value that is passed for an argument. -/
def passed : Arg → Val
  | .word w => .word w
  | .array place => .address (C.anchor place) 0

/-- An argument fits a parameter. -/
inductive Accepts : VarType → Arg → Prop
  | word : param.isArray = false → Accepts param (.word w)
  | array :
    param.isArray = true → C.Stored place type → type.size = param.size → Accepts param (.array place)

variable {C}

theorem Gives.accepts
    (h : C.Gives τ params vs args) : Forall₂ C.Accepts params args := by
  induction h with
  | nil => exact .nil
  | word scalar _ _ ih => exact .cons (.word scalar) ih
  | array isArray stored same _ ih => exact .cons (.array isArray (stored_of stored) same) ih

theorem Gives.values (held : C.Holds τ)
 (h : C.Gives τ params vs args) :
    W.program.values? τ (vs.map Prod.fst) (vs.map Prod.snd) = some (args.map C.passed) := by
  induction h with
  | nil => rfl
  | word _ value _ ih =>
    simp only [map_cons, values?, operand_of_word value, ih, Option.bind_eq_bind, Option.bind_some]
    rfl
  | array _ stored _ _ ih =>
    simp only [map_cons, values?, operand_of_address (address_of held stored), ih,
      Option.bind_eq_bind, Option.bind_some]
    rfl

/-! ## Slots -/

section Slot

variable {k : Nat} {v : String × VarType} (here : C.slots[k]? = some v)

include here

theorem stored_of_slot : C.Stored (.own v.1) v.2 := Table.lookup_eq_some_of_mem C.distinct (mem_of_getElem? here)

theorem anchor_of_slot : C.anchor (.own v.1) = .stack (C.below.length + k) := by
  have name : (C.slots.map Prod.fst)[k]? = some v.1 := by rw [getElem?_map, here]; rfl
  obtain ⟨bound, same⟩ := List.getElem?_eq_some_iff.mp name
  rw [← same, anchor, C.distinct.idxOf_getElem k bound]

theorem address?_slot (held : C.Holds τ) :
    W.program.address? τ (Code.slot v.1 k) = some (C.anchor (.own v.1), 0) := by
  rw [anchor_of_slot here]
  simp only [address?, Code.slot, operand?, held k v here]

end Slot

/-! ## Bodies with some of their variables -/

variable (C)

/-- A body that has its first `k` variables. -/
def upTo (k : Nat) : Context W where
  __ := C
  slots := C.slots.take k
  distinct := C.distinct.sublist ((take_sublist k C.slots).map Prod.fst)
  fits v member := C.fits v (mem_of_mem_take member)

theorem upTo_length : C.upTo C.slots.length = C := by
  obtain ⟨seen, slots, func, below, callers, known, distinct, fits, labels⟩ := C
  simp only [upTo, take_length]

variable {C}

section Slot

variable {k : Nat} {v : String × VarType} (here : C.slots[k]? = some v)

include here

theorem slots_upTo_succ : (C.upTo (k + 1)).slots = (C.upTo k).slots ++ [v] := by
  change C.slots.take (k + 1) = C.slots.take k ++ [v]
  rw [take_add_one, here]
  rfl

theorem length_upTo : (C.upTo k).slots.length = k := by
  have bound := (List.getElem?_eq_some_iff.mp here).1
  exact length_take_of_le (Nat.le_of_lt bound)

theorem new_upTo : v.1 ∉ (C.upTo k).slots.map Prod.fst := by
  have distinct := (C.upTo (k + 1)).distinct
  rw [slots_upTo_succ here, map_append] at distinct
  exact fun old => (nodup_append.mp distinct).2.2 _ old v.1 (by simp) rfl

theorem slot_upTo_succ : (C.upTo (k + 1)).slots[k]? = some v := by
  have length := length_upTo here
  rw [slots_upTo_succ here, getElem?_append_right (by omega), length, Nat.sub_self]
  rfl

/-- The slot of the next variable holds its address. -/
theorem Holds.succ (held : (C.upTo k).Holds τ) : (C.upTo (k + 1)).Holds
    (τ.set { name := v.1, id := k } (.address (.stack (C.below.length + k)) 0)) := by
  intro j u there
  rw [slots_upTo_succ here] at there
  have length := length_upTo here
  by_cases old : j < k
  · rw [getElem?_append_left (by omega)] at there
    have kept := (Agree.set (τ := τ) (Nat.le_refl k) v.1 (.address (.stack (C.below.length + k)) 0)) u.1 j old
    exact kept.trans (held j u there)
  · have last : j = k := by
      have bound := (List.getElem?_eq_some_iff.mp there).1
      rw [length_append, length, length_singleton] at bound
      omega
    subst last
    rw [getElem?_append_right (by omega), length, Nat.sub_self] at there
    cases there
    exact set_self τ _

end Slot

end Context

/-- A variable comes to life. -/
def Store.create (σ : Store) (fill : Nat → Content) (x : String) : Store :=
  { σ with
    locals := fun y => if y = x then fill σ.created else σ.locals y
    created := σ.created + 1 }

namespace Context

variable {W : World} {C : Context W}

theorem execute?_alloc (m : Machine)
    (fits : Ir.cellAt? type.size.toInt = some cells) :
    m.execute? W.program W.fill (Code.alloc x k type) = some { m with
      frame := { m.frame with
        temps := m.frame.temps.set { name := x, id := k } (.address (.stack m.stack.length) 0) }
      stack := m.stack ++ [⟨cells, W.fill m.created⟩]
      created := m.created + 1 } := by
  simp only [execute?, Code.alloc, allocate?, fits, Option.bind_eq_bind, Option.bind_some]
  rfl

/-- Storage for the next variable is allocated. -/
theorem reaches_alloc (here : C.slots[k]? = some v)
    (post : List Line) (τ : Temps) (σ : Store) : Ir.ReachesWithin W.program W.fill C.callers.length (fun _ => False)
      ((C.upTo k).machine (.instr (Code.alloc v.1 k v.2) :: post) τ σ)
      ((C.upTo (k + 1)).machine post (τ.set { name := v.1, id := k } (.address (.stack (C.below.length + k)) 0))
        (σ.create W.fill v.1)) := by
  have fits : Ir.cellAt? v.2.size.toInt = some v.2.cells := cellAt?_size (C.fits v (mem_of_getElem? here))
  have old : (C.upTo k).slots.map (region (σ.create W.fill v.1)) = (C.upTo k).slots.map (region σ) := by
    refine map_congr_left fun u member => ?_
    have other : u.1 ≠ v.1 := fun same => new_upTo here (same ▸ mem_map_of_mem member)
    simp only [region, Store.create, if_neg other]
  have stack : C.below ++ (C.upTo (k + 1)).slots.map (region (σ.create W.fill v.1)) =
      C.below ++ (C.upTo k).slots.map (region σ) ++ [⟨v.2.cells, W.fill σ.created⟩] := by
    rw [slots_upTo_succ here, map_append, old, append_assoc]
    simp [region, Store.create]
  have height : ((C.upTo k).machine post τ σ).stack.length = C.below.length + k := by
    change (C.below ++ (C.upTo k).slots.map (region σ)).length = _
    rw [length_append, length_map, length_upTo here]
  refine .single ?_ (Nat.le_refl _) (Machine.target?_inner rfl rfl)
  unfold Ir.Steps
  rw [next?_inner rfl rfl]
  change Option.map Ir.Config.running (((C.upTo k).machine post τ σ).execute? W.program W.fill _) = _
  rw [execute?_alloc _ fits, height]
  exact congrArg (fun stack => some (Ir.Config.running
    { (C.upTo (k + 1)).machine post _ (σ.create W.fill v.1) with stack })) stack.symm

end Context

/-! ## Moving in -/

/-- The store while the first `k` variables of a routine have come to life. -/
def Store.stage (σ : Store) (fill : Nat → Content) (slots : Vars)
    (gifts : List (Option Arg)) (k : Nat) : Store :=
  { σ.enter fill slots gifts with created := σ.created + k }

section Stage

variable {σ : Store} {fill : Nat → Content} {slots : Vars} {gifts : List (Option Arg)} {k : Nat}

/-- What the variable of a given number holds at first. -/
theorem locals_enter (distinct : (slots.map Prod.fst).Nodup) (here : slots[k]? = some v) :
    (σ.enter fill slots gifts).locals v.1 = σ.first v.2.cells (fill (σ.created + k)) gifts[k]?.join := by
  have name : (slots.map Prod.fst)[k]? = some v.1 := by rw [getElem?_map, here]; rfl
  obtain ⟨bound, same⟩ := List.getElem?_eq_some_iff.mp name
  have index : (slots.map Prod.fst).idxOf v.1 = k := by
    rw [← same]
    exact distinct.idxOf_getElem k bound
  simp only [Store.enter, index, here, Option.map_some, Option.getD_some]

/-- A variable comes to life and is given its first content. -/
theorem put_create_stage (x : String) : ((σ.stage fill slots gifts k).create fill x).put (.own x)
    ((σ.enter fill slots gifts).locals x) = σ.stage fill slots gifts (k + 1) := by
  have locals : (fun y => if y = x then (σ.enter fill slots gifts).locals x else
      if y = x then fill (σ.created + k) else (σ.enter fill slots gifts).locals y) =
      (σ.enter fill slots gifts).locals := by
    funext y
    by_cases same : y = x
    · rw [if_pos same, same]
    · rw [if_neg same, if_neg same]
  exact congrArg (fun locals => { σ.stage fill slots gifts (k + 1) with locals }) locals

theorem put_get_own (σ : Store) (x : String) : σ.put (.own x) (σ.get (.own x)) = σ := by
  have locals : (fun y => if y = x then σ.locals x else σ.locals y) = σ.locals := by
    funext y
    split
    · next same => rw [same]
    · rfl
  exact congrArg (fun locals => { σ with locals }) locals

theorem get_create_stage (x : String) :
    ((σ.stage fill slots gifts k).create fill x).get (.own x) = fill (σ.created + k) := if_pos rfl

end Stage

section Given

variable {h : Header} {args : List Arg} (length : args.length = h.params.length)

include length

variable {j : Nat} {v : String × VarType}

theorem given_param (here : h.params[j]? = some v) : (given h args)[j]?.join = args[j]? := by
  have bound : j < args.length := length ▸ (List.getElem?_eq_some_iff.mp here).1
  rw [given, append_assoc, getElem?_append_left (by simpa using bound), getElem?_map,
    getElem?_eq_getElem bound]
  rfl

theorem given_local (here : h.locals[j]? = some v) : (given h args)[h.params.length + j]?.join = none := by
  have bound := (List.getElem?_eq_some_iff.mp here).1
  have skip : (args.map some).length = h.params.length := by rw [length_map, length]
  rw [given, append_assoc, ← skip, getElem?_append_right (Nat.le_add_right ..),
    Nat.add_sub_cancel_left, getElem?_append_left (by simpa using bound),
    getElem?_map, here]
  rfl

theorem given_own (here : h.own[j]? = some v) : (given h args)[Code.ownIndex h + j]?.join = some (.word 0) := by
  have skip : (args.map some ++ h.locals.map fun _ => (none : Option Arg)).length = Code.ownIndex h := by
    rw [length_append, length_map, length_map, length]
    rfl
  rw [given, ← skip, getElem?_append_right (Nat.le_add_right ..), Nat.add_sub_cancel_left, getElem?_map, here]
  rfl

end Given

/-- A call of a routine with arguments that have been evaluated: the caller, the lines behind the
call, its temporaries and its store, and where the result goes. -/
structure Call (W : World) extends Callee W where
  caller : Context W
  post : List Line
  temps : Temps
  store : Store
  result : Value
  args : List Arg
  accepts : Forall₂ caller.Accepts (definition.header.params.map Prod.snd) args

namespace Call

variable {W : World}

section Enter

variable (K : Call W)

abbrev header : Header := K.definition.header

/-- The body that is called. -/
def context : Context W where
  seen := K.definition.seen
  slots := K.header.slots
  func := K.func
  below := K.caller.below ++ K.caller.slots.map (region K.store)
  callers := ⟨(K.caller.machine K.post K.temps K.store).frame, K.result⟩ :: K.caller.callers
  known := K.known
  distinct := K.distinct
  fits := K.fits
  labels := K.labels

/-- The store when the first `k` variables have come to life. -/
def stage (k : Nat) : Store := K.store.stage W.fill K.header.slots (given K.header K.args) k

/-- The state of the machine when the first `k` variables have come to life. -/
def entering (k : Nat) (ls : List Line) (τ : Temps) :
    Machine := (K.context.upTo k).machine ls τ (K.stage k)

/-- Some slots hold the addresses of their variables, and the parameters the values that were
passed. -/
structure Ready (k : Nat) (τ : Temps) : Prop where
  held : (K.context.upTo k).Holds τ
  passed : ∀ (j : Nat) (v : String × VarType) arg, K.header.params[j]? = some v →
    K.args[j]? = some arg → τ (parameterTemp v.1).key = some (K.caller.passed arg)

/-- Some code makes the variables from the `i`-th on to the `j`-th. -/
def Moves (is : List Instr) (i j : Nat) : Prop :=
  ∀ ls τ, K.Ready i τ → ∃ τ', K.Ready j τ' ∧ Ir.ReachesWithin W.program W.fill K.context.callers.length (fun _ => False)
      (K.entering i (plain is ++ ls) τ) (K.entering j ls τ')

variable {K} {i j k : Nat} {is js : List Instr} {v : String × VarType}

theorem Moves.nil : K.Moves [] i i := fun _ τ ready => ⟨τ, ready, .refl⟩

theorem Moves.append (first : K.Moves is i j) (second : K.Moves js j k) : K.Moves (is ++ js) i k := by
  intro ls τ ready
  obtain ⟨τ₁, ready₁, reaches₁⟩ := first (plain js ++ ls) τ ready
  obtain ⟨τ₂, ready₂, reaches₂⟩ := second ls τ₁ ready₁
  refine ⟨τ₂, ready₂, ?_⟩
  rw [Ir.plain_append, append_assoc]
  exact reaches₁.trans reaches₂

theorem Moves.each {f : Nat → String × VarType → List Instr} (vs : Vars)
    (h : ∀ j v, vs[j]? = some v → K.Moves (f (i + j) v) (i + j) (i + j + 1)) :
    K.Moves (Code.each f i vs) i (i + vs.length) := by
  induction vs generalizing i with
  | nil => exact .nil
  | cons v vs ih =>
    have rest := ih fun j v here => by
      have later := h (j + 1) v here
      rwa [← Nat.add_assoc, Nat.add_right_comm] at later
    rw [Nat.add_assoc, Nat.add_comm 1] at rest
    exact (h 0 v rfl).append rest

theorem Ready.succ (ready : K.Ready k τ) (here : K.header.slots[k]? = some v) : K.Ready (k + 1)
    (τ.set { name := v.1, id := k } (.address (.stack (K.context.below.length + k)) 0)) := by
  refine ⟨Context.Holds.succ here ready.held, fun j u arg param given => ?_⟩
  have name : IsName u.1 := (W.written.params K.header K.member u (mem_of_getElem? param)).1
  exact (if_neg (key_ne_key_parameterTemp name.dotless v.1 k).symm).trans (ready.passed j u arg param given)

/-- The next variable is made, and given its first content. -/
theorem moves_slot (here : K.header.slots[k]? = some v) (gives : ∀ τ, K.Ready (k + 1) τ →
      (K.context.upTo (k + 1)).Runs 0 is τ ((K.stage k).create W.fill v.1)
      (K.stage (k + 1)) (· = τ)) :
    K.Moves (Code.alloc v.1 k v.2 :: is) k (k + 1) := by
  intro ls τ ready
  have ready' := ready.succ here
  obtain ⟨τ', leads, -, rfl⟩ := gives _ ready' ls
  exact ⟨_, ready', (reaches_alloc here _ τ _).trans leads⟩

section Slot

variable {τ : Temps} (ready : K.Ready (k + 1) τ) (here : K.header.slots[k]? = some v)

include here in
/-- What the next variable holds at first. -/
theorem stage_succ (gift : (given K.header K.args)[k]?.join = arg) :
    ((K.stage k).create W.fill v.1).put (.own v.1)
      (K.store.first v.2.cells (((K.stage k).create W.fill v.1).get (.own v.1)) arg) =
      K.stage (k + 1) := by
  rw [stage, get_create_stage, ← gift, ← locals_enter K.distinct here]
  exact put_create_stage v.1

include ready here

/-- A word is moved into the new slot. -/
theorem runs_give_word (integer : v.2 = .integer)
    (known : W.program.word? τ value = some w) (gift : (given K.header K.args)[k]?.join = some (.word w)) :
    (K.context.upTo (k + 1)).Runs 0 [Code.store (Code.slot v.1 k) value] τ
      ((K.stage k).create W.fill v.1) (K.stage (k + 1)) (· = τ) := by
  have slot := slot_upTo_succ (C := K.context) here
  have points : (K.context.upTo (k + 1)).Points τ (Code.slot v.1 k) (.own v.1) 0 :=
    ⟨address?_slot slot ready.held, v.2, stored_of_slot slot, by rw [integer]; exact Nat.one_pos⟩
  rw [← stage_succ here gift]
  exact runs_store points known rfl

omit ready here in
/-- The storage of the caller is still there. -/
theorem region_caller (stored : K.caller.Stored place type) (ls : List Line) :
    ((K.context.upTo (k + 1)).machine ls τ ((K.stage k).create W.fill v.1)).region? (K.caller.anchor place) =
      some ⟨type.cells, K.store.get place⟩ := by
  cases place with
  | own x =>
    have slot := slot_of_lookup stored
    have bound := (List.getElem?_eq_some_iff.mp slot).1
    change ((K.caller.below ++ K.caller.slots.map (region K.store)) ++ _)[K.caller.below.length + _]? = _
    rw [getElem?_append_left (by simpa using bound),
      getElem?_append_right (Nat.le_add_right ..), Nat.add_sub_cancel_left,
      getElem?_map, slot]
    rfl
  | global x => exact lookup_map_globalRegion _ stored

/-- An array is copied into the new slot. -/
theorem runs_give_array (stored : K.caller.Stored place type)
    (same : type.size = v.2.size) (known : τ (parameterTemp v.1).key = some (.address (K.caller.anchor place) 0))
    (gift : (given K.header K.args)[k]?.join = some (.array place)) : (K.context.upTo (k + 1)).Runs 0
      [Code.copy (.temp (parameterTemp v.1)) (Code.slot v.1 k) v.2.size] τ
      ((K.stage k).create W.fill v.1) (K.stage (k + 1)) (· = τ) := by
  have fits : v.2.Fits := K.fits v (mem_of_getElem? here)
  have cells := cells_eq_of_size_eq fits (fits_of_stored stored) same
  have source : W.program.address? τ (.temp (parameterTemp v.1)) = some (K.caller.anchor place, 0) := by
    simp only [address?, operand?, known]
  have slot := slot_upTo_succ (C := K.context) here
  have target := stored_of_slot slot
  rw [← stage_succ here gift]
  refine runs_effect rfl rfl fun ls => ?_
  simp only [execute?, Code.copy, machine_temps, source,
    address?_slot slot ready.held,    Option.bind_eq_bind, Option.bind_some]
  rw [copy?_whole (region_caller stored ls) (region_of target ..)
    (cellAt?_size fits) (Nat.le_of_eq cells.symm) (Nat.le_refl _),
    setData_of target]
  rfl

end Slot

theorem length_args : K.args.length = K.header.params.length := by
  rw [← K.accepts.length_eq, length_map]

theorem moves_enterParam (here : K.header.params[k]? = some v) : K.Moves (Code.enterParam k v) k (k + 1) := by
  have slot : K.header.slots[k]? = some v := slots_param here
  have bound : k < K.args.length := length_args ▸ (List.getElem?_eq_some_iff.mp here).1
  have arg := getElem?_eq_getElem bound
  have gift := (given_param length_args here).trans arg
  refine moves_slot slot fun τ ready => ?_
  have passed := ready.passed k v _ here arg
  have accepts : K.caller.Accepts v.2 K.args[k] := by
    have typed : (K.header.params.map Prod.snd)[k]? = some v.2 := by rw [getElem?_map, here]; rfl
    obtain ⟨bound', same⟩ := List.getElem?_eq_some_iff.mp typed
    exact same ▸ K.accepts.get bound' bound
  generalize K.args[k] = arg at gift passed accepts
  cases accepts with
  | word scalar =>
    rw [if_neg (by simp [scalar])]
    have written := W.written.params K.header K.member v (mem_of_getElem? here)
    refine runs_give_word ready slot (written.2.eq_integer scalar) ?_ gift
    simp only [word?, operand?, passed, Context.passed]
  | array isArray stored same =>
    rw [if_pos isArray]
    exact runs_give_array ready slot stored same passed gift

theorem moves_enterLocal (here : K.header.locals[j]? = some v) :
    K.Moves (Code.enterLocal (K.header.params.length + j) v) (K.header.params.length + j)
      (K.header.params.length + j + 1) := by
  have slot : K.header.slots[K.header.params.length + j]? = some v := slots_local here
  refine moves_slot slot fun τ _ => ?_
  rw [← stage_succ slot (given_local length_args here), Store.first, put_get_own]
  exact .nil rfl

theorem moves_enterOwn (here : K.header.own[j]? = some v) : K.Moves (Code.enterOwn (Code.ownIndex K.header + j) v)
    (Code.ownIndex K.header + j) (Code.ownIndex K.header + j + 1) := by
  have slot : K.header.slots[Code.ownIndex K.header + j]? = some v := slots_own here
  have integer : v.2 = .integer := by
    have member := mem_of_getElem? here
    unfold Header.own at member
    split at member
    · cases member
    · cases mem_singleton.mp member
      rfl
  exact moves_slot slot fun τ ready =>
    runs_give_word ready slot integer (word?_const _ 0) (given_own length_args here)

/-- The code on the way into a routine makes all its variables. -/
theorem moves_enter : K.Moves (Code.enter K.header) 0 K.header.slots.length := by
  have params := Moves.each K.header.params fun j v here => by
    rw [Nat.zero_add]
    exact moves_enterParam here
  rw [Nat.zero_add] at params
  have named := params.append (Moves.each K.header.locals fun j v here => moves_enterLocal here)
  have all := named.append (Moves.each K.header.own fun j v here => moves_enterOwn here)
  have length : K.header.slots.length = K.header.params.length + K.header.locals.length + K.header.own.length := by
    simp [Header.slots, Nat.add_assoc]
  rw [length]
  exact all

/-- All variables have come to life. -/
theorem entering_length (ls : List Line) (τ : Temps) : K.entering K.header.slots.length ls τ =
    K.context.machine ls τ (K.store.enter W.fill K.header.slots (given K.header K.args)) := by
  have whole : K.context.upTo K.header.slots.length = K.context := K.context.upTo_length
  rw [entering, whole]
  rfl

theorem Ready.holds (ready : K.Ready K.header.slots.length τ) : K.context.Holds τ :=
  K.context.upTo_length ▸ ready.held

/-- The parameters start with the values that were passed. -/
theorem ready_arguments : K.Ready 0 (Machine.arguments K.func.params (K.args.map K.caller.passed)) := by
  refine ⟨fun j v impossible => by simp [upTo] at impossible, fun j v arg param given => ?_⟩
  have names : (K.header.params.map Prod.fst).Nodup := by
    have distinct := K.distinct
    rw [Header.slots, append_assoc, map_append] at distinct
    exact (nodup_append.mp distinct).1
  have keys : K.func.params.map (·.temp.key) = K.header.params.map fun v =>
      (parameterTemp v.1).key := by
    rw [K.code.params, map_map]
    rfl
  have distinct : (K.header.params.map fun v => (parameterTemp v.1).key).Nodup := by
    rw [show (fun v : String × VarType => (parameterTemp v.1).key) =
      (fun x => (parameterTemp x).key) ∘ Prod.fst from rfl, ← map_map]
    exact names.map fun _ _ => key_parameterTemp_inj
  refine Table.lookup_eq_some_of_mem ?_ (mem_iff_getElem?.mpr ⟨j, ?_⟩)
  · rw [keys, map_fst_zip (by simp [length_args])]
    exact distinct
  · simp only [getElem?_zip_eq_some, keys, getElem?_map, param, given, Option.map_some, and_self]

end Enter

/-! ## Calls and returns -/

section Around

variable {K : Call W} {τ : Temps} {σ : Store}

/-- The code of a function begins with its first block. -/
theorem first_block
    (h : Ir.listing blocks = .label l :: rest) : ∃ b, blocks.head? = some b ∧ b.instrs = heads rest := by
  cases blocks with
  | nil => cases h
  | cons b bs =>
    rw [Ir.listing_cons] at h
    obtain ⟨-, rfl⟩ := List.cons.inj h
    exact ⟨b, rfl, by rw [heads_plain_append, heads_listing, append_nil]⟩

variable {result? : Option Nat}

/-- A call goes to the start of a function. -/
theorem reaches_call
    (result : K.result = (result?.map Code.temp).getD .missing)
    (values : W.program.values? K.temps (vs.map Prod.fst) (vs.map Prod.snd) =
      some (K.args.map K.caller.passed)) (start : K.func.lines = .label "start" :: rest) :
    Ir.ReachesWithin W.program W.fill K.caller.callers.length (fun _ => False)
      (K.caller.machine (.instr (Code.call K.header.name result? vs) :: K.post) K.temps K.store)
      (K.entering 0 rest (Machine.arguments K.func.params (K.args.map K.caller.passed))) := by
  obtain ⟨b, first, code⟩ := first_block start
  have count : (K.args.map K.caller.passed).length = K.func.params.length := by
    rw [K.code.params, length_map, length_map, length_args]
  refine .single ?_ (Nat.le_refl _) (Machine.target?_inner rfl rfl)
  unfold Ir.Steps
  rw [next?_inner rfl rfl]
  change Option.map Ir.Config.running ((K.caller.machine K.post K.temps K.store).execute? W.program W.fill _) = _
  simp only [execute?, Code.call, machine_temps, values,
    Option.bind_eq_bind, Option.bind_some, call?, K.found, first, count, guard,
    if_true, code]
  rw [← result]
  have stack : (K.caller.machine K.post K.temps K.store).stack =
      K.context.below ++ (K.context.upTo 0).slots.map (region (K.stage 0)) :=
      (append_nil _).symm
  exact congrArg (fun stack => some (Ir.Config.running { K.entering 0 rest _ with stack })) stack

/-- What the temporaries of the caller are behind the call. -/
def returned (K : Call W) (result? : Option Nat) (w : Word) : Temps :=
  match result? with
  | none => K.temps
  | some m => K.temps.set { name := "", id := m } (.word w)

/-- A return goes behind the call. -/
theorem return?_eq (value : Option Val)
    (result : K.result = (result?.map Code.temp).getD .missing)
    (given : result?.isSome = true → value = some (.word w)) : (K.context.machine ls τ σ).return? value =
      some (.running (K.caller.machine K.post (K.returned result? w)
        { σ with locals := K.store.locals })) := by
  have stack : (K.context.machine ls τ σ).stack.take K.context.below.length =
      K.caller.below ++ K.caller.slots.map (region K.store) := take_left
  have back : { K.context.machine ls τ σ with
      frame := (K.caller.machine K.post K.temps K.store).frame
      callers := K.caller.callers
      stack := (K.context.machine ls τ σ).stack.take K.context.below.length } =
      K.caller.machine K.post K.temps { σ with locals := K.store.locals } :=
    congrArg (fun stack =>
      { K.caller.machine K.post K.temps { σ with locals := K.store.locals } with stack }) stack
  have callers : (K.context.machine ls τ σ).callers =
      ⟨(K.caller.machine K.post K.temps K.store).frame, K.result⟩ :: K.caller.callers := rfl
  cases result? with
  | none =>
    have missing : K.result = .missing := result
    simp only [return?, callers, missing]
    exact congrArg (some ∘ Ir.Config.running) back
  | some m =>
    have temp : K.result = Code.temp m := result
    simp only [return?, callers, temp, given rfl, Code.temp]
    exact congrArg (fun back => (assign? back (Code.temp m) (.word w)).bind fun m =>
      some (Ir.Config.running m)) back

/-- The code on the way out of a routine goes behind the call. -/
theorem reaches_leave (held : K.context.Holds τ) (result : K.result = (result?.map Code.temp).getD .missing)
    (function : result?.isSome = true → K.header.result ≠ .void) :
    Ir.ReachesWithin W.program W.fill K.context.callers.length (fun _ => False)
      (K.context.machine (plain (Code.leave K.header n)) τ σ)
      (K.caller.machine K.post (K.returned result? (σ.locals K.header.name 0))
        { σ with locals := K.store.locals }) := by
  unfold Code.leave
  split
  · next void =>
    refine .single ?_ (Nat.le_refl _) (Machine.target?_ret rfl rfl)
    exact return?_eq none result fun called => absurd void (function called)
  · next returns =>
    have own : K.header.own[0]? = some (K.header.name, .integer) := by simp [Header.own, returns]
    have slot : K.context.slots[Code.ownIndex K.header]? = some (K.header.name, .integer) := slots_own own
    have points : K.context.Points τ (Code.slot K.header.name (Code.ownIndex K.header)) (.own K.header.name) 0 :=
      ⟨address?_slot slot held, .integer, stored_of_slot slot, Nat.one_pos⟩
    obtain ⟨τ', leads, -, value⟩ := runs_load points (plain [{ op := .ret, args := [Code.temp n] }])
    refine Ir.ReachesWithin.trans leads (.single ?_ (Nat.le_refl _) (Machine.target?_ret rfl rfl))
    change (W.program.word? τ' (Code.temp n)).bind (fun w => Machine.return? _ (some (.word w))) = _
    rw [value]
    exact return?_eq _ result fun _ => rfl

end Around

end Call

end MiniPascal.Meaning
