import MiniPascal.Proofs.Ir.Run
import MiniPascal.Proofs.Lower.Function
import MiniPascal.Proofs.Meaning.Operators

/-!
# The machine state of a store

While a body is executed, the state of the machine is determined by the store of the source program, the
lines that are ahead and the temporaries (`Context.machine`): each variable of the routine has its region
on top of the stack, each global variable its own. So the simulation of a statement is a run between two
such states.
-/

open List

namespace MiniPascal.Meaning

open Ir (Value Instr Ty Line plain listing Temps Val Anchor Region Machine)
open Static (Header Outline)
open Lower (Layout layout Code.temp Code.slot Compiled)

/-! ## Places in a listing -/

/-- The instructions up to the next label. -/
def heads : List Line → List Instr
  | .instr i :: ls => i :: heads ls
  | _ => []

@[simp] theorem heads_instr (i : Instr) (ls : List Line) : heads (.instr i :: ls) = i :: heads ls := rfl

@[simp] theorem heads_label (l : String) (ls : List Line) : heads (.label l :: ls) = [] := rfl

theorem heads_plain_append (is : List Instr) (ls : List Line) : heads (plain is ++ ls) = is ++ heads ls := by
  induction is with
  | nil => rfl
  | cons i is ih => exact congrArg (i :: ·) ih

theorem heads_listing (bs : List Ir.Block) : heads (listing bs) = [] := by
  cases bs <;> rfl

theorem label_behind_plain
    (there : .label l :: ahead <:+ plain is ++ ls) : .label l :: ahead <:+ ls := by
  induction is with
  | nil => exact there
  | cons i is ih =>
    rcases List.suffix_cons_iff.mp there with first | later
    · cases (List.cons.inj first).1
    · exact ih later

/-- A label is found with the instructions behind it. -/
theorem find?_block
    (distinct : ((listing bs).filterMap Line.label?).Nodup) (there : .label l :: ahead <:+ listing bs) :
    ∃ b, bs.find? (fun b => b.label == l) = some b ∧ b.instrs = heads ahead := by
  induction bs with
  | nil => simp at there
  | cons b bs ih =>
    rw [Ir.listing_cons] at distinct there
    rcases List.suffix_cons_iff.mp there with first | later
    · obtain ⟨same, rfl⟩ := List.cons.inj first
      cases same
      exact ⟨b, by simp, by rw [heads_plain_append, heads_listing, append_nil]⟩
    · have inside := label_behind_plain later
      rw [filterMap_cons_some (Ir.label?_label _), filterMap_append, Ir.filterMap_label?_plain, nil_append] at distinct
      obtain ⟨new, distinct⟩ := List.nodup_cons.mp distinct
      obtain ⟨c, found, code⟩ := ih distinct inside
      have other : b.label ≠ l := by
        rintro rfl
        exact new (List.mem_filterMap.mpr ⟨_, inside.subset mem_cons_self, rfl⟩)
      exact ⟨c, by rw [find?_cons_of_neg (by simpa using other), found], code⟩

/-! ## Contexts -/

/-- A compiled program, and what is found in fresh storage. -/
structure World where
  outline : Outline
  program : Ir.Program
  fill : Nat → Content
  multi : Bool
  compiled : Compiled outline program
  correct : outline.Correct multi
  written : outline.Written
  fits : ∀ g ∈ outline.globals, g.2.Fits

/-- A body under execution: its variables, its function, the storage of its callers and the callers. -/
structure Context (W : World) where
  seen : List Header
  slots : Vars
  func : Ir.Func
  below : List Region
  callers : List Ir.Caller
  known : ∀ h ∈ seen, h ∈ W.outline.headers
  distinct : (slots.map Prod.fst).Nodup
  fits : ∀ v ∈ slots, v.2.Fits
  labels : (func.lines.filterMap Line.label?).Nodup

namespace Context

variable {W : World} (C : Context W)

def env : Env := { outline := W.outline, slots := C.slots, fill := W.fill }

def layout : Layout := Lower.layout W.outline C.seen C.slots

/-- The code of a statement of the body. -/
abbrev Lowers := Lower.Lowers C.layout W.program.strings

/-- The region of a variable. -/
def region (σ : Store) (v : String × VarType) : Region := ⟨v.2.cells, σ.locals v.1⟩

/-- The region of a global variable, by its name in the code. -/
def globalRegion (σ : Store) (g : String × VarType) : String × Region :=
  ("pasg_" ++ g.1, ⟨g.2.cells, σ.globals g.1⟩)

/-- The state of the machine for a store, with lines ahead. -/
def machine (rest : List Line) (τ : Temps) (σ : Store) : Machine where
  frame := { func := C.func, code := heads rest, temps := τ, base := C.below.length }
  callers := C.callers
  stack := C.below ++ C.slots.map (region σ)
  globals := W.outline.globals.map (globalRegion σ)
  input := σ.input
  events := σ.events
  created := σ.created

/-- The machine gets from one place of a body to another, and the body jumps to some labels only. -/
def Leads (J : String → Prop) (rest : List Line) (τ : Temps) (σ : Store) (rest' : List Line) (τ' : Temps)
    (σ' : Store) : Prop :=
  Ir.ReachesWithin W.program W.fill C.callers.length J (C.machine rest τ σ) (C.machine rest' τ' σ')

/-- The temporaries of slots hold their addresses. -/
def Holds (τ : Temps) : Prop := ∀ (j : Nat) v, C.slots[j]? = some v →
  τ (Ir.Temp.key { name := v.1, id := (j : Int) }) = some (.address (.stack (C.below.length + j)) 0)

/-- Where a variable is stored. -/
def anchor : Place → Anchor
  | .own x => .stack (C.below.length + (C.slots.map Prod.fst).idxOf x)
  | .global x => .global ("pasg_" ++ x)

/-- A variable is there, whether or not a constant hides its name. -/
def Stored : Place → VarType → Prop
  | .own x, type => C.slots.lookup x = some type
  | .global x, type => W.outline.globals.lookup x = some type

/-! ## Variables -/

variable {C}

variable {x : String} {place : Place} {type : VarType}

/-- A variable is one of the routine or else a global one. -/
theorem storage?_cases (h : C.env.storage? x = some (place, type)) : (place = .own x ∧ C.slots.lookup x = some type) ∨
      (place = .global x ∧ C.slots.lookup x = none ∧ W.outline.globals.lookup x = some type) := by
  unfold Env.storage? at h
  split at h
  · cases h
  · split at h
    · next found =>
      cases h
      exact .inl ⟨rfl, found⟩
    · next missing =>
      obtain ⟨type', found, same⟩ := Option.map_eq_some_iff.mp h
      cases same
      exact .inr ⟨rfl, missing, found⟩

theorem stored_of (h : C.env.storage? x = some (place, type)) : C.Stored place type := by
  rcases storage?_cases h with ⟨rfl, found⟩ | ⟨rfl, -, found⟩
  · exact found
  · exact found

theorem slot_of_lookup (h : C.slots.lookup x = some type) :
    C.slots[(C.slots.map Prod.fst).idxOf x]? = some (x, type) := Lower.getElem?_idxOf_of_lookup h

/-- No string literal has the label of a variable. -/
theorem no_string_of_global (x : String) : W.program.strings.find? (fun l => l.label == "pasg_" ++ x) = none := by
  refine List.find?_eq_none.mpr fun l member => ?_
  obtain ⟨i, here⟩ := getElem?_of_mem member
  rw [W.compiled.strings.label i l here]
  intro same
  have lists := congrArg String.toList (eq_of_beq same)
  simp at lists

/-- The code has the address of each variable. -/
theorem address_of (held : C.Holds τ) (h : C.env.storage? x = some (place, type)) :
    W.program.address? τ (C.layout.address x) = some (C.anchor place, 0) := by
  unfold layout Lower.layout Ir.Program.address?
  dsimp only
  rcases storage?_cases h with ⟨rfl, found⟩ | ⟨rfl, missing, found⟩
  · have slot := held _ _ (slot_of_lookup found)
    rw [if_pos (Lower.mem_names_of_lookup found), Lower.Code.slot, Ir.Program.operand?, slot]
    rfl
  · have declared : "pasg_" ++ x ∈ W.program.globals.map (·.name) := by
      rw [W.compiled.globals, map_map]
      exact List.mem_map.mpr ⟨_, Table.mem_of_lookup found, rfl⟩
    rw [if_neg (lookup_eq_none_iff.mp missing), Ir.Program.operand?, no_string_of_global]
    rw [if_pos declared]
    rfl

theorem lookup_map_globalRegion {gs : Vars} (σ : Store) (h : gs.lookup x = some type) :
    (gs.map (globalRegion σ)).lookup ("pasg_" ++ x) = some ⟨type.cells, σ.globals x⟩ := by
  induction gs with
  | nil => cases h
  | cons g gs ih =>
    obtain ⟨y, other⟩ := g
    rw [lookup_cons] at h
    rw [map_cons, globalRegion, lookup_cons]
    by_cases same : x = y
    · subst same
      simp only [beq_self_eq_true, Option.some.injEq] at h ⊢
      rw [h]
    · rw [beq_eq_false_iff_ne.mpr same] at h
      rw [beq_eq_false_iff_ne.mpr fun equal => same ((String.append_right_inj "pasg_").mp equal)]
      exact ih h

/-- The region of a variable holds its content. -/
theorem region_of (h : C.Stored place type) (rest : List Line) (τ : Temps) (σ : Store) :
    (C.machine rest τ σ).region? (C.anchor place) = some ⟨type.cells, σ.get place⟩ := by
  cases place with
  | own x =>
    change (C.below ++ C.slots.map (region σ))[C.below.length + _]? = _
    rw [getElem?_append_right (Nat.le_add_right ..), Nat.add_sub_cancel_left, getElem?_map, slot_of_lookup h]
    rfl
  | global x => exact lookup_map_globalRegion σ h

theorem modify_append {α : Type} (xs ys : List α) (j : Nat) (f : α → α) :
    (xs ++ ys).modify (xs.length + j) f = xs ++ ys.modify j f := by
  induction xs with
  | nil => simp
  | cons x xs ih => simpa [Nat.succ_add] using ih

theorem modify_region (found : C.slots.lookup x = some type) (σ : Store) (c : Content) :
    (C.slots.map (region σ)).modify ((C.slots.map Prod.fst).idxOf x) (fun r => { r with data := c }) =
      C.slots.map (region (σ.put (.own x) c)) := by
  refine ext_getElem? fun i => ?_
  rw [getElem?_modify, getElem?_map, getElem?_map]
  cases here : C.slots[i]? with
  | none => simp
  | some v =>
    have name : (C.slots.map Prod.fst)[i]? = some v.1 := by rw [getElem?_map, here]; rfl
    have index : (C.slots.map Prod.fst).idxOf x = i ↔ v.1 = x := by
      constructor
      · rintro rfl
        rw [slot_of_lookup found] at here
        exact congrArg Prod.fst (Option.some.inj here).symm
      · rintro rfl
        obtain ⟨bound, same⟩ := List.getElem?_eq_some_iff.mp name
        rw [← same]
        exact C.distinct.idxOf_getElem i bound
    by_cases same : v.1 = x
    · simp [index.mpr same, region, Store.put, same]
    · simp [mt index.mp same, region, Store.put, same]

/-- To change the region of a variable is to change the variable. -/
theorem setData_of (h : C.Stored place type) (rest : List Line) (τ : Temps) (σ : Store) (c : Content) :
    (C.machine rest τ σ).setData (C.anchor place) c = C.machine rest τ (σ.put place c) := by
  cases place with
  | own x =>
    have regions : (C.below ++ C.slots.map (region σ)).modify
        (C.below.length + (C.slots.map Prod.fst).idxOf x) (fun r => { r with data := c }) =
        C.below ++ C.slots.map (region (σ.put (.own x) c)) := by
      rw [modify_append, modify_region h]
    exact congrArg (fun stack => { C.machine rest τ σ with stack }) regions
  | global x =>
    have regions : (W.outline.globals.map (globalRegion σ)).map
        (fun g => (g.1, if g.1 = "pasg_" ++ x then { g.2 with data := c } else g.2)) =
        W.outline.globals.map (globalRegion (σ.put (.global x) c)) := by
      rw [map_map]
      refine map_congr_left fun g _ => ?_
      have names : "pasg_" ++ g.1 = "pasg_" ++ x ↔ g.1 = x := String.append_right_inj "pasg_"
      by_cases same : g.1 = x <;> simp [globalRegion, Store.put, names, same]
    exact congrArg (fun globals => { C.machine rest τ σ with globals }) regions

end Context

end MiniPascal.Meaning
