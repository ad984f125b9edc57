import MiniPascal.Proofs.Meaning.Image

/-!
# Runs of the pieces of code

Each piece of straight-line code that lowering emits is run once here, on the state of a store: loads and
stores, operations, the address of an element, copies, output and input, and jumps. Every one of them
leaves the temporaries with smaller numbers as they are.
-/

open List

namespace MiniPascal.Meaning

open Ir.Machine
open Ir.Program
open Ir (Value Instr Ty Line plain Temps Val Anchor Machine)
open Lower

/-! ## Temporaries -/

/-- Temporaries with numbers below `n` keep their values. -/
def Agree (n : Nat) (τ τ' : Temps) : Prop :=
  ∀ (name : String) (k : Nat), k < n → τ' (Ir.Temp.key { name, id := k }) = τ (Ir.Temp.key { name, id := k })

namespace Agree

variable {m n : Nat} {τ τ' τ'' : Temps}

theorem refl (n : Nat) (τ : Temps) : Agree n τ τ := fun _ _ _ => rfl

theorem trans (h : Agree n τ τ') (h' : Agree n τ' τ'') : Agree n τ τ'' :=
  fun name k low => (h' name k low).trans (h name k low)

theorem mono (h : Agree n τ τ') (le : m ≤ n) : Agree m τ τ' :=
  fun name k low => h name k (Nat.lt_of_lt_of_le low le)

theorem set (le : n ≤ m) (name : String) (v : Val) : Agree n τ (τ.set { name, id := m } v) := by
  intro other k low
  refine if_neg fun same => ?_
  have := key_inj same
  omega

end Agree

/-- A value that can be read without temporaries from `n` on. -/
inductive Below (n : Nat) : Value → Prop
  | const (value : Int64) : Below n (.const value)
  | global (name : String) : Below n (.global name)
  | temp : k < n → Below n (.temp { name, id := k })

variable {n : Nat} {v : Value} {τ τ' : Temps}

theorem Below.mono (h : Below m v) (le : m ≤ n) : Below n v := by
  cases h with
  | const value => exact .const value
  | global name => exact .global name
  | temp low => exact .temp (Nat.lt_of_lt_of_le low le)

theorem Below.operand (h : Below n v) (agree : Agree n τ τ') (p : Ir.Program) (type : Ty) :
    p.operand? τ' type v = p.operand? τ type v := by
  cases h with
  | const | global => rfl
  | temp low => exact agree _ _ low

theorem Below.word (h : Below n v) (agree : Agree n τ τ') (p : Ir.Program) : p.word? τ' v = p.word? τ v := by
  unfold word?
  rw [h.operand agree]

theorem Below.address (h : Below n v) (agree : Agree n τ τ') (p : Ir.Program) : p.address? τ' v = p.address? τ v := by
  unfold address?
  rw [h.operand agree]

theorem below_of_emits
    (h : Emits L (.word t v) n is m) : Below m v := by
  rcases h.value with ⟨value, rfl⟩ | ⟨j, -, low, rfl⟩
  · exact .const value
  · exact .temp low

theorem below_layout (o : Static.Outline) (seen : List Static.Header) (slots : Vars)
    (x : String) : Below slots.length ((layout o seen slots).address x) := by
  unfold layout
  dsimp only
  split
  · next member =>
    have bound := idxOf_lt_length_of_mem member
    rw [length_map] at bound
    exact .temp bound
  · exact .global _

@[simp] theorem set_self (τ : Temps) (v : Val) : τ.set t v t.key = some v := if_pos rfl

theorem operand_temp {v : Val} (p : Ir.Program) (type : Ty) :
    p.operand? (τ.set { name := "", id := n } v) type (Code.temp n) = some v := set_self τ v

namespace Context

variable {W : World} {C : Context W}

theorem Holds.agree {n : Nat} {τ τ' : Temps} (held : C.Holds τ) (agree : Agree n τ τ')
    (le : C.slots.length ≤ n) : C.Holds τ' := by
  intro j v here
  rw [agree _ _ (Nat.lt_of_lt_of_le (List.getElem?_eq_some_iff.mp here).1 le)]
  exact held j v here

/-- The slots have temporaries below `a`, which hold their addresses. -/
structure Stands (C : Context W) (a : Nat) (τ : Temps) : Prop where
  taken : C.slots.length ≤ a
  held : C.Holds τ

theorem Stands.holds (h : C.Stands a τ) (agree : Agree a τ τ') : C.Holds τ' := h.held.agree agree h.taken

theorem Stands.agree (h : C.Stands a τ) (agree : Agree a τ τ') (le : a ≤ b) : C.Stands b τ' :=
  ⟨h.taken.trans le, h.holds agree⟩

theorem below_address (x : String) : Below C.slots.length (C.layout.address x) := below_layout ..

/-! ## Runs -/

section Runs

variable {ls : List Line} {τ τ' : Temps} {σ σ' σ'' : Store} {m n : Nat}

@[simp] theorem machine_temps : (C.machine ls τ σ).frame.temps = τ := rfl

variable {J : String → Prop} {ls' ahead : List Line} {p : Ir.Program} {i : Instr} {Q : Temps → Prop}
  {a x format : Value} {place : Place} {k : Nat} {w : Word} {op : Kind} {operation : Ir.Op} {type : VarType}
  {text l yes no : String}

theorem Leads.refl : C.Leads J ls τ σ ls τ σ := Relation.ReflTransGen.refl

theorem Leads.trans (h : C.Leads J ls τ σ ls' τ' σ')
    (h' : C.Leads J ls' τ' σ' ls'' τ'' σ'') : C.Leads J ls τ σ ls'' τ'' σ'' := Ir.ReachesWithin.trans h h'

theorem Leads.mono {J' : String → Prop} (h : C.Leads J ls τ σ ls' τ' σ') (imp : ∀ l, J l → J' l) :
    C.Leads J' ls τ σ ls' τ' σ' := Ir.ReachesWithin.mono h imp

/-- Where a body does not jump, any jump would be allowed. -/
theorem Leads.still (h : C.Leads (fun _ => False) ls τ σ ls' τ' σ') :
    C.Leads J ls τ σ ls' τ' σ' := h.mono fun _ => False.elim

/-- Straight-line code takes one store to another without a jump, keeps the temporaries with numbers below
`n`, and leaves the others in a certain condition. -/
def Runs (C : Context W) (n : Nat) (is : List Instr) (τ : Temps) (σ σ' : Store) (Q : Temps → Prop) : Prop :=
  ∀ post, ∃ τ', C.Leads (fun _ => False) (plain is ++ post) τ σ post τ' σ' ∧ Agree n τ τ' ∧ Q τ'

namespace Runs

variable {is js : List Instr} {Q R : Temps → Prop}

theorem nil (h : Q τ) : C.Runs n [] τ σ σ Q := fun _ => ⟨τ, .refl, .refl n τ, h⟩

theorem append (first : C.Runs n is τ σ σ' Q) (le : n ≤ m)
    (second : ∀ τ', Agree n τ τ' → Q τ' → C.Runs m js τ' σ' σ'' R) : C.Runs n (is ++ js) τ σ σ'' R := by
  intro post
  obtain ⟨τ₁, leads₁, agree₁, holds⟩ := first (plain js ++ post)
  obtain ⟨τ₂, leads₂, agree₂, holds'⟩ := second τ₁ agree₁ holds post
  refine ⟨τ₂, ?_, agree₁.trans (agree₂.mono le), holds'⟩
  rw [Ir.plain_append, append_assoc]
  exact leads₁.trans leads₂

theorem cons {i : Instr} (first : C.Runs n [i] τ σ σ' Q) (le : n ≤ m)
    (second : ∀ τ', Agree n τ τ' → Q τ' → C.Runs m js τ' σ' σ'' R) : C.Runs n (i :: js) τ σ σ'' R :=
  first.append le second

theorem mono (h : C.Runs n is τ σ σ' Q) (imp : ∀ τ', Agree n τ τ' → Q τ' → R τ') : C.Runs n is τ σ σ' R :=
  fun post => (h post).imp fun τ' ⟨leads, agree, holds⟩ => ⟨leads, agree, imp τ' agree holds⟩

end Runs

theorem next?_inner {fill : Nat → Content} {m : Machine}
    (inner : i.op.isTerminator = false) (code : m.frame.code = i :: rest) :
    m.next? p fill = ((m.goTo rest).execute? p fill i).map .running := by
  obtain ⟨op, type, operandType, result, args, argTypes, align⟩ := i
  unfold Ir.Machine.next?
  rw [code]
  cases op <;> cases inner <;> rfl

/-- An instruction inside a block is executed. -/
theorem leads_execute (inner : i.op.isTerminator = false)
    (h : (C.machine ls τ σ).execute? W.program W.fill i = some (C.machine ls τ' σ')) :
    C.Leads (fun _ => False) (.instr i :: ls) τ σ ls τ' σ' := by
  refine .single ?_ (Nat.le_refl _) (Machine.target?_inner inner rfl)
  unfold Ir.Steps
  rw [next?_inner inner rfl]
  exact congrArg (Option.map Ir.Config.running) h

/-- An instruction without a result. -/
theorem runs_effect (inner : i.op.isTerminator = false) (holds : Q τ)
    (h : ∀ ls, (C.machine ls τ σ).execute? W.program W.fill i = some (C.machine ls τ σ')) :
    C.Runs n [i] τ σ σ' Q := fun post => ⟨τ, leads_execute inner (h post), .refl n τ, holds⟩

/-- An instruction with a result. -/
theorem runs_define {v : Val} (inner : i.op.isTerminator = false) (holds : Q (τ.set { name := "", id := n } v))
    (h : ∀ ls, (C.machine ls τ σ).execute? W.program W.fill i =
      (C.machine ls τ σ').assign? (Code.temp n) v) : C.Runs n [i] τ σ σ' Q :=
  fun post => ⟨_, leads_execute inner (h post), .set (Nat.le_refl n) _ _, holds⟩

/-! ## Loads, stores and operations -/

/-- An address is that of a cell of a variable. -/
structure Points (C : Context W) (τ : Temps) (a : Value) (place : Place) (k : Nat) : Prop where
  address : W.program.address? τ a = some (C.anchor place, 4 * (k : Int))
  inside : ∃ type, C.Stored place type ∧ k < type.cells

theorem Points.agree (h : C.Points τ a place k) (below : Below n a) (agree : Agree n τ τ') : C.Points τ' a place k :=
  ⟨by rw [below.address agree]; exact h.address, h.inside⟩

/-- An integer variable has one cell. -/
theorem points_of_integer (held : C.Holds τ) {x : String} (h : C.env.storage? x = some (place, .integer)) :
    C.Points τ (C.layout.address x) place 0 :=
  ⟨address_of held h, .integer, stored_of h, Nat.one_pos⟩

theorem cellAt?_mul (k : Nat) : Ir.cellAt? (4 * (k : Int)) = some k := by
  unfold Ir.cellAt?
  rw [if_pos (by omega)]
  simp

theorem Points.read? (h : C.Points τ a place k) :
    (C.machine ls τ σ).read? (C.anchor place) (4 * (k : Int)) = some (σ.get place k) := by
  obtain ⟨type, stored, inside⟩ := h.inside
  unfold Ir.Machine.read?
  rw [region_of stored, cellAt?_mul]
  simp [inside]

theorem Points.write? (h : C.Points τ a place k) (w : Word) :
    (C.machine ls τ σ).write? (C.anchor place) (4 * (k : Int)) w = some (C.machine ls τ (σ.assign place k w)) := by
  obtain ⟨type, stored, inside⟩ := h.inside
  unfold Ir.Machine.write?
  rw [region_of stored, cellAt?_mul]
  simp [inside, setData_of stored, Store.assign]

theorem word?_const (p : Ir.Program) (value : Int64) : p.word? τ (.const value) = some (literal value) := by
  rw [← toBitVec_setWidth]
  rfl

theorem word?_temp {p : Ir.Program} (w : Word) :
    p.word? (τ.set { name := "", id := n } (.word w)) (Code.temp n) = some w := by
  unfold word?
  rw [operand_temp]

theorem long?_temp {p : Ir.Program} {w : BitVec 64} :
    p.long? (τ.set { name := "", id := n } (.long w)) (Code.temp n) = some w := by
  unfold long?
  rw [operand_temp]

theorem address?_temp {p : Ir.Program} {anchor : Anchor} :
    p.address? (τ.set { name := "", id := n } (.address anchor offset)) (Code.temp n) = some (anchor, offset) := by
  unfold address?
  rw [operand_temp]

theorem operand_of_address {anchor : Anchor} (h : p.address? τ a = some (anchor, offset)) :
    p.operand? τ .address a = some (.address anchor offset) := by
  unfold address? at h
  split at h
  · next found =>
    cases h
    exact found
  · cases h

theorem operand_of_word (h : p.word? τ v = some w) : p.operand? τ .word v = some (.word w) := by
  unfold word? at h
  split at h
  · next found =>
    cases h
    exact found
  · cases h

theorem runs_load (h : C.Points τ a place k) :
    C.Runs n [Code.load n a] τ σ σ fun τ' => W.program.word? τ' (Code.temp n) = some (σ.get place k) := by
  refine runs_define rfl (word?_temp _) fun ls => ?_
  simp only [execute?, Code.load, machine_temps, h.address, Option.bind_eq_bind, Option.bind_some, h.read?]

theorem runs_store (h : C.Points τ a place k) (value : W.program.word? τ v = some w) (holds : Q τ) :
    C.Runs n [Code.store a v] τ σ (σ.assign place k w) Q := by
  refine runs_effect rfl holds fun ls => ?_
  simp only [execute?, Code.store, machine_temps, value, h.address, Option.bind_eq_bind,
    Option.bind_some, h.write?]

theorem execute?_compute {fill : Nat → Content} (known : operation? op = some operation) (m : Machine)
    (type : Ty) (x y : Value) : m.execute? p fill (Code.compute operation type n x y) =
      (p.binary? m.frame.temps (Code.compute operation type n x y) x y).bind (m.assign? (Code.temp n)) := by
  cases op <;> cases known <;> rfl

theorem runs_binary {type : Ty} {v : Val}
    (known : operation? op = some operation) (holds : Q (τ.set { name := "", id := n } v))
    (value : W.program.binary? τ (Code.compute operation type n x y) x y = some v) :
    C.Runs n [Code.compute operation type n x y] τ σ σ Q := by
  refine runs_define (operation?_simple known).goes holds fun ls => ?_
  rw [execute?_compute known, machine_temps, value, Option.bind_some]

/-- An operation on words. -/
theorem runs_compute {a : Word} (known : operation? op = some operation)
    (left : W.program.word? τ x = some a) (right : W.program.word? τ y = some b)
    (h : onWords? operation a b = some w) : C.Runs n [Code.compute operation .word n x y] τ σ σ
      fun τ' => W.program.word? τ' (Code.temp n) = some w := by
  refine runs_binary known (word?_temp w) ?_
  unfold onWords? at h
  simp only [binary?, Code.compute, left, right, Option.bind_eq_bind, Option.bind_some]
  rw [← Option.map_some, ← h, Option.map_or, Option.map_map]
  rfl

/-- The word of an index becomes a long. -/
theorem runs_extend (h : W.program.word? τ x = some w) : C.Runs n [Code.extend n x] τ σ σ
      fun τ' => W.program.long? τ' (Code.temp n) = some (w.signExtend 64) := by
  refine runs_define rfl long?_temp fun ls => ?_
  simp only [execute?, Code.extend, machine_temps, h, Option.bind_eq_bind, Option.bind_some]

/-- The address of an element is computed. -/
theorem runs_addressing (stands : C.Stands n τ) {a : String} {lower : Int64}
    {i : Word} (stored : C.env.storage? a = some (place, .array lower upper .integer))
    (index : Env.index? lower upper i = some k) (value : W.program.word? τ v = some i) :
    C.Runs n (Code.addressing n (C.layout.address a) v lower) τ σ σ
      fun τ' => C.Points τ' (Code.temp (n + 3)) place k := by
  have minus : operation? .minus = some .sub := rfl
  have times : operation? .star = some .mul := rfl
  have plus : operation? .plus = some .add := rfl
  refine (runs_compute minus value (word?_const _ lower) rfl).cons (Nat.le_add_right n 1) fun τ₁ agree₁ offset => ?_
  refine (runs_extend offset).cons (Nat.le_add_right _ 1) fun τ₂ agree₂ wide => ?_
  have product : W.program.binary? τ₂ (Code.compute .mul .long (n + 2) (Code.temp (n + 1)) (.const 4))
      (Code.temp (n + 1)) (.const 4) =
      some (.long ((i - literal lower).signExtend 64 * (4 : Int64).toBitVec)) := by
    simp only [binary?, Code.compute, wide, Option.bind_eq_bind, Option.bind_some]
    rfl
  have multiplied : C.Runs (n + 2) [_] τ₂ σ σ fun τ' => W.program.long? τ' (Code.temp (n + 2)) =
      some ((i - literal lower).signExtend 64 * (4 : Int64).toBitVec) := runs_binary times long?_temp product
  refine multiplied.cons (Nat.le_add_right _ 1) fun τ₃ agree₃ bytes => ?_
  have agree : Agree n τ τ₃ := (agree₁.trans (agree₂.mono (by omega))).trans (agree₃.mono (by omega))
  have base := address_of (stands.holds agree) stored
  refine runs_binary plus ⟨address?_temp, _, stored_of stored, index?_lt index⟩ ?_
  simp only [binary?, Code.compute, base, bytes, Option.bind_eq_bind, Option.bind_some,
    offset_toInt index, Int.zero_add, if_pos]

/-- A cell is stepped by an amount. -/
theorem runs_bump (known : operation? op = some operation)
    (points : C.Points τ a place k) (belowAddress : Below n a) (value : W.program.word? τ v = some amount)
    (belowValue : Below n v) (h : onWords? operation (σ.get place k) amount = some w) :
    C.Runs n (Code.bump operation n a v) τ σ (σ.assign place k w) fun _ => True := by
  refine (runs_load points).cons (Nat.le_add_right n 1) fun τ₁ agree₁ old => ?_
  have right : W.program.word? τ₁ v = some amount := by rw [belowValue.word agree₁]; exact value
  refine (runs_compute known old right h).cons (Nat.le_refl _) fun τ₂ agree₂ new => ?_
  have points₂ := points.agree belowAddress (agree₁.trans (agree₂.mono (Nat.le_add_right n 1)))
  exact runs_store points₂ new trivial

/-! ## Copies -/

theorem cellAt?_size (fits : type.Fits) : Ir.cellAt? type.size.toInt = some type.cells := by
  rw [fits, cellAt?_mul]

theorem cells_eq_of_size_eq {type' : VarType} (fits : type.Fits) (fits' : type'.Fits)
    (same : type'.size = type.size) : type'.cells = type.cells := by
  unfold VarType.Fits at fits fits'
  rw [same] at fits'
  omega

theorem fits_of_stored (h : C.Stored place type) : type.Fits := by
  cases place with
  | own x => exact C.fits _ (Table.mem_of_lookup h)
  | global x => exact W.fits _ (Table.mem_of_lookup h)

/-- As many cells as a size says are copied from the start of a region to that of another one. -/
theorem copy?_whole {m : Machine} {target : Anchor} {n : Nat}
    (hr : m.region? source = some r) (hs : m.region? target = some s) (cells : Ir.cellAt? size.toInt = some n)
    (inSource : n ≤ r.cells) (inTarget : n ≤ s.cells) :
    m.copy? source 0 target 0 size = some (m.setData target (copyCells n r.data s.data)) := by
  have zero : Ir.cellAt? 0 = some 0 := rfl
  have copied : (fun k => if 0 ≤ k ∧ k < 0 + n then r.data (0 + (k - 0)) else s.data k) =
      copyCells n r.data s.data := by
    funext k
    simp [copyCells]
  simp only [copy?, hr, hs, zero, cells, Option.bind_eq_bind, Option.bind_some, copied]
  simp [inSource, inTarget]

/-- An array is copied to another one. -/
theorem runs_copy (held : C.Holds τ) {x y : String} {place' : Place} {type' : VarType}
    (target : C.env.storage? x = some (place, type)) (source : C.env.storage? y = some (place', type'))
    (same : type'.size = type.size) : C.Runs n [Code.copy (C.layout.address y) (C.layout.address x) type.size] τ σ
      (σ.put place (copyCells type.cells (σ.get place') (σ.get place))) fun _ => True := by
  have fits := fits_of_stored (stored_of target)
  have cells := cells_eq_of_size_eq fits (fits_of_stored (stored_of source)) same
  refine runs_effect rfl trivial fun ls => ?_
  simp only [execute?, Code.copy, machine_temps, address_of held source, address_of held target,
    Option.bind_eq_bind, Option.bind_some]
  rw [copy?_whole (region_of (stored_of source) ..) (region_of (stored_of target) ..) (cellAt?_size fits)
    (Nat.le_of_eq cells.symm) (Nat.le_refl _), setData_of (stored_of target)]

/-! ## Output and input -/

/-- A literal is found by its label. -/
theorem operand_literal (h : Literal W.program.strings text v) (type : Ty) :
    W.program.operand? τ type v = some (.text text) := by
  obtain ⟨label, member, rfl⟩ := h
  have labels := W.compiled.strings.label
  have found : W.program.strings.find? (fun l => l.label == label) = some ⟨label, text⟩ := by
    cases found : W.program.strings.find? (fun l => l.label == label) with
    | none => exact absurd (List.find?_eq_none.mp found _ member) (by simp)
    | some l =>
      obtain ⟨i, here⟩ := getElem?_of_mem (mem_of_find?_eq_some found)
      obtain ⟨j, there⟩ := getElem?_of_mem member
      have same : l.label = label := by simpa using find?_some found
      have index : i = j := toString_nat_inj ((String.append_right_inj "str").mp
        ((labels i l here).symm.trans (same.trans (labels j _ there))))
      rw [index] at here
      exact here.symm.trans there
  simp only [operand?, found]

theorem func?_eq_none (notMain : g ≠ "main") (notRoutine : ∀ f, g ≠ "pas_" ++ f) :
    W.program.func? g = none := by
  refine List.find?_eq_none.mpr fun f member same => ?_
  have name := eq_of_beq same
  rcases W.compiled.cases member with main | ⟨d, -, code⟩
  · exact notMain (name.symm.trans main.name)
  · exact notRoutine _ (name.symm.trans code.name)

theorem func?_printf : W.program.func? "printf" = none :=
  func?_eq_none (by decide) fun f same => by
    have lists := congrArg String.toList same
    simp at lists

theorem func?_scanf : W.program.func? "scanf" = none :=
  func?_eq_none (by decide) fun f same => by
    have lists := congrArg String.toList same
    simp at lists

/-- Something is printed. -/
theorem runs_print
    (literal : Literal W.program.strings text format)
    (values : W.program.values? τ (value.toList.map Prod.fst) (value.toList.map Prod.snd) = some vals)
    (shown : vals.mapM Val.datum? = some data) :
    C.Runs n [Code.print format value] τ σ (σ.emit (.print text data)) fun _ => True := by
  refine runs_effect rfl trivial fun ls => ?_
  simp only [execute?, Code.print, machine_temps, values?, operand_literal literal,
    values, Option.bind_eq_bind, Option.bind_some, Option.pure_def, call?, func?_printf, if_pos,
    print?, shown]
  rfl

theorem runs_print_datum {type : Ty}
    (literal : Literal W.program.strings text format) (operand : W.program.operand? τ type v = some val)
    (shown : val.datum? = some datum) :
    C.Runs n [Code.print format (some (v, type))] τ σ (σ.emit (.print text [datum])) fun _ => True := by
  have values : W.program.values? τ [v] [type] = some [val] := by simp [values?, operand]
  exact runs_print literal values (by simp [shown])

theorem Points.scan? (points : C.Points τ a place k) :
    (C.machine ls τ σ).scan? [.text "%d", .address (C.anchor place) (4 * (k : Int))] =
      some (C.machine ls τ (σ.scan place k)) := by
  obtain ⟨globals, locals, input, events, created⟩ := σ
  cases input with
  | nil => rfl
  | cons value rest =>
    have written : (C.machine ls τ ⟨globals, locals, rest, events, created⟩).write? (C.anchor place)
        (4 * (k : Int)) (wrap value) = _ := points.write? (wrap value)
    change (do
      let m ← (C.machine ls τ ⟨globals, locals, rest, events, created⟩).write? (C.anchor place)
        (4 * (k : Int)) (wrap value)
      return { m with events := m.events ++ [Event.scan "%d" (some (wrap value))] }) = _
    rw [written]
    rfl

/-- A number is read into a cell. -/
theorem runs_scan (literal : Literal W.program.strings "%d" format) (points : C.Points τ a place k) :
    C.Runs n [Code.scan format a] τ σ (σ.scan place k) fun _ => True := by
  refine runs_effect rfl trivial fun ls => ?_
  simp only [execute?, Code.scan, machine_temps, values?, operand_literal literal,
    operand_of_address points.address, Option.bind_eq_bind, Option.bind_some, Option.pure_def, call?,
    func?_scanf]
  rw [if_neg (by decide), if_pos trivial]
  exact points.scan?

/-! ## Jumps -/

theorem jump?_eq (there : .label l :: ahead <:+ C.func.lines) :
    (C.machine ls τ σ).jump? l = some (C.machine ahead τ σ) := by
  obtain ⟨b, found, code⟩ := find?_block C.labels there
  change (C.func.blocks.find? _).map _ = _
  rw [found, Option.map_some, code]
  rfl

theorem steps_jump (there : .label l :: ahead <:+ C.func.lines) :
    Ir.Steps W.program W.fill (C.machine (.instr (Code.jump l) :: ls) τ σ) (C.machine ahead τ σ) := by
  change ((C.machine _ τ σ).jump? l).map Ir.Config.running = _
  rw [jump?_eq there]
  rfl

theorem leads_jump (there : .label l :: ahead <:+ C.func.lines) (allowed : J l) :
    C.Leads J (.instr (Code.jump l) :: ls) τ σ ahead τ σ :=
  .jump (steps_jump there) (Nat.le_refl _) rfl allowed

theorem steps_branch (value : W.program.word? τ v = some w)
    (there : .label (if w ≠ 0 then yes else no) :: ahead <:+ C.func.lines) :
    Ir.Steps W.program W.fill (C.machine (.instr (Code.branch v yes no) :: ls) τ σ) (C.machine ahead τ σ) := by
  change (do
    let w ← W.program.word? τ v
    ((C.machine _ τ σ).jump? (if w ≠ 0 then yes else no)).map Ir.Config.running) = _
  rw [value, Option.bind_eq_bind, Option.bind_some, jump?_eq there]
  rfl

theorem target?_branch (value : W.program.word? τ v = some w) :
    (C.machine (.instr (Code.branch v yes no) :: ls) τ σ).target? W.program = some (if w ≠ 0 then yes else no) := by
  have moved : (Code.branch v yes no).move? W.program τ = some (.jump (if w ≠ 0 then yes else no)) :=
    congrArg (Option.map fun w => Ir.Move.jump (if w ≠ 0 then yes else no)) value
  exact congrArg (Option.bind · Ir.Move.target?) moved

theorem leads_branch (value : W.program.word? τ v = some w) (chosen : (if w ≠ 0 then yes else no) = l)
    (there : .label l :: ahead <:+ C.func.lines) (allowed : J l) :
    C.Leads J (.instr (Code.branch v yes no) :: ls) τ σ ahead τ σ := by
  subst chosen
  exact .jump (steps_branch value there) (Nat.le_refl _) (target?_branch value) allowed

end Runs

end Context

end MiniPascal.Meaning
