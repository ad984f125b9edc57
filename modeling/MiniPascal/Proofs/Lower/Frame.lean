import MiniPascal.Lower.Program

/-!
# What lowering leaves alone

Lowering a piece of a routine's body reports faults and goes on, so every property of the finished
code rests on facts that hold on all of its paths. `Frame s s'` collects them: the tables say the
same about every name as before, marks of use apart; the stacks are as they were found; finished
functions and data are untouched. What is only ever added to, here and in the rest of lowering, is
said by `Grows s s'`.

`Keeps m` says that a step of lowering stays inside its frame, whatever state it starts in. It is
closed under sequencing, and the primitive steps are shown to have it here.
-/

open List

namespace MiniPascal

/-! ## Tables -/

namespace Table

variable {α β : Type}

/-- No name has two entries. -/
def Unique (t : Table α) : Prop := (t.entries.map Prod.fst).Nodup

theorem get?_insert (t : Table α) (name other : String) (value : α) :
    (t.insert name value).get? other = if other = name then some value else t.get? other := by
  split
  · next same =>
    subst same
    exact get?_insert_self t other value
  · next differs => exact get?_insert_of_ne t value differs

/-- Replacing an entry by one that looks the same changes no view of the table. -/
theorem map_get?_insert {t : Table α} {name : String} {old new : α} (view : α → β)
    (entry : t.get? name = some old) (same : view new = view old) (other : String) :
    ((t.insert name new).get? other).map view = (t.get? other).map view := by
  rw [get?_insert]
  split
  · next h => rw [h, entry, Option.map_some, Option.map_some, same]
  · rfl

theorem Unique.insert {t : Table α} (h : t.Unique) (name : String) (value : α) : (t.insert name value).Unique := by
  unfold Unique Table.insert
  rw [map_cons, nodup_cons]
  constructor
  · intro member
    obtain ⟨e, he, same⟩ := List.mem_map.mp member
    simp [same] at he
  · exact h.sublist (filter_sublist.map Prod.fst)

theorem unique_empty : ({} : Table α).Unique := nodup_nil

theorem lookup_eq_some_of_mem {es : List (String × α)} (distinct : (es.map Prod.fst).Nodup)
    {name : String} {value : α} (member : (name, value) ∈ es) : es.lookup name = some value := by
  obtain ⟨front, back, rfl⟩ := append_of_mem member
  refine lookup_eq_some_iff.mpr ⟨front, back, rfl, fun e earlier => bne_iff_ne.mpr ?_⟩
  rintro rfl
  rw [map_append, nodup_append] at distinct
  exact distinct.2.2 e.1 (mem_map_of_mem earlier) e.1 mem_cons_self rfl

theorem mem_of_lookup {es : List (String × α)} {name : String} {value : α}
    (found : es.lookup name = some value) : (name, value) ∈ es := by
  obtain ⟨front, back, rfl, -⟩ := lookup_eq_some_iff.mp found
  simp

/-- The names listed by `namesWhere` are those whose entry satisfies the test. -/
theorem mem_namesWhere {t : Table α} (h : t.Unique) (p : α → Bool) (name : String) :
    name ∈ t.namesWhere p ↔ ∃ value, t.get? name = some value ∧ p value = true := by
  unfold namesWhere
  rw [mem_mergeSort, List.mem_map]
  constructor
  · rintro ⟨⟨key, value⟩, member, rfl⟩
    obtain ⟨inside, holds⟩ := mem_filter.mp member
    exact ⟨value, lookup_eq_some_of_mem h inside, holds⟩
  · rintro ⟨value, found, holds⟩
    exact ⟨(name, value), mem_filter.mpr ⟨mem_of_lookup found, holds⟩, rfl⟩

end Table

theorem lookup_eq_none_iff {α : Type} {vs : List (String × α)} :
    vs.lookup x = none ↔ x ∉ vs.map Prod.fst := by
  rw [List.lookup_eq_none_iff]
  simp only [List.mem_map, not_exists, not_and, bne_iff_ne, ne_eq]
  exact ⟨fun h e member same => h e member same.symm, fun h e member same => h e member same.symm⟩

theorem lookup_snoc {α : Type} {vs : List (String × α)} (new : x ∉ vs.map Prod.fst) (a : α)
    (y : String) : (vs ++ [(x, a)]).lookup y = if y = x then some a else vs.lookup y := by
  rw [lookup_append]
  by_cases same : y = x
  · subst same
    rw [lookup_eq_none_iff.mpr new, if_pos rfl]
    simp
  · have other : List.lookup y [(x, a)] = none := lookup_eq_none_iff.mpr (by simpa using same)
    rw [other, Option.or_none, if_neg same]

end MiniPascal

namespace MiniPascal.Lower

/-! ## Running steps -/

section Apply

variable {α β : Type} (s : State)

@[simp] theorem bind_apply (m : Lowering α) (f : α → Lowering β) : (m >>= f) s = f (m s).1 (m s).2 := rfl

@[simp] theorem pure_apply (a : α) : (pure a : Lowering α) s = (a, s) := rfl

@[simp] theorem get_apply : (get : Lowering State) s = (s, s) := rfl

@[simp] theorem set_apply (s' : State) : (set s' : Lowering PUnit) s = (⟨⟩, s') := rfl

@[simp] theorem modify_apply (f : State → State) : (modify f : Lowering PUnit) s = (⟨⟩, f s) := rfl

@[simp] theorem fault_apply (tok : Token) (f : Fault) :
    fault tok f s = (⟨⟩, { s with faults := s.faults ++ [f.diagnostic tok] }) := rfl

@[simp] theorem caution_apply (tok : Token) (c : Caution) :
    caution tok c s = (⟨⟩, { s with remarks := s.remarks ++ Remark.enabled s.enabled [c.remark tok] }) := rfl

@[simp] theorem newTemp_apply (name : String) :
    newTemp name s = (({ name, id := s.temps } : Ir.Temp), { s with temps := s.temps + 1 }) := rfl

@[simp] theorem closeBlock_apply :
    closeBlock s = (⟨⟩, { s with blocks := s.blocks ++ s.current?.toList, current? := none }) := rfl

@[simp] theorem startBlock_apply (label : String) : startBlock label s =
      (⟨⟩, { s with blocks := s.blocks ++ s.current?.toList, current? := some ⟨label, []⟩ }) := rfl

end Apply

/-! ## Views of the tables -/

/-- A variable without the mark of use. -/
def Variable.bare (v : Variable) : Variable := { v with used := false }

/-- A routine without the mark of its first call. -/
def Routine.bare (r : Routine) : Routine := { r with call? := none }

/-- What a view shows does not depend on what it does not show. -/
theorem map_eq_of_map_eq {α β : Type} {f : α → α} {view : α → β} (blind : ∀ a, view (f a) = view a)
    {a a' : Option α} (same : a'.map f = a.map f) : a'.map view = a.map view := by
  have through : view ∘ f = view := funext blind
  rw [← through, ← Option.map_map, same, Option.map_map]

/-- Whether a routine has been called. -/
def State.Called (s : State) (f : String) : Prop :=
  ∃ r, s.routines.get? f = some r ∧ r.call?.isSome

/-! ## Growth -/

/-- A table of strings as interning builds it: labels are numbered, and no string occurs twice. -/
structure Interned (strings : List Ir.StringLit) : Prop where
  label : ∀ (i : Nat) (l : Ir.StringLit), strings[i]? = some l → l.label = "str" ++ toString i
  distinct : (strings.map (·.value)).Nodup

theorem Interned.nil : Interned [] := ⟨by simp, nodup_nil⟩

theorem Interned.snoc (h : Interned strings)
    (new : value ∉ strings.map (·.value)) :
    Interned (strings ++ [{ label := "str" ++ toString strings.length, value }]) where
  label i l found := by
    rw [getElem?_append] at found
    split at found
    · exact h.label i l found
    · next beyond =>
      obtain ⟨rfl, rfl⟩ : i = strings.length ∧ _ = l := by
        simp only [getElem?_singleton] at found
        split at found
        · exact ⟨by omega, by simpa using found⟩
        · cases found
      rfl
  distinct := by
    rw [map_append, nodup_append]
    refine ⟨h.distinct, by simp, ?_⟩
    simp only [map_cons, map_nil, mem_singleton]
    rintro a member b rfl rfl
    exact new member

/-- How the parts of the state grow that nothing takes back: calls are remembered, strings keep their
labels, and faults are added, each of them one of the program and not of the tree. The switches stay. -/
structure Grows (s s' : State) : Prop where
  called : ∀ f, s.Called f → s'.Called f
  strings : s.strings <+: s'.strings
  interned : Interned s.strings → Interned s'.strings
  faults : ∃ new, s'.faults = s.faults ++ new ∧ ∀ d ∈ new, d.category = .semantic
  enabled : s'.enabled = s.enabled

namespace Grows

theorem refl (s : State) : Grows s s where
  called _ h := h
  strings := prefix_rfl
  interned h := h
  faults := ⟨[], by simp, by simp⟩
  enabled := rfl

theorem trans (first : Grows s₁ s₂) (second : Grows s₂ s₃) : Grows s₁ s₃ where
  called f h := second.called f (first.called f h)
  strings := first.strings.trans second.strings
  interned h := second.interned (first.interned h)
  faults := by
    obtain ⟨new₁, h₁, sem₁⟩ := first.faults
    obtain ⟨new₂, h₂, sem₂⟩ := second.faults
    refine ⟨new₁ ++ new₂, by rw [h₂, h₁, append_assoc], ?_⟩
    exact forall_mem_append.mpr ⟨sem₁, sem₂⟩
  enabled := second.enabled.trans first.enabled

/-- Faults that are not there in the end were never added. -/
theorem faults_eq (first : Grows s₁ s₂) (second : Grows s₂ s₃)
    (same : s₃.faults = s₁.faults) : s₂.faults = s₁.faults ∧ s₃.faults = s₂.faults := by
  obtain ⟨new₁, h₁, -⟩ := first.faults
  obtain ⟨new₂, h₂, -⟩ := second.faults
  have none : new₁ ++ new₂ = [] := by
    rw [h₂, h₁, append_assoc] at same
    exact append_right_eq_self.mp same
  obtain ⟨rfl, rfl⟩ := append_eq_nil_iff.mp none
  exact ⟨by rw [h₁, append_nil], by rw [h₂, append_nil]⟩

end Grows

/-! ## Frames -/

/-- What a piece of a routine's body leaves alone, while the rest of the state grows. -/
structure Frame (s s' : State) : Prop extends Grows s s' where
  constants : s'.constants = s.constants
  locals : ∀ x, (s'.locals.get? x).map Variable.bare = (s.locals.get? x).map Variable.bare
  globals : ∀ x, (s'.globals.get? x).map Variable.bare = (s.globals.get? x).map Variable.bare
  routines : ∀ f, (s'.routines.get? f).map Routine.bare = (s.routines.get? f).map Routine.bare
  unique : s.routines.Unique → s'.routines.Unique
  scopes : s'.scopes = s.scopes
  loopExits : s'.loopExits = s.loopExits
  returnTargets : s'.returnTargets = s.returnTargets
  data : s'.data = s.data
  funcs : s'.funcs = s.funcs

namespace Frame

theorem refl (s : State) : Frame s s where
  toGrows := .refl s
  constants := rfl
  locals _ := rfl
  globals _ := rfl
  routines _ := rfl
  unique h := h
  scopes := rfl
  loopExits := rfl
  returnTargets := rfl
  data := rfl
  funcs := rfl

theorem trans (first : Frame s₁ s₂) (second : Frame s₂ s₃) : Frame s₁ s₃ where
  toGrows := first.toGrows.trans second.toGrows
  constants := second.constants.trans first.constants
  locals x := (second.locals x).trans (first.locals x)
  globals x := (second.globals x).trans (first.globals x)
  routines f := (second.routines f).trans (first.routines f)
  unique h := second.unique (first.unique h)
  scopes := second.scopes.trans first.scopes
  loopExits := second.loopExits.trans first.loopExits
  returnTargets := second.returnTargets.trans first.returnTargets
  data := second.data.trans first.data
  funcs := second.funcs.trans first.funcs

/-- A change of nothing but code, counters and remarks stays inside the frame. -/
theorem of_code (s : State) (blocks : List Ir.Block) (current? : Option Ir.Block) (temps labels : Nat)
    (remarks : List Remark) : Frame s { s with blocks, current?, temps, labels, remarks } :=
  { refl s with }

end Frame

/-! ## Steps that stay inside the frame -/

/-- A step that stays inside its frame. -/
def Keeps {α : Type} (m : Lowering α) : Prop := ∀ s, Frame s (m s).2

namespace Keeps

variable {α β : Type}

theorem pure (a : α) : Keeps (Pure.pure a : Lowering α) := fun s => .refl s

theorem bind {f : α → Lowering β} (first : Keeps m) (second : ∀ a, Keeps (f a)) :
    Keeps (m >>= f) := fun s => (first s).trans (second _ _)

end Keeps

section Primitives

theorem keeps_fault (tok : Token) (semantic : f.category = .semantic) : Keeps (fault tok f) := fun s =>
  { Frame.refl s with
    faults := ⟨[f.diagnostic tok], rfl, fun _ hd => mem_singleton.mp hd ▸ semantic⟩ }

theorem keeps_caution (tok : Token) (c : Caution) : Keeps (caution tok c) := fun s =>
  Frame.of_code s s.blocks s.current? s.temps s.labels _

theorem keeps_newTemp : Keeps (newTemp name) := fun s =>
  Frame.of_code s s.blocks s.current? (s.temps + 1) s.labels s.remarks

theorem keeps_newLabel : Keeps (newLabel hint) := fun s =>
  Frame.of_code s s.blocks s.current? s.temps (s.labels + 1) s.remarks

theorem keeps_startBlock : Keeps (startBlock label) := fun s =>
  Frame.of_code s _ _ s.temps s.labels s.remarks

theorem keeps_closeBlock : Keeps closeBlock := fun s =>
  Frame.of_code s _ _ s.temps s.labels s.remarks

theorem emit_apply_open (current : s.current? = some b) (i : Ir.Instr) :
    emit i s = ((), { s with current? := some { b with instrs := b.instrs ++ [i] } }) := by
  simp only [emit, bind_apply, get_apply, current]
  simp [current]

theorem keeps_emit (i : Ir.Instr) : Keeps (emit i) := by
  intro s
  cases current : s.current? with
  | none =>
    simp only [emit, newLabel, bind_apply, get_apply, current]
    exact Frame.of_code s _ _ s.temps (s.labels + 1) s.remarks
  | some b =>
    rw [emit_apply_open current]
    exact Frame.of_code s s.blocks _ s.temps s.labels s.remarks

theorem keeps_jump : Keeps (jump target) :=
  Keeps.bind (keeps_emit _) fun _ => keeps_closeBlock

/-- An interned string is in the table, under the label that it gets. -/
theorem internString_apply (value : String) (s : State) : ∃ label strings,
    internString value s = (.global label, { s with strings }) ∧ ⟨label, value⟩ ∈ strings ∧
      s.strings <+: strings ∧ (Interned s.strings → Interned strings) := by
  unfold internString
  rw [bind_apply, get_apply]
  cases found : s.strings.find? fun l => l.value == value with
  | some l =>
    have same : l.value = value := by simpa using find?_some found
    exact ⟨l.label, s.strings, rfl, same ▸ mem_of_find?_eq_some found, prefix_rfl, id⟩
  | none =>
    have new : value ∉ s.strings.map (·.value) := by
      rw [find?_eq_none] at found
      simpa using found
    exact ⟨_, _, rfl, mem_append_right _ (mem_singleton_self _), prefix_append _ _, fun h => h.snoc new⟩

theorem keeps_internString (value : String) : Keeps (internString value) := by
  intro s
  obtain ⟨label, strings, run, -, later, interned⟩ := internString_apply value s
  rw [run]
  exact { Frame.refl s with strings := later, interned := interned }

theorem keeps_compute : Keeps (compute op type left right) :=
  Keeps.bind keeps_newTemp fun _ => Keeps.bind (keeps_emit _) fun _ => .pure _

theorem keeps_resolve (name : String) : Keeps (resolve name) := by
  intro s
  unfold resolve
  rw [bind_apply, get_apply]
  cases constant : s.constants.get? name with
  | some value => exact .refl s
  | none =>
    cases inLocals : s.locals.get? name with
    | some v => exact { Frame.refl s with locals := Table.map_get?_insert _ inLocals rfl }
    | none =>
      cases inGlobals : s.globals.get? name with
      | some v => exact { Frame.refl s with globals := Table.map_get?_insert _ inGlobals rfl }
      | none => exact .refl s

end Primitives

end MiniPascal.Lower
