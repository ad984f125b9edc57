import MiniPascal.Proofs.Lower.Code
import MiniPascal.Proofs.Tree.Shape

/-!
# What a step of lowering comes to

`Meets K H P c m T R` is a rule of reasoning about steps. Whatever the state, the step `m` stays inside its
frame. Started at the place `P` with the counters `c`, and given `H`, it reports no fault and calls only
routines that are given a body exactly if `T` holds; it then adds lines to the listing, and `R` holds of
its result, of these lines and of the counters behind it. String literals are shared by the whole program,
so `R` also takes the table of strings: it has to hold of any later one.

The frame belongs to the rule because faults are only ever added: a sequence of steps runs without
complaint exactly if each of them does. A step behind a complaint may get any value, so what is known of
the value of an earlier step is part of `H`.
-/

open List

namespace MiniPascal.Lower

open Ir (Value Instr Ty Line plain listing listing_append blockLines)
open Static

/-! ## Places -/

/-- The variable that a name stands for, unless a constant hides it. -/
def State.storage? (s : State) (x : String) : Option Variable :=
  (s.locals.get? x).or (s.globals.get? x)

/-- The lines of the function under construction. -/
def State.listing (s : State) : List Line := Ir.listing (s.blocks ++ s.current?.toList)

/-- Where a piece stands: the layout of the variables, and where `break` and `exit` lead. -/
structure Place where
  layout : Layout
  brk : Option String
  ret : String

/-- The names that are known there. -/
abbrev Place.scope (P : Place) : Static.Scope := P.layout.toScope

/-- The first free numbers, and whether a block is open. -/
structure Counters where
  temps : Nat
  labels : Nat
  isOpen : Bool

/-- The counters of a state. -/
def State.counters (s : State) : Counters := ⟨s.temps, s.labels, s.current?.isSome⟩

/-- A state is ready to lower a piece. -/
structure Ready (P : Place) (c : Counters) (s : State) : Prop where
  constants : ∀ x, s.constants.get? x = P.layout.constant? x
  storage : ∀ x, (s.storage? x).map (fun v => (v.type, v.address)) =
    (P.layout.type? x).map fun type => (type, P.layout.address x)
  routines : ∀ f, (s.routines.get? f).map (fun r => ((⟨r.params, r.result⟩ : Signature), r.symbol)) =
    (P.layout.routine? f).map fun sig => (sig, "pas_" ++ f)
  proper : ∀ x type, P.layout.type? x = some type → type.Proper
  brk : s.loopExits.head? = P.brk
  ret : s.returnTargets.head? = some P.ret
  counters : s.counters = c

variable {s s' : State} {P : Place} {c c' : Counters} {ls : List Line}

theorem Ready.counters_eq (ready : Ready P ⟨n, k, isOpen⟩ s) :
    s.temps = n ∧ s.labels = k ∧ s.current?.isSome = isOpen := by
  have same := ready.counters
  exact Counters.mk.inj same

theorem Frame.storage (frame : Frame s s') (x : String) :
    (s'.storage? x).map Variable.bare = (s.storage? x).map Variable.bare := by
  unfold State.storage?
  rw [Option.map_or, Option.map_or, frame.locals, frame.globals]

/-- A name stands for a constant, for the variable that is found for it, or for nothing. -/
theorem resolve_fst (x : String) (s : State) :
    (resolve x s).1 = (s.constants.get? x).elim ((s.storage? x).elim .unbound .storage) .constant := by
  unfold resolve State.storage?
  rw [bind_apply, get_apply]
  cases s.constants.get? x <;> cases s.locals.get? x <;> cases s.globals.get? x <;> rfl

/-- To resolve a name changes marks of use only. -/
theorem resolve_snd (x : String) (s : State) : ∃ locals globals, (resolve x s).2 = { s with locals, globals } := by
  unfold resolve
  rw [bind_apply, get_apply]
  cases s.constants.get? x <;> cases s.locals.get? x <;> cases s.globals.get? x <;> exact ⟨_, _, rfl⟩

/-- Whatever stays inside its frame stays at its place. -/
theorem Ready.frame (h : Ready P c s) (frame : Frame s s') (counters : s'.counters = c') : Ready P c' s' where
  constants x := by rw [frame.constants, h.constants]
  storage x := by rw [map_eq_of_map_eq (f := Variable.bare) (fun _ => rfl) (frame.storage x), h.storage]
  routines f := by rw [map_eq_of_map_eq (f := Routine.bare) (fun _ => rfl) (frame.routines f), h.routines]
  proper := h.proper
  brk := by rw [frame.loopExits, h.brk]
  ret := by rw [frame.returnTargets, h.ret]
  counters := counters

/-! ## Effects -/

/-- Lines were added without complaint, and only routines in `D` were called. -/
structure Effect (D : String → Prop) (s : State) (ls : List Line) (c : Counters) (s' : State) : Prop where
  frame : Frame s s'
  faults : s'.faults = s.faults
  called : ∀ f, s'.Called f → s.Called f ∨ D f
  listing : s'.listing = s.listing ++ ls
  counters : s'.counters = c

theorem Effect.trans {D : String → Prop} (first : Effect D s₁ ls c s₂)
    (second : Effect D s₂ ms c' s₃) : Effect D s₁ (ls ++ ms) c' s₃ where
  frame := first.frame.trans second.frame
  faults := second.faults.trans first.faults
  called f h := (second.called f h).elim (first.called f) .inr
  listing := by rw [second.listing, first.listing, append_assoc]
  counters := second.counters

/-- A step reports no fault, and afterwards only routines in `D` have been called. -/
structure Calm {α : Type} (D : String → Prop) (m : Lowering α) (s : State) : Prop where
  faults : (m s).2.faults = s.faults
  called : ∀ f, (m s).2.Called f → D f

/-- A result that steps are shown to have: of the table of strings, the value, the lines and the
counters. -/
abbrev Post (α : Type) := List Ir.StringLit → α → List Line → Counters → Prop

/-- A step adds lines without complaint, and its result satisfies `R`. -/
def Does {α : Type} (P : Place) (c : Counters) (m : Lowering α) (R : Post α) : Prop :=
  ∀ s, Ready P c s → ∃ ls c', Effect P.layout.defined s ls c' (m s).2 ∧
    ∀ strings, (m s).2.strings <+: strings → R strings (m s).1 ls c'

/-- What a step comes to at a place: if it gives no complaint, then `T` holds, and if `T` holds, then it gives `R`.
Where `T` fails, its state is known only under the condition `K`. -/
structure Meets {α : Type} (K H : Prop) (P : Place) (c : Counters) (m : Lowering α) (T : Prop) (R : Post α) :
    Prop where
  keeps : K → Keeps m
  calm : K → H → ∀ s, Ready P c s → Calm P.layout.defined m s → T
  does : H → T → Does P c m R

/-- A step has exactly one result. -/
structure Exactly {α : Type} (P : Place) (c : Counters) (m : Lowering α) (a : α) (ls : List Line)
    (c' : Counters) : Prop where
  keeps : Keeps m
  does : Does P c m fun _ a' ls' c'' => a' = a ∧ ls' = ls ∧ c'' = c'

section Rules

variable {α β : Type} {K H T T₁ : Prop} {R : Post α} {Q : Post β} {m : Lowering α} {f : α → Lowering β} {a : α}

/-- The first step leads to the place of the second. -/
theorem Does.bind (first : Does P c m R)
    (second : ∀ a ls c', (∃ strings, R strings a ls c') → Does P c' (f a) fun strings b ms c'' =>
      R strings a ls c' → Q strings b (ls ++ ms) c'') : Does P c (m >>= f) Q := by
  intro s ready
  obtain ⟨ls, c', effect, post⟩ := first s ready
  obtain ⟨ms, c'', effect', post'⟩ := second (m s).1 ls c' ⟨_, post _ prefix_rfl⟩ _
    (ready.frame effect.frame effect.counters)
  refine ⟨ls ++ ms, c'', effect.trans effect', fun strings later => post' strings later ?_⟩
  exact post strings (effect'.frame.strings.trans later)

namespace Meets

theorem mono {H' T' : Prop} (h : Meets K H' P c m T' R') (given : H → H') (same : H → (T' ↔ T))
    (imp : H → T → ∀ strings a ls c', R' strings a ls c' → R strings a ls c') : Meets K H P c m T R where
  keeps := h.keeps
  calm k hyp s ready calm := (same hyp).mp (h.calm k (given hyp) s ready calm)
  does hyp holds s ready := by
    obtain ⟨ls, c', effect, post⟩ := h.does (given hyp) ((same hyp).mpr holds) s ready
    exact ⟨ls, c', effect, fun strings later => imp hyp holds _ _ _ _ (post strings later)⟩

theorem under {H' : Prop} (h : Meets K H' P c m T R') (given : H → H')
    (imp : ∀ strings a ls c', R' strings a ls c' → R strings a ls c') : Meets K H P c m T R :=
  h.mono given (fun _ => .rfl) fun _ _ => imp

/-- What a step has checked holds behind it. -/
theorem retain {H' : Prop} (h : Meets K H' P c m T R) (given : H → H') :
    Meets K H P c m T fun strings a ls c' => T ∧ R strings a ls c' :=
  h.mono given (fun _ => .rfl) fun _ typed _ _ _ _ post => ⟨typed, post⟩

theorem pure (h : H → T ∧ ∀ strings, R strings a [] c) : Meets K H P c (Pure.pure a : Lowering α) T R where
  keeps _ := .pure a
  calm _ given _ _ _ := (h given).1
  does given _ s ready :=
    ⟨[], c, ⟨.refl s, rfl, fun _ h => .inl h, by simp, ready.counters⟩, fun strings _ => (h given).2 strings⟩

/-- A sequence keeps the rules only if the first step does, and the second one sees what came of it. -/
theorem bind (first : Meets K H P c m T₁ R) (need : H → T → T₁) (keeps : ∀ a, K → Keeps (f a))
    (second : H → ∀ a ls c', (∃ strings, R strings a ls c') → Meets K True P c' (f a) T fun strings b ms c'' =>
      R strings a ls c' → Q strings b (ls ++ ms) c'') : Meets K H P c (m >>= f) T Q where
  keeps k := (first.keeps k).bind (keeps · k)
  calm k given s ready calm := by
    have frame₁ := first.keeps k s
    have frame₂ := keeps (m s).1 k (m s).2
    obtain ⟨quiet₁, quiet₂⟩ := frame₁.toGrows.faults_eq frame₂.toGrows calm.faults
    have holds := first.calm k given s ready ⟨quiet₁, fun f h => calm.called f (frame₂.called f h)⟩
    obtain ⟨ls, c', effect, post⟩ := first.does given holds s ready
    exact (second given (m s).1 ls c' ⟨_, post _ prefix_rfl⟩).calm k trivial _
      (ready.frame frame₁ effect.counters) ⟨quiet₂, calm.called⟩
  does given holds := (first.does given (need given holds)).bind fun a ls c' post =>
    (second given a ls c' post).does trivial holds

theorem ite {p : Prop} [Decidable p] (yes : p → Meets K H P c m T R)
    (no : ¬ p → Meets K H P c m' T R) : Meets K H P c (if p then m else m') T R := by
  split
  · exact yes ‹_›
  · exact no ‹_›

/-- A fault is a complaint. -/
theorem fault (tok : Token) {fault : Fault} (semantic : fault.category = .semantic) {R : Post Unit}
    (wrong : H → ¬ T) : Meets K H P c (Lower.fault tok fault) T R where
  keeps _ := keeps_fault tok semantic
  calm _ _ s _ calm := by simpa using calm.faults
  does given holds := absurd holds (wrong given)

/-- A fault and a value that stands in for the missing one. -/
theorem fail (tok : Token) {fault : Fault} (semantic : fault.category = .semantic) (a : α) (wrong : H → ¬ T) :
    Meets K H P c (Lower.fault tok fault >>= fun _ => Pure.pure a) T R where
  keeps _ := (keeps_fault tok semantic).bind fun _ => .pure a
  calm _ _ s _ calm := by simpa using calm.faults
  does given holds := absurd holds (wrong given)

/-- Nothing is known of a step that ought not to be made. -/
theorem stray (wrong : ¬ K) (wrong' : H → ¬ T) : Meets K H P c m T R :=
  ⟨fun k => absurd k wrong, fun k => absurd k wrong, fun given holds => absurd holds (wrong' given)⟩

end Meets

/-- A step without code. -/
def Still (c : Counters) (R : α → Prop) : Post α := fun _ a ls c' => R a ∧ ls = [] ∧ c' = c

/-- Straight-line code was added. -/
def Coded (k : Nat) (R : List Ir.StringLit → α → List Instr → Nat → Prop) : Post α :=
  fun strings a ls c' => ∃ is n', ls = plain is ∧ c' = ⟨n', k, true⟩ ∧ R strings a is n'

namespace Meets

/-- A step without code, and what follows. -/
theorem look {R : α → Prop} (first : Meets K True P c m T₁ (Still c R)) (need : H → T → T₁)
    (second : ∀ a, Meets K (H ∧ T₁ ∧ R a) P c (f a) T Q) : Meets K H P c (m >>= f) T Q := by
  refine (first.retain fun _ => trivial).bind need (fun a => (second a).keeps) ?_
  rintro given a _ _ ⟨_, typed, post, rfl, rfl⟩
  exact (second a).under (fun _ => ⟨given, typed, post⟩) fun _ _ _ _ post _ => post

/-- A step with straight-line code that uses strings, and what follows. -/
theorem coded {R : List Ir.StringLit → α → List Instr → Nat → Prop}
    (first : Meets K True P c m T₁ (Coded k R)) (need : H → T → T₁)
    (second : ∀ a is n', Meets K (H ∧ T₁ ∧ ∃ strings, R strings a is n') P ⟨n', k, true⟩ (f a) T
      fun strings b ms c' => R strings a is n' → Q strings b (plain is ++ ms) c') :
    Meets K H P c (m >>= f) T Q := by
  refine (first.retain fun _ => trivial).bind need (fun a => (second a [] 0).keeps) ?_
  rintro given a _ _ ⟨strings, typed, is, n', rfl, rfl, post⟩
  refine (second a is n').under (fun _ => ⟨given, typed, strings, post⟩) ?_
  rintro strings b ms c'' imp ⟨-, is', m', lines, counters, post⟩
  cases map_injective_iff.mpr (fun _ _ => Line.instr.inj) lines
  cases counters
  exact imp post

/-- A step with straight-line code, and what follows. -/
theorem straight {R : α → List Instr → Nat → Prop} (first : Meets K True P c m T₁ (Coded k fun _ => R))
    (need : H → T → T₁) (second : ∀ a is n', Meets K (H ∧ T₁ ∧ R a is n') P ⟨n', k, true⟩ (f a) T
      fun strings b ms c' => Q strings b (plain is ++ ms) c') : Meets K H P c (m >>= f) T Q :=
  first.coded need fun a is n' => (second a is n').under (fun ⟨h, typed, _, post⟩ => ⟨h, typed, post⟩)
    fun _ _ _ _ post _ => post

/-- A step with one result, and what follows. -/
theorem define (first : Exactly P c m a ls c') (second : ∀ a', Meets K (H ∧ a' = a) P c' (f a') T
      fun strings b ms c'' => Q strings b (ls ++ ms) c'') : Meets K H P c (m >>= f) T Q := by
  have only : Meets K H P c m True fun _ a' ls' c'' => a' = a ∧ ls' = ls ∧ c'' = c' :=
    ⟨fun _ => first.keeps, fun _ _ _ _ _ => trivial, fun _ _ => first.does⟩
  refine only.bind (fun _ _ => trivial) (fun a => (second a).keeps) ?_
  rintro given _ _ _ ⟨_, rfl, rfl, rfl⟩
  exact (second _).under (fun _ => ⟨given, rfl⟩) fun _ _ _ _ post _ => post

/-- A step that only adds code, and what follows. -/
theorem andThen {m : Lowering Unit} {f : Unit → Lowering β} (first : Exactly P c m () ls c')
    (second : Meets K H P c' (f ()) T fun strings b ms c'' => Q strings b (ls ++ ms) c'') :
    Meets K H P c (m >>= f) T Q :=
  define first fun _ => second.under And.left fun _ _ _ _ => id

/-- A last step with one result. -/
theorem last (h : Exactly P c m a ls c') (post : H → T ∧ ∀ strings, R strings a ls c') : Meets K H P c m T R where
  keeps _ := h.keeps
  calm _ given _ _ _ := (post given).1
  does given _ s ready := by
    obtain ⟨_, _, effect, same⟩ := h.does s ready
    refine ⟨_, _, effect, fun strings later => ?_⟩
    obtain ⟨value, rfl, rfl⟩ := same strings later
    rw [value]
    exact (post given).2 strings

end Meets

/-- A step with one result, and what follows. -/
theorem Exactly.andThen {f : α → Lowering β} (first : Exactly P c m a ls c')
    (second : Does P c' (f a) fun strings b ms c'' => Q strings b (ls ++ ms) c'') : Does P c (m >>= f) Q := by
  refine first.does.bind ?_
  rintro _ _ _ ⟨_, rfl, rfl, rfl⟩ s ready
  obtain ⟨ms, c'', effect, post⟩ := second s ready
  exact ⟨ms, c'', effect, fun strings later _ => post strings later⟩

theorem Exactly.bind (first : Exactly P c m a ls c')
    (keeps : ∀ a, Keeps (f a)) (second : Exactly P c' (f a) b ms c'') : Exactly P c (m >>= f) b (ls ++ ms) c'' := by
  refine ⟨first.keeps.bind keeps, first.andThen fun s ready => ?_⟩
  obtain ⟨_, _, effect, post⟩ := second.does s ready
  refine ⟨_, _, effect, fun strings later => ?_⟩
  obtain ⟨value, rfl, counters⟩ := post strings later
  exact ⟨value, rfl, counters⟩

theorem Does.pure (h : ∀ strings, R strings a [] c) : Does P c (Pure.pure a : Lowering α) R :=
  (Meets.pure (K := True) fun _ => ⟨trivial, h⟩).does trivial trivial

end Rules

/-! ## Primitive steps -/

section Primitives

variable {K : Prop} {n k : Nat} {isOpen : Bool}

/-- A step that changes the code and the counters only. -/
theorem exactly_of_code {α : Type} {m : Lowering α} {a : α} (keeps : Keeps m) (run : ∀ s, Ready P c s →
      (m s).1 = a ∧ (m s).2.faults = s.faults ∧ (m s).2.routines = s.routines ∧
      (m s).2.listing = s.listing ++ ls ∧ (m s).2.counters = c') : Exactly P c m a ls c' := by
  refine ⟨keeps, fun s ready => ?_⟩
  obtain ⟨value, faults, routines, lines, counters⟩ := run s ready
  refine ⟨ls, c', ⟨keeps s, faults, fun f h => .inl ?_, lines, counters⟩, fun _ _ => ⟨value, rfl, rfl⟩⟩
  unfold State.Called at h ⊢
  rwa [routines] at h

theorem exactly_newTemp (name : String) : Exactly P ⟨n, k, isOpen⟩ (newTemp name)
    { name, id := n } [] ⟨n + 1, k, isOpen⟩ := by
  refine exactly_of_code keeps_newTemp fun s ready => ?_
  obtain ⟨rfl, rfl, rfl⟩ := ready.counters_eq
  exact ⟨rfl, rfl, rfl, (append_nil _).symm, rfl⟩

theorem exactly_newLabel : Exactly P ⟨n, k, isOpen⟩ (newLabel hint)
    (numbered hint k) [] ⟨n, k + 1, isOpen⟩ := by
  refine exactly_of_code keeps_newLabel fun s ready => ?_
  obtain ⟨rfl, rfl, rfl⟩ := ready.counters_eq
  exact ⟨rfl, rfl, rfl, (append_nil _).symm, rfl⟩

theorem exactly_startBlock : Exactly P ⟨n, k, isOpen⟩ (startBlock label)
    () [.label label] ⟨n, k, true⟩ := by
  refine exactly_of_code keeps_startBlock fun s ready => ?_
  obtain ⟨rfl, rfl, rfl⟩ := ready.counters_eq
  refine ⟨rfl, rfl, rfl, ?_, rfl⟩
  exact listing_append _ _

theorem exactly_closeBlock : Exactly P ⟨n, k, isOpen⟩ closeBlock () [] ⟨n, k, false⟩ := by
  refine exactly_of_code keeps_closeBlock fun s ready => ?_
  obtain ⟨rfl, rfl, rfl⟩ := ready.counters_eq
  refine ⟨rfl, rfl, rfl, ?_, rfl⟩
  rw [closeBlock_apply, append_nil]
  exact congrArg listing (append_nil _)

theorem exactly_caution :
    Exactly P ⟨n, k, isOpen⟩ (caution tok w) () [] ⟨n, k, isOpen⟩ := by
  refine exactly_of_code (keeps_caution _ _) fun s ready => ?_
  obtain ⟨rfl, rfl, rfl⟩ := ready.counters_eq
  exact ⟨rfl, rfl, rfl, (append_nil _).symm, rfl⟩

theorem exactly_emit (i : Instr) : Exactly P ⟨n, k, true⟩ (emit i) () (plain [i]) ⟨n, k, true⟩ := by
  refine exactly_of_code (keeps_emit i) fun s ready => ?_
  obtain ⟨rfl, rfl, opened⟩ := ready.counters_eq
  obtain ⟨b, current⟩ := Option.isSome_iff_exists.mp opened
  rw [emit_apply_open current]
  refine ⟨rfl, rfl, rfl, ?_, rfl⟩
  simp only [State.listing, current, Option.toList_some, listing_append, append_assoc]
  simp [listing, blockLines]

/-- A last instruction, and the end of its block. -/
theorem exactly_close (i : Instr) :
    Exactly P ⟨n, k, true⟩ (do emit i; closeBlock) () (plain [i]) ⟨n, k, false⟩ :=
  (exactly_emit i).bind (fun _ => keeps_closeBlock) exactly_closeBlock

theorem exactly_jump (target : String) :
    Exactly P ⟨n, k, true⟩ (jump target) () (plain [Code.jump target]) ⟨n, k, false⟩ := exactly_close _

theorem exactly_branch {cond : Value} :
    Exactly P ⟨n, k, true⟩ (branch cond yes no) () (plain [Code.branch cond yes no]) ⟨n, k, false⟩ := exactly_close _

/-- A new temporary, and the instruction that defines it. -/
theorem exactly_define (i : Ir.Temp → Instr) : Exactly P ⟨n, k, true⟩ (do
      let t ← newTemp ""
      emit (i t)
      return Value.temp t)
    (Code.temp n) (plain [i { name := "", id := n }]) ⟨n + 1, k, true⟩ where
  keeps := keeps_newTemp.bind fun _ => (keeps_emit _).bind fun _ => .pure _
  does := (exactly_newTemp "").andThen <| (exactly_emit _).andThen <| .pure fun _ => ⟨rfl, rfl, rfl⟩

theorem exactly_load (address : Value) :
    Exactly P ⟨n, k, true⟩ (load address) (Code.temp n) (plain [Code.load n address]) ⟨n + 1, k, true⟩ :=
  exactly_define fun t => { op := .load, type := .word, result := .temp t, args := [address] }

theorem exactly_compute :
    Exactly P ⟨n, k, true⟩ (compute op type left right) (Code.temp n)
      (plain [Code.compute op type n left right]) ⟨n + 1, k, true⟩ :=
  exactly_define fun t => { op, type, operandType := type, result := .temp t, args := [left, right] }

theorem exactly_store :
    Exactly P ⟨n, k, true⟩ (store address value) () (plain [Code.store address value]) ⟨n, k, true⟩ :=
  exactly_emit _

/-- A string gets a label that it keeps. -/
theorem meets_internString (text : String) : Meets K True P ⟨n, k, true⟩ (internString text) True
    (Coded k fun strings v is n' => Literal strings text v ∧ is = [] ∧ n' = n) := by
  refine ⟨fun _ => keeps_internString text, fun _ _ _ _ _ => trivial, fun _ _ s ready => ?_⟩
  have frame := keeps_internString text s
  obtain ⟨label, strings, run, member, -⟩ := internString_apply text s
  rw [run] at frame ⊢
  refine ⟨[], _, ⟨frame, rfl, fun _ h => .inl h, (append_nil _).symm, ready.counters⟩, fun strings later => ?_⟩
  exact ⟨[], n, rfl, rfl, ⟨label, later.subset member, rfl⟩, rfl, rfl⟩

end Primitives

end MiniPascal.Lower
