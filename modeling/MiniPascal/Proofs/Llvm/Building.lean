import Mathlib.Data.List.Nodup
import MiniPascal.Proofs.Ir.Typing
import MiniPascal.Proofs.Llvm.Typing

/-!
# Building well-typed modules

From well-typed code the builder makes a well-typed module, unless it comes to a name that it does
not know: `Builds act d C Q` says that a step of the construction succeeds if and only if `C` holds,
and that its result then satisfies `Q`. While a function is built, the operand that stands for a
temporary has the type of the temporary and is known at every later step: addresses are integers of
64 bits, and are turned into pointers right where they are used.
-/

open List

namespace MiniPascal.Llvm

open Scope

/-! ## Steps of the builder -/

/-- A fault about a name that is not known where it is used. -/
inductive Fault.IsUnknown : Fault → Prop
  | temp : IsUnknown (.undefinedTemp key)
  | global : IsUnknown (.unknownGlobal name)

/-- A step of the construction succeeds if and only if a condition is met, with a result and a draft
that satisfy `Q`. Otherwise a name is unknown. -/
def Builds {α : Type} (act : Build α) (d : Draft) (C : Prop) (Q : α → Draft → Prop) : Prop :=
  C ∧ (∃ a d', act d = .ok (a, d') ∧ Q a d') ∨ ¬ C ∧ ∃ e, act d = .error e ∧ e.IsUnknown

namespace Builds

variable {α β : Type} {act : Build α} {k : α → Build β} {d : Draft} {C C' : Prop}
  {Q Q' : α → Draft → Prop} {R : β → Draft → Prop}

theorem of_ok (run : act d = .ok (a, b)) (h : Q a b) :
    Builds act d True Q := .inl ⟨trivial, a, b, run, h⟩

theorem pure (h : Q a d) : Builds (pure a) d True Q := of_ok rfl h

theorem bind (first : Builds act d C Q) (second : ∀ a d', Q a d' → Builds (k a) d' C' R) :
    Builds (act >>= k) d (C ∧ C') R := by
  have run : (act >>= k) d = act d >>= fun r => k r.1 r.2 := rfl
  unfold Builds
  rw [run]
  rcases first with ⟨met, a, d', done, holds⟩ | ⟨unmet, e, failed, unknown⟩
  · rw [done]
    rcases second a d' holds with ⟨met', rest⟩ | ⟨unmet', rest⟩
    · exact .inl ⟨⟨met, met'⟩, rest⟩
    · exact .inr ⟨fun both => unmet' both.2, rest⟩
  · rw [failed]
    exact .inr ⟨fun both => unmet both.1, e, rfl, unknown⟩

theorem congr (h : Builds act d C Q) (same : C ↔ C') : Builds act d C' Q := by
  unfold Builds
  rwa [← same]

/-- A step that always succeeds comes in front of one with a condition. -/
theorem after (first : Builds act d True Q) (second : ∀ a d', Q a d' → Builds (k a) d' C R) :
    Builds (act >>= k) d C R := (first.bind second).congr (iff_of_eq (true_and C))

/-- Nothing can fail any more behind a step with a condition. -/
theorem before (first : Builds act d C Q) (second : ∀ a d', Q a d' → Builds (k a) d' True R) :
    Builds (act >>= k) d C R := (first.bind second).congr (iff_of_eq (and_true C))

theorem mono (h : Builds act d C Q) (imp : ∀ a d', Q a d' → Q' a d') : Builds act d C Q' := by
  rcases h with ⟨met, a, d', run, holds⟩ | unmet
  · exact .inl ⟨met, a, d', run, imp a d' holds⟩
  · exact .inr unmet

end Builds

variable {Γ : Context} {past : List Step}

theorem Operand.Known.mono {x : Operand} {past' : List Step} (h : x.Known Γ past)
    (sub : past <+: past') : x.Known Γ past' := by
  cases h with
  | int => exact .int
  | data h => exact .data h
  | func h => exact .func h
  | param h => exact .param h
  | result inside number => exact .result (sub.subset inside) number

theorem StepsTyped.snoc (h : StepsTyped Γ past ss)
    (last : s.Typed Γ (past ++ ss)) : StepsTyped Γ past (ss ++ [s]) := by
  induction ss generalizing past with
  | nil => exact ⟨by rwa [append_nil] at last, trivial⟩
  | cons s' ss ih => exact ⟨h.1, ih h.2 (by rwa [append_assoc])⟩

section Drafts

variable (Γ past) (f : Ir.Func) (temps : List String)

/-- A draft of a function: the open block is well typed so far, and the next number is new. The
given temporaries, and no others, stand for known operands of their types. -/
structure Draft.Sound (d : Draft) : Prop where
  steps : StepsTyped Γ past d.steps
  known : ∀ k x, d.temps.lookup k = some x → x.Known Γ (past ++ d.steps)
  types : ∀ k x, d.temps.lookup k = some x → ∃ type, f.HasType k type ∧ x.type = valueType type
  holds : ∀ k, (d.temps.lookup k).isSome = true ↔ k ∈ temps
  below : ∀ s ∈ past ++ d.steps, ∀ n, s.number = some n → n < d.next

/-- Steps were added to a draft, and nothing else. -/
structure Continues (d d' : Draft) : Prop where
  sound : d'.Sound Γ past f temps
  steps : past ++ d.steps <+: past ++ d'.steps

/-- A step of the construction gives a known operand of a type. -/
def Yields (act : Build Operand) (d : Draft) (C : Prop) (type : Ty) : Prop :=
  Builds act d C fun x d' =>
    x.Known Γ (past ++ d'.steps) ∧ x.type = type ∧ Continues Γ past f temps d d'

end Drafts

variable {f : Ir.Func} {temps : List String} {d : Draft}

theorem Continues.refl (h : d.Sound Γ past f temps) : Continues Γ past f temps d d :=
  ⟨h, prefix_rfl⟩

theorem Continues.trans (first : Continues Γ past f temps d₁ d₂)
    (second : Continues Γ past f temps d₂ d₃) : Continues Γ past f temps d₁ d₃ :=
  ⟨second.sound, first.steps.trans second.steps⟩

/-- Steps that are added keep a draft sound. -/
theorem Draft.Sound.append (h : d.Sound Γ past f temps) {s : Step} {next : Nat}
    (typed : s.Typed Γ (past ++ d.steps)) (later : d.next ≤ next)
    (number : ∀ n, s.number = some n → n < next) :
    Continues Γ past f temps d { d with steps := d.steps ++ [s], next } := by
  have longer : past ++ d.steps <+: past ++ (d.steps ++ [s]) := ⟨[s], by rw [append_assoc]⟩
  refine ⟨⟨h.steps.snoc typed, fun k x found => (h.known k x found).mono longer, h.types, h.holds,
    fun s' member n numbered => ?_⟩, longer⟩
  rw [← append_assoc, mem_append, mem_singleton] at member
  rcases member with before | rfl
  · exact Nat.lt_of_lt_of_le (h.below s' before n numbered) later
  · exact number n numbered

/-- The library takes what is well typed. -/
theorem Instr.Typed.isTaken {i : Instr} (typed : i.Typed Γ past) : i.isTaken = true := by
  cases typed with
  | store _ _ value target => simp [Instr.isTaken, value, target]
  | icmp _ _ left _ => simp [Instr.isTaken, left]
  | _ => rfl

theorem append_eq (taken : i.isTaken = true) :
    append i = fun d => if i.type.isVoid then
      .ok (.result 0 .void, { d with steps := d.steps ++ [⟨none, i⟩] })
    else
      .ok (.result d.next i.type, { d with steps := d.steps ++ [⟨some d.next, i⟩], next := d.next + 1 }) := by
  unfold append
  rw [taken]
  rfl

theorem yields_append {i : Instr} (sound : d.Sound Γ past f temps)
    (typed : i.Typed Γ (past ++ d.steps)) (value : i.type.isVoid = false) :
    Yields Γ past f temps (append i) d True i.type := by
  have step : (⟨some d.next, i⟩ : Step).Typed Γ (past ++ d.steps) := by
    refine ⟨typed, by simp [value], fun n same s' member numbered => ?_⟩
    cases same
    exact Nat.lt_irrefl _ (sound.below s' member _ numbered)
  have continues := sound.append step (Nat.le_succ d.next) (by rintro n ⟨⟩; exact Nat.lt_succ_self _)
  rw [append_eq typed.isTaken, value]
  exact .of_ok rfl ⟨.result (s := ⟨some d.next, i⟩) (by simp) rfl, rfl, continues⟩

theorem builds_append {i : Instr} (sound : d.Sound Γ past f temps)
    (typed : i.Typed Γ (past ++ d.steps)) :
    Builds (append i) d True fun _ d' => Continues Γ past f temps d d' := by
  cases void : i.type.isVoid with
  | false => exact Builds.mono (yields_append sound typed void) fun _ _ result => result.2.2
  | true =>
    have step : (⟨none, i⟩ : Step).Typed Γ (past ++ d.steps) := ⟨typed, by simp [void], nofun⟩
    rw [append_eq typed.isTaken, void]
    exact .of_ok rfl (sound.append step (Nat.le_refl _) nofun)

/-! ## What a program declares -/

theorem valueType_register (type : Ir.Ty) : valueType type.register = valueType type := by
  cases type <;> rfl

theorem valueType_eq_int (h : type ≠ .none) :
    valueType type = .int (constWidth type) := by
  cases type with
  | none => exact absurd rfl h
  | _ => rfl

/-- What a body can refer to is what its program has. -/
structure Context.Covers (Γ : Context) (p : Ir.Program) : Prop where
  globals : ∀ g ∈ (of p).globals, (g.ident, g.type) ∈ Γ.globals
  funcs : ∀ g ∈ (of p).externs ++ (of p).funcs, (g.ident, g.signature) ∈ Γ.funcs
  memcpy : (memcpy.ident, memcpy.signature) ∈ Γ.funcs

theorem forall₂_numbered {α β : Type} {name : α → String} {make : Ident → α → β}
    {as : List α} : List.Forall₂ (fun b a => ∃ ident, ident.name = name a ∧ b = make ident a)
      (numbered name make n as) as := by
  induction as generalizing n with
  | nil => exact .nil
  | cons a as ih => exact .cons ⟨_, rfl, rfl⟩ ih

theorem map_numbered {α β γ : Type} {name : α → String} {make : Ident → α → β} {g : β → γ}
    {h : α → γ} {as : List α}
    (same : ∀ ident a, ident.name = name a → g (make ident a) = h a) :
    (numbered name make n as).map g = as.map h := by
  induction as generalizing n with
  | nil => rfl
  | cons a as ih => rw [numbered, map_cons, map_cons, same _ _ rfl, ih]

section Names

variable {p : Ir.Program} {name : String}

theorem global_names : (of p).globals.map (·.ident.name) =
    p.globals.map (·.name) ++ p.strings.map (·.label) := by
  rw [of, map_append]
  exact congrArg₂ (· ++ ·) (map_numbered fun _ _ named => named)
    (map_numbered fun _ _ named => named)

theorem extern_names : (of p).externs.map (·.ident.name) = p.externs.map (·.name) :=
  map_numbered fun _ _ named => named

theorem func_names : (of p).funcs.map (·.ident.name) = p.funcs.map (·.name) :=
  map_numbered fun _ _ named => named

theorem isSome_find_reverse {α : Type} {name : α → String} {as : List α} :
    (as.reverse.find? (name · == x)).isSome = true ↔ x ∈ as.map name := by
  simp [find?_isSome]

/-- Data of a program can be found. -/
theorem global?_isSome_iff : ((of p).global? name).isSome = true ↔
    name ∈ p.globals.map (·.name) ++ p.strings.map (·.label) := by
  rw [global?, isSome_find_reverse, global_names]

/-- Functions of a program can be found. -/
theorem func?_isSome_iff : ((of p).func? name).isSome = true ↔
    name ∈ p.funcs.map (·.name) ++ p.externs.map (·.name) := by
  rw [func?, isSome_find_reverse, map_append, extern_names, func_names, mem_append, mem_append,
    or_comm]

end Names

theorem operand_temp (s : Scope) (t : Ir.Temp) (type : Ir.Ty) (d : Draft) :
    operand s (.temp t) type d = (d.temps.lookup t.key).elim (.error (.undefinedTemp t.key))
      fun x => .ok (x, d) := by
  simp only [operand, bind, StateT.bind, MonadState.get, getThe, MonadStateOf.get, StateT.get,
    Except.bind, pure, Except.pure]
  cases d.temps.lookup t.key <;> rfl

/-! ## Operands -/

section Operands

variable {p : Ir.Program} (covers : Γ.Covers p) {d : Draft} (sound : d.Sound Γ past f temps)

include covers sound

/-- An operand is found if its name is known. -/
theorem yields_operand (used : v.UsedAs p f type) :
    Yields Γ past f temps (operand (of p) v type) d (v.Known p.symbols temps)
      (valueType type) := by
  cases used with
  | const some => exact .pure ⟨.int, (valueType_eq_int some).symm, .refl sound⟩
  | @temp t _ fits =>
    have known := sound.holds t.key
    cases found : d.temps.lookup t.key with
    | some x =>
      rw [found] at known
      refine .inl ⟨known.mp rfl, x, d, by rw [operand_temp, found]; rfl, sound.known _ _ found, ?_,
        .refl sound⟩
      obtain ⟨given, has, typed⟩ := sound.types _ _ found
      rw [typed, ← valueType_register, fits given has, valueType_register]
    | none =>
      rw [found] at known
      exact .inr ⟨fun there => Bool.false_ne_true (known.mpr there), .undefinedTemp t.key,
        by rw [operand_temp, found]; rfl, .temp⟩
  | @data name _ listed wide =>
    have data : ((of p).global? name).isSome = true ↔ _ := global?_isSome_iff
    cases found : (of p).global? name with
    | some g =>
      rw [found] at data
      have member : g ∈ (of p).globals := mem_reverse.mp (mem_of_find?_eq_some found)
      have known : (Operand.data g.ident g.type).Known Γ (past ++ d.steps) :=
        .data (covers.globals g member)
      rw [← valueType_register, wide]
      simp only [operand, found]
      have there : name ∈ p.symbols := mem_append_left _ (data.mp rfl)
      exact Builds.congr (yields_append sound (.ptrtoint known rfl) rfl) (iff_of_true trivial there)
    | none =>
      rw [found] at data
      have unknown : name ∉ p.symbols := fun there => Bool.false_ne_true (data.mpr (listed there))
      have none : (of p).func? name = none := by
        by_contra some
        exact unknown (mem_append_right _ (func?_isSome_iff.mp (Option.isSome_iff_ne_none.mpr some)))
      simp only [operand, found, none]
      exact .inr ⟨unknown, _, rfl, .global⟩

theorem builds_operands {type : Ir.Ty} {vs : List Ir.Value} (used : ∀ v ∈ vs, v.UsedAs p f type) :
    Builds (vs.mapM fun v => operand (of p) v type) d (∀ v ∈ vs, v.Known p.symbols temps)
      fun xs d' => xs.length = vs.length ∧
        (∀ x ∈ xs, x.Known Γ (past ++ d'.steps) ∧ x.type = valueType type) ∧
        Continues Γ past f temps d d' := by
  induction vs generalizing d with
  | nil => exact .congr (.pure ⟨rfl, nofun, .refl sound⟩) (by simp)
  | cons v vs ih =>
    obtain ⟨usedFirst, usedLater⟩ := forall_mem_cons.mp used
    rw [mapM_cons, forall_mem_cons]
    refine (yields_operand covers sound usedFirst).bind ?_
    rintro x d₁ ⟨known, typed, first⟩
    refine (ih first.sound usedLater).before ?_
    rintro xs d₂ ⟨length, all, later⟩
    refine .pure ⟨by rw [length_cons, length_cons, length], ?_, first.trans later⟩
    exact forall_mem_cons.mpr ⟨⟨known.mono later.steps, typed⟩, all⟩

/-- The type of an argument. -/
def argumentType (toExtern : Bool) (type : Ir.Ty) : Ty :=
  if toExtern then externType type else valueType type

theorem builds_arguments (toExtern : Bool) {types : List Ir.Ty} {vs : List Ir.Value}
    (used : List.Forall₂ (Ir.Value.UsedAs p f) vs types) :
    Builds (callArguments (of p) toExtern types vs) d (∀ v ∈ vs, v.Known p.symbols temps)
      fun xs d' => xs.map (·.type) = types.map (argumentType toExtern) ∧
        (∀ x ∈ xs, x.Known Γ (past ++ d'.steps)) ∧ Continues Γ past f temps d d' := by
  induction used generalizing d with
  | nil => exact .congr (.pure ⟨rfl, nofun, .refl sound⟩) (by simp)
  | @cons v type vs types usedFirst _ ih =>
    rw [forall_mem_cons]
    refine (yields_operand covers sound usedFirst).bind ?_
    rintro x d₁ ⟨known, typed, first⟩
    have rest {y : Operand} {d₂ : Draft} (known' : y.Known Γ (past ++ d₂.steps))
        (typed' : y.type = argumentType toExtern type) (second : Continues Γ past f temps d₁ d₂) :
        Builds (do return y :: (← callArguments (of p) toExtern types vs)) d₂
          (∀ v ∈ vs, v.Known p.symbols temps)
          fun xs d' => xs.map (·.type) = (type :: types).map (argumentType toExtern) ∧
            (∀ x ∈ xs, x.Known Γ (past ++ d'.steps)) ∧ Continues Γ past f temps d d' := by
      refine (ih second.sound).before ?_
      rintro ys d₃ ⟨map, all, later⟩
      refine .pure ⟨?_, forall_mem_cons.mpr ⟨known'.mono later.steps, all⟩,
        first.trans (second.trans later)⟩
      rw [map_cons, map_cons, map, typed']
    split
    · next address =>
      obtain ⟨rfl, rfl⟩ : toExtern = true ∧ type = .address := by simpa using address
      refine Builds.after (yields_append first.sound (.inttoptr known typed) rfl) ?_
      rintro y d₂ ⟨known', typed', second⟩
      exact rest known' typed' second
    · next other =>
      refine Builds.after (.pure rfl : Builds (pure x) d₁ True fun y d₂ => (y, d₂) = (x, d₁)) ?_
      rintro _ _ ⟨⟩
      refine rest known ?_ (.refl first.sound)
      rw [typed]
      cases toExtern with
      | false => rfl
      | true =>
        cases type with
        | address => simp at other
        | _ => rfl

end Operands

/-! ## Instructions -/

variable (Γ past f temps) in
/-- An instruction was built: its result has an operand of its type, and the end of a block is
there. -/
structure Built (i : Ir.Instr) (d : Draft) : Prop where
  sound : d.Sound Γ past f (temps ++ i.defined?.toList)
  terminator : i.op.isTerminator = true → ∃ t, d.terminator = some t ∧ t.Typed Γ (past ++ d.steps)

section Built

variable {i : Ir.Instr} {d : Draft} (sound : d.Sound Γ past f temps)

include sound

theorem sound_of_missing (missing : i.result = .missing) :
    d.Sound Γ past f (temps ++ i.defined?.toList) := by
  rw [Ir.Instr.defined?, missing]
  exact (append_nil temps).symm ▸ sound

theorem Built.of_sound (goes : i.op.isTerminator = false) (missing : i.result = .missing) :
    Built Γ past f temps i d :=
  ⟨sound_of_missing sound missing, fun ends => by rw [goes] at ends; cases ends⟩

theorem builds_finish (missing : i.result = .missing)
    (typed : t.Typed Γ (past ++ d.steps)) :
    Builds (finish t) d True fun _ d' => Built Γ past f temps i d' := by
  have same := sound_of_missing sound missing
  refine .of_ok (b := { d with terminator := some t }) rfl ⟨?_, fun _ => ⟨t, rfl, typed⟩⟩
  exact ⟨same.steps, same.known, same.types, same.holds, same.below⟩

variable (inside : i ∈ f.instrs)

include inside

/-- The result of an instruction gets an operand. -/
theorem builds_define (goes : i.op.isTerminator = false)
    (known : x.Known Γ (past ++ d.steps)) (typed : x.type = valueType i.type) :
    Builds (define i.result x) d True fun _ d' => Built Γ past f temps i d' := by
  cases result : i.result with
  | temp t =>
    have keys : i.defined? = some t.key := Ir.Instr.defined?_eq_some.mpr ⟨t, result, rfl⟩
    refine .of_ok (b := { d with temps := (t.key, x) :: d.temps }) rfl ⟨⟨sound.steps, ?_, ?_, ?_,
      sound.below⟩, fun ends => by rw [goes] at ends; cases ends⟩
    · intro k y found
      rw [lookup_cons] at found
      split at found
      · cases found
        exact known
      · exact sound.known k y found
    · intro k y found
      rw [lookup_cons] at found
      split at found
      · next same =>
        cases found
        rw [beq_iff_eq.mp same]
        exact ⟨i.type, .instr inside result, typed⟩
      · exact sound.types k y found
    · intro k
      rw [lookup_cons, keys, mem_append, ← sound.holds k]
      by_cases same : k = t.key
      · simp [same]
      · simp [beq_eq_false_iff_ne.mpr same, same]
  | _ =>
    have none : i.defined? = none := by rw [Ir.Instr.defined?, result]
    refine .pure ⟨?_, fun ends => by rw [goes] at ends; cases ends⟩
    rw [none]
    exact (append_nil temps).symm ▸ sound

/-- The last instruction gives the result. -/
theorem builds_result (goes : i.op.isTerminator = false)
    (typed : j.Typed Γ (past ++ d.steps)) (type : j.type = valueType i.type)
    (value : j.type.isVoid = false) :
    Builds (append j >>= define i.result) d True fun _ d' => Built Γ past f temps i d' := by
  refine Builds.after (yields_append sound typed value) ?_
  rintro x d' ⟨known, same, more⟩
  exact builds_define more.sound inside goes known (same.trans type)

end Built

section Instr

variable (Γ past f temps) in
/-- An instruction is built if what it uses is known. -/
abbrev BuildsInstr (p : Ir.Program) (i : Ir.Instr) (d : Draft) : Prop :=
  Builds (buildInstr (of p) f.result i) d (∀ v ∈ i.args, v.Known p.symbols temps)
    fun _ d' => Built Γ past f temps i d'

variable {p : Ir.Program} (covers : Γ.Covers p) {d : Draft} (sound : d.Sound Γ past f temps)
  {i : Ir.Instr}

include covers sound

/-- The address in an operand is turned into a pointer. -/
theorem yields_pointer (used : a.UsedAs p f .address) :
    Yields Γ past f temps (operand (of p) a .address >>= wordPointer) d (a.Known p.symbols temps)
      .words := by
  refine Builds.before (yields_operand covers sound used) ?_
  rintro x d₁ ⟨known, typed, first⟩
  refine Builds.mono (yields_append first.sound (.inttoptr known typed) rfl) ?_
  rintro y d₂ ⟨known', typed', second⟩
  exact ⟨known', typed', first.trans second⟩

theorem builds_blit {source target : Ir.Value} {n : Int64} (op : i.op = .blit)
    (args : i.args = [source, target, .const n]) (usedSource : source.UsedAs p f .address)
    (usedTarget : target.UsedAs p f .address) (missing : i.result = .missing) :
    BuildsInstr Γ past f temps p i d := by
  unfold BuildsInstr
  have used : ∀ v ∈ i.args, v.UsedAs p f .address := by
    rw [args]
    simp only [forall_mem_cons]
    exact ⟨usedSource, usedTarget, .const nofun, forall_mem_nil _⟩
  simp only [buildInstr, op, operands]
  refine (builds_operands covers sound used).before ?_
  rintro xs d₁ ⟨length, all, first⟩
  rw [args] at length
  obtain ⟨x, y, z, rfl⟩ := length_eq_three.mp length
  simp only [forall_mem_cons] at all
  obtain ⟨⟨knownX, typedX⟩, ⟨knownY, typedY⟩, ⟨knownZ, typedZ⟩, -⟩ := all
  refine Builds.after (yields_append first.sound (.inttoptr knownX typedX) rfl) ?_
  rintro x' d₂ ⟨knownX', typedX', second⟩
  refine Builds.after (yields_append second.sound (.inttoptr (knownY.mono second.steps) typedY) rfl) ?_
  rintro y' d₃ ⟨knownY', typedY', third⟩
  have call : (Instr.call memcpy.ident memcpy.signature [y', x', z]).Typed Γ (past ++ d₃.steps) := by
    refine .call covers.memcpy ?_ ?_
    · simp only [forall_mem_cons]
      exact ⟨knownY', knownX'.mono third.steps, (knownZ.mono second.steps).mono third.steps,
        forall_mem_nil _⟩
    · rw [map_cons, map_cons, map_singleton, typedX', typedY', typedZ]
      rfl
  refine (builds_append third.sound call).after fun _ d₄ fourth => .pure ?_
  exact .of_sound fourth.sound (by rw [op]; rfl) missing

/-- The two operands of an operation. -/
theorem builds_pair {x y : Ir.Value} (args : i.args = [x, y])
    (usedX : x.UsedAs p f type) (usedY : y.UsedAs p f type) :
    Builds (operands (of p) i type) d (∀ v ∈ i.args, v.Known p.symbols temps) fun xs d' =>
      ∃ x y, xs = [x, y] ∧ x.Known Γ (past ++ d'.steps) ∧ y.Known Γ (past ++ d'.steps) ∧
        x.type = valueType type ∧ y.type = valueType type ∧ Continues Γ past f temps d d' := by
  have used : ∀ v ∈ i.args, v.UsedAs p f type := by
    rw [args]
    simp only [forall_mem_cons]
    exact ⟨usedX, usedY, forall_mem_nil _⟩
  refine (builds_operands covers sound used).mono ?_
  rintro xs d' ⟨length, all, continues⟩
  rw [args] at length
  obtain ⟨x, y, rfl⟩ := length_eq_two.mp length
  simp only [forall_mem_cons] at all
  obtain ⟨⟨knownX, typedX⟩, ⟨knownY, typedY⟩, -⟩ := all
  exact ⟨x, y, rfl, knownX, knownY, typedX, typedY, continues⟩

variable (inside : i ∈ f.instrs)

include inside

theorem builds_arith (op : i.op.isArithmetic = true) (args : i.args = [x, y])
    (usedX : x.UsedAs p f i.type) (usedY : y.UsedAs p f i.type) (some : i.type ≠ .none) :
    BuildsInstr Γ past f temps p i d := by
  unfold BuildsInstr
  have width := valueType_eq_int some
  have pair := builds_pair covers sound args usedX usedY
  cases h : i.op <;> rw [h] at op <;> cases op
  all_goals
    simp only [buildInstr, h, arith?]
    refine pair.before ?_
    rintro _ d₁ ⟨x, y, rfl, knownX, knownY, typedX, typedY, first⟩
    have type : x.type = valueType i.type := typedX
    rw [width] at typedX typedY
    refine builds_result first.sound inside (by rw [h]; rfl)
      (.arith knownX knownY typedX typedY) type ?_
    change x.type.isVoid = false
    rw [typedX]
    rfl

theorem builds_compare (op : i.op.isComparison = true) (args : i.args = [x, y])
    (usedX : x.UsedAs p f i.operandType) (usedY : y.UsedAs p f i.operandType)
    (some : i.operandType ≠ .none) (type : i.type = .word) :
    BuildsInstr Γ past f temps p i d := by
  unfold BuildsInstr
  have width := valueType_eq_int some
  have pair := builds_pair covers sound args usedX usedY
  cases h : i.op <;> rw [h] at op <;> cases op
  all_goals
    simp only [buildInstr, h, arith?, relation?, if_neg some]
    refine pair.before ?_
    rintro _ d₁ ⟨x, y, rfl, knownX, knownY, typedX, typedY, first⟩
    rw [width] at typedX typedY
    refine Builds.after (yields_append first.sound (.icmp knownX knownY typedX typedY) rfl) ?_
    rintro z d₂ ⟨known, typed, second⟩
    exact builds_result second.sound inside (by rw [h]; rfl) (.zext known typed (by decide))
      (by rw [type]; rfl) rfl

/-- A call, once its callee is found. -/
theorem builds_callee (op : i.op = .call)
    (form : i.args = .global name :: args) (found : (of p).func? name = some g)
    (used : List.Forall₂ (Ir.Value.UsedAs p f) args i.argTypes)
    (takes : g.signature.Takes (i.argTypes.map (argumentType ((of p).isExtern name))))
    (result : i.result ≠ .missing → g.result = valueType i.type ∧ i.type ≠ .none) :
    BuildsInstr Γ past f temps p i d := by
  unfold BuildsInstr
  have goes : i.op.isTerminator = false := by rw [op]; rfl
  have listed : g ∈ (of p).externs ++ (of p).funcs := mem_reverse.mp (mem_of_find?_eq_some found)
  have callee : name ∈ p.symbols := mem_append_right _ (func?_isSome_iff.mp (by rw [found]; rfl))
  have known : (∀ v ∈ i.args, v.Known p.symbols temps) ↔ ∀ v ∈ args, v.Known p.symbols temps := by
    rw [form, forall_mem_cons]
    exact and_iff_right callee
  rw [known]
  simp only [buildInstr, op, buildCall, form, headD_cons, found, tail_cons]
  refine (builds_arguments covers sound ((of p).isExtern name) used).before ?_
  rintro xs d₁ ⟨types, known, first⟩
  have call : (Instr.call g.ident g.signature xs).Typed Γ (past ++ d₁.steps) :=
    .call (covers.funcs g listed) known (by rwa [types])
  by_cases missing : i.result = .missing
  · refine (builds_append first.sound call).after fun x d₂ second => ?_
    rw [missing]
    exact .pure (.of_sound second.sound goes missing)
  · obtain ⟨same, some⟩ := result missing
    have type : (Instr.call g.ident g.signature xs).type = valueType i.type := same
    exact builds_result first.sound inside goes call type
      (by rw [type, valueType_eq_int some]; rfl)

end Instr

/-! ## Callees -/

theorem signature_declareFunc (ident : Ident) (f : Ir.Func) : (declareFunc ident f).signature =
    { result := valueType f.result, params := f.params.map fun q => valueType q.type } := by
  rw [Func.signature]
  congr 1
  exact map_numbered fun _ _ _ => rfl

theorem signature_declareExtern (ident : Ident) (e : Ir.Extern) :
    (declareExtern ident e).signature =
      { result := valueType e.result, params := e.params.map externType, variadic := e.variadic } := by
  have params : ((declareExtern ident e).params.map (·.2)) = e.params.map externType := by
    rw [declareExtern, map_map]
    conv => rhs; rw [← zipIdx_map_fst 0 e.params, map_map]
    rfl
  rw [Func.signature, params]
  rfl

section Scope

variable {p : Ir.Program}

theorem isExtern_iff :
    (of p).isExtern name = true ↔ name ∈ p.externs.map (·.name) := by
  rw [isExtern, any_eq_true, ← extern_names, mem_map]
  simp only [beq_iff_eq]

/-- What is found under a name is what a program has under it. -/
theorem func?_cases
    (known : name ∈ p.funcs.map (·.name) ++ p.externs.map (·.name)) :
    ∃ g, (of p).func? name = some g ∧
      ((∃ f ∈ p.funcs, ∃ ident, f.name = name ∧ g = declareFunc ident f) ∨
        ∃ e ∈ p.externs, ∃ ident, e.name = name ∧ g = declareExtern ident e) := by
  obtain ⟨g, found⟩ := Option.isSome_iff_exists.mp (func?_isSome_iff.mpr known)
  have named := find?_some (p := fun h : Func => h.ident.name == name) found
  rw [beq_iff_eq] at named
  refine ⟨g, found, ?_⟩
  rcases mem_append.mp (mem_reverse.mp (mem_of_find?_eq_some found)) with declared | func
  · obtain ⟨e, member, ident, same, rfl⟩ := exists_of_forall₂ forall₂_numbered declared
    exact .inr ⟨e, member, ident, same.symm.trans named, rfl⟩
  · obtain ⟨f, member, ident, same, rfl⟩ := exists_of_forall₂ forall₂_numbered func
    exact .inl ⟨f, member, ident, same.symm.trans named, rfl⟩

variable (names : (p.funcs.map (·.name) ++ p.externs.map (·.name)).Nodup)

include names

theorem func?_func {f : Ir.Func} (member : f ∈ p.funcs) : (of p).isExtern f.name = false ∧
    ∃ ident, (of p).func? f.name = some (declareFunc ident f) := by
  have apart : f.name ∉ p.externs.map (·.name) :=
    disjoint_of_nodup_append names (mem_map_of_mem member)
  refine ⟨Bool.eq_false_iff.mpr (mt isExtern_iff.mp apart), ?_⟩
  obtain ⟨g, found, ⟨f', member', ident, same, rfl⟩ | ⟨e, member', ident, same, -⟩⟩ :=
    func?_cases (mem_append_left _ (mem_map_of_mem member))
  · obtain rfl := inj_on_of_nodup_map names.of_append_left member member' same.symm
    exact ⟨ident, found⟩
  · exact absurd (mem_map.mpr ⟨e, member', same⟩) apart

theorem func?_foreign (member : e ∈ p.externs) : (of p).isExtern e.name = true ∧
    ∃ ident, (of p).func? e.name = some (declareExtern ident e) := by
  refine ⟨isExtern_iff.mpr (mem_map_of_mem member), ?_⟩
  obtain ⟨g, found, ⟨f', member', ident, same, -⟩ | ⟨e', member', ident, same, rfl⟩⟩ :=
    func?_cases (mem_append_right _ (mem_map_of_mem member))
  · have twice := disjoint_of_nodup_append names (mem_map.mpr ⟨f', member', same⟩)
    exact absurd (mem_map_of_mem member) twice
  · obtain rfl := inj_on_of_nodup_map names.of_append_right member member' same.symm
    exact ⟨ident, found⟩

/-- Every well-typed instruction is built if the names of its operands are known. -/
theorem builds_instr (covers : Γ.Covers p) {d : Draft} (sound : d.Sound Γ past f temps)
    {i : Ir.Instr} (inside : i ∈ f.instrs) (typed : i.Typed p f)
    (targets : ∀ l, .label l ∈ i.args → l ∈ Γ.labels) (result : Γ.result = valueType f.result) :
    BuildsInstr Γ past f temps p i d := by
  unfold BuildsInstr
  cases typed with
  | alloc op args type =>
    refine .congr (C := True) ?_ (by simp [args, Ir.Value.Known])
    simp only [buildInstr, op, args]
    refine Builds.after (yields_append sound .alloca rfl) ?_
    rintro x d₁ ⟨known, typed, first⟩
    exact builds_result first.sound inside (by rw [op]; rfl) (.ptrtoint known typed)
      (by rw [type]; rfl) rfl
  | load op args used type =>
    rw [args, forall_mem_singleton]
    simp only [buildInstr, op, args]
    rw [← bind_assoc]
    refine Builds.before (yields_pointer covers sound used) ?_
    rintro x d₁ ⟨known, typed, first⟩
    exact builds_result first.sound inside (by rw [op]; rfl) (.load known typed)
      (by rw [type]; rfl) rfl
  | store op args usedValue used type missing =>
    rw [args, forall_mem_cons, forall_mem_singleton]
    simp only [buildInstr, op, args, type]
    refine Builds.bind (yields_operand covers sound usedValue) ?_
    rintro x d₁ ⟨known, typed, first⟩
    rw [← bind_assoc]
    refine Builds.before (yields_pointer covers first.sound used) ?_
    rintro y d₂ ⟨known', typed', second⟩
    have store := builds_append second.sound (.store (known.mono second.steps) known' typed typed')
    refine store.after fun _ d₃ third => .pure ?_
    exact .of_sound third.sound (by rw [op]; rfl) missing
  | blit op args source target missing =>
    exact builds_blit covers sound op args source target missing
  | arith op args usedX usedY some =>
    exact builds_arith covers sound inside op args usedX usedY some
  | compare op args usedX usedY some type =>
    exact builds_compare covers sound inside op args usedX usedY some type
  | extend op args used type =>
    rw [args, forall_mem_singleton]
    simp only [buildInstr, op, args]
    refine Builds.before (yields_operand covers sound used) ?_
    rintro x d₁ ⟨known, typed, first⟩
    exact builds_result first.sound inside (by rw [op]; rfl) (.sext known typed (by decide))
      (by rw [type]; rfl) rfl
  | @jump l op args missing =>
    have target := targets l (by simp [args])
    refine .congr (C := True) ?_ (by simp [args, Ir.Value.Known])
    simp only [buildInstr, op, args]
    exact builds_finish sound missing (.br target)
  | @branch v yes no op args used missing =>
    have targetYes := targets yes (by simp [args])
    have targetNo := targets no (by simp [args])
    refine .congr (C := v.Known p.symbols temps) ?_ (by simp [args, Ir.Value.Known])
    simp only [buildInstr, op, args]
    refine Builds.before (yields_operand covers sound used) ?_
    rintro x d₁ ⟨known, typed, first⟩
    refine Builds.after (yields_append first.sound (.icmp known .int typed rfl) rfl) ?_
    rintro y d₂ ⟨known', typed', second⟩
    exact builds_finish second.sound missing (.condBr known' typed' targetYes targetNo)
  | leave op args void missing =>
    refine .congr (C := True) ?_ (by simp [args])
    simp only [buildInstr, op, args]
    exact builds_finish sound missing (.ret (by rw [result, void]; rfl))
  | @leaveWith v op args used some missing =>
    have given : v.isMissing = false := by cases used <;> rfl
    rw [args, forall_mem_singleton]
    simp only [buildInstr, op, args]
    rw [if_neg (by simpa using given)]
    refine Builds.before (yields_operand covers sound used) ?_
    rintro x d₁ ⟨known, typed, first⟩
    refine builds_finish first.sound missing (.retValue known (by rw [typed, result]) ?_)
    rw [result, valueType_eq_int some]
    exact nofun
  | call member op form types used same =>
    obtain ⟨foreign, ident, found⟩ := func?_func names member
    refine builds_callee covers sound inside op form found used ?_ fun given => ?_
    · rw [signature_declareFunc, foreign, types, map_map, Signature.Takes,
        if_neg Bool.false_ne_true]
      rfl
    · obtain ⟨type, some⟩ := same given
      exact ⟨by rw [type]; rfl, by rwa [type]⟩
  | @callExtern e more args member op form types fixed used missing =>
    obtain ⟨foreign, ident, found⟩ := func?_foreign names member
    refine builds_callee covers sound inside op form found used ?_ fun given =>
      absurd missing given
    rw [signature_declareExtern, foreign, types, map_append, Signature.Takes]
    cases variadic : e.variadic with
    | true => exact if_pos rfl ▸ prefix_append ..
    | false =>
      rw [fixed variadic]
      simp [argumentType]

end Scope

end MiniPascal.Llvm
