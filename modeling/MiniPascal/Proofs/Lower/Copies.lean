import MiniPascal.Proofs.Lower.Linkage

/-!
# Block copies

A copy of `n` bytes goes from storage of `n` bytes to storage of `n` bytes. Where an array parameter
is copied the storage is the caller's, so the sizes of the callee have to be those of every call. An
array parameter that is passed on to a further call is passed as the slot that it was copied to, so
a call never passes anything but storage of its own function or global data.
-/

open List

namespace MiniPascal.Ir

/-- A value is the address of storage of a number of bytes: of a slot that a function allocates, or
of global data. -/
inductive Program.Allots (p : Program) (f : Func) : Value → Int64 → Prop
  | slot :
    i ∈ f.instrs → i.op = .alloc → i.result = .temp t → i.args = [.const n] → p.Allots f (.temp t) n
  | data : d ∈ p.globals → p.Allots f (.global d.name) d.size

/-- A value is the address of storage of exactly so many bytes. -/
def Program.AllotsExactly (p : Program) (f : Func) (v : Value) (n : Int64) : Prop :=
  p.Allots f v n ∧ ∀ m, p.Allots f v m → m = n

/-- Whatever a function is called with as its `j`-th argument is storage of exactly so many
bytes. -/
def Program.PassesExactly (p : Program) (f : Func) (j : Nat) (n : Int64) : Prop :=
  ∀ g ∈ p.funcs, ∀ i ∈ g.instrs, i.op = .call → ∀ args, i.args = .global f.name :: args →
    ∃ v, args[j]? = some v ∧ p.AllotsExactly g v n

/-- Every block copy writes all of a slot or of global data, and reads all of its source: storage of
the same function, global data, or what is passed for a parameter. -/
def Program.SoundCopies (p : Program) : Prop :=
  ∀ f ∈ p.funcs, ∀ i ∈ f.instrs, i.op = .blit → ∃ source target n,
    i.args = [source, target, .const n] ∧ p.AllotsExactly f target n ∧
    (p.AllotsExactly f source n ∨ ∃ (j : Nat) (q : Param),
      f.params[j]? = some q ∧ source = .temp q.temp ∧ p.PassesExactly f j n)

end MiniPascal.Ir

namespace MiniPascal.Lower

open Ir (Value Instr Ty)
open Static (Signature Header Outline)

theorem getElem?_of_forall₂ {α β : Type} {R : α → β → Prop} {xs : List α} {ys : List β}
    (h : Forall₂ R xs ys) {j : Nat} {x : α} (here : xs[j]? = some x) : ∃ y, ys[j]? = some y ∧ R x y := by
  induction h generalizing j with
  | nil => cases here
  | cons first _ ih =>
    cases j with
    | zero =>
      cases here
      exact ⟨_, rfl, first⟩
    | succ j => exact ih here

variable {o : Outline} {p : Ir.Program} {multi : Bool} (compiled : Compiled o p) (correct : o.Correct multi)
  {f : Ir.Func} {seen : List Header} {slots : Vars}
  (scene : Scene o f seen slots)

include scene in
/-- A slot has the size of its variable. -/
theorem allotsExactly_slot (here : slots[i]? = some v) :
    p.AllotsExactly f (Code.slot v.1 i) v.2.size := by
  refine ⟨.slot (scene.allocated i v here) rfl rfl rfl, fun m allots => ?_⟩
  generalize target : Code.slot v.1 i = w at allots
  cases allots with
  | slot inside isAlloc result args =>
    obtain ⟨j, v', there, rfl⟩ := scene.allocs _ inside isAlloc
    have same : Code.slot v.1 i = Code.slot v'.1 j := target.trans result.symm
    obtain rfl : i = j := by
      simp only [Code.slot, Value.temp.injEq, Ir.Temp.mk.injEq] at same
      exact Int.ofNat.inj same.2
    cases here.symm.trans there
    exact (Value.const.inj (List.cons.inj args).1).symm
  | data => cases target

include compiled correct

omit scene in
/-- The data of a global variable has its size. -/
theorem allotsExactly_data (declared : g ∈ o.globals) :
    p.AllotsExactly f (.global ("pasg_" ++ g.1)) g.2.size := by
  have member : dataOf g ∈ p.globals := by
    rw [compiled.globals]
    exact mem_map_of_mem declared
  refine ⟨.data member, fun m allots => ?_⟩
  generalize target : Value.global ("pasg_" ++ g.1) = w at allots
  cases allots with
  | slot => cases target
  | @data d inside =>
    have distinct := (compiled.symbols_nodup correct).of_append_left.of_append_left.of_append_left
    rw [← inj_on_of_nodup_map distinct member inside (Value.global.inj target)]
    rfl

include scene

/-- A variable has storage of its size. -/
theorem allotsExactly_address (holds : (layout o seen slots).Holds x type) :
    p.AllotsExactly f ((layout o seen slots).address x) type.size := by
  rcases Scene.address_cases o seen holds with ⟨i, slot, here⟩ | ⟨global, declared⟩
  · rw [slot]
    exact allotsExactly_slot scene here
  · rw [global]
    exact allotsExactly_data compiled correct declared

omit scene compiled in
theorem definition_unique (hd : d ∈ definitions [] o.headers)
    (hd' : d' ∈ definitions [] o.headers) (code : RoutineCode o p.strings d f)
    (code' : RoutineCode o p.strings d' f) : d = d' := by
  refine inj_on_of_nodup_map (definitions_nodup correct.once) hd hd' ?_
  exact (String.append_right_inj "pas_").mp (code.name.symm.trans code'.name)

omit scene in
/-- A call of a routine passes what its definition asks for. -/
theorem passed_of_call (defined : d ∈ definitions [] o.headers)
    (code : RoutineCode o p.strings d f) (member : f ∈ p.funcs) (hg : g ∈ p.funcs)
 (inside : i ∈ g.instrs) (isCall : i.op = .call)
    (form : i.args = .global f.name :: args) : ∃ seen slots vs, Scene o g seen slots ∧ args = vs.map Prod.fst ∧
      Forall₂ (Passed (layout o seen slots) g.Assigns) (d.header.params.map Prod.snd) vs := by
  rcases compiled.instr_cases hg inside with
    ⟨seen, slots, scene, body⟩ | ⟨_, -, -, front | behind⟩ | ⟨-, rfl⟩
  · cases body with
    | call callable _ passed =>
      obtain ⟨sameName, rfl⟩ := List.cons.inj form
      obtain ⟨d', defined', f', member', name, code', params, -⟩ := compiled.callee correct scene callable
      obtain rfl : f' = f := compiled.func_unique correct member' member (name.trans (Value.global.inj sameName))
      obtain rfl := definition_unique correct defined defined' code code'
      rw [← params] at passed
      exact ⟨seen, slots, _, scene, rfl, passed⟩
    | compute known => exact absurd isCall (operation?_simple known).noCall
    | print =>
      have printf := compiled.foreign correct compiled.printf
      rw [Value.global.inj (List.cons.inj form).1] at printf
      exact absurd (mem_map_of_mem member) printf
    | scan =>
      have scanf := compiled.foreign correct compiled.scanf
      rw [Value.global.inj (List.cons.inj form).1] at scanf
      exact absurd (mem_map_of_mem member) scanf
    | _ => cases isCall
  · cases front <;> cases isCall
  · cases behind <;> cases isCall
  · cases isCall

omit scene in
/-- Every call passes storage of the size of an array parameter. -/
theorem passesExactly {d : Definition} (defined : d ∈ definitions [] o.headers) (code : RoutineCode o p.strings d f)
    (member : f ∈ p.funcs) {j : Nat} {v : String × VarType} (here : d.header.params[j]? = some v)
    (isArray : v.2.isArray = true) : p.PassesExactly f j v.2.size := by
  intro g hg i inside isCall args form
  obtain ⟨seen, slots, vs, scene, rfl, passed⟩ :=
    passed_of_call compiled correct defined code member hg inside isCall form
  have param : (d.header.params.map Prod.snd)[j]? = some v.2 := by
    rw [getElem?_map, here, Option.map_some]
  obtain ⟨w, found, fits⟩ := getElem?_of_forall₂ passed param
  rw [getElem?_map, found, Option.map_some]
  cases fits with
  | word isWord => rw [isArray] at isWord; cases isWord
  | array _ holds _ size =>
    rw [← size]
    exact ⟨_, rfl, allotsExactly_address compiled correct scene holds⟩

omit scene in
theorem Compiled.soundCopies : p.SoundCopies := by
  intro f member i inside isCopy
  rcases compiled.instr_cases member inside with
    ⟨seen, slots, scene, body⟩ | ⟨d, defined, code, front | behind⟩ | ⟨-, rfl⟩
  · cases body with
    | copy holds _ holds' _ size =>
      refine ⟨_, _, _, rfl, allotsExactly_address compiled correct scene holds, .inl ?_⟩
      rw [← size]
      exact allotsExactly_address compiled correct scene holds'
    | @compute kind _ _ _ _ known => cases kind <;> cases known <;> cases isCopy
    | _ => cases isCopy
  · cases front with
    | @array j v here isArray =>
      refine ⟨_, _, _, rfl, allotsExactly_slot (code.scene defined) (slots_param here),
        .inr ⟨j, paramOf v, ?_, rfl, ?_⟩⟩
      · rw [code.params, getElem?_map, here, Option.map_some]
      · exact passesExactly compiled correct defined code member here isArray
    | _ => cases isCopy
  · cases behind <;> cases isCopy
  · cases isCopy

omit compiled correct scene in
/-- In what lowering returns, block copies stay inside their arrays. -/
theorem lower_soundCopies {on : Switches Feature} {source : String} {t : Tree} {c : Settings}
    {p : Ir.Program} (read : Tree.ofSource on source = .ok t)
    (ok : (lower c t).code = .ok p) : p.SoundCopies := by
  obtain ⟨o, -, correct, compiled, -⟩ := compiled_of_ok (Tree.isProgram_of_ofSource read) ok
  exact compiled.soundCopies correct

omit compiled correct scene in
theorem lower_soundCopies_sample : ∃ t p, Tree.ofSource Feature.strict sample = .ok t ∧
    (lower {} t).code = .ok p ∧ p.funcs.map (·.name) = ["pas_g", "pas_f", "main"] ∧
    p.SoundCopies := by
  obtain ⟨t, p, read, ok, names⟩ := sample_compiles
  exact ⟨t, p, read, ok, names, lower_soundCopies read ok⟩

end MiniPascal.Lower
