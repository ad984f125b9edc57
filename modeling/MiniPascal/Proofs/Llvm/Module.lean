import MiniPascal.Proofs.Llvm.Building

/-!
# Whole modules

Instructions are built one after the other, blocks too, and then functions. The temporaries that
were assigned further up have operands of their types all along, so a module is built from
well-typed code if and only if the names in each function can be resolved in the order of its code
(`build_cases`).
-/

open List

namespace MiniPascal.Llvm

open Scope

variable {p : Ir.Program} {f : Ir.Func} {Γ : Context} {past : List Step} {temps : List String}
  {d : Draft}

section Run

variable (typed : p.Typed) (wellFormed : f.WellFormed p) (member : f ∈ p.funcs)
  (covers : Γ.Covers p) (labels : Γ.labels = f.labels) (result : Γ.result = valueType f.result)

include typed wellFormed member covers labels result

/-- An instruction of a function is built if its names are known. -/
theorem builds_line {i : Ir.Instr} (inside : i ∈ f.instrs) (sound : d.Sound Γ past f temps) :
    BuildsInstr Γ past f temps p i d := by
  have targets (l : String) (target : .label l ∈ i.args) : l ∈ Γ.labels := by
    rw [labels]
    exact wellFormed.targets i inside l target
  exact builds_instr typed.names covers sound inside (typed.instrs f member i inside) targets result

/-- Instructions are built one after the other. -/
theorem builds_instrs {is : List Ir.Instr} (inside : ∀ i ∈ is, i ∈ f.instrs)
    (sound : d.Sound Γ past f temps) :
    Builds (is.forM (buildInstr (of p) f.result)) d (Ir.Resolved p.symbols temps is)
      fun _ d' => d'.Sound Γ past f (temps ++ is.filterMap Ir.Instr.defined?) := by
  induction is generalizing temps d with
  | nil => exact .pure (by rwa [filterMap_nil, append_nil])
  | cons i is ih =>
    obtain ⟨first, later⟩ := forall_mem_cons.mp inside
    refine (builds_line typed wellFormed member covers labels result first sound).bind ?_
    intro _ d₁ built
    rw [Ir.filterMap_defined?_cons, ← append_assoc]
    exact ih later built.sound

/-- The instructions of a block are built, with the end of the block. -/
theorem builds_body {is : List Ir.Instr} {last : Ir.Instr} (ends : last.op.isTerminator = true)
    (inside : ∀ i ∈ is ++ [last], i ∈ f.instrs) (sound : d.Sound Γ past f temps) :
    Builds ((is ++ [last]).forM (buildInstr (of p) f.result)) d
      (Ir.Resolved p.symbols temps (is ++ [last])) fun _ d' =>
        d'.Sound Γ past f (temps ++ (is ++ [last]).filterMap Ir.Instr.defined?) ∧
        ∃ t, d'.terminator = some t ∧ t.Typed Γ (past ++ d'.steps) := by
  obtain ⟨front, back⟩ := forall_mem_append.mp inside
  rw [forM_eq_forM, forM_append, Ir.resolved_append, filterMap_append, ← append_assoc]
  refine (builds_instrs typed wellFormed member covers labels result front sound).bind ?_
  intro _ d₁ sound₁
  have line := builds_line typed wellFormed member covers labels result (back last (by simp)) sound₁
  refine line.bind fun _ d₂ built => .pure ?_
  rw [Ir.filterMap_defined?_cons, filterMap_nil, append_nil]
  exact ⟨built.sound, built.terminator ends⟩

/-- A block is built. Numbering goes on from the block before it, so what is further up stays
known. -/
theorem builds_block {b : Ir.Block} (closed : b.Closed) (inside : ∀ i ∈ b.instrs, i ∈ f.instrs)
    (sound : d.Sound Γ past f temps) :
    Builds (buildBlock (of p) f.result b) d (Ir.Resolved p.symbols temps b.instrs) fun b' d' =>
      b'.label.name = b.label ∧ b'.steps = d'.steps ∧
        (∃ t, b'.terminator = some t ∧ t.Typed Γ (past ++ d.steps ++ b'.steps)) ∧
        d'.Sound Γ (past ++ d.steps) f (temps ++ b.instrs.filterMap Ir.Instr.defined?) := by
  obtain ⟨is, last, form, ends, -⟩ := closed
  rw [form] at inside ⊢
  have opened : Draft.Sound Γ (past ++ d.steps) f temps
      { d with steps := [], terminator := none, next := d.next + unnamed [b.label] } := by
    refine ⟨trivial, fun k x found => by simpa using sound.known k x found, sound.types,
      sound.holds, fun s listed n numbered => ?_⟩
    rw [append_nil] at listed
    exact Nat.lt_of_lt_of_le (sound.below s listed n numbered) (Nat.le_add_right ..)
  have body := builds_body typed wellFormed member covers labels result ends inside opened
  have run : buildBlock (of p) f.result b d = (is ++ [last]).forM (buildInstr (of p) f.result)
      { d with steps := [], terminator := none, next := d.next + unnamed [b.label] } >>= fun r =>
        .ok ({ label := { name := b.label, number := d.next }
               steps := r.2.steps
               terminator := r.2.terminator }, r.2) := by
    rw [← form]
    rfl
  unfold Builds
  rw [run]
  rcases body with ⟨resolved, _, d', built, sound', ended⟩ | ⟨unresolved, e, failed, unknown⟩
  · rw [built]
    exact .inl ⟨resolved, _, d', rfl, rfl, rfl, ended, sound'⟩
  · rw [failed]
    exact .inr ⟨unresolved, e, rfl, unknown⟩

/-- The blocks of a function are built one after the other. -/
theorem builds_blocks {bs : List Ir.Block} (closed : ∀ b ∈ bs, b.Closed)
    (inside : ∀ i ∈ bs.flatMap (·.instrs), i ∈ f.instrs) (sound : d.Sound Γ past f temps) :
    Builds (bs.mapM (buildBlock (of p) f.result)) d
      (Ir.Resolved p.symbols temps (bs.flatMap (·.instrs))) fun bs' _ =>
        bs'.map (·.label.name) = bs.map (·.label) ∧ BlocksTyped Γ (past ++ d.steps) bs' := by
  induction bs generalizing temps d past with
  | nil => exact .pure ⟨rfl, trivial⟩
  | cons b bs ih =>
    obtain ⟨first, later⟩ := forall_mem_cons.mp closed
    rw [flatMap_cons] at inside ⊢
    obtain ⟨insideFirst, insideLater⟩ := forall_mem_append.mp inside
    rw [mapM_cons, Ir.resolved_append]
    refine (builds_block typed wellFormed member covers labels result first insideFirst sound).bind ?_
    rintro b' d₁ ⟨label, steps, ended, sound₁⟩
    refine (ih later insideLater sound₁).before ?_
    rintro bs' _ ⟨names', typed'⟩
    refine .pure ⟨by rw [map_cons, map_cons, label, names'], ?_, ended, ?_⟩
    · rw [steps]
      exact sound₁.steps
    · rwa [steps]

end Run

/-! ## Functions -/

variable (p f) in
/-- What the body of a function can refer to, before any function is built. -/
def contextOf (head : Func) : Context where
  globals := (of p).globals.map fun g => (g.ident, g.type)
  funcs := ((of p).externs ++ memcpy :: (of p).funcs).map fun g =>
    (g.ident, g.signature)
  params := head.params
  result := head.result
  labels := f.labels

theorem covers_contextOf (head : Func) : (contextOf p f head).Covers p where
  globals g member := mem_map.mpr ⟨g, member, rfl⟩
  funcs g member := mem_map.mpr ⟨g, by simp only [mem_append, mem_cons] at member ⊢; tauto, rfl⟩
  memcpy := mem_map.mpr ⟨memcpy, by simp, rfl⟩

/-- The operands of the parameters of a function. -/
def paramTemps (head : Func) : List (String × Operand) :=
  (head.params.map fun q => (q.1.name, Operand.param q.1 q.2)).reverse

/-- What stands for a parameter is that parameter. -/
theorem param_of_lookup
    (h : (paramTemps (declareFunc ident f)).lookup k = some x) :
    ∃ q ∈ f.params, ∃ i, q.temp.key = k ∧ x = .param i (valueType q.type) ∧
      (i, valueType q.type) ∈ (declareFunc ident f).params := by
  obtain ⟨before, later, form, -⟩ := lookup_eq_some_iff.mp h
  have member : (k, x) ∈ paramTemps (declareFunc ident f) := by simp [form]
  obtain ⟨entry, inside, same⟩ := mem_map.mp (mem_reverse.mp member)
  obtain ⟨q, param, i, named, rfl⟩ := exists_of_forall₂ forall₂_numbered inside
  cases same
  exact ⟨q, param, i, named.symm, rfl, inside⟩

theorem isSome_lookup_param :
    ((paramTemps (declareFunc ident f)).lookup key).isSome = true ↔ key ∈ f.paramKeys := by
  have keys : (declareFunc ident f).params.map (·.1.name) = f.paramKeys :=
    map_numbered fun _ _ named => named
  have listed : key ∈ f.paramKeys ↔ ∃ q ∈ (declareFunc ident f).params, q.1.name = key := by
    rw [← keys, mem_map]
  rw [listed, ← not_iff_not, Option.not_isSome_iff_eq_none, lookup_eq_none_iff, paramTemps]
  simp only [mem_reverse, forall_mem_map, bne_iff_ne, ne_eq, not_exists, not_and]
  exact forall₂_congr fun _ _ => not_congr eq_comm

theorem buildFunc_eq (s : Scope) (head : Func) : buildFunc s head f =
    (f.blocks.mapM (buildBlock s f.result)
      { temps := paramTemps head, next := unnamed (head.params.map (·.1.name)) } >>=
      fun r => pure { head with blocks := r.1 }) := rfl

/-! ## Modules -/

/-- A function was built from its head. -/
structure Made (p : Ir.Program) (head : Func) (f : Ir.Func) (g : Func) : Prop where
  declared : ∃ ident, ident.name = f.name ∧ head = declareFunc ident f
  form : g = { head with blocks := g.blocks }
  labels : g.blocks.map (·.label.name) = f.labels
  typed : BlocksTyped (contextOf p f head) [] g.blocks

/-- A function is built, with blocks of the same labels, if its names can be resolved. -/
theorem buildFunc_cases (typed : p.Typed) (wellFormed : f.WellFormed p) (member : f ∈ p.funcs)
 (named : ident.name = f.name) :
    (f.Resolves p ∧ ∃ g, buildFunc (of p) (declareFunc ident f) f = .ok g ∧
        Made p (declareFunc ident f) f g) ∨
      ¬ f.Resolves p ∧ ∃ e, buildFunc (of p) (declareFunc ident f) f = .error e ∧ e.IsUnknown := by
  have sound : Draft.Sound (contextOf p f (declareFunc ident f)) [] f f.paramKeys
      { temps := paramTemps (declareFunc ident f)
        next := unnamed ((declareFunc ident f).params.map (·.1.name)) } := by
    refine ⟨trivial, fun k x h => ?_, fun k x h => ?_, fun _ => isSome_lookup_param, forall_mem_nil _⟩
    · obtain ⟨q, -, i, -, rfl, listed⟩ := param_of_lookup h
      exact .param listed
    · obtain ⟨q, listed, i, rfl, rfl, -⟩ := param_of_lookup h
      exact ⟨q.type, .param listed, rfl⟩
  rw [buildFunc_eq]
  rcases builds_blocks typed wellFormed member (covers_contextOf (declareFunc ident f)) rfl rfl
    wellFormed.closed (fun _ inside => inside) sound with
    ⟨resolves, blocks, d, run, same, typed'⟩ | ⟨unresolved, e, failed, unknown⟩
  · rw [run]
    exact .inl ⟨resolves, _, rfl, ⟨ident, named, rfl⟩, rfl, same, typed'⟩
  · rw [failed]
    exact .inr ⟨unresolved, e, rfl, unknown⟩

/-- Functions are built until one cannot be. -/
theorem buildFuncs_cases {C : Ir.Func → Prop} {R : Func → Ir.Func → Func → Prop}
    {fs : List (Func × Ir.Func)}
    (each : ∀ q ∈ fs, (C q.2 ∧ ∃ g, buildFunc s q.1 q.2 = .ok g ∧ R q.1 q.2 g) ∨
      ¬ C q.2 ∧ ∃ e, buildFunc s q.1 q.2 = .error e ∧ e.IsUnknown) :
    ((∀ q ∈ fs, C q.2) ∧ ∃ gs, buildFuncs s fs = .ok gs ∧ Forall₂ (fun q g => R q.1 q.2 g) fs gs) ∨
      ∃ q ∈ fs, ¬ C q.2 ∧ ∃ e, buildFuncs s fs = .error (q.2.name, e) ∧ e.IsUnknown := by
  induction fs with
  | nil => exact .inl ⟨forall_mem_nil _, [], rfl, .nil⟩
  | cons q fs ih =>
    obtain ⟨first, later⟩ := forall_mem_cons.mp each
    rw [buildFuncs]
    rcases first with ⟨met, g, built, holds⟩ | ⟨unmet, e, failed, unknown⟩
    · rw [built]
      rcases ih later with ⟨all, gs, rest, related⟩ | ⟨q', member, unmet, e, rest, unknown⟩
      · rw [rest]
        exact .inl ⟨forall_mem_cons.mpr ⟨met, all⟩, g :: gs, rfl, .cons holds related⟩
      · rw [rest]
        exact .inr ⟨q', mem_cons_of_mem _ member, unmet, e, rfl, unknown⟩
    · rw [failed]
      exact .inr ⟨q, mem_cons_self, unmet, e, rfl, unknown⟩

variable (p) in
/-- The module with the given functions for those of a program. -/
def assembled (gs : List Func) : Module :=
  { globals := (of p).globals, funcs := (of p).externs ++ memcpy :: gs }

theorem length_funcs : (of p).funcs.length = p.funcs.length := by
  have lengths := congrArg List.length (func_names (p := p))
  rwa [length_map, length_map] at lengths

section Made

variable {gs : List Func}
  (all : Forall₂ (fun q g => Made p q.1 q.2 g) ((of p).funcs.zip p.funcs) gs)

include all

/-- What does not depend on blocks is as in the heads. -/
theorem map_made {γ : Type} {view : Func → γ}
    (blind : ∀ g blocks, view { g with blocks } = view g) : gs.map view = (of p).funcs.map view := by
  have heads {fs : List (Func × Ir.Func)} {gs : List Func}
      (all : Forall₂ (fun q g => Made p q.1 q.2 g) fs gs) : gs.map view = (fs.map Prod.fst).map view := by
    induction all with
    | nil => rfl
    | cons made _ ih => rw [map_cons, map_cons, map_cons, ih, made.form, blind]
  rw [heads all, map_fst_zip (Nat.le_of_eq length_funcs)]

theorem made_of_mem (member : g ∈ gs) : ∃ head f, Made p head f g := by
  obtain ⟨⟨head, f⟩, -, made⟩ := exists_of_forall₂ all.flip member
  exact ⟨head, f, made⟩

theorem exists_made {f : Ir.Func} (member : f ∈ p.funcs) : ∃ g ∈ gs, ∃ head, Made p head f g := by
  rw [← map_snd_zip (Nat.le_of_eq length_funcs.symm)] at member
  obtain ⟨⟨head, f⟩, inside, rfl⟩ := mem_map.mp member
  obtain ⟨g, there, made⟩ := exists_of_forall₂ all inside
  exact ⟨g, there, head, made⟩

/-- The functions that are built see each other as their heads did. -/
theorem context_assembled {head : Func} {f : Ir.Func} (made : Made p head f g) :
    (assembled p gs).context g = contextOf p f head := by
  have funcs : (assembled p gs).funcs.map (fun h => (h.ident, h.signature)) =
      ((of p).externs ++ memcpy :: (of p).funcs).map fun h =>
      (h.ident, h.signature) := by
    rw [assembled, map_append, map_append, map_cons, map_cons, map_made all fun _ _ => rfl]
  rw [Module.context, contextOf, funcs, made.labels, made.form]
  rfl

theorem assembled_typed (symbols : (p.symbols ++ ["memcpy"]).Nodup) : (assembled p gs).Typed where
  names := by
    have funcs : gs.map (·.ident.name) = (of p).funcs.map (·.ident.name) :=
      map_made all fun _ _ => rfl
    rw [assembled, global_names, map_append, map_cons, extern_names, funcs, func_names]
    have shuffled : (p.funcs.map (·.name) ++ (p.externs.map (·.name) ++ ["memcpy"])).Perm _ :=
      perm_append_comm
    rw [append_assoc (p.externs.map _)] at shuffled
    rw [Ir.Program.symbols, append_assoc, append_assoc (p.funcs.map _)] at symbols
    exact (shuffled.append_left _).nodup_iff.mp symbols
  funcs g member := by
    rcases mem_append.mp member with declared | later
    · obtain ⟨e, -, ident, -, rfl⟩ := exists_of_forall₂ forall₂_numbered declared
      trivial
    · rcases mem_cons.mp later with rfl | inside
      · trivial
      · obtain ⟨head, f, made⟩ := made_of_mem all inside
        rw [context_assembled all made]
        exact made.typed

theorem assembled_declares : (assembled p gs).Declares p where
  funcs f member := by
    obtain ⟨g, inside, head, made⟩ := exists_made all member
    obtain ⟨ident, named, rfl⟩ := made.declared
    refine ⟨g, mem_append_right _ (mem_cons_of_mem _ inside), ?_, ?_, made.labels⟩
    · rw [made.form]
      exact named
    · rw [made.form]
      exact signature_declareFunc ident f
  externs e member := by
    obtain ⟨_, inside, ident, named, rfl⟩ := exists_of_forall₂ forall₂_numbered.flip member
    exact ⟨_, mem_append_left _ inside, named, signature_declareExtern ident e⟩

end Made

/-- From well-typed code a module is built, unless a function has a name that cannot be resolved. -/
theorem build_cases (typed : p.Typed) (wellFormed : p.WellFormed) :
    ((∀ f ∈ p.funcs, f.Resolves p) ∧ ∃ gs, build p = .ok (assembled p gs) ∧
        Forall₂ (fun q g => Made p q.1 q.2 g) ((of p).funcs.zip p.funcs) gs) ∨
      ∃ f ∈ p.funcs, ¬ f.Resolves p ∧ ∃ e, build p = .error (f.name, e) ∧ e.IsUnknown := by
  have each : ∀ q ∈ (of p).funcs.zip p.funcs,
      (q.2.Resolves p ∧ ∃ g, buildFunc (of p) q.1 q.2 = .ok g ∧ Made p q.1 q.2 g) ∨
        ¬ q.2.Resolves p ∧ ∃ e, buildFunc (of p) q.1 q.2 = .error e ∧ e.IsUnknown := by
    rintro ⟨head, f⟩ member
    obtain ⟨ident, named, rfl⟩ := (forall₂_iff_zip.mp forall₂_numbered).2 member
    have listed := (of_mem_zip member).2
    exact buildFunc_cases typed (wellFormed f listed) listed named
  have run : build p = buildFuncs (of p) ((of p).funcs.zip p.funcs) >>= fun gs =>
      .ok (assembled p gs) := rfl
  rw [run]
  rcases buildFuncs_cases each with ⟨all, gs, built, made⟩ | ⟨q, member, unmet, e, failed, unknown⟩
  · rw [built]
    refine .inl ⟨fun f listed => ?_, gs, rfl, made⟩
    rw [← map_snd_zip (Nat.le_of_eq length_funcs.symm)] at listed
    exact forall_mem_map.mpr all f listed
  · rw [failed]
    exact .inr ⟨q.2, (of_mem_zip member).2, unmet, e, rfl, unknown⟩

/-- From well-typed code whose names can be resolved a well-typed module is built. -/
theorem build_typed (symbols : (p.symbols ++ ["memcpy"]).Nodup) (wellFormed : p.WellFormed)
    (resolves : ∀ f ∈ p.funcs, f.Resolves p) (typed : p.Typed) :
    ∃ m, build p = .ok m ∧ m.Typed ∧ m.Declares p := by
  rcases build_cases typed wellFormed with ⟨-, gs, built, all⟩ | ⟨f, member, unresolved, -⟩
  · exact ⟨assembled p gs, built, assembled_typed all symbols, assembled_declares all⟩
  · exact absurd (resolves f member) unresolved

end MiniPascal.Llvm
