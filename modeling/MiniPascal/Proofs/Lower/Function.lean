import MiniPascal.Proofs.Ir.Typing
import MiniPascal.Proofs.Lower.Labels
import MiniPascal.Proofs.Static.Outline

/-!
# The functions of a compiled program

A function is the code of a body between code that makes the slots of the variables and code that
returns. The two parts around the body keep to the discipline too (`Encloses`), so the whole listing
does (`Lowers.runs_framed`). Its labels are all different and its targets are there, so every function
of a compiled program is well formed; control comes to each of its lines, and storage is allocated
only in front of the body.
-/

open List

namespace MiniPascal.Lower

open Ir (Value Instr Ty Line plain plain_append listing Discipline Live)
open Static (Header Outline)

/-! ## The discipline of a function -/

/-- The discipline of a function with slots for variables. Behind the label `start` all slots are
needed at every label; `X` says what is needed besides. -/
def disciplineOf (o : Outline) (slots : Vars) (params : List Ir.Temp) (returns : Bool)
    (allocates : Prop) (X : String → Nat → Prop) : Discipline where
  name n := (slots[n]?.map Prod.fst).getD ""
  params := params
  callee g := g = "printf" ∨ g = "scanf" ∨ ∃ f, o.Defined f ∧ g = "pas_" ++ f
  allocates := allocates
  returns := returns
  needs l t := l ≠ "start" ∧ (t < slots.length ∨ X l t)

section Function

variable {o : Outline} {slots : Vars} {params : List Ir.Temp} {returns : Bool}

theorem disciplineOf_name {allocates : Prop} {X : String → Nat → Prop}
    (here : slots[n]? = some v) : (disciplineOf o slots params returns allocates X).name n = v.1 := by
  simp [disciplineOf, here]

theorem suits_disciplineOf (seen : List Header) (ids : ∀ q ∈ params, q.id = -1) (allocates : Prop)
    (X : String → Nat → Prop) :
    Suits (disciplineOf o slots params returns allocates X) (layout o seen slots) slots.length where
  held x := by
    unfold layout
    dsimp only
    split
    · next member =>
      have bound := idxOf_lt_length_of_mem member
      have here : (slots.map Prod.fst)[(slots.map Prod.fst).idxOf x]? = some x := by
        rw [getElem?_eq_getElem bound, getElem_idxOf bound]
      refine .inr ⟨_, ?_, by simpa using bound⟩
      rw [getElem?_map] at here
      simp [Discipline.temp, disciplineOf, here]
    · exact trivial
  unnamed n above := by
    have none : slots[n]? = none := getElem?_eq_none above
    simp [disciplineOf, none]
  printf := .inl rfl
  scanf := .inr (.inl rfl)
  routine f defined := .inr (.inr ⟨f, defined, rfl⟩)
  apart n member := by
    have negative := ids _ member
    simp [Discipline.temp] at negative

/-- The code around a body makes all slots, and returns. -/
structure Encloses (o : Outline) (slots : Vars) (params : List Ir.Temp)
    (returns : Bool) (enter : List Instr) (leave : Nat → List Instr) : Prop where
  ids : ∀ q ∈ params, q.id = -1
  enters : ∀ X A, Passes (disciplineOf o slots params returns True X) A 0 enter slots.length
    fun B => ∀ t < slots.length, B t
  leaves : ∀ allocates X n A, slots.length ≤ n → (∀ t < slots.length, A t) → ∃ N,
    (disciplineOf o slots params returns allocates X).Runs ⟨n, some A⟩ (plain (leave n)) ⟨N, none⟩
  silent : ∀ n, ∀ i ∈ leave n, ∀ l, .label l ∉ i.args

variable {enter : List Instr} {leave : Nat → List Instr} {seen : List Header}
  {strings : List Ir.StringLit} {body : Tree} {r n' k' : Nat} {ls : List Line} {ends : Bool}
  (around : Encloses o slots params returns enter leave)

include around

theorem Encloses.suits (seen : List Header) :
    Suits (disciplineOf o slots params returns True fun _ _ => False) (layout o seen slots) slots.length :=
  suits_disciplineOf seen around.ids True _

theorem Encloses.inner : ∀ i ∈ enter, Inner i := (around.enters (fun _ _ => False) fun _ => False).inner

variable
  (lowers : Lowers (layout o seen slots) strings (retLabel r) none (.stmt body) slots.length
    (r + 1) ls ends n' k')

include lowers

/-- A body and the code behind it keep to the discipline. -/
theorem Lowers.runs_body : ∃ X, ∀ allocates A, (∀ t < slots.length, A t) → (∀ t, A t → t < slots.length) →
    ∃ N, (disciplineOf o slots params returns allocates X).Runs ⟨slots.length, some A⟩
      (ls ++ (rejoin ends (retLabel r) ++ .label (retLabel r) :: plain (leave n')))
      ⟨N, none⟩ := by
  obtain ⟨X, guarded⟩ := lowers.guarded
  refine ⟨X, fun allocates A base below => ?_⟩
  have returning (t : Nat) :
      (disciplineOf o slots params returns allocates X).needs (retLabel r) t → t < slots.length := by
    rintro ⟨-, slot | extra⟩
    · exact slot
    · have := own_numbered.mp (guarded.own _ t extra)
      omega
  have surrounds : Surrounds (disciplineOf o slots params returns allocates X) (layout o seen slots)
      slots.length (· < slots.length) (retLabel r) none slots.length (r + 1) k' X :=
    { suits := suits_disciplineOf seen around.ids allocates X
      taken := Nat.le_refl _
      slots := fun _ slot => slot
      below := fun _ slot => slot
      own := fun l own t => by
        obtain ⟨hint, j, rfl, -⟩ := own
        exact and_iff_right (numbered_ne_start hint j)
      ret := returning
      brk := nofun }
  obtain ⟨B, sub, runs⟩ := guarded.runs _ _ _ surrounds A base below
  have bound := runs.next_le
  have needs (t : Nat) (slot : t < slots.length) :
      (disciplineOf o slots params returns allocates X).needs (retLabel r) t :=
    ⟨numbered_ne_start _ _, .inl slot⟩
  obtain ⟨N, tail⟩ := around.leaves allocates X n' _ bound needs
  refine ⟨N, runs.append ((runs_rejoin fun t needed => sub t (returning t needed)).append (.label ?_ tail))⟩
  exact fun t needed => Nat.lt_of_lt_of_le (returning t needed) bound

/-- A function keeps to the discipline. -/
theorem Lowers.runs_framed : ∃ X N, (disciplineOf o slots params returns True X).Runs ⟨0, none⟩
    (Code.framed enter ls ends (retLabel r) (leave n')) ⟨N, none⟩ := by
  obtain ⟨X, inside⟩ := lowers.runs_body around
  obtain ⟨B, -, entering, base⟩ := around.enters X ((disciplineOf o slots params returns True X).needs "start")
  have atStart (t : Nat) : ¬ (disciplineOf o slots params returns True X).needs "start" t :=
    fun needed => needed.1 rfl
  have below := entering.valid (by rintro _ ⟨⟩ t needed; exact absurd needed (atStart t)) B rfl
  obtain ⟨N, rest⟩ := inside True B base below
  exact ⟨X, N, .label (fun t needed => absurd needed (atStart t)) (entering.append rest)⟩

/-- Nothing is allocated behind the code in front of the body. -/
theorem Lowers.no_alloc_behind (member : .instr i ∈ ls ++ (rejoin ends (retLabel r) ++
      .label (retLabel r) :: plain (leave n'))) : i.op ≠ .alloc := by
  intro isAlloc
  obtain ⟨X, inside⟩ := lowers.runs_body around
  obtain ⟨N, runs⟩ := inside False (· < slots.length) (fun _ slot => slot) fun _ slot => slot
  obtain ⟨A, -, goes | leaves⟩ := runs.instr (by rintro _ ⟨⟩ t slot; exact slot) member
  · exact goes.alloc isAlloc
  · have ends := leaves.op
    rw [isAlloc] at ends
    cases ends

omit around lowers in
theorem labelsOf_framed (is js : List Instr) (ret : String) :
    labelsOf (Code.framed is ls ends ret js) = "start" :: (labelsOf ls ++ [ret]) := by
  cases ends <;> simp [labelsOf, Code.framed, rejoin, filterMap_cons]

omit around in
/-- The labels of a function are all different. -/
theorem Lowers.labels_nodup : (labelsOf (Code.framed enter ls ends (retLabel r) (leave n'))).Nodup := by
  obtain ⟨-, distinct, own⟩ := lowers.opens
  rw [labelsOf_framed]
  refine nodup_cons.mpr ⟨fun member => ?_, nodup_append.mpr ⟨distinct, nodup_singleton _, ?_⟩⟩
  · rcases mem_append.mp member with inside | atEnd
    · obtain ⟨hint, j, same, -⟩ := own _ inside
      exact numbered_ne_start hint j same.symm
    · exact numbered_ne_start _ _ (mem_singleton.mp atEnd).symm
  · rintro l inside _ atEnd rfl
    obtain ⟨hint, j, rfl, -, bounds⟩ := own _ inside
    have := (numbered_inj (mem_singleton.mp atEnd)).2
    omega

/-- Every target in a function is one of its labels. -/
theorem Lowers.targets_framed : Targets (fun l => .label l ∈ Code.framed enter ls ends (retLabel r) (leave n'))
    (Code.framed enter ls ends (retLabel r) (leave n')) := by
  have inside := lowers.targets (around.suits seen) (Nat.le_refl _)
  have ret : .label (retLabel r) ∈ Code.framed enter ls ends (retLabel r) (leave n') := by
    simp [Code.framed]
  refine .label ((Targets.plain around.inner).append
    ((inside.mono ?_).append ((Targets.rejoin fun _ => ret).append (.label ?_))))
  · rintro l (member | rfl | impossible)
    · simp [Code.framed, member]
    · exact ret
    · cases impossible
  · intro i member l target
    obtain ⟨j, inLeave, same⟩ := mem_map.mp member
    cases same
    exact absurd target (around.silent n' _ inLeave l)

omit around lowers in
/-- Control goes all through code that returns. -/
theorem allLive_leaving {D : Discipline} {n N : Nat} {A : Nat → Prop} {is : List Instr} {F post : List Line}
    (runs : D.Runs ⟨n, some A⟩ (plain is) ⟨N, none⟩) (live : Live F (plain is ++ post)) :
    AllLive F (plain is) post := by
  induction is generalizing n A with
  | nil => exact .nil
  | cons i is ih =>
    cases runs with
    | effect goes _ rest | define goes _ rest => exact .cons live (ih rest (live.next goes.op))
    | leave _ rest =>
      cases is with
      | nil => exact .cons live .nil
      | cons => cases rest

/-- Control comes to every line of a function. -/
theorem Lowers.live_framed : AllLive (Code.framed enter ls ends (retLabel r) (leave n'))
    (Code.framed enter ls ends (retLabel r) (leave n')) [] := by
  obtain ⟨F, hF⟩ : ∃ F, F = Code.framed enter ls ends (retLabel r) (leave n') := ⟨_, rfl⟩
  rw [← hF]
  have start : Live F (plain enter ++ (ls ++ (rejoin ends (retLabel r) ++
      .label (retLabel r) :: plain (leave n')))) := by
    have first : Live F F := .start
    nth_rewrite 2 [hF] at first
    exact first.next rfl
  have inside := start.plain fun i member => (around.inner i member).goes
  have covers := lowers.coverable (around.suits seen) (Nat.le_refl _) F _ (by simp [hF, Code.framed]) nofun inside
  -- Control comes to the end by the jump behind the body, or by one in it.
  have ret : Live F (.label (retLabel r) :: plain (leave n')) := by
    cases ends with
    | false => exact live_forward [] (covers.past rfl) rfl (mem_singleton_self _) rfl
    | true =>
      rcases covers.leaves rfl with ⟨ahead, live⟩ | ⟨b, ⟨⟩, -⟩
      obtain ⟨pre, split⟩ := live.split
      have distinct : (labelsOf F).Nodup := hF ▸ lowers.labels_nodup
      have same : ahead = plain (leave n') := Ir.ahead_unique distinct split
        (hF.trans (by simp [Code.framed, rejoin] : _ = (.label "start" :: (plain enter ++ ls)) ++ _))
      rwa [same] at live
  obtain ⟨N, returning⟩ :=
    around.leaves True (fun _ _ => False) n' (· < slots.length) lowers.le fun _ slot => slot
  have last : AllLive F (.label (retLabel r) :: plain (leave n')) [] := by
    refine .cons (by simpa using ret) (allLive_leaving returning ?_)
    simpa using ret.next rfl
  have back : AllLive F (rejoin ends (retLabel r)) (.label (retLabel r) :: plain (leave n')) :=
    .rejoin fun stays => by simpa [rejoin, stays] using covers.past stays
  have inner : AllLive F (plain enter ++ (ls ++ (rejoin ends (retLabel r) ++
      .label (retLabel r) :: plain (leave n')))) [] := by
    refine .append ?_ (.append ?_ (.append ?_ last))
    · exact .plain around.inner (by simpa using start)
    · simpa using covers.lines
    · simpa using back
  nth_rewrite 2 [hF]
  refine .cons ?_ inner
  have first : Live F F := .start
  nth_rewrite 2 [hF] at first
  simpa [Code.framed] using first

/-- In front of storage that is allocated there is no branch and no label. -/
theorem Lowers.allocs_framed {a : Nat}
    (allocates : Ir.AllocatesAt (Code.framed enter ls ends (retLabel r) (leave n')) a) :
    ∀ i < a, ∀ line, (Code.framed enter ls ends (retLabel r) (leave n'))[i + 1]? = some line →
      line.ends = false ∧ line.label? = none := by
  obtain ⟨instr, here, isAlloc⟩ := allocates
  intro i before line there
  cases a with
  | zero => exact absurd before (Nat.not_lt_zero i)
  | succ a =>
    unfold Code.framed at here there
    rw [getElem?_cons_succ, getElem?_append] at here there
    have inEnter : a < (plain enter).length := by
      by_contra behind
      rw [if_neg behind] at here
      exact lowers.no_alloc_behind around (mem_of_getElem? here) isAlloc
    rw [if_pos (by omega)] at there
    obtain ⟨j, member, rfl⟩ := mem_map.mp (mem_of_getElem? there)
    exact ⟨(around.inner j member).goes, rfl⟩

end Function

section Body

variable {o : Outline} {slots : Vars} {returns : Bool} {enter : List Instr}
  {leave : Nat → List Instr} {seen : List Header} {strings : List Ir.StringLit} {body : Tree} {f : Ir.Func}
  (around : Encloses o slots (f.params.map (·.temp)) returns enter leave)
  (code : BodyCode (layout o seen slots) strings slots.length enter leave body f.blocks)

include around code

omit around in
theorem BodyCode.labels_nodup : (labelsOf (listing f.blocks)).Nodup := by
  obtain ⟨r, ls, ends, n', k', lowers, listed⟩ := code
  rw [listed]
  exact lowers.labels_nodup

theorem BodyCode.wellFormed (result : returns = (f.result != .none))
    (apart : ∀ name n, Ir.Temp.key { name, id := Int.ofNat n } ∉ f.paramKeys)
    (callees : ∀ g, g = "printf" ∨ g = "scanf" ∨ (∃ h, o.Defined h ∧ g = "pas_" ++ h) →
      g ∈ p.funcs.map (·.name) ++ p.externs.map (·.name)) : f.WellFormed p := by
  have distinct := code.labels_nodup
  obtain ⟨r, ls, ends, n', k', lowers, listed⟩ := code
  have lines : f.lines = Code.framed enter ls ends (retLabel r) (leave n') := listed
  obtain ⟨X, N, runs⟩ := lowers.runs_framed around
  rw [← lines] at runs
  refine runs.wellFormed ?_ ?_ ?_ ?_
  · exact
      { params := rfl
        apart := fun n => apart _ n
        distinct := fun m n same => key_inj same
        callees := callees
        returns := result }
  · intro empty
    rw [Ir.Func.lines, empty] at lines
    cases lines
  · rw [Ir.labels_eq]
    exact distinct
  · intro i member l target
    rw [Ir.instrs_eq, mem_filterMap] at member
    obtain ⟨line, inside, found⟩ := member
    cases line with
    | label => cases found
    | instr j =>
      cases found
      rw [lines] at inside
      rw [Ir.labels_eq, lines]
      exact mem_filterMap.mpr ⟨_, lowers.targets_framed around _ inside l target, rfl⟩

theorem BodyCode.soundFlow : f.SoundFlow := by
  obtain ⟨r, ls, ends, n', k', lowers, listed⟩ := code
  have lines : f.lines = Code.framed enter ls ends (retLabel r) (leave n') := listed
  obtain ⟨X, N, runs⟩ := lowers.runs_framed around
  rw [← lines] at runs
  refine ⟨?_, fun i bound => ?_, fun u key uses => ?_, ?_⟩
  · cases blocks : f.blocks with
    | nil =>
      rw [Ir.Func.lines, blocks] at lines
      cases lines
    | cons b bs =>
      rw [Ir.Func.lines, blocks] at lines
      exact ⟨b, bs, rfl, Line.label.inj (List.cons.inj lines).1⟩
  · have live := lowers.live_framed around
    rw [← lines] at live
    obtain ⟨j, reachable, ahead⟩ := live (f.lines.take i) f.lines[i] (f.lines.drop (i + 1))
      (by rw [getElem_cons_drop, take_append_drop])
    rw [append_nil, getElem_cons_drop] at ahead
    have same := congrArg List.length ahead
    rw [length_drop, length_drop] at same
    have : j = i := by omega
    exact this ▸ reachable
  · rcases Discipline.Runs.dominated runs uses with ⟨q, param, rfl⟩ | dominated
    · obtain ⟨param, member, rfl⟩ := mem_map.mp param
      exact .inl (mem_map_of_mem member)
    · exact .inr dominated
  · rw [lines]
    exact fun a allocates => lowers.allocs_framed around allocates

omit around in
/-- No label stands for code that control does not come to. -/
theorem BodyCode.no_dead_label : ∀ b ∈ f.blocks, ∀ n, b.label ≠ numbered "dead" n := by
  obtain ⟨r, ls, ends, n', k', lowers, listed⟩ := code
  intro b member n dead
  have label : numbered "dead" n ∈ "start" :: (labelsOf ls ++ [retLabel r]) := by
    have labelled : b.label ∈ f.labels := mem_map_of_mem member
    rw [Ir.labels_eq, Ir.Func.lines, listed, dead] at labelled
    exact labelsOf_framed _ _ _ ▸ labelled
  rcases mem_cons.mp label with start | behind
  · exact numbered_ne_start _ _ start
  · rcases mem_append.mp behind with inside | atEnd
    · obtain ⟨hint, j, same, known, -⟩ := lowers.opens.2.2 _ inside
      rw [← (numbered_inj same).1] at known
      exact absurd known (by decide)
    · exact absurd (numbered_inj (mem_singleton.mp atEnd)).1 (by decide)

end Body

/-! ## Routines -/

section Routine

variable {o : Outline} {h : Header} {params : List Ir.Temp} {returns : Bool}

/-- The code for variables makes their slots, if that for each one does. -/
theorem passes_each {f : Nat → String × VarType → List Instr} (vs : Vars)
    {i : Nat} (each : ∀ j v A, vs[j]? = some v → Passes D A (i + j) (f (i + j) v) (i + j + 1) fun B => B (i + j))
    (A : Nat → Prop) (before : ∀ t < i, A t) :
    Passes D A i (Code.each f i vs) (i + vs.length) fun B => ∀ t < i + vs.length, B t := by
  induction vs generalizing i A with
  | nil => exact .nil before
  | cons v vs ih =>
    have first := each 0 v A rfl
    refine (first : Passes D A i (f i v) (i + 1) _).append fun B sub made => ?_
    have rest := ih (fun j v A here => by
      have later := each (j + 1) v A here
      rwa [← Nat.add_assoc, Nat.add_right_comm] at later) B fun t bound => by
        rcases Nat.lt_succ_iff_lt_or_eq.mp bound with low | rfl
        · exact sub t (before t low)
        · exact made
    rwa [Nat.add_assoc, Nat.add_comm 1] at rest

section Slots

variable {slots : Vars} {X : String → Nat → Prop} {A : Nat → Prop} {i : Nat}
  {v : String × VarType} (here : slots[i]? = some v)

include here

theorem slot_eq {allocates : Prop} : Code.slot v.1 i =
    .temp ((disciplineOf o slots params returns allocates X).temp i) := by
  rw [Discipline.temp, disciplineOf_name here]
  rfl

theorem passes_alloc : Passes (disciplineOf o slots params returns True X) A i [Code.alloc v.1 i v.2] (i + 1)
    fun B => B i ∧ (disciplineOf o slots params returns True X).Operand B (Code.slot v.1 i) := by
  refine .define ⟨rfl, ?_, nofun, fun _ => trivial⟩ (slot_eq here) ⟨.inr rfl, ?_⟩
  · simp [Code.alloc, Discipline.Operand.const]
  · rw [slot_eq here]
    exact .inr ⟨i, rfl, .inr rfl⟩

theorem passes_enterLocal : Passes (disciplineOf o slots params returns True X) A i (Code.enterLocal i v)
    (i + 1) fun B => B i := (passes_alloc here).mono fun _ _ made => made.1

theorem passes_enterOwn : Passes (disciplineOf o slots params returns True X) A i (Code.enterOwn i v)
    (i + 1) fun B => B i := by
  refine (passes_alloc here).cons fun B _ made => .effect (goes_of_args ⟨rfl, nofun, nofun⟩ ?_) rfl made.1
  simp [Code.store, made.2, Discipline.Operand.const]

theorem passes_enterParam (given : parameterTemp v.1 ∈ params) :
    Passes (disciplineOf o slots params returns True X) A i (Code.enterParam i v) (i + 1) fun B => B i := by
  refine (passes_alloc here).cons fun B _ made => ?_
  have param : (disciplineOf o slots params returns True X).Operand B (.temp (parameterTemp v.1)) := .inl given
  split
  · refine .effect (goes_of_args ⟨rfl, by simp [Code.copy], by simp [Code.copy]⟩ ?_) rfl made.1
    simp [Code.copy, made.2, param, Discipline.Operand.const]
  · refine .effect (goes_of_args ⟨rfl, by simp [Code.store], by simp [Code.store]⟩ ?_) rfl made.1
    simp [Code.store, made.2, param]

end Slots

theorem slots_param {j : Nat} {v : String × VarType} (here : h.params[j]? = some v) : h.slots[j]? = some v := by
  have bound := (List.getElem?_eq_some_iff.mp here).1
  rw [Header.slots, append_assoc, getElem?_append_left bound, here]

theorem slots_local (here : h.locals[j]? = some v) :
    h.slots[h.params.length + j]? = some v := by
  have bound := (List.getElem?_eq_some_iff.mp here).1
  rw [Header.slots, append_assoc, getElem?_append_right (Nat.le_add_right ..),
    Nat.add_sub_cancel_left, getElem?_append_left bound, here]

theorem slots_own (here : h.own[j]? = some v) :
    h.slots[Code.ownIndex h + j]? = some v := by
  rw [Header.slots, Code.ownIndex, getElem?_append_right (by simp), length_append,
    Nat.add_sub_cancel_left, here]

/-- The code on the way into a routine makes all its slots. -/
theorem passes_enter (given : ∀ p ∈ h.params, parameterTemp p.1 ∈ params) (X : String → Nat → Prop)
    (A : Nat → Prop) : Passes (disciplineOf o h.slots params returns True X) A 0 (Code.enter h) h.slots.length
      fun B => ∀ t < h.slots.length, B t := by
  have parameters : Passes (disciplineOf o h.slots params returns True X) A 0
      (Code.each Code.enterParam 0 h.params) (0 + h.params.length) fun B => ∀ t < 0 + h.params.length, B t :=
    passes_each h.params (fun j v A here => passes_enterParam (by simpa using slots_param here)
      (given v (mem_of_getElem? here))) A (by omega)
  rw [Nat.zero_add] at parameters
  have named := parameters.append fun B _ made =>
    passes_each h.locals (fun j v A here => passes_enterLocal (slots_local here)) B made
  have all := named.append fun B _ made =>
    passes_each h.own (fun j v A here => passes_enterOwn (slots_own here)) B made
  have length : h.slots.length = h.params.length + h.locals.length + h.own.length := by
    simp [Header.slots, Nat.add_assoc]
  rw [length]
  exact all

/-- The code on the way out of a routine returns, with a value if there is a result. -/
theorem runs_leave {allocates : Prop} {X : String → Nat → Prop} {A : Nat → Prop}
    (ids : ∀ q ∈ params, q.id = -1) (above : h.slots.length ≤ n) (made : ∀ t < h.slots.length, A t) : ∃ N,
    (disciplineOf o h.slots params (h.result != .void) allocates X).Runs ⟨n, some A⟩
      (plain (Code.leave h n)) ⟨N, none⟩ := by
  unfold Code.leave
  split
  · next void => exact ⟨n, .leave ⟨rfl, rfl, by simp, fun _ => by simp [disciplineOf, void, Ir.Func.carriesValue]⟩ .nil⟩
  · next function =>
    have own : h.own[0]? = some (h.name, .integer) := by simp [Header.own, function]
    have slot : h.slots[Code.ownIndex h]? = some (h.name, .integer) := slots_own own
    have suits : Suits (disciplineOf o h.slots params (h.result != .void) allocates X)
        (layout o [] h.slots) h.slots.length := suits_disciplineOf [] ids allocates X
    have bound : Code.ownIndex h < h.slots.length := (List.getElem?_eq_some_iff.mp slot).1
    have address : (disciplineOf o h.slots params (h.result != .void) allocates X).Operand A
        (Code.slot h.name (Code.ownIndex h)) := by
      rw [show Code.slot h.name (Code.ownIndex h) = _ from slot_eq slot]
      exact .inr ⟨_, rfl, made _ bound⟩
    obtain ⟨B, -, loading, value⟩ := passes_load suits above address
    refine ⟨n + 1, loading.append (.leave ⟨rfl, rfl, ?_, fun _ => ?_⟩ .nil)⟩
    · intro v member
      exact .inl (mem_singleton.mp member ▸ value)
    · simp [disciplineOf, function, Ir.Func.carriesValue, Code.temp, Value.isMissing]

theorem encloses_routine (o : Outline) (h : Header) :
    Encloses o h.slots ((h.params.map paramOf).map (·.temp)) (h.result != .void) (Code.enter h) (Code.leave h) := by
  have ids : ∀ q ∈ (h.params.map paramOf).map (·.temp), q.id = -1 := by
    intro q member
    obtain ⟨param, declared, rfl⟩ := mem_map.mp member
    obtain ⟨p, -, rfl⟩ := mem_map.mp declared
    rfl
  refine ⟨ids, passes_enter fun p member => ?_, fun _ _ _ _ => runs_leave ids, ?_⟩
  · exact mem_map_of_mem (mem_map_of_mem member)
  · intro n i member l target
    unfold Code.leave at member
    split at member
    · cases mem_singleton.mp member
      cases target
    · rcases mem_cons.mp member with rfl | last
      · cases mem_singleton.mp target
      · cases mem_singleton.mp last
        cases mem_singleton.mp target

theorem encloses_main (o : Outline) : Encloses o [] [] true [] fun _ => [{ op := .ret, args := [.const 0] }] where
  ids := nofun
  enters _ A := .nil (by simp)
  leaves allocates X n A _ _ := by
    refine ⟨n, .leave ⟨rfl, rfl, fun v member => .inl ?_, fun _ => rfl⟩ .nil⟩
    cases mem_singleton.mp member
    exact trivial
  silent n i member l target := by
    cases mem_singleton.mp member
    cases mem_singleton.mp target

theorem RoutineCode.encloses {o : Outline}
    (code : RoutineCode o strings d f) :
    Encloses o d.header.slots (f.params.map (·.temp)) (d.header.result != .void) (Code.enter d.header)
      (Code.leave d.header) := by
  rw [code.params]
  exact encloses_routine o d.header

theorem MainCode.encloses {o : Outline} (code : MainCode o strings f) :
    Encloses o [] (f.params.map (·.temp)) true [] fun _ => [{ op := .ret, args := [.const 0] }] := by
  rw [code.params]
  exact encloses_main o

end Routine

/-! ## Programs -/

theorem mem_definitions :
    d ∈ definitions before hs ↔ ∃ pre h post body, hs = pre ++ h :: post ∧ h.body? = some body ∧
      d = ⟨before ++ pre ++ [h], h, body⟩ := by
  induction hs generalizing before with
  | nil => simp [definitions]
  | cons h hs ih =>
    rw [definitions, mem_append, ih]
    constructor
    · rintro (first | ⟨pre, h', post, body, rfl, bodied, rfl⟩)
      · obtain ⟨body, bodied, rfl⟩ : ∃ body, h.body? = some body ∧ ⟨before ++ [h], h, body⟩ = d := by
          simpa using first
        exact ⟨[], h, hs, body, rfl, bodied, by simp⟩
      · exact ⟨h :: pre, h', post, body, rfl, bodied, by simp⟩
    · rintro ⟨pre, h', post, body, split, bodied, rfl⟩
      cases pre with
      | nil =>
        obtain ⟨rfl, rfl⟩ := List.cons.inj split
        simp [bodied]
      | cons x pre =>
        obtain ⟨rfl, rfl⟩ := List.cons.inj split
        exact .inr ⟨pre, h', post, body, rfl, bodied, by simp⟩

section Program

variable {o : Outline} {p : Ir.Program} (compiled : Compiled o p)

include compiled

/-- A definition has a function. -/
theorem Compiled.function {d : Definition} (member : d ∈ definitions [] o.headers) :
    ∃ f ∈ p.funcs, RoutineCode o p.strings d f := by
  obtain ⟨fs, main, funcs, routines, -⟩ := compiled.funcs
  obtain ⟨f, inside, code⟩ := exists_of_forall₂ routines member
  exact ⟨f, by rw [funcs]; exact mem_append_left _ inside, code⟩

/-- Every function of a compiled program holds the code of the main body or that of a definition. -/
theorem Compiled.cases {f : Ir.Func} (member : f ∈ p.funcs) :
    MainCode o p.strings f ∨ ∃ d ∈ definitions [] o.headers, RoutineCode o p.strings d f := by
  obtain ⟨fs, main, funcs, routines, hmain⟩ := compiled.funcs
  rw [funcs, mem_append, mem_singleton] at member
  rcases member with routine | rfl
  · exact .inr (exists_of_forall₂ routines.flip routine)
  · exact .inl hmain

/-- Everything that is called is there. -/
theorem Compiled.callees (g : String) (callee : g = "printf" ∨ g = "scanf" ∨ ∃ f, o.Defined f ∧ g = "pas_" ++ f) :
    g ∈ p.funcs.map (·.name) ++ p.externs.map (·.name) := by
  rcases callee with rfl | rfl | ⟨f, ⟨h, member, rfl, bodied⟩, rfl⟩
  · exact mem_append_right _ (by rw [compiled.externs]; decide)
  · exact mem_append_right _ (by rw [compiled.externs]; decide)
  · obtain ⟨body, hbody⟩ := Option.isSome_iff_exists.mp bodied
    obtain ⟨pre, post, split⟩ := append_of_mem member
    obtain ⟨f, inside, code⟩ := compiled.function (mem_definitions.mpr ⟨pre, h, post, body, split, hbody, rfl⟩)
    refine mem_append_left _ (mem_map.mpr ⟨f, inside, code.name⟩)

/-- The names of parameters have no dot, so no slot has the key of a parameter. -/
theorem Compiled.wellFormed (written : o.Written) : p.WellFormed := by
  intro f member
  rcases compiled.cases member with main | ⟨d, inDefs, code⟩
  · refine main.blocks.wellFormed main.encloses (by rw [main.result]; rfl) (fun name n => ?_) compiled.callees
    simp [Ir.Func.paramKeys, main.params]
  · refine code.blocks.wellFormed code.encloses ?_ (fun name n inside => ?_) compiled.callees
    · rw [code.result]
      split
      · next void => rw [void]; rfl
      · next function => exact bne_iff_ne.mpr function
    · obtain ⟨pre, h, post, body, split, -, rfl⟩ := mem_definitions.mp inDefs
      rw [Ir.Func.paramKeys, code.params, map_map] at inside
      obtain ⟨v, declared, same⟩ := mem_map.mp inside
      have isName := (written.params h (by simp [split]) v declared).1
      exact key_ne_key_parameterTemp isName.dotless name n same.symm

theorem Compiled.soundFlow {f : Ir.Func} (member : f ∈ p.funcs) :
    f.SoundFlow ∧ ∀ b ∈ f.blocks, ∀ n, b.label ≠ numbered "dead" n := by
  rcases compiled.cases member with main | ⟨d, -, code⟩
  · exact ⟨main.blocks.soundFlow main.encloses, main.blocks.no_dead_label⟩
  · exact ⟨code.blocks.soundFlow code.encloses, code.blocks.no_dead_label⟩

end Program

end MiniPascal.Lower
