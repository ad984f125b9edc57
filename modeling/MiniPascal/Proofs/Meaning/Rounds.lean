import MiniPascal.Proofs.Meaning.Program

/-!
# The rounds of a counting loop

A counting loop steps its variable behind each round and compares it with the last value in front of the
next one. The step wraps. So the loop makes one round for each value from the first to the last, and is
left then, unless the last value is the greatest word, or the least one if it counts down
(`count_makes_rounds`): behind such a value no step leads, and the loop goes on for ever
(`endless_never_ends`).

A round begins where the machine jumps to the label of the body. `Context.control?` gives the value of the
control variable in such a state, so that the rounds of a run are found among the states that it passes.
-/

open List

namespace MiniPascal.Meaning

open Context
open Ir (Value Instr Line plain Temps Machine Run)
open Lower

/-! ## Values -/

/-- The last value in a direction. -/
def edge (down : Bool) : Word := if down then BitVec.intMin 32 else BitVec.intMax 32

/-- The values from the first to the last. -/
def rounds (down : Bool) (first last : Word) : List Word :=
  if down then (List.range (first.toInt - last.toInt + 1).toNat).map fun i : Nat => wrap (first.toInt - i)
  else (List.range (last.toInt - first.toInt + 1).toNat).map fun i : Nat => wrap (first.toInt + i)

theorem toInt_wrap (low : -2 ^ 31 ≤ value) (high : value < 2 ^ 31) : (wrap value).toInt = value := by
  rw [wrap, BitVec.toInt_ofInt]
  exact Int.bmod_eq_of_le (by omega) (by omega)

variable {down : Bool} {first last : Word}

/-- A loop that stops at once has no rounds. -/
theorem rounds_eq_nil : rounds down first last = [] ↔ goesOn down first last = false := by
  unfold rounds goesOn
  cases down <;> simp only [Bool.false_eq_true, if_false, if_true, map_eq_nil_iff, range_eq_nil, decide_eq_false_iff_not]
  all_goals omega

theorem rounds_of_goesOn (h : goesOn down first last = true) (inner : last ≠ edge down) :
    rounds down first last = first :: rounds down (stepped down first 1) last := by
  have range (n : Int) (positive : 0 < n) : List.range n.toNat = 0 :: (List.range (n - 1).toNat).map (· + 1) := by
    rw [show n.toNat = (n - 1).toNat + 1 by omega, range_succ_eq_map]
  have one : (1 : Word).toInt = 1 := rfl
  have least := first.le_toInt
  have greatest := first.toInt_lt
  unfold goesOn at h
  unfold rounds stepped
  cases down with
  | false =>
    have le : first.toInt ≤ last.toInt := by simpa using h
    have apart : last.toInt ≠ 2 ^ 31 - 1 := fun same => inner (BitVec.eq_of_toInt_eq same)
    have bound := last.toInt_lt
    simp only [Bool.false_eq_true, if_false, one]
    rw [toInt_wrap (by omega) (by omega), range _ (by omega), map_cons, map_map]
    refine congrArg₂ List.cons (by rw [Nat.cast_zero, Int.add_zero, wrap_toInt]) ?_
    rw [show last.toInt - first.toInt + 1 - 1 = last.toInt - (first.toInt + 1) + 1 by omega]
    refine map_congr_left fun i _ => congrArg wrap ?_
    dsimp only [Function.comp]
    omega
  | true =>
    have le : first.toInt ≥ last.toInt := by simpa using h
    have apart : last.toInt ≠ -2 ^ 31 := fun same => inner (BitVec.eq_of_toInt_eq same)
    have bound := last.le_toInt
    simp only [if_true, one]
    rw [toInt_wrap (by omega) (by omega), range _ (by omega), map_cons, map_map]
    refine congrArg₂ List.cons (by rw [Nat.cast_zero, Int.sub_zero, wrap_toInt]) ?_
    rw [show first.toInt - last.toInt + 1 - 1 = first.toInt - 1 - last.toInt + 1 by omega]
    refine map_congr_left fun i _ => congrArg wrap ?_
    dsimp only [Function.comp]
    omega

theorem goesOn_of_rounds (h : rounds down first last = v :: vs) :
    goesOn down first last = true := by
  by_contra stops
  rw [rounds_eq_nil.mpr (Bool.eq_false_iff.mpr stops)] at h
  cases h

theorem goesOn_edge (down : Bool) (x : Word) : goesOn down x (edge down) = true := by
  have low := x.le_toInt
  have high := x.toInt_lt
  have least : (BitVec.intMin 32).toInt = -2 ^ 31 := rfl
  have greatest : (BitVec.intMax 32).toInt = 2 ^ 31 - 1 := rfl
  unfold goesOn edge
  cases down <;> simp only [Bool.false_eq_true, if_false, if_true, least, greatest, decide_eq_true_eq]
  all_goals omega

/-! ## Runs and the rounds in them -/

namespace Context

variable {W : World} (C : Context W)

/-- The value of an integer variable in a state in which the context jumps to a label. -/
def control? (label : String) (place : Place) (m : Machine) : Option Word :=
  if m.callers.length = C.callers.length ∧ m.target? W.program = some label then
    m.read? (C.anchor place) 0
  else none

/-- The machine gets from one place of a body to another, and jumps to a label when a variable has some values. -/
def Counts (label : String) (place : Place) (vs : List Word) (rest : List Line) (τ : Temps) (σ : Store)
    (rest' : List Line) (τ' : Temps) (σ' : Store) : Prop :=
  ∃ ms, Run W.program W.fill (C.machine rest τ σ) ms (C.machine rest' τ' σ') ∧
    ms.filterMap (C.control? label place) = vs

variable {C} {label : String} {place : Place} {vs ws : List Word} {a b k : Nat} {ls rest post : List Line}
  {τ τ' τ'' : Temps} {σ σ' σ'' : Store}

theorem Counts.trans (h : C.Counts label place vs rest τ σ rest' τ' σ')
    (h' : C.Counts label place ws rest' τ' σ' rest'' τ'' σ'') :
    C.Counts label place (vs ++ ws) rest τ σ rest'' τ'' σ'' := by
  obtain ⟨ms, run, values⟩ := h
  obtain ⟨ns, run', values'⟩ := h'
  exact ⟨ms ++ ns, run.append run', by rw [filterMap_append, values, values']⟩

/-- Code that does not jump to the label begins no round. -/
theorem Leads.counts {J : String → Prop} (h : C.Leads J rest τ σ rest' τ' σ')
    (elsewhere : ¬ J label) : C.Counts label place [] rest τ σ rest' τ' σ' := by
  obtain ⟨ms, run, jumps⟩ := h.run
  refine ⟨ms, run, filterMap_eq_nil_iff.mpr fun m member => if_neg ?_⟩
  rintro ⟨depth, target⟩
  exact elsewhere (jumps m member depth label target)

variable (label place) in
theorem Runs.counts {Q : Temps → Prop} (h : C.Runs a is τ σ σ' Q) (post : List Line) :
    ∃ τ', C.Counts label place [] (plain is ++ post) τ σ post τ' σ' ∧ Agree a τ τ' ∧ Q τ' := by
  obtain ⟨τ', leads, agree, holds⟩ := h post
  exact ⟨τ', leads.counts id, agree, holds⟩

variable (place) in
/-- The code of a statement that ends normally does not jump to a label that it has not. -/
theorem counts_statement
    (code : C.Lowers ret brk (.stmt t) a k ls ends b k') (stands : C.Stands a τ)
    (there : ls ++ post <:+ C.func.lines) (elsewhere : .label label ∉ ls)
    (executed : execute C.env n t σ = some (.normal, σ')) :
    ends = false ∧ ∃ τ', C.Counts label place [] (ls ++ post) τ σ post τ' σ' ∧ Agree a τ τ' := by
  obtain ⟨τ', agree, stays, leads⟩ := (simulates W n).execute stands code executed post there
  exact ⟨stays, τ', leads.counts elsewhere, agree⟩

variable {x l : String} {ahead : List Line}

theorem read?_control (stored : C.env.storage? x = some (place, .integer)) :
    (C.machine rest τ σ).read? (C.anchor place) 0 = some (σ.get place 0) := by
  unfold Machine.read?
  rw [region_of (stored_of stored)]
  rfl

/-- A jump is counted if it leads to the label. -/
theorem counts_step (stored : C.env.storage? x = some (place, .integer))
    (target : (C.machine rest τ σ).target? W.program = some l)
    (step : Ir.Steps W.program W.fill (C.machine rest τ σ) (C.machine ahead τ σ))
    (counted : (if l = label then [σ.get place 0] else []) = vs) :
    C.Counts label place vs rest τ σ ahead τ σ := by
  subst counted
  refine ⟨_, .single step, ?_⟩
  unfold control?
  rw [filterMap_cons, target, read?_control stored]
  by_cases same : l = label
  · rw [if_pos same, if_pos ⟨rfl, congrArg some same⟩]
    rfl
  · rw [if_neg same, if_neg fun both => same (Option.some.inj both.2)]
    rfl

theorem counts_branch
    (stored : C.env.storage? x = some (place, .integer)) (value : W.program.word? τ v = some w)
    (chosen : (if w ≠ 0 then yes else no) = l) (there : .label l :: ahead <:+ C.func.lines)
    (counted : (if l = label then [σ.get place 0] else []) = vs) :
    C.Counts label place vs (.instr (Code.branch v yes no) :: rest) τ σ ahead τ σ := by
  subst chosen
  exact counts_step stored (target?_branch value) (steps_branch value there) counted

theorem counts_jump (stored : C.env.storage? x = some (place, .integer)) (other : l ≠ label)
    (there : .label l :: ahead <:+ C.func.lines) :
    C.Counts label place [] (.instr (Code.jump l) :: rest) τ σ ahead τ σ :=
  counts_step stored rfl (steps_jump there) (if_neg other)

theorem label_notMem (there : .label l :: rest <:+ C.func.lines) : .label l ∉ rest := by
  have labels := C.labels.sublist (there.sublist.filterMap Line.label?)
  rw [filterMap_cons_some (Ir.label?_label l)] at labels
  exact fun member => (nodup_cons.mp labels).1 (mem_filterMap.mpr ⟨_, member, rfl⟩)

end Context

/-! ## One round -/

/-- A counting loop in the function of a context. Its labels are numbered from `k` on, its body has the temporaries
from `a + 2` up to `b`, and `v` is the value of its bound. -/
structure Loop {W : World} (C : Context W) (place : Place) (body : Tree) (down : Bool) (k : Nat)
    (post : List Line) where
  x : String
  ret : String
  v : Value
  ls : List Line
  ends : Bool
  a : Nat
  b : Nat
  k₁ : Nat
  stored : C.env.storage? x = some (place, .integer)
  below : Below a v
  code : C.Lowers ret (some (forAfter k)) (.stmt body) (a + 2) (k + 3) ls
    ends b k₁
  there : .label (forCond k) :: (countTail k a b (C.layout.address x) v down ls ends ++ post) <:+
    C.func.lines

namespace Loop

variable {W : World} {C : Context W} {place : Place} {body : Tree} {down : Bool} {k n : Nat} {last : Word}
  {post : List Line} {τ τ' : Temps} {σ σ₁ : Store} (L : Loop C place body down k post)

/-- The lines from the test on. -/
def test : List Line := countTail k L.a L.b (C.layout.address L.x) L.v down L.ls L.ends ++ post

/-- The lines behind the body. -/
def back : List Line := Code.again down L.ends L.b (C.layout.address L.x) (forCond k) ++
  .label (forAfter k) :: post

theorem test_eq : L.test =
    plain [Code.load L.a (C.layout.address L.x),
      Code.compute (if down then .cge else .cle) .word (L.a + 1) (Code.temp L.a) L.v] ++
    .instr (Code.branch (Code.temp (L.a + 1)) (forBody k) (forAfter k)) ::
    .label (forBody k) :: (L.ls ++ L.back) := by
  simp [test, countTail, back, plain]

include L

theorem suffix_test : .label (forCond k) :: L.test <:+ C.func.lines := L.there

theorem suffix_body : .label (forBody k) :: (L.ls ++ L.back) <:+ C.func.lines := by
  have there := L.suffix_test
  rw [test_eq] at there
  exact .trans ⟨_ :: _ :: _ :: [_], rfl⟩ there

theorem suffix_after : .label (forAfter k) :: post <:+ C.func.lines :=
  .trans (suffix_append _ _) (.trans ⟨.label (forBody k) :: L.ls, rfl⟩ L.suffix_body)

theorem cond_ne_body : forCond k ≠ forBody k := by
  intro same
  refine label_notMem L.suffix_test ?_
  rw [test_eq, same]
  simp

theorem after_ne_body : forAfter k ≠ forBody k := by
  intro same
  refine label_notMem L.suffix_body ?_
  rw [← same, back]
  simp

/-- Between rounds the slots are in their places, and the bound has its value. -/
structure Bound (τ : Temps) (last : Word) : Prop where
  stands : C.Stands L.a τ
  value : W.program.word? τ L.v = some last

variable {L}

theorem Bound.agree (h : L.Bound τ last) (agree : Agree L.a τ τ') : L.Bound τ' last :=
  ⟨h.stands.agree agree (Nat.le_refl _), by rw [L.below.word agree, h.value]⟩

/-- The test in front of a round. -/
theorem Bound.counts_test (h : L.Bound τ last) : ∃ τ', Agree L.a τ τ' ∧
    C.Counts (forBody k) place (if goesOn down (σ.get place 0) last then [σ.get place 0] else []) L.test τ σ
      (if goesOn down (σ.get place 0) last then L.ls ++ L.back else post) τ' σ := by
  obtain ⟨τ', tests, agree, tested⟩ := (runs_test h.stands down L.stored L.below h.value).counts (forBody k) place
    (.instr (Code.branch (Code.temp (L.a + 1)) (forBody k) (forAfter k)) ::
      .label (forBody k) :: (L.ls ++ L.back))
  rw [test_eq]
  refine ⟨τ', agree, tests.trans ?_⟩
  cases goes : goesOn down (σ.get place 0) last with
  | true =>
    rw [goes] at tested
    exact counts_branch L.stored tested (if_pos (by decide)) L.suffix_body (if_pos rfl)
  | false =>
    rw [goes] at tested
    exact counts_branch L.stored tested (if_neg (by decide)) L.suffix_after (if_neg L.after_ne_body)

/-- A round: the test, the body, the step, and the jump to the next test. -/
theorem Bound.counts_round (h : L.Bound τ last) (goes : goesOn down (σ.get place 0) last = true)
    (executed : execute C.env n body σ = some (.normal, σ₁)) :
    ∃ τ', L.Bound τ' last ∧ C.Counts (forBody k) place [σ.get place 0] L.test τ σ L.test τ'
      (σ₁.assign place 0 (stepped down (σ₁.get place 0) 1)) := by
  obtain ⟨τ₁, agree₁, test⟩ := h.counts_test (σ := σ)
  rw [goes, if_pos rfl, if_pos rfl] at test
  obtain ⟨stays, τ₂, bodyRun, agree₂⟩ := counts_statement place L.code (h.stands.agree agree₁ (Nat.le_add_right _ 2))
    ((suffix_cons ..).trans L.suffix_body)
    (fun member => label_notMem L.suffix_body (mem_append_left _ member)) executed
  have agree₂ := agree₁.trans (agree₂.mono (Nat.le_add_right L.a 2))
  have taken := h.stands.taken
  have bound := L.code.le
  have lines : L.back = plain (Code.bump (if down then .sub else .add) L.b (C.layout.address L.x) (.const 1)) ++
      .instr (Code.jump (forCond k)) :: .label (forAfter k) :: post := by
    simp [back, Code.again, stays]
  rw [lines] at bodyRun test
  obtain ⟨τ₃, stepping, agree₃, -⟩ := (runs_bump (n := L.b) (operation?_step down)
    (points_of_integer (h.stands.holds agree₂) L.stored) ((below_address L.x).mono (by omega))
    (word?_const _ 1) (.const 1) (onWords?_stepped down (σ₁.get place 0) 1)).counts (forBody k) place
    (.instr (Code.jump (forCond k)) :: .label (forAfter k) :: post)
  refine ⟨τ₃, h.agree (agree₂.trans (agree₃.mono (by omega))), ?_⟩
  exact test.trans (bodyRun.trans (stepping.trans (counts_jump L.stored L.cond_ne_body L.suffix_test)))

end Loop

/-! ## All rounds -/

section Rounds

variable {place : Place} {body : Tree} {down : Bool} {n : Nat} {σ : Store} {left : Nat → Store}

/-- The stores in which rounds begin, if `left` are those in which the body leaves off. -/
def roundStore (place : Place) (down : Bool) (σ : Store) (left : Nat → Store) : Nat → Store
  | 0 => σ
  | i + 1 => (left i).assign place 0 (stepped down ((left i).get place 0) 1)

/-- In each of `n` rounds the body ends normally, and has not changed the control variable. -/
structure Steady (E : Env) (place : Place) (down : Bool) (body : Tree) (σ : Store) (left : Nat → Store) (n : Nat) :
    Prop where
  normal : ∀ i < n, ∃ fuel, execute E fuel body (roundStore place down σ left i) = some (.normal, left i)
  kept : ∀ i < n, (left i).get place 0 = (roundStore place down σ left i).get place 0

theorem roundStore_succ (place : Place) (down : Bool) (σ : Store) (left : Nat → Store) (i : Nat) :
    roundStore place down (roundStore place down σ left 1) (fun i => left (i + 1)) i =
      roundStore place down σ left (i + 1) := by
  cases i <;> rfl

theorem Steady.tail (h : Steady E place down body σ left (n + 1)) :
    Steady E place down body (roundStore place down σ left 1) (fun i => left (i + 1)) n where
  normal i low := by
    rw [roundStore_succ]
    exact h.normal (i + 1) (Nat.succ_lt_succ low)
  kept i low := by
    rw [roundStore_succ]
    exact h.kept (i + 1) (Nat.succ_lt_succ low)

theorem get_assign (σ : Store) (place : Place) (w : Word) : (σ.assign place 0 w).get place 0 = w := by
  cases place <;> simp [Store.assign, Store.put, Store.get, setCell]

variable {W : World} {C : Context W} {k : Nat} {post : List Line} {last : Word} {L : Loop C place body down k post}

/-- A loop makes a round for each value and is left then, if it does not run to the last word. -/
theorem Loop.Bound.counts_rounds (h : L.Bound τ last) (values : rounds down (σ.get place 0) last = vs)
    (inner : vs ≠ [] → last ≠ edge down) (steady : Steady C.env place down body σ left vs.length) :
    ∃ τ', C.Counts (forBody k) place vs L.test τ σ post τ' (roundStore place down σ left vs.length) := by
  induction vs generalizing σ τ left with
  | nil =>
    obtain ⟨τ', -, test⟩ := h.counts_test (σ := σ)
    rw [rounds_eq_nil.mp values, if_neg Bool.false_ne_true, if_neg Bool.false_ne_true] at test
    exact ⟨τ', test⟩
  | cons w ws ih =>
    have inside := inner (cons_ne_nil w ws)
    have goes := goesOn_of_rounds values
    rw [rounds_of_goesOn goes inside] at values
    obtain ⟨rfl, later⟩ := List.cons.inj values
    obtain ⟨fuel, executed⟩ := steady.normal 0 (Nat.succ_pos _)
    obtain ⟨τ₁, next, round⟩ := h.counts_round goes executed
    have kept : (left 0).get place 0 = σ.get place 0 := steady.kept 0 (Nat.succ_pos _)
    have values : rounds down ((roundStore place down σ left 1).get place 0) last = ws := by
      rw [roundStore, get_assign, kept, later]
    obtain ⟨τ', rest⟩ := ih next values (fun _ => inside) steady.tail
    rw [roundStore_succ] at rest
    exact ⟨τ', round.trans rest⟩

/-- A loop that runs to the last word goes on for ever. -/
theorem Loop.Bound.counts_endless (h : L.Bound τ (edge down)) (m : Nat)
    (steady : Steady C.env place down body σ left m) : ∃ vs τ', vs.length = m ∧
      C.Counts (forBody k) place vs L.test τ σ L.test τ' (roundStore place down σ left m) := by
  induction m generalizing σ τ left with
  | zero => exact ⟨[], τ, rfl, [], .nil, rfl⟩
  | succ m ih =>
    obtain ⟨fuel, executed⟩ := steady.normal 0 (Nat.succ_pos m)
    obtain ⟨τ₁, next, round⟩ := h.counts_round (goesOn_edge down _) executed
    obtain ⟨vs, τ', many, rest⟩ := ih next steady.tail
    rw [roundStore_succ] at rest
    exact ⟨_ :: vs, τ', congrArg Nat.succ many, round.trans rest⟩

end Rounds

/-! ## Loops in their places -/

/-- The code that lowering lists for a correct statement stands in the function of a context, in front of
other lines. -/
structure Context.Hosts {W : World} (C : Context W) (brk : Option String) (ret : String) (s : State)
    (t : Tree) (ls post : List Line) : Prop where
  ready : Ready ⟨C.layout, brk, ret⟩ ⟨s.temps, s.labels, true⟩ s
  typed : Static.StmtTyped C.layout.toScope W.multi brk.isSome t
  listed : (lowerStmt W.multi t s).2.listing = s.listing ++ ls
  strings : (lowerStmt W.multi t s).2.strings <+: W.program.strings
  taken : C.slots.length ≤ s.temps
  there : ls ++ post <:+ C.func.lines

section Places

variable {W : World} {C : Context W} {brk : Option String} {ret : String} {s : State} {ls post : List Line}

theorem Context.Hosts.lowers (hosts : C.Hosts brk ret s t ls post) : ∃ n' k',
    C.Lowers ret brk (.stmt t) s.temps s.labels ls (Static.leaves t) n' k' := by
  obtain ⟨ls', c', effect, post⟩ := (meets_lowerStmt False.elim rfl s.temps s.labels).does trivial hosts.typed
    s hosts.ready
  obtain ⟨ends, n', k', -, lowers⟩ := post _ hosts.strings
  have same : ls' = ls := append_cancel_left (effect.listing.symm.trans hosts.listed)
  rw [ends, same] at lowers
  exact ⟨n', k', lowers⟩

variable {tok : Token} {x : String} {start stop body : Tree} {down : Bool} {place : Place} {τ : Temps}
  {σ σ₁ σ₂ : Store} {n n' m m' k k' : Nat} {ends : Bool} {first last : Word}

/-- On the way to the first test no round begins. -/
theorem counts_enter (code : C.Lowers ret brk (.stmt (.count tok x start stop down body)) m k
      ls ends m' k') (stands : C.Stands m τ) (there : ls ++ post <:+ C.func.lines)
    (stored : C.env.storage? x = some (place, .integer))
    (starts : word C.env n start σ = some (first, σ₁)) (stops : word C.env n' stop σ₁ = some (last, σ₂)) :
    ∃ (L : Loop C place body down k post) (τ' : Temps), L.Bound τ' last ∧
      C.Counts (forBody k) place [] (ls ++ post) τ σ L.test τ' (σ₂.assign place 0 first) := by
  cases code with
  | straight code => cases code
  | @count _ _ v _ is _ _ w js c _ _ ms ends d k₁ _ _ _ holds hstart hstop hbody =>
    have lines : Code.countLines k c d (is ++ js) (C.layout.address x) v w down ms ends ++ post =
        plain (is ++ js ++ [Code.store (C.layout.address x) v]) ++
        .instr (Code.jump (forCond k)) :: .label (forCond k) ::
          (countTail k c d (C.layout.address x) w down ms ends ++ post) := by
      simp [Code.countLines, countTail, plain]
    rw [lines] at there ⊢
    let L : Loop C place body down k post := ⟨_, _, _, _, _, _, _, _, stored, below_of_emits hstop, hbody,
      (suffix_cons _ _).trans ((suffix_append _ _).trans there)⟩
    obtain ⟨τ', sets, agree, value⟩ := (runs_bounds (simulates W n) stands (simulates W n') stored hstart hstop
      starts stops).counts (forBody k) place
        (.instr (Code.jump (forCond k)) :: .label (forCond k) :: L.test)
    exact ⟨L, τ', ⟨stands.agree agree (hstart.le.trans hstop.le), value⟩, sets.trans (counts_jump stored L.cond_ne_body L.suffix_test)⟩

/-- If a loop runs to the last word, there is no end to its rounds. -/
theorem endless_rounds (code : C.Lowers ret brk (.stmt (.count tok x start stop down body)) m k
      ls ends m' k') (stands : C.Stands m τ) (there : ls ++ post <:+ C.func.lines)
    (stored : C.env.storage? x = some (place, .integer))
    (starts : word C.env n start σ = some (first, σ₁)) (stops : word C.env n' stop σ₁ = some (edge down, σ₂))
    {left : Nat → Store} (steady : Steady C.env place down body (σ₂.assign place 0 first) left many) :
    ∃ ms m₂, many ≤ ms.length ∧ Run W.program W.fill (C.machine (ls ++ post) τ σ) ms m₂ := by
  obtain ⟨L, τ₁, bound, enters⟩ := counts_enter code stands there stored starts stops
  obtain ⟨vs, τ', length, all⟩ := bound.counts_endless many steady
  obtain ⟨ms, run, values⟩ := enters.trans all
  refine ⟨ms, _, ?_, run⟩
  rw [← length, ← nil_append vs, ← values]
  exact length_filterMap_le ..

theorem storage?_of_integer? {E : Env} (h : E.integer? x = some place) : E.storage? x = some (place, .integer) := by
  unfold Env.integer? at h
  split at h
  · next found =>
    cases h
    exact found
  · cases h

/-- A counting loop whose body ends normally each time and keeps the control variable makes one round for
each value from the first to the last, in this order, and then is left, unless the last value is the last
word in its direction. -/
theorem count_makes_rounds (hosts : C.Hosts brk ret s (.count tok x start stop down body) ls post)
    (control : C.env.integer? x = some place) (held : C.Holds τ)
    (starts : word C.env n start σ = some (first, σ₁)) (stops : word C.env n' stop σ₁ = some (last, σ₂))
    (inner : goesOn down first last = true → last ≠ edge down) {left : Nat → Store}
    (steady : Steady C.env place down body (σ₂.assign place 0 first) left (rounds down first last).length) :
    ∃ ms τ', Run W.program W.fill (C.machine (ls ++ post) τ σ) ms (C.machine post τ'
        (roundStore place down (σ₂.assign place 0 first) left (rounds down first last).length)) ∧
      ms.filterMap (C.control? (numbered "for_body" (s.labels + 1)) place) = rounds down first last := by
  have stored := storage?_of_integer? control
  obtain ⟨m', k', code⟩ := hosts.lowers
  obtain ⟨L, τ₁, bound, enters⟩ := counts_enter code ⟨hosts.taken, held⟩ hosts.there stored starts stops
  have inside : rounds down first last ≠ [] → last ≠ edge down := by
    intro some
    refine inner ?_
    by_contra none
    exact some (rounds_eq_nil.mpr (Bool.eq_false_iff.mpr none))
  obtain ⟨τ', all⟩ := bound.counts_rounds (by rw [get_assign]) inside steady
  obtain ⟨ns, run, values⟩ := enters.trans all
  exact ⟨ns, τ', run, values⟩

end Places

/-! A program with a loop that counts down from two to one and writes its values. -/

namespace Countdown

def body : Tree := .block .nowhere [.call .nowhere "writeln" [.name .nowhere "i"]]

def counted : Tree := .count .nowhere "i" (.number .nowhere 2) (.number .nowhere 1) true body

def main : Tree := .block .nowhere [counted]

def decls : List Tree := [.varDecl .nowhere "i" .integer .nowhere]

def program : Tree := .program .nowhere "p" decls [] main

def outline : Static.Outline := { constants := [], globals := [("i", .integer)], headers := [], main }

theorem isName : IsName "i" := ⟨by decide, all_eq_true.mp (by decide)⟩

theorem isDecl : ∀ d ∈ decls, Tree.IsDecl d := forall_mem_singleton.mpr (.var (.mk isName .integer))

theorem isRoutine : ∀ r ∈ ([] : List Tree), Tree.IsRoutine r := nofun

theorem isStmt : Tree.IsStmt main := by
  have isBody : Tree.IsStmt body := .block <| forall_mem_singleton.mpr <|
    .call ⟨by decide, all_eq_true.mp (by decide)⟩ (forall_mem_singleton.mpr (.name isName))
  have isCounted : Tree.IsStmt counted :=
    .count isName (.number (by constructor <;> decide)) (.number (by constructor <;> decide)) isBody
  exact .block (forall_mem_singleton.mpr isCounted)

theorem isProgram : Tree.IsProgram program := .mk isDecl isRoutine isStmt

theorem correct : outline.Correct false :=
  correct_of_quiet isDecl isRoutine isStmt rfl Warning.standard (by decide +kernel)

def world : World where
  outline := outline
  program := (lowerParts false decls [] main {}).2.program 8
  fill _ _ := 0
  multi := false
  compiled := (compiled_of_correct isDecl isRoutine isStmt rfl correct _ 8).2
  correct := correct
  written := Static.written_of_isProgram isProgram rfl
  fits := forall_mem_singleton.mpr (by decide)

/-- The state of lowering in front of the main body. -/
def state : State := (forEach declareGlobal decls {}).2

def func : Ir.Func := mainOf (lowerFrame false (return ()) main leaveMain state).2.blocks

def context : Context world := world.body func (by decide +kernel)

def lines : List Line := (lowerStmt false counted state.opened).2.listing.drop state.opened.listing.length

def post : List Line := func.lines.drop (lines.length + 1)

theorem hosts : context.Hosts none (numbered "return" state.labels) state.opened counted lines post where
  ready := by
    have proper : ∀ g ∈ outline.globals, g.2.Proper := forall_mem_singleton.mpr .integer
    have declares := declaresGlobal_forEach isDecl [] [] {}
    have tables := ((declares.globals globals_start (by decide +kernel)).stage proper).tables
    exact tables.outside.ready (enters_nothing state).shell (slots_opened tables) nofun rfl rfl
  typed := by
    have typed := correct.main
    cases typed with
    | block typed => exact typed [] counted [] rfl (by simp)
  listed := by decide +kernel
  strings := by decide +kernel
  taken := Nat.zero_le _
  there := by decide +kernel

/-- A round writes the value. -/
def wrote (σ : Store) : Store :=
  (σ.emit (.print "%d" [.word (σ.get (.global "i") 0)])).emit (.print "\n" [])

/-- The stores in which rounds are left. -/
def left : Nat → Store
  | 0 => wrote (Store.assign (.initial []) (.global "i") 0 2)
  | i + 1 => wrote ((left i).assign (.global "i") 0 (stepped true ((left i).get (.global "i") 0) 1))

theorem execute_body (σ : Store) : execute context.env 6 body σ = some (.normal, wrote σ) := rfl

theorem steady : Steady context.env (.global "i") true body (Store.assign (.initial []) (.global "i") 0 2) left 2 where
  normal i _ := ⟨6, by rw [execute_body]; cases i <;> rfl⟩
  kept i _ := by cases i <;> rfl

end Countdown

open Countdown in
theorem count_makes_rounds_down : context.Hosts none (numbered "return" 0) state.opened counted lines post ∧
    Steady context.env (.global "i") true body (Store.assign (.initial []) (.global "i") 0 2) left 2 ∧
    ∃ ms τ' σ', Run world.program world.fill (context.machine (lines ++ post) (fun _ => none) (.initial [])) ms
      (context.machine post τ' σ') ∧ ms.filterMap (context.control? "for_body.2" (.global "i")) = [2, 1] := by
  refine ⟨hosts, steady, ?_⟩
  have held : context.Holds fun _ => none := fun j v none => by cases none
  have starts : word context.env 1 (.number .nowhere 2) (.initial []) = some (2, .initial []) := by rw [word]; rfl
  have stops : word context.env 1 (.number .nowhere 1) (.initial []) = some (1, .initial []) := by rw [word]; rfl
  obtain ⟨ms, τ', run, values⟩ := count_makes_rounds hosts rfl held starts stops (by decide) steady
  exact ⟨ms, τ', _, run, values⟩

/-! ## A loop to the last word -/

/-- A program with a loop to the greatest integer, in which nothing is done. -/
def endless : String :=
  "program p; var i: integer; begin for i := 2147483647 to 2147483647 do begin end end."

/-- A program is made up like the endless one. -/
def isEndless : Tree → Bool
  | .program _ _ [.varDecl _ "i" .integer _] []
      (.block _ [.count _ "i" (.number _ 2147483647) (.number _ 2147483647) false (.block _ [])]) => true
  | _ => false

/-- Rounds with nothing in them. -/
def emptyRounds (place : Place) (down : Bool) (σ : Store) : Nat → Store
  | 0 => σ
  | i + 1 =>
    (emptyRounds place down σ i).assign place 0 (stepped down ((emptyRounds place down σ i).get place 0) 1)

theorem steady_empty (E : Env) (place : Place) (down : Bool) (tok : Token) (σ : Store) (n : Nat) :
    Steady E place down (.block tok []) σ (emptyRounds place down σ) n := by
  have same : ∀ i, roundStore place down σ (emptyRounds place down σ) i = emptyRounds place down σ i := by
    intro i
    cases i <;> rfl
  exact ⟨fun i _ => ⟨2, by rw [same]; rfl⟩, fun i _ => by rw [same]⟩

/-- A program whose main body is an empty loop to the last word does not end. -/
theorem not_ends_of_endless {W : World} {tok tok₁ tok₂ tok₃ tok₄ : Token} {x : String} {first last : Int64}
    {place : Place} (main : W.outline.main = .block tok
      [.count tok₁ x (.number tok₂ first) (.number tok₃ last) down (.block tok₄ [])])
    (control : Env.integer? { outline := W.outline, slots := [], fill := W.fill } x = some place)
    (toEdge : literal last = edge down) (input : List Int) (result : Option Ir.Val) (events : List Event) :
    ¬ W.program.Ends W.fill input result events := by
  obtain ⟨f, labels, r, ls, ends, n', k', lowers, lines, boots⟩ := W.boots
  refine Ir.not_ends_of_runs (boots input) .refl (fun n => ?_) result events
  have inside : ls ++ _ <:+ (W.body f labels).func.lines := ⟨[.label "start"], lines.symm⟩
  have stored := storage?_of_integer? (E := (W.body f labels).env) control
  have held : (W.body f labels).Holds fun _ => none := fun j v none => by cases none
  have starts : word (W.body f labels).env 1 (.number tok₂ first) (.initial input) =
      some (literal first, .initial input) := by rw [word]
  have stops : word (W.body f labels).env 1 (.number tok₃ last) (.initial input) =
      some (edge down, .initial input) := by rw [word, toEdge]
  rw [main] at lowers
  cases lowers with
  | straight code => cases code
  | block lowers =>
    cases lowers with
    | last code => exact endless_rounds code ⟨Nat.zero_le _, held⟩ inside stored starts stops (steady_empty ..)
    | cons code =>
      rw [append_assoc] at inside ⊢
      exact endless_rounds code ⟨Nat.zero_le _, held⟩ inside stored starts stops (steady_empty ..)

/-- A loop from the greatest integer to itself is not left behind its round. -/
theorem endless_never_ends : ∃ t p, Tree.ofSource Feature.strict endless = .ok t ∧
    (lower {} t).code = .ok p ∧ ∀ fill input result events, ¬ p.Ends fill input result events := by
  obtain ⟨t, p, read, ok, shape⟩ : ∃ t p, Tree.ofSource Feature.strict endless = .ok t ∧
      (lower {} t).code = .ok p ∧ isEndless t = true := exists_compiled (by decide +kernel)
  refine ⟨t, p, read, ok, fun fill input result events => ?_⟩
  have isProgram := Tree.isProgram_of_ofSource read
  obtain ⟨o, outline, correct, compiled, -⟩ := compiled_of_ok isProgram ok
  have written := Static.written_of_isProgram isProgram outline
  unfold isEndless at shape
  split at shape
  · cases outline
    let W : World :=
      { outline := _, program := p, fill, multi := true, compiled, correct, written
        fits := forall_mem_singleton.mpr (by decide) }
    exact not_ends_of_endless (W := W) rfl rfl (by decide) input result events
  · cases shape

end MiniPascal.Meaning
