import MiniPascal.Proofs.Meaning.Simulation

/-!
# Simulation of control flow

A branch, a loop and a sequence are put together from the runs of their parts and the jumps between
them. Where the code of a part always leaves, its evaluation never ends normally, so the code that is left
out behind it is not missed.
-/

open List

namespace MiniPascal.Meaning

open Context
open Ir (Value Instr Ty Line plain Temps)
open Lower

section Statements

variable {W : World} {n : Nat} (sim : Simulates W n) {C : Context W} {ret : String} {brk : Option String}
  {a b c d k k₁ k₂ : Nat} {τ : Temps} {σ σ' : Store} {outcome : Outcome} (stands : C.Stands a τ)

namespace Context

variable {inner ls post : List Line} {ends : Bool}

/-- The code of a statement leads where that of its last part does, if it comes there and, where the part
ends normally, goes on to its own end. -/
theorem Comes.after
    (h : C.Comes part ret brk ls ends post' b τ₁ σ₁ outcome σ')
    (sub : ∀ l, .label l ∈ part → .label l ∈ inner)
    (before : C.Leads (.label · ∈ inner) (whole ++ post) τ σ (ls ++ post') τ₁ σ₁) (agree : Agree a τ τ₁)
    (le : a ≤ b)
    (behind : ends = false → ends' = false ∧ ∀ τ₂, C.Leads (.label · ∈ inner) post' τ₂ σ' post τ₂ σ') :
    C.Comes inner ret brk whole ends' post a τ σ outcome σ' := by
  obtain ⟨τ₂, agree₂, leads⟩ := h
  refine ⟨τ₂, agree.trans (agree₂.mono le), ?_⟩
  cases outcome with
  | normal =>
    obtain ⟨stays, leads⟩ := leads
    obtain ⟨stays', back⟩ := behind stays
    exact ⟨stays', before.trans ((leads.mono sub).trans (back τ₂))⟩
  | broke =>
    obtain ⟨l, inLoop, leads⟩ := leads
    exact ⟨l, inLoop, fun ahead there => (before.mono fun _ => .inl).trans
      ((leads ahead there).mono fun l => .imp_left (sub l))⟩
  | exited =>
    exact fun ahead there => (before.mono fun _ => .inl).trans ((leads ahead there).mono fun l => .imp_left (sub l))

/-- Behind a loop nothing is left of its breaks. -/
theorem Comes.outside (h : C.Comes inner ret none ls ends post a τ σ outcome σ') :
    C.Comes inner ret brk ls ends post a τ σ outcome σ' := by
  obtain ⟨τ', agree, leads⟩ := h
  refine ⟨τ', agree, ?_⟩
  cases outcome with
  | normal | exited => exact leads
  | broke =>
    obtain ⟨l, impossible, -⟩ := leads
    cases impossible

/-- A round of a loop: its test leads to the body or behind the loop. Behind the body either the next round begins, or
the loop is left. -/
theorem Comes.round {c : Prop} [Decidable c] {after : String}
    {go : Outcome × Store → Option (Outcome × Store)}
    (tests : C.Runs a test τ σ σ₁ fun τ' => ∃ w, W.program.word? τ' v = some w ∧ (w ≠ 0 ↔ c))
    (lines : whole = plain (test ++ [Code.branch v body after]) ++ .label body :: (ls ++ back ++ [.label after]))
    (there : .label top :: (whole ++ post) <:+ C.func.lines) (le : a ≤ b)
    (h : (if c then executed >>= go else some (.normal, σ₁)) = some (outcome, σ'))
    (broke : ∀ σ, go (.broke, σ) = some (.normal, σ)) (exited : ∀ σ, go (.exited, σ) = some (.exited, σ))
    (inside : ∀ τ₁ r, Agree a τ τ₁ → executed = some r → ls ++ (back ++ .label after :: post) <:+ C.func.lines →
      C.Comes ls ret (some after) ls ends (back ++ .label after :: post) b τ₁ σ₁ r.1 r.2)
    (next : ends = false → ∀ τ₂ σ₂, Agree a τ τ₂ → go (.normal, σ₂) = some (outcome, σ') → ∃ τ₃ σ₃, Agree a τ τ₃ ∧
      C.Leads (.label · ∈ .label top :: whole) (back ++ .label after :: post) τ₂ σ₂ (whole ++ post) τ₃ σ₃ ∧
      C.Comes (.label top :: whole) ret none whole false post a τ₃ σ₃ outcome σ') :
    C.Comes (.label top :: whole) ret none whole false post a τ σ outcome σ' := by
  have own (l : String) : .label l ∈ ls ∨ l = body ∨ l = after → .label l ∈ .label top :: whole := by
    rw [lines]
    rintro (member | rfl | rfl) <;> simp [*]
  have split : whole ++ post = plain test ++ .instr (Code.branch v body after) :: .label body ::
      (ls ++ (back ++ .label after :: post)) := by
    rw [lines]
    simp
  have atBody : .label body :: (ls ++ (back ++ .label after :: post)) <:+ C.func.lines :=
    .trans ⟨.label top :: (plain test ++ [.instr (Code.branch v body after)]), by rw [split]; simp⟩ there
  have atAfter : .label after :: post <:+ C.func.lines := .trans ⟨.label body :: (ls ++ back), by simp⟩ atBody
  obtain ⟨τ₁, leads, agree, w, value, goes⟩ := tests (.instr (Code.branch v body after) :: .label body ::
    (ls ++ (back ++ .label after :: post)))
  rw [← split] at leads
  split at h
  · next yes =>
    obtain ⟨⟨result, σ₂⟩, executed, h⟩ := Option.bind_eq_some_iff.mp h
    have before : C.Leads (.label · ∈ .label top :: whole) _ _ _ _ _ _ := leads.still.trans
      (leads_branch value (if_pos (goes.mpr yes)) atBody (own _ (.inr (.inl rfl))))
    obtain ⟨τ₂, agree₂, leads₂⟩ := inside τ₁ _ agree executed ((suffix_cons ..).trans atBody)
    have agree₂ := agree.trans (agree₂.mono le)
    cases result with
    | normal =>
      obtain ⟨τ₃, σ₃, agree₃, back, comes⟩ := next leads₂.1 τ₂ σ₂ agree₂ h
      exact comes.after (fun _ => id) (before.trans ((leads₂.2.mono fun l => own l ∘ .inl).trans back)) agree₃
        (Nat.le_refl a) fun _ => ⟨rfl, fun _ => .refl⟩
    | broke =>
      obtain ⟨l, same, leads₂⟩ := leads₂
      cases same
      cases (broke σ₂).symm.trans h
      exact ⟨τ₂, agree₂, rfl, before.trans ((leads₂ post atAfter).mono fun l => own l ∘ .imp_right .inr)⟩
    | exited =>
      cases (exited σ₂).symm.trans h
      exact ⟨τ₂, agree₂, fun ahead there => (before.mono fun _ => .inl).trans
        ((leads₂ ahead there).mono fun l => .imp_left (own l ∘ .inl))⟩
  · next no =>
    cases h
    exact ⟨τ₁, agree, rfl, leads.still.trans
      (leads_branch value (if_neg (mt goes.mp no)) atAfter (own _ (.inr (.inr rfl))))⟩

/-- A statement that leaves a sequence leaves out what is behind it. -/
theorem Comes.leaving
    (h : C.Comes ls ret brk ls ends (ms ++ post) a τ σ outcome σ') (left : outcome ≠ .normal) :
    C.Comes (ls ++ ms) ret brk (ls ++ ms) ends' post a τ σ outcome σ' := by
  obtain ⟨τ', agree, leads⟩ := h
  refine ⟨τ', agree, ?_⟩
  rw [append_assoc]
  cases outcome with
  | normal => exact absurd rfl left
  | broke =>
    obtain ⟨l, inLoop, leads⟩ := leads
    exact ⟨l, inLoop, fun ahead there => (leads ahead there).mono fun _ => .imp_left (mem_append_left _)⟩
  | exited => exact fun ahead there => (leads ahead there).mono fun _ => .imp_left (mem_append_left _)

theorem Comes.of_runs {Q : Temps → Prop} (h : C.Runs a is τ σ σ' Q) (post : List Line) :
    C.Comes inner ret brk (plain is) false post a τ σ .normal σ' := by
  obtain ⟨τ', leads, agree, -⟩ := h post
  exact ⟨τ', agree, rfl, leads.still⟩

end Context

include sim stands

variable {cond body : Tree} {v : Value} {is : List Instr} {ls : List Line} {ends : Bool} {x : String}
  {place : Place} {last : Word}

theorem simulates_branch
    (code : Emits C.layout (.word cond v) a is b)
    (hyes : C.Lowers ret brk (.stmt yes) b (k + 3) ls yesEnds c k₁)
    (hno : C.Lowers ret brk (.stmt no) c k₁ ms noEnds d k₂)
    (h : execute C.env (n + 1) (.branch tok cond yes no) σ = some (outcome, σ')) (post : List Line)
    (there : Code.branchLines k is v ls yesEnds ms noEnds ++ post <:+ C.func.lines) :
    C.Comes (Code.branchLines k is v ls yesEnds ms noEnds) ret brk
      (Code.branchLines k is v ls yesEnds ms noEnds) (yesEnds && noEnds) post a τ σ outcome σ' := by
  obtain ⟨⟨w, σ₁⟩, evaluated, h⟩ := Option.bind_eq_some_iff.mp h
  dsimp only at h
  obtain ⟨join, hjoin⟩ : ∃ join : List Line, join =
    if yesEnds && noEnds then [] else [.label (ifJoin k)] := ⟨_, rfl⟩
  obtain ⟨noPart, hnoPart⟩ : ∃ part, part = ms ++ (rejoin noEnds (ifJoin k) ++ (join ++ post)) :=
    ⟨_, rfl⟩
  obtain ⟨yesPart, hyesPart⟩ : ∃ part, part = ls ++ (rejoin yesEnds (ifJoin k) ++
    .label (ifElse k) :: noPart) := ⟨_, rfl⟩
  have lines : Code.branchLines k is v ls yesEnds ms noEnds ++ post = plain is ++
      .instr (Code.branch v (ifThen k) (ifElse k)) ::
      .label (ifThen k) :: yesPart := by
    simp [Code.branchLines, hyesPart, hnoPart, hjoin]
  have atYes : .label (ifThen k) :: yesPart <:+ C.func.lines :=
    .trans ⟨plain is ++ [.instr (Code.branch v (ifThen k) (ifElse k))],
      by rw [lines]; simp⟩ there
  have atNo : .label (ifElse k) :: noPart <:+ C.func.lines :=
    .trans ⟨.label (ifThen k) :: (ls ++ rejoin yesEnds (ifJoin k)),
      by rw [hyesPart]; simp⟩ atYes
  have atJoin (stays : (yesEnds && noEnds) = false) : .label (ifJoin k) :: post <:+ C.func.lines :=
    .trans ⟨.label (ifElse k) :: (ms ++ rejoin noEnds (ifJoin k)),
      by rw [hnoPart, hjoin, stays]; simp⟩ atNo
  obtain ⟨τ₁, leads, agree, value⟩ := sim.word stands code evaluated
    (.instr (Code.branch v (ifThen k) (ifElse k)) ::
      .label (ifThen k) :: yesPart)
  rw [← lines] at leads
  have bound := code.le
  have bound' := hyes.le
  have leads : C.Leads (.label · ∈ Code.branchLines k is v ls yesEnds ms noEnds) _ τ σ _ τ₁ σ₁ := leads.still
  split at h
  · next nonzero =>
    have jumps := leads.trans (leads_branch value (if_pos nonzero) atYes (by simp [Code.branchLines]))
    rw [hyesPart] at jumps atYes
    refine (sim.execute (stands.agree agree (by omega)) hyes h _ ((suffix_cons ..).trans atYes)).after
      (fun l member => by simp [Code.branchLines, member]) jumps agree bound
      fun stays => ⟨by rw [stays]; rfl, fun τ₂ => ?_⟩
    rw [stays]
    exact leads_jump (atJoin (by rw [stays]; rfl)) (by simp [Code.branchLines])
  · next zero =>
    have jumps := leads.trans (leads_branch value (if_neg zero) atNo (by simp [Code.branchLines]))
    rw [hnoPart] at jumps atNo
    refine (sim.execute (stands.agree agree (by omega)) hno h _ ((suffix_cons ..).trans atNo)).after
      (fun l member => by simp [Code.branchLines, member]) jumps agree (by omega)
      fun stays => ⟨by rw [stays, Bool.and_false], fun τ₂ => ?_⟩
    rw [stays]
    exact leads_jump (atJoin (by rw [stays, Bool.and_false])) (by simp [Code.branchLines])

theorem simulates_loop (code : Emits C.layout (.word cond v) a is b)
    (hbody : C.Lowers ret (some (whileAfter k)) (.stmt body) b (k + 3) ls
      ends c k₁) (h : loop C.env cond body (n + 1) σ = some (outcome, σ')) (post : List Line)
    (there : .label (whileCond k) :: (loopTail k is v ls ends ++ post) <:+ C.func.lines) :
    C.Comes (.label (whileCond k) :: loopTail k is v ls ends) ret none (loopTail k is v ls ends) false
      post a τ σ outcome σ' := by
  obtain ⟨⟨w, σ₁⟩, evaluated, h⟩ := Option.bind_eq_some_iff.mp h
  have bound := code.le
  refine .round ((sim.word stands code evaluated).mono fun _ _ value => ⟨w, value, Iff.rfl⟩) rfl there bound h
    (fun _ => rfl) (fun _ => rfl)
    (fun τ₁ r agree executed => sim.execute (stands.agree agree (by omega)) hbody executed _)
    fun stays τ₂ σ₂ agree rounds =>
      ⟨τ₂, σ₂, agree, ?_, sim.loop (stands.agree agree (by omega)) code hbody rounds post there⟩
  subst stays
  exact leads_jump there mem_cons_self

omit sim stands in
theorem operation?_test (down : Bool) :
    operation? (if down then .ge else .le) = some (if down then .cge else .cle) := by
  cases down <;> rfl

omit sim in
/-- The test of a counting loop. -/
theorem runs_test (down : Bool) (stored : C.env.storage? x = some (place, .integer)) (below : Below a v)
    (value : W.program.word? τ v = some last) : C.Runs a [Code.load a (C.layout.address x),
      Code.compute (if down then .cge else .cle) .word (a + 1) (Code.temp a) v] τ σ σ fun τ' =>
      W.program.word? τ' (Code.temp (a + 1)) = some (if goesOn down (σ.get place 0) last then 1 else 0) :=
  (runs_load (points_of_integer stands.held stored)).cons (Nat.le_succ a) fun τ₁ agree₁ old =>
    runs_compute (operation?_test down) old (by rw [below.word agree₁]; exact value)
      (onWords?_goesOn down _ last)

theorem simulates_count (stored : C.env.storage? x = some (place, .integer)) (below : Below a v)
    (value : W.program.word? τ v = some last)
    (hbody : C.Lowers ret (some (forAfter k)) (.stmt body) (a + 2) (k + 3)
      ls ends b k₁) (h : count C.env place last down body (n + 1) σ = some (outcome, σ')) (post : List Line)
    (there : .label (forCond k) :: (countTail k a b (C.layout.address x) v down ls ends ++ post) <:+
      C.func.lines) :
    C.Comes (.label (forCond k) :: countTail k a b (C.layout.address x) v down ls ends) ret none
      (countTail k a b (C.layout.address x) v down ls ends) false post a τ σ outcome σ' := by
  rw [count] at h
  have taken := stands.taken
  have bound := hbody.le
  refine .round (c := goesOn down (σ.get place 0) last)
    ((runs_test stands down stored below value).mono fun _ _ tested => ⟨_, tested, by split <;> simp [*]⟩) rfl there
    (by omega) h (fun _ => rfl) (fun _ => rfl)
    (fun τ₁ r agree executed => sim.execute (stands.agree agree (by omega)) hbody executed _)
    fun stays τ₂ σ₂ agree rounds => ?_
  -- behind the body the variable is stepped, and the condition is tested once more
  obtain ⟨τ₃, stepping, agree₃, -⟩ := runs_bump (n := b) (operation?_step down)
    (points_of_integer (stands.holds agree) stored) ((below_address x).mono (by omega))
    (word?_const _ 1) (.const 1) (onWords?_stepped down (σ₂.get place 0) 1)
    (.instr (Code.jump (forCond k)) :: .label (forAfter k) :: post)
  have agree := agree.trans (agree₃.mono (by omega))
  refine ⟨τ₃, _, agree, ?_, sim.count (stands.agree agree (by omega)) stored below
    (by rw [below.word agree]; exact value) hbody rounds post there⟩
  subst stays
  exact stepping.still.trans (leads_jump there mem_cons_self)

/-- A loop is entered through its condition. -/
theorem simulates_loopStatement (code : Emits C.layout (.word cond v) a is b)
    (hbody : C.Lowers ret (some (whileAfter k)) (.stmt body) b (k + 3) ls
      ends c k₁) (h : loop C.env cond body n σ = some (outcome, σ')) (post : List Line)
    (there : Code.loopLines k is v ls ends ++ post <:+ C.func.lines) :
    C.Comes (Code.loopLines k is v ls ends) ret brk (Code.loopLines k is v ls ends) false post a τ σ outcome σ' := by
  have atCond : .label (whileCond k) :: (loopTail k is v ls ends ++ post) <:+ C.func.lines :=
    (suffix_cons ..).trans there
  exact (sim.loop stands code hbody h post atCond).outside.after (fun _ => mem_cons_of_mem _)
    (leads_jump atCond (by simp [Code.loopLines])) (.refl a τ) (Nat.le_refl a)
    fun _ => ⟨rfl, fun _ => .refl⟩

/-- The bounds of a counting loop are evaluated, and its variable is set. -/
theorem runs_bounds (sim' : Simulates W m)
 (stored : C.env.storage? x = some (place, .integer))
    (hstart : Emits C.layout (.word start v) a is b) (hstop : Emits C.layout (.word stop w) b js c)
    (evaluated : word C.env n start σ = some (first, σ₁)) (evaluated' : word C.env m stop σ₁ = some (last, σ₂)) :
    C.Runs a (is ++ js ++ [Code.store (C.layout.address x) v]) τ σ (σ₂.assign place 0 first)
      fun τ' => W.program.word? τ' w = some last := by
  have bound := hstart.le
  have bounds := (sim.word stands hstart evaluated).append bound fun τ₁ agree₁ value =>
    (sim'.word (stands.agree agree₁ (by omega)) hstop evaluated').mono fun τ₂ agree₂ value' =>
      (⟨by rw [(below_of_emits hstart).word agree₂]; exact value, value'⟩ : W.program.word? τ₂ v = some first ∧ _)
  exact bounds.append (Nat.le_refl a) fun τ₂ agree₂ values =>
    runs_store (points_of_integer (stands.holds agree₂) stored) values.1 values.2

/-- A counting loop evaluates its bounds and sets its variable before the first test. -/
theorem simulates_countStatement
    (holds : C.layout.Holds x .integer) (hstart : Emits C.layout (.word start v) a is b)
    (hstop : Emits C.layout (.word stop w) b js c)
    (hbody : C.Lowers ret (some (forAfter k)) (.stmt body) (c + 2) (k + 3)
      ls ends d k₁) (h : execute C.env (n + 1) (.count tok x start stop down body) σ = some (outcome, σ'))
    (post : List Line)
    (there : Code.countLines k c d (is ++ js) (C.layout.address x) v w down ls ends ++ post <:+ C.func.lines) :
    C.Comes (Code.countLines k c d (is ++ js) (C.layout.address x) v w down ls ends) ret brk
      (Code.countLines k c d (is ++ js) (C.layout.address x) v w down ls ends) false post a τ σ outcome σ' := by
  obtain ⟨-, place, stored⟩ := storage?_of_holds holds
  rw [execute] at h
  obtain ⟨⟨first, σ₁⟩, evaluated, h⟩ := Option.bind_eq_some_iff.mp h
  obtain ⟨⟨last, σ₂⟩, evaluated', h⟩ := Option.bind_eq_some_iff.mp h
  rw [Env.integer?, stored] at h
  obtain ⟨place', same, h⟩ := Option.bind_eq_some_iff.mp h
  cases same
  have bound := hstart.le
  have bound' := hstop.le
  have lines : Code.countLines k c d (is ++ js) (C.layout.address x) v w down ls ends ++ post =
      plain (is ++ js ++ [Code.store (C.layout.address x) v]) ++
      .instr (Code.jump (forCond k)) :: .label (forCond k) ::
        (countTail k c d (C.layout.address x) w down ls ends ++ post) := by
    simp [Code.countLines, countTail, plain]
  have atCond : .label (forCond k) :: (countTail k c d (C.layout.address x) w down ls ends ++ post) <:+
      C.func.lines :=
    .trans ⟨plain (is ++ js ++ [Code.store (C.layout.address x) v]) ++
      [.instr (Code.jump (forCond k))], by rw [lines]; simp⟩ there
  obtain ⟨τ₁, leads, agree, value⟩ := runs_bounds sim stands sim stored hstart hstop evaluated evaluated'
    (.instr (Code.jump (forCond k)) ::
      .label (forCond k) :: (countTail k c d (C.layout.address x) w down ls ends ++ post))
  rw [← lines] at leads
  exact (sim.count (stands.agree agree (by omega)) stored (below_of_emits hstop) value hbody h post
    atCond).outside.after (fun _ => mem_append_right _)
    (leads.still.trans (leads_jump atCond (by simp [Code.countLines]))) agree (by omega)
    fun _ => ⟨rfl, fun _ => .refl⟩

theorem simulates_execute (code : C.Lowers ret brk (.stmt t) a k ls ends b k₁)
    (h : execute C.env (n + 1) t σ = some (outcome, σ')) (post : List Line)
    (there : ls ++ post <:+ C.func.lines) : C.Comes ls ret brk ls ends post a τ σ outcome σ' := by
  cases code with
  | straight code =>
    obtain ⟨rfl, runs⟩ := simulates_straight sim stands code h
    exact .of_runs runs post
  | absent =>
    cases h
    exact ⟨τ, .refl a τ, rfl, .refl⟩
  | leave =>
    cases h
    exact ⟨τ, .refl a τ, _, rfl, fun _ there => leads_jump there (.inr rfl)⟩
  | exit =>
    cases h
    exact ⟨τ, .refl a τ, fun _ there => leads_jump there (.inr rfl)⟩
  | branch cond hyes hno => exact simulates_branch sim stands cond hyes hno h post there
  | count holds hstart hstop hbody =>
    exact simulates_countStatement sim stands holds hstart hstop hbody h post there
  | loop cond hbody =>
    exact simulates_loopStatement sim stands cond hbody h post there
  | block code =>
    exact sim.executeAll stands code h post there

theorem simulates_executeAll
    (code : C.Lowers ret brk (.stmts ts) a k ls ends b k₁)
    (h : executeAll C.env (n + 1) ts σ = some (outcome, σ')) (post : List Line)
    (there : ls ++ post <:+ C.func.lines) : C.Comes ls ret brk ls ends post a τ σ outcome σ' := by
  cases code with
  | nil =>
    cases h
    exact ⟨τ, .refl a τ, rfl, .refl⟩
  | last code =>
    obtain ⟨⟨first, σ₁⟩, executed, h⟩ := Option.bind_eq_some_iff.mp h
    have comes := sim.execute stands code executed post there
    cases first with
    | normal =>
      obtain ⟨_, _, impossible, -⟩ := comes
      cases impossible
    | broke | exited =>
      cases h
      exact comes
  | @cons _ _ _ _ ls _ _ _ ms ends _ _ code rest =>
    obtain ⟨⟨first, σ₁⟩, executed, h⟩ := Option.bind_eq_some_iff.mp h
    rw [append_assoc] at there
    have comes := sim.execute stands code executed (ms ++ post) there
    have le := code.le
    have behind : ms ++ post <:+ C.func.lines := (suffix_append ..).trans there
    cases first with
    | normal =>
      obtain ⟨τ₁, agree, -, leads⟩ := comes
      refine (sim.executeAll (stands.agree agree (by omega)) rest h post behind).after
        (fun _ => mem_append_right _) ?_ agree le fun stays => ⟨stays, fun _ => .refl⟩
      rw [append_assoc]
      exact leads.mono fun _ => mem_append_left _
    | broke | exited =>
      cases h
      exact comes.leaving (by simp)

end Statements

end MiniPascal.Meaning
