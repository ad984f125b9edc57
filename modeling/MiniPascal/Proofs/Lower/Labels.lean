import MiniPascal.Proofs.Lower.Disciplined

/-!
# Labels, jumps and reachable code

The labels in the code of a statement are numbered apart from each other and from those around it. A
jump leads to one of them, behind the enclosing loop or to the end of the routine. Control comes to
every line of a statement, for nothing is emitted behind a statement that always leaves.
-/

open List

namespace MiniPascal.Lower

open Ir (Value Instr Ty Line plain plain_append Discipline Live)

/-! ## Labels -/

/-- The words that labels of statements begin with. -/
def hints : List String :=
  ["if_then", "if_else", "if_join", "for_cond", "for_body", "for_after", "while_cond", "while_body", "while_after"]

/-- The labels among lines. -/
abbrev labelsOf (ls : List Line) : List String := ls.filterMap Line.label?

/-- The labels among lines are all different, and their numbers satisfy a condition. -/
def Opens (P : Nat → Prop) (ls : List Line) : Prop :=
  (labelsOf ls).Nodup ∧ ∀ l ∈ labelsOf ls, ∃ hint j, l = numbered hint j ∧ hint ∈ hints ∧ P j

namespace Opens

variable {P Q : Nat → Prop} {xs ys : List Line}

theorem mono (h : Opens P xs) (imp : ∀ j, P j → Q j) : Opens Q xs :=
  ⟨h.1, fun l member => (h.2 l member).imp fun _ => Exists.imp fun j ⟨same, known, holds⟩ =>
    ⟨same, known, imp j holds⟩⟩

theorem nothing (h : labelsOf xs = []) : Opens (fun _ => False) xs :=
  ⟨h ▸ nodup_nil, fun l member => by rw [h] at member; cases member⟩

theorem append (first : Opens P xs) (second : Opens Q ys) (apart : ∀ j, P j → Q j → False) :
    Opens (fun j => P j ∨ Q j) (xs ++ ys) := by
  unfold Opens labelsOf
  rw [filterMap_append]
  refine ⟨nodup_append.mpr ⟨first.1, second.1, ?_⟩, forall_mem_append.mpr ⟨?_, ?_⟩⟩
  · rintro l inFirst _ inSecond rfl
    obtain ⟨hint, j, rfl, -, holds⟩ := first.2 l inFirst
    obtain ⟨hint', j', same, -, holds'⟩ := second.2 _ inSecond
    rw [← (numbered_inj same).2] at holds'
    exact apart j holds holds'
  · exact (first.mono fun _ => .inl).2
  · exact (second.mono fun _ => .inr).2

theorem plain (is : List Instr) : Opens P (Ir.plain is) :=
  (nothing (Ir.filterMap_label?_plain is)).mono nofun

theorem one (hint : String) (j : Nat) (known : hint ∈ hints) : Opens (fun i => i = j) [.label (numbered hint j)] :=
  ⟨nodup_singleton _, fun _ member => ⟨hint, j, mem_singleton.mp member, known, rfl⟩⟩

theorem label (rest : Opens P xs) (hint : String) (j : Nat) (known : hint ∈ hints)
    (new : ∀ i, P i → i ≠ j) : Opens (fun i => i = j ∨ P i) (.label (numbered hint j) :: xs) :=
  (one hint j known).append rest fun i same holds => new i holds same

theorem instr {i : Instr} (rest : Opens P xs) : Opens P (.instr i :: xs) := rest

theorem behind_plain (is : List Instr) (rest : Opens P xs) : Opens P (Ir.plain is ++ xs) := by
  unfold Opens labelsOf
  rw [filterMap_append, Ir.filterMap_label?_plain]
  exact rest

theorem rejoin (h : Opens P xs) (ends : Bool) (target : String) : Opens P (xs ++ Lower.rejoin ends target) := by
  unfold Opens labelsOf
  rw [filterMap_append, show (Lower.rejoin ends target).filterMap Line.label? = [] by cases ends <;> rfl,
    append_nil]
  exact h

/-- The labels of a loop are numbered in front of those in its body. -/
theorem round (known : c ∈ hints ∧ b ∈ hints ∧ a ∈ hints) (le : k + 3 ≤ k₁)
 (body : Opens (fun j => k + 3 ≤ j ∧ j < k₁) xs)
    (quiet : labelsOf back = []) : Opens (fun j => k ≤ j ∧ j < k₁) (Code.roundLines (numbered c k)
      (numbered b (k + 1)) (numbered a (k + 2)) front test v xs back) := by
  obtain ⟨hc, hb, ha⟩ := known
  have ahead := (body.append (nothing quiet) fun _ _ => id).mono fun j => (or_iff_left id).mp
  have inner := ahead.append (one a (k + 2) ha) fun j p q => by omega
  have body' := inner.label b (k + 1) hb fun j p => by omega
  have all (i : Instr) := (behind_plain test (instr (i := i) body')).label c k hc fun j p => by omega
  exact (behind_plain front (instr (all _))).mono fun j p => by omega

end Opens

variable {L : Layout} {ret : String} {brk : Option String} {n : Nat} {ls : List Line}

theorem Lowers.opens
    (h : Lowers L strings ret brk piece n k ls ends n' k') : k ≤ k' ∧ Opens (fun j => k ≤ j ∧ j < k') ls := by
  induction h with
  | straight => exact ⟨Nat.le_refl _, .plain _⟩
  | absent | nil => exact ⟨Nat.le_refl _, .plain []⟩
  | leave | exit => exact ⟨Nat.le_refl _, .plain [_]⟩
  | @branch _ _ is _ _ _ k ls yesEnds _ k₁ _ ms noEnds _ k₂ _ _ _ _ _ ihyes ihno =>
    obtain ⟨le₁, yes⟩ := ihyes
    obtain ⟨le₂, no⟩ := ihno
    have join : Opens (fun j => j = k + 2)
        (if yesEnds && noEnds then [] else [.label (ifJoin k)]) := by
      cases yesEnds && noEnds with
      | true => exact .plain []
      | false => exact .one "if_join" (k + 2) (by simp [hints])
    have second := (no.rejoin noEnds (ifJoin k)).append join fun j p q => by omega
    have no' := second.label "if_else" (k + 1) (by simp [hints]) fun j p => by omega
    have first := (yes.rejoin yesEnds (ifJoin k)).append no' fun j p q => by omega
    have all := first.label "if_then" k (by simp [hints]) fun j p => by omega
    exact ⟨by omega, (Opens.behind_plain is (.instr all)).mono fun j p => by omega⟩
  | @count _ _ _ _ _ _ _ _ _ _ _ _ _ ends _ _ _ _ _ _ _ _ _ ih =>
    rw [Code.countLines_eq]
    exact ⟨by omega, .round (by simp [hints]) ih.1 ih.2 (by cases ends <;> rfl)⟩
  | @loop _ _ _ _ _ _ _ ends _ _ _ _ _ _ _ ih =>
    rw [Code.loopLines_eq]
    exact ⟨by omega, .round (by simp [hints]) ih.1 ih.2 (by cases ends <;> rfl)⟩
  | block _ ih | last _ ih => exact ih
  | cons _ _ ihfirst ihrest =>
    obtain ⟨le₁, first⟩ := ihfirst
    obtain ⟨le₂, rest⟩ := ihrest
    exact ⟨by omega, (first.append rest fun j p q => by omega).mono fun j p => by omega⟩

/-! ## Jumps -/

/-- An instruction inside a block. -/
structure Inner (i : Instr) : Prop where
  goes : i.op.isTerminator = false
  jumps : ∀ l, .label l ∉ i.args

section Inner

variable {D : Discipline} {L : Layout} {slots : Nat} (suits : Suits D L slots) {n m : Nat}
  {is : List Instr} (taken : slots ≤ n)

theorem Passes.inner {A : Nat → Prop} {Q : (Nat → Prop) → Prop} (h : Passes D A n is m Q) : ∀ i ∈ is, Inner i := by
  obtain ⟨B, -, runs, -⟩ := h
  intro i member
  obtain ⟨A', goes⟩ := runs.goes i member
  exact ⟨goes.op, fun l target => (goes.operands _ target).elim⟩

include suits taken

theorem Emits.inner (h : Emits L phrase n is m) : ∀ i ∈ is, Inner i :=
  (h.passes suits ⟨taken, fun _ _ => trivial⟩).inner

theorem Straight.inner (h : Straight L strings t n is m) : ∀ i ∈ is, Inner i :=
  (h.passes suits ⟨taken, fun _ _ => trivial⟩).inner

end Inner

/-- All targets of jumps among lines satisfy a condition. -/
def Targets (T : String → Prop) (ls : List Line) : Prop :=
  ∀ i, .instr i ∈ ls → ∀ l, .label l ∈ i.args → T l

namespace Targets

variable {T U : String → Prop} {xs ys : List Line}

theorem mono (h : Targets T xs) (imp : ∀ l, T l → U l) : Targets U xs :=
  fun i member l target => imp l (h i member l target)

theorem nil : Targets T [] := fun _ member => by cases member

theorem append (first : Targets T xs) (second : Targets T ys) : Targets T (xs ++ ys) := by
  intro i member
  rcases mem_append.mp member with inFirst | inSecond
  · exact first i inFirst
  · exact second i inSecond

theorem label (rest : Targets T xs) : Targets T (.label name :: xs) := by
  intro i member
  rcases mem_cons.mp member with same | later
  · cases same
  · exact rest i later

theorem instr {i : Instr} (first : ∀ l, .label l ∈ i.args → T l) (rest : Targets T xs) :
    Targets T (.instr i :: xs) := by
  intro j member
  rcases mem_cons.mp member with same | later
  · cases same
    exact first
  · exact rest j later

theorem plain {is : List Instr} (inner : ∀ i ∈ is, Inner i) : Targets T (Ir.plain is) := by
  intro i member l target
  obtain ⟨j, inside, ⟨⟩⟩ := mem_map.mp member
  exact ((inner i inside).jumps l target).elim

theorem jump {l : String} (h : T l) (rest : Targets T xs) : Targets T (.instr (Code.jump l) :: xs) :=
  .instr (by simpa [Code.jump] using h) rest

theorem branch {v : Value} {yes no : String} (value : ∀ l, v ≠ .label l) (hyes : T yes) (hno : T no)
    (rest : Targets T xs) : Targets T (.instr (Code.branch v yes no) :: xs) := by
  refine .instr (fun l target => ?_) rest
  rcases (by simpa [Code.branch] using target : .label l = v ∨ l = yes ∨ l = no) with same | rfl | rfl
  · exact absurd same.symm (value l)
  · exact hyes
  · exact hno

theorem rejoin (h : ends = false → T target) :
    Targets T (Lower.rejoin ends target) := by
  cases ends with
  | true => exact .nil
  | false => exact .jump (h rfl) .nil

end Targets

/-- Where a jump in the code of a statement can lead. -/
def Leads (ls : List Line) (ret : String) (brk : Option String) (l : String) : Prop :=
  .label l ∈ ls ∨ l = ret ∨ brk = some l

theorem Targets.within (h : Targets (Leads ls ret brk) xs)
    (sub : ∀ l, .label l ∈ ls → .label l ∈ ls') :
    Targets (Leads ls' ret brk) xs := h.mono fun l => Or.imp_left (sub l)

/-- The way back of a loop leads to its condition, and a `break` in its body behind it. -/
theorem Targets.round {front test : List Instr}
    (hfront : ∀ i ∈ front, Inner i) (htest : ∀ i ∈ test, Inner i) (value : ∀ l, v ≠ .label l)
    (body : Targets (Leads ls ret (some a)) ls) (returns : ∀ T : String → Prop, T c → Targets T back) :
    Targets (Leads (Code.roundLines c b a front test v ls back) ret brk)
      (Code.roundLines c b a front test v ls back) := by
  have inBody : Targets (Leads (Code.roundLines c b a front test v ls back) ret brk) ls := by
    refine body.mono ?_
    rintro l (member | rfl | same)
    · exact .inl (by simp [Code.roundLines, member])
    · exact .inr (.inl rfl)
    · cases same
      exact .inl (by simp [Code.roundLines])
  have here {l : String} (member : l = c ∨ l = b ∨ l = a) :
      Leads (Code.roundLines c b a front test v ls back) ret brk l := by
    rcases member with rfl | rfl | rfl <;> exact .inl (by simp [Code.roundLines])
  exact (Targets.plain hfront).append (.jump (here (.inl rfl)) (.label ((Targets.plain htest).append
    (.branch value (here (.inr (.inl rfl))) (here (.inr (.inr rfl))) (.label
      ((inBody.append (returns _ (here (.inl rfl)))).append (.label .nil)))))))

theorem Emits.value_ne_label
    (h : Emits L (.word t v) n is m) (l : String) : v ≠ .label l := by
  rcases h.value with ⟨_, rfl⟩ | ⟨_, -, -, rfl⟩ <;> simp [Code.temp]

section Lowers

variable {D : Discipline} {L : Layout} {slots : Nat} (suits : Suits D L slots)

include suits

theorem inner_again (taken : slots ≤ n) (down : Bool) (x : String) :
    ∀ i ∈ Code.bump (if down then .sub else .add) n (L.address x) (.const 1), Inner i :=
  have here : Stands slots n fun _ => True := ⟨taken, fun _ _ => trivial⟩
  (passes_bump suits here (simple_step down) (suits.at here x) .const).inner

theorem inner_front (hstart : Emits L (.word start v) n is n₁) (hstop : Emits L (.word stop w) n₁ js n₂)
    (taken : slots ≤ n) : ∀ i ∈ is ++ js ++ [Code.store (L.address x) v], Inner i :=
  (passes_front suits ⟨taken, fun _ _ => trivial⟩ hstart hstop).inner

theorem inner_test (hstop : Emits L (.word stop w) n is m) (taken : slots ≤ n) (down : Bool) (x : String) :
    ∀ i ∈ [Code.load m (L.address x),
      Code.compute (if down then .cge else .cle) .word (m + 1) (Code.temp m) w], Inner i := by
  obtain ⟨B, -, -, last⟩ := hstop.passes suits (A := fun _ => True) ⟨taken, fun _ _ => trivial⟩
  have operand : D.Operand (fun _ => True) w := last.mono fun _ _ => trivial
  exact (passes_test suits ⟨Nat.le_trans taken hstop.le, fun _ _ => trivial⟩ down x operand).inner

/-- Every target of a statement is one of its labels, behind the enclosing loop, or the end of the
routine. -/
theorem Lowers.targets {ret : String} {brk : Option String} {ls : List Line}
    (h : Lowers L strings ret brk piece n k ls ends n' k') (taken : slots ≤ n) :
    Targets (Leads ls ret brk) ls := by
  induction h with
  | straight straight => exact .plain (straight.inner suits taken)
  | absent | nil => exact .nil
  | leave => exact .jump (.inr (.inr rfl)) .nil
  | exit => exact .jump (.inr (.inl rfl)) .nil
  | @branch v _ is _ brk _ k ls yesEnds _ _ _ ms noEnds _ _ _ _ cond yes _ ihyes ihno =>
    have := cond.le
    have := yes.le
    have inYes : Targets (Leads (Code.branchLines k is v ls yesEnds ms noEnds) ret brk) ls :=
      (ihyes (by omega)).within fun l member => by simp [Code.branchLines, member]
    have inNo : Targets (Leads (Code.branchLines k is v ls yesEnds ms noEnds) ret brk) ms :=
      (ihno (by omega)).within fun l member => by simp [Code.branchLines, member]
    refine (Targets.plain (cond.inner suits taken)).append (.branch cond.value_ne_label
      (.inl (by simp [Code.branchLines])) (.inl (by simp [Code.branchLines]))
      (.label ((inYes.append (.rejoin fun stays => .inl (by simp [Code.branchLines, stays]))).append
        (.label ((inNo.append (.rejoin fun stays => .inl (by simp [Code.branchLines, stays]))).append ?_)))))
    cases yesEnds && noEnds with
    | true => exact .nil
    | false => exact .label .nil
  | @count x _ _ _ _ _ _ _ _ n₂ k _ _ ends _ _ _ _ down _ start stop body ih =>
    have := start.le
    have := stop.le
    have := body.le
    rw [Code.countLines_eq]
    refine .round (inner_front suits start stop taken) (inner_test suits stop (by omega) down x)
      (by simp [Code.temp]) (ih (by omega)) fun T there => ?_
    cases ends with
    | true => exact .nil
    | false =>
      unfold Code.again
      rw [if_neg Bool.false_ne_true, plain_append]
      exact (Targets.plain (inner_again suits (by omega) down x)).append (.jump there .nil)
  | loop cond _ ih =>
    have := cond.le
    rw [Code.loopLines_eq]
    exact .round (forall_mem_nil _) (cond.inner suits taken) cond.value_ne_label (ih (by omega))
      fun T there => .rejoin fun _ => there
  | block _ ih | last _ ih => exact ih taken
  | cons first _ ihfirst ihrest =>
    exact ((ihfirst taken).within fun l => mem_append_left _).append
      ((ihrest (Nat.le_trans taken first.le)).within fun l => mem_append_right _)

end Lowers

/-! ## Reachable code -/

/-- Control comes to each of some lines, which others follow. -/
def AllLive (F ls post : List Line) : Prop :=
  ∀ pre line ahead, ls = pre ++ line :: ahead → Live F (line :: (ahead ++ post))

namespace AllLive

variable {F xs ys post : List Line}

theorem nil : AllLive F [] post := fun pre line ahead split => by simp at split

theorem cons {line : Line} (first : Live F (line :: (xs ++ post))) (rest : AllLive F xs post) :
    AllLive F (line :: xs) post := by
  intro pre line' ahead split
  cases pre with
  | nil =>
    obtain ⟨rfl, rfl⟩ := List.cons.inj split
    exact first
  | cons x pre =>
    obtain ⟨rfl, rfl⟩ := List.cons.inj split
    exact rest pre line' ahead rfl

theorem append (first : AllLive F xs (ys ++ post)) (second : AllLive F ys post) : AllLive F (xs ++ ys) post := by
  induction xs with
  | nil => exact second
  | cons x xs ih =>
    rw [cons_append]
    refine cons ?_ (ih fun pre line ahead split => ?_)
    · rw [append_assoc]
      exact first [] x xs rfl
    · exact first (x :: pre) line ahead (by rw [split, cons_append])

theorem plain {is : List Instr} (inner : ∀ i ∈ is, Inner i) (live : Live F (Ir.plain is ++ post)) :
    AllLive F (Ir.plain is) post := by
  induction is with
  | nil => exact nil
  | cons i is ih =>
    obtain ⟨first, later⟩ := forall_mem_cons.mp inner
    exact cons live (ih later (live.next first.goes))

theorem rejoin (h : ends = false → Live F (.instr (Code.jump target) :: post)) :
    AllLive F (Lower.rejoin ends target) post := by
  cases ends with
  | true => exact nil
  | false => exact cons (h rfl) nil

end AllLive

/-- Control comes to a label further down that is jumped to. -/
theorem live_forward (mid : List Line)
    (h : Live F (.instr i :: rest)) (leaves : i.op.isTerminator = true) (target : .label l ∈ i.args)
    (split : rest = mid ++ .label l :: ahead) : Live F (.label l :: ahead) := by
  obtain ⟨pre, whole⟩ := h.split
  rw [split] at whole
  exact h.jump leaves target (whole.trans (append_assoc pre (.instr i :: mid) _).symm)

/-- Control comes to a label. -/
def Reached (F : List Line) (l : String) : Prop := ∃ ahead, Live F (.label l :: ahead)

theorem Reached.of_jump (h : Live F (.instr i :: rest))
    (leaves : i.op.isTerminator = true) (target : .label l ∈ i.args) (there : .label l ∈ F) : Reached F l := by
  obtain ⟨pre, ahead, split⟩ := append_of_mem there
  exact ⟨ahead, h.jump leaves target split⟩

/-- Control goes all through the code of a statement, and then past it unless it always leaves. -/
structure Covers (F : List Line) (ret : String) (brk : Option String) (ls : List Line) (ends : Bool)
    (post : List Line) : Prop where
  lines : AllLive F ls post
  past : ends = false → Live F post
  leaves : ends = true → Reached F ret ∨ ∃ b, brk = some b ∧ Reached F b

section Covers

variable {F : List Line} {ret : String} {brk : Option String}

/-- The code of a statement is covered wherever control comes to its first line. -/
def Coverable (ret : String) (brk : Option String) (ls : List Line) (ends : Bool) : Prop :=
  ∀ F post, .label ret ∈ F → (∀ b, brk = some b → .label b ∈ F) → Live F (ls ++ post) → Covers F ret brk ls ends post

theorem coverable_plain {is : List Instr} (inner : ∀ i ∈ is, Inner i) :
    Coverable ret brk (plain is) false := fun _ _ _ _ live =>
  ⟨.plain inner live, fun _ => live.plain fun i member => (inner i member).goes, nofun⟩

theorem coverable_nil : Coverable ret brk [] false := fun _ _ _ _ live => ⟨.nil, fun _ => live, nofun⟩

variable {ends : Bool}

theorem coverable_append (first : Coverable ret brk ls false)
    (rest : Coverable ret brk ms ends) : Coverable ret brk (ls ++ ms) ends := by
  intro F post hret hbrk live
  rw [append_assoc] at live
  have covers := first F (ms ++ post) hret hbrk live
  have covers' := rest F post hret hbrk (covers.past rfl)
  exact ⟨covers.lines.append covers'.lines, covers'.past, covers'.leaves⟩

/-- A block with the lines of a statement that goes on elsewhere. -/
theorem Coverable.arm (h : Coverable ret brk ls ends)
    (hret : .label ret ∈ F) (hbrk : ∀ b, brk = some b → .label b ∈ F)
    (live : Live F (.label l :: (ls ++ rejoin ends target) ++ post)) :
    AllLive F (.label l :: (ls ++ rejoin ends target)) post ∧
      (ends = false → Live F (.instr (Code.jump target) :: post)) ∧
      (ends = true → Reached F ret ∨ ∃ b, brk = some b ∧ Reached F b) := by
  have inside : Live F (ls ++ rejoin ends target ++ post) := live.next rfl
  rw [append_assoc] at inside
  have covers := h F (rejoin ends target ++ post) hret hbrk inside
  have jumping (stays : ends = false) : Live F (.instr (Code.jump target) :: post) := by
    have past := covers.past stays
    rw [stays] at past
    exact past
  exact ⟨.cons live (covers.lines.append (.rejoin jumping)), jumping, covers.leaves⟩

theorem coverable_branch {is : List Instr}
    (inner : ∀ i ∈ is, Inner i) (yes : Coverable ret brk ls yesEnds) (no : Coverable ret brk ms noEnds) :
    Coverable ret brk (Code.branchLines k is v ls yesEnds ms noEnds) (yesEnds && noEnds) := by
  intro F post hret hbrk live
  obtain ⟨yesArm, hyes⟩ : ∃ arm, arm = Line.label (ifThen k) ::
    (ls ++ rejoin yesEnds (ifJoin k)) := ⟨_, rfl⟩
  obtain ⟨noArm, hno⟩ : ∃ arm, arm = Line.label (ifElse k) ::
    (ms ++ rejoin noEnds (ifJoin k)) := ⟨_, rfl⟩
  obtain ⟨join, hjoin⟩ : ∃ join, join =
    if yesEnds && noEnds then [] else [Line.label (ifJoin k)] := ⟨_, rfl⟩
  have lines : Code.branchLines k is v ls yesEnds ms noEnds = plain is ++
      (.instr (Code.branch v (ifThen k) (ifElse k)) :: (yesArm ++ (noArm ++ join))) := by
    rw [hyes, hno, hjoin]
    simp [Code.branchLines]
  rw [lines] at live ⊢
  rw [append_assoc] at live
  have branching : Live F (.instr _ :: (yesArm ++ (noArm ++ join) ++ post)) :=
    live.plain fun i member => (inner i member).goes
  have yesLive : Live F (yesArm ++ (noArm ++ join ++ post)) := by
    rw [hyes]
    exact live_forward [] branching rfl (by simp [Code.branch]) (by simp [hyes])
  have noLive : Live F (noArm ++ (join ++ post)) := by
    rw [hno]
    exact live_forward yesArm branching rfl (by simp [Code.branch]) (by simp [hno])
  rw [hyes] at yesLive
  rw [hno] at noLive
  obtain ⟨yesLines, yesPast, yesLeaves⟩ := yes.arm hret hbrk yesLive
  obtain ⟨noLines, noPast, noLeaves⟩ := no.arm hret hbrk noLive
  rw [← hyes] at yesLines
  rw [← hno] at noLines
  have joinLive (stays : (yesEnds && noEnds) = false) : Live F (.label (ifJoin k) :: post) := by
    have one : join = [.label (ifJoin k)] := by rw [hjoin, stays]; rfl
    cases yesEnds with
    | false => exact live_forward noArm (yesPast rfl) rfl (by simp [Code.jump]) (by simp [one])
    | true => exact live_forward [] (noPast stays) rfl (by simp [Code.jump]) (by simp [one])
  have joinLines : AllLive F join post := by
    rw [hjoin]
    cases both : yesEnds && noEnds with
    | true => exact .nil
    | false => exact .cons (joinLive both) .nil
  refine ⟨(AllLive.plain inner live).append (.cons branching (yesLines.append (noLines.append joinLines))),
    fun stays => (joinLive stays).next rfl, fun both => yesLeaves ?_⟩
  exact (Bool.and_eq_true_iff.mp both).1

theorem allLive_again {down : Bool} {n : Nat} {address : Value} {cond : String}
    (bump : ∀ i ∈ Code.bump (if down then .sub else .add) n address (.const 1), Inner i)
    (past : ends = false → Live F (Code.again down ends n address cond ++ post)) :
    AllLive F (Code.again down ends n address cond) post := by
  cases ends with
  | true => exact .nil
  | false =>
    have live := past rfl
    unfold Code.again at live ⊢
    rw [if_neg Bool.false_ne_true, plain_append] at live ⊢
    exact (AllLive.plain bump live).append (.cons (live.plain fun i member => (bump i member).goes) .nil)

/-- Control goes all through a loop if it goes all through the way back. -/
theorem coverable_round {front test : List Instr}
    (hfront : ∀ i ∈ front, Inner i) (htest : ∀ i ∈ test, Inner i) (body : Coverable ret (some a) ls ends)
    (returns : ∀ F post, (ends = false → Live F (back ++ post)) → AllLive F back post) :
    Coverable ret brk (Code.roundLines c b a front test v ls back) false := by
  intro F post hret _ live
  obtain ⟨arm, harm⟩ : ∃ arm, arm = Line.label b :: (ls ++ back) := ⟨_, rfl⟩
  have lines : Code.roundLines c b a front test v ls back = plain front ++ (.instr (Code.jump c) :: .label c ::
      (plain test ++ (.instr (Code.branch v b a) :: (arm ++ [.label a])))) := by
    rw [harm]
    simp [Code.roundLines]
  rw [lines] at live ⊢
  rw [append_assoc] at live
  have jumping := live.plain fun i member => (hfront i member).goes
  rw [cons_append, cons_append, append_assoc] at jumping
  have condLive : Live F (.label c :: _) := live_forward [] jumping rfl (by simp [Code.jump]) rfl
  have testLive := condLive.next rfl
  have branching : Live F (.instr _ :: (arm ++ [.label a] ++ post)) :=
    testLive.plain fun i member => (htest i member).goes
  have armLive : Live F (arm ++ ([.label a] ++ post)) := by
    rw [harm]
    exact live_forward [] branching rfl (by simp [Code.branch]) (by simp [harm])
  have afterLive : Live F (.label a :: post) := live_forward arm branching rfl (by simp [Code.branch]) (by simp)
  have behind : .label a ∈ F := by
    obtain ⟨pre, rfl⟩ := afterLive.split
    simp
  have armLines : AllLive F arm ([.label a] ++ post) := by
    rw [harm, cons_append, append_assoc] at armLive
    have covers := body F _ hret (by rintro _ ⟨⟩; exact behind) (armLive.next rfl)
    rw [← append_assoc] at armLive
    rw [harm]
    exact .cons armLive (covers.lines.append (returns F _ covers.past))
  rw [← append_assoc] at jumping condLive
  exact ⟨(AllLive.plain hfront live).append (.cons jumping (.cons condLive ((AllLive.plain htest testLive).append
    (.cons branching (armLines.append (.cons afterLive .nil)))))), fun _ => afterLive.next rfl,
    fun leaves => absurd leaves Bool.false_ne_true⟩

theorem coverable_jump (there : l = ret ∨ brk = some l) :
    Coverable ret brk [.instr (Code.jump l)] true := by
  intro F post hret hbrk live
  refine ⟨.cons live .nil, nofun, fun _ => ?_⟩
  rcases there with rfl | same
  · exact .inl (.of_jump live rfl (by simp [Code.jump]) hret)
  · exact .inr ⟨l, same, .of_jump live rfl (by simp [Code.jump]) (hbrk l same)⟩

end Covers

/-- Control goes all through the code of every statement. -/
theorem Lowers.coverable (suits : Suits D L slots)
    (h : Lowers L strings ret brk piece n k ls ends n' k') (taken : slots ≤ n) : Coverable ret brk ls ends := by
  induction h with
  | straight straight => exact coverable_plain (straight.inner suits taken)
  | absent | nil => exact coverable_nil
  | leave => exact coverable_jump (.inr rfl)
  | exit => exact coverable_jump (.inl rfl)
  | branch cond yes _ ihyes ihno =>
    have := cond.le
    have := yes.le
    exact coverable_branch (cond.inner suits taken) (ihyes (by omega)) (ihno (by omega))
  | count _ start stop body ih =>
    have := start.le
    have := stop.le
    have := body.le
    rw [Code.countLines_eq]
    exact coverable_round (inner_front suits start stop taken) (inner_test suits stop (by omega) _ _)
      (ih (by omega)) fun F post => allLive_again (inner_again suits (by omega) _ _)
  | loop cond _ ih =>
    have := cond.le
    rw [Code.loopLines_eq]
    refine coverable_round (forall_mem_nil _) (cond.inner suits taken) (ih (by omega)) fun F post past => ?_
    refine .rejoin fun stays => ?_
    have live := past stays
    rw [stays] at live
    exact live
  | block _ ih | last _ ih => exact ih taken
  | cons first _ ihfirst ihrest =>
    exact coverable_append (ihfirst taken) (ihrest (Nat.le_trans taken first.le))

end MiniPascal.Lower
