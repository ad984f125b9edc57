import MiniPascal.Ir.Verify

/-!
# Listings and control flow

The code of a function is listed as lines: each block is its label and then its instructions. The
lines are also the places between which control passes. From an instruction that does not end its
block it passes to the next line, and from one that does it passes to the labels that the instruction
names. `Path F p i` says that `p` is a way from the first line to line `i`, and `Dominates F d u` that
every way to line `u` goes through line `d`.
-/

open List

namespace MiniPascal.Ir

/-! ## Listings -/

/-- A line of a listing. -/
inductive Line where
  | label (name : String)
  | instr (i : Instr)
  deriving DecidableEq

/-- The lines of straight-line code. -/
def plain (is : List Instr) : List Line := is.map .instr

@[simp] theorem plain_nil : plain [] = [] := rfl

@[simp] theorem plain_cons (i : Instr) (is : List Instr) : plain (i :: is) = .instr i :: plain is := rfl

@[simp] theorem plain_append (is js : List Instr) : plain (is ++ js) = plain is ++ plain js :=
  map_append

/-- The lines of a block. -/
def blockLines (b : Block) : List Line := .label b.label :: plain b.instrs

/-- The lines of blocks. -/
def listing (blocks : List Block) : List Line := blocks.flatMap blockLines

@[simp] theorem listing_nil : listing [] = [] := rfl

theorem listing_cons (b : Block) (bs : List Block) :
    listing (b :: bs) = .label b.label :: (plain b.instrs ++ listing bs) := rfl

theorem listing_append (bs cs : List Block) : listing (bs ++ cs) = listing bs ++ listing cs :=
  flatMap_append

/-- The lines of a function. -/
def Func.lines (f : Func) : List Line := listing f.blocks

/-- The label of a line. -/
def Line.label? : Line → Option String
  | .label l => some l
  | .instr _ => none

/-- The instruction of a line. -/
def Line.instr? : Line → Option Instr
  | .label _ => none
  | .instr i => some i

@[simp] theorem label?_label (l : String) : (Line.label l).label? = some l := rfl

@[simp] theorem label?_instr (i : Instr) : (Line.instr i).label? = none := rfl

@[simp] theorem instr?_label (l : String) : (Line.label l).instr? = none := rfl

@[simp] theorem instr?_instr (i : Instr) : (Line.instr i).instr? = some i := rfl

@[simp] theorem filterMap_label?_plain (is : List Instr) : (plain is).filterMap Line.label? = [] := by
  induction is with
  | nil => rfl
  | cons i is ih => exact ih

@[simp] theorem filterMap_instr?_plain (is : List Instr) : (plain is).filterMap Line.instr? = is := by
  induction is with
  | nil => rfl
  | cons i is ih => exact congrArg (i :: ·) ih

theorem labels_eq (f : Func) : f.labels = f.lines.filterMap Line.label? := by
  unfold Func.labels Func.lines
  induction f.blocks with
  | nil => rfl
  | cons b bs ih => simp [listing_cons, ih]

theorem instrs_eq (f : Func) : f.instrs = f.lines.filterMap Line.instr? := by
  unfold Func.instrs Func.lines
  induction f.blocks with
  | nil => rfl
  | cons b bs ih => simp [listing_cons, filterMap_cons, ih]

/-- What stands behind a label is determined if all labels are different. -/
theorem ahead_unique
    (distinct : (F.filterMap Line.label?).Nodup) (split : F = pre ++ .label l :: ahead)
    (split' : F = pre' ++ .label l :: ahead') : ahead = ahead' := by
  induction pre generalizing F pre' with
  | nil =>
    subst split
    cases pre' with
    | nil => exact (List.cons.inj split').2
    | cons line pre' =>
      obtain ⟨-, rfl⟩ := List.cons.inj split'
      simp at distinct
  | cons line pre ih =>
    subst split
    cases pre' with
    | nil =>
      obtain ⟨rfl, rfl⟩ := List.cons.inj split'
      simp at distinct
    | cons line' pre' =>
      refine ih ?_ rfl (List.cons.inj split').2
      exact distinct.sublist ((sublist_cons_self ..).filterMap _)

/-! ## Control flow -/

/-- Whether control does not pass from a line to the next one. -/
def Line.ends : Line → Bool
  | .label _ => false
  | .instr i => i.op.isTerminator

/-- Control can pass from one line to another. -/
inductive Edge (F : List Line) : Nat → Nat → Prop
  | next : F[i]? = some line → line.ends = false → Edge F i (i + 1)
  | jump :
    F[i]? = some (.instr instr) → instr.op.isTerminator = true → .label l ∈ instr.args →
    F[j]? = some (.label l) → Edge F i j

/-- Control can go from the first line to a line through the listed ones. -/
inductive Path (F : List Line) : List Nat → Nat → Prop
  | start : Path F [0] 0
  | step : Path F p i → Edge F i j → Path F (p ++ [j]) j

theorem Path.mem (h : Path F p i) : i ∈ p := by
  cases h with
  | start | step => simp

/-- Control can come to a line. -/
def Reachable (F : List Line) (i : Nat) : Prop := ∃ p, Path F p i

/-- Every way to line `u` goes through line `d`. -/
def Dominates (F : List Line) (d u : Nat) : Prop := ∀ p, Path F p u → d ∈ p

/-- A line assigns the temporary with a key. -/
def DefinesAt (F : List Line) (d : Nat) (key : String) : Prop :=
  ∃ i, F[d]? = some (.instr i) ∧ i.defined? = some key

/-- A line reads the temporary with a key. -/
def UsesAt (F : List Line) (u : Nat) (key : String) : Prop :=
  ∃ i t, F[u]? = some (.instr i) ∧ .temp t ∈ i.args ∧ t.key = key

/-- A line allocates storage. -/
def AllocatesAt (F : List Line) (a : Nat) : Prop := ∃ i, F[a]? = some (.instr i) ∧ i.op = .alloc

/-- The control flow of a function is sound: control can come to every line, what is read was assigned
on every way there and further up in the listing, and storage is allocated at the start only. -/
structure Func.SoundFlow (f : Func) : Prop where
  start : ∃ b bs, f.blocks = b :: bs ∧ b.label = "start"
  reachable : ∀ i < f.lines.length, Reachable f.lines i
  dominated : ∀ u key, UsesAt f.lines u key → key ∈ f.paramKeys ∨
    ∃ d < u, DefinesAt f.lines d key ∧ Dominates f.lines d u
  allocs : ∀ a, AllocatesAt f.lines a → ∀ i < a, ∀ line, f.lines[i + 1]? = some line →
    line.ends = false ∧ line.label? = none

/-- What an instruction reads is a parameter or was assigned in front of it. -/
theorem Func.SoundFlow.assigned {f : Func} (flow : f.SoundFlow) {before after : List Instr}
    {i : Instr} {t : Temp} (split : f.instrs = before ++ i :: after) (read : .temp t ∈ i.args) :
    t.key ∈ f.paramKeys ∨ t.key ∈ before.filterMap Instr.defined? := by
  rw [instrs_eq, filterMap_eq_append_iff] at split
  obtain ⟨front, back, lines, rfl, behind⟩ := split
  obtain ⟨labels, line, rest, rfl, none, here, -⟩ := filterMap_eq_cons_iff.mp behind
  have isInstr : line = .instr i := by
    cases line with
    | label => cases here
    | instr j => rw [Option.some.inj here]
  have placed : f.lines[front.length + labels.length]? = some (.instr i) := by simp [lines, isInstr]
  rcases flow.dominated _ t.key ⟨i, t, placed, read, rfl⟩ with param | ⟨d, earlier, ⟨j, there, assigns⟩, -⟩
  · exact .inl param
  · rw [lines, ← append_assoc, getElem?_append_left (by simpa using earlier)] at there
    rcases mem_append.mp (mem_of_getElem? there) with inFront | label
    · exact .inr (mem_filterMap.mpr ⟨j, mem_filterMap.mpr ⟨_, inFront, rfl⟩, assigns⟩)
    · cases none _ label

/-! ## What is left of a listing -/

/-- Control can come to the place with the given lines ahead. -/
def Live (F rest : List Line) : Prop := ∃ i, Reachable F i ∧ F.drop i = rest

namespace Live

variable {F rest : List Line}

theorem start : Live F F := ⟨0, ⟨_, .start⟩, drop_zero⟩

theorem next {line : Line} (h : Live F (line :: rest)) (goes : line.ends = false) : Live F rest := by
  obtain ⟨i, ⟨p, path⟩, ahead⟩ := h
  have here : F[i]? = some line := by rw [← head?_drop, ahead, head?_cons]
  refine ⟨i + 1, ⟨_, path.step (.next here goes)⟩, ?_⟩
  rw [← tail_drop, ahead, tail_cons]

theorem jump {i : Instr} {l : String} (h : Live F (.instr i :: rest)) (leaves : i.op.isTerminator = true)
    (target : .label l ∈ i.args) {pre ahead : List Line} (split : F = pre ++ .label l :: ahead) :
    Live F (.label l :: ahead) := by
  obtain ⟨j, ⟨p, path⟩, rest_eq⟩ := h
  have here : F[j]? = some (.instr i) := by rw [← head?_drop, rest_eq, head?_cons]
  have there : F.drop pre.length = .label l :: ahead := by rw [split, drop_left]
  have label : F[pre.length]? = some (.label l) := by rw [← head?_drop, there, head?_cons]
  exact ⟨pre.length, ⟨_, path.step (.jump here leaves target label)⟩, there⟩

/-- What is left is the end of the listing. -/
theorem split (h : Live F rest) : ∃ pre, F = pre ++ rest := by
  obtain ⟨i, -, ahead⟩ := h
  exact ⟨F.take i, by rw [← ahead, take_append_drop]⟩

/-- Straight-line code is gone through to its end. -/
theorem plain {is : List Instr} (h : Live F (plain is ++ rest))
    (goes : ∀ i ∈ is, i.op.isTerminator = false) : Live F rest := by
  induction is with
  | nil => exact h
  | cons i is ih =>
    obtain ⟨first, later⟩ := forall_mem_cons.mp goes
    exact ih (h.next first) later

end Live

end MiniPascal.Ir
