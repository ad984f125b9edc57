import Mathlib.Data.List.Nodup
import MiniPascal.Proofs.Ir.WellFormed

/-!
# A discipline of temporaries

Code whose temporaries are numbered in the order of the listing can be checked line by line. A
`Cursor` holds the first free number and the temporaries that are available in the open block, if one
is open. A label opens a block in which those temporaries are available that the label `needs`; all
of them must be available wherever a jump to the label is made. `Runs D c ls c'` says that lines keep
to this discipline, between two cursors.

The discipline is stronger than the rules of well-formed code: a temporary that is read is assigned
further up in the listing, and on every way to the reader.
-/

open List

namespace MiniPascal.Ir

/-- What a listing is checked against: the names of numbered temporaries, the parameters, what can be
called, whether storage may be allocated, whether a value is returned, and which temporaries are
available at each label. -/
structure Discipline where
  name : Nat → String
  params : List Temp
  callee : String → Prop
  allocates : Prop
  returns : Bool
  needs : String → Nat → Prop

/-- A place in a listing. -/
structure Cursor where
  next : Nat
  avail? : Option (Nat → Prop)

/-- What is available has a number that is taken. -/
def Cursor.Valid (c : Cursor) : Prop := ∀ A, c.avail? = some A → ∀ t, A t → t < c.next

namespace Discipline

variable (D : Discipline)

/-- The temporary of a given number. -/
def temp (n : Nat) : Temp := { name := D.name n, id := n }

/-- A value can be read where some temporaries are available. -/
def Operand (A : Nat → Prop) : Value → Prop
  | .const _ => True
  | .global _ => True
  | .temp t => t ∈ D.params ∨ ∃ n, t = D.temp n ∧ A n
  | .missing => False
  | .label _ => False

/-- An instruction inside a block. -/
structure Goes (A : Nat → Prop) (i : Instr) : Prop where
  op : i.op.isTerminator = false
  operands : ∀ v ∈ i.args, D.Operand A v
  callee : i.op = .call → ∃ g rest, i.args = .global g :: rest ∧ D.callee g
  alloc : i.op = .alloc → D.allocates

/-- An instruction at the end of a block. -/
structure Leaves (A : Nat → Prop) (i : Instr) : Prop where
  op : i.op.isTerminator = true
  result : i.result = .missing
  operands : ∀ v ∈ i.args, D.Operand A v ∨ ∃ l, v = .label l ∧ ∀ t, D.needs l t → A t
  returns : i.op = .ret → Func.carriesValue i = D.returns

/-- Lines keep to the discipline. -/
inductive Runs : Cursor → List Line → Cursor → Prop
  | nil : Runs c [] c
  | label :
    (∀ t, D.needs l t → t < n) → Runs ⟨n, some (D.needs l)⟩ ls c → Runs ⟨n, none⟩ (.label l :: ls) c
  | effect :
    D.Goes A i → i.result = .missing → Runs ⟨n, some A⟩ ls c → Runs ⟨n, some A⟩ (.instr i :: ls) c
  | define :
    D.Goes A i → i.result = .temp (D.temp n) → Runs ⟨n + 1, some fun t => A t ∨ t = n⟩ ls c →
    Runs ⟨n, some A⟩ (.instr i :: ls) c
  | leave : D.Leaves A i → Runs ⟨n, none⟩ ls c → Runs ⟨n, some A⟩ (.instr i :: ls) c

variable {D}

theorem temp_inj (h : D.temp m = D.temp n) : m = n := Int.ofNat.inj (congrArg Temp.id h)

theorem Operand.const {A : Nat → Prop} {value : Int64} : D.Operand A (.const value) := trivial

theorem Operand.global {A : Nat → Prop} {name : String} : D.Operand A (.global name) := trivial

theorem Operand.mono {A B : Nat → Prop} (h : D.Operand A v) (sub : ∀ t, A t → B t) : D.Operand B v := by
  cases v with
  | const | global => trivial
  | temp t => exact h.imp_right fun ⟨n, same, avail⟩ => ⟨n, same, sub n avail⟩
  | missing | label => exact h

namespace Runs

variable {c c' c'' : Cursor} {xs ys : List Line}

theorem append (first : D.Runs c xs c') (second : D.Runs c' ys c'') : D.Runs c (xs ++ ys) c'' := by
  induction first with
  | nil => exact second
  | label needs _ ih => exact .label needs (ih second)
  | effect goes result _ ih => exact .effect goes result (ih second)
  | define goes result _ ih => exact .define goes result (ih second)
  | leave leaves _ ih => exact .leave leaves (ih second)

theorem split (h : D.Runs c (xs ++ ys) c'') : ∃ c', D.Runs c xs c' ∧ D.Runs c' ys c'' := by
  induction xs generalizing c with
  | nil => exact ⟨c, .nil, h⟩
  | cons x xs ih =>
    cases h with
    | label needs rest => exact (ih rest).imp fun _ ⟨first, second⟩ => ⟨.label needs first, second⟩
    | effect goes result rest =>
      exact (ih rest).imp fun _ ⟨first, second⟩ => ⟨.effect goes result first, second⟩
    | define goes result rest =>
      exact (ih rest).imp fun _ ⟨first, second⟩ => ⟨.define goes result first, second⟩
    | leave leaves rest => exact (ih rest).imp fun _ ⟨first, second⟩ => ⟨.leave leaves first, second⟩

theorem det (h : D.Runs c xs c') (h' : D.Runs c xs c'') : c' = c'' := by
  induction h with
  | nil =>
    cases h'
    rfl
  | label _ _ ih =>
    cases h' with
    | label _ rest => exact ih rest
  | effect goes result _ ih =>
    cases h' with
    | effect _ _ rest => exact ih rest
    | define _ result' => cases result.symm.trans result'
    | leave leaves => cases goes.op.symm.trans leaves.op
  | define goes result _ ih =>
    cases h' with
    | effect _ result' => cases result'.symm.trans result
    | define _ _ rest => exact ih rest
    | leave leaves => cases goes.op.symm.trans leaves.op
  | leave leaves _ ih =>
    cases h' with
    | effect goes | define goes => cases goes.op.symm.trans leaves.op
    | leave _ rest => exact ih rest

theorem next_le (h : D.Runs c xs c') : c.next ≤ c'.next := by
  induction h with
  | nil => exact Nat.le_refl _
  | label _ _ ih | effect _ _ _ ih | leave _ _ ih => exact ih
  | define _ _ _ ih => exact Nat.le_of_succ_le ih

end Runs

/-! ## Well-formed code -/

section Lines

variable {c c' : Cursor} {ls : List Line}

theorem Runs.valid (h : D.Runs c ls c') (valid : c.Valid) : c'.Valid := by
  induction h with
  | nil => exact valid
  | label needs _ ih =>
    refine ih ?_
    rintro _ ⟨⟩ t needed
    exact needs t needed
  | effect _ _ _ ih => exact ih valid
  | define _ _ _ ih =>
    refine ih ?_
    rintro _ ⟨⟩ t (before | rfl)
    · exact Nat.lt_succ_of_lt (valid _ rfl t before)
    · exact Nat.lt_succ_self t
  | leave _ _ ih => exact ih (by rintro _ ⟨⟩)

/-- Every instruction keeps to the discipline, where no temporary is available that has no number
yet. -/
theorem Runs.instr (h : D.Runs c ls c') (valid : c.Valid) {i : Instr} (member : .instr i ∈ ls) :
    ∃ A, (∀ t, A t → t < c'.next) ∧ (D.Goes A i ∨ D.Leaves A i) := by
  obtain ⟨before, after, rfl⟩ := append_of_mem member
  obtain ⟨m, first, second⟩ := h.split
  have bound := second.next_le
  have taken := first.valid valid
  cases second with
  | effect goes | define goes =>
    exact ⟨_, fun t avail => Nat.lt_of_lt_of_le (taken _ rfl t avail) bound, .inl goes⟩
  | leave leaves => exact ⟨_, fun t avail => Nat.lt_of_lt_of_le (taken _ rfl t avail) bound, .inr leaves⟩

/-- In a block that stays open, no instruction ends it. -/
theorem Runs.goes {A B : Nat → Prop} {is : List Instr}
    (h : D.Runs ⟨n, some A⟩ (plain is) ⟨m, some B⟩) : ∀ i ∈ is, ∃ A, D.Goes A i := by
  induction is generalizing n A with
  | nil => simp
  | cons i is ih =>
    cases h with
    | effect goes _ rest | define goes _ rest => exact List.forall_mem_cons.mpr ⟨⟨_, goes⟩, ih rest⟩
    | leave _ rest =>
      cases is with
      | nil | cons => cases rest

/-- The keys of the temporaries that lines assign. -/
def keys (ls : List Line) : List String := (ls.filterMap Line.instr?).filterMap Instr.defined?

/-- Temporaries are assigned in the order of their numbers. -/
theorem Runs.keys_eq (h : D.Runs c ls c') :
    keys ls = (List.range' c.next (c'.next - c.next)).map fun n => (D.temp n).key := by
  unfold keys
  induction h with
  | nil => simp
  | label _ _ ih => simpa [filterMap_cons] using ih
  | effect _ result _ ih => simpa [Instr.defined?, result] using ih
  | @define _ i n ls c _ result rest ih =>
    have bound := rest.next_le
    have length : c.next - n = (c.next - (n + 1)) + 1 := by
      change n + 1 ≤ c.next at bound
      omega
    rw [length, range'_succ]
    simpa [Instr.defined?, result] using ih
  | leave leaves _ ih => simpa [Instr.defined?, leaves.result] using ih

/-- In a closed block that is followed by closed ones, there is one terminator, at the end. -/
theorem Runs.closed {A : Nat → Prop}
    (h : D.Runs ⟨n, some A⟩ (plain is ++ listing bs) ⟨m, none⟩) :
    (∃ js i, is = js ++ [i] ∧ i.op.isTerminator = true ∧ ∀ j ∈ js, j.op.isTerminator = false) ∧
      ∃ n', D.Runs ⟨n', none⟩ (listing bs) ⟨m, none⟩ := by
  induction is generalizing n A with
  | nil =>
    cases bs with
    | nil | cons b bs => cases h
  | cons i is ih =>
    cases h with
    | effect goes _ rest | define goes _ rest =>
      obtain ⟨⟨js, j, rfl, ends, inner⟩, later⟩ := ih rest
      exact ⟨⟨i :: js, j, rfl, ends, List.forall_mem_cons.mpr ⟨goes.op, inner⟩⟩, later⟩
    | leave leaves rest =>
      cases is with
      | nil => exact ⟨⟨[], i, rfl, leaves.op, by simp⟩, _, rest⟩
      | cons j js => cases rest

theorem Runs.blocks {bs : List Block} (h : D.Runs ⟨n, none⟩ (listing bs) ⟨m, none⟩) :
    ∀ b ∈ bs, b.Closed := by
  induction bs generalizing n with
  | nil => simp
  | cons b bs ih =>
    cases h with
    | label _ rest =>
      obtain ⟨closed, _, later⟩ := rest.closed
      exact List.forall_mem_cons.mpr ⟨closed, ih later⟩

/-- A discipline says about a function of a program what holds of it. -/
structure Fits (D : Discipline) (p : Program) (f : Func) : Prop where
  params : D.params = f.params.map (·.temp)
  apart : ∀ n, (D.temp n).key ∉ f.paramKeys
  distinct : ∀ m n, (D.temp m).key = (D.temp n).key → m = n
  callees : ∀ g, D.callee g → g ∈ p.funcs.map (·.name) ++ p.externs.map (·.name)
  returns : D.returns = (f.result != .none)

theorem Fits.paramKeys (fits : D.Fits p f) (h : q ∈ D.params) :
    q.key ∈ f.paramKeys := by
  rw [fits.params] at h
  obtain ⟨param, member, rfl⟩ := List.mem_map.mp h
  exact mem_map_of_mem member

/-- A function that keeps to the discipline is well formed, if only its labels are all different and
all its targets are there. -/
theorem Runs.wellFormed {f : Func} (h : D.Runs ⟨0, none⟩ f.lines ⟨n, none⟩)
    (fits : D.Fits p f) (blocks : f.blocks ≠ []) (labels : f.labels.Nodup)
    (targets : ∀ i ∈ f.instrs, ∀ l, .label l ∈ i.args → l ∈ f.labels) : f.WellFormed p := by
  have definedKeys : f.definedKeys = (List.range' 0 n).map fun n => (D.temp n).key := by
    unfold Func.definedKeys
    rw [instrs_eq]
    exact h.keys_eq
  have reads {A : Nat → Prop} {t : Temp} (taken : ∀ t, A t → t < n) (operand : D.Operand A (.temp t)) :
      t.key ∈ f.paramKeys ++ f.definedKeys := by
    rcases operand with param | ⟨k, rfl, available⟩
    · exact mem_append_left _ (fits.paramKeys param)
    · refine mem_append_right _ ?_
      rw [definedKeys]
      exact mem_map_of_mem (by simpa using taken k available)
  have instr {i : Instr} (member : i ∈ f.instrs) : ∃ A, (∀ t, A t → t < n) ∧ (D.Goes A i ∨ D.Leaves A i) := by
    rw [instrs_eq] at member
    obtain ⟨line, inside, found⟩ := List.mem_filterMap.mp member
    cases line with
    | label => cases found
    | instr j =>
      cases found
      exact h.instr (by rintro _ ⟨⟩) inside
  exact
    { blocks := blocks
      labels := labels
      once := by
        rw [definedKeys]
        exact List.Nodup.map fits.distinct (nodup_range')
      apart := fun key member => by
        rw [definedKeys] at member
        obtain ⟨k, -, rfl⟩ := List.mem_map.mp member
        exact fits.apart k
      closed := h.blocks
      given := fun i member missing => by
        obtain ⟨A, -, goes | leaves⟩ := instr member
        · exact (goes.operands _ missing).elim
        · rcases leaves.operands _ missing with operand | ⟨_, ⟨⟩, -⟩
          exact operand.elim
      temps := fun i member t reading => by
        obtain ⟨A, taken, goes | leaves⟩ := instr member
        · exact reads taken (goes.operands _ reading)
        · rcases leaves.operands _ reading with operand | ⟨_, ⟨⟩, -⟩
          exact reads taken operand
      targets := targets
      callees := fun i member isCall g rest args => by
        obtain ⟨A, -, goes | leaves⟩ := instr member
        · obtain ⟨g', rest', args', callee⟩ := goes.callee isCall
          cases args.symm.trans args'
          exact fits.callees g callee
        · have ends := leaves.op
          rw [isCall] at ends
          cases ends
      returns := fun i member isRet => by
        obtain ⟨A, -, goes | leaves⟩ := instr member
        · have inner := goes.op
          rw [isRet] at inner
          cases inner
        · rw [leaves.returns isRet, fits.returns, bne_iff_ne] }

end Lines

/-! ## Dominance -/

/-- A line assigns the temporary of a given number. -/
def Assigns (D : Discipline) (F : List Line) (d t : Nat) : Prop :=
  ∃ i, F[d]? = some (.instr i) ∧ i.result = .temp (D.temp t)

theorem Assigns.definesAt (h : D.Assigns F d t) : DefinesAt F d (D.temp t).key := by
  obtain ⟨i, here, result⟩ := h
  exact ⟨i, here, by rw [Instr.defined?, result]⟩

theorem assigns_succ :
    D.Assigns (line :: F) (d + 1) t ↔ D.Assigns F d t := Iff.rfl

section Assigned

variable {c c' : Cursor} {F : List Line} {t : Nat}

/-- Every number that is taken is assigned. -/
theorem Runs.assigned (h : D.Runs c F c') (low : c.next ≤ t) (high : t < c'.next) : ∃ d, D.Assigns F d t := by
  induction h with
  | nil => omega
  | label _ _ ih | effect _ _ _ ih | leave _ _ ih => exact (ih low high).imp' (· + 1) fun d => assigns_succ.mpr
  | @define _ i n _ _ _ result _ ih =>
    by_cases here : t = n
    · exact ⟨0, i, rfl, by rw [here]; exact result⟩
    · have above : n + 1 ≤ t := by
        change n ≤ t at low
        omega
      exact (ih above high).imp' (· + 1) fun d => assigns_succ.mpr

/-- A line assigns at most the temporary of the first free number, which is then taken. -/
theorem Runs.step {line : Line} (h : D.Runs c (line :: F) c') : ∃ m, D.Runs m F c' ∧
    c.next ≤ m.next ∧ ∀ t, D.Assigns (line :: F) 0 t → t = c.next ∧ m.next = t + 1 := by
  cases h with
  | label _ rest =>
    refine ⟨_, rest, Nat.le_refl _, ?_⟩
    rintro t ⟨i, ⟨⟩, -⟩
  | effect _ missing rest =>
    refine ⟨_, rest, Nat.le_refl _, ?_⟩
    rintro t ⟨i, ⟨⟩, result⟩
    cases missing.symm.trans result
  | @define _ _ n _ _ _ temp rest =>
    refine ⟨_, rest, Nat.le_succ n, ?_⟩
    rintro t ⟨i, ⟨⟩, result⟩
    have same : n = t := temp_inj (Value.temp.inj (temp.symm.trans result))
    exact ⟨same.symm, congrArg (· + 1) same⟩
  | leave leaves rest =>
    refine ⟨_, rest, Nat.le_refl _, ?_⟩
    rintro t ⟨i, ⟨⟩, result⟩
    cases leaves.result.symm.trans result

/-- What is assigned has a number from the first free one on. -/
theorem Runs.low (h : D.Runs c F c') (assigns : D.Assigns F d t) : c.next ≤ t := by
  induction F generalizing c d with
  | nil =>
    obtain ⟨i, here, -⟩ := assigns
    simp at here
  | cons line F ih =>
    obtain ⟨m, rest, le, first⟩ := h.step
    cases d with
    | zero => exact Nat.le_of_eq (first t assigns).1.symm
    | succ d => exact Nat.le_trans le (ih rest (assigns_succ.mp assigns))

/-- No number is assigned twice. -/
theorem Runs.assigned_once (h : D.Runs c F c') (assigns : D.Assigns F d t)
    (assigns' : D.Assigns F d' t) : d = d' := by
  induction F generalizing c d d' with
  | nil =>
    obtain ⟨i, here, -⟩ := assigns
    simp at here
  | cons line F ih =>
    obtain ⟨m, rest, -, first⟩ := h.step
    have behind {e : Nat} (here : D.Assigns (line :: F) 0 t) (later : D.Assigns (line :: F) (e + 1) t) :
        False := by
      have above := rest.low (assigns_succ.mp later)
      have next := (first t here).2
      omega
    cases d with
    | zero =>
      cases d' with
      | zero => rfl
      | succ d' => exact (behind assigns assigns').elim
    | succ d =>
      cases d' with
      | zero => exact (behind assigns' assigns).elim
      | succ d' => rw [ih rest (assigns_succ.mp assigns) (assigns_succ.mp assigns')]

end Assigned

theorem drop_eq_cons {α : Type} {xs : List α} {x : α} (here : xs[i]? = some x) :
    xs.drop i = x :: xs.drop (i + 1) := by
  obtain ⟨bound, rfl⟩ := List.getElem?_eq_some_iff.mp here
  exact drop_eq_getElem_cons bound

/-- The cursor in front of the first line. -/
def start : Cursor := ⟨0, none⟩

/-- A temporary is available in front of a line; in front of a label, this means behind it. -/
def AvailAt (D : Discipline) (F : List Line) (i t : Nat) : Prop :=
  ∃ c, D.Runs start (F.take i) c ∧
    match F[i]? with
    | some (.label l) => D.needs l t
    | _ => ∃ A, c.avail? = some A ∧ A t

section Dominance

variable {F : List Line} {last : Cursor} (whole : D.Runs start F last)

include whole

theorem at_line (here : F[i]? = some line) : ∃ c,
    D.Runs start (F.take i) c ∧ D.Runs c (line :: F.drop (i + 1)) last := by
  have split : F = F.take i ++ line :: F.drop (i + 1) := by
    rw [← drop_eq_cons here, take_append_drop]
  rw [split] at whole
  exact whole.split

omit whole in
/-- In an open block, what is available in front of the next line is what the cursor says. -/
theorem AvailAt.open_block {A : Nat → Prop} (avail : D.AvailAt F i t)
    (before : D.Runs start (F.take i) ⟨n, some A⟩) (after : D.Runs ⟨n, some A⟩ (F.drop i) last) : A t := by
  obtain ⟨c, before', holds⟩ := avail
  cases before.det before'
  cases here : F[i]? with
  | none =>
    rw [here] at holds
    obtain ⟨_, ⟨⟩, available⟩ := holds
    exact available
  | some line =>
    rw [here] at holds
    cases line with
    | label l =>
      rw [drop_eq_cons here] at after
      cases after
    | instr i =>
      obtain ⟨_, ⟨⟩, available⟩ := holds
      exact available

/-- What is available behind a passage of control was available in front of it, or is assigned
there. -/
theorem AvailAt.back (avail : D.AvailAt F j t) (edge : Edge F i j) :
    D.AvailAt F i t ∨ D.Assigns F i t := by
  cases edge with
  | @next line here goes =>
    obtain ⟨c, before, after⟩ := at_line whole here
    have step : F.take (i + 1) = F.take i ++ [line] := by rw [take_add_one, here]; rfl
    have through {m : Cursor} (line' : D.Runs c [line] m) : D.Runs start (F.take (i + 1)) m := by
      rw [step]
      exact before.append line'
    cases after with
    | label needs rest =>
      have needed := avail.open_block (through (.label needs .nil)) rest
      exact .inl ⟨_, before, by rw [here]; exact needed⟩
    | effect effect missing rest =>
      have available := avail.open_block (through (.effect effect missing .nil)) rest
      exact .inl ⟨_, before, by rw [here]; exact ⟨_, rfl, available⟩⟩
    | define define temp rest =>
      rcases avail.open_block (through (.define define temp .nil)) rest with available | rfl
      · exact .inl ⟨_, before, by rw [here]; exact ⟨_, rfl, available⟩⟩
      · exact .inr ⟨_, here, temp⟩
    | leave leaves => cases goes.symm.trans leaves.op
  | @jump instr l _ here ends target there =>
    obtain ⟨_, -, needed⟩ := avail
    rw [there] at needed
    obtain ⟨c, before, after⟩ := at_line whole here
    cases after with
    | effect goes | define goes => cases goes.op.symm.trans ends
    | leave leaves =>
      rcases leaves.operands _ target with operand | ⟨_, ⟨⟩, needs⟩
      · exact operand.elim
      · exact .inl ⟨_, before, by rw [here]; exact ⟨_, rfl, needs t needed⟩⟩

theorem not_avail_start (t : Nat) : ¬ D.AvailAt F 0 t := by
  rintro ⟨c, before, holds⟩
  cases before
  cases F with
  | nil => obtain ⟨_, ⟨⟩, -⟩ := holds
  | cons line F =>
    cases whole with
    | label needs => exact Nat.not_lt_zero t (needs t holds)

/-- What is available at a line is assigned on every way there. -/
theorem assigned_on_path {p : List Nat} (path : Path F p u) (avail : D.AvailAt F u t) :
    ∃ d ∈ p, D.Assigns F d t := by
  induction path with
  | start => exact absurd avail (not_avail_start whole t)
  | step path edge ih =>
    rcases avail.back whole edge with before | assigns
    · obtain ⟨d, member, assigns⟩ := ih before
      exact ⟨d, mem_append_left _ member, assigns⟩
    · exact ⟨_, mem_append_left _ path.mem, assigns⟩

omit whole in
/-- What is available at a line is assigned further up in the listing. -/
theorem assigned_above {u : Nat} {A : Nat → Prop} (before : D.Runs start (F.take u) ⟨n, some A⟩)
    (available : A t) : ∃ d < u, D.Assigns F d t := by
  have taken : t < n := before.valid (by rintro _ ⟨⟩) A rfl t available
  obtain ⟨d, i, here, result⟩ := before.assigned (Nat.zero_le t) taken
  rw [getElem?_take] at here
  split at here
  · next above => exact ⟨d, above, i, here, result⟩
  · cases here

/-- What is read is a parameter, or a temporary that is assigned once, further up in the listing and
on every way to the reader. -/
theorem Runs.dominated {u : Nat} (uses : UsesAt F u key) :
    (∃ q ∈ D.params, q.key = key) ∨ ∃ d < u, DefinesAt F d key ∧ Dominates F d u := by
  obtain ⟨i, t, here, member, rfl⟩ := uses
  obtain ⟨c, before, after⟩ := at_line whole here
  have reads {n : Nat} {A : Nat → Prop} (before : D.Runs start (F.take u) ⟨n, some A⟩)
      (operand : D.Operand A (.temp t)) :
      (∃ q ∈ D.params, q.key = t.key) ∨ ∃ d < u, DefinesAt F d t.key ∧ Dominates F d u := by
    rcases operand with param | ⟨k, rfl, available⟩
    · exact .inl ⟨t, param, rfl⟩
    · obtain ⟨d, above, assigns⟩ := assigned_above before available
      refine .inr ⟨d, above, assigns.definesAt, fun p path => ?_⟩
      have avail : D.AvailAt F u k := ⟨_, before, by rw [here]; exact ⟨_, rfl, available⟩⟩
      obtain ⟨d', onPath, assigns'⟩ := assigned_on_path whole path avail
      rw [whole.assigned_once assigns assigns']
      exact onPath
  cases after with
  | effect goes | define goes => exact reads before (goes.operands _ member)
  | leave leaves =>
    rcases leaves.operands _ member with operand | ⟨_, ⟨⟩, -⟩
    exact reads before operand

end Dominance

end Discipline

end MiniPascal.Ir
