import MiniPascal.Proofs.Flag.Spelling
import MiniPascal.Settings.Groups

/-!
# Turning switches

There are two ways to turn switches: `applySwitch?` takes them one after the other, and `applyGroups` takes all flags
that were parsed at once. Both come to `turned`, in which a switch has no order: it is off if it was turned off, on if
it was turned on, and else as it was. That is what flags do anyway, and what single turns do if none of them undoes
another (`foldl_apply`).
-/

open List

namespace MiniPascal

open FlagSet

/-! ## Flags that are defined -/

namespace FlagSet

variable {fs fs' : FlagSet} {f : Flag} {flags : List Flag} {name : String}

/-- What a set of flags has got, with the flags that it had before. -/
def Gains (fs : FlagSet) (flags : List Flag) (fs' : FlagSet) : Prop :=
  (∀ name f, fs.find? name = some f → fs'.find? name = some f) ∧ ∀ f ∈ flags, fs'.find? f.name = some f

theorem gains_define (done : fs.define f = (fs', none)) : Gains fs [f] fs' := by
  have added : fs'.flags = fs.flags ++ [f] ∧ fs.find? f.name = none := by
    unfold define at done
    grind [Option.isSome_iff_ne_none]
  have finds (name : String) : fs'.find? name = (fs.find? name).or (if f.name = name then some f else none) := by
    rw [find?, added.1, find?_append]
    simp [find?]
  refine ⟨fun name g found => by rw [finds, found]; rfl, fun g member => ?_⟩
  rw [mem_singleton.mp member, finds, added.2]
  simp

theorem gains_defineAll (done : fs.defineAll flags = (fs', none)) : Gains fs flags fs' := by
  induction flags generalizing fs with
  | nil =>
    cases done
    exact ⟨fun _ _ found => found, forall_mem_nil _⟩
  | cons f rest ih =>
    rw [defineAll] at done
    split at done
    · cases done
    next next first =>
      obtain ⟨kept, new⟩ := gains_define first
      obtain ⟨kept', new'⟩ := ih done
      exact ⟨fun name g found => kept' name g (kept name g found),
        forall_mem_cons.mpr ⟨kept' _ _ (new f (mem_singleton_self f)), new'⟩⟩

theorem gains_addGroup (done : fs.addGroup g = (fs', none)) :
    Gains fs (g.entries.flatMap g.entryFlags) fs' := by
  rw [addGroup] at done
  split at done
  · cases done
  next all =>
    obtain ⟨⟩ := done
    obtain ⟨kept, new⟩ := gains_defineAll all
    exact ⟨kept, new⟩

theorem value?_addGroup (done : fs.addGroup g = (fs', none)) (member : e ∈ g.entries) :
    fs'.value? (g.enabling e) = some (.truth false) ∧ fs'.value? (g.disabling e) = some (.truth false) := by
  have new : ∀ f ∈ g.entryFlags e, fs'.value? f.name = some f.value := fun f inside => by
    rw [value?, (gains_addGroup done).2 f (mem_flatMap.mpr ⟨e, member, inside⟩)]
    rfl
  exact ⟨new _ mem_cons_self, new _ (mem_cons_of_mem _ mem_cons_self)⟩

end FlagSet

namespace Settings

/-! ## Turning switches -/

/-- A switch that is turned on or off. -/
inductive Turn where
  | warning (w : Warning) (on : Bool)
  | feature (f : Feature) (on : Bool)
  deriving DecidableEq

namespace Turn

/-- The name of the flag for a turn. -/
def flag : Turn → String
  | warning w on => (if on then "W" else "W" ++ "no-") ++ w.name
  | feature f on => (if on then "F" else "F" ++ "no-") ++ f.name

/-- The settings with a switch turned. -/
def apply (c : Settings) : Turn → Settings
  | warning w on => c.setWarning w on
  | feature f on => c.setFeature f on

/-- The same switch turned the other way. -/
def opposite : Turn → Turn
  | warning w on => warning w (!on)
  | feature f on => feature f (!on)

theorem flag_spelled (t : Turn) : t.flag ≠ "" ∧ '=' ∉ t.flag.toList ∧ t.flag.toList.head? ≠ some '-' := by
  cases t with
  | warning w on => cases w <;> cases on <;> decide
  | feature f on => cases f <;> cases on <;> decide

theorem applySwitch?_flag (c : Settings) (t : Turn) : c.applySwitch? ("-" ++ t.flag) = some (t.apply c) := by
  cases t with
  | warning w on => cases w <;> cases on <;> rfl
  | feature f on => cases f <;> cases on <;> rfl

theorem warnings_apply (t : Turn) (c : Settings) (w : Warning) : (t.apply c).warnings w =
    if t = warning w false then false else if t = warning w true then true else c.warnings w := by
  cases t with
  | warning w' on =>
    change (if w = w' then on else c.warnings w) = _
    cases on <;> grind
  | feature => simp [apply, setFeature]

theorem features_apply (t : Turn) (c : Settings) (f : Feature) : (t.apply c).features f =
    if t = feature f false then false else if t = feature f true then true else c.features f := by
  cases t with
  | warning => simp [apply, setWarning]
  | feature f' on =>
    change (if f = f' then on else c.features f) = _
    cases on <;> grind

/-- All turns. -/
def all : List Turn :=
  Warning.all.flatMap (fun w => [warning w true, warning w false]) ++
    Feature.all.flatMap fun f => [feature f true, feature f false]

theorem flag_inj {t t' : Turn} (same : t.flag = t'.flag) : t = t' := by
  have found (t : Turn) : all.find? (·.flag == t.flag) = some t := by
    cases t with
    | warning w on => cases w <;> cases on <;> rfl
    | feature f on => cases f <;> cases on <;> rfl
  exact Option.some.inj ((found t).symm.trans (same ▸ found t'))

end Turn

/-- What turns make of a switch that is turned on by one and off by another. -/
def pick (ts : List Turn) (turn : Bool → Turn) (before : Bool) : Bool :=
  if turn false ∈ ts then false else if turn true ∈ ts then true else before

/-- Settings with switches turned, none of them both ways. -/
def turned (c : Settings) (ts : List Turn) : Settings :=
  { c with
    warnings := fun w => pick ts (.warning w) (c.warnings w)
    features := fun f => pick ts (.feature f) (c.features f) }

variable {c : Settings} {ts ts' : List Turn}

theorem pick_cons {turn : Bool → Turn} (two : ∀ on, (turn on).opposite = turn !on)
    (single : t.opposite ∉ ts)
    (set : now = if t = turn false then false else if t = turn true then true else before) :
    pick ts turn now = pick (t :: ts) turn before := by
  unfold pick
  grind

/-- Turns one after the other, none of them opposite to another. -/
theorem foldl_apply (clear : ∀ t ∈ ts, t.opposite ∉ ts) : ts.foldl Turn.apply c = c.turned ts := by
  induction ts generalizing c with
  | nil => rfl
  | cons t ts ih =>
    have later : ∀ t ∈ ts, t.opposite ∉ ts := fun t member against =>
      clear t (mem_cons_of_mem _ member) (mem_cons_of_mem _ against)
    rw [foldl_cons, ih later]
    have single : t.opposite ∉ ts := fun against => clear t mem_cons_self (mem_cons_of_mem _ against)
    have warnings (w : Warning) : pick ts (.warning w) ((t.apply c).warnings w) =
        pick (t :: ts) (.warning w) (c.warnings w) := by
      exact pick_cons (fun _ => rfl) single (t.warnings_apply c w)
    have features (f : Feature) : pick ts (.feature f) ((t.apply c).features f) =
        pick (t :: ts) (.feature f) (c.features f) := by
      exact pick_cons (fun _ => rfl) single (t.features_apply c f)
    unfold turned
    simp only [warnings, features]
    cases t <;> rfl

theorem foldlM_applySwitch? (c : Settings) (ts : List Turn) :
    (ts.map fun t => "-" ++ t.flag).foldlM applySwitch? c = some (ts.foldl Turn.apply c) := by
  induction ts generalizing c with
  | nil => rfl
  | cons t ts ih => simp [Turn.applySwitch?_flag, ih]

/-! ## Parsing switches -/

/-- A set of flags that knows every switch, none of them given. -/
def Ready (fs : FlagSet) : Prop := ∀ t : Turn, fs.value? t.flag = some (.truth false)

theorem ready_addGroups (done : c.addGroups fs = (fs', none)) : Ready fs' := by
  rw [addGroups] at done
  split at done
  · cases done
  next middle first =>
    have kept {name : String} {v : FlagValue} (before : middle.value? name = some v) : fs'.value? name = some v := by
      obtain ⟨f, found, rfl⟩ := Option.map_eq_some_iff.mp before
      rw [value?, (gains_addGroup done).1 name f found]
      rfl
    rintro (⟨w, _ | _⟩ | ⟨f, _ | _⟩)
    · exact kept (value?_addGroup first (mem_map.mpr ⟨w, by cases w <;> decide, rfl⟩)).2
    · exact kept (value?_addGroup first (mem_map.mpr ⟨w, by cases w <;> decide, rfl⟩)).1
    · exact (value?_addGroup done (mem_map.mpr ⟨f, by cases f <;> decide, rfl⟩)).2
    · exact (value?_addGroup done (mem_map.mpr ⟨f, by cases f <;> decide, rfl⟩)).1

/-- The step and the run: every switch that is spelled is taken. -/
theorem parseFrom_turns (known : ∀ t : Turn, fs.kind? t.flag = some true) (ts : List Turn) :
    ∃ fs', FlagSet.Taken fs (ts.map fun t => .setting t.flag "") fs' ∧
      fs.parseFrom (ts.map fun t => "-" ++ t.flag) = (fs', none) := by
  induction ts generalizing fs with
  | nil => exact ⟨fs, .refl, rfl⟩
  | cons t ts ih =>
    obtain ⟨filled, noEquals, head⟩ := t.flag_spelled
    obtain ⟨f, found, truth⟩ := kind?_eq_some.mp (known t)
    have cut : cutEquals t.flag.toList = (t.flag.toList, none) := by
      simpa [cutEquals] using cutEquals_append noEquals []
    have read := read_dashed (.inr ⟨rfl, head⟩) filled cut found
    rw [Option.elim_none, if_pos truth] at read
    obtain ⟨next, taken, step⟩ := takes_setting (known t) (fun _ => .inl rfl) read
    obtain ⟨last, takenAll, run⟩ := ih fun t => (congrFun taken.kind? t.flag).trans (known t)
    exact ⟨last, taken.trans takenAll, (step _).trans run⟩

/-- The flag of a turn is set each time that it is made. -/
theorem settings_turns (ts : List Turn) (t : Turn) :
    (ts.map fun t => FlagSet.Item.setting t.flag "").flatMap (·.settings t.flag) = List.replicate (ts.count t) "" := by
  induction ts with
  | nil => rfl
  | cons t' ts ih =>
    rw [map_cons, flatMap_cons, ih, FlagSet.Item.settings, count_cons]
    by_cases same : t' = t
    · simp [same, replicate_succ]
    · simp [same, mt Turn.flag_inj same]

theorem isOn_taken (ready : Ready fs)
    (taken : FlagSet.Taken fs (ts.map fun t => .setting t.flag "") fs') (t : Turn) :
    fs'.isOn t.flag = decide (t ∈ ts) := by
  rw [isOn, taken.value, ready t, settings_turns]
  by_cases given : t ∈ ts
  · have made : ts.count t ≠ 0 := Nat.ne_of_gt (count_pos_iff.mpr given)
    simp [FlagValue.after, getLast?_replicate, given, made]
  · simp [FlagValue.after, given, count_eq_zero_of_not_mem]

/-- Switches that are turned one after the other, in any order, and flags that are parsed and then applied come to
the same settings, if none is turned both ways. -/
theorem applySwitch?_eq_applyGroups {fs ready : FlagSet} (prepared : c.addGroups fs = (ready, none))
    (clear : ∀ t ∈ ts, t.opposite ∉ ts) (order : ts'.Perm ts) :
    ∃ parsed, ready.parse (ts.map fun t => "-" ++ t.flag) = (parsed, none) ∧
      (ts'.map fun t => "-" ++ t.flag).foldlM applySwitch? c = some (c.applyGroups parsed) := by
  have known := ready_addGroups prepared
  have ready : Ready { ready with args := [] } := known
  have known (t : Turn) : kind? _ t.flag = some true := congrArg (Option.map FlagValue.isTruth) (ready t)
  obtain ⟨parsed, taken, run⟩ := parseFrom_turns known ts
  have clear' : ∀ t ∈ ts', t.opposite ∉ ts' := fun t member against =>
    clear t (order.mem_iff.mp member) (order.mem_iff.mp against)
  have same (lead name : String) (turn : Bool → Turn) (off : (turn false).flag = lead ++ "no-" ++ name)
      (on : (turn true).flag = lead ++ name) (before : Bool) : switched parsed lead name before = pick ts' turn before := by
    rw [switched, ← off, ← on, isOn_taken ready taken, isOn_taken ready taken]
    simp [pick, order.mem_iff]
  refine ⟨parsed, run, ?_⟩
  rw [foldlM_applySwitch?, foldl_apply clear', applyGroups, turned]
  simp only [same "W" _ (.warning _) rfl rfl, same "F" _ (.feature _) rfl rfl]

theorem applySwitch?_eq_applyGroups_three : ∃ ready parsed, ({} : Settings).addGroups {} = (ready, none) ∧
    ready.parse ["-Wunused", "-Fno-neg-expr", "-Wno-shadow"] = (parsed, none) ∧
    ["-Wno-shadow", "-Wunused", "-Fno-neg-expr"].foldlM applySwitch? {} = some (applyGroups {} parsed) := by
  have prepared : ({} : Settings).addGroups {} = ((({} : Settings).addGroups {}).1, none) := rfl
  let shadow : Turn := .warning .shadow false
  let others : List Turn := [.warning .unused true, .feature .negExpr false]
  have clear : ∀ t ∈ others ++ [shadow], t.opposite ∉ others ++ [shadow] := by decide
  obtain ⟨parsed, run, same⟩ := applySwitch?_eq_applyGroups prepared clear (perm_append_singleton shadow others).symm
  exact ⟨_, parsed, prepared, run, same⟩

end Settings
end MiniPascal
