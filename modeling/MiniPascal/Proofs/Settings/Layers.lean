import Mathlib.Data.List.Sort
import Mathlib.Data.String.Basic
import MiniPascal.Command.Run
import MiniPascal.Proofs.Lower.Acceptance

/-!
# Layers of settings

Defaults, project file and command line are laid over one another. `ProjectFile.Visited` is a project file whose
tables are gone through in some order: what comes of it does not depend on the order, because a table names a switch
once (`layer_apply`). `configure_layers` says for every setting which layer it comes from, and what is said about the
names that a project file should not have.
-/

open List

namespace MiniPascal

/-! ## Names of switches -/

theorem Feature.ofName?_eq_some (s : String) (f : Feature) : ofName? s = some f ↔ f.name = s := by
  constructor
  · intro found
    simpa using find?_some found
  · rintro rfl
    cases f <;> rfl

theorem Warning.ofName?_eq_some (s : String) (w : Warning) : ofName? s = some w ↔ w.name = s := by
  constructor
  · intro found
    simpa using find?_some found
  · rintro rfl
    cases w <;> rfl

/-! ## Tables of switches -/

namespace Settings

section

variable {α : Type} {name : α → String} {ofName? : String → Option α} {entries entries' : List (String × Bool)}

/-- An entry that names a switch turns it, and no other. -/
theorem layer_apply [DecidableEq α] (named : ∀ s a, ofName? s = some a ↔ name a = s) (distinct : (entries.map Prod.fst).Nodup)
    (s : Switches α) (a : α) : layer ofName? s entries a = (entries.lookup (name a)).getD (s a) := by
  induction entries generalizing s with
  | nil => rfl
  | cons e rest ih =>
    obtain ⟨new, later⟩ := nodup_cons.mp distinct
    rw [layer, foldl_cons, ← layer, ih later, lookup_cons]
    by_cases this : name a = e.1
    · rw [lookup_eq_none_iff.mpr (this ▸ new), (named _ _).mpr this]
      simp [this]
    · rw [beq_eq_false_iff_ne.mpr this]
      cases found : ofName? e.1 with
      | none => rfl
      | some b =>
        have other : a ≠ b := by
          rintro rfl
          exact this ((named _ _).mp found)
        exact congrArg _ (Switches.set_of_ne s _ other)

theorem lookup_perm (distinct : (entries.map Prod.fst).Nodup) (perm : entries'.Perm entries) (n : String) :
    entries'.lookup n = entries.lookup n := by
  have distinct' := (perm.map Prod.fst).nodup_iff.mpr distinct
  ext b
  constructor
  · intro found
    exact Table.lookup_eq_some_of_mem distinct (perm.mem_iff.mp (Table.mem_of_lookup found))
  · intro found
    exact Table.lookup_eq_some_of_mem distinct' (perm.mem_iff.mpr (Table.mem_of_lookup found))

theorem layer_perm [DecidableEq α] (named : ∀ s a, ofName? s = some a ↔ name a = s)
    (distinct : (entries.map Prod.fst).Nodup) (perm : entries'.Perm entries) (s : Switches α) :
    layer ofName? s entries' = layer ofName? s entries := by
  funext a
  rw [layer_apply named distinct, layer_apply named ((perm.map Prod.fst).nodup_iff.mpr distinct),
    lookup_perm distinct perm]

theorem unknownNames_ne_nil (named : ∀ s a, ofName? s = some a ↔ name a = s) (family : String)
 (member : e ∈ entries) (unknown : ∀ a, name a ≠ e.1) :
    unknownNames family ofName? entries ≠ [] := by
  have none : ofName? e.1 = none := Option.eq_none_iff_forall_ne_some.mpr fun a found =>
    unknown a ((named _ _).mp found)
  exact ne_nil_of_mem (mem_map.mpr ⟨e, mem_filter.mpr ⟨member, by simp [none]⟩, rfl⟩)

end

end Settings

/-! ## Project files -/

namespace ProjectFile

/-- A table names no switch twice. -/
def Distinct (p : ProjectFile) : Prop :=
  ((p.warnings.getD []).map Prod.fst).Nodup ∧ ((p.features.getD []).map Prod.fst).Nodup

/-- What a project file says about a warning. -/
def warning? (p : ProjectFile) (w : Warning) : Option Bool := (p.warnings.getD []).lookup w.name

/-- What a project file says about a feature. -/
def feature? (p : ProjectFile) (f : Feature) : Option Bool := (p.features.getD []).lookup f.name

/-- The entries of a project file that name no switch, each with the word for its family. -/
def unknown (p : ProjectFile) : List String :=
  Settings.unknownNames "warning" Warning.ofName? (p.warnings.getD []) ++
    Settings.unknownNames "feature" Feature.ofName? (p.features.getD [])

/-- A project file whose tables are gone through in another order. -/
structure Visited (p p' : ProjectFile) : Prop where
  texts : p'.dialect = p.dialect ∧ p'.backend = p.backend ∧ p'.output = p.output ∧ p'.target = p.target
  warnings : (p'.warnings.getD []).Perm (p.warnings.getD [])
  features : (p'.features.getD []).Perm (p.features.getD [])

theorem ok_of_bind {ε α β : Type} {r : Except ε α} {f : α → Except ε β} {b : β} (done : r >>= f = .ok b) :
    ∃ a, r = .ok a ∧ f a = .ok b := by
  cases r with
  | error => cases done
  | ok a => exact ⟨a, rfl, done⟩

/-- Folding steps that keep a property keeps it. -/
theorem foldlM_keeps {ε α β : Type} {P : β → Prop} {f : β → α → Except ε β}
    (step : ∀ b a b', P b → f b a = .ok b' → P b') {as : List α} {b b' : β} (start : P b)
    (done : as.foldlM f b = .ok b') : P b' := by
  induction as generalizing b with
  | nil =>
    cases done
    exact start
  | cons a as ih =>
    obtain ⟨c, next, rest⟩ := ok_of_bind done
    exact ih (step b a c start next) rest

theorem distinct_readSwitches
    (done : readSwitches field n = .ok es) : (es.map Prod.fst).Nodup := by
  cases n with
  | value | tables => cases done
  | table t =>
    obtain ⟨s, read, ⟨⟩⟩ := ok_of_bind done
    refine foldlM_keeps (P := Table.Unique) (fun s e s' unique done => ?_) Table.unique_empty read
    obtain ⟨on, -, ⟨⟩⟩ := ok_of_bind done
    exact unique.insert e.1 on

variable {p p' : ProjectFile}

theorem distinct_readField (f : String × Toml.Node) (distinct : p.Distinct) (done : readField p f = .ok p') :
    p'.Distinct := by
  unfold readField at done
  split at done
  case h_5 =>
    obtain ⟨es, read, ⟨⟩⟩ := ok_of_bind done
    exact ⟨distinct_readSwitches read, distinct.2⟩
  case h_6 =>
    obtain ⟨es, read, ⟨⟩⟩ := ok_of_bind done
    exact ⟨distinct.1, distinct_readSwitches read⟩
  case h_7 => cases done
  all_goals
    obtain ⟨text, -, ⟨⟩⟩ := ok_of_bind done
    exact distinct

theorem distinct_empty : Distinct {} := ⟨nodup_nil, nodup_nil⟩

/-- A project file that was read names no switch twice. -/
theorem distinct_of_read (done : read source = .ok p) : p.Distinct := by
  unfold read at done
  split at done
  · cases done
  · exact foldlM_keeps (fun _ f _ => distinct_readField f) distinct_empty done

theorem Visited.unknown (same : p.Visited p') : p'.unknown.Perm p.unknown :=
  ((same.warnings.filter _).map _).append ((same.features.filter _).map _)

theorem Visited.unknown_eq_nil (same : p.Visited p') : p'.unknown = [] ↔ p.unknown = [] := by
  rw [← length_eq_zero_iff, ← length_eq_zero_iff, same.unknown.length_eq]

/-- The names that a project file should not have, in order. -/
def complaints (p : ProjectFile) : List String := p.unknown.mergeSort (· ≤ ·)

theorem Visited.complaints (same : p.Visited p') : p'.complaints = p.complaints := by
  have perm := (mergeSort_perm p'.unknown (· ≤ ·)).trans (same.unknown.trans (mergeSort_perm _ (· ≤ ·)).symm)
  exact perm.eq_of_pairwise' (pairwise_mergeSort' (· ≤ ·) _) (pairwise_mergeSort' (· ≤ ·) _)

end ProjectFile

namespace Settings

variable {p p' : ProjectFile}

theorem applySwitches_eq (c : Settings) (p : ProjectFile) : c.applySwitches p =
      ({ c with
          warnings := layer Warning.ofName? c.warnings (p.warnings.getD [])
          features := layer Feature.ofName? c.features (p.features.getD []) },
        if p.unknown = [] then none else some (.unknownSwitches p.complaints)) := by
  unfold applySwitches
  simp only [List.isEmpty_iff]
  rfl

/-- The order in which tables are gone through does not matter. -/
theorem applyFile_visited (distinct : p.Distinct) (same : p.Visited p') (c : Settings) :
    c.applyFile p' = c.applyFile p := by
  have switches (c : Settings) : c.applySwitches p' = c.applySwitches p := by
    rw [applySwitches_eq, applySwitches_eq, layer_perm Warning.ofName?_eq_some distinct.1 same.warnings,
      layer_perm Feature.ofName?_eq_some distinct.2 same.features, same.complaints]
    simp only [same.unknown_eq_nil]
  obtain ⟨dialect, backend, output, target⟩ := same.texts
  simp only [applyFile, dialect, backend, output, target, switches]

/-! ## Texts -/

/-- The upper of two texts, or the lower one where that is empty. -/
def atop (upper lower : String) : String := if upper.isEmpty then lower else upper

theorem atop_assoc (x y z : String) : atop (atop x y) z = atop x (atop y z) := by
  unfold atop
  split
  · rfl
  · simp

theorem chooseDialect_eq (c : Settings) (name : String) : c.chooseDialect name =
    if name ∈ ["", "mila", "ext"] then
      .ok { c with
        features := fun f => ((dialectFeatures? name).map (· f)).getD (c.features f)
        dialect := atop name c.dialect }
    else .error (.unknownDialect name) := by
  by_cases known : name ∈ ["", "mila", "ext"]
  · rw [if_pos known]
    simp only [mem_cons, not_mem_nil, or_false] at known
    rcases known with rfl | rfl | rfl <;> rfl
  · rw [if_neg known]
    simp only [mem_cons, not_mem_nil, or_false, not_or] at known
    simp [chooseDialect, setDialect, dialectFeatures?, known]

theorem chooseBackend_eq (c : Settings) (name : String) :
    c.chooseBackend name = if name ∈ ["", "qbe", "llvm"] then .ok { c with backend := atop name c.backend }
      else .error (.unknownBackend name) := by
  by_cases empty : name = ""
  · subst empty
    rfl
  · simp [chooseBackend, setBackend, atop, empty]

theorem chooseOutput_eq (c : Settings) (path : String) :
    c.chooseOutput path = { c with output := atop path c.output } := by
  unfold chooseOutput atop
  split <;> rfl

theorem choose_target (c : Settings) (target : String) :
    (if target.isEmpty then c else { c with target }) = { c with target := atop target c.target } := by
  unfold atop
  split <;> rfl

/-- A project file is applied without complaint, or its complaint is about a dialect or backend that there is
not, or about the names that it should not have. -/
theorem applyFile_cases (distinct : p.Distinct) (c : Settings) :
    (p.dialect ∈ ["", "mila", "ext"] ∧ p.backend ∈ ["", "qbe", "llvm"] ∧ c.applyFile p =
      ({ c with
          warnings := fun w => (p.warning? w).getD (c.warnings w)
          features := fun f => (p.feature? f).getD (((dialectFeatures? p.dialect).map (· f)).getD (c.features f))
          dialect := atop p.dialect c.dialect
          backend := atop p.backend c.backend
          output := atop p.output c.output
          target := atop p.target c.target },
        if p.unknown = [] then none else some (.unknownSwitches p.complaints))) ∨
    ¬ (p.dialect ∈ ["", "mila", "ext"] ∧ p.backend ∈ ["", "qbe", "llvm"]) ∧ (c.applyFile p).2 ≠ none := by
  rw [applyFile, chooseDialect_eq]
  by_cases dialect : p.dialect ∈ ["", "mila", "ext"]
  · rw [if_pos dialect]
    dsimp only
    rw [chooseBackend_eq]
    by_cases backend : p.backend ∈ ["", "qbe", "llvm"]
    · rw [if_pos backend]
      dsimp only
      rw [chooseOutput_eq, choose_target, applySwitches_eq, funext (layer_apply Warning.ofName?_eq_some distinct.1 _),
        funext (layer_apply Feature.ofName?_eq_some distinct.2 _)]
      exact .inl ⟨dialect, backend, rfl⟩
    · rw [if_neg backend]
      exact .inr ⟨fun known => backend known.2, nofun⟩
  · rw [if_neg dialect]
    exact .inr ⟨fun known => dialect known.1, nofun⟩

end Settings

namespace Command

open Settings (atop dialectFeatures?)

variable {w : World} {o : Options} {c : Settings} {p : ProjectFile}

/-- What comes of the options, laid over settings. -/
theorem Options.override_ok (done : o.override c = .ok d) :
    d = { c with
      warnings := fun x =>
        if o.switches.isOn ("Wno-" ++ x.name) then false
        else if o.switches.isOn ("W" ++ x.name) || o.allWarnings then true else c.warnings x
      features := fun f =>
        if o.switches.isOn ("Fno-" ++ f.name) then false
        else if o.switches.isOn ("F" ++ f.name) then true
        else ((dialectFeatures? o.dialect).map (· f)).getD (c.features f)
      dialect := atop o.dialect c.dialect
      backend := atop o.backend c.backend
      output := atop o.output c.output } := by
  obtain ⟨c₁, first, rest⟩ := ProjectFile.ok_of_bind done
  obtain ⟨c₂, second, ⟨⟩⟩ := ProjectFile.ok_of_bind rest
  rw [Settings.chooseDialect_eq] at first
  split at first <;> cases first
  rw [Settings.chooseBackend_eq] at second
  split at second <;> cases second
  rw [Settings.chooseOutput_eq]
  cases o.allWarnings
  · simp only [Bool.false_eq_true, if_false, Bool.or_false]
    rfl
  · simp [Settings.applyGroups, Settings.setAllWarnings, Settings.switched]

/-- The text of the project file of a run: what is found where the options say, or nothing. -/
def Loads (w : World) (o : Options) (source : String) : Prop :=
  if o.config.isEmpty then source = "" else w.read o.config = .ok source

theorem configure_ok (decoded : ProjectFile.read source = .ok p) (loads : Loads w o source)
    (done : (configure w o).1 = .ok c) :
    ∃ d e, ({ verbose := o.verbose } : Settings).applyFile p = (d, none) ∧ o.override d = .ok e ∧
      (e.setTarget w.system w.arch (o.chosenTarget e)).1 = c := by
  unfold Loads at loads
  unfold configure at done
  split at loads
  next empty =>
    subst loads
    cases decoded.symm.trans (rfl : ProjectFile.read "" = .ok {})
    simp only [if_pos empty] at done
    split at done
    next => cases done
    next e override => exact ⟨_, e, rfl, override, Except.ok.inj done⟩
  next named =>
    rw [if_neg named, loads] at done
    simp only [Settings.load, decoded] at done
    cases applied : ({ verbose := o.verbose } : Settings).applyFile p with
    | mk d error =>
      rw [applied] at done
      cases error with
      | some => cases done
      | none =>
        dsimp only [Option.map_none] at done
        split at done
        next => cases done
        next e override => exact ⟨d, e, rfl, override, Except.ok.inj done⟩

/-- Where each setting of a run comes from, in whatever order the tables of the project file are gone through; and
all names that a table should not have are listed in one complaint, in order. -/
theorem configure_layers {source : String} {p : ProjectFile} (decoded : ProjectFile.read source = .ok p) :
    (∀ p', p.Visited p' → ∀ c : Settings, c.applyFile p' = c.applyFile p) ∧
    (∀ (w : World) (o : Options) (c : Settings), Loads w o source → (configure w o).1 = .ok c →
      (∀ f : Feature, c.features f =
        if o.switches.isOn ("Fno-" ++ f.name) then false
        else if o.switches.isOn ("F" ++ f.name) then true
        else ((dialectFeatures? o.dialect).map (· f)).getD
          ((p.feature? f).getD (((dialectFeatures? p.dialect).map (· f)).getD (({} : Settings).features f)))) ∧
      (∀ x : Warning, c.warnings x =
        if o.switches.isOn ("Wno-" ++ x.name) then false
        else if o.switches.isOn ("W" ++ x.name) || o.allWarnings then true
        else (p.warning? x).getD (({} : Settings).warnings x)) ∧
      c.backend = atop o.backend (atop p.backend ({} : Settings).backend) ∧
      c.output = atop o.output (atop p.output ({} : Settings).output) ∧
      c.target = atop o.target (atop p.target (Settings.hostTarget w.system w.arch))) ∧
    (p.dialect ∈ ["", "mila", "ext"] → p.backend ∈ ["", "qbe", "llvm"] →
      ((∃ e ∈ p.warnings.getD [], ∀ x : Warning, x.name ≠ e.1) ∨
        ∃ e ∈ p.features.getD [], ∀ f : Feature, f.name ≠ e.1) →
      ∃ names : List String, names.Perm p.unknown ∧ names.Pairwise (· ≤ ·) ∧ ∀ c : Settings,
        (c.applyFile p).2.map SettingError.message = some ("unknown " ++ ", ".intercalate names)) := by
  have distinct := ProjectFile.distinct_of_read decoded
  refine ⟨fun p' same c => Settings.applyFile_visited distinct same c, fun w o c loads done => ?_,
    fun dialect backend found => ?_⟩
  · obtain ⟨d, e, applied, override, rfl⟩ := configure_ok decoded loads done
    rcases Settings.applyFile_cases distinct { verbose := o.verbose } with ⟨-, -, settled⟩ | ⟨-, refused⟩
    · obtain rfl := (congrArg Prod.fst (settled.symm.trans applied) : _ = d)
      obtain rfl := Options.override_ok override
      refine ⟨fun f => rfl, fun x => rfl, rfl, rfl, ?_⟩
      -- An empty text is below every other.
      change atop (atop o.target (atop p.target "")) _ = _
      rw [Settings.atop_assoc, Settings.atop_assoc]
      rfl
    · exact absurd (congrArg Prod.snd applied) refused
  · refine ⟨p.complaints, mergeSort_perm _ _, pairwise_mergeSort' (· ≤ ·) _, fun c => ?_⟩
    have unknown : p.unknown ≠ [] := by
      rw [ProjectFile.unknown, Ne, append_eq_nil_iff, not_and_or]
      refine found.imp ?_ ?_
      · rintro ⟨e, member, unknown⟩
        exact Settings.unknownNames_ne_nil Warning.ofName?_eq_some _ member unknown
      · rintro ⟨e, member, unknown⟩
        exact Settings.unknownNames_ne_nil Feature.ofName?_eq_some _ member unknown
    rcases Settings.applyFile_cases distinct c with ⟨-, -, settled⟩ | ⟨refused, -⟩
    · rw [settled, if_neg unknown]
      rfl
    · exact absurd ⟨dialect, backend⟩ refused

/-- A project file that turns one feature of the strict dialect on, and one with two names that it should not
have. -/
theorem configure_layers_strict : (∃ w o source p c, ProjectFile.read source = .ok p ∧ Loads w o source ∧
      (configure w o).1 = .ok c ∧ p.dialect = "mila" ∧
      (∀ p', p.Visited p' → ∀ c : Settings, c.applyFile p' = c.applyFile p) ∧
      c.features .caseFold = true ∧ c.features .braceComments = false ∧ c.target = "rv64") ∧
    ∃ source p names, ProjectFile.read source = .ok p ∧ names.Perm ["warning 'zeal'", "warning 'alarm'"] ∧
      names.Pairwise (· ≤ ·) ∧ ∀ c : Settings,
        (c.applyFile p).2.map SettingError.message = some ("unknown " ++ ", ".intercalate names) := by
  constructor
  · let source := "std = \"mila\"\n[features]\ncase-fold = true\n"
    let w : World :=
      { read := fun _ => .ok source, tool? := fun _ => none, tempFile := id, system := "linux", arch := "riscv64" }
    let o : Options := { config := "pasc.toml" }
    have file : (ProjectFile.read source).toOption.map (fun p => (p.dialect, p.target, p.features)) =
      some ("mila", "", some [("case-fold", true)]) := by decide +kernel
    have succeeds : (configure w o).1.toOption.isSome = true := by decide +kernel
    obtain ⟨p, read, fields⟩ := Option.map_eq_some_iff.mp file
    obtain ⟨c, done⟩ := Option.isSome_iff_exists.mp succeeds
    simp only [Prod.mk.injEq] at fields
    obtain ⟨any, settled, -⟩ := configure_layers (Lower.eq_ok_of_toOption read)
    obtain ⟨features, -, -, -, target⟩ := settled w o c rfl (Lower.eq_ok_of_toOption done)
    simp only [ProjectFile.feature?, fields] at features target
    exact ⟨w, o, source, p, c, Lower.eq_ok_of_toOption read, rfl, Lower.eq_ok_of_toOption done, fields.1, any,
      features .caseFold, features .braceComments, target⟩
  · let source := "[warnings]\nalarm = true\nunused = true\nzeal = true\n"
    have file : (ProjectFile.read source).toOption.map (fun p => (p.dialect ++ p.backend, p.warnings, p.unknown)) =
      some ("", some [("zeal", true), ("unused", true), ("alarm", true)], ["warning 'zeal'", "warning 'alarm'"]) := by
      decide +kernel
    obtain ⟨p, read, fields⟩ := Option.map_eq_some_iff.mp file
    simp only [Prod.mk.injEq, String.append_eq_empty_iff] at fields
    obtain ⟨-, -, complains⟩ := configure_layers (Lower.eq_ok_of_toOption read)
    simp only [fields] at complains
    obtain ⟨names, complaint⟩ := complains (by decide) (by decide)
      (.inl ⟨("zeal", true), by simp, fun x => by cases x <;> decide⟩)
    exact ⟨source, p, names, Lower.eq_ok_of_toOption read, complaint⟩

end Command
end MiniPascal
