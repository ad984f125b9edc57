import MiniPascal.Flag.Parse
import Mathlib.Data.List.Forall2

/-!
# Spelling a command line

`Spells` says which words a setting or an argument may be written as. One step of the parser takes the words of
one item, whatever stands behind them (`Spells.takes`), and `parse_spelled` is the run: a command line is read
back item by item. `parse_attached` says when a text directly behind a shorthand means the same as the text
behind an equals sign: always, unless the flag holds a truth value, where the text is dropped.
-/

open List

namespace MiniPascal

open FlagValue

/-! ## Settings -/

namespace FlagValue

/-- Whether a value takes a setting: a truth value has to be spelled, or left out. -/
def Accepts (isTruth : Bool) (s : String) : Prop := isTruth = true → s = "" ∨ (parseTruth? s).isSome

/-- What settings make of a value: the last text, the last truth value, or all texts in their order. -/
def after (v : FlagValue) (settings : List String) : FlagValue :=
  match v with
  | text s => text (settings.getLastD s)
  | truth b => truth ((settings.getLast?.map fun s => s.isEmpty || parseTruth? s == some true).getD b)
  | list values => list (values ++ settings)

variable {v : FlagValue} {s : String}

theorem accepts_false : Accepts false s := fun h => absurd h (by decide)

@[simp] theorem after_nil : v.after [] = v := by
  cases v <;> simp [after]

theorem after_append (xs ys : List String) : v.after (xs ++ ys) = (v.after xs).after ys := by
  cases v <;> simp [after, getLast?_append]
  cases ys.getLast? <;> simp

@[simp] theorem isTruth_after (settings : List String) : (v.after settings).isTruth = v.isTruth := by
  cases v <;> rfl

theorem update_eq (accepted : Accepts v.isTruth s) : v.update s = .ok (v.after [s]) := by
  cases v with
  | text | list => rfl
  | truth b =>
    rw [update]
    split
    next empty => simp [after, empty]
    next filled =>
      have spelled := (accepted rfl).resolve_left (by simpa using filled)
      obtain ⟨b', read⟩ := Option.isSome_iff_exists.mp spelled
      cases b' <;> simp [after, read, filled]

end FlagValue

namespace FlagSet

variable {fs fs' : FlagSet} {f : Flag}

/-- Whether a long name stands for a truth value, if it is registered. -/
def kind? (fs : FlagSet) (name : String) : Option Bool := (fs.value? name).map (·.isTruth)

variable {name s arg n v : String}

theorem name_of_find? (found : fs.find? name = some f) : f.name = name := by
  simpa using find?_some found

theorem kind?_eq_some {isTruth : Bool} :
    fs.kind? name = some isTruth ↔ ∃ f, fs.find? name = some f ∧ f.value.isTruth = isTruth := by
  simp [kind?, value?]

theorem kind?_eq_none : fs.kind? name = none ↔ fs.find? name = none := by
  simp [kind?, value?]

/-! ## Items -/

/-- One thing that a command line says. -/
inductive Item where
  | setting (name value : String)
  | positional (arg : String)

namespace Item

/-- What an item sets a flag to. -/
def settings (name : String) : Item → List String
  | setting n value => if n = name then [value] else []
  | positional _ => []

/-- The arguments of an item. -/
def positionals : Item → List String
  | setting .. => []
  | positional arg => [arg]

end Item

/-- What is left of a set of flags after items: each flag has its settings, and the arguments are kept in order. -/
structure Taken (fs : FlagSet) (items : List Item) (fs' : FlagSet) : Prop where
  value : ∀ name, fs'.value? name = (fs.value? name).map (·.after (items.flatMap (·.settings name)))
  args : fs'.args = fs.args ++ items.flatMap Item.positionals
  shorthands : fs'.shorthands = fs.shorthands

namespace Taken

theorem refl : Taken fs [] fs where
  value name := by simp
  args := by simp
  shorthands := rfl

theorem trans (first : Taken fs xs fs') (second : Taken fs' ys fs'') :
    Taken fs (xs ++ ys) fs'' where
  value name := by
    simp [second.value, first.value, after_append, Function.comp_def]
  args := by simp [second.args, first.args]
  shorthands := second.shorthands.trans first.shorthands

theorem kind? (taken : Taken fs items fs') : fs'.kind? = fs.kind? := by
  funext name
  simp [FlagSet.kind?, taken.value, Function.comp_def]

theorem positional (arg : String) : Taken fs [.positional arg] { fs with args := fs.args ++ [arg] } where
  value name := by simp [Item.settings]; rfl
  args := rfl
  shorthands := rfl

end Taken

/-- A set of flags with another value of one. -/
def put (fs : FlagSet) (name : String) (v : FlagValue) : FlagSet :=
  { fs with flags := fs.flags.map fun g => if g.name == name then { g with value := v } else g }

theorem set_eq (found : fs.find? f.name = some f) (s : String) :
    fs.set f.name s = (f.value.update s).map (fs.put f.name) := by
  rw [set, found]
  dsimp only
  cases f.value.update s <;> rfl

theorem value?_put (name other : String) (v : FlagValue) :
    (fs.put name v).value? other = (fs.value? other).map fun old => if other = name then v else old := by
  have kept (g : Flag) : (if g.name == name then { g with value := v } else g).name = g.name := by
    split <;> rfl
  have found : (fs.put name v).find? other =
      (fs.find? other).map fun g => if g.name == name then { g with value := v } else g := by
    rw [find?, put, find?_map]
    simp only [Function.comp_def, kept]
    rfl
  rw [value?, value?, found]
  cases there : fs.find? other with
  | none => rfl
  | some g =>
    rw [← name_of_find? there]
    by_cases same : g.name = name <;> simp [same]

theorem taken_put (found : fs.find? f.name = some f) (s : String) :
    Taken fs [.setting f.name s] (fs.put f.name (f.value.after [s])) where
  value other := by
    rw [value?_put]
    by_cases same : other = f.name
    · simp [same, value?, found, Item.settings]
    · simp [same, Ne.symm same, Item.settings]
  args := by simp [put, Item.positionals]
  shorthands := rfl

/-! ## Words -/

theorem cutEquals_fst (cs : List Char) : (cutEquals cs).1 = cs.takeWhile (· ≠ '=') := by
  induction cs with
  | nil => rfl
  | cons c cs ih =>
    rw [cutEquals]
    by_cases equals : c = '='
    · simp [equals]
    · simp [equals, ih]

/-- A text up to its first equals sign. -/
def upToEquals (t : String) : String := String.ofList (t.toList.takeWhile (· ≠ '='))

theorem cutEquals_append {name : List Char} (noEquals : '=' ∉ name) (rest : List Char) :
    cutEquals (name ++ rest) = (name ++ (cutEquals rest).1, (cutEquals rest).2) := by
  induction name with
  | nil => rfl
  | cons c cs ih =>
    rw [mem_cons, not_or] at noEquals
    rw [cons_append, cutEquals, if_neg (Ne.symm noEquals.1), ih noEquals.2]
    rfl

/-- Two dashes stand before any text, and one before a text that starts with none. -/
def Dashes (dashes body : String) : Prop :=
  dashes = "--" ∨ dashes = "-" ∧ body.toList.head? ≠ some '-'

/-- A word with the long name of a flag. -/
theorem read_dashed (dashed : Dashes dashes body)
    (filled : body ≠ "") (cut : cutEquals body.toList = (name.toList, value)) (found : fs.find? name = some f) :
    fs.read (dashes ++ body) = value.elim (if f.value.isTruth then .setting name "" else .pending name (dashes ++ body))
        fun v => .setting name (String.ofList v) := by
  obtain ⟨c, cs, text⟩ := exists_cons_of_ne_nil (mt String.toList_eq_nil_iff.mp filled)
  have named := name_of_find? found
  rw [text] at cut
  rcases dashed with rfl | ⟨rfl, head⟩
  · have word : ("--" ++ body).toList = '-' :: '-' :: c :: cs := by simp [text]
    rw [read, word]
    cases value <;> simp [cut, found, named]
  · have word : ("-" ++ body).toList = '-' :: c :: cs := by simp [text]
    have other : c ≠ '-' := by simpa [text] using head
    rw [read, word]
    cases value <;> simp [cut, found, named, other]

theorem eq_singleton_append (text : s.toList = c :: cs) :
    s = String.singleton c ++ String.ofList cs := by
  rw [← String.toList_inj, text]
  simp

theorem utf8ByteSize_of_cons (text : s.toList = c :: cs) :
    s.utf8ByteSize = c.utf8Size + (String.ofList cs).utf8ByteSize := by
  rw [eq_singleton_append text, String.utf8ByteSize_append, String.utf8ByteSize_singleton]

theorem exists_byte (byte : s.utf8ByteSize = 1) : ∃ c, s = String.singleton c ∧ c.toNat < 128 := by
  cases text : s.toList with
  | nil =>
    rw [String.toList_eq_nil_iff.mp text] at byte
    simp at byte
  | cons c cs =>
    have size := utf8ByteSize_of_cons text
    have := c.utf8Size_pos
    have none : String.ofList cs = "" := String.utf8ByteSize_eq_zero_iff.mp (by omega)
    have ascii : c.val ≤ 127 := Char.utf8Size_eq_one_iff.mp (by omega)
    refine ⟨c, ?_, Nat.lt_succ_of_le (UInt32.le_iff_toNat_le.mp ascii)⟩
    rw [eq_singleton_append text, none, String.append_empty]

theorem read_positional (plain : arg.utf8ByteSize < 2 ∨ arg.toList.head? ≠ some '-') : fs.read arg = .positional := by
  have noFlag (c : Char) (cs : List Char) : arg.toList ≠ '-' :: c :: cs := by
    intro text
    have size := utf8ByteSize_of_cons text
    have more := utf8ByteSize_of_cons (String.toList_ofList (l := c :: cs))
    have first := '-'.utf8Size_pos
    have second := c.utf8Size_pos
    rcases plain with short | other
    · omega
    · simp [text] at other
  rw [read]
  split
  next text => exact (noFlag _ _ text).elim
  next text => exact (noFlag _ _ text).elim
  next => rfl

/-- A word with a shorthand. -/
theorem read_byte (byte : s.utf8ByteSize = 1) (notDash : s ≠ "-")
    (short : fs.findShorthand? s = some f) (unregistered : fs.find? (upToEquals (s ++ r)) = none) :
    fs.read ("-" ++ s ++ r) =
      if f.value.isTruth then .setting f.name ""
      else if r = "" then .pending f.name ("-" ++ s) else .setting f.name r := by
  obtain ⟨c, rfl, ascii⟩ := exists_byte byte
  have word : ("-" ++ String.singleton c ++ r).toList = '-' :: c :: r.toList := by simp
  have other : c ≠ '-' := by
    rintro rfl
    exact notDash rfl
  have cut : fs.find? (String.ofList (cutEquals (c :: r.toList)).1) = none := by
    rw [cutEquals_fst, ← unregistered, upToEquals]
    simp
  simp only [read, word]
  simp [other, cut, readShorthand, ascii, short]

/-! ## Spelling -/

/-- The words that an item may be spelled as, for flags of given kinds and shorthands. -/
inductive Spells (kind? : String → Option Bool) (shorthands : List (String × String)) : Item → List String → Prop
  | assigned {n v : String} {isTruth : Bool} : kind? n = some isTruth → FlagValue.Accepts isTruth v →
      Spells kind? shorthands (.setting n v) ["--" ++ (n ++ "=" ++ v)]
  | apart {dashes n v : String} : dashes ∈ ["-", "--"] → kind? n = some false →
      Spells kind? shorthands (.setting n v) [dashes ++ n, v]
  | switch {dashes n : String} : dashes ∈ ["-", "--"] → kind? n = some true →
      Spells kind? shorthands (.setting n "") [dashes ++ n]
  | shortApart {s n v : String} : shorthands.lookup s = some n → kind? n = some false →
      kind? (upToEquals s) = none → Spells kind? shorthands (.setting n v) ["-" ++ s, v]
  | shortAttached {s n v : String} : shorthands.lookup s = some n → kind? n = some false → v ≠ "" →
      kind? (upToEquals (s ++ v)) = none → Spells kind? shorthands (.setting n v) ["-" ++ s ++ v]
  | shortSwitch {s n : String} : shorthands.lookup s = some n → kind? n = some true →
      kind? (upToEquals s) = none → Spells kind? shorthands (.setting n "") ["-" ++ s]
  | positional {arg : String} : arg.utf8ByteSize < 2 ∨ arg.toList.head? ≠ some '-' →
      Spells kind? shorthands (.positional arg) [arg]

/-- Names and shorthands that the words of a command line can tell apart. -/
structure Distinguishable (fs : FlagSet) : Prop where
  name : ∀ n, (fs.kind? n).isSome → n ≠ "" ∧ '=' ∉ n.toList ∧ n.toList.head? ≠ some '-'
  shorthand : ∀ s n, fs.shorthands.lookup s = some n → s.utf8ByteSize = 1 ∧ s ≠ "-"

namespace Distinguishable

variable (clear : fs.Distinguishable) {n : String} {isTruth : Bool}
include clear

theorem read_name (dashed : dashes ∈ ["-", "--"]) (kind : fs.kind? n = some isTruth) :
    fs.read (dashes ++ n) = if isTruth then .setting n "" else .pending n (dashes ++ n) := by
  obtain ⟨filled, noEquals, head⟩ := clear.name n (by simp [kind])
  obtain ⟨f, found, rfl⟩ := kind?_eq_some.mp kind
  have dashed : Dashes dashes n := by
    simp only [mem_cons, not_mem_nil, or_false] at dashed
    exact dashed.symm.imp_right (⟨·, head⟩)
  have cut : cutEquals n.toList = (n.toList, none) := by
    simpa [cutEquals] using cutEquals_append noEquals []
  rw [read_dashed dashed filled cut found]
  rfl

theorem read_short {s : String} (short : fs.shorthands.lookup s = some n) (kind : fs.kind? n = some isTruth)
    (unregistered : fs.kind? (upToEquals (s ++ r)) = none) : fs.read ("-" ++ s ++ r) =
      if isTruth then .setting n "" else if r = "" then .pending n ("-" ++ s) else .setting n r := by
  obtain ⟨byte, notDash⟩ := clear.shorthand s n short
  obtain ⟨f, found, rfl⟩ := kind?_eq_some.mp kind
  have short : fs.findShorthand? s = some f := by simp [findShorthand?, short, found]
  rw [read_byte byte notDash short (kind?_eq_none.mp unregistered), name_of_find? found]

end Distinguishable

theorem read_assigned (noEquals : '=' ∉ n.toList) (found : fs.find? n = some f) :
    fs.read ("--" ++ (n ++ "=" ++ v)) = .setting n v := by
  have cut : cutEquals (n ++ "=" ++ v).toList = (n.toList, some v.toList) := by
    rw [String.toList_append, String.toList_append, append_assoc, cutEquals_append noEquals]
    simp [cutEquals]
  have filled : n ++ "=" ++ v ≠ "" := by
    intro empty
    have := congrArg String.toList empty
    simp at this
  rw [read_dashed (.inl rfl) filled cut found]
  simp

/-- The parser takes the words of an item, whatever stands behind them. -/
def Takes (fs : FlagSet) (item : Item) (words : List String) : Prop :=
  ∃ fs', Taken fs [item] fs' ∧ ∀ rest, fs.parseFrom (words ++ rest) = fs'.parseFrom rest

theorem takes_setting {isTruth : Bool} (kind : fs.kind? n = some isTruth)
    (accepted : FlagValue.Accepts isTruth v) (read : fs.read arg = .setting n v) : fs.Takes (.setting n v) [arg] := by
  obtain ⟨f, found, rfl⟩ := kind?_eq_some.mp kind
  obtain rfl := name_of_find? found
  refine ⟨_, taken_put found v, fun rest => ?_⟩
  rw [cons_append, parseFrom.eq_def]
  simp [read, set_eq found, update_eq accepted, Except.map]

theorem takes_pending (kind : fs.kind? n = some false)
    (read : fs.read arg = .pending n shown) : fs.Takes (.setting n v) [arg, v] := by
  obtain ⟨f, found, text⟩ := kind?_eq_some.mp kind
  obtain rfl := name_of_find? found
  refine ⟨_, taken_put found v, fun rest => ?_⟩
  rw [cons_append, parseFrom.eq_def]
  simp [read, set_eq found, update_eq (text ▸ accepts_false), Except.map]

/-- The step: each way to spell an item is taken. -/
theorem Spells.takes (clear : fs.Distinguishable)
    (spelled : Spells fs.kind? fs.shorthands item words) : fs.Takes item words := by
  have empty {isTruth : Bool} : FlagValue.Accepts isTruth "" := fun _ => .inl rfl
  cases spelled with
  | @assigned n v isTruth kind accepted =>
    obtain ⟨f, found, -⟩ := kind?_eq_some.mp kind
    exact takes_setting kind accepted (read_assigned (clear.name n (by simp [kind])).2.1 found)
  | apart dashed kind => exact takes_pending kind (clear.read_name dashed kind)
  | switch dashed kind => exact takes_setting kind empty (clear.read_name dashed kind)
  | @shortApart s n v short kind unregistered =>
    have read := clear.read_short (r := "") short kind (by rwa [String.append_empty])
    rw [String.append_empty] at read
    exact takes_pending kind read
  | shortAttached short kind filled unregistered =>
    have read := clear.read_short short kind unregistered
    exact takes_setting kind accepts_false (read.trans (if_neg filled))
  | @shortSwitch s n short kind unregistered =>
    have read := clear.read_short (r := "") short kind (by rwa [String.append_empty])
    rw [String.append_empty] at read
    exact takes_setting kind empty read
  | @positional arg plain =>
    refine ⟨_, .positional arg, fun rest => ?_⟩
    simp [parseFrom, read_positional plain]

theorem Distinguishable.taken (clear : fs.Distinguishable) (taken : Taken fs items fs') :
    fs'.Distinguishable where
  name n := by
    rw [taken.kind?]
    exact clear.name n
  shorthand s n := by
    rw [taken.shorthands]
    exact clear.shorthand s n

/-- The run: the words of all items are taken one after the other. -/
theorem parseFrom_spelled {kind? : String → Option Bool}
    {shorthands : List (String × String)} (clear : fs.Distinguishable) (kinds : fs.kind? = kind?)
    (short : fs.shorthands = shorthands) (spelled : Forall₂ (Spells kind? shorthands) items words) :
    ∃ fs', Taken fs items fs' ∧ ∀ rest, fs.parseFrom (words.flatten ++ rest) = fs'.parseFrom rest := by
  induction spelled generalizing fs with
  | nil => exact ⟨fs, .refl, fun _ => rfl⟩
  | @cons item itemWords items words head tail ih =>
    rw [← kinds, ← short] at head
    obtain ⟨next, taken, step⟩ := head.takes clear
    obtain ⟨last, takenAll, run⟩ := ih (clear.taken taken) (taken.kind?.trans kinds) (taken.shorthands.trans short)
    refine ⟨last, taken.trans takenAll, fun rest => ?_⟩
    rw [flatten_cons, append_assoc, step, run]

/-! ## Sets of flags that can be defined -/

/-- A set of flags that is defined one flag or group at a time, and may have been parsed with before. -/
inductive Defined : FlagSet → Prop
  | empty : Defined {}
  | define {fs : FlagSet} (f : Flag) : Defined fs → Defined (fs.define f).1
  | addGroup {fs : FlagSet} (g : FlagGroup) : Defined fs → Defined (fs.addGroup g).1
  | parse {fs : FlagSet} (args : List String) : Defined fs → Defined (fs.parse args).1

/-- No flag is without a name. -/
def Named (fs : FlagSet) : Prop := ∀ f ∈ fs.flags, f.name ≠ ""

theorem Named.define (named : fs.Named) (f : Flag) : (fs.define f).1.Named := by
  unfold FlagSet.define Named at *
  grind [String.isEmpty_iff]

theorem Named.defineAll (named : fs.Named) (flags : List Flag) : (fs.defineAll flags).1.Named := by
  induction flags generalizing fs with
  | nil => exact named
  | cons f rest ih =>
    have step := named.define f
    rw [FlagSet.defineAll]
    grind

theorem Named.addGroup (named : fs.Named) (g : FlagGroup) : (fs.addGroup g).1.Named := by
  have all := named.defineAll (g.entries.flatMap g.entryFlags)
  unfold FlagSet.addGroup Named at *
  grind

theorem Named.set (named : fs.Named) (done : fs.set name s = .ok fs') : fs'.Named := by
  cases found : fs.find? name with
  | none => simp_all [FlagSet.set]
  | some f =>
    obtain rfl := name_of_find? found
    rw [set_eq found] at done
    cases updated : f.value.update s with
    | error => simp [updated, Except.map] at done
    | ok v =>
      rw [updated] at done
      obtain rfl := Except.ok.inj done
      unfold put Named at *
      grind

theorem Named.parseFrom (named : fs.Named) (args : List String) : (fs.parseFrom args).1.Named := by
  fun_induction FlagSet.parseFrom fs args <;> grind [Named.set, Named]

theorem Defined.named (defined : fs.Defined) : fs.Named := by
  induction defined with
  | empty => exact fun f member => absurd member (by simp)
  | define f _ ih => exact ih.define f
  | addGroup g _ ih => exact ih.addGroup g
  | @parse fs args _ ih => exact Named.parseFrom (show Named { fs with args := [] } from ih) args

/-! ## Reading back -/

/-- What a command line spells is read back: every flag has its settings, from what it held before, and the
arguments are those of the items and all that stands behind the ending mark. -/
theorem parse_spelled (defined : fs.Defined)
    (names : ∀ f ∈ fs.flags, '=' ∉ f.name.toList ∧ f.name.toList.head? ≠ some '-')
    (shorthands : ∀ entry ∈ fs.shorthands, entry.1.utf8ByteSize = 1 ∧ entry.1 ≠ "-")
    {items : List Item} {words : List (List String)}
    (spelled : Forall₂ (Spells fs.kind? fs.shorthands) items words) (trailer : Option (List String)) :
    ∃ fs', fs.parse (words.flatten ++ trailer.elim [] ("--" :: ·)) = (fs', none) ∧
      (∀ name, fs'.value? name = (fs.value? name).map (·.after (items.flatMap (·.settings name)))) ∧
      fs'.args = items.flatMap Item.positionals ++ trailer.getD [] := by
  have clear : { fs with args := [] : FlagSet }.Distinguishable := by
    refine ⟨fun n registered => ?_, fun s n short => ?_⟩
    · obtain ⟨f, found⟩ : ∃ f, fs.find? n = some f := by
        obtain ⟨isTruth, kind⟩ := Option.isSome_iff_exists.mp registered
        exact (kind?_eq_some.mp kind).imp fun _ => And.left
      have member := mem_of_find?_eq_some found
      rw [← name_of_find? found]
      exact ⟨defined.named f member, names f member⟩
    · obtain ⟨before, after, split, -⟩ := lookup_eq_some_iff.mp short
      exact shorthands (s, n) (by rw [split]; simp)
  obtain ⟨last, taken, run⟩ := parseFrom_spelled clear rfl rfl spelled
  have args : last.args = items.flatMap Item.positionals := taken.args
  cases trailer with
  | none => exact ⟨last, (run []).trans rfl, taken.value, by simp [args]⟩
  | some rest =>
    refine ⟨{ last with args := last.args ++ rest }, (run _).trans ?_, taken.value, by simp [args]⟩
    simp [parseFrom, read]

/-- A text, a truth value and a list, each with a shorthand. -/
def threeKinds : FlagSet :=
  (((({} : FlagSet).define (.text "output" "o" "a.o" "" "file")).1.define (.truth "verbose" "v" false "")).1.define
    (.list "link" "l" "" "exe")).1

theorem parse_spelled_threeKinds :
    ∃ fs', threeKinds.parse ["--output=x", "-v", "main.pas", "-la", "-link", "-v", "--", "-o"] = (fs', none) ∧
      fs'.value? "output" = some (.text "x") ∧ fs'.value? "verbose" = some (.truth true) ∧
      fs'.value? "link" = some (.list ["a", "-v"]) ∧ fs'.args = ["main.pas", "-o"] := by
  have spelled : Forall₂ (Spells threeKinds.kind? threeKinds.shorthands)
      [.setting "output" "x", .setting "verbose" "", .positional "main.pas", .setting "link" "a", .setting "link" "-v"]
      [["--output=x"], ["-v"], ["main.pas"], ["-la"], ["-link", "-v"]] :=
    .cons (@Spells.assigned _ _ "output" "x" false rfl accepts_false) <|
      .cons (@Spells.shortSwitch _ _ "v" "verbose" rfl rfl rfl) <|
      .cons (.positional (.inr (by decide))) <|
      .cons (@Spells.shortAttached _ _ "l" "link" "a" rfl rfl (by decide) rfl) <|
      .cons (@Spells.apart _ _ "-" "link" "-v" (by decide) rfl) .nil
  obtain ⟨fs', parsed, values, args⟩ :=
    parse_spelled (.define _ (.define _ (.define _ .empty))) (by decide) (by decide) spelled (some ["-o"])
  exact ⟨fs', parsed, values _, values _, values _, args⟩

/-! ## Texts behind a shorthand -/

/-- Two sets of flags that hold the same. -/
def Agree (fs fs' : FlagSet) : Prop := (∀ name, fs.value? name = fs'.value? name) ∧ fs.args = fs'.args

section

variable {arg other v : String} (read : fs.read arg = .setting f.name v)
include read

theorem parse_congr (same : fs.read other = .setting f.name v) : fs.parse [arg] = fs.parse [other] := by
  have left : FlagSet.read { fs with args := [] } arg = _ := read
  have right : FlagSet.read { fs with args := [] } other = _ := same
  rw [parse, parse, parseFrom.eq_def, parseFrom.eq_def _ [other]]
  simp only [left, right]

/-- A setting that is refused leaves a flag as it was. -/
theorem parse_setting (found : fs.find? f.name = some f) :
    (∀ name, (fs.parse [arg]).1.value? name = (fs.value? name).map fun old =>
      if name = f.name then (f.value.update v).toOption.getD old else old) ∧
      (fs.parse [arg]).1.args = [] ∧ (fs.parse [arg]).2.isSome = !(f.value.update v).isOk := by
  have read : FlagSet.read { fs with args := [] } arg = _ := read
  have found : FlagSet.find? { fs with args := [] } f.name = some f := found
  rw [parse, parseFrom.eq_def]
  simp only [read, set_eq found]
  cases f.value.update v with
  | ok v => exact ⟨fun name => value?_put f.name name v, rfl, rfl⟩
  | error e =>
    refine ⟨fun name => ?_, rfl, rfl⟩
    simp [Except.map, Except.toOption]
    rfl

end

/-- Two settings of a flag agree if they leave the same value. -/
theorem agree_iff (found : fs.find? f.name = some f)
    (read : fs.read arg = .setting f.name v) (read' : fs.read other = .setting f.name v') :
    Agree (fs.parse [arg]).1 (fs.parse [other]).1 ↔
      (f.value.update v).toOption.getD f.value = (f.value.update v').toOption.getD f.value := by
  have left := parse_setting read found
  have right := parse_setting read' found
  have before : fs.value? f.name = some f.value := by simp [value?, found]
  constructor
  · rintro ⟨values, -⟩
    have value := values f.name
    rw [left.1, right.1, before] at value
    simpa using value
  · intro same
    refine ⟨fun name => ?_, left.2.1.trans right.2.1.symm⟩
    rw [left.1, right.1]
    by_cases set : name = f.name
    · rw [set, before]
      simp [same]
    · simp [set]

/-- A text behind a shorthand is the value of its flag as if it stood behind an equals sign, but a truth value
drops it and is set to true. So the two spellings agree unless a truth value would become or stay false. -/
theorem parse_attached {s r : String} (short : fs.findShorthand? s = some f) (byte : s.utf8ByteSize = 1)
    (notDash : s ≠ "-") (noEquals : '=' ∉ f.name.toList) (attached : r ≠ "")
    (unregistered : fs.find? (upToEquals (s ++ r)) = none) :
    fs.parse ["-" ++ s ++ r] = fs.parse ["--" ++ (f.name ++ "=" ++ if f.value.isTruth then "" else r)] ∧
      (((fs.parse ["-" ++ s ++ r]).2.isSome ∨
          Agree (fs.parse ["-" ++ s ++ r]).1 (fs.parse ["--" ++ (f.name ++ "=" ++ r)]).1) ↔
        ∀ b, f.value = .truth b → (parseTruth? r).getD b = true) := by
  have found : fs.find? f.name = some f := by
    obtain ⟨n, -, found⟩ := Option.bind_eq_some_iff.mp short
    rwa [name_of_find? found]
  have read : fs.read ("-" ++ s ++ r) = .setting f.name (if f.value.isTruth then "" else r) := by
    rw [read_byte byte notDash short unregistered, if_neg attached]
    split <;> rfl
  have same := parse_congr read (read_assigned noEquals found)
  refine ⟨same, ?_⟩
  cases truth : f.value with
  | text | list =>
    simp only [truth, isTruth, Bool.false_eq_true, if_false] at same
    simp [same, Agree]
  | truth b =>
    have accepted : (fs.parse ["-" ++ s ++ r]).2.isSome = false := by
      rw [(parse_setting read found).2.2, truth]
      rfl
    have dropped : (f.value.update (if f.value.isTruth then "" else r)).toOption.getD f.value = .truth true := by
      rw [truth]
      rfl
    have spelled : (f.value.update r).toOption.getD f.value = .truth ((parseTruth? r).getD b) := by
      rw [truth, update, if_neg (by simpa using attached)]
      cases parseTruth? r <;> rfl
    rw [accepted, agree_iff found read (read_assigned noEquals found), dropped, spelled]
    constructor
    · rintro (failed | value) _ ⟨⟩
      · cases failed
      · exact (FlagValue.truth.inj value).symm
    · exact fun holds => .inr (congrArg FlagValue.truth (holds b rfl).symm)

theorem parse_attached_output : threeKinds.parse ["-ox"] = threeKinds.parse ["--output=x"] :=
  (parse_attached (f := .text "output" "o" "a.o" "" "file") (s := "o") (r := "x") rfl rfl (by decide) (by decide)
    (by decide) rfl).1

theorem attached_text_dropped : threeKinds.findShorthand? "v" = some (.truth "verbose" "v" false "") ∧
      threeKinds.find? (upToEquals ("v" ++ "false")) = none ∧
      ¬ ((threeKinds.parse ["-vfalse"]).2.isSome ∨
        Agree (threeKinds.parse ["-vfalse"]).1 (threeKinds.parse ["--verbose=false"]).1) := by
  refine ⟨rfl, rfl, ?_⟩
  rintro (failed | ⟨values, -⟩)
  · exact absurd failed (by decide)
  · exact absurd (values "verbose") (by decide)

end FlagSet

end MiniPascal
