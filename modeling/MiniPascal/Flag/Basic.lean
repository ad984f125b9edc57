import MiniPascal.Text.Quoted

/-!
# Flags

A flag holds a text, a truth value or a list of texts, and is known by a long name and perhaps by a
shorthand.  A group is a family of switches, each with a flag that enables it and one that disables
it.
-/

namespace MiniPascal

/-! ## Errors -/

inductive DefinitionError where
  | emptyName
  | nameTaken (name : String)
  | shorthandTaken (shorthand : String)

def DefinitionError.message : DefinitionError → String
  | emptyName => "flag name cannot be empty"
  | nameTaken name => "flag redefined: " ++ name
  | shorthandTaken shorthand => "shorthand flag redefined: " ++ shorthand

inductive FlagError where
  | unknown (shown : String)
  | missingArgument (shown : String)
  | badBoolean (value : String)

def FlagError.message : FlagError → String
  | unknown shown => "unknown flag: " ++ shown
  | missingArgument shown => "flag needs an argument: " ++ shown
  | badBoolean value =>
    "invalid boolean value '" ++ value ++ "': strconv.ParseBool: parsing " ++ Text.quote value ++
      ": invalid syntax"

/-! ## Values -/

inductive FlagValue where
  | text (value : String)
  | truth (value : Bool)
  | list (values : List String)
  deriving DecidableEq

namespace FlagValue

def format : FlagValue → String
  | text value => value
  | truth value => if value then "true" else "false"
  | list values => ", ".intercalate values

/-- Whether a value is a truth value, which needs no argument. -/
def isTruth : FlagValue → Bool
  | truth _ => true
  | _ => false

/-- The truth values by their spellings. -/
def parseTruth? (s : String) : Option Bool :=
  if ["1", "t", "T", "TRUE", "true", "True"].contains s then some true
  else if ["0", "f", "F", "FALSE", "false", "False"].contains s then some false
  else none

/-- The value after a setting: a text is replaced, a list is extended, and a truth value is read,
where no text means true. -/
def update (v : FlagValue) (s : String) : Except FlagError FlagValue :=
  match v with
  | text _ => .ok (text s)
  | list values => .ok (list (values ++ [s]))
  | truth _ =>
    if s.isEmpty then .ok (truth true)
    else
      match parseTruth? s with
      | some b => .ok (truth b)
      | none => .error (.badBoolean s)

end FlagValue

/-! ## Flags and groups -/

/-- A flag.  `initial` is the text of its value before any setting, and `expected` names what it
takes. -/
structure Flag where
  name : String
  shorthand : String := ""
  usage : String := ""
  value : FlagValue
  initial : String := ""
  expected : String := ""

namespace Flag

def text (name shorthand value usage expected : String) : Flag :=
  { name, shorthand, usage, value := .text value, initial := value, expected }

def truth (name shorthand : String) (value : Bool) (usage : String) : Flag :=
  { name, shorthand, usage, value := .truth value, initial := (FlagValue.truth value).format }

/-- A flag that holds a list, empty at first. -/
def list (name shorthand usage expected : String) : Flag :=
  { name, shorthand, usage, value := .list [], expected }

end Flag

structure GroupEntry where
  name : String
  usage : String := ""
  /-- Whether it is on without any flag. -/
  isDefault : Bool := false

/-- A family of switches: `lead` stands before the name of each, and `noun` says what one is. -/
structure FlagGroup where
  name : String
  lead : String
  noun : String
  entries : List GroupEntry

namespace FlagGroup

def enabling (g : FlagGroup) (entry : GroupEntry) : String := g.lead ++ entry.name

def disabling (g : FlagGroup) (entry : GroupEntry) : String := g.lead ++ "no-" ++ entry.name

/-- The two flags of a switch. -/
def entryFlags (g : FlagGroup) (entry : GroupEntry) : List Flag :=
  [.truth (g.enabling entry) "" false entry.usage,
    .truth (g.disabling entry) "" false ("Disable '" ++ entry.name ++ "'")]

end FlagGroup

/-! ## Sets of flags -/

/-- The flags of a command, in the order of their definition, and the arguments that are no flags. -/
structure FlagSet where
  flags : List Flag := []
  /-- Each shorthand with the long name of its flag. -/
  shorthands : List (String × String) := []
  groups : List FlagGroup := []
  args : List String := []

namespace FlagSet

def find? (fs : FlagSet) (name : String) : Option Flag := fs.flags.find? fun f => f.name == name

def findShorthand? (fs : FlagSet) (shorthand : String) : Option Flag :=
  (fs.shorthands.lookup shorthand).bind fs.find?

def value? (fs : FlagSet) (name : String) : Option FlagValue := (fs.find? name).map (·.value)

def isOn (fs : FlagSet) (name : String) : Bool := fs.value? name == some (.truth true)

def textOf (fs : FlagSet) (name : String) : String :=
  match fs.value? name with
  | some (.text s) => s
  | _ => ""

/-- Defines a flag.  A flag whose shorthand is taken is defined without it, and that is an error
all the same. -/
def define (fs : FlagSet) (f : Flag) : FlagSet × Option DefinitionError :=
  if f.name.isEmpty then (fs, some .emptyName)
  else if (fs.find? f.name).isSome then (fs, some (.nameTaken f.name))
  else
    let fs' := { fs with flags := fs.flags ++ [f] }
    if f.shorthand.isEmpty then (fs', none)
    else if (fs.shorthands.lookup f.shorthand).isSome then (fs', some (.shorthandTaken f.shorthand))
    else ({ fs' with shorthands := fs.shorthands ++ [(f.shorthand, f.name)] }, none)

/-- Defines flags up to the first that cannot be defined. -/
def defineAll (fs : FlagSet) : List Flag → FlagSet × Option DefinitionError
  | [] => (fs, none)
  | f :: rest =>
    match fs.define f with
    | (fs', some e) => (fs', some e)
    | (fs', none) => fs'.defineAll rest

/-- Defines the flags of a group, and adds the group if all of them could be defined. -/
def addGroup (fs : FlagSet) (g : FlagGroup) : FlagSet × Option DefinitionError :=
  match fs.defineAll (g.entries.flatMap g.entryFlags) with
  | (fs', some e) => (fs', some e)
  | (fs', none) => ({ fs' with groups := fs'.groups ++ [g] }, none)

def set (fs : FlagSet) (name value : String) : Except FlagError FlagSet :=
  match fs.find? name with
  | none => .ok fs
  | some f => do
    let v ← f.value.update value
    return { fs with flags := fs.flags.map fun g => if g.name == name then { g with value := v } else g }

end FlagSet

end MiniPascal
