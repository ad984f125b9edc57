import MiniPascal.Flag.Parse
import MiniPascal.Settings.Basic

/-!
# Switches on the command line

Every warning and every feature has a flag that enables it and one that disables it.  If both are given
the switch is off.
-/

namespace MiniPascal.Settings

def warningGroup (c : Settings) : FlagGroup :=
  { name := "Warning Flags", lead := "W", noun := "warning"
    entries := Warning.all.map fun w =>
      { name := w.name, usage := w.description, isDefault := c.warnings w } }

def featureGroup (c : Settings) : FlagGroup :=
  { name := "Feature Flags", lead := "F", noun := "feature"
    entries := Feature.all.map fun f =>
      { name := f.name, usage := f.description, isDefault := c.features f } }

def addGroups (c : Settings) (fs : FlagSet) : FlagSet × Option DefinitionError :=
  match fs.addGroup c.warningGroup with
  | (fs, some e) => (fs, some e)
  | (fs, none) => fs.addGroup c.featureGroup

/-- What the two flags of a switch make of it. -/
def switched (fs : FlagSet) (lead name : String) (before : Bool) : Bool :=
  if fs.isOn (lead ++ "no-" ++ name) then false else if fs.isOn (lead ++ name) then true else before

/-- The settings with the switches that the flags turn. -/
def applyGroups (c : Settings) (fs : FlagSet) : Settings :=
  { c with
    warnings := fun w => switched fs "W" w.name (c.warnings w)
    features := fun f => switched fs "F" f.name (c.features f) }

end MiniPascal.Settings
