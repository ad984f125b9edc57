import MiniPascal.Files.Basic
import MiniPascal.Settings.ProjectFile

/-!
# Loading project files

A project file is read and then applied to settings.  If it cannot be applied it has been read all the
same, and the settings keep what was applied before the error.
-/

namespace MiniPascal

inductive LoadError where
  | file (e : FileError)
  /-- A file that is not well formed. -/
  | content (path : String) (e : ProjectError)
  | setting (e : SettingError)

def LoadError.message : LoadError → String
  | file e => e.message
  | content path e => path ++ ", " ++ e.message
  | setting e => e.message

structure Loaded where
  settings : Settings
  file : Option ProjectFile := none
  error : Option LoadError := none

/-- Loads the project file at a path from what was found there. -/
def Settings.load (c : Settings) (path : String) (found : Except FileError String) : Loaded :=
  match found with
  | .error e => { settings := c, error := some (.file e) }
  | .ok source =>
    match ProjectFile.read source with
    | .error e => { settings := c, error := some (.content path e) }
    | .ok p =>
      let (c, e) := c.applyFile p
      { settings := c, file := some p, error := e.map .setting }

end MiniPascal
