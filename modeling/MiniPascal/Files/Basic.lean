import MiniPascal.Files.Path

/-!
# Files

The files below a working directory, and what comes of reading and writing them.
-/

namespace MiniPascal

inductive FileEntry where
  | text (content : String)
  | directory

/-- Why a file cannot be read or written. -/
inductive FileError where
  | missing (path : String)
  /-- A path that leads through a file. -/
  | throughFile (path : String)
  | readsDirectory (path : String)
  | writesDirectory (path : String)

namespace FileError

def message : FileError → String
  | missing path => "open " ++ path ++ ": no such file or directory"
  | throughFile path => "open " ++ path ++ ": not a directory"
  | readsDirectory path => "read " ++ path ++ ": is a directory"
  | writesDirectory path => "open " ++ path ++ ": is a directory"

def isMissing : FileError → Bool
  | missing _ => true
  | _ => false

end FileError

/-- Files by the components of their paths.  A directory is there if it is listed or if something is
below it. -/
structure Files where
  entries : List (List String × FileEntry) := []

namespace Files

/-- The components of a path, without empty ones. -/
def components (path : String) : List String :=
  (Text.split '/' path).filter fun part => !part.isEmpty && part ≠ "."

def at? (fs : Files) (place : List String) : Option FileEntry :=
  match place, fs.entries.lookup place with
  | [], _ => some .directory
  | _, some e => some e
  | _, none => if fs.entries.any fun e => place.isPrefixOf e.1 then some .directory else none

def isDirectoryAt (fs : Files) (place : List String) : Bool :=
  match fs.at? place with
  | some .directory => true
  | _ => false

/-- Whether a component of a path is no name. -/
def isDots (part : String) : Bool := part.isEmpty || part = "." || part = ".."

/-- Follows a path from a place.  Every component but the last must be that of a directory.  Above the
working directory there are directories, but nothing in them is known. -/
def follow (fs : Files) (path : String) (place : List String) :
    List String → Except FileError (List String)
  | [] => .ok place
  | part :: parts =>
    match fs.at? place with
    | none => .error (.missing path)
    | some (.text _) => .error (.throughFile path)
    | some .directory =>
      if part = ".." then
        if !place.isEmpty then fs.follow path place.dropLast parts
        else if parts.all isDots then .ok []
        else .error (.missing path)
      else if isDots part then fs.follow path place parts
      else fs.follow path (place ++ [part]) parts

/-- The place that a path names.  Of a path from the root on nothing is known but the root. -/
def locate (fs : Files) (path : String) : Except FileError (List String) :=
  let parts := Text.split '/' path
  if path.isEmpty || (path.startsWith "/" && !parts.all isDots) then .error (.missing path)
  else fs.follow path [] parts

def find (fs : Files) (path : String) : Except FileError FileEntry := do
  match fs.at? (← fs.locate path) with
  | none => .error (.missing path)
  | some e => .ok e

def contains (fs : Files) (path : String) : Bool :=
  match fs.find path with
  | .ok _ => true
  | .error _ => false

def read (fs : Files) (path : String) : Except FileError String := do
  match ← fs.find path with
  | .text content => .ok content
  | .directory => .error (.readsDirectory path)

/-- Puts an entry at a place, whatever is there. -/
def put (fs : Files) (place : List String) (e : FileEntry) : Files :=
  { entries := fs.entries.filter (fun x => x.1 ≠ place) ++ [(place, e)] }

def write (fs : Files) (path content : String) : Except FileError Files := do
  let place ← fs.locate path
  match fs.at? place with
  | some .directory => .error (.writesDirectory path)
  | some (.text _) => .ok (fs.put place (.text content))
  | none =>
    if fs.isDirectoryAt place.dropLast then .ok (fs.put place (.text content))
    else .error (.missing path)

/-- The names in a directory, sorted. -/
def names (fs : Files) (place : List String) : List String :=
  let below := fs.entries.filterMap fun e =>
    if place.isPrefixOf e.1 then (e.1.drop place.length).head? else none
  below.eraseDups.mergeSort (· ≤ ·)

end Files

end MiniPascal
