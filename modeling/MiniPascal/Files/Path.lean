import MiniPascal.Text.Split

/-!
# Paths

Paths are texts with slashes between their components.
-/

namespace MiniPascal.Path

/-- The last component of a path from its last point on. -/
def extension (path : List Char) : List Char :=
  let tail := path.reverse.takeWhile fun c => c ≠ '.' && c ≠ '/'
  match path.reverse.drop tail.length with
  | '.' :: _ => '.' :: tail.reverse
  | _ => []

def stem (path : String) : String :=
  let cs := path.toList
  String.ofList (cs.take (cs.length - (extension cs).length))

/-- The path of the file beside another, with the same name but for the extension. -/
def sibling (path ext : String) : String := stem path ++ ext

def base (path : String) : String :=
  if path.isEmpty then "."
  else
    match (Text.split '/' path).filter (!·.isEmpty) with
    | [] => "/"
    | parts => parts.getLastD ""

/-- The directory of a path up to its last slash, and what stands behind that. -/
def splitLast (path : String) : String × String :=
  let tail := path.toList.reverse.takeWhile (· ≠ '/')
  (String.ofList (path.toList.take (path.length - tail.length)), String.ofList tail.reverse)

/-- Takes one step along a path whose components so far, the last first, are `done`. -/
def step (rooted : Bool) (done : List String) (part : String) : List String :=
  if part.isEmpty || part = "." then done
  else if part = ".." then
    match done with
    | [] => if rooted then [] else [".."]
    | last :: rest => if last = ".." then ".." :: done else rest
  else part :: done

/-- The shortest path that names the same place. -/
def clean (path : String) : String :=
  let rooted := path.startsWith "/"
  let parts := ((Text.split '/' path).foldl (step rooted) []).reverse
  let text := "/".intercalate parts
  if rooted then "/" ++ text else if text.isEmpty then "." else text

def join (dir name : String) : String := clean (dir ++ "/" ++ name)

end MiniPascal.Path
