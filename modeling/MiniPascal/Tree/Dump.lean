import MiniPascal.Text.Quoted
import MiniPascal.Tree.Basic

/-!
# Dumps of trees

A tree as nested records, one line for each field, with tokens and types.  Fields that are zero, empty
or missing are left out.  A type that several declarations share is written once and named in a comment;
the other places show only its name.
-/

namespace MiniPascal.Tree

/-! ## Forms -/

/-- What tells apart the types that can be shared: there is one type of integers, and names that are
declared together share the types that are written behind them. -/
inductive TypeKey where
  | integer
  /-- The array type that is written at a token, at a depth within the type that starts there. -/
  | array (line column : Int) (depth : Nat)
  deriving DecidableEq

mutual

/-- A value to be written. -/
inductive Form where
  | atom (text : String)
  | record (title : String) (fields : List Field)
  | nodes (elements : List Form)
  /-- A type that may occur elsewhere. -/
  | shared (key : TypeKey) (form : Form)

/-- A field of a record. -/
inductive Field where
  | mk (name : String) (form : Form)

end

/-- A field with a number; none if it is zero. -/
def numberField (name : String) (n : Int) : List Field :=
  if n = 0 then [] else [.mk name (.atom (toString n))]

/-- A field with a text; none if it is empty. -/
def textField (name value : String) : List Field :=
  if value.isEmpty then [] else [.mk name (.atom (Text.quote value))]

/-- A field with nodes; none if there are none. -/
def nodesField (name : String) (forms : List Form) : List Field :=
  if forms.isEmpty then [] else [.mk name (.nodes forms)]

/-- A field with a form, unless it is missing. -/
def formField (name : String) (form : Option Form) : List Field :=
  match form with
  | none => []
  | some f => [.mk name f]

def tokenForm (t : Token) : Form :=
  .record "Token" (numberField "Type" t.kind.code ++ textField "Value" t.value ++
    numberField "FileIndex" t.file ++ numberField "Line" t.line ++ numberField "Column" t.column ++
    numberField "Len" t.length)

/-- A type.  Without a place no array in it is shared. -/
def typeForm (place : Option Token) : Nat → VarType → Option Form
  | _, .void => none
  | _, .integer => some (.shared .integer (.record "&VarType" []))
  | depth, .array lower upper elem =>
    let form := .record "&VarType" (numberField "Kind" 1 ++ numberField "Lower" lower.toInt ++
      numberField "Upper" upper.toInt ++ formField "Elem" (typeForm place (depth + 1) elem))
    match place with
    | none => some form
    | some t => some (.shared (.array t.line t.column depth) form)

/-- A node, with the record that belongs to its kind. -/
def nodeForm (kind : Int) (tok : Token) (title : String) (fields : List Field) : Form :=
  .record "&Node" (numberField "Type" kind ++ [.mk "Tok" (tokenForm tok)] ++
    [.mk "Data" (.record title fields)])

mutual

def form? : Tree → Option Form
  | .absent => none
  | .number t v => some (nodeForm 0 t "NumberNode" (numberField "Value" v.toInt))
  | .text t v => some (nodeForm 1 t "StringNode" (textField "Value" v))
  | .name t id => some (nodeForm 2 t "IdentNode" (textField "Name" id))
  | .element t id i =>
    some (nodeForm 3 t "SubscriptNode" (textField "Name" id ++ formField "Index" (form? i)))
  | .assign t l r =>
    some (nodeForm 4 t "AssignNode" (formField "Lhs" (form? l) ++ formField "Rhs" (form? r)))
  | .binary t op l r =>
    some (nodeForm 5 t "BinaryOpNode" (numberField "Op" op.code ++ formField "Left" (form? l) ++
      formField "Right" (form? r)))
  | .call t id args =>
    some (nodeForm 6 t "FuncCallNode" (textField "Name" id ++ nodesField "Args" (forms args)))
  | .branch t c y n =>
    some (nodeForm 7 t "IfNode" (formField "Cond" (form? c) ++ formField "Then" (form? y) ++
      formField "Else" (form? n)))
  | .count t v a b down body =>
    some (nodeForm 8 t "ForNode" (textField "Var" v ++ formField "Start" (form? a) ++
      formField "End" (form? b) ++ (if down then [.mk "Downto" (.atom "true")] else []) ++
      formField "Body" (form? body)))
  | .loop t c body =>
    some (nodeForm 9 t "WhileNode" (formField "Cond" (form? c) ++ formField "Body" (form? body)))
  | .leave t => some (nodeForm 10 t "BreakNode" [])
  | .exit t => some (nodeForm 11 t "ExitNode" [])
  | .block t stmts => some (nodeForm 12 t "BlockNode" (nodesField "Stmts" (forms stmts)))
  | .varDecl t id type typeTok =>
    some (nodeForm 13 t "VarDeclNode" (textField "Name" id ++
      formField "Type" (typeForm (some typeTok) 0 type)))
  | .constDecl t id v =>
    some (nodeForm 14 t "ConstDeclNode" (textField "Name" id ++ numberField "Value" v.toInt))
  | .routine t id params result locals body =>
    some (nodeForm 15 t "FuncDeclNode" (textField "Name" id ++ nodesField "Params" (forms params) ++
      formField "ReturnType" (typeForm none 0 result) ++ nodesField "Locals" (forms locals) ++
      formField "Body" (form? body)))
  | .program t id decls routines main =>
    some (nodeForm 16 t "ProgramNode" (textField "Name" id ++ nodesField "Decls" (forms decls) ++
      nodesField "Funcs" (forms routines) ++ formField "Main" (form? main)))
  | .unknown t code => some (.record "&Node" (numberField "Type" code ++ [.mk "Tok" (tokenForm t)]))

def forms : List Tree → List Form
  | [] => []
  | t :: ts => (form? t).getD (.atom "nil") :: forms ts

end

/-! ## Shared types -/

/-- The types that were met, and the ones that were met again. -/
structure Sightings where
  seen : List TypeKey := []
  again : List TypeKey := []

mutual

/-- Looks for types that occur again.  A type that was met before is not looked into. -/
def Form.sight : Form → Sightings → Sightings
  | .atom _, s => s
  | .record _ fields, s => Field.sightAll fields s
  | .nodes elements, s => Form.sightAll elements s
  | .shared key form, s =>
    if s.seen.contains key then { s with again := key :: s.again }
    else form.sight { s with seen := s.seen ++ [key] }

def Form.sightAll : List Form → Sightings → Sightings
  | [], s => s
  | f :: fs, s => Form.sightAll fs (f.sight s)

def Field.sightAll : List Field → Sightings → Sightings
  | [], s => s
  | .mk _ f :: fs, s => Field.sightAll fs (f.sight s)

end

/-- The types of a form that are shared, in the order in which they are met first. -/
def Form.sharedTypes (f : Form) : List TypeKey :=
  let s := f.sight {}
  s.seen.filter s.again.contains

/-! ## Lines -/

/-- A line with the comment behind it. -/
structure DumpLine where
  text : String
  comment : String := ""

/-- Changes the first line. -/
def onFirst (f : DumpLine → DumpLine) : List DumpLine → List DumpLine
  | [] => []
  | l :: ls => f l :: ls

/-- Changes the last line. -/
def onLast (f : DumpLine → DumpLine) : List DumpLine → List DumpLine
  | [] => []
  | [l] => [f l]
  | l :: ls => l :: onLast f ls

/-- Puts a comma behind some lines, and moves them to the right. -/
def enclosed (ls : List DumpLine) : List DumpLine :=
  (onLast (fun l => { l with text := l.text ++ "," }) ls).map fun l =>
    { l with text := "  " ++ l.text }

mutual

/-- The lines of a form.  The state holds the types that were written already. -/
def Form.lines (names : List TypeKey) : Form → StateM (List TypeKey) (List DumpLine)
  | .atom s => return [{ text := s }]
  | .record title fields => do
    let body ← Field.linesOfAll names fields
    return if body.isEmpty then [{ text := title ++ "\x7b\x7d" }]
      else { text := title ++ "\x7b" } :: body ++ [{ text := "\x7d" }]
  | .nodes elements => do
    let body ← Form.linesOfAll names elements
    return { text := "[]*Node\x7b" } :: body ++ [{ text := "\x7d" }]
  | .shared key form => do
    match names.idxOf? key with
    | none => form.lines names
    | some n =>
      let name := "p" ++ toString n
      if (← get).contains key then return [{ text := name }]
      modify (key :: ·)
      let ls ← form.lines names
      return onFirst (fun l => { l with comment := " // " ++ name }) ls

/-- The lines of the elements of a list. -/
def Form.linesOfAll (names : List TypeKey) : List Form → StateM (List TypeKey) (List DumpLine)
  | [] => return []
  | f :: fs => do
    let ls ← f.lines names
    return enclosed ls ++ (← Form.linesOfAll names fs)

/-- The lines of the fields of a record. -/
def Field.linesOfAll (names : List TypeKey) : List Field → StateM (List TypeKey) (List DumpLine)
  | [] => return []
  | .mk id f :: fs => do
    let ls ← f.lines names
    let ls := onFirst (fun l => { l with text := id ++ ": " ++ l.text }) ls
    return enclosed ls ++ (← Field.linesOfAll names fs)

end

def dump (t : Tree) : String :=
  match form? t with
  | none => "nil"
  | some f =>
    let (ls, _) := (f.lines f.sharedTypes).run []
    "\n".intercalate (ls.map fun l => l.text ++ l.comment)

end MiniPascal.Tree
