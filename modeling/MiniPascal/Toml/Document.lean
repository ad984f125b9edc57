import MiniPascal.Toml.Syntax

/-!
# Documents

A document is a table whose fields are values, tables, or arrays of tables.  A table that is only named
on the way to another, or written between braces, may be given its head later; one that has a head
may not get a second one.
-/

namespace MiniPascal.Toml

/-- A table.  `isHeaded` says whether it has a head of its own. -/
structure TableOf (α : Type) where
  line : Nat
  isHeaded : Bool := false
  fields : List (String × α) := []

inductive Node where
  | value (v : Value) (line : Nat)
  | table (t : TableOf Node)
  /-- An array of tables, the last of them first. -/
  | tables (last : TableOf Node) (others : List (TableOf Node))

/-- A table of fields. -/
abbrev Table := TableOf Node

namespace Table

def get? (t : Table) (key : String) : Option Node := t.fields.lookup key

def put (t : Table) (key : String) (n : Node) : Table :=
  if (t.get? key).isSome then
    { t with fields := t.fields.map fun (k, m) => if k == key then (k, n) else (k, m) }
  else { t with fields := t.fields ++ [(key, n)] }

/-- Changes the table at the end of a path.  Tables on the way are made if they are missing, and of an
array of tables the last is meant. -/
def within (line : Nat) (f : Table → Except Error Table) : List String → Table → Except Error Table
  | [], t => f t
  | key :: path, t =>
    match t.get? key with
    | none => do return t.put key (.table (← within line f path { line }))
    | some (.table s) => do return t.put key (.table (← within line f path s))
    | some (.tables s others) => do return t.put key (.tables (← within line f path s) others)
    | some (.value _ before) => .error ⟨line, .pathThroughValue key before⟩

def addValue (line : Nat) (key : String) (v : Value) (t : Table) : Except Error Table :=
  match t.get? key with
  | none => .ok (t.put key (.value v line))
  | some (.table s) => .error ⟨line, .keyIsTable key s.line⟩
  | some (.tables _ _) => .error ⟨line, .keyIsTables key⟩
  | some (.value _ before) => .error ⟨line, .repeatedKey key before⟩

/-- Adds a table, or gives a table without a head its head. -/
def addTable (line : Nat) (isHeaded : Bool) (name key : String) (t : Table) : Except Error Table :=
  match t.get? key with
  | none => .ok (t.put key (.table { line, isHeaded }))
  | some (.tables s others) => .error ⟨line, .tableIsTables name (others.getLastD s).line⟩
  | some (.table s) =>
    if s.isHeaded then .error ⟨line, .repeatedTable name s.line⟩
    else .ok (t.put key (.table { line, isHeaded, fields := s.fields }))
  | some (.value _ before) => .error ⟨line, .tableIsValue name before⟩

/-- Adds an element to an array of tables. -/
def addElement (line : Nat) (isHeaded : Bool) (name key : String) (t : Table) : Except Error Table :=
  match t.get? key with
  | none => .ok (t.put key (.tables { line, isHeaded } []))
  | some (.tables s others) => .ok (t.put key (.tables { line, isHeaded } (s :: others)))
  | some (.table s) => .error ⟨line, .tablesAreTable name s.line⟩
  | some (.value _ before) => .error ⟨line, .tablesAreValue name before⟩

end Table

/-- Adds a table with given keys below the table of a path.  The name stands for the keys in complaints. -/
def addNamed (isArray : Bool) (line : Nat) (isHeaded : Bool) (path : List String) (name : String)
    (keys : List String) (root : Table) : Except Error Table :=
  let add := if isArray then Table.addElement else Table.addTable
  root.within line (add line isHeaded name (keys.getLastD "")) (path ++ keys.dropLast)

mutual

/-- Whether there is a table between braces in a value. -/
def Value.hasTable : Value → Bool
  | .array vs => Value.anyTable vs
  | .inline _ _ => true
  | _ => false

/-- Whether there is a table between braces in some values. -/
def Value.anyTable : List Value → Bool
  | [] => false
  | v :: vs => v.hasTable || Value.anyTable vs

end

mutual

/-- Adds a pair to the table of a path.  Tables between braces are fields of their own, and the ones
within arrays make up an array of tables. -/
def addPair (path : List String) (inArray : Bool) : Pair → Table → Except Error Table
  | .mk none line _ _, _ => .error ⟨line, .badEscape⟩
  | .mk (some key) _ v line, root => do
    let root ← addTables path inArray key v root
    if v.hasTable then return root else root.within line (Table.addValue line key v) path

/-- Adds the tables in the value of a key, and checks its strings. -/
def addTables (path : List String) (inArray : Bool) (key : String) : Value → Table →
    Except Error Table
  | .text none line, _ => .error ⟨line, .badEscape⟩
  | .array vs, root => addElements path key vs root
  | .inline line pairs, root => do
    let root ← addNamed inArray line false path key [key] root
    addPairs (path ++ [key]) inArray pairs root
  | _, root => .ok root

/-- Adds the tables in the values of an array. -/
def addElements (path : List String) (key : String) : List Value → Table → Except Error Table
  | [], root => .ok root
  | v :: vs, root => do addElements path key vs (← addTables path true key v root)

/-- Adds pairs to the table of a path. -/
def addPairs (path : List String) (inArray : Bool) : List Pair → Table → Except Error Table
  | [], root => .ok root
  | p :: ps, root => do addPairs path inArray ps (← addPair path inArray p root)

end

/-- Adds entries to a document, to the table of a path at first. -/
def addEntries (path : List String) : List Entry → Table → Except Error Table
  | [], root => .ok root
  | .pair p :: rest, root => do addEntries path rest (← addPair path false p root)
  | .header isArray name keys line :: rest, root => do
    match keys.mapM id with
    | none => throw ⟨line, .badEscape⟩
    | some path => addEntries path rest (← addNamed isArray line true [] name path root)

/-- The table of a document. -/
def load (source : String) : Except Error Table := do
  addEntries [] (← parse source) { line := 1 }

end MiniPascal.Toml
