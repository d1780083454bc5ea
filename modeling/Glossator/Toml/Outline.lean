import Glossator.Toml.Basic

/-!
# Tables under construction

A document fills its tables line by line, and a table remembers how it came about: a table is given
a header once, and the tables that dotted keys make belong to those keys alone.
-/

set_option autoImplicit false

namespace Glossator.Toml

/-- How a table came about. -/
inductive Origin where
  /-- It has a header of its own. -/
  | header
  /-- It is named on the way to another table. -/
  | passage
  /-- It is named on the way of a dotted key. -/
  | dotted
deriving DecidableEq, Repr

/-- What a name stands for while a document is read. -/
inductive Outline where
  | value (v : Toml)
  | table (origin : Origin) (fields : List (Text × Outline))
  /-- Tables that share a header; the last one is being filled. -/
  | tables (finished : List (List (Text × Outline))) (last : List (Text × Outline))
deriving Repr

namespace Outline

/-- The fields of a table under construction, in order. -/
abbrev Fields := List (Text × Outline)

mutual

/-- The value that an outline amounts to. -/
def toToml : Outline → Toml
  | value v => v
  | table _ fields => .table (toTomlFields fields)
  | tables finished last => .array (toTomlTables finished ++ [.table (toTomlFields last)])

/-- The fields of a table. -/
def toTomlFields : List (Text × Outline) → List (Text × Toml)
  | [] => []
  | (name, outline) :: fields => (name, toToml outline) :: toTomlFields fields

/-- The tables that share a header. -/
def toTomlTables : List (List (Text × Outline)) → List Toml
  | [] => []
  | fields :: rest => .table (toTomlFields fields) :: toTomlTables rest

end

namespace Fields

/-- Gives a name another meaning, in its place. -/
def set (fields : Fields) (name : Text) (outline : Outline) : Fields :=
  fields.map fun (n, o) => if n = name then (n, outline) else (n, o)

/-- Changes the table that a path leads to, making the tables that are missing on the way. The
change is told how the table came about. Dotted keys do not enter a table with a header. -/
def descend (dotted : Bool) (change : Origin → Fields → Option Fields) :
    List Text → Origin → Fields → Option Fields
  | [], origin, fields => change origin fields
  | name :: path, _, fields =>
    match fields.lookup name with
    | none => do
      let origin : Origin := if dotted then .dotted else .passage
      let inner ← descend dotted change path origin []
      some (fields ++ [(name, .table origin inner)])
    | some (.value _) => none
    | some (.table origin inner) =>
      if dotted && origin = .header then none
      else do
        let inner ← descend dotted change path origin inner
        some (fields.set name (.table origin inner))
    | some (.tables finished last) => do
      let last ← descend dotted change path .header last
      some (fields.set name (.tables finished last))

/-- Gives a table its header: it must not have one yet, nor come from a dotted key. -/
def openTable (path : List Text) (name : Text) (fields : Fields) : Option Fields :=
  descend false (fun _ inner =>
    match inner.lookup name with
    | none => some (inner ++ [(name, .table .header [])])
    | some (.table .passage content) => some (inner.set name (.table .header content))
    | some _ => none) path .header fields

/-- Starts a further one of the tables that share a header. -/
def openFurther (path : List Text) (name : Text) (fields : Fields) : Option Fields :=
  descend false (fun _ inner =>
    match inner.lookup name with
    | none => some (inner ++ [(name, .tables [] [])])
    | some (.tables finished last) => some (inner.set name (.tables (finished ++ [last]) []))
    | some _ => none) path .header fields

/-- Gives a dotted key its value in a table; a key has one value. -/
def assign (path : List Text) (name : Text) (v : Toml) (fields : Fields) : Option Fields :=
  descend true (fun origin inner =>
    if path ≠ [] && origin ≠ .dotted then none
    else match inner.lookup name with
      | none => some (inner ++ [(name, .value v)])
      | some _ => none) path .header fields

/-- Gives a dotted key its value in the table that a header leads to. -/
def assignIn (table path : List Text) (name : Text) (v : Toml) (fields : Fields) :
    Option Fields :=
  descend false (fun _ inner => assign path name v inner) table .header fields

end Fields

end Outline

end Glossator.Toml
