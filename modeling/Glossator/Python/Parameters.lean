import Glossator.Tree

/-!
# Parameters

How the parameters of a function are written in its record: stars, name and annotation, without
defaults and without comments.
-/

set_option autoImplicit false

namespace Glossator.Python

/-- A starred name without blanks between. -/
def splatText (source : Text) (t : Tree) : Text :=
  let stars := if t.kind == "dictionary_splat_pattern" then ['*', '*'] else ['*']
  match t.namedChildren.head? with
  | some name => stars ++ Text.trim (name.text source)
  | none => Text.trim (t.text source)

/-- The name of a parameter with its stars. -/
def parameterTarget (source : Text) (t : Tree) : Text :=
  if t.kind == "list_splat_pattern" || t.kind == "dictionary_splat_pattern" then splatText source t
  else Text.trim (t.text source)

/-- A name with the annotation after it, if there is one. -/
def annotated (source target : Text) (type : Option Tree) : Text :=
  match type with
  | some type => target ++ ':' :: ' ' :: Text.trim (type.text source)
  | none => target

/-- One parameter or separator; none for a comment. -/
def parameter? (source : Text) (t : Tree) : Option Text :=
  match t.kind with
  | "comment" => none
  | "identifier" => some (t.text source)
  | "positional_separator" => some ['/']
  | "keyword_separator" => some ['*']
  | "list_splat_pattern" | "dictionary_splat_pattern" => some (splatText source t)
  | "typed_parameter" =>
    t.namedChildren.head?.map fun target =>
      annotated source (parameterTarget source target) (t.child? "type")
  | "default_parameter" => (t.child? "name").map (parameterTarget source)
  | "typed_default_parameter" =>
    (t.child? "name").map fun name =>
      annotated source (parameterTarget source name) (t.child? "type")
  | _ => some (Text.trim (t.text source))

/-- The parameters of a list, in order. -/
def parameters (source : Text) (list : Tree) : List Text :=
  list.namedChildren.filterMap (parameter? source)

end Glossator.Python
