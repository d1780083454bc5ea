import Glossator.Language
import Glossator.Path

/-!
# Recognising a language by file extension

Only the last extension of the file name counts, and the case of its letters does not.
-/

set_option autoImplicit false

namespace Glossator.Detection

/-- The extensions of each language. A header file counts as C. -/
def extensions : List (String × Language) :=
  [("py", .python), ("c", .c), ("h", .c), ("cpp", .cpp), ("cc", .cpp), ("cxx", .cpp),
    ("hpp", .cpp), ("hh", .cpp), ("hxx", .cpp), ("cs", .csharp), ("go", .go), ("java", .java),
    ("js", .javascript), ("mjs", .javascript), ("cjs", .javascript), ("jsx", .javascript),
    ("ts", .javascript), ("tsx", .javascript), ("prompt", .prompt), ("txt", .prompt)]

/-- The language of an extension. Lowering the letters A to Z is enough: no other character has a
letter of a listed extension as its lower case. -/
def ofExtension? (extension : Text) : Option Language :=
  let wanted := extension.map Char.toLower
  (extensions.find? fun e => e.1.toList == wanted).map Prod.snd

/-- The language of the file a path names, by its extension. -/
def byFileName? (path : Text) : Option Language := (Path.extension? path).bind ofExtension?

/-- The languages that some extension leads to, sorted by name. -/
def recognised : List Language :=
  (Language.all.filter fun l => extensions.any (·.2 = l)).mergeSort fun a b => a.name ≤ b.name

end Glossator.Detection
