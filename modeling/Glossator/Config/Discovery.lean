import Glossator.Config.Toml
import Glossator.FileTree

/-!
# Finding the configuration

The configuration is in the file that is asked for, or else in the first file of a usual name. A
file that is there but cannot be used is an error; a file that is missing means the defaults. A
configuration that is saved takes the place of the file.
-/

set_option autoImplicit false

namespace Glossator.Config

/-- The names of configuration files, in the order in which they are looked for. -/
def fileNames : List String := ["Commentsmith.toml", "commentsmith.toml", ".commentsmith.toml"]

/-- The configuration in a file. -/
def load (here : Location) (path : Text) : Except Error Config :=
  match here.readText path with
  | .ok t => parse t
  | .error e => .error (.io e)

/-- Saves a configuration in a file: what became of it, and the place after that. -/
def save (c : Config) (here : Location) (path : Text) : Except Error Unit × Location :=
  match c.render with
  | .error e => (.error e, here)
  | .ok t =>
    match here.write path (Utf8.encode t) with
    | .error e => (.error (.io e), here)
    | .ok here => (.ok (), here)

/-- The configuration in a directory, the defaults if there is none. -/
def loadFrom (here : Location) (dir : Text) : Except Error Config :=
  match (fileNames.map fun name => Path.join dir name.toList).find? here.hasPath with
  | some path => load here path
  | none => .ok {}

/-- The configuration in a given file, or else in the working directory. -/
def find (here : Location) : Option Text → Except Error Config
  | some path => if here.hasPath path then load here path else .ok {}
  | none => loadFrom here ['.']

end Glossator.Config
