import Glossator.Java.Comments
import Glossator.Java.Header

/-!
# Java sources

What is known of a whole file before its declarations are searched: its comments and its package.
Declarations are searched in stretches of the file, which remember where they start.
-/

set_option autoImplicit false

namespace Glossator.Java

/-- A file with what is read off it once. -/
structure Source where
  text : Text
  comments : List Span
  package : Option Text

namespace Source

/-- A file read as a source. -/
def ofText (t : Text) : Source where
  text := t
  comments := Java.comments t
  package := (packageHeader.find? t).map fun m => m.text t .name

/-- The line of an offset, counted from 1. -/
def lineOf (src : Source) (offset : Nat) : Nat := (src.text.take offset).count '\n' + 1

/-- The offset lies in a comment. -/
def isComment (src : Source) (offset : Nat) : Bool := inComment src.comments offset

end Source

/-- A stretch of a file: its offset in the file and its text. -/
structure Stretch where
  start : Nat
  text : Text

namespace Stretch

/-- The whole of a text. -/
def whole (t : Text) : Stretch := ⟨0, t⟩

/-- The part of a stretch that a span of it covers. -/
def within (s : Stretch) (span : Span) : Stretch := ⟨s.start + span.start, span.slice s.text⟩

end Stretch

end Glossator.Java
