import Glossator.Text.Utf8

/-!
# Globs

A glob is a wildcard pattern for the bytes of a path. `?` and `*` stay inside one component of the
path; `**` as a whole component stands for any number of components. Brackets list the bytes that
may stand in one place, braces list alternatives, and a backslash takes away the meaning of what
follows. A bracket that is never closed stands for itself.

`Token.rests` is the meaning: what may remain of a path after a token has taken its part.
-/

set_option autoImplicit false

namespace Glossator.Ignore

/-- A part of a glob. -/
inductive Token where
  | byte (b : UInt8)
  /-- One byte of a component. -/
  | any
  /-- Any number of bytes of a component. -/
  | star
  /-- Any number of components at the start of a path. -/
  | leading
  /-- A slash and all that follows. -/
  | trailing
  /-- A slash, or any number of components between two slashes. -/
  | between
  /-- One byte inside the ranges, or outside of all of them. -/
  | oneOf (negated : Bool) (ranges : List (UInt8 × UInt8))
  /-- One of several branches. -/
  | choice (branches : List (List Token))

/-- A pattern for whole paths. -/
abbrev Glob := List Token

/-- The byte between the components of a path. -/
def slash : UInt8 := 47

/-- A path and what remains of it after each of its first bytes. -/
def suffixes : Bytes → List Bytes
  | [] => [[]]
  | b :: bytes => (b :: bytes) :: suffixes bytes

/-- What remains of a path after each of the first bytes of its first component. -/
def suffixesInComponent : Bytes → List Bytes
  | [] => [[]]
  | b :: bytes => (b :: bytes) :: if b = slash then [] else suffixesInComponent bytes

/-- What remains of a path after each of its slashes. -/
def afterSlashes : Bytes → List Bytes
  | [] => []
  | b :: bytes => if b = slash then bytes :: afterSlashes bytes else afterSlashes bytes

/-- The branch demands something of a path, if only by way of further branches. -/
def isVisible : Token → Bool
  | .choice branches => go branches
  | _ => true
where
  /-- Some branch has a visible token. -/
  go : List (List Token) → Bool
    | [] => false
    | branch :: branches => inBranch branch || go branches
  /-- Some token is visible. -/
  inBranch : List Token → Bool
    | [] => false
    | token :: tokens => isVisible token || inBranch tokens

mutual

/-- What may remain of a path after a token has taken its part from the start. -/
def Token.rests : Token → Bytes → List Bytes
  | .byte b, bytes => match bytes with
    | x :: rest => if x = b then [rest] else []
    | [] => []
  | .any, bytes => match bytes with
    | x :: rest => if x = slash then [] else [rest]
    | [] => []
  | .star, bytes => suffixesInComponent bytes
  | .leading, bytes => bytes :: afterSlashes bytes
  | .trailing, bytes => match bytes with
    | x :: rest => if x = slash then suffixes rest else []
    | [] => []
  | .between, bytes => match bytes with
    | x :: rest => if x = slash then rest :: afterSlashes rest else []
    | [] => []
  | .oneOf negated ranges, bytes => match bytes with
    | x :: rest =>
      if ranges.any (fun (low, high) => low ≤ x && x ≤ high) != negated then [rest] else []
    | [] => []
  | .choice branches, bytes =>
    if isVisible (.choice branches) then branchRests branches bytes else [bytes]

/-- What may remain after one of several branches; branches that demand nothing do not count. -/
def branchRests : List (List Token) → Bytes → List Bytes
  | [], _ => []
  | branch :: branches, bytes =>
    (if branch.any isVisible then sequenceRests branch [bytes] else []) ++
      branchRests branches bytes

/-- What may remain after tokens in a row, of paths that each stand for themselves. -/
def sequenceRests : List Token → List Bytes → List Bytes
  | [], paths => paths
  | token :: tokens, paths =>
    sequenceRests tokens ((paths.flatMap fun bytes => token.rests bytes).eraseDups)

end

/-- The glob matches a whole path. -/
def Glob.accepts (glob : Glob) (path : Bytes) : Bool :=
  match glob with
  | [.leading] => true
  | _ => (sequenceRests glob [path]).any (·.isEmpty)

end Glossator.Ignore
