import Glossator.Java.Block
import Glossator.Java.DocComment
import Glossator.Java.Source

/-!
# Type declarations

The classes, interfaces and enumerations of a stretch of Java text. A header counts if its name is
outside comments and if what follows the name continues a declaration; the block after it is the
body of the type.

* `Java.length_body_lt`: the body of a type is shorter than the stretch that declares it.
-/

set_option autoImplicit false

namespace Glossator.Java

/-- The kinds of types. -/
inductive TypeKind where
  | classType
  | interface
  | enumeration
deriving DecidableEq, Repr

/-- The kind of type that a keyword declares. -/
def TypeKind.ofKeyword (keyword : Text) : TypeKind :=
  if keyword = "interface".toList then .interface
  else if keyword = "enum".toList then .enumeration
  else .classType

/-- What follows the angle bracket that closes all open ones. -/
def afterTypeParameters? (depth : Nat) : Text → Option Text
  | [] => none
  | c :: rest =>
    if c = '<' then afterTypeParameters? (depth + 1) rest
    else if c = '>' then
      if depth ≤ 1 then some rest else afterTypeParameters? (depth - 1) rest
    else afterTypeParameters? depth rest

/-- The text starts with a word that continues the header of a type, and a blank after it. -/
def startsWithClause (t : Text) : Bool :=
  ["extends", "implements", "permits"].any fun word =>
    match Text.after? word.toList t with
    | some (c :: _) => isBlank c
    | _ => false

/-- What follows the name of a type: type parameters perhaps, then a clause or the opening brace. -/
def continuesTypeHeader (t : Text) : Bool :=
  let opensBody (t : Text) : Bool := t.head? == some '{' || startsWithClause t
  match Text.trimStart t with
  | '<' :: rest => (afterTypeParameters? 1 rest).any fun after => opensBody (Text.trimStart after)
  | t => opensBody t

/-- A type declared in a stretch; all offsets are those of the stretch. -/
structure TypeDeclaration where
  name : Text
  kind : TypeKind
  description : Option Text
  /-- From the start of the header to the end of the body. -/
  extent : Span
  block : Block

/-- The header is one of a type: its name is outside comments, and what follows the name continues
the header. -/
def isTypeHeader (src : Source) (s : Stretch) (m : Match HeaderPart) : Bool :=
  (m.span? .name).any fun name =>
    !src.isComment (s.start + name.start) && continuesTypeHeader (s.text.drop name.stop)

/-- The headers of types in a stretch. -/
def typeHeaders (src : Source) (s : Stretch) : List (Match HeaderPart) :=
  (typeHeader.findAll s.text).filter (isTypeHeader src s)

/-- The declaration that a header opens, if a block follows. -/
def typeDeclaration? (s : Stretch) (m : Match HeaderPart) : Option TypeDeclaration :=
  (block? s.text m.stop).map fun block =>
    { name := m.text s.text .name
      kind := .ofKeyword (m.text s.text .kind)
      description := (m.text? s.text .comments).bind cleanComment?
      extent := ⟨m.start, block.stop⟩
      block := block }

/-- All types declared in a stretch, those nested in others included. -/
def typeDeclarations (src : Source) (s : Stretch) : List TypeDeclaration :=
  (typeHeaders src s).filterMap (typeDeclaration? s)

/-- The declarations that do not start within an earlier one that was kept; `covered` holds the
extents of those. -/
def outermost (covered : List Span) : List TypeDeclaration → List TypeDeclaration
  | [] => []
  | d :: ds =>
    if covered.any (·.contains d.extent.start) then outermost covered ds
    else d :: outermost (d.extent :: covered) ds

/-- The types declared directly in a stretch, none of them within another one. -/
def directTypes (src : Source) (s : Stretch) : List TypeDeclaration :=
  outermost [] (typeDeclarations src s)

/-- The body of a type. -/
def TypeDeclaration.body (d : TypeDeclaration) (s : Stretch) : Stretch := s.within d.block.inner

theorem mem_of_mem_outermost {covered : List Span} {ds : List TypeDeclaration}
    {d : TypeDeclaration} (h : d ∈ outermost covered ds) : d ∈ ds := by
  induction ds generalizing covered with
  | nil => exact h
  | cons d' ds ih =>
    rw [outermost] at h
    split at h
    · exact List.mem_cons_of_mem _ (ih h)
    · rcases List.mem_cons.1 h with rfl | h
      · exact List.mem_cons_self
      · exact List.mem_cons_of_mem _ (ih h)

/-- The body of a type is shorter than the stretch that declares it. -/
theorem length_body_lt {src : Source} {s : Stretch} {d : TypeDeclaration}
    (h : d ∈ typeDeclarations src s) : (d.body s).text.length < s.text.length := by
  obtain ⟨m, -, hm⟩ := List.mem_filterMap.1 h
  simp only [typeDeclaration?, Option.map_eq_some_iff] at hm
  obtain ⟨block, hblock, rfl⟩ := hm
  exact Block.inner_length_lt (opening_lt_of_block? hblock)

end Glossator.Java
