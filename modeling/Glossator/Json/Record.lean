import Glossator.Json.Basic

/-!
# Records in JSON

A record is written as an object with a field for each of its members. It is read from such an
object, whatever other fields that has, or from the array of its members in order.
-/

set_option autoImplicit false

namespace Glossator.Json

/-- Looks up the members of a record by name. -/
abbrev Members := String → Option Json

/-- The members found in an object, or in an array that lists the first of them in order; an
array must not be longer than the record. -/
def members? (names : List String) : Json → Option Members
  | object fields => some fun name => (object fields).get? name
  | array items =>
    if items.length ≤ names.length then some fun name => (names.zip items).lookup name else none
  | _ => none

/-- The members found in an object, or in an array that lists all of them in order. -/
def allMembers? (names : List String) (j : Json) : Option Members :=
  match j with
  | array items => if items.length = names.length then members? names j else none
  | _ => members? names j

namespace Members

variable {α : Type}

/-- A member that must be there. -/
def required? (ms : Members) (name : String) (read : Json → Option α) : Option α :=
  (ms name).bind read

/-- A member that may be `null` or missing. -/
def optional? (ms : Members) (name : String) (read : Json → Option α) : Option (Option α) :=
  match ms name with
  | none => some none
  | some j => orNull? read j

/-- A member that keeps a default if it is missing. -/
def withDefault? (ms : Members) (name : String) (default : α) (read : Json → Option α) :
    Option α :=
  match ms name with
  | none => some default
  | some j => read j

end Members

end Glossator.Json
