import Glossator.Json.Basic

/-!
# Writing JSON

The compact form has no blanks. The indented form puts every item and field on a line of its own,
two spaces further in than its surroundings; an empty array or object stays on one line.
-/

set_option autoImplicit false

namespace Glossator.Json

/-- How a character is written inside a string: quotes, backslashes and control characters are
escaped, with the short form where there is one. -/
def escape (c : Char) : Text :=
  match c with
  | '"' => ['\\', '"']
  | '\\' => ['\\', '\\']
  | '\x08' => ['\\', 'b']
  | '\x0c' => ['\\', 'f']
  | '\n' => ['\\', 'n']
  | '\r' => ['\\', 'r']
  | '\t' => ['\\', 't']
  | c => if c.toNat < 32 then ['\\', 'u'] ++ Digits.hexadecimal 4 c.toNat else [c]

/-- A text as a JSON string. -/
def quote (t : Text) : Text := '"' :: (t.flatMap escape ++ ['"'])

mutual

/-- The compact form of a value. -/
def compact : Json → Text
  | null => "null".toList
  | bool true => "true".toList
  | bool false => "false".toList
  | integer i => Digits.decimalInt i
  | decimal literal => literal.toList
  | string s => quote s.toList
  | array [] => "[]".toList
  | array (item :: items) => '[' :: (compact item ++ compactItems items)
  | object [] => "\x7b\x7d".toList
  | object ((name, value) :: fields) =>
    '{' :: (quote name.toList ++ ':' :: (compact value ++ compactFields fields))

/-- The further items of an array and its end. -/
def compactItems : List Json → Text
  | [] => [']']
  | item :: items => ',' :: (compact item ++ compactItems items)

/-- The further fields of an object and its end. -/
def compactFields : List (String × Json) → Text
  | [] => ['}']
  | (name, value) :: fields =>
    ',' :: (quote name.toList ++ ':' :: (compact value ++ compactFields fields))

end

/-- The start of a line at a depth of nesting. -/
def newLine (depth : Nat) : Text := '\n' :: List.replicate (2 * depth) ' '

mutual

/-- The indented form of a value at a depth of nesting. -/
def indented (depth : Nat) : Json → Text
  | array (item :: items) =>
    '[' :: (newLine (depth + 1) ++ (indented (depth + 1) item ++ indentedItems depth items))
  | object ((name, value) :: fields) =>
    '{' :: (newLine (depth + 1) ++ (quote name.toList ++ ':' :: ' ' ::
      (indented (depth + 1) value ++ indentedFields depth fields)))
  | j => compact j

/-- The further items of an array at a depth of nesting, and its end. -/
def indentedItems (depth : Nat) : List Json → Text
  | [] => newLine depth ++ [']']
  | item :: items =>
    ',' :: (newLine (depth + 1) ++ (indented (depth + 1) item ++ indentedItems depth items))

/-- The further fields of an object at a depth of nesting, and its end. -/
def indentedFields (depth : Nat) : List (String × Json) → Text
  | [] => newLine depth ++ ['}']
  | (name, value) :: fields =>
    ',' :: (newLine (depth + 1) ++ (quote name.toList ++ ':' :: ' ' ::
      (indented (depth + 1) value ++ indentedFields depth fields)))

end

/-- A value in compact form. -/
def toCompact (j : Json) : String := String.ofList (compact j)

/-- A value in indented form. -/
def toIndented (j : Json) : String := String.ofList (indented 0 j)

end Glossator.Json
